import Xv6.Monitor.Rules

/-!
# Sleep-locks

`kernel/sleeplock.c`: a long-term lock, whose two fields are kept under the spin-lock `lk->lk`.
Assignments between which the code does nothing but hold `lk->lk` are one step.
-/

namespace Xv6.Sleeplock

open Function (update_self update_of_ne)
open Function renaming update → upd
open Monitor

/-- `struct sleeplock`; the name is only for debugging. -/
structure Lock where
  locked : Bool
  pid : Int
  deriving DecidableEq

/-- What a process knows of the lock outside of the functions: whether it has the lock, and what
`holdingsleep` said if that was its last call. -/
structure Use where
  held : Bool
  answer : Option Bool
  deriving DecidableEq

/-- The locations in the code, of process `p`; `held` says whether it had the lock when it called.
-/
inductive At (P : Type)
  | acquiresleep (p : P) (held : Bool)
  | acquired (p : P)
  | releasesleep (p : P)
  | wake (p : P)
  | released (p : P)
  | holdingsleep (p : P) (held : Bool)
  deriving DecidableEq

inductive Call
  | acquiresleep
  | releasesleep
  | holdingsleep

variable {P : Type}

@[simp] def At.process : At P → P
  | acquiresleep p _ | acquired p | releasesleep p | wake p | released p | holdingsleep p _ => p

/-- A process calls `releasesleep` only for a lock that it has. -/
def entry (p : P) (use : Use) : Call → Option (At P)
  | .acquiresleep => some (.acquiresleep p use.held)
  | .releasesleep => if use.held then some (.releasesleep p) else none
  | .holdingsleep => some (.holdingsleep p use.held)

def body (pid : P → Int) : At P → Lock → Act Lock Unit (At P) Use
  | .acquiresleep p held, lk =>
    -- while (lk->locked) sleep(lk, &lk->lk);
    if lk.locked then .sleep () (.acquiresleep p held) else .set ⟨true, pid p⟩ (.acquired p)
  | .acquired _, _ => .release ⟨true, none⟩
  | .releasesleep p, _ => .set ⟨false, 0⟩ (.wake p)
  | .wake p, _ => .wakeup () (.released p)
  | .released _, _ => .release ⟨false, none⟩
  | .holdingsleep p held, lk => .release ⟨held, some (lk.locked && lk.pid == pid p)⟩

def code (pid : P → Int) : Code P Lock Unit (At P) Use Call where
  entry := entry
  body := body pid

def initsleeplock : Lock := ⟨false, 0⟩

def unused : Use := ⟨false, none⟩

/-- The steps of any processes on one sleep-lock, `pid` being their pids and `table` the process
table. -/
abbrev Reachable [DecidableEq P] (pid : P → Int) (table : List P) :
    State P Lock Unit (At P) Use → Prop :=
  State.Reachable (code pid) table (fun _ => unused) initsleeplock fun _ _ => True

/-! ## Mutual exclusion -/

/-- The process has taken the lock and not yet given it back. -/
@[simp] def has : Loc (At P) Use → Prop
  | .out use => use.held = true
  | .at (.acquiresleep _ held) | .at (.holdingsleep _ held) => held = true
  | .at (.acquired _) | .at (.releasesleep _) => True
  | .at (.wake _) | .at (.released _) => False

/-- `lk->locked` says whether a process has the lock, and `lk->pid` which one. -/
structure Held (pid : P → Int) (loc : P → Loc (At P) Use) (lk : Lock) : Prop where
  locked : lk.locked = true ↔ ∃ p, has (loc p)
  one : ∀ p q, has (loc p) → has (loc q) → p = q
  pid : ∀ p, has (loc p) → lk.pid = pid p
  own : ∀ p l, loc p = .at l → l.process = p

section Held

variable [DecidableEq P] {pid : P → Int} {loc : P → Loc (At P) Use} {lk : Lock} {p : P}

variable {dest : Loc (At P) Use}

theorem own_update (own : ∀ q l, loc q = .at l → l.process = q)
    (mine : ∀ l, dest = .at l → l.process = p) (q : P) (l : At P) (h : upd loc p dest q = .at l) :
    l.process = q := by
  by_cases eq : q = p
  · rw [eq, update_self] at h
    rw [eq]
    exact mine l h
  rw [update_of_ne eq] at h
  exact own q l h

theorem Held.keep (held : Held pid loc lk) (same : has dest ↔ has (loc p))
    (mine : ∀ l, dest = .at l → l.process = p) : Held pid (upd loc p dest) lk := by
  have all : ∀ q, has (upd loc p dest q) ↔ has (loc q) := by
    intro q
    by_cases eq : q = p
    · rw [eq, update_self, same]
    rw [update_of_ne eq]
  refine ⟨?_, ?_, ?_, own_update held.own mine⟩
  · simp only [all]
    exact held.locked
  · simp only [all]
    exact held.one
  simp only [all]
  exact held.pid

theorem Held.take (held : Held pid loc lk) (free : lk.locked = false) (takes : has dest)
    (mine : ∀ l, dest = .at l → l.process = p) : Held pid (upd loc p dest) ⟨true, pid p⟩ := by
  have nobody : ∀ q, ¬has (loc q) := by
    intro q h
    rw [held.locked.mpr ⟨q, h⟩] at free
    cases free
  have only : ∀ q, has (upd loc p dest q) → q = p := by
    intro q h
    by_contra ne
    rw [update_of_ne ne] at h
    exact nobody q h
  refine ⟨iff_of_true rfl ⟨p, ?_⟩, ?_, ?_, own_update held.own mine⟩
  · rw [update_self]
    exact takes
  · intro q r hq hr
    rw [only q hq, only r hr]
  intro q h
  rw [only q h]

theorem Held.give (held : Held pid loc lk) (had : has (loc p)) (gives : ¬has dest)
    (mine : ∀ l, dest = .at l → l.process = p) : Held pid (upd loc p dest) ⟨false, 0⟩ := by
  have nobody : ∀ q, ¬has (upd loc p dest q) := by
    intro q h
    by_cases eq : q = p
    · rw [eq, update_self] at h
      exact gives h
    rw [update_of_ne eq] at h
    exact eq (held.one q p h had)
  exact ⟨iff_of_false nofun fun ⟨q, h⟩ => nobody q h, fun q _ h => absurd h (nobody q),
    fun q h => absurd h (nobody q), own_update held.own mine⟩

theorem Held.enter {use : Use} {f : Call} {l : At P} (held : Held pid loc lk)
    (out : loc p = .out use) (entered : entry p use f = some l) :
    Held pid (upd loc p (.at l)) lk := by
  cases f with
  | acquiresleep | holdingsleep =>
    cases entered
    refine held.keep ?_ ?_
    · rw [out]
      rfl
    rintro _ ⟨⟩
    rfl
  | releasesleep =>
    rw [entry] at entered
    split at entered
    · rename_i mine
      cases entered
      refine held.keep ?_ ?_
      · rw [out]
        exact iff_of_true trivial mine
      rintro _ ⟨⟩
      rfl
    cases entered

theorem Held.next {l : At P} {lk' : Lock} (held : Held pid loc lk) (here : loc p = .at l)
    (step : (code pid).Next l lk dest lk') : Held pid (upd loc p dest) lk' := by
  have mine := held.own p l here
  have stays : ∀ {l' : At P}, l'.process = l.process → ∀ l'', Loc.at (W := Use) l' = .at l'' →
    l''.process = p := by
    rintro l' same _ ⟨⟩
    rw [same, mine]
  cases l with
  | acquiresleep q had =>
    cases mine
    cases locked : lk.locked with
    | true =>
      obtain ⟨rfl, rfl⟩ := step.of_sleep (if_pos locked)
      refine held.keep ?_ (stays rfl)
      rw [here]
    | false =>
      obtain ⟨rfl, rfl⟩ := step.of_set (if_neg (by simp [locked]))
      exact held.take locked trivial (stays rfl)
  | acquired q =>
    obtain ⟨rfl, rfl⟩ := step.of_release rfl
    refine held.keep ?_ nofun
    rw [here]
    exact iff_of_true rfl trivial
  | releasesleep q =>
    obtain ⟨rfl, rfl⟩ := step.of_set rfl
    refine held.give ?_ id (stays rfl)
    rw [here]
    trivial
  | wake q =>
    obtain ⟨rfl, rfl⟩ := step.of_wakeup rfl
    refine held.keep ?_ (stays rfl)
    rw [here]
    exact Iff.rfl
  | released q =>
    obtain ⟨rfl, rfl⟩ := step.of_release rfl
    refine held.keep ?_ nofun
    rw [here]
    exact iff_of_false nofun id
  | holdingsleep q had =>
    obtain ⟨rfl, rfl⟩ := step.of_release rfl
    refine held.keep ?_ nofun
    rw [here]
    exact Iff.rfl

omit [DecidableEq P] in
theorem Held.init (pid : P → Int) : Held pid (fun _ => .out unused) initsleeplock := by
  have nobody : ∀ p : P, ¬has (P := P) (.out unused) := by
    intro p h
    cases h
  exact ⟨iff_of_false nofun fun ⟨p, h⟩ => nobody p h, fun p _ h => absurd h (nobody p),
    fun p h => absurd h (nobody p), nofun⟩

variable {s : State P Lock Unit (At P) Use}

theorem Reachable.held {table : List P} (run : Reachable pid table s) : Held pid s.loc s.data :=
  State.Reachable.rule (Held pid) (.init pid) (fun held _ => held.enter) Held.next run

end Held

/-! ## Lost wakeups -/

theorem discipline (pid : P → Int) :
    (code pid).Discipline (fun _ _ => True) (fun l _ => ∃ p, l = .wake p) (fun _ lk => lk.locked = true) fun _ => True where
  entry _ _ := trivial
  set := by
    intro l lk lk' next _ act
    refine ⟨trivial, fun _ _ => ?_⟩
    cases l with
    | acquiresleep p held =>
      simp only [code, body] at act
      split at act
      · cases act
      cases act
      exact .inl rfl
    | releasesleep p =>
      cases act
      exact .inr ⟨p, rfl⟩
    | _ => cases act
  wakeup _ _ := ⟨trivial, fun _ other => absurd rfl other⟩
  sleep := by
    intro l lk chan next _ act
    cases l with
    | acquiresleep p held =>
      simp only [code, body] at act
      split at act
      · rename_i locked
        exact ⟨fun _ => trivial, locked, fun _ ⟨_, h⟩ => nomatch h⟩
      cases act
    | _ => cases act
  yes := by
    intro l lk yes no _ act
    cases l <;> simp [code, body] at act
    split at act <;> cases act
  no := by
    intro l lk yes no _ act
    cases l <;> simp [code, body] at act
    split at act <;> cases act
  release := by
    rintro l lk w _ act _ ⟨p, rfl⟩
    cases act

/-- The process has returned from `acquiresleep` and has not yet called `releasesleep`. -/
def Inside (s : State P Lock Unit (At P) Use) (p : P) : Prop :=
  match s.loc p with
  | .out use => use.held = true
  | .at (.acquiresleep _ held) | .at (.holdingsleep _ held) => held = true
  | .at _ => False

theorem Inside.has {s : State P Lock Unit (At P) Use} {p : P} (h : Inside s p) : has (s.loc p) := by
  rw [Inside] at h
  split at h
  · rename_i here
    rw [here]
    exact h
  · rename_i here
    rw [here]
    exact h
  · rename_i here
    rw [here]
    exact h
  cases h

/-- At most one process has the lock, and none sleeps on a lock that is free. -/
theorem sleeplock_excludes_and_wakes [DecidableEq P] {pid : P → Int} {table : List P}
    (all : ∀ p, p ∈ table) {s : State P Lock Unit (At P) Use} (run : Reachable pid table s) :
    (∀ p q, Inside s p → Inside s q → p = q) ∧
      (s.lk = none → s.data.locked = false →
        ∀ p, ¬(s.state p = .sleeping ∧ s.chan p = some ())) := by
  constructor
  · intro p q hp hq
    exact run.held.one p q hp.has hq.has
  rintro free unlocked p ⟨sleeping, chan⟩
  have locked : s.data.locked = true :=
    run.sleepers (discipline pid) all (fun _ _ _ => trivial) free sleeping chan
  rw [unlocked] at locked
  cases locked

local instance two : NeZero 2 := ⟨by decide⟩

/-- Process 0 takes the lock, and process 1 goes to sleep on it. -/
def takeAndWait : List (Action (Fin 2) Call) :=
  .call 0 .acquiresleep :: List.replicate 3 (.run 0) ++ .call 1 .acquiresleep :: List.replicate 7 (.run 1)

theorem takeAndWait_excludes : ∃ s : State (Fin 2) Lock Unit (At (Fin 2)) Use,
    Reachable (fun p : Fin 2 => (p.val : Int) + 1) [0, 1] s ∧ Inside s 0 ∧ s.state 1 = .sleeping ∧
    ((∀ p q, Inside s p → Inside s q → p = q) ∧
      (s.lk = none → s.data.locked = false →
        ∀ p, ¬(s.state p = .sleeping ∧ s.chan p = some ()))) := by
  have played : ((State.init (fun _ => unused) initsleeplock).play (code fun p : Fin 2 => (p.val : Int) + 1) [0, 1]
      (fun _ _ => true) takeAndWait).any (fun s => decide (s.loc 0 = .out ⟨true, none⟩) && decide (s.state 1 = .sleeping)) = true := by
    decide
  obtain ⟨s, run, check⟩ := State.Reachable.of_play (fun _ _ _ _ => trivial) played
  rw [Bool.and_eq_true, decide_eq_true_iff, decide_eq_true_iff] at check
  refine ⟨s, run, ?_, check.2, sleeplock_excludes_and_wakes (by decide) run⟩
  rw [Inside, check.1]

end Xv6.Sleeplock
