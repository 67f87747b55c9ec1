import Mathlib.Tactic

/-!
# Interrupts and the threads they belong to

`push_off` and `pop_off` of `kernel/spinlock.c`, with `sched`, `scheduler` and the trap code around
them. The nesting depth `noff` and the flag `intena` are kept in `struct cpu`, but the nesting belongs
to a kernel thread, which may go on on another CPU. An `acquire` begins with `push_off` and a
`release` ends with `pop_off`; what the locks guard plays no part here.

Interrupts may come between any two steps while they are on, also in the middle of `push_off`. A trap
is a new activity of the same thread, above the one that it interrupts.
-/

namespace Xv6.Intr

open Function renaming update → upd, update_self → upd_self, update_of_ne → upd_ne
open Function (update_self)

set_option linter.unusedSectionVars false

/-- Where an activity of a thread is: between calls; in `push_off`, after `old = intr_get()` and
after `intr_off()`; in `sched`, switched out and before `mycpu()->intena = intena`; or at the
start of `forkret`, never run. -/
inductive Micro
  | idle
  | read (old : Bool)
  | off (old : Bool)
  | parked (intena : Bool)
  | resumed (intena : Bool)
  | start
  deriving DecidableEq

/-- A kernel thread: its activities, the innermost first, and for the record how many calls of
`push_off` it has outstanding, whether interrupts were on at the outermost of them, and whether that
one is the lock it was born with. -/
structure Thread where
  acts : List Micro
  out : Nat
  outer : Bool
  newborn : Bool
  deriving DecidableEq

/-- `struct cpu`, and whether interrupts are on; `runs` is the process whose thread runs, none while
the scheduler does. -/
structure Cpu (P : Type) where
  intr : Bool
  noff : Nat
  intena : Bool
  runs : Option P

structure State (C P : Type) where
  cpu : C → Cpu P
  thread : C ⊕ P → Thread

inductive Panic
  | popOffInterruptible
  | popOff
  | schedLocks
  | schedInterruptible
  deriving DecidableEq

/-- What a CPU does next. `run` goes on inside `push_off` and `sched`. -/
inductive Action (P : Type)
  | pushOff
  | popOff
  | run
  | intrOn
  | intrOff
  | trap
  | sret
  | sched
  | dispatch (p : P)
  | allocproc (p : P)

/-- The context that `allocproc` makes: the thread is going to return to `forkret`. -/
def Thread.new : Thread := ⟨[.start], 0, false, false⟩

namespace State

variable {C P : Type} [DecidableEq C] [DecidableEq P]

def who (s : State C P) (c : C) : C ⊕ P :=
  match (s.cpu c).runs with
  | none => .inl c
  | some p => .inr p

@[simps -fullyApplied] def set (s : State C P) (c : C) (k : Cpu P) (w : C ⊕ P) (th : Thread) : State C P where
  cpu := upd s.cpu c k
  thread := upd s.thread w th

/-- The next step of the thread `th` that runs on a CPU in the state `k`, which leaves the thread on
the CPU. A thread calls `pop_off` only for a `push_off` of its own, and the trap code switches
interrupts on and off, and returns, only while it has none outstanding. -/
def stay (k : Cpu P) (th : Thread) : Action P → List Micro → Option (Except Panic (Cpu P × Thread))
  | .pushOff, .idle :: rest => some (.ok (k, { th with acts := .read k.intr :: rest }))
  | .run, .read old :: rest => some (.ok ({ k with intr := false }, { th with acts := .off old :: rest }))
  | .run, .off old :: rest =>
    some (.ok ({ k with noff := k.noff + 1, intena := if k.noff = 0 then old else k.intena },
      { th with acts := .idle :: rest, out := th.out + 1, outer := if th.out = 0 then old else th.outer }))
  | .run, .resumed intena :: rest => some (.ok ({ k with intena }, { th with acts := .idle :: rest }))
  | .popOff, .idle :: _ =>
    if th.out = 0 then none
    else if k.intr then some (.error .popOffInterruptible)
    else if k.noff < 1 then some (.error .popOff)
    else
      some (.ok ({ k with noff := k.noff - 1, intr := if k.noff - 1 = 0 ∧ k.intena then true else k.intr },
        { th with out := th.out - 1, newborn := th.newborn && decide (th.out - 1 ≠ 0) }))
  | .intrOn, .idle :: _ => if th.out = 0 then some (.ok ({ k with intr := true }, th)) else none
  | .intrOff, .idle :: _ => if th.out = 0 then some (.ok ({ k with intr := false }, th)) else none
  | .trap, acts =>
    if k.intr then some (.ok ({ k with intr := false }, { th with acts := .idle :: acts })) else none
  | .sret, .idle :: next :: rest =>
    if th.out = 0 then some (.ok ({ k with intr := true }, { th with acts := next :: rest })) else none
  | _, _ => none

def step (s : State C P) (c : C) : Action P → Option (Except Panic (State C P))
  | .sched =>
    match (s.cpu c).runs, (s.thread (s.who c)).acts with
    | some _, .idle :: rest =>
      if (s.cpu c).noff ≠ 1 then some (.error .schedLocks)
      else if (s.cpu c).intr then some (.error .schedInterruptible)
      else some (.ok (s.set c { s.cpu c with runs := none } (s.who c)
        { s.thread (s.who c) with acts := .parked (s.cpu c).intena :: rest }))
    | _, _ => none
  | .dispatch p =>
    -- the scheduler has acquired `p->lock`
    match (s.cpu c).runs, (s.thread (.inl c)).acts with
    | none, .idle :: _ =>
      if (s.thread (.inl c)).out = 1 then
        match (s.thread (.inr p)).acts with
        | .parked intena :: rest =>
          some (.ok (s.set c { s.cpu c with runs := some p } (.inr p)
            { s.thread (.inr p) with acts := .resumed intena :: rest }))
        | [.start] =>
          some (.ok (s.set c { s.cpu c with runs := some p } (.inr p)
            { s.thread (.inr p) with acts := [.idle], out := 1, newborn := true }))
        | _ => none
      else none
    | _, _ => none
  | .allocproc p =>
    match (s.thread (.inr p)).acts with
    | .parked _ :: _ | [.start] => some (.ok { s with thread := upd s.thread (.inr p) .new })
    | _ => none
  | a => (stay (s.cpu c) (s.thread (s.who c)) a (s.thread (s.who c)).acts).map
      (Except.map fun next => s.set c next.1 (s.who c) next.2)

/-- Every CPU starts its scheduler with interrupts off. -/
def init : State C P where
  cpu _ := ⟨false, 0, false, none⟩
  thread
    | .inl _ => ⟨[.idle], 0, false, false⟩
    | .inr _ => .new

inductive Reachable : State C P → Prop
  | init : Reachable init
  | step {s t : State C P} {c : C} {a : Action P} : Reachable s → s.step c a = some (.ok t) →
      Reachable t

/-- Run a schedule: which CPU does what, in order. -/
def play (s : State C P) : List (C × Action P) → Option (State C P)
  | [] => some s
  | (c, a) :: rest =>
    match s.step c a with
    | some (.ok t) => t.play rest
    | _ => none

theorem Reachable.play {schedule : List (C × Action P)} :
    ∀ {s t : State C P}, Reachable s → s.play schedule = some t → Reachable t := by
  induction schedule with
  | nil =>
    intro s t run h
    cases h
    exact run
  | cons move rest ih =>
    intro s t run h
    obtain ⟨c, a⟩ := move
    rw [State.play] at h
    split at h
    · rename_i u stepped
      exact ih (run.step stepped) h
    cases h

theorem Reachable.of_play {schedule : List (C × Action P)} {check : State C P → Bool}
    (played : ((State.init : State C P).play schedule).any check = true) :
    ∃ s : State C P, Reachable s ∧ check s = true := by
  obtain ⟨s, h, played⟩ := (Option.any_eq_true _ _).1 played
  exact ⟨s, Reachable.init.play h, played⟩

end State

/-! ## The invariant -/

def Micro.live : Micro → Prop
  | .parked _ | .start => False
  | _ => True

/-- Interrupts may be on here. -/
def Micro.open : Micro → Prop
  | .idle | .read _ => True
  | _ => False

structure Runs {P : Type} (k : Cpu P) (th idle : Thread) : Prop where
  noff : k.noff = th.out
  off : 0 < k.noff → k.intr = false
  live : ∃ m rest, th.acts = m :: rest ∧ m.live ∧ ∀ m ∈ rest, m.open
  entered : ∀ old rest, th.acts = .off old :: rest → k.intr = false
  back : k.runs ≠ none → idle.out = 1 ∧ ∃ rest, idle.acts = .idle :: rest ∧ ∀ m ∈ rest, m.open
  resumed : ∀ intena rest, th.acts = .resumed intena :: rest → th.out = 1 ∧
    (th.newborn = true ∨ intena = th.outer)
  intena : k.runs ≠ none → 0 < th.out → th.newborn = false →
    (∀ i rest, th.acts ≠ .resumed i :: rest) →
    k.intena = th.outer

/-- A thread that is switched out, or new. -/
inductive Away (th : Thread) : Prop
  | parked {intena : Bool} {rest : List Micro} : th.acts = .parked intena :: rest →
      (∀ m ∈ rest, m.open) →
      th.out = 1 → (th.newborn = true ∨ intena = th.outer) → Away th
  | start : th.acts = [.start] → th.out = 0 → Away th

section Inv

variable {C P : Type} [DecidableEq C] [DecidableEq P] {s t : State C P} {c : C}

structure Inv (s : State C P) : Prop where
  runs : ∀ c, Runs (s.cpu c) (s.thread (s.who c)) (s.thread (.inl c))
  solo : ∀ c c' p, (s.cpu c).runs = some p → (s.cpu c').runs = some p → c = c'
  away : ∀ p, (∀ c, (s.cpu c).runs ≠ some p) → Away (s.thread (.inr p))

theorem State.who_of_some {p : P} (runs : (s.cpu c).runs = some p) : s.who c = .inr p := by
  rw [State.who, runs]

theorem State.who_of_none (runs : (s.cpu c).runs = none) : s.who c = .inl c := by
  rw [State.who, runs]

theorem Inv.init : Inv (State.init : State C P) := by
  refine ⟨fun c => ⟨rfl, nofun, ⟨_, _, rfl, trivial, nofun⟩, nofun, fun h => absurd rfl h, nofun,
    fun h => absurd rfl h⟩, nofun, fun p _ => .start rfl rfl⟩

theorem Inv.who_ne (inv : Inv s) {c' : C} (ne : c' ≠ c) : s.who c' ≠ s.who c := by
  intro eq
  cases mine : (s.cpu c).runs with
  | none =>
    rw [State.who_of_none mine] at eq
    cases theirs : (s.cpu c').runs with
    | none =>
      rw [State.who_of_none theirs] at eq
      exact ne (Sum.inl.inj eq)
    | some p =>
      rw [State.who_of_some theirs] at eq
      cases eq
  | some p =>
    rw [State.who_of_some mine] at eq
    cases theirs : (s.cpu c').runs with
    | none =>
      rw [State.who_of_none theirs] at eq
      cases eq
    | some q =>
      rw [State.who_of_some theirs] at eq
      cases eq
      exact ne (inv.solo c' c p theirs mine)

theorem Inv.nowhere (inv : Inv s) {p : P} {m : Micro} {rest : List Micro}
    (at' : (s.thread (.inr p)).acts = m :: rest) (dead : ¬m.live) (c : C) :
    (s.cpu c).runs ≠ some p := by
  intro runs
  obtain ⟨m', rest', at'', live, -⟩ := (inv.runs c).live
  rw [State.who_of_some runs, at'] at at''
  cases at''
  exact dead live

/-- One CPU and one thread change, which runs on no other CPU. -/
theorem Inv.set (inv : Inv s) {k : Cpu P} {w : C ⊕ P} {th : Thread}
    (others : ∀ c', c' ≠ c → s.who c' ≠ w ∧ .inl c' ≠ w)
    (mine : ∀ who idle, (k.runs = none → who = .inl c) → (∀ p, k.runs = some p → who = .inr p) →
      idle = upd s.thread w th (.inl c) → Runs k (upd s.thread w th who) idle)
    (solo : ∀ p, k.runs = some p → ∀ c', c' ≠ c → (s.cpu c').runs ≠ some p)
    (away : ∀ p, k.runs ≠ some p → (∀ c', c' ≠ c → (s.cpu c').runs ≠ some p) →
      Away (upd s.thread w th (.inr p))) : Inv (s.set c k w th) := by
  have here : (s.set c k w th).cpu c = k := upd_self ..
  have there : ∀ c', c' ≠ c → (s.set c k w th).cpu c' = s.cpu c' := fun c' ne => upd_ne ne ..
  refine ⟨fun c' => ?_, fun c₁ c₂ p h₁ h₂ => ?_, fun p none => ?_⟩
  · by_cases eq : c' = c
    · rw [eq, here]
      refine mine _ _ (fun none => State.who_of_none ?_) (fun p some => State.who_of_some ?_) rfl
      · rw [here, none]
      rw [here, some]
    have who : (s.set c k w th).who c' = s.who c' := by
      rw [State.who, there c' eq]
      rfl
    rw [there c' eq, who]
    simp only [State.set]
    rw [upd_ne (others c' eq).1, upd_ne (others c' eq).2]
    exact inv.runs c'
  · by_cases eq₁ : c₁ = c
    · by_cases eq₂ : c₂ = c
      · rw [eq₁, eq₂]
      rw [eq₁, here] at h₁
      rw [there c₂ eq₂] at h₂
      exact absurd h₂ (solo p h₁ c₂ eq₂)
    rw [there c₁ eq₁] at h₁
    by_cases eq₂ : c₂ = c
    · rw [eq₂, here] at h₂
      exact absurd h₁ (solo p h₂ c₁ eq₁)
    rw [there c₂ eq₂] at h₂
    exact inv.solo c₁ c₂ p h₁ h₂
  refine away p ?_ fun c' ne => ?_
  · rw [← here]
    exact none c
  rw [← there c' ne]
  exact none c'

theorem Inv.others (inv : Inv s) (c' : C) (ne : c' ≠ c) :
    s.who c' ≠ s.who c ∧ .inl c' ≠ s.who c := by
  refine ⟨inv.who_ne ne, fun eq => ?_⟩
  cases here : (s.cpu c).runs with
  | none =>
    rw [State.who_of_none here] at eq
    exact ne (Sum.inl.inj eq)
  | some p =>
    rw [State.who_of_some here] at eq
    cases eq

theorem Inv.stay (inv : Inv s) {k : Cpu P} {th : Thread} (stays : k.runs = (s.cpu c).runs)
    (runs : ∀ idle, (k.runs ≠ none → idle = s.thread (.inl c)) → Runs k th idle) :
    Inv (s.set c k (s.who c) th) := by
  refine inv.set inv.others ?_ ?_ ?_
  · intro who idle none some eq
    have self : who = s.who c := by
      cases here : (s.cpu c).runs with
      | none => rw [none (stays.trans here), State.who_of_none here]
      | some p => rw [some p (stays.trans here), State.who_of_some here]
    rw [self, upd_self]
    refine runs idle fun some => ?_
    rw [stays] at some
    obtain ⟨p, here⟩ := Option.ne_none_iff_exists'.mp some
    rw [eq, State.who_of_some here, upd_ne Sum.inl_ne_inr]
  · intro p here c' ne there
    rw [stays] at here
    exact ne (inv.solo c' c p there here)
  intro p here elsewhere
  rw [stays] at here
  have other : (.inr p : C ⊕ P) ≠ s.who c := by
    intro eq
    cases mine : (s.cpu c).runs with
    | none =>
      rw [State.who_of_none mine] at eq
      cases eq
    | some q =>
      rw [State.who_of_some mine] at eq
      cases eq
      exact here mine
  rw [upd_ne other]
  refine inv.away p fun c' => ?_
  by_cases eq : c' = c
  · rw [eq]
    exact here
  exact elsewhere c' eq

/-! ## The steps -/

variable {k k' : Cpu P} {th th' idle : Thread} {a : Action P}

theorem Runs.out_of_intr (runs : Runs k th idle) (on : k.intr = true) : th.out = 0 := by
  by_contra some
  have off := runs.off (by rw [runs.noff]; omega)
  rw [on] at off
  cases off

theorem Runs.open_of_intr (runs : Runs k th idle) (on : k.intr = true) : ∀ m ∈ th.acts, m.open := by
  obtain ⟨m, rest, at', live, below⟩ := runs.live
  intro m' mem
  rw [at'] at mem
  rcases List.mem_cons.mp mem with rfl | mem
  · cases m' with
    | idle | read => trivial
    | parked | start => exact live.elim
    | off old =>
      have off := runs.entered old rest at'
      rw [on] at off
      cases off
    | resumed i =>
      have out := (runs.resumed i rest at').1
      rw [runs.out_of_intr on] at out
      cases out
  exact below m' mem

theorem State.stay_popOff (rest : List Micro) (step : State.stay k th .popOff (.idle :: rest) = some (.ok (k', th'))) :
    th.out ≠ 0 ∧ k.intr = false ∧
    k' = { k with noff := k.noff - 1, intr := if k.noff - 1 = 0 ∧ k.intena then true else k.intr } ∧
    th' = { th with out := th.out - 1, newborn := th.newborn && decide (th.out - 1 ≠ 0) } := by
  simp only [State.stay] at step
  split at step
  · cases step
  rename_i some
  split at step
  · cases step
  rename_i off
  split at step
  · cases step
  have eq := Prod.mk.inj (Except.ok.inj (Option.some.inj step))
  exact ⟨some, by simpa using off, eq.1.symm, eq.2.symm⟩

theorem State.popOff_idle {acts : List Micro} {r : Except Panic (Cpu P × Thread)}
    (step : State.stay k th .popOff acts = some r) : ∃ rest, acts = .idle :: rest := by
  cases acts with
  | nil => cases step
  | cons m rest =>
    cases m with
    | idle => exact ⟨rest, rfl⟩
    | _ => cases step

theorem Runs.popOff {e : Panic} (runs : Runs k th idle) :
    State.stay k th .popOff th.acts ≠ some (.error e) := by
  intro step
  obtain ⟨rest, at'⟩ := State.popOff_idle step
  rw [at'] at step
  simp only [State.stay] at step
  split at step
  · cases step
  rename_i some
  split at step
  · rename_i on
    exact some (runs.out_of_intr on)
  split at step
  · rename_i none
    rw [runs.noff] at none
    omega
  cases step

theorem Runs.stay (runs : Runs k th idle)
    (step : State.stay k th a th.acts = some (.ok (k', th'))) :
    k'.runs = k.runs ∧ ∀ idle', (k'.runs ≠ none → idle' = idle) → Runs k' th' idle' := by
  have noff := runs.noff
  have off := runs.off
  obtain ⟨m, rest, at', live, below⟩ := runs.live
  have back : ∀ idle', (k.runs ≠ none → idle' = idle) → k.runs ≠ none →
      idle'.out = 1 ∧ ∃ rest, idle'.acts = .idle :: rest ∧ ∀ m ∈ rest, m.open := by
    intro idle' same some
    rw [same some]
    exact runs.back some
  rw [at'] at step
  unfold State.stay at step
  split at step
  · -- `push_off` is called
    rename_i rest eq
    cases eq
    cases step
    refine ⟨rfl, fun idle' same => ⟨noff, off, ⟨_, _, rfl, trivial, below⟩, nofun, back idle' same,
      nofun, ?_⟩⟩
    intro some out old _
    exact runs.intena some out old (by rw [at']; nofun)
  · rename_i old rest eq
    cases eq
    cases step
    refine ⟨rfl, fun idle' same => ⟨noff, fun _ => rfl, ⟨_, _, rfl, trivial, below⟩,
      fun _ _ _ => rfl, back idle' same,
      nofun, ?_⟩⟩
    intro some out old _
    exact runs.intena some out old (by rw [at']; nofun)
  · -- its end
    rename_i old rest eq
    cases eq
    cases step
    have masked := runs.entered old rest at'
    refine ⟨rfl, fun idle' same => ⟨congrArg (· + 1) noff, fun _ => masked,
      ⟨_, _, rfl, trivial, below⟩, nofun,
      back idle' same, nofun, ?_⟩⟩
    intro some _ old' _
    simp only [noff]
    split
    · rfl
    exact runs.intena some (by omega) old' (by rw [at']; nofun)
  · -- the end of `sched`
    rename_i i rest eq
    cases eq
    cases step
    obtain ⟨one, saved⟩ := runs.resumed i rest at'
    refine ⟨rfl, fun idle' same => ⟨noff, off, ⟨_, _, rfl, trivial, below⟩, nofun, back idle' same,
      nofun, ?_⟩⟩
    intro some _ old _
    rcases saved with born | eq
    · simp only [born] at old
      cases old
    exact eq
  · -- `pop_off`
    rename_i rest eq
    cases eq
    obtain ⟨some, -, rfl, rfl⟩ := State.stay_popOff rest step
    refine ⟨rfl, fun idle' same => ⟨?_, ?_, ⟨_, _, at', trivial, below⟩, ?_, back idle' same, ?_,
      ?_⟩⟩
    · simp only [noff]
    · intro more
      simp only at more ⊢
      rw [if_neg (fun both => by omega)]
      exact off (by omega)
    · intro old rest eq
      rw [at'] at eq
      cases eq
    · intro i rest eq
      rw [at'] at eq
      cases eq
    intro some out old _
    simp only at out old ⊢
    have kept : th.newborn = false := by
      rw [Bool.and_eq_false_iff] at old
      rcases old with old | old
      · exact old
      simp at old
      omega
    exact runs.intena some (by omega) kept (by rw [at']; nofun)
  · rename_i rest eq
    cases eq
    split_ifs at step with zero
    cases step
    refine ⟨rfl, fun idle' same => ⟨noff, ?_, ⟨_, _, at', trivial, below⟩, ?_, back idle' same, ?_,
      ?_⟩⟩
    · intro more
      simp only at more
      omega
    · intro old rest eq
      rw [at'] at eq
      cases eq
    · intro i rest eq
      rw [at'] at eq
      cases eq
    intro _ out
    omega
  · rename_i rest eq
    cases eq
    split_ifs at step with zero
    cases step
    refine ⟨rfl, fun idle' same => ⟨noff, fun _ => rfl, ⟨_, _, at', trivial, below⟩,
      fun _ _ _ => rfl, back idle' same, ?_, ?_⟩⟩
    · intro i rest eq
      rw [at'] at eq
      cases eq
    intro _ out
    omega
  · -- a trap
    split_ifs at step with on
    cases step
    have opens := runs.open_of_intr on
    rw [at'] at opens
    have zero := runs.out_of_intr on
    refine ⟨rfl, fun idle' same => ⟨noff, fun _ => rfl, ⟨_, _, rfl, trivial, opens⟩, nofun,
      back idle' same, nofun, ?_⟩⟩
    intro _ out
    simp only at out
    omega
  · -- the return from it
    rename_i next rest eq
    cases eq
    split_ifs at step with zero
    cases step
    have opened := below next List.mem_cons_self
    refine ⟨rfl, fun idle' same => ⟨noff, ?_, ⟨_, _, rfl, ?_,
      fun m mem => below m (List.mem_cons_of_mem _ mem)⟩, ?_,
      back idle' same, ?_, ?_⟩⟩
    · intro more
      simp only at more
      omega
    · cases next with
      | idle | read => trivial
      | _ => exact opened.elim
    · rintro old rest ⟨⟩
      exact opened.elim
    · rintro i rest ⟨⟩
      exact opened.elim
    intro _ out
    simp only at out
    omega
  cases step

theorem Inv.sched (inv : Inv s) {p : P} {rest : List Micro} (runs : (s.cpu c).runs = some p)
    (at' : (s.thread (s.who c)).acts = .idle :: rest) (one : (s.cpu c).noff = 1)
    (off : (s.cpu c).intr = false) :
    Inv (s.set c { s.cpu c with runs := none } (s.who c)
      { s.thread (s.who c) with acts := .parked (s.cpu c).intena :: rest }) := by
  have before := inv.runs c
  have some : (s.cpu c).runs ≠ none := by
    rw [runs]
    nofun
  obtain ⟨out, rest', idle, opens⟩ := before.back some
  obtain ⟨m, rest₀, at₀, -, below⟩ := before.live
  rw [at'] at at₀
  cases at₀
  have who := State.who_of_some runs
  refine inv.set inv.others ?_ nofun ?_
  · intro who' idle' none _ eq
    have self : upd s.thread (s.who c) { s.thread (s.who c) with acts := .parked (s.cpu c).intena :: rest }
        (.inl c) = s.thread (.inl c) := by
      rw [who, upd_ne Sum.inl_ne_inr]
    rw [none rfl, eq, self]
    refine ⟨one.trans out.symm, fun _ => off, ⟨_, _, idle, trivial, opens⟩, fun _ _ _ => off,
      fun h => absurd rfl h, ?_,
      fun h => absurd rfl h⟩
    intro i r eq
    rw [idle] at eq
    cases eq
  intro q _ elsewhere
  by_cases eq : q = p
  · rw [eq, who, upd_self]
    refine .parked rfl below (before.noff.symm.trans one |> fun h => by rw [← who]; exact h) ?_
    rw [← who]
    by_cases born : (s.thread (s.who c)).newborn = true
    · exact .inl born
    refine .inr (before.intena some ?_ (by simpa using born) ?_)
    · rw [← before.noff, one]
      exact Nat.one_pos
    rw [at']
    nofun
  rw [who, upd_ne (fun h => eq (Sum.inr.inj h))]
  refine inv.away q fun c' => ?_
  by_cases here : c' = c
  · rw [here, runs]
    exact fun h => eq (Option.some.inj h).symm
  exact elsewhere c' here

theorem Inv.dispatch (inv : Inv s) {p : P} {rest : List Micro} {th : Thread}
    (runs : (s.cpu c).runs = none) (at' : (s.thread (.inl c)).acts = .idle :: rest)
    (out : (s.thread (.inl c)).out = 1) (nowhere : ∀ c', (s.cpu c').runs ≠ some p)
    (one : th.out = 1) (live : ∃ m rest, th.acts = m :: rest ∧ m.live ∧ ∀ m ∈ rest, m.open)
    (entered : ∀ old rest, th.acts ≠ .off old :: rest)
    (resumed : ∀ i rest, th.acts = .resumed i :: rest → th.newborn = true ∨ i = th.outer)
    (fresh : th.newborn = false → ∃ i rest, th.acts = .resumed i :: rest) :
    Inv (s.set c { s.cpu c with runs := some p } (.inr p) th) := by
  have before := inv.runs c
  rw [State.who_of_none runs] at before
  obtain ⟨m, rest', at₀, -, below⟩ := before.live
  rw [at'] at at₀
  cases at₀
  refine inv.set ?_ ?_ ?_ ?_
  · intro c' _
    refine ⟨fun eq => ?_, Sum.inl_ne_inr⟩
    cases there : (s.cpu c').runs with
    | none =>
      rw [State.who_of_none there] at eq
      cases eq
    | some q =>
      rw [State.who_of_some there] at eq
      cases eq
      exact nowhere c' there
  · intro who idle _ some eq
    rw [some p rfl, upd_self, eq, upd_ne Sum.inl_ne_inr]
    refine ⟨before.noff.trans (out.trans one.symm), before.off, live,
      fun old rest h => absurd h (entered old rest),
      fun _ => ⟨out, rest, at', below⟩, fun i rest h => ⟨one, resumed i rest h⟩, ?_⟩
    intro _ _ old none
    obtain ⟨i, rest, h⟩ := fresh old
    exact absurd h (none i rest)
  · intro q eq c' _
    cases eq
    exact nowhere c'
  intro q ne elsewhere
  have other : q ≠ p := fun eq => ne (congrArg some eq.symm)
  rw [upd_ne (fun h => other (Sum.inr.inj h))]
  refine inv.away q fun c' => ?_
  by_cases here : c' = c
  · rw [here, runs]
    nofun
  exact elsewhere c' here

theorem Inv.allocproc (inv : Inv s) {p : P} (nowhere : ∀ c', (s.cpu c').runs ≠ some p) :
    Inv { s with thread := upd s.thread (.inr p) .new } := by
  have who : ∀ c, s.who c ≠ .inr p := by
    intro c eq
    cases there : (s.cpu c).runs with
    | none =>
      rw [State.who_of_none there] at eq
      cases eq
    | some q =>
      rw [State.who_of_some there] at eq
      cases eq
      exact nowhere c there
  refine ⟨fun c => ?_, inv.solo, fun q none => ?_⟩
  · have same : State.who { s with thread := upd s.thread (.inr p) .new } c = s.who c := rfl
    rw [same]
    simp only
    rw [upd_ne (who c), upd_ne Sum.inl_ne_inr]
    exact inv.runs c
  by_cases eq : q = p
  · rw [eq]
    simp only [upd_self]
    exact .start rfl rfl
  simp only
  rw [upd_ne (fun h => eq (Sum.inr.inj h))]
  exact inv.away q none

theorem Inv.step (inv : Inv s) (step : s.step c a = some (.ok t)) : Inv t := by
  have goes : ∀ {a : Action P}, (State.stay (s.cpu c)
      (s.thread (s.who c)) a (s.thread (s.who c)).acts).map
      (Except.map fun next => s.set c next.1 (s.who c) next.2) = some (.ok t) → Inv t := by
    intro a h
    obtain ⟨r, stayed, eq⟩ := Option.map_eq_some_iff.mp h
    cases r with
    | error e => cases eq
    | ok next =>
      obtain ⟨k, th⟩ := next
      cases eq
      obtain ⟨stays, runs⟩ := (inv.runs c).stay stayed
      exact inv.stay stays runs
  cases a with
  | sched =>
    simp only [State.step] at step
    split at step
    · rename_i p rest runs at'
      split_ifs at step with one on <;> cases step
      exact inv.sched runs at' (not_not.mp one) (by simpa using on)
    cases step
  | dispatch p =>
    simp only [State.step] at step
    split at step
    swap
    · cases step
    rename_i rest runs at'
    split at step
    swap
    · cases step
    rename_i out
    split at step
    · rename_i i rest' there
      cases step
      have away := inv.away p (inv.nowhere there id)
      cases away with
      | @parked i' rest'' eq opens one saved =>
        rw [there] at eq
        cases eq
        refine inv.dispatch runs at' out (inv.nowhere there id) one ⟨_, _, rfl, trivial,
          opens⟩ nofun ?_
          fun _ => ⟨i, rest', rfl⟩
        rintro j r ⟨⟩
        exact saved
      | start eq =>
        rw [there] at eq
        cases eq
    · rename_i there
      cases step
      exact inv.dispatch runs at' out (inv.nowhere there id) rfl ⟨_, _, rfl, trivial,
        nofun⟩ nofun nofun nofun
    cases step
  | allocproc p =>
    simp only [State.step] at step
    split at step
    · rename_i there
      cases step
      exact inv.allocproc (inv.nowhere there id)
    · rename_i there
      cases step
      exact inv.allocproc (inv.nowhere there id)
    cases step
  | pushOff | popOff | run | intrOn | intrOff | trap | sret => exact goes step

theorem State.Reachable.inv (run : Reachable s) : Inv s := by
  induction run with
  | init => exact .init
  | step _ h ih => exact ih.step h

end Inv

/-- Interrupt state follows the kernel thread: while the thread of a process runs, `noff` counts
the calls of `push_off` that it has outstanding, interrupts are off while there is one, `pop_off`
does not panic, and when the count returns to 0 interrupts are on exactly if they were at the
outermost call, unless that was the lock that a new thread is born with. -/
theorem interrupts_follow_thread {C P : Type} [DecidableEq C] [DecidableEq P] {s : State C P}
    (run : State.Reachable s) :
    (∀ c p, (s.cpu c).runs = some p → (s.cpu c).noff = (s.thread (.inr p)).out) ∧
    (∀ c, 0 < (s.cpu c).noff → (s.cpu c).intr = false) ∧
    (∀ c e, s.step c .popOff ≠ some (.error e)) ∧
    (∀ c p t, (s.cpu c).runs = some p → s.step c .popOff = some (.ok t) →
      (t.thread (.inr p)).out = 0 →
      (s.thread (.inr p)).newborn = false → (t.cpu c).intr = (s.thread (.inr p)).outer) := by
  have inv := run.inv
  refine ⟨fun c p runs => ?_, fun c => (inv.runs c).off, fun c e step => ?_,
    fun c p t runs step zero old => ?_⟩
  · rw [(inv.runs c).noff, State.who_of_some runs]
  · obtain ⟨r, stayed, eq⟩ := Option.map_eq_some_iff.mp step
    cases r with
    | ok next => cases eq
    | error e' => exact (inv.runs c).popOff stayed
  obtain ⟨r, stayed, eq⟩ := Option.map_eq_some_iff.mp step
  cases r with
  | error e => cases eq
  | ok next =>
    obtain ⟨k, th⟩ := next
    cases eq
    have here := inv.runs c
    obtain ⟨rest, at'⟩ := State.popOff_idle stayed
    rw [at'] at stayed
    obtain ⟨some, off, rfl, rfl⟩ := State.stay_popOff _ stayed
    rw [State.who_of_some runs] at here some zero at'
    simp only [State.set, update_self] at zero ⊢
    have last : (s.cpu c).noff - 1 = 0 := by
      rw [here.noff]
      exact zero
    have saved : (s.cpu c).intena = (s.thread (.inr p)).outer := by
      refine here.intena (by rw [runs]; nofun) (by omega) old ?_
      rw [at']
      nofun
    rw [saved]
    cases outer : (s.thread (.inr p)).outer with
    | true => exact if_pos ⟨last, rfl⟩
    | false => exact (if_neg (fun both => nomatch both.2)).trans off

/-- A new process runs, yields with interrupts on, and goes on on the other CPU. -/
def migrates : List (Bool × Action (Fin 1)) :=
  [(false, .pushOff), (false, .run), (false, .run), (false, .dispatch 0), (false, .popOff), (false, .intrOn),
    (false, .pushOff), (false, .run), (false, .run), (false, .sched),
    (true, .pushOff), (true, .run), (true, .run), (true, .dispatch 0), (true, .run)]

theorem migrates_follows :
    ∃ s : State Bool (Fin 1), State.Reachable s ∧ (s.cpu true).runs = some 0 ∧
    (s.thread (.inr 0)).outer = true ∧ (s.cpu true).noff = (s.thread (.inr 0)).out ∧
    ∀ t, s.step true .popOff = some (.ok t) → (t.thread (.inr 0)).out = 0 →
      (t.cpu true).intr = true := by
  have played : ((State.init : State Bool (Fin 1)).play migrates).any (fun s => decide ((s.cpu true).runs = some 0 ∧
      (s.thread (.inr 0)).outer = true ∧ (s.thread (.inr 0)).newborn = false)) = true := by
    decide +kernel
  obtain ⟨s, run, check⟩ := State.Reachable.of_play played
  obtain ⟨runs, outer, old⟩ := of_decide_eq_true check
  obtain ⟨count, -, -, last⟩ := interrupts_follow_thread run
  refine ⟨s, run, runs, outer, count true 0 runs, fun t step zero => ?_⟩
  rw [last true 0 t runs step zero old, outer]

end Xv6.Intr
