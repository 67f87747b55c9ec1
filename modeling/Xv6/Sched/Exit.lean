import Xv6.Sched.Wait

/-!
# Delivery of exit statuses

The history of a run numbers the exits and records what the calls of `wait` return.
An exit that has not been returned yet is held by its zombie: the slot stays as it is
until a `wait` of the parent frees it, which returns the exit and no other one.
-/

namespace Xv6.Sched

open Function renaming update_self → upd_self, update_of_ne → upd_ne

set_option linter.unusedSectionVars false

namespace Sys

variable {C : Type} [DecidableEq C]

/-- Every exit is held by one zombie or has been returned once. -/
structure History (s : Sys C) : Prop where
  zombie : ∀ i, (s.proc i).state = .zombie → s.exitOf i ≠ none
  slot : ∀ i e, s.exitOf i = some e → (s.proc i).state = .zombie ∧
    s.exits[e]? = some ⟨i, (s.proc i).pid, (s.proc i).xstate⟩ ∧ ∀ r ∈ s.returns, r.exit ≠ some e
  returned : ∀ r ∈ s.returns, ∃ e x, r.exit = some e ∧ s.exits[e]? = some x ∧ r.pid = x.pid ∧
    r.status = x.status ∧ r.parent = some r.caller
  once : (s.returns.map Return.exit).Nodup
  kept : ∀ e < s.exits.length, (∃ r ∈ s.returns, r.exit = some e) ∨ ∃ i, s.exitOf i = some e

/-- Neither the history nor a zombie changes. -/
structure Quiet (s t : Sys C) : Prop where
  exits : t.exits = s.exits
  returns : t.returns = s.returns
  exitOf : t.exitOf = s.exitOf
  same : ∀ i, (t.proc i).state = .zombie ∨ (s.proc i).state = .zombie →
    (t.proc i).state = (s.proc i).state ∧ (t.proc i).pid = (s.proc i).pid ∧ (t.proc i).xstate = (s.proc i).xstate

section Steps

variable {n : Nat} {s t : Sys C} {c : C} {p i : Nat} {input : Input} {rest code : List Instr}

theorem History.quiet (history : History s) (quiet : Quiet s t) : History t := by
  refine ⟨fun i zombie => ?_, fun i e found => ?_, ?_, ?_, ?_⟩
  · rw [quiet.exitOf]
    refine history.zombie i ?_
    rw [← (quiet.same i (.inl zombie)).1, zombie]
  · rw [quiet.exitOf] at found
    obtain ⟨zombie, entry, new⟩ := history.slot i e found
    obtain ⟨state, pid, xstate⟩ := quiet.same i (.inr zombie)
    rw [quiet.exits, quiet.returns, state, pid, xstate]
    exact ⟨zombie, entry, new⟩
  · rw [quiet.returns, quiet.exits]
    exact history.returned
  · rw [quiet.returns]
    exact history.once
  rw [quiet.returns, quiet.exits, quiet.exitOf]
  exact history.kept

theorem Quiet.goto : Quiet s (s.goto c code) := ⟨rfl, rfl, rfl, fun _ _ => ⟨rfl, rfl, rfl⟩⟩

theorem Quiet.change {q : Nat} {r : Proc} (proc : t.proc = Function.update s.proc q r)
    (exits : t.exits = s.exits) (returns : t.returns = s.returns) (exitOf : t.exitOf = s.exitOf)
    (same : r.state = .zombie ∨ (s.proc q).state = .zombie →
      r.state = (s.proc q).state ∧ r.pid = (s.proc q).pid ∧
        r.xstate = (s.proc q).xstate) : Quiet s t := by
  refine ⟨exits, returns, exitOf, fun i zombie => ?_⟩
  rw [proc] at zombie ⊢
  by_cases eq : i = q
  · subst eq
    rw [upd_self] at zombie ⊢
    exact same zombie
  rw [upd_ne eq]
  exact ⟨rfl, rfl, rfl⟩

section

variable (history : History s)
include history

theorem History.exitOf_inj {j e : Nat} (mine : s.exitOf i = some e)
    (theirs : s.exitOf j = some e) : i = j := by
  have eq := (history.slot i e mine).2.1.symm.trans (history.slot j e theirs).2.1
  exact congrArg Exit.slot (Option.some.inj eq)

theorem History.alive (alive : (s.proc i).state ≠ .zombie) : s.exitOf i = none := by
  cases found : s.exitOf i with
  | none => rfl
  | some e => exact absurd (history.slot i e found).1 alive

theorem History.recordExit (alive : (s.proc p).state ≠ .zombie) :
    History (((s.setProc p fun q => { q with state := .zombie }).recordExit p).goto c rest) := by
  have none := history.alive alive
  generalize ht : ((s.setProc p fun q => { q with state := .zombie }).recordExit p).goto c rest = t
  have self : t.proc p = { s.proc p with state := .zombie } := by
    rw [← ht]
    exact upd_self ..
  have others : ∀ r, r ≠ p → t.proc r = s.proc r := by
    rw [← ht]
    exact fun r ne => upd_ne ne _ _
  have exits : t.exits = s.exits ++ [⟨p, (t.proc p).pid, (t.proc p).xstate⟩] := by
    rw [← ht]
    rfl
  have returns : t.returns = s.returns := by
    rw [← ht]
    rfl
  have exitOf : t.exitOf = Function.update s.exitOf p (some s.exits.length) := by
    rw [← ht]
    rfl
  have old : ∀ {e x}, s.exits[e]? = some x → t.exits[e]? = some x ∧ e < s.exits.length := by
    intro e x entry
    obtain ⟨low, -⟩ := List.getElem?_eq_some_iff.mp entry
    rw [exits, List.getElem?_append_left low]
    exact ⟨entry, low⟩
  refine ⟨fun i zombie => ?_, fun i e found => ?_, fun r mem => ?_, ?_, fun e low => ?_⟩
  · rw [exitOf]
    by_cases eq : i = p
    · rw [eq, upd_self]
      nofun
    rw [upd_ne eq]
    rw [others i eq] at zombie
    exact history.zombie i zombie
  · rw [exitOf] at found
    by_cases eq : i = p
    · subst eq
      rw [upd_self] at found
      obtain rfl := Option.some.inj found
      refine ⟨by rw [self], ?_, fun r mem entry => ?_⟩
      · rw [exits, List.getElem?_concat_length]
      rw [returns] at mem
      obtain ⟨e, x, number, entry', -⟩ := history.returned r mem
      have low := (old entry').2
      rw [number] at entry
      obtain rfl := Option.some.inj entry
      exact absurd low (lt_irrefl _)
    rw [upd_ne eq] at found
    obtain ⟨zombie, entry, new⟩ := history.slot i e found
    rw [others i eq, returns]
    exact ⟨zombie, (old entry).1, new⟩
  · rw [returns] at mem
    obtain ⟨e, x, number, entry, same⟩ := history.returned r mem
    exact ⟨e, x, number, (old entry).1, same⟩
  · rw [returns]
    exact history.once
  rw [returns, exitOf]
  by_cases last : e = s.exits.length
  · refine .inr ⟨p, ?_⟩
    rw [upd_self, last]
  rw [exits, List.length_append, List.length_singleton] at low
  rcases history.kept e (by omega) with returned | ⟨i, found⟩
  · exact .inl returned
  refine .inr ⟨i, ?_⟩
  rw [upd_ne, found]
  rintro rfl
  rw [none] at found
  cases found

theorem History.recordReturn (zombie : (s.proc i).state = .zombie)
    (child : (s.proc i).parent = some p) :
    History (((s.recordReturn p i).setProc i Proc.free).goto c code) := by
  obtain ⟨e, found⟩ := Option.ne_none_iff_exists'.mp (history.zombie i zombie)
  obtain ⟨-, entry, new⟩ := history.slot i e found
  generalize ht : ((s.recordReturn p i).setProc i Proc.free).goto c code = t
  have self : t.proc i = Proc.free (s.proc i) := by
    rw [← ht]
    exact upd_self ..
  have others : ∀ r, r ≠ i → t.proc r = s.proc r := by
    rw [← ht]
    exact fun r ne => upd_ne ne _ _
  have exits : t.exits = s.exits := by
    rw [← ht]
    rfl
  have returns : t.returns = s.returns ++ [⟨some e, p, some p, (s.proc i).pid,
      (s.proc i).xstate⟩] := by
    rw [← ht, ← found, ← child]
    rfl
  have exitOf : t.exitOf = Function.update s.exitOf i none := by
    rw [← ht]
    rfl
  refine ⟨fun j zombie' => ?_, fun j e' found' => ?_, fun r mem => ?_, ?_, fun e' low => ?_⟩
  · by_cases eq : j = i
    · rw [eq, self] at zombie'
      cases zombie'
    rw [others j eq] at zombie'
    rw [exitOf, upd_ne eq]
    exact history.zombie j zombie'
  · rw [exitOf] at found'
    by_cases eq : j = i
    · rw [eq, upd_self] at found'
      cases found'
    rw [upd_ne eq] at found'
    obtain ⟨zombie', entry', new'⟩ := history.slot j e' found'
    rw [others j eq, exits, returns]
    refine ⟨zombie', entry', fun r mem number => ?_⟩
    rcases List.mem_append.mp mem with before | last
    · exact new' r before number
    rw [List.mem_singleton.mp last] at number
    obtain rfl := Option.some.inj number
    exact eq (history.exitOf_inj found' found)
  · rw [returns] at mem
    rw [exits]
    rcases List.mem_append.mp mem with before | last
    · exact history.returned r before
    rw [List.mem_singleton.mp last]
    exact ⟨e, _, rfl, entry, rfl, rfl, rfl⟩
  · rw [returns, List.map_append]
    refine List.nodup_append.mpr ⟨history.once, List.nodup_singleton _, fun a mem b mem' => ?_⟩
    obtain ⟨r, before, rfl⟩ := List.mem_map.mp mem
    rw [List.mem_singleton.mp mem']
    exact new r before
  rw [exits] at low
  rw [returns, exitOf]
  rcases history.kept e' low with ⟨r, before, number⟩ | ⟨j, found'⟩
  · exact .inl ⟨r, List.mem_append_left _ before, number⟩
  by_cases eq : j = i
  · rw [eq, found] at found'
    exact .inl ⟨_, List.mem_append_right _ (List.mem_singleton_self _), found'⟩
  exact .inr ⟨j, by rw [upd_ne eq, found']⟩

end

theorem History.exec {j : Instr} (good : Good s) (kin : Kin n s) (history : History s)
    (at' : (s.cpu c).code = j :: rest) (step : s.exec n c input j rest = some (.ok t)) :
    History t := by
  have inv := good.inv
  have typed := inv.typedAt at'
  cases j <;> simp only [Sys.exec] at step
  case acquire l =>
    split at step
    · cases step
    split at step
    · cases step
      exact history.quiet ⟨rfl, rfl, rfl, fun _ _ => ⟨rfl, rfl, rfl⟩⟩
    cases step
  case release l =>
    split at step
    · cases step
      exact history.quiet ⟨rfl, rfl, rfl, fun _ _ => ⟨rfl, rfl, rfl⟩⟩
    cases step
  case setChan | setKilled | setParent =>
    cases step
    exact history.quiet (.change rfl rfl rfl rfl fun _ => ⟨rfl, rfl, rfl⟩)
  case park p new =>
    cases step
    obtain ⟨thread, -, running, options, -⟩ := typed
    rw [status_of_thread thread] at running
    have alive : (s.proc p).state ≠ .zombie := by
      rw [running]
      simp
    rcases options with rfl | rfl | ⟨rfl, -⟩
    · refine history.quiet (.change rfl rfl rfl rfl fun h => ?_)
      exact absurd (h.resolve_left (by simp)) alive
    · refine history.quiet (.change rfl rfl rfl rfl fun h => ?_)
      exact absurd (h.resolve_left (by simp)) alive
    exact history.recordExit alive
  case sched =>
    split at step
    · cases step
    split at step
    · cases step
    split at step
    · cases step
    split at step
    · cases step
    cases step
    exact history.quiet ⟨rfl, rfl, rfl, fun _ _ => ⟨rfl, rfl, rfl⟩⟩
  case wake q chan =>
    cases step
    split
    · rename_i asleep
      refine history.quiet (.change rfl rfl rfl rfl fun h => ?_)
      have zombie := h.resolve_left (by simp)
      rw [asleep.1] at zombie
      cases zombie
    exact history.quiet .goto
  case killTest i pid =>
    split at step
    · cases step
      refine history.quiet (.change rfl rfl rfl rfl fun h => ⟨?_, rfl, rfl⟩)
      dsimp only at h ⊢
      split
      · rename_i asleep
        rw [if_pos asleep, asleep] at h
        exact absurd h (by simp)
      rfl
    cases step
    exact history.quiet .goto
  case forkTest p i =>
    split at step
    · rename_i unused
      have alive : (s.proc i).state ≠ .zombie := by
        rw [unused]
        simp
      split at step
      · cases step
        exact history.quiet (.change rfl rfl rfl rfl fun h => absurd (h.resolve_left (by simp)) alive)
      cases step
      exact history.quiet (.change rfl rfl rfl rfl fun h => absurd (h.resolve_left (by rintro ⟨⟩)) alive)
    cases step
    exact history.quiet .goto
  case publish p i =>
    have used := (good.making.publish inv at').1
    cases step
    refine history.quiet (.change rfl rfl rfl rfl fun h => ?_)
    have zombie := h.resolve_left (by simp)
    rw [used] at zombie
    cases zombie
  case waitTest p i copy =>
    have child := (kin.taskAt at' typed.1).child i rfl
    split at step
    · rename_i zombie
      split at step
      · cases step
        exact history.quiet .goto
      cases step
      exact history.recordReturn zombie child
    cases step
    exact history.quiet .goto
  case poll | full => split at step <;> cases step <;> exact history.quiet .goto
  case reparent p i status =>
    split at step
    · split at step
      · cases step
        exact history.quiet (.change rfl rfl rfl rfl fun _ => ⟨rfl, rfl, rfl⟩)
      cases step
      exact history.quiet .goto
    cases step
    exact history.quiet .goto
  case setXstate p status =>
    obtain ⟨thread, -, ok⟩ := typed
    obtain ⟨after, next⟩ := (kin.taskAt at' thread).fits.1.status p status rfl
    rw [next] at ok
    have running : (s.proc p).state = .running := by
      rw [← status_of_thread thread]
      exact ok.2.2.1
    cases step
    refine history.quiet (.change rfl rfl rfl rfl fun h => ?_)
    have zombie : (s.proc p).state = .zombie := h.elim id id
    rw [running] at zombie
    cases zombie
  case zombieExit => exact typed.elim
  case schedTest i =>
    split at step
    · rename_i runnable
      cases step
      refine history.quiet (.change rfl rfl rfl rfl fun h => ?_)
      have zombie := h.resolve_left (by simp)
      rw [runnable] at zombie
      cases zombie
    cases step
    exact history.quiet .goto
  all_goals
    cases step
    exact history.quiet ⟨rfl, rfl, rfl, fun _ _ => ⟨rfl, rfl, rfl⟩⟩

theorem History.step {a : Action} (good : Good s) (kin : Kin n s) (history : History s)
    (step : s.step n c a = some (.ok t)) : History t := by
  cases Sys.took_of_step step with
  | run at' step => exact history.exec good kin at' step
  | call at' proc code | timer free proc | device free => exact history.quiet .goto

theorem History.init : History (Sys.init : Sys C) := by
  refine ⟨fun i zombie => ?_, nofun, nofun, List.nodup_nil, nofun⟩
  change (if i = initproc then _ else _ : Proc).state = .zombie at zombie
  split at zombie <;> cases zombie

theorem Reachable.history (room : initproc < n) (run : Reachable n s) : History s := by
  induction run with
  | init => exact .init
  | step before step ih => exact ih.step before.good (before.kin room) step

end Steps

end Sys

/-- In every state of every run: parents are there; what the calls of `wait` have returned
are exits of children of their callers, each at most once; an exit that has not been
returned is kept by its slot, which is a zombie; a `wait` that fails in `copyout` changes
neither, and one that succeeds returns the exit of the zombie it has found. -/
theorem exit_delivered_once {C : Type} [DecidableEq C] {n : Nat} (room : initproc < n) {s : Sys C}
    (run : Sys.Reachable n s) :
    (∀ z q, (s.proc z).parent = some q → (s.proc q).state ≠ .unused ∧ (s.proc q).state ≠ .zombie) ∧
    (∀ r ∈ s.returns, ∃ e x, r.exit = some e ∧ s.exits[e]? = some x ∧ r.pid = x.pid ∧
      r.status = x.status ∧
      r.parent = some r.caller) ∧
    (s.returns.map Return.exit).Nodup ∧
    (∀ e x, s.exits[e]? = some x → (∀ r ∈ s.returns, r.exit ≠ some e) →
      (s.proc x.slot).state = .zombie ∧ (s.proc x.slot).pid = x.pid ∧
        (s.proc x.slot).xstate = x.status ∧
        s.exitOf x.slot = some e) ∧
    (∀ c p i rest input t, (s.cpu c).code = .waitTest p i true :: rest →
      (s.proc i).state = .zombie →
      input ≠ .yes → s.step n c (.run input) = some (.ok t) →
      t.proc = s.proc ∧ t.returns = s.returns ∧ t.exitOf = s.exitOf) ∧
    ∀ c p i copy rest e, (s.cpu c).code = .waitTest p i copy :: rest → s.exitOf i = some e →
      ∃ t, s.step n c (.run .yes) = some (.ok t) ∧
        t.returns = s.returns ++ [⟨some e, p, some p, (s.proc i).pid, (s.proc i).xstate⟩] := by
  have history := run.history room
  have kin := run.kin room
  refine ⟨fun z q h => (kin.parent z q h).2.2, history.returned, history.once, ?_, ?_, ?_⟩
  · intro e x entry new
    obtain ⟨low, -⟩ := List.getElem?_eq_some_iff.mp entry
    rcases history.kept e low with ⟨r, mem, number⟩ | ⟨i, found⟩
    · exact absurd number (new r mem)
    obtain ⟨zombie, entry', -⟩ := history.slot i e found
    obtain rfl := Option.some.inj (entry.symm.trans entry')
    exact ⟨zombie, rfl, rfl, found⟩
  · intro c p i rest input t at' zombie failed step
    simp only [Sys.step, at', Sys.exec, if_pos zombie, failed, ne_eq, not_false_eq_true, and_self,
      if_true] at step
    cases step
    exact ⟨rfl, rfl, rfl⟩
  intro c p i copy rest e at' found
  have zombie := (history.slot i e found).1
  have child := (kin.taskAt at' (run.good.inv.typedAt at').1).child i rfl
  refine ⟨((s.recordReturn p i).setProc i Proc.free).goto c (.release (.proc i) :: .release .wait :: rest), ?_, ?_⟩
  · simp [Sys.step, at', Sys.exec, zombie]
  rw [← found, ← child]
  rfl

/-- The child of the first process exits with status 7 on the other CPU, and then the first
process waits for it. -/
def childExits : List (Bool × Sys.Action) :=
  List.replicate 6 (false, .run .yes) ++ [(false, .call .fork)] ++ List.replicate 14 (false, .run .yes) ++
    List.replicate 10 (true, .run .yes) ++ [(true, .call (.exit 7))] ++ List.replicate 16 (true, .run .yes) ++
    [(false, .call (.loop (.wait true)))] ++ List.replicate 7 (false, .run .yes)

theorem childExits_delivered :
    ∃ s : Sys Bool, Sys.Reachable 2 s ∧ s.returns = [⟨some 0, 0, some 0, 2, 7⟩] ∧
    ∃ x, s.exits[0]? = some x ∧ x.pid = 2 ∧ x.status = 7 := by
  have played : (((Sys.init : Sys Bool).play 2 childExits).any fun s =>
      s.returns = [⟨some 0, 0, some 0, 2, 7⟩]) = true := by
    decide +kernel
  obtain ⟨s, run, check⟩ := Sys.Reachable.of_play played
  have returns := of_decide_eq_true check
  obtain ⟨-, returned, -⟩ := exit_delivered_once (by decide) run
  obtain ⟨e, x, number, entry, pid, status, -⟩ := returned ⟨some 0, 0, some 0, 2, 7⟩ (by
    rw [returns]
    exact List.mem_singleton_self _)
  cases number
  exact ⟨s, run, returns, x, entry, pid.symm, status.symm⟩

end Xv6.Sched
