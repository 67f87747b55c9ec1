import Xv6.Log.State

/-!
# Group commit

Any number of processes call `begin_op`, `log_write` and `end_op`; each critical
section of `log.lock` is one step, and so is each step of `commit`, which runs
without the lock. A process logs blocks only inside an operation. Beside the
log, a state records the history that the results speak of: every `log_write`
with its operation, and for every commit whose header `write_head` has written
the calls it covers and the blocks that `write_log` copied.
-/

namespace Xv6.Protocol

set_option linter.unusedSectionVars false

/-- Where a process that runs `commit` is. -/
inductive CommitPc
  | test
  | writeLog (tail : Nat)
  | writeHead
  | install (tail : Nat)
  | clear
  | eraseHead
  | finish
  deriving DecidableEq

/-- Where a process is: outside an operation, in the loop of `begin_op`, asleep
there on `&log`, in an operation, or in `commit`. -/
inductive Phase
  | outside
  | trying
  | asleep
  | inOp (op : Nat)
  | commit (pc : CommitPc)
  deriving DecidableEq

def Phase.isOp : Phase → Bool
  | .inOp _ => true
  | _ => false

def Phase.isCommit : Phase → Bool
  | .commit _ => true
  | _ => false

/-- One call of `log_write`: its operation, its block, its place in the history. -/
structure LogWrite where
  op : Nat
  block : Nat
  serial : Nat
  deriving DecidableEq

/-- A commit whose header is on the disk: the calls of `log_write` since the one
before it, and the blocks that it copied to the log. -/
structure Commit where
  writes : List LogWrite
  blocks : List Nat
  deriving DecidableEq

structure State (Pid : Type) where
  log : Log
  phase : Pid → Phase
  nextOp : Nat
  history : List LogWrite
  pending : List LogWrite
  written : List Nat
  commits : List Commit

/-- What a process does next. -/
inductive Action
  | call
  | begin
  | logWrite (b : Nat)
  | endOp
  | commit
  | kill
  deriving DecidableEq

def Action.isLogWrite : Action → Bool
  | .logWrite _ => true
  | _ => false

variable {Pid : Type} [DecidableEq Pid]

namespace State

def setPhase (s : State Pid) (p : Pid) (phase : Phase) : State Pid :=
  { s with phase := Function.update s.phase p phase }

/-- `wakeup(&log)`. -/
def wakeup (s : State Pid) : State Pid :=
  { s with phase := fun q => if s.phase q = .asleep then .trying else s.phase q }

/-- One step of `commit` and of what follows it in `end_op`. -/
def commitStep (s : State Pid) (p : Pid) : CommitPc → State Pid
  | .test => s.setPhase p (.commit (if 0 < s.log.lh.n then .writeLog 0 else .finish))
  | .writeLog tail =>
    if tail < s.log.lh.n then
      { s.setPhase p (.commit (.writeLog (tail + 1))) with
        written := s.written ++ [s.log.lh.block tail] }
    else s.setPhase p (.commit .writeHead)
  | .writeHead =>
    { s.setPhase p (.commit (.install 0)) with
      pending := []
      written := []
      commits := s.commits ++ [⟨s.pending, s.written⟩] }
  | .install tail => s.setPhase p (.commit (if tail < s.log.lh.n then .install (tail + 1) else .clear))
  | .clear =>
    { s.setPhase p (.commit .eraseHead) with
      log := { s.log with lh := { s.log.lh with n := 0 } } }
  | .eraseHead => s.setPhase p (.commit .finish)
  | .finish => ({ s.setPhase p .outside with log := s.log.endCommit }).wakeup

/-- The step that `action` makes; `none` where the process is not at that call. -/
def step (s : State Pid) (p : Pid) (action : Action) : Option (Except Panic (State Pid)) :=
  match action, s.phase p with
  | .call, .outside => some (.ok (s.setPhase p .trying))
  | .begin, .trying =>
    match s.log.beginOp with
    | none => some (.ok (s.setPhase p .asleep))
    | some log => some (.ok { s.setPhase p (.inOp s.nextOp) with log := log, nextOp := s.nextOp + 1 })
  | .logWrite b, .inOp op =>
    match s.log.logWrite b with
    | .error e => some (.error e)
    | .ok (_, log) =>
      some (.ok { s with
        log := log
        history := s.history ++ [⟨op, b, s.history.length⟩]
        pending := s.pending ++ [⟨op, b, s.history.length⟩] })
  | .endOp, .inOp _ =>
    match s.log.endOp with
    | .error e => some (.error e)
    | .ok (true, log) => some (.ok { s.setPhase p (.commit .test) with log := log })
    | .ok (false, log) => some (.ok ({ s.setPhase p .outside with log := log }).wakeup)
  | .commit, .commit pc => some (.ok (s.commitStep p pc))
  | .kill, .asleep => some (.ok (s.setPhase p .trying))
  | _, _ => none

end State

/-- The log after `initlog`, with nobody in an operation. -/
def init (Pid : Type) (start size : Nat) (block : Nat → Nat) : State Pid where
  log := ⟨start, size, 0, false, ⟨0, block⟩⟩
  phase _ := .outside
  nextOp := 0
  history := []
  pending := []
  written := []
  commits := []

inductive Reachable (start size : Nat) (block : Nat → Nat) : State Pid → Prop
  | init : Reachable start size block (init Pid start size block)
  | step {s s' : State Pid} {p : Pid} {action : Action} : Reachable start size block s →
      s.step p action = some (.ok s') → Reachable start size block s'

inductive Runs (ok : State Pid → Pid → Action → Bool) (start size : Nat) (block : Nat → Nat) :
    State Pid → Prop
  | init : Runs ok start size block (init Pid start size block)
  | step {s s' : State Pid} {p : Pid} {action : Action} : Runs ok start size block s →
      ok s p action = true → s.step p action = some (.ok s') → Runs ok start size block s'

section Runs

variable {ok : State Pid → Pid → Action → Bool} {start size : Nat} {block : Nat → Nat}
  {s s' : State Pid}

theorem Runs.reachable (r : Runs ok start size block s) : Reachable start size block s := by
  induction r with
  | init => exact .init
  | step _ _ step ih => exact ih.step step

/-- A schedule, run as long as its steps satisfy `ok`. -/
def State.runWith (ok : State Pid → Pid → Action → Bool) (s : State Pid) :
    List (Pid × Action) → Option (State Pid)
  | [] => some s
  | (p, action) :: rest =>
    match ok s p action, s.step p action with
    | true, some (.ok s') => s'.runWith ok rest
    | _, _ => none

theorem Runs.runWith {schedule : List (Pid × Action)} (r : Runs ok start size block s)
    (ran : s.runWith ok schedule = some s') : Runs ok start size block s' := by
  induction schedule generalizing s with
  | nil =>
    cases ran
    exact r
  | cons head rest ih =>
    unfold State.runWith at ran
    split at ran
    · rename_i fine stepped
      exact ih (r.step fine stepped) ran
    cases ran

end Runs

/-! ## The steps, case by case -/

/-- The transitions of `State.step`, with what each of them finds. -/
inductive Trans (s : State Pid) (p : Pid) : Action → State Pid → Prop
  | call (at' : s.phase p = .outside) : Trans s p .call (s.setPhase p .trying)
  | sleep (at' : s.phase p = .trying) : Trans s p .begin (s.setPhase p .asleep)
  | enter {log : Log} (at' : s.phase p = .trying) (ok : s.log.beginOp = some log) :
      Trans s p .begin
        { s.setPhase p (.inOp s.nextOp) with log := log, nextOp := s.nextOp + 1 }
  | logWrite {op b : Nat} {fresh : Bool} {log : Log} (at' : s.phase p = .inOp op)
      (ok : s.log.logWrite b = .ok (fresh, log)) :
      Trans s p (.logWrite b)
        { s with
          log := log
          history := s.history ++ [⟨op, b, s.history.length⟩]
          pending := s.pending ++ [⟨op, b, s.history.length⟩] }
  | leave {op : Nat} {log : Log} (at' : s.phase p = .inOp op)
      (ok : s.log.endOp = .ok (false, log)) :
      Trans s p .endOp ({ s.setPhase p .outside with log := log }).wakeup
  | last {op : Nat} {log : Log} (at' : s.phase p = .inOp op)
      (ok : s.log.endOp = .ok (true, log)) :
      Trans s p .endOp { s.setPhase p (.commit .test) with log := log }
  | commit {pc : CommitPc} (at' : s.phase p = .commit pc) :
      Trans s p .commit (s.commitStep p pc)
  | kill (at' : s.phase p = .asleep) : Trans s p .kill (s.setPhase p .trying)

variable {p : Pid} {action : Action}

theorem Trans.of_step {s s' : State Pid}
    (h : s.step p action = some (.ok s')) : Trans s p action s' := by
  unfold State.step at h
  split at h
  · rename_i at'
    cases h
    exact .call at'
  · rename_i at'
    split at h
    · cases h
      exact .sleep at'
    rename_i ok
    cases h
    exact .enter at' ok
  · rename_i at'
    split at h
    · cases h
    rename_i ok
    cases h
    exact .logWrite at' ok
  · rename_i at'
    split at h
    · cases h
    · rename_i ok
      cases h
      exact .last at' ok
    rename_i ok
    cases h
    exact .leave at' ok
  · rename_i at'
    cases h
    exact .commit at'
  · rename_i at'
    cases h
    exact .kill at'
  cases h

/-! ## Counting operations -/

theorem Phase.isOp_iff {phase : Phase} : phase.isOp = true ↔ ∃ op, phase = .inOp op := by
  cases phase <;> simp [Phase.isOp]

theorem Phase.isCommit_iff {phase : Phase} : phase.isCommit = true ↔ ∃ pc, phase = .commit pc := by
  cases phase <;> simp [Phase.isCommit]

/-- Does the process take part in an operation or a commit, and in which? -/
def Phase.kind (phase : Phase) : Bool × Bool := (phase.isOp, phase.isCommit)

namespace State

section

variable (s : State Pid)
include s

@[simp] theorem setPhase_phase_self (p : Pid) (phase : Phase) :
    (s.setPhase p phase).phase p = phase := Function.update_self ..

theorem setPhase_phase_of_ne {p q : Pid} (phase : Phase) (ne : q ≠ p) :
    (s.setPhase p phase).phase q = s.phase q := Function.update_of_ne ne ..

theorem wakeup_phase (q : Pid) :
    s.wakeup.phase q = s.phase q ∨ s.phase q = .asleep ∧ s.wakeup.phase q = .trying := by
  unfold wakeup
  dsimp only
  split
  · rename_i asleep
    exact .inr ⟨asleep, rfl⟩
  exact .inl rfl

theorem wakeup_kind (q : Pid) : (s.wakeup.phase q).kind = (s.phase q).kind := by
  rcases s.wakeup_phase q with same | ⟨asleep, trying⟩
  · rw [same]
  rw [asleep, trying]
  rfl

theorem commitStep_phase_of_ne {p q : Pid} (pc : CommitPc) (ne : q ≠ p) :
    (s.commitStep p pc).phase q = s.phase q ∨
      s.phase q = .asleep ∧ (s.commitStep p pc).phase q = .trying := by
  have same := fun next => s.setPhase_phase_of_ne next ne
  cases pc with
  | test | writeHead | install tail | clear | eraseHead => exact .inl (same _)
  | writeLog tail =>
    by_cases more : tail < s.log.lh.n
    · rw [commitStep, if_pos more]
      exact .inl (same _)
    rw [commitStep, if_neg more]
    exact .inl (same _)
  | finish =>
    have woken := ({ s.setPhase p .outside with log := s.log.endCommit } : State Pid).wakeup_phase q
    have before : (s.setPhase p .outside).phase q = s.phase q := same _
    exact before ▸ woken

end

end State

/-- A step of `p` moves another process only by waking it up. -/
theorem Trans.phase_of_ne {s s' : State Pid} {q : Pid}
    (t : Trans s p action s') (ne : q ≠ p) :
    s'.phase q = s.phase q ∨ s.phase q = .asleep ∧ s'.phase q = .trying := by
  have same := fun next => s.setPhase_phase_of_ne next ne
  cases t with
  | call | sleep | enter | last | kill => exact .inl (same _)
  | logWrite => exact .inl rfl
  | @leave op log =>
    have woken := ({ s.setPhase p .outside with log := log } : State Pid).wakeup_phase q
    have before : (s.setPhase p .outside).phase q = s.phase q := same _
    exact before ▸ woken
  | commit => exact s.commitStep_phase_of_ne _ ne

theorem Trans.kind_of_ne {s s' : State Pid} {q : Pid}
    (t : Trans s p action s') (ne : q ≠ p) : (s'.phase q).kind = (s.phase q).kind := by
  rcases t.phase_of_ne ne with same | ⟨asleep, trying⟩
  · rw [same]
  rw [asleep, trying]
  rfl

/-- What a step does to `outstanding` and `committing`, beside what it does to the phase of `p`. -/
theorem Trans.counters {s s' : State Pid} (t : Trans s p action s') :
    ((s'.phase p).kind = (s.phase p).kind ∧ s'.log.outstanding = s.log.outstanding ∧
        s'.log.committing = s.log.committing) ∨
    ((s.phase p).kind = (false, false) ∧ (s'.phase p).kind = (true, false) ∧
        s'.log.outstanding = s.log.outstanding + 1 ∧
        s.log.committing = false ∧ s'.log.committing = false) ∨
    ((s.phase p).kind = (true, false) ∧ s'.log.outstanding = s.log.outstanding - 1 ∧
      s.log.committing = false ∧
        ((s'.phase p).kind = (false, false) ∧ s'.log.committing = false ∨
          (s'.phase p).kind = (false, true) ∧ s'.log.committing = true ∧ s'.log.outstanding = 0)) ∨
    ((s.phase p).kind = (false, true) ∧ (s'.phase p).kind = (false, false) ∧
        s'.log.outstanding = s.log.outstanding ∧ s'.log.committing = false) := by
  cases t with
  | call at' | sleep at' | kill at' => exact .inl ⟨by simp [at', Phase.kind, Phase.isOp, Phase.isCommit], rfl, rfl⟩
  | logWrite at' ok =>
    obtain ⟨-, -, -, -, rfl⟩ := Log.logWrite_ok ok
    exact .inl ⟨rfl, rfl, rfl⟩
  | enter at' ok =>
    obtain ⟨idle, -, rfl⟩ := Log.beginOp_some ok
    refine .inr (.inl ⟨by rw [at']; rfl, ?_, rfl, idle, idle⟩)
    exact congrArg Phase.kind (s.setPhase_phase_self p _)
  | leave at' ok =>
    obtain ⟨idle, -, rfl⟩ := Log.endOp_ok ok
    refine .inr (.inr (.inl ⟨by rw [at']; rfl, rfl, idle, .inl ⟨?_, rfl⟩⟩))
    exact (State.wakeup_kind _ p).trans (congrArg Phase.kind (s.setPhase_phase_self p _))
  | last at' ok =>
    obtain ⟨idle, one, rfl⟩ := Log.endOp_ok ok
    have outstanding : s.log.outstanding = 1 := by simpa using one
    refine .inr (.inr (.inl ⟨by rw [at']; rfl, rfl, idle, .inr ⟨?_, rfl, ?_⟩⟩))
    · exact congrArg Phase.kind (s.setPhase_phase_self p _)
    show s.log.outstanding - 1 = 0
    omega
  | @commit pc at' =>
    cases pc with
    | finish =>
      refine .inr (.inr (.inr ⟨by rw [at']; rfl, ?_, rfl, rfl⟩))
      exact (State.wakeup_kind _ p).trans (congrArg Phase.kind (s.setPhase_phase_self p _))
    | writeLog tail =>
      by_cases more : tail < s.log.lh.n
      · rw [State.commitStep, if_pos more]
        exact .inl ⟨by simp [at', Phase.kind, Phase.isOp, Phase.isCommit], rfl, rfl⟩
      rw [State.commitStep, if_neg more]
      exact .inl ⟨by simp [at', Phase.kind, Phase.isOp, Phase.isCommit], rfl, rfl⟩
    | _ =>
      exact .inl ⟨by simp [State.commitStep, at', Phase.kind, Phase.isOp, Phase.isCommit],
        rfl, rfl⟩

section Counted

variable [Fintype Pid]

/-- The processes between `begin_op` and `end_op`. -/
def ops (phase : Pid → Phase) : Finset Pid :=
  Finset.univ.filter fun p => (phase p).isOp

theorem mem_ops {phase : Pid → Phase} {p : Pid} : p ∈ ops phase ↔ (phase p).isOp = true := by
  simp [ops]

/-- `outstanding` counts the operations, `committing` says that one process is in
`commit`, and then no operation is outstanding. -/
structure Counted (s : State Pid) : Prop where
  count : s.log.outstanding = (ops s.phase).card
  flag : s.log.committing = true ↔ ∃ p, (s.phase p).isCommit = true
  one : ∀ p q, (s.phase p).isCommit = true → (s.phase q).isCommit = true → p = q
  quiet : s.log.committing = true → s.log.outstanding = 0

/-- While the log commits no process is inside an operation. -/
theorem Counted.no_op {s : State Pid} (c : Counted s) (committing : s.log.committing = true)
    (p : Pid) : (s.phase p).isOp = false := by
  have empty : (ops s.phase).card = 0 := by
    have zero := c.quiet committing
    rw [c.count] at zero
    exact_mod_cast zero
  have absent : p ∉ ops s.phase := by
    rw [Finset.card_eq_zero.mp empty]
    exact Finset.notMem_empty p
  simpa [mem_ops] using absent

theorem Counted.no_commit {s : State Pid} (c : Counted s) (idle : s.log.committing = false)
    (p : Pid) : (s.phase p).isCommit = false := by
  by_contra busy
  have committing := c.flag.mpr ⟨p, by simpa using busy⟩
  simp [idle] at committing

theorem Counted.init (start size : Nat) (block : Nat → Nat) : Counted (init Pid start size block) where
  count := by simp [Protocol.init, ops, Phase.isOp]
  flag := by simp [Protocol.init, Phase.isCommit]
  one := by simp [Protocol.init, Phase.isCommit]
  quiet := by simp [Protocol.init]

theorem ops_of_same {before after : Pid → Phase} {p : Pid}
    (others : ∀ q, q ≠ p → (after q).kind = (before q).kind)
    (same : (after p).isOp = (before p).isOp) : ops after = ops before := by
  ext q
  rw [mem_ops, mem_ops]
  by_cases eq : q = p
  · rw [eq, same]
  exact Eq.congr_left (congrArg Prod.fst (others q eq))

theorem card_ops_enter {before after : Pid → Phase} {p : Pid}
    (others : ∀ q, q ≠ p → (after q).kind = (before q).kind)
    (out : (before p).isOp = false) (into : (after p).isOp = true) :
    (ops after).card = (ops before).card + 1 := by
  have insert : ops after = insert p (ops before) := by
    ext q
    rw [Finset.mem_insert, mem_ops, mem_ops]
    by_cases eq : q = p
    · simp [eq, into]
    have same := congrArg Prod.fst (others q eq)
    simp only [Phase.kind] at same
    simp [eq, same]
  rw [insert, Finset.card_insert_of_notMem (by simp [mem_ops, out])]

/-- The counters and the phases after a step that only `p` makes. -/
theorem Counted.step {s s' : State Pid} {p : Pid} {action : Action} (c : Counted s)
    (t : Trans s p action s') : Counted s' := by
  have others : ∀ q, q ≠ p → (s'.phase q).kind = (s.phase q).kind := fun q => t.kind_of_ne
  have commits : ∀ q, q ≠ p → (s'.phase q).isCommit = (s.phase q).isCommit :=
    fun q ne => congrArg Prod.snd (others q ne)
  rcases t.counters with ⟨same, out, flag⟩ | ⟨before, after, out, idle, flag⟩ |
      ⟨before, out, idle, branch⟩ | ⟨before, after, out, flag⟩
  · have all : ∀ q, (s'.phase q).isCommit = (s.phase q).isCommit := by
      intro q
      by_cases eq : q = p
      · rw [eq]
        exact congrArg Prod.snd same
      exact commits q eq
    exact
      { count := by rw [out, c.count, ops_of_same others (congrArg Prod.fst same)]
        flag := by simpa only [flag, all] using c.flag
        one := by simpa only [all] using c.one
        quiet := by simpa only [flag, out] using c.quiet }
  · have quiet : ∀ q, (s'.phase q).isCommit = false := by
      intro q
      by_cases eq : q = p
      · rw [eq]
        exact congrArg Prod.snd after
      rw [commits q eq]
      exact c.no_commit idle q
    have card := card_ops_enter others (congrArg Prod.fst before) (congrArg Prod.fst after)
    exact
      { count := by rw [out, c.count, card, Nat.cast_add, Nat.cast_one]
        flag := by simp [flag, quiet]
        one := by simp [quiet]
        quiet := by simp [flag] }
  · have card : (ops s.phase).card = (ops s'.phase).card + 1 := by
      refine card_ops_enter (fun q ne => (others q ne).symm) ?_ (congrArg Prod.fst before)
      rcases branch with ⟨after, -⟩ | ⟨after, -⟩
      · exact congrArg Prod.fst after
      exact congrArg Prod.fst after
    have count : s'.log.outstanding = (ops s'.phase).card := by
      rw [out, c.count, card]
      omega
    have quiet : ∀ q, q ≠ p → (s'.phase q).isCommit = false :=
      fun q ne => (commits q ne).trans (c.no_commit idle q)
    rcases branch with ⟨after, flag⟩ | ⟨after, flag, zero⟩
    · have self : (s'.phase p).isCommit = false := congrArg Prod.snd after
      have none : ∀ q, (s'.phase q).isCommit = false := fun q =>
        if eq : q = p then eq ▸ self else quiet q eq
      exact ⟨count, by simp [flag, none], by simp [none], by simp [flag]⟩
    have self : (s'.phase p).isCommit = true := congrArg Prod.snd after
    have only : ∀ q, (s'.phase q).isCommit = true → q = p := by
      intro q busy
      by_contra ne
      simp [quiet q ne] at busy
    exact ⟨count, by simp only [flag, true_iff]; exact ⟨p, self⟩,
      fun q r hq hr => (only q hq).trans (only r hr).symm, fun _ => zero⟩
  have quiet : ∀ q, (s'.phase q).isCommit = false := by
    intro q
    by_cases eq : q = p
    · rw [eq]
      exact congrArg Prod.snd after
    rw [commits q eq]
    by_contra busy
    exact eq (c.one q p (by simpa using busy) (congrArg Prod.snd before))
  have same : ops s'.phase = ops s.phase :=
    ops_of_same others ((congrArg Prod.fst after).trans (congrArg Prod.fst before).symm)
  exact ⟨by rw [out, c.count, same], by simp [flag, quiet], by simp [quiet], by simp [flag]⟩

end Counted

/-! ## Every operation is in one commit -/

theorem Trans.inOp {s s' : State Pid} {q : Pid} {op : Nat}
    (t : Trans s p action s') (inside : s'.phase q = .inOp op) :
    s.phase q = .inOp op ∨ q = p ∧ op = s.nextOp ∧ s'.nextOp = s.nextOp + 1 := by
  have update : ∀ next : Phase, (s.setPhase p next).phase q = .inOp op →
      s.phase q = .inOp op ∨ q = p ∧ next = .inOp op := by
    intro next inside
    by_cases eq : q = p
    · subst eq
      exact .inr ⟨rfl, (s.setPhase_phase_self q next).symm.trans inside⟩
    exact .inl ((s.setPhase_phase_of_ne next eq).symm.trans inside)
  have wake : ∀ r : State Pid, r.wakeup.phase q = .inOp op → r.phase q = .inOp op := by
    intro r inside
    rcases r.wakeup_phase q with same | ⟨-, trying⟩
    · exact same.symm.trans inside
    cases trying.symm.trans inside
  have still : ∀ next : Phase, next.isOp = false → (s.setPhase p next).phase q = .inOp op →
      s.phase q = .inOp op ∨ q = p ∧ op = s.nextOp ∧ s'.nextOp = s.nextOp + 1 := by
    intro next out inside
    rcases update next inside with same | ⟨-, rfl⟩
    · exact .inl same
    cases out
  cases t with
  | call | sleep | kill | last => exact still _ rfl inside
  | logWrite => exact .inl inside
  | enter =>
    rcases update _ inside with same | ⟨eq, next⟩
    · exact .inl same
    cases next
    exact .inr ⟨eq, rfl, rfl⟩
  | leave => exact still .outside rfl (wake _ inside)
  | @commit pc =>
    cases pc with
    | finish => exact still .outside rfl (wake _ inside)
    | writeLog tail =>
      by_cases more : tail < s.log.lh.n
      · rw [State.commitStep, if_pos more] at inside
        exact still (.commit (.writeLog (tail + 1))) rfl inside
      rw [State.commitStep, if_neg more] at inside
      exact still _ rfl inside
    | test | install | eraseHead => exact still _ rfl inside
    | writeHead => exact still (.commit (.install 0)) rfl inside
    | clear => exact still (.commit .eraseHead) rfl inside

/-- What a step does to the ledger of writes and commits. -/
theorem Trans.ledger {s s' : State Pid} (t : Trans s p action s') : s.nextOp ≤ s'.nextOp ∧
    ((s'.history = s.history ∧ s'.pending = s.pending ∧ s'.commits = s.commits) ∨
      (∃ w : LogWrite, action = .logWrite w.block ∧ s.phase p = .inOp w.op ∧
        s'.phase = s.phase ∧ s'.history = s.history ++ [w] ∧
        s'.pending = s.pending ++ [w] ∧ s'.commits = s.commits) ∨
      (s.phase p = .commit .writeHead ∧ s'.history = s.history ∧ s'.pending = [] ∧
        s'.commits = s.commits ++ [⟨s.pending, s.written⟩])) := by
  cases t with
  | call | sleep | kill | leave | last => exact ⟨le_rfl, .inl ⟨rfl, rfl, rfl⟩⟩
  | enter => exact ⟨Nat.le_succ _, .inl ⟨rfl, rfl, rfl⟩⟩
  | logWrite at' => exact ⟨le_rfl, .inr (.inl ⟨_, rfl, at', rfl, rfl, rfl, rfl⟩)⟩
  | @commit pc at' =>
    cases pc with
    | writeHead => exact ⟨le_rfl, .inr (.inr ⟨at', rfl, rfl, rfl⟩)⟩
    | writeLog tail =>
      by_cases more : tail < s.log.lh.n
      · rw [State.commitStep, if_pos more]
        exact ⟨le_rfl, .inl ⟨rfl, rfl, rfl⟩⟩
      rw [State.commitStep, if_neg more]
      exact ⟨le_rfl, .inl ⟨rfl, rfl, rfl⟩⟩
    | _ => exact ⟨le_rfl, .inl ⟨rfl, rfl, rfl⟩⟩

/-- What a step does to the header. -/
theorem Trans.header {s s' : State Pid} (t : Trans s p action s') : s'.log.lh = s.log.lh ∨
      (∃ b op, action = .logWrite b ∧ s.phase p = .inOp op ∧ s'.phase = s.phase ∧
        s'.log.lh = s.log.lh.put b) ∨
      (action = .commit ∧ s.phase p = .commit .clear ∧ s'.phase p = .commit .eraseHead ∧
        s'.log.lh = { s.log.lh with n := 0 }) := by
  cases t with
  | call | sleep | kill => exact .inl rfl
  | enter at' ok =>
    obtain ⟨-, -, rfl⟩ := Log.beginOp_some ok
    exact .inl rfl
  | leave at' ok | last at' ok =>
    obtain ⟨-, -, rfl⟩ := Log.endOp_ok ok
    exact .inl rfl
  | logWrite at' ok =>
    obtain ⟨-, -, -, -, rfl⟩ := Log.logWrite_ok ok
    exact .inr (.inl ⟨_, _, rfl, at', rfl, rfl⟩)
  | @commit pc at' =>
    cases pc with
    | clear => exact .inr (.inr ⟨rfl, at', s.setPhase_phase_self p _, rfl⟩)
    | writeLog tail =>
      by_cases more : tail < s.log.lh.n
      · rw [State.commitStep, if_pos more]
        exact .inl rfl
      rw [State.commitStep, if_neg more]
      exact .inl rfl
    | _ => exact .inl rfl

/-- The header names no block twice. -/
theorem Reachable.nodup {start size : Nat} {block : Nat → Nat} {s : State Pid}
    (r : Reachable start size block s) : s.log.lh.entries.Nodup := by
  induction r with
  | init => exact List.nodup_nil
  | step _ step ih =>
    rcases (Trans.of_step step).header with same | ⟨b, op, -, -, -, put⟩ | ⟨-, -, -, clear⟩
    · rwa [same]
    · rw [put]
      exact LogHeader.nodup_entries_put ih
    rw [clear]
    exact List.nodup_nil

/-- No operation has calls of `log_write` in both lists. -/
def Apart (ws vs : List LogWrite) : Prop := ∀ w ∈ ws, ∀ v ∈ vs, w.op ≠ v.op

/-- The history is cut into the commits and the calls still pending, no operation
lies on both sides of a cut, and an operation still running is in no commit. -/
structure Grouped (s : State Pid) : Prop where
  running : ∀ p op, s.phase p = .inOp op → op < s.nextOp
  own : ∀ p q op, s.phase p = .inOp op → s.phase q = .inOp op → p = q
  past : ∀ w ∈ s.history, w.op < s.nextOp
  cut : s.history = s.commits.flatMap Commit.writes ++ s.pending
  ended : ∀ g ∈ s.commits, ∀ w ∈ g.writes, ∀ p, s.phase p ≠ .inOp w.op
  undecided : ∀ g ∈ s.commits, Apart g.writes s.pending
  whole : s.commits.Pairwise fun g h => Apart g.writes h.writes

theorem Grouped.init (start size : Nat) (block : Nat → Nat) : Grouped (init Pid start size block) where
  running := by simp [Protocol.init]
  own := by simp [Protocol.init]
  past := by simp [Protocol.init]
  cut := rfl
  ended := by simp [Protocol.init]
  undecided := by simp [Protocol.init]
  whole := List.Pairwise.nil

theorem Grouped.mem_history {s : State Pid} (g : Grouped s) {c : Commit} {w : LogWrite}
    (commit : c ∈ s.commits) (mem : w ∈ c.writes) : w ∈ s.history := by
  rw [g.cut]
  exact List.mem_append_left _ (List.mem_flatMap.mpr ⟨c, commit, mem⟩)

/-- Every step keeps the operations whole in the commits. -/
theorem Grouped.step [Fintype Pid] {s s' : State Pid}
    (g : Grouped s) (c : Counted s) (t : Trans s p action s') : Grouped s' := by
  obtain ⟨grows, ledger⟩ := t.ledger
  have running : ∀ q op, s'.phase q = .inOp op → op < s'.nextOp := by
    intro q op inside
    rcases t.inOp inside with before | ⟨-, rfl, next⟩
    · exact (g.running q op before).trans_le grows
    omega
  have own : ∀ q r op, s'.phase q = .inOp op → s'.phase r = .inOp op → q = r := by
    intro q r op hq hr
    rcases t.inOp hq with beforeQ | ⟨rfl, rfl, -⟩
    · rcases t.inOp hr with beforeR | ⟨-, rfl, -⟩
      · exact g.own q r op beforeQ beforeR
      exact absurd (g.running q _ beforeQ) (lt_irrefl _)
    rcases t.inOp hr with beforeR | ⟨rfl, -, -⟩
    · exact absurd (g.running r _ beforeR) (lt_irrefl _)
    rfl
  have ended : ∀ k ∈ s.commits, ∀ w ∈ k.writes, ∀ q, s'.phase q ≠ .inOp w.op := by
    intro k commit w mem q inside
    rcases t.inOp inside with before | ⟨-, eq, -⟩
    · exact g.ended k commit w mem q before
    exact absurd (g.past w (g.mem_history commit mem)) (by omega)
  rcases ledger with ⟨history, pending, commits⟩ | ⟨w, -, inside, -, history, pending, commits⟩ |
      ⟨inside, history, pending, commits⟩
  · exact
      { running, own
        past := fun w mem => (g.past w (history ▸ mem)).trans_le grows
        cut := by rw [history, commits, pending, g.cut]
        ended := commits ▸ ended
        undecided := by rw [commits, pending]; exact g.undecided
        whole := commits ▸ g.whole }
  · have old := g.running p w.op inside
    refine ⟨running, own, ?_, ?_, commits ▸ ended, ?_, commits ▸ g.whole⟩
    · intro v mem
      rw [history, List.mem_append, List.mem_singleton] at mem
      rcases mem with before | rfl
      · exact (g.past v before).trans_le grows
      exact old.trans_le grows
    · rw [history, commits, pending, g.cut, List.append_assoc]
    intro k commit v mem u added
    rw [commits] at commit
    rw [pending, List.mem_append, List.mem_singleton] at added
    rcases added with before | rfl
    · exact g.undecided k commit v mem u before
    intro eq
    exact g.ended k commit v mem p (eq ▸ inside)
  have committing := c.flag.mpr ⟨p, by rw [inside]; rfl⟩
  refine ⟨running, own, fun w mem => (g.past w (history ▸ mem)).trans_le grows, ?_, ?_, ?_, ?_⟩
  · rw [history, commits, pending, g.cut]
    simp
  · intro k commit w mem q inOp
    rw [commits, List.mem_append, List.mem_singleton] at commit
    rcases commit with before | rfl
    · exact ended k before w mem q inOp
    -- nobody is in an operation while a commit runs
    rcases t.inOp inOp with before | ⟨rfl, eq, -⟩
    · have out := c.no_op committing q
      rw [before] at out
      cases out
    have now : w ∈ s.history := by
      rw [g.cut]
      exact List.mem_append_right _ mem
    have old := g.past w now
    omega
  · intro k _ w _ v pendingNow
    rw [pending] at pendingNow
    cases pendingNow
  rw [commits, List.pairwise_append]
  refine ⟨g.whole, List.pairwise_singleton _ _, ?_⟩
  intro k before l last
  rw [List.mem_singleton] at last
  rw [last]
  exact g.undecided k before

/-! ## A commit copies what was logged -/

def Covers (bs : List Nat) (ws : List LogWrite) : Prop := ∀ b, b ∈ bs ↔ ∃ w ∈ ws, w.block = b

/-- What has been copied when a commit is at a given place. -/
def Progress (s : State Pid) : CommitPc → Prop
  | .test => s.written = [] ∧ Covers s.log.lh.entries s.pending
  | .writeLog tail => s.written = s.log.lh.entries.take tail ∧ Covers s.log.lh.entries s.pending
  | .writeHead => s.written = s.log.lh.entries ∧ Covers s.log.lh.entries s.pending
  | .install _ | .clear => s.written = [] ∧ s.pending = []
  | .eraseHead | .finish => s.written = [] ∧ Covers s.log.lh.entries s.pending

structure Copied (s : State Pid) : Prop where
  idle : s.log.committing = false → s.written = [] ∧ Covers s.log.lh.entries s.pending
  progress : ∀ p pc, s.phase p = .commit pc → Progress s pc
  blocks : ∀ g ∈ s.commits, Covers g.blocks g.writes

theorem Copied.init (start size : Nat) (block : Nat → Nat) : Copied (init Pid start size block) where
  idle := by simp [Protocol.init, Covers, LogHeader.entries]
  progress := by simp [Protocol.init]
  blocks := by simp [Protocol.init]

section Copied

variable [Fintype Pid] {s s' : State Pid}

theorem Copied.of_idle (c : Counted s) (idle : s.log.committing = false)
    (now : s.written = [] ∧ Covers s.log.lh.entries s.pending)
    (blocks : ∀ g ∈ s.commits, Covers g.blocks g.writes) : Copied s where
  idle _ := now
  progress p pc at' := by
    have out := c.no_commit idle p
    rw [at'] at out
    cases out
  blocks := blocks

theorem Copied.of_commit (c : Counted s) {p : Pid} {pc : CommitPc} (at' : s.phase p = .commit pc)
    (now : Progress s pc) (blocks : ∀ g ∈ s.commits, Covers g.blocks g.writes) : Copied s where
  idle idle := by
    have out := c.no_commit idle p
    rw [at'] at out
    cases out
  progress q pc' other := by
    have eq : q = p := c.one q p (by rw [other]; rfl) (by rw [at']; rfl)
    rw [eq, at'] at other
    cases other
    exact now
  blocks := blocks

theorem Copied.setPhase {p : Pid} {next : Phase} (k : Copied s) (out : next.isCommit = false) :
    Copied (s.setPhase p next) where
  idle := k.idle
  progress q pc at' := by
    by_cases eq : q = p
    · rw [eq, s.setPhase_phase_self] at at'
      rw [at'] at out
      cases out
    rw [s.setPhase_phase_of_ne _ eq] at at'
    cases pc <;> exact k.progress q _ at'
  blocks := k.blocks

theorem Covers.logWrite {lh : LogHeader} {ws : List LogWrite} (h : Covers lh.entries ws)
    (w : LogWrite) : Covers (lh.put w.block).entries (ws ++ [w]) := by
  intro b
  rw [LogHeader.mem_entries_put, h b]
  simp [or_and_right, exists_or, eq_comm (a := b)]

/-- Every write of a commit keeps its progress. -/
theorem Copied.commitStep {p : Pid} {pc : CommitPc} (k : Copied s) (at' : s.phase p = .commit pc)
    (c : Counted (s.commitStep p pc)) : Copied (s.commitStep p pc) := by
  have now := k.progress p pc at'
  cases pc with
  | test =>
    have self := s.setPhase_phase_self p (.commit (if 0 < s.log.lh.n then .writeLog 0 else .finish))
    refine Copied.of_commit c self ?_ k.blocks
    split
    · exact ⟨now.1.trans List.take_zero.symm, now.2⟩
    exact now
  | writeLog tail =>
    by_cases more : tail < s.log.lh.n
    · rw [State.commitStep, if_pos more] at c ⊢
      refine Copied.of_commit c (s.setPhase_phase_self p _) ⟨?_, now.2⟩ k.blocks
      show s.written ++ [s.log.lh.block tail] = s.log.lh.entries.take (tail + 1)
      have bound : tail < s.log.lh.entries.length := by rwa [LogHeader.length_entries]
      rw [now.1, List.take_add_one, List.getElem?_eq_getElem bound]
      simp [LogHeader.entries]
    rw [State.commitStep, if_neg more] at c ⊢
    refine Copied.of_commit c (s.setPhase_phase_self p _) ⟨?_, now.2⟩ k.blocks
    refine now.1.trans (List.take_of_length_le ?_)
    rw [LogHeader.length_entries]
    omega
  | writeHead =>
    refine Copied.of_commit c (s.setPhase_phase_self p _) ⟨rfl, rfl⟩ ?_
    intro g commit
    rcases List.mem_append.mp commit with before | last
    · exact k.blocks g before
    rw [List.mem_singleton.mp last]
    intro b
    rw [now.1]
    exact now.2 b
  | install tail =>
    have self := s.setPhase_phase_self p
      (.commit (if tail < s.log.lh.n then .install (tail + 1) else .clear))
    refine Copied.of_commit c self ?_ k.blocks
    split
    · exact now
    exact now
  | clear =>
    refine Copied.of_commit c (s.setPhase_phase_self p _) ⟨now.1, ?_⟩ k.blocks
    intro b
    show b ∈ LogHeader.entries { s.log.lh with n := 0 } ↔ ∃ w ∈ s.pending, w.block = b
    rw [now.2]
    simp [LogHeader.entries]
  | eraseHead => exact Copied.of_commit c (s.setPhase_phase_self p _) now k.blocks
  | finish => exact Copied.of_idle c rfl now k.blocks

/-- Every step keeps what the commits have covered. -/
theorem Copied.step {p : Pid} {action : Action} (k : Copied s) (c : Counted s)
    (t : Trans s p action s') : Copied s' := by
  have c' := c.step t
  cases t with
  | call | sleep | kill => exact k.setPhase rfl
  | enter at' ok =>
    obtain ⟨idle, -, rfl⟩ := Log.beginOp_some ok
    exact Copied.of_idle c' idle (k.idle idle) k.blocks
  | @logWrite op b fresh log at' ok =>
    obtain ⟨-, -, -, -, rfl⟩ := Log.logWrite_ok ok
    have idle : s.log.committing = false := by
      by_contra busy
      have out := c.no_op (by simpa using busy) p
      rw [at'] at out
      cases out
    obtain ⟨written, covers⟩ := k.idle idle
    exact Copied.of_idle c' idle ⟨written, covers.logWrite ⟨op, b, s.history.length⟩⟩ k.blocks
  | leave at' ok =>
    obtain ⟨idle, -, rfl⟩ := Log.endOp_ok ok
    exact Copied.of_idle c' rfl (k.idle idle) k.blocks
  | last at' ok =>
    obtain ⟨idle, -, rfl⟩ := Log.endOp_ok ok
    exact Copied.of_commit c' (s.setPhase_phase_self p _) (k.idle idle) k.blocks
  | commit at' => exact k.commitStep at' c'

end Copied

/-! ## Group commit -/

theorem State.step_error {s : State Pid} {e : Panic}
    (h : s.step p action = some (.error e)) :
    (∃ b op, action = .logWrite b ∧ s.phase p = .inOp op ∧ s.log.logWrite b = .error e) ∨
      (∃ op, action = .endOp ∧ s.phase p = .inOp op ∧ s.log.endOp = .error e) := by
  unfold State.step at h
  split at h
  · cases h
  · split at h
    · cases h
    cases h
  · rename_i at'
    split at h
    · rename_i failed
      cases h
      exact .inl ⟨_, _, rfl, at', failed⟩
    cases h
  · rename_i at'
    split at h
    · rename_i failed
      cases h
      exact .inr ⟨_, rfl, at', failed⟩
    · cases h
    cases h
  · cases h
  · cases h
  cases h

theorem State.step_logWrite_eq_none {s : State Pid} (out : (s.phase p).isOp = false)
    (b : Nat) : s.step p (.logWrite b) = none := by
  unfold State.step
  cases phase : s.phase p with
  | inOp op =>
    rw [phase] at out
    cases out
  | _ => rfl

variable [Fintype Pid] {start size : Nat} {block : Nat → Nat} {s : State Pid}

section

variable (r : Reachable start size block s)
include r

theorem Reachable.counted : Counted s := by
  induction r with
  | init => exact Counted.init start size block
  | step _ step ih => exact ih.step (.of_step step)

theorem Reachable.grouped : Grouped s := by
  induction r with
  | init => exact Grouped.init start size block
  | step before step ih => exact ih.step before.counted (.of_step step)

theorem Reachable.copied : Copied s := by
  induction r with
  | init => exact Copied.init start size block
  | step before step ih => exact ih.step before.counted (.of_step step)

end

theorem Counted.outstanding_pos (c : Counted s) (inside : (s.phase p).isOp = true) :
    1 ≤ s.log.outstanding := by
  have pos := Finset.card_pos.mpr ⟨p, mem_ops.mpr inside⟩
  have count := c.count
  omega

theorem Grouped.all_or_none (g : Grouped s) {c : Commit} (commit : c ∈ s.commits) (op : Nat) :
    (∀ w ∈ s.history, w.op = op → w ∈ c.writes) ∨ (∀ w ∈ c.writes, w.op ≠ op) := by
  by_cases some : ∃ v ∈ c.writes, v.op = op
  · obtain ⟨v, inside, eq⟩ := some
    refine .inl fun w mem same => ?_
    rw [g.cut, List.mem_append, List.mem_flatMap] at mem
    rcases mem with ⟨d, other, inOther⟩ | pending
    · by_cases one : c = d
      · exact one ▸ inOther
      have : Std.Symm fun c d : Commit => Apart c.writes d.writes :=
        ⟨fun c d apart w hw v hv eq => apart v hv w hw eq.symm⟩
      have apart := g.whole.forall commit other one
      exact absurd (eq.trans same.symm) (apart v inside w inOther)
    exact absurd (eq.trans same.symm) (g.undecided c commit v inside w pending)
  push Not at some
  exact .inr some

/-- Group commit never splits an operation: while a commit runs nobody is in an
operation or logs a block and only one process commits; each commit copies
exactly the blocks of the calls it covers, which are all of an operation's calls
or none; the two panics about misuse of the log are never reached. -/
theorem group_commit (r : Reachable start size block s) :
    (s.log.committing = true →
        s.log.outstanding = 0 ∧ (∀ p, (s.phase p).isOp = false) ∧
        ∀ p b, s.step p (.logWrite b) = none) ∧
      (∀ p q, (s.phase p).isCommit = true → (s.phase q).isCommit = true → p = q) ∧
      ((∃ p, (s.phase p).isCommit = true) ↔ s.log.committing = true) ∧
      (∀ c ∈ s.commits, (∀ b, b ∈ c.blocks ↔ ∃ w ∈ c.writes, w.block = b) ∧
        ∀ op, (∀ w ∈ s.history, w.op = op → w ∈ c.writes) ∨ (∀ w ∈ c.writes, w.op ≠ op)) ∧
      (∀ p action, s.step p action ≠ some (.error .logCommitting) ∧
        s.step p action ≠ some (.error .logWriteOutside)) := by
  have counted := r.counted
  have quiet : s.log.committing = true → ∀ p, (s.phase p).isOp = false := counted.no_op
  refine ⟨?_, counted.one, counted.flag.symm, ?_, ?_⟩
  · intro committing
    exact ⟨counted.quiet committing, quiet committing,
      fun p b => State.step_logWrite_eq_none (quiet committing p) b⟩
  · intro c commit
    exact ⟨r.copied.blocks c commit, r.grouped.all_or_none commit⟩
  intro p action
  constructor
  · intro failed
    rcases State.step_error failed with ⟨b, op, -, at', error⟩ | ⟨op, -, at', error⟩
    · rcases Log.logWrite_error error with ⟨eq, -⟩ | ⟨eq, -⟩
      · cases eq
      cases eq
    have out := quiet (Log.endOp_error error).2 p
    rw [at'] at out
    cases out
  intro failed
  rcases State.step_error failed with ⟨b, op, -, at', error⟩ | ⟨op, -, at', error⟩
  · rcases Log.logWrite_error error with ⟨eq, -⟩ | ⟨-, none⟩
    · cases eq
    have pos := counted.outstanding_pos (p := p) (by rw [at']; rfl)
    omega
  cases (Log.endOp_error error).1

local instance two : NeZero 2 := ⟨by decide⟩

/-- Two operations that share a block, up to the installation of their commit. -/
def twoWriters : List (Fin 2 × Action) :=
  [(0, .call), (0, .begin), (1, .call), (1, .begin), (0, .logWrite 70), (1, .logWrite 71),
    (0, .logWrite 71), (0, .endOp), (1, .endOp), (1, .commit), (1, .commit), (1, .commit),
    (1, .commit), (1, .commit)]

theorem twoWriters_group_commit :
    ∃ s : State (Fin 2), Reachable 2 LOGSIZE (fun _ => 0) s ∧
      s.commits = [⟨[⟨0, 70, 0⟩, ⟨1, 71, 1⟩, ⟨0, 71, 2⟩], [70, 71]⟩] ∧
      s.log.outstanding = 0 ∧ ∀ p b, s.step p (.logWrite b) = none := by
  have ran : (((init (Fin 2) 2 LOGSIZE fun _ => 0).runWith (fun _ _ _ => true) twoWriters).map
      fun s => (s.commits, s.log.committing)) =
        some ([⟨[⟨0, 70, 0⟩, ⟨1, 71, 1⟩, ⟨0, 71, 2⟩], [70, 71]⟩], true) := by decide
  obtain ⟨s, run, shown⟩ := Option.map_eq_some_iff.mp ran
  obtain ⟨commits, committing⟩ := Prod.mk.inj shown
  have reachable : Reachable 2 LOGSIZE (fun _ => 0) s := (Runs.init.runWith run).reachable
  obtain ⟨outstanding, -, silent⟩ := (group_commit reachable).1 committing
  exact ⟨s, reachable, commits, outstanding, silent⟩

end Xv6.Protocol
