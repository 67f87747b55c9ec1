import Mathlib.Algebra.BigOperators.Fin
import Xv6.Log.Protocol

/-!
# Log space

`begin_op` admits an operation when the log could take `MAXOPBLOCKS` blocks for
it and for every operation in progress. It compares with `LOGSIZE`, while
`log_write` panics as soon as `n` has reached `log.size - 1`, so that three
operations at their limit do not fit. The results here say how much room an
admitted operation must find: with it no run panics, and without it some
continuation in which everybody keeps to the limit does.
-/

namespace Xv6.Protocol

set_option linter.unusedSectionVars false

variable {Pid : Type} [DecidableEq Pid]

/-! ## The limit of an operation and what is left of it -/

namespace State

def logged (s : State Pid) (op : Nat) : Finset Nat :=
  ((s.history.filter fun w => w.op = op).map LogWrite.block).toFinset

/-- The step keeps its operation within `MAXOPBLOCKS` distinct blocks. -/
def withinLimit (s : State Pid) (p : Pid) (action : Action) : Bool :=
  match action, s.phase p with
  | .logWrite b, .inOp op => (insert b (s.logged op)).card ≤ MAXOPBLOCKS
  | _, _ => true

/-- How many more blocks the operation of `p` may log. -/
def remaining (s : State Pid) (p : Pid) : Nat :=
  match s.phase p with
  | .inOp op => MAXOPBLOCKS - (s.logged op).card
  | _ => 0

/-- How many more blocks the operations in progress may log. -/
def reserved [Fintype Pid] (s : State Pid) : Nat := ∑ p, s.remaining p

/-- An operation is admitted only if all that may still be logged fits below the
limit of `log_write`. -/
def admitsWithRoom [Fintype Pid] (s : State Pid) (p : Pid) (action : Action) : Bool :=
  match action, s.phase p, s.log.beginOp with
  | .begin, .trying, some _ => s.log.lh.n + s.reserved + MAXOPBLOCKS + 2 ≤ s.log.size
  | _, _, _ => true

theorem mem_logged {s : State Pid} {op b : Nat} :
    b ∈ s.logged op ↔ ∃ w ∈ s.history, w.op = op ∧ w.block = b := by
  simp [logged, and_assoc]

theorem remaining_inOp {s : State Pid} {p : Pid} {op : Nat} (inside : s.phase p = .inOp op) :
    s.remaining p = MAXOPBLOCKS - (s.logged op).card := by
  simp [remaining, inside]

theorem remaining_of_not_op {s : State Pid} {p : Pid} (out : (s.phase p).isOp = false) :
    s.remaining p = 0 := by
  unfold remaining
  split
  · rename_i inside
    rw [inside] at out
    cases out
  rfl

theorem remaining_le (s : State Pid) (p : Pid) : s.remaining p ≤ MAXOPBLOCKS := by
  unfold remaining
  split
  · exact Nat.sub_le _ _
  exact zero_le

theorem logged_of_same {s s' : State Pid} (same : s'.history = s.history) (op : Nat) :
    s'.logged op = s.logged op := by
  rw [logged, same, logged]

theorem logged_of_append {s s' : State Pid} {w : LogWrite} (more : s'.history = s.history ++ [w])
    (op : Nat) :
    s'.logged op = if w.op = op then insert w.block (s.logged op) else s.logged op := by
  ext b
  split
  · rename_i own
    simp only [Finset.mem_insert, mem_logged, more, List.mem_append, List.mem_singleton]
    constructor
    · rintro ⟨v, before | rfl, eq⟩
      · exact .inr ⟨v, before, eq⟩
      exact .inl eq.2.symm
    rintro (rfl | ⟨v, before, eq⟩)
    · exact ⟨w, .inr rfl, own, rfl⟩
    exact ⟨v, .inl before, eq⟩
  rename_i other
  simp only [mem_logged, more, List.mem_append, List.mem_singleton]
  constructor
  · rintro ⟨v, before | rfl, eq⟩
    · exact ⟨v, before, eq⟩
    exact absurd eq.1 other
  rintro ⟨v, before, eq⟩
  exact ⟨v, .inl before, eq⟩

end State

theorem Trans.remaining_of_ne {s s' : State Pid} {p q : Pid} {action : Action}
    (t : Trans s p action s') (g : Grouped s) (ne : q ≠ p) : s'.remaining q = s.remaining q := by
  have kind := congrArg Prod.fst (t.kind_of_ne ne)
  by_cases inside : (s'.phase q).isOp = true
  · obtain ⟨op, after⟩ := Phase.isOp_iff.mp inside
    have before : s.phase q = .inOp op := by
      rcases t.inOp after with before | ⟨eq, -⟩
      · exact before
      exact absurd eq ne
    rw [State.remaining_inOp after, State.remaining_inOp before]
    obtain ⟨-, ⟨same, -⟩ | ⟨w, action, at', -, more, -⟩ | ⟨-, same, -⟩⟩ := t.ledger
    · rw [State.logged_of_same same]
    · have other : w.op ≠ op := fun eq => ne (g.own q p op before (eq ▸ at'))
      rw [State.logged_of_append more, if_neg other]
    rw [State.logged_of_same same]
  have out : (s'.phase q).isOp = false := by simpa using inside
  rw [State.remaining_of_not_op out, State.remaining_of_not_op (kind.symm.trans out)]

theorem commitStep_size (s : State Pid) (p : Pid) (pc : CommitPc) :
    (s.commitStep p pc).log.size = s.log.size ∧ (s.commitStep p pc).log.lh.n ≤ s.log.lh.n := by
  cases pc with
  | writeLog tail =>
    by_cases more : tail < s.log.lh.n
    · rw [State.commitStep, if_pos more]
      exact ⟨rfl, le_rfl⟩
    rw [State.commitStep, if_neg more]
    exact ⟨rfl, le_rfl⟩
  | clear => exact ⟨rfl, zero_le⟩
  | _ => exact ⟨rfl, le_rfl⟩

section Room

variable [Fintype Pid] {s s' : State Pid} {p : Pid} {action : Action}

theorem Trans.reserved (t : Trans s p action s') (g : Grouped s) :
    s'.reserved + s.remaining p = s.reserved + s'.remaining p := by
  have others : ∑ q ∈ Finset.univ.erase p, s'.remaining q =
      ∑ q ∈ Finset.univ.erase p, s.remaining q :=
    Finset.sum_congr rfl fun q mem => t.remaining_of_ne g (Finset.ne_of_mem_erase mem)
  have before := Finset.add_sum_erase Finset.univ s.remaining (Finset.mem_univ p)
  have after := Finset.add_sum_erase Finset.univ s'.remaining (Finset.mem_univ p)
  unfold State.reserved
  omega

theorem Trans.reserved_le (t : Trans s p action s') (g : Grouped s) :
    s'.reserved ≤ s.reserved + MAXOPBLOCKS := by
  have sum := t.reserved g
  have most := s'.remaining_le p
  omega

theorem logged_subset_entries (c : Counted s) (g : Grouped s) (k : Copied s) {op : Nat}
    (inside : s.phase p = .inOp op) {b : Nat} (mem : b ∈ s.logged op) : b ∈ s.log.lh.entries := by
  have idle : s.log.committing = false := by
    by_contra busy
    have out := c.no_op (by simpa using busy) p
    rw [inside] at out
    cases out
  obtain ⟨w, history, own, rfl⟩ := State.mem_logged.mp mem
  refine ((k.idle idle).2 w.block).mpr ⟨w, ?_, rfl⟩
  rw [g.cut, List.mem_append, List.mem_flatMap] at history
  rcases history with ⟨commit, old, covered⟩ | pending
  · exact absurd (own ▸ inside) (g.ended commit old w covered p)
  exact pending

/-- What may still be logged fits below the limit of `log_write`. -/
def Room (s : State Pid) : Prop := s.log.lh.n + s.reserved + 2 ≤ s.log.size

theorem Room.of_le (room : Room s) (t : Trans s p action s') (g : Grouped s)
    (size : s'.log.size = s.log.size) (n : s'.log.lh.n ≤ s.log.lh.n)
    (out : (s'.phase p).isOp = false) : Room s' := by
  have sum := t.reserved g
  rw [State.remaining_of_not_op out] at sum
  unfold Room at *
  omega

theorem Room.logWrite {op b : Nat} (room : Room s) (c : Counted s) (g : Grouped s) (k : Copied s)
    (t : Trans s p (.logWrite b) s') (inside : s.phase p = .inOp op)
    (lh : s'.log = { s.log with lh := s.log.lh.put b })
    (limit : s.withinLimit p (.logWrite b) = true) : Room s' := by
  have within : (insert b (s.logged op)).card ≤ MAXOPBLOCKS := by
    simpa [State.withinLimit, inside] using limit
  obtain ⟨w, own, block, phase, history⟩ : ∃ w : LogWrite, w.op = op ∧ w.block = b ∧
      s'.phase = s.phase ∧ s'.history = s.history ++ [w] := by
    cases t with
    | logWrite at' ok => exact ⟨_, Phase.inOp.inj (at'.symm.trans inside), rfl, rfl, rfl⟩
  have sum := t.reserved g
  have after : s'.remaining p = MAXOPBLOCKS - (insert b (s.logged op)).card := by
    rw [State.remaining_inOp (phase ▸ inside), State.logged_of_append history, if_pos own, block]
  rw [after, State.remaining_inOp inside] at sum
  unfold Room at *
  rw [lh]
  show (s.log.lh.put b).n + s'.reserved + 2 ≤ s.log.size
  by_cases known : b ∈ s.logged op
  · rw [LogHeader.put_of_mem (logged_subset_entries c g k inside known)]
    rw [Finset.insert_eq_of_mem known] at sum
    omega
  rw [Finset.card_insert_of_notMem known] at sum within
  by_cases present : b ∈ s.log.lh.entries
  · rw [LogHeader.put_of_mem present]
    omega
  rw [LogHeader.n_put_of_not_mem present]
  omega

theorem Room.step (room : Room s) (c : Counted s) (g : Grouped s) (k : Copied s)
    (t : Trans s p action s') (limit : s.withinLimit p action = true)
    (admits : s.admitsWithRoom p action = true) : Room s' := by
  have out : ∀ phase : Phase, phase.isOp = false → ((s.setPhase p phase).phase p).isOp = false := by
    intro phase out
    rwa [s.setPhase_phase_self]
  cases t with
  | call at' => exact room.of_le (.call at') g rfl le_rfl (out _ rfl)
  | sleep at' => exact room.of_le (.sleep at') g rfl le_rfl (out _ rfl)
  | kill at' => exact room.of_le (.kill at') g rfl le_rfl (out _ rfl)
  | leave at' ok =>
    have t := Trans.leave at' ok
    obtain ⟨-, -, rfl⟩ := Log.endOp_ok ok
    refine room.of_le t g rfl le_rfl ?_
    exact (congrArg Prod.fst (State.wakeup_kind _ p)).trans (out .outside rfl)
  | last at' ok =>
    have t := Trans.last at' ok
    obtain ⟨-, -, rfl⟩ := Log.endOp_ok ok
    exact room.of_le t g rfl le_rfl (out (.commit .test) rfl)
  | @commit pc at' =>
    have t := Trans.commit at'
    have busy := c.flag.mpr ⟨p, by rw [at']; rfl⟩
    have sizes := commitStep_size s p pc
    refine room.of_le t g sizes.1 sizes.2 ?_
    rcases t.counters with ⟨same, -⟩ | ⟨-, -, -, idle, -⟩ | ⟨-, -, idle, -⟩ | ⟨-, after, -⟩
    · exact (congrArg Prod.fst same).trans (c.no_op busy p)
    · rw [idle] at busy
      cases busy
    · rw [idle] at busy
      cases busy
    exact congrArg Prod.fst after
  | logWrite at' ok =>
    have t := Trans.logWrite at' ok
    obtain ⟨-, -, -, -, rfl⟩ := Log.logWrite_ok ok
    exact room.logWrite c g k t at' rfl limit
  | enter at' ok =>
    have t := Trans.enter at' ok
    have fits : s.log.lh.n + s.reserved + MAXOPBLOCKS + 2 ≤ s.log.size := by
      simpa [State.admitsWithRoom, at', ok] using admits
    obtain ⟨-, -, rfl⟩ := Log.beginOp_some ok
    have sum := t.reserved_le g
    show s.log.lh.n + _ + 2 ≤ s.log.size
    omega

end Room

/-- The steps of the runs without a panic: operations keep to the limit and are
admitted with room. -/
def State.careful [Fintype Pid] (s : State Pid) (p : Pid) (action : Action) : Bool :=
  s.withinLimit p action && s.admitsWithRoom p action

theorem Runs.room [Fintype Pid] {start size : Nat} {block : Nat → Nat} {s : State Pid}
    (large : 2 ≤ size) (r : Runs State.careful start size block s) : Room s := by
  induction r with
  | init =>
    have none : (Protocol.init Pid start size block).reserved = 0 :=
      Finset.sum_eq_zero fun _ _ => rfl
    show 0 + _ + 2 ≤ size
    omega
  | step before fine step ih =>
    obtain ⟨limit, admits⟩ := Bool.and_eq_true_iff.mp fine
    have r := before.reachable
    exact ih.step r.counted r.grouped r.copied (.of_step step) limit admits

theorem Reachable.size {start size : Nat} {block : Nat → Nat} {s : State Pid}
    (r : Reachable start size block s) : s.log.size = size := by
  induction r with
  | init => rfl
  | step _ step ih =>
    rw [← ih]
    cases Trans.of_step step with
    | enter at' ok =>
      obtain ⟨-, -, rfl⟩ := Log.beginOp_some ok
      rfl
    | logWrite at' ok =>
      obtain ⟨-, -, -, -, rfl⟩ := Log.logWrite_ok ok
      rfl
    | leave at' ok | last at' ok =>
      obtain ⟨-, -, rfl⟩ := Log.endOp_ok ok
      rfl
    | commit => exact (commitStep_size _ _ _).1
    | _ => rfl

/-- With room at every admission, `log_write` never panics for lack of it. -/
theorem log_space_suffices [Fintype Pid] {start : Nat} {block : Nat → Nat} {s : State Pid}
    (r : Runs State.careful start LOGSIZE block s) (p : Pid) (action : Action) :
    s.step p action ≠ some (.error .tooBigTransaction) := by
  intro failed
  have room : s.log.lh.n + s.reserved + 2 ≤ LOGSIZE := by
    have room := r.room (by decide)
    rwa [Room, r.reachable.size] at room
  rcases State.step_error failed with ⟨b, op, -, -, error⟩ | ⟨op, -, -, error⟩
  · rcases Log.logWrite_error error with ⟨-, full⟩ | ⟨eq, -⟩
    · rw [r.reachable.size] at full
      omega
    cases eq
  cases (Log.endOp_error error).1

/-- Two operations in progress and one of them at work; a third one would be admitted. -/
def twoAdmitted : List (Fin 3 × Action) :=
  [(0, .call), (0, .begin), (1, .call), (1, .begin), (0, .logWrite 70), (1, .logWrite 70), (1, .logWrite 71)]

theorem twoAdmitted_log_space :
    ∃ s : State (Fin 3), Runs State.careful 2 LOGSIZE (fun _ => 0) s ∧ s.log.lh.n = 2 ∧
      s.log.outstanding = 2 ∧ ∀ p action, s.step p action ≠ some (.error .tooBigTransaction) := by
  have ran : (((init (Fin 3) 2 LOGSIZE fun _ => 0).runWith State.careful twoAdmitted).map
      fun s => (s.log.lh.n, s.log.outstanding)) = some (2, 2) := by decide
  obtain ⟨s, run, shown⟩ := Option.map_eq_some_iff.mp ran
  obtain ⟨n, outstanding⟩ := Prod.mk.inj shown
  have careful : Runs State.careful 2 LOGSIZE (fun _ => 0) s := Runs.init.runWith run
  exact ⟨s, careful, n, outstanding, log_space_suffices careful⟩

/-! ## Without room -/

/-- Three operations that log ten blocks each, up to the last of them. -/
def threeWriters : List (Fin 3 × Action) :=
  [(0, .call), (0, .begin), (1, .call), (1, .begin), (2, .call), (2, .begin)] ++
    (List.range 10).map (fun b => (0, .logWrite (70 + b))) ++
    (List.range 10).map (fun b => (1, .logWrite (80 + b))) ++
    (List.range 9).map (fun b => (2, .logWrite (90 + b)))

/-- All three are admitted and keep to their limit, and the thirtieth block panics. -/
theorem threeWriters_panic :
    ∃ s : State (Fin 3), Runs State.withinLimit 2 LOGSIZE (fun _ => 0) s ∧
      s.withinLimit 2 (.logWrite 99) = true ∧
      s.step 2 (.logWrite 99) = some (.error .tooBigTransaction) := by
  have ran : (((init (Fin 3) 2 LOGSIZE fun _ => 0).runWith State.withinLimit threeWriters).map
      fun s => (s.withinLimit 2 (.logWrite 99), s.phase 2, s.log.lh.n, s.log.size)) =
        some (true, .inOp 2, 29, 30) := by decide
  obtain ⟨s, run, shown⟩ := Option.map_eq_some_iff.mp ran
  simp only [Prod.mk.injEq] at shown
  obtain ⟨limit, inside, n, size⟩ := shown
  refine ⟨s, Runs.init.runWith run, limit, ?_⟩
  simp [State.step, inside, Log.logWrite, n, size]

theorem Runs.logged_le {start size : Nat} {block : Nat → Nat} {s : State Pid}
    (r : Runs State.withinLimit start size block s) (op : Nat) :
    (s.logged op).card ≤ MAXOPBLOCKS := by
  induction r with
  | init => exact zero_le
  | @step s s' p action _ fine step ih =>
    have t := Trans.of_step step
    obtain ⟨-, ⟨same, -⟩ | ⟨w, action, at', -, more, -⟩ | ⟨-, same, -⟩⟩ := t.ledger
    · rwa [State.logged_of_same same]
    · rw [State.logged_of_append more]
      split
      · rename_i own
        simpa [State.withinLimit, action, at', own] using fine
      exact ih
    rwa [State.logged_of_same same]

theorem State.exists_logWrite {s : State Pid} {p : Pid} {op : Nat} (b : Nat)
    (inside : s.phase p = .inOp op) (outstanding : 1 ≤ s.log.outstanding)
    (room : s.log.lh.n + 1 < s.log.size) (most : s.log.size ≤ LOGSIZE) :
    ∃ s', s.step p (.logWrite b) = some (.ok s') ∧ s'.phase = s.phase ∧ s'.log = { s.log with lh := s.log.lh.put b } ∧
      s'.history = s.history ++ [⟨op, b, s.history.length⟩] := by
  have fits : ¬(s.log.lh.n ≥ LOGSIZE ∨ (s.log.lh.n : Int) ≥ s.log.size - 1) := by omega
  have inOp : ¬s.log.outstanding < 1 := by omega
  simp only [State.step, inside, Log.logWrite, if_neg fits, if_neg inOp]
  exact ⟨_, rfl, rfl, rfl, rfl⟩

section NoRoom

variable [Fintype Pid] {start size : Nat} {block : Nat → Nat} {s : State Pid} {p : Pid} {op : Nat}

section

variable (r : Runs State.withinLimit start size block s)
include r

theorem Runs.exists_step (most : size ≤ LOGSIZE) (left : 0 < s.reserved)
    (room : s.log.lh.n + 1 < s.log.size) :
    ∃ q b s', s.withinLimit q (.logWrite b) = true ∧ s.step q (.logWrite b) = some (.ok s') ∧
      s'.phase = s.phase ∧
      s'.log.lh.n = s.log.lh.n + 1 ∧ s'.log.size = s.log.size ∧ s'.reserved + 1 = s.reserved := by
  obtain ⟨q, -, pos⟩ := Finset.exists_ne_zero_of_sum_ne_zero (Nat.ne_of_gt left)
  have inside : (s.phase q).isOp = true := by
    by_contra out
    exact pos (State.remaining_of_not_op (by simpa using out))
  obtain ⟨op, inside⟩ := Phase.isOp_iff.mp inside
  obtain ⟨b, fresh⟩ := Infinite.exists_notMem_finset s.log.lh.entries.toFinset
  have absent : b ∉ s.log.lh.entries := by simpa using fresh
  have counted := r.reachable.counted
  have unlogged : b ∉ s.logged op := fun mem =>
    absent (logged_subset_entries counted r.reachable.grouped r.reachable.copied inside mem)
  have card : (insert b (s.logged op)).card = (s.logged op).card + 1 :=
    Finset.card_insert_of_notMem unlogged
  rw [State.remaining_inOp inside] at pos
  have limit : s.withinLimit q (.logWrite b) = true := by
    simp only [State.withinLimit, inside, decide_eq_true_eq, card]
    omega
  obtain ⟨s', step, phase, log, history⟩ := s.exists_logWrite b inside
    (counted.outstanding_pos (p := q) (by rw [inside]; rfl)) room (r.reachable.size ▸ most)
  have sum := (Trans.of_step step).reserved r.reachable.grouped
  rw [State.remaining_inOp inside, State.remaining_inOp (phase ▸ inside),
    State.logged_of_append history, if_pos rfl, card] at sum
  refine ⟨q, b, s', limit, step, phase, ?_, by rw [log], by omega⟩
  rw [log]
  exact LogHeader.n_put_of_not_mem absent

theorem Runs.panics_when_full (inside : s.phase p = .inOp op) (full : s.log.size ≤ s.log.lh.n + 1) :
    ∃ b, s.withinLimit p (.logWrite b) = true ∧
      s.step p (.logWrite b) = some (.error .tooBigTransaction) := by
  have panic : ∀ b, s.step p (.logWrite b) = some (.error .tooBigTransaction) := by
    intro b
    have full : s.log.lh.n ≥ LOGSIZE ∨ (s.log.lh.n : Int) ≥ s.log.size - 1 := by omega
    simp only [State.step, inside, Log.logWrite, if_pos full]
  rcases (s.logged op).eq_empty_or_nonempty with empty | ⟨b, known⟩
  · refine ⟨0, ?_, panic 0⟩
    simp only [State.withinLimit, inside, empty]
    decide
  refine ⟨b, ?_, panic b⟩
  simpa [State.withinLimit, inside, known] using r.logged_le op

theorem Runs.panics_without_room (most : size ≤ LOGSIZE) (inside : s.phase p = .inOp op)
    (noRoom : ¬Room s) :
    ∃ schedule s' b, s.runWith State.withinLimit schedule = some s' ∧
      s'.withinLimit p (.logWrite b) = true ∧
      s'.step p (.logWrite b) = some (.error .tooBigTransaction) := by
  generalize left : s.reserved = k
  unfold Room at noRoom
  -- on the number of blocks that may still be logged; each step logs one of them
  induction k generalizing s with
  | zero =>
    obtain ⟨b, panics⟩ := r.panics_when_full inside (by omega)
    exact ⟨[], s, b, rfl, panics⟩
  | succ k ih =>
    by_cases room : s.log.lh.n + 1 < s.log.size
    · obtain ⟨q, b, s', limit, step, phase, n, same, less⟩ := r.exists_step most (by omega) room
      obtain ⟨schedule, t, c, ran, panics⟩ := ih (r.step limit step) (phase ▸ inside) (by omega)
        (by omega)
      refine ⟨(q, .logWrite b) :: schedule, t, c, ?_, panics⟩
      simpa only [State.runWith, limit, step] using ran
    obtain ⟨b, panics⟩ := r.panics_when_full inside (by omega)
    exact ⟨[], s, b, rfl, panics⟩

/-- Where an operation is admitted without room for all that may still be logged, the run can go on,
with every operation within its limit, until it panics. -/
theorem Runs.panics_after_admission (most : size ≤ LOGSIZE)
    (admitted : s.admitsWithRoom p .begin = false) :
    ∃ schedule s' b, s.runWith State.withinLimit schedule = some s' ∧
      s'.withinLimit p (.logWrite b) = true ∧
      s'.step p (.logWrite b) = some (.error .tooBigTransaction) := by
  unfold State.admitsWithRoom at admitted
  split at admitted
  swap
  · cases admitted
  rename_i log _ at' ok
  have tight : ¬s.log.lh.n + s.reserved + MAXOPBLOCKS + 2 ≤ s.log.size := by simpa using admitted
  obtain ⟨s', step, inside, lh, size', history⟩ : ∃ s', s.step p .begin = some (.ok s') ∧
      s'.phase p = .inOp s.nextOp ∧ s'.log.lh = s.log.lh ∧ s'.log.size = s.log.size ∧
      s'.history = s.history := by
    obtain ⟨-, -, rfl⟩ := Log.beginOp_some ok
    simp only [State.step, at', ok]
    exact ⟨_, rfl, s.setPhase_phase_self p _, rfl, rfl, rfl⟩
  have nothing : s.logged s.nextOp = ∅ := by
    refine Finset.eq_empty_of_forall_notMem fun b mem => ?_
    obtain ⟨w, history, own, -⟩ := State.mem_logged.mp mem
    exact absurd (r.reachable.grouped.past w history) (by omega)
  have sum := (Trans.of_step step).reserved r.reachable.grouped
  rw [State.remaining_of_not_op (s := s) (by rw [at']; rfl), State.remaining_inOp inside,
    State.logged_of_same history, nothing, Finset.card_empty] at sum
  have noRoom : ¬Room s' := by
    rw [Room, lh, size']
    omega
  obtain ⟨schedule, t, b, ran, panics⟩ := (r.step rfl step).panics_without_room most inside noRoom
  refine ⟨(p, .begin) :: schedule, t, b, ?_, panics⟩
  simpa only [State.runWith, State.withinLimit, step] using ran

end

end NoRoom

theorem thirdAdmitted_panics :
    ∃ s : State (Fin 3), Runs State.withinLimit 2 LOGSIZE (fun _ => 0) s ∧ s.admitsWithRoom 2 .begin = false ∧
      ∃ schedule s' b, s.runWith State.withinLimit schedule = some s' ∧
        s'.step 2 (.logWrite b) = some (.error .tooBigTransaction) := by
  have ran : (((init (Fin 3) 2 LOGSIZE fun _ => 0).runWith State.withinLimit (threeWriters.take 5)).map
      fun s => s.admitsWithRoom 2 .begin) = some false := by decide
  obtain ⟨s, run, admitted⟩ := Option.map_eq_some_iff.mp ran
  have runs : Runs State.withinLimit 2 LOGSIZE (fun _ => 0) s := Runs.init.runWith run
  obtain ⟨schedule, s', b, ran, -, panics⟩ := runs.panics_after_admission le_rfl admitted
  exact ⟨s, runs, admitted, schedule, s', b, ran, panics⟩

end Xv6.Protocol
