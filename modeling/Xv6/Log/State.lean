import Xv6.Param

/-!
# The log and its critical sections

`struct log` of `kernel/log.c` without its spin-lock, and what `begin_op`,
`end_op` and `log_write` do to it while they hold that lock. Each is a function
on the record, so that the sequential kernel and the concurrent protocol run the
same code.
-/

namespace Xv6

/-- The calls of `panic` that the modelled code can make, and `blocked` for a
call that would wait for ever because nothing else runs. -/
inductive Panic
  | tooBigTransaction
  | logWriteOutside
  | logCommitting
  | bgetNoBuffers
  | bwrite
  | brelse
  | invalidFileSystem
  | freeingFreeBlock
  | bmapOutOfRange
  | igetNoInodes
  | ilock
  | ilockNoType
  | iunlock
  | dirlookupNotDir
  | dirlookupRead
  | dirlinkRead
  | isdiremptyReadi
  | unlinkNlink
  | unlinkWritei
  | filedup
  | fileclose
  | fileread
  | filewrite
  | blocked
  deriving DecidableEq

/-- `struct logheader`: the number of logged blocks and their home block numbers. -/
structure LogHeader where
  n : Nat
  block : Nat → Nat

namespace LogHeader

def entries (lh : LogHeader) : List Nat := (List.range lh.n).map lh.block

variable {b : Nat} {lh : LogHeader}

theorem mem_entries : b ∈ lh.entries ↔ ∃ i < lh.n, lh.block i = b := by
  simp [entries]

@[simp] theorem length_entries (lh : LogHeader) : lh.entries.length = lh.n := by simp [entries]

/-- The loop of `log_write`: the first index below `n` that holds `b`, or `n`. -/
def find (lh : LogHeader) (b : Nat) : Nat :=
  ((List.range lh.n).find? fun i => lh.block i = b).getD lh.n

theorem find_cases (lh : LogHeader) (b : Nat) :
    (lh.find b < lh.n ∧ lh.block (lh.find b) = b) ∨ (lh.find b = lh.n ∧ b ∉ lh.entries) := by
  unfold find
  rcases h : (List.range lh.n).find? (fun i => lh.block i = b) with - | i
  · refine .inr ⟨rfl, fun mem => ?_⟩
    obtain ⟨i, hi, eq⟩ := mem_entries.mp mem
    have absent := List.find?_eq_none.mp h i (List.mem_range.mpr hi)
    simp [eq] at absent
  have found := List.find?_some h
  have inside := List.mem_of_find?_eq_some h
  exact .inl ⟨List.mem_range.mp inside, by simpa using found⟩

theorem find_eq_n : lh.find b = lh.n ↔ b ∉ lh.entries := by
  rcases lh.find_cases b with ⟨low, found⟩ | ⟨last, absent⟩
  · have mem := mem_entries.mpr ⟨_, low, found⟩
    exact ⟨fun eq => absurd eq (by omega), fun absent => absurd mem absent⟩
  exact ⟨fun _ => absent, fun _ => last⟩

/-- `lh.block[i] = b`, and one more entry when `i` was the end. -/
def put (lh : LogHeader) (b : Nat) : LogHeader where
  n := if lh.find b = lh.n then lh.n + 1 else lh.n
  block := Function.update lh.block (lh.find b) b

theorem put_of_mem (mem : b ∈ lh.entries) : lh.put b = lh := by
  rcases lh.find_cases b with ⟨inside, found⟩ | ⟨-, absent⟩
  · have n : (lh.put b).n = lh.n := if_neg (by omega)
    have block : (lh.put b).block = lh.block := by
      show Function.update lh.block (lh.find b) b = lh.block
      rw [Function.update_eq_self_iff]
      exact found.symm
    cases lh
    unfold put at *
    simp_all
  exact absurd mem absent

theorem entries_put_of_not_mem (absent : b ∉ lh.entries) :
    (lh.put b).entries = lh.entries ++ [b] := by
  rcases lh.find_cases b with ⟨inside, found⟩ | ⟨last, -⟩
  · exact absurd (mem_entries.mpr ⟨_, inside, found⟩) absent
  unfold put entries
  rw [if_pos last, List.range_succ, List.map_append, last]
  congr 1
  · refine List.map_congr_left fun i hi => ?_
    have : i ≠ lh.n := Nat.ne_of_lt (List.mem_range.mp hi)
    exact Function.update_of_ne this _ _
  simp

theorem n_put_of_not_mem (absent : b ∉ lh.entries) : (lh.put b).n = lh.n + 1 := by
  have length := congrArg List.length (entries_put_of_not_mem absent)
  simpa using length

theorem mem_entries_put {c : Nat} : c ∈ (lh.put b).entries ↔ c ∈ lh.entries ∨ c = b := by
  by_cases mem : b ∈ lh.entries
  · rw [put_of_mem mem]
    exact ⟨Or.inl, fun h => h.elim id fun eq => eq ▸ mem⟩
  rw [entries_put_of_not_mem mem, List.mem_append, List.mem_singleton]

theorem nodup_entries_put (nodup : lh.entries.Nodup) : (lh.put b).entries.Nodup := by
  by_cases mem : b ∈ lh.entries
  · rwa [put_of_mem mem]
  rw [entries_put_of_not_mem mem]
  exact List.nodup_append.mpr ⟨nodup, List.nodup_singleton b, by
    intro x hx y hy eq
    rw [List.mem_singleton] at hy
    exact mem (hy ▸ eq ▸ hx)⟩

end LogHeader

/-- `struct log`. -/
structure Log where
  start : Nat
  size : Nat
  outstanding : Int
  committing : Bool
  lh : LogHeader

namespace Log

/-- The body of the loop of `begin_op`: `none` when it has to sleep. -/
def beginOp (log : Log) : Option Log :=
  if log.committing then none
  else if log.lh.n + (log.outstanding + 1) * MAXOPBLOCKS > LOGSIZE then none
  else some { log with outstanding := log.outstanding + 1 }

/-- The first critical section of `end_op`; the flag is `do_commit`. -/
def endOp (log : Log) : Except Panic (Bool × Log) :=
  let log := { log with outstanding := log.outstanding - 1 }
  if log.committing then .error .logCommitting
  else if log.outstanding = 0 then .ok (true, { log with committing := true })
  else .ok (false, log)

/-- `log_write`; the flag says that the block is new, so that it has to be pinned. -/
def logWrite (log : Log) (b : Nat) : Except Panic (Bool × Log) :=
  if log.lh.n ≥ LOGSIZE ∨ (log.lh.n : Int) ≥ log.size - 1 then .error .tooBigTransaction
  else if log.outstanding < 1 then .error .logWriteOutside
  else .ok (decide (log.lh.find b = log.lh.n), { log with lh := log.lh.put b })

/-- The second critical section of `end_op`, after `commit` returned. -/
def endCommit (log : Log) : Log := { log with committing := false }

/-- The blocks `[start, start + size)` of the disk that belong to the log. -/
def Area (log : Log) (b : Nat) : Prop := log.start ≤ b ∧ b < log.start + log.size

variable {log : Log}

theorem beginOp_some {log' : Log} (h : log.beginOp = some log') :
    log.committing = false ∧ log.lh.n + (log.outstanding + 1) * MAXOPBLOCKS ≤ LOGSIZE ∧
      log' = { log with outstanding := log.outstanding + 1 } := by
  unfold beginOp at h
  split at h
  · cases h
  rename_i idle
  split at h
  · cases h
  rename_i room
  exact ⟨by simpa using idle, by omega, (Option.some.inj h).symm⟩

theorem endOp_ok {log' : Log} {commit : Bool} (h : log.endOp = .ok (commit, log')) :
    log.committing = false ∧ commit = decide (log.outstanding = 1) ∧
      log' = { log with outstanding := log.outstanding - 1, committing := commit } := by
  unfold endOp at h
  dsimp only at h
  split at h
  · cases h
  rename_i idle
  have idle : log.committing = false := by simpa using idle
  split at h
  · rename_i last
    injection h with h
    injection h with hc hl
    have one : log.outstanding = 1 := by omega
    exact ⟨idle, by rw [← hc]; simp [one], by rw [← hl, ← hc]⟩
  rename_i more
  injection h with h
  injection h with hc hl
  have notOne : log.outstanding ≠ 1 := by omega
  exact ⟨idle, by rw [← hc]; simp [notOne], by rw [← hl, ← hc, ← idle]⟩

theorem logWrite_ok {log' : Log} {b : Nat} {fresh : Bool} (h : log.logWrite b = .ok (fresh, log')) :
    log.lh.n < LOGSIZE ∧ (log.lh.n : Int) < log.size - 1 ∧ 1 ≤ log.outstanding ∧
      fresh = decide (b ∉ log.lh.entries) ∧ log' = { log with lh := log.lh.put b } := by
  unfold logWrite at h
  split at h
  · cases h
  rename_i room
  split at h
  · cases h
  rename_i inside
  injection h with h
  injection h with hf hl
  refine ⟨by omega, by omega, by omega, ?_, hl.symm⟩
  rw [← hf, decide_eq_decide]
  exact LogHeader.find_eq_n

theorem endOp_error {e : Panic} (h : log.endOp = .error e) :
    e = .logCommitting ∧ log.committing = true := by
  unfold endOp at h
  dsimp only at h
  split at h
  · rename_i busy
    cases h
    exact ⟨rfl, busy⟩
  split at h
  · cases h
  cases h

theorem logWrite_error {b : Nat} {e : Panic} (h : log.logWrite b = .error e) :
    e = .tooBigTransaction ∧ (LOGSIZE ≤ log.lh.n ∨ (log.size : Int) - 1 ≤ log.lh.n) ∨
      e = .logWriteOutside ∧ log.outstanding < 1 := by
  unfold logWrite at h
  split at h
  · rename_i full
    cases h
    exact .inl ⟨rfl, full⟩
  split at h
  · rename_i outside
    cases h
    exact .inr ⟨rfl, outside⟩
  cases h

end Log

end Xv6
