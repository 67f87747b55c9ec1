import Xv6.Kernel

/-!
# Commit and recovery

`write_log`, `write_head`, `install_trans`, `commit` and `recover_from_log` of
`kernel/log.c`. The machine may stop between any two block writes and restart
any number of times; `Recovers` relates the disk at the first stop to the disk
that a recovery which runs to its end leaves.
-/

namespace Xv6

open Function renaming update → upd, update_self → upd_self, update_of_ne → upd_ne

/-! ## The code -/

namespace LogHeader

/-- The header block after `hb->n = n` and the stores to `hb->block[0..i)`. -/
def storeUpto (lh : LogHeader) (b : Block) : Nat → Block
  | 0 => b.setU32 0 lh.n
  | i + 1 => (lh.storeUpto b i).setU32 (4 * (i + 1)) (lh.block i)

def store (lh : LogHeader) (b : Block) : Block := lh.storeUpto b lh.n

/-- `lh->n` of a header block. It is an `int`: the loops over a negative count
do nothing, as over zero. -/
def count (b : Block) : Nat := if b.u32 0 < 2 ^ 31 then b.u32 0 else 0

def load (lh : LogHeader) (b : Block) : LogHeader where
  n := count b
  block i := if i < count b then b.u32 (4 * (i + 1)) else lh.block i

end LogHeader

def writeLog : Kern Unit := do
  let n := (← Prog.get).log.lh.n
  Prog.forRange 0 n fun tail => do
    let log := (← Prog.get).log
    let data ← bread (log.lh.block tail)
    setBuf (log.start + tail + 1) data
    bwrite (log.start + tail + 1)

def fillHead : Kern Unit := do
  let log := (← Prog.get).log
  let hb ← bread log.start
  setBuf log.start (log.lh.store hb)

def writeHead : Kern Unit := do
  fillHead
  bwrite (← Prog.get).log.start

/-- `install_trans`; the pins that it drops are counted in `Xv6.Log.Pins`. -/
def installTrans : Kern Unit := do
  let n := (← Prog.get).log.lh.n
  Prog.forRange 0 n fun tail => do
    let log := (← Prog.get).log
    let data ← bread (log.start + tail + 1)
    setBuf (log.lh.block tail) data
    bwrite (log.lh.block tail)

def readHead : Kern Unit := do
  let hb ← bread (← Prog.get).log.start
  setLog fun log => { log with lh := log.lh.load hb }

/-- `log.lh.n = 0`. -/
def clearHead : Kern Unit :=
  setLog fun log => { log with lh := { log.lh with n := 0 } }

def commit : Kern Unit := do
  if 0 < (← Prog.get).log.lh.n then
    writeLog
    writeHead
    installTrans
    clearHead
    writeHead

def recoverFromLog : Kern Unit := do
  readHead
  installTrans
  clearHead
  writeHead

/-- The kernel when `recover_from_log` starts: nothing is cached, and `initlog`
has set the place of the log. -/
def reboot (start size : Nat) (disk : Nat → Block) : Kernel where
  disk := disk
  buf := disk
  sb := ⟨0, 0, 0, 0, 0, 0, 0, 0⟩
  log := ⟨start, size, 0, false, ⟨0, fun _ => 0⟩⟩
  itable _ := ⟨0, 0, 0, false, false, Dinode.zero⟩
  ftable _ := ⟨.none, 0, false, false, 0, 0, 0⟩
  proc _ := ⟨fun _ => none, none⟩

/-- From `disk`, the machine restarts and recovers, losing power in any number of
recoveries, until one of them completes and leaves the second disk. -/
inductive Recovers (start size : Nat) : (Nat → Block) → (Nat → Block) → Prop
  | done {disk : Nat → Block} {k : Kernel} :
      (recoverFromLog (reboot start size disk)).result = .ok ((), k) →
      Recovers start size disk k.disk
  | crash {disk disk' : Nat → Block} {c : Kernel} :
      c ∈ (recoverFromLog (reboot start size disk)).visited →
      Recovers start size c.disk disk' → Recovers start size disk disk'

/-! ## The header block -/

namespace LogHeader

theorem u32_storeUpto_count (lh : LogHeader) (b : Block) (i : Nat) :
    (lh.storeUpto b i).u32 0 = lh.n % 4294967296 := by
  induction i with
  | zero => exact Bytes.u32_setU32 (by decide)
  | succ i ih =>
    rw [storeUpto, Bytes.u32_setU32_ne (by omega)]
    exact ih

theorem u32_storeUpto_block (lh : LogHeader) (b : Block) {i j : Nat} (fits : i < 256) (lt : j < i) :
    (lh.storeUpto b i).u32 (4 * (j + 1)) = lh.block j % 4294967296 := by
  induction i with
  | zero => omega
  | succ i ih =>
    rw [storeUpto]
    by_cases last : j = i
    · subst last
      exact Bytes.u32_setU32 (by simp only [BSIZE]; omega)
    rw [Bytes.u32_setU32_ne (by omega)]
    exact ih (by omega) (by omega)

theorem count_store {lh : LogHeader} (fits : lh.n ≤ LOGSIZE) (b : Block) :
    count (lh.store b) = lh.n := by
  have bound : lh.n ≤ 30 := fits
  have small : lh.n % 4294967296 = lh.n := Nat.mod_eq_of_lt (by omega)
  unfold count store
  rw [u32_storeUpto_count, small, if_pos (by omega)]

theorem u32_store {lh : LogHeader} (fits : lh.n ≤ LOGSIZE) (b : Block) {i : Nat} (lt : i < lh.n)
    (small : lh.block i < 4294967296) : (lh.store b).u32 (4 * (i + 1)) = lh.block i := by
  have bound : lh.n ≤ 30 := fits
  unfold store
  rw [u32_storeUpto_block lh b (by omega) lt, Nat.mod_eq_of_lt small]

end LogHeader

/-! ## Disks between two transactions and inside one -/

/-- A transaction that fits the log: what `log_write` has made sure of when
`commit` starts, for home blocks outside the log. -/
structure Log.Fits (log : Log) : Prop where
  header : log.lh.n ≤ LOGSIZE
  room : log.lh.n + 1 ≤ log.size
  home : ∀ i < log.lh.n, ¬ log.Area (log.lh.block i)
  word : ∀ i < log.lh.n, log.lh.block i < 4294967296

def Log.Clean (log : Log) (target disk : Nat → Block) : Prop :=
  LogHeader.count (disk log.start) = 0 ∧ ∀ b, ¬ log.Area b → disk b = target b

/-- The transaction's header and blocks are in the log on `disk`; every home
block still has its contents in `old` or already those in `new`. -/
structure Log.Committed (log : Log) (old new disk : Nat → Block) : Prop where
  count : LogHeader.count (disk log.start) = log.lh.n
  block : ∀ i < log.lh.n, (disk log.start).u32 (4 * (i + 1)) = log.lh.block i
  logged : ∀ i < log.lh.n, disk (log.start + i + 1) = new (log.lh.block i)
  home : ∀ b, ¬ log.Area b → disk b = old b ∨ b ∈ log.lh.entries ∧ disk b = new b

/-- `old` with the transaction's blocks replaced by their contents in `new`. -/
def LogHeader.installed (lh : LogHeader) (old new : Nat → Block) (b : Nat) : Block :=
  if b ∈ lh.entries then new b else old b

namespace Log

variable {log : Log} {old new disk : Nat → Block}

theorem Fits.area_start (fits : log.Fits) : log.Area log.start := ⟨le_refl _, by have := fits.room; omega⟩

theorem Fits.area_block (fits : log.Fits) {i : Nat} (lt : i < log.lh.n) :
    log.Area (log.start + i + 1) :=
  ⟨by omega, by have := fits.room; omega⟩

theorem Committed.install (com : log.Committed old new disk) (fits : log.Fits) {i : Nat}
    (lt : i < log.lh.n) {data : Block} (same : data = new (log.lh.block i)) :
    log.Committed old new (upd disk (log.lh.block i) data) := by
  have home := fits.home i lt
  have other : ∀ a, log.Area a → upd disk (log.lh.block i) data a = disk a := by
    intro a area
    refine upd_ne (fun eq => home ?_) _ _
    rwa [← eq]
  refine ⟨?_, ?_, ?_, ?_⟩
  · rw [other _ fits.area_start]
    exact com.count
  · rw [other _ fits.area_start]
    exact com.block
  · intro j hj
    rw [other _ (fits.area_block hj)]
    exact com.logged j hj
  intro b outside
  by_cases eq : b = log.lh.block i
  · subst eq
    rw [upd_self]
    exact .inr ⟨LogHeader.mem_entries.mpr ⟨i, lt, rfl⟩, same⟩
  rw [upd_ne eq]
  exact com.home b outside

theorem Committed.finish (com : log.Committed old new disk)
    (done : ∀ i < log.lh.n, disk (log.lh.block i) = new (log.lh.block i))
    (fits : log.Fits) {hb : Block} (empty : LogHeader.count hb = 0) :
    log.Clean (log.lh.installed old new) (upd disk log.start hb) := by
  refine ⟨by rw [upd_self]; exact empty, fun b outside => ?_⟩
  have ne : b ≠ log.start := fun eq => outside (eq ▸ fits.area_start)
  rw [upd_ne ne, LogHeader.installed]
  split
  · rename_i mem
    obtain ⟨i, lt, rfl⟩ := LogHeader.mem_entries.mp mem
    exact done i lt
  rename_i absent
  rcases com.home b outside with same | ⟨mem, -⟩
  · exact same
  exact absurd mem absent

theorem Clean.header {target : Nat → Block} (clean : log.Clean target disk)
    (area : log.Area log.start) {hb : Block} (empty : LogHeader.count hb = 0) :
    log.Clean target (upd disk log.start hb) := by
  refine ⟨by rw [upd_self]; exact empty, fun b outside => ?_⟩
  have ne : b ≠ log.start := fun eq => outside (eq ▸ area)
  rw [upd_ne ne]
  exact clean.2 b outside

end Log

/-! ## What the code does to such disks -/

section Runs

variable {log : Log} {old new : Nat → Block} {k : Kernel} {P : (Nat → Block) → Prop} {err : Panic → Prop}

theorem writeHead_wp (before : P k.disk)
    (after : P (upd k.disk k.log.start (k.log.lh.store (k.buf k.log.start)))) :
    Prog.wp (fun t => P t.disk) err writeHead (fun _ t => t.log = k.log ∧
        t.disk = upd k.disk k.log.start (k.log.lh.store (k.buf k.log.start))) k := by
  refine Prog.wp_seq (fun _ t => t =
    k.setBuf k.log.start (k.log.lh.store (k.buf k.log.start))) ?_ ?_
  · rw [fillHead, Prog.wp_get_bind, wp_bread_bind]
    exact Prog.wp_act before rfl
  rintro _ _ rfl
  rw [Prog.wp_get_bind]
  refine wp_bwrite ?_ ⟨rfl, ?_⟩ <;> simp [after]

/-- `k` runs with the log's place and the transaction of `log`. -/
def Log.Same (log : Log) (k : Kernel) : Prop :=
  k.log.start = log.start ∧ k.log.lh.n = log.lh.n ∧ ∀ i < log.lh.n, k.log.lh.block i = log.lh.block i

theorem installTrans_wp (fits : log.Fits) (same : log.Same k) (com : log.Committed old new k.disk)
    (cached : ∀ i < log.lh.n, k.buf (log.start + i + 1) = new (log.lh.block i)) :
    Prog.wp (fun t => log.Committed old new t.disk) err installTrans
      (fun _ t => log.Same t ∧ log.Committed old new t.disk ∧
        ∀ i < log.lh.n, t.disk (log.lh.block i) = new (log.lh.block i)) k := by
  rw [installTrans, Prog.wp_get_bind, same.2.1]
  refine (Prog.wp_forRange (fun tail t => log.Same t ∧ log.Committed old new t.disk ∧
      (∀ i < tail, t.disk (log.lh.block i) = new (log.lh.block i)) ∧
      ∀ i < log.lh.n, t.buf (log.start + i + 1) = new (log.lh.block i))
    ⟨same, com, fun i hi => absurd hi (Nat.not_lt_zero i), cached⟩ ?_).mono ?_
  · intro tail t _ lt ⟨⟨start, count, block⟩, comT, doneT, cachedT⟩
    rw [zero_add] at lt
    have home := fits.home tail lt
    rw [Prog.wp_get_bind, wp_bread_bind, wp_setBuf_bind, block tail lt, start, cachedT tail lt]
    have installed := comT.install fits lt rfl
    -- the home block is outside the log, so its buffer is none of the log's
    have other : ∀ a, log.Area a → a ≠ log.lh.block tail := fun a area eq => home (eq ▸ area)
    refine ⟨comT, wp_bwrite ?_ ⟨⟨start, count, block⟩, ?_, fun i hi => ?_, fun i hi => ?_⟩⟩
    · simpa using installed
    · simpa using installed
    · by_cases eq : log.lh.block i = log.lh.block tail
      · simp [eq]
      have before : i < tail := by
        have : i ≠ tail := fun h => eq (by rw [h])
        omega
      simpa [upd_ne eq] using doneT i before
    simpa [upd_ne (other _ (fits.area_block hi))] using cachedT i hi
  intro _ t ⟨sameT, comT, doneT, _⟩
  rw [zero_add] at doneT
  exact ⟨sameT, comT, doneT⟩

theorem clearHead_writeHead_wp {target : Nat → Block} (before : P k.disk) (after : ∀ hb, LogHeader.count hb = 0 →
      log.Clean target (upd k.disk log.start hb))
    (start : k.log.start = log.start) (weaken : ∀ d, log.Clean target d → P d) :
    Prog.wp (fun t => P t.disk) err (clearHead >>= fun _ => writeHead) (fun _ t => log.Clean target t.disk) k := by
  rw [clearHead, wp_setLog_bind]
  refine ⟨before, ?_⟩
  have clean := after (LogHeader.store { k.log.lh with n := 0 } (k.buf k.log.start))
    (LogHeader.count_store (Nat.zero_le _) _)
  rw [← start] at clean
  refine (writeHead_wp (by exact before) (by exact weaken _ clean)).mono fun _ t ⟨_, disk⟩ => ?_
  rw [disk]
  exact clean

theorem writeLog_wp (fits : k.log.Fits) (clean : k.log.Clean old k.disk) :
    Prog.wp (fun t => k.log.Clean old t.disk) err writeLog (fun _ t => t.log = k.log ∧ k.log.Clean old t.disk ∧
        (∀ b, ¬ k.log.Area b → t.buf b = k.buf b) ∧
        ∀ i < k.log.lh.n, t.disk (k.log.start + i + 1) = k.buf (k.log.lh.block i) ∧
          t.buf (k.log.start + i + 1) = k.buf (k.log.lh.block i)) k := by
  rw [writeLog, Prog.wp_get_bind]
  refine (Prog.wp_forRange (fun tail t => t.log = k.log ∧ k.log.Clean old t.disk ∧
      (∀ b, ¬ k.log.Area b → t.buf b = k.buf b) ∧
      ∀ i < tail, t.disk (k.log.start + i + 1) = k.buf (k.log.lh.block i) ∧
        t.buf (k.log.start + i + 1) = k.buf (k.log.lh.block i))
    ⟨rfl, clean, fun _ _ => rfl, fun i hi => absurd hi (Nat.not_lt_zero i)⟩ ?_).mono ?_
  · intro tail t _ lt ⟨logT, cleanT, bufT, doneT⟩
    rw [zero_add] at lt
    rw [Prog.wp_get_bind, wp_bread_bind, wp_setBuf_bind, logT, bufT _ (fits.home tail lt)]
    have area := fits.area_block lt
    have clean' : k.log.Clean old (upd t.disk (k.log.start + tail + 1)
        (k.buf (k.log.lh.block tail))) := by
      refine ⟨?_, fun b outside => ?_⟩
      · rw [upd_ne (by omega)]
        exact cleanT.1
      have ne : b ≠ k.log.start + tail + 1 := fun eq => outside (eq ▸ area)
      rw [upd_ne ne]
      exact cleanT.2 b outside
    refine ⟨cleanT, wp_bwrite ?_ ⟨logT, ?_, fun b outside => ?_, fun i hi => ?_⟩⟩
    · simpa using clean'
    · simpa using clean'
    · have ne : b ≠ k.log.start + tail + 1 := fun eq => outside (eq ▸ area)
      simpa [upd_ne ne] using bufT b outside
    by_cases eq : i = tail
    · subst eq
      simp
    have ne : k.log.start + i + 1 ≠ k.log.start + tail + 1 := by omega
    simpa [upd_ne ne] using doneT i (by omega)
  intro _ t h
  rwa [zero_add] at h

theorem recoverFromLog_clean {target disk : Nat → Block} {start : Nat} (size : Nat)
    (place : log.start = start) (area : log.Area log.start) (clean : log.Clean target disk) :
    Prog.wp (fun t => log.Clean target t.disk) (fun _ => False) recoverFromLog
      (fun _ t => log.Clean target t.disk) (reboot start size disk) := by
  subst place
  rw [recoverFromLog]
  refine Prog.wp_seq (fun _ t => t.disk = disk ∧ t.log.start = log.start ∧ t.log.lh.n = 0) ?_ ?_
  · rw [readHead, Prog.wp_get_bind, wp_bread_bind]
    exact Prog.wp_act clean ⟨rfl, rfl, clean.1⟩
  rintro _ t ⟨rfl, start, empty⟩
  refine Prog.wp_seq (fun _ u => u = t) ?_ ?_
  · rw [installTrans, Prog.wp_get_bind, empty]
    exact Prog.wp_pure rfl
  rintro _ _ rfl
  exact clearHead_writeHead_wp clean (fun _ => clean.header area) start fun _ => id

theorem recoverFromLog_committed {disk : Nat → Block} {start : Nat} (size : Nat)
    (place : log.start = start) (fits : log.Fits) (com : log.Committed old new disk) :
    Prog.wp (fun t => log.Committed old new t.disk ∨ log.Clean (log.lh.installed old new) t.disk)
      (fun _ => False) recoverFromLog (fun _ t => log.Clean (log.lh.installed old new) t.disk)
      (reboot start size disk) := by
  subst place
  rw [recoverFromLog]
  refine Prog.wp_seq (fun _ t => t.disk = disk ∧ t.buf = disk ∧ log.Same t) ?_ ?_
  · rw [readHead, Prog.wp_get_bind, wp_bread_bind]
    refine Prog.wp_act (.inl com) ⟨rfl, rfl, rfl, com.count, fun i lt => ?_⟩
    have inside : i < LogHeader.count (disk log.start) := by rw [com.count]; exact lt
    exact (if_pos inside).trans (com.block i lt)
  rintro _ t ⟨rfl, cached, same⟩
  have run : Prog.wp _ (fun _ => False) installTrans _ t :=
    installTrans_wp fits same com fun i lt => by
    rw [cached]
    exact com.logged i lt
  refine (run.weaken (fun _ => Or.inl) fun _ => id).bind fun _ u ⟨sameU, comU, doneU⟩ => ?_
  exact clearHead_writeHead_wp (.inl comU) (fun _ => comU.finish doneU fits) sameU.1
    fun _ => Or.inr

theorem writeLog_writeHead_assoc (rest : Kern Unit) :
    (writeLog >>= fun _ => writeHead >>= fun _ => rest) =
      (writeLog >>= fun _ => fillHead) >>= fun _ =>
        (Prog.get >>= fun k => bwrite k.log.start) >>= fun _ => rest := by
  rw [Prog.bind_assoc]
  congr 1

/-- From a written log, writing the header commits the transaction. -/
theorem Log.Clean.commit {disk : Nat → Block} {hb : Block} (clean : log.Clean old disk)
    (fits : log.Fits) (logged : ∀ i < log.lh.n, disk (log.start + i + 1) = new (log.lh.block i)) :
    log.Committed old new (upd disk log.start (log.lh.store hb)) := by
  refine ⟨?_, fun i lt => ?_, fun i lt => ?_, fun b outside => .inl ?_⟩
  · rw [upd_self]
    exact LogHeader.count_store fits.header hb
  · rw [upd_self]
    exact LogHeader.u32_store fits.header hb lt (fits.word i lt)
  · rw [upd_ne (by omega)]
    exact logged i lt
  have ne : b ≠ log.start := fun eq => outside (eq ▸ fits.area_start)
  rw [upd_ne ne]
  exact clean.2 b outside

theorem commit_phases (fits : k.log.Fits) (nonempty : 0 < k.log.lh.n)
    (clean : k.log.Clean old k.disk) :
    ∃ early late, (commit k).visited = early ++ late ∧ (∀ t ∈ early, k.log.Clean old t.disk) ∧
      ∀ t ∈ late, k.log.Committed old k.buf t.disk ∨
        k.log.Clean (k.log.lh.installed old k.buf) t.disk := by
  have unfolded : commit k = (if 0 < k.log.lh.n then
      (writeLog >>= fun _ => writeHead >>= fun _ => installTrans >>= fun _ =>
        clearHead >>= fun _ => writeHead) else pure () : Kern Unit) k := rfl
  rw [unfolded, if_pos nonempty, writeLog_writeHead_assoc]
  have first : Prog.wp (fun t => k.log.Clean old t.disk) (fun _ => False)
      (writeLog >>= fun _ => fillHead)
      (fun _ t => t.log = k.log ∧ k.log.Clean old t.disk ∧ (∃ hb, t.buf k.log.start = k.log.lh.store hb) ∧
        ∀ i < k.log.lh.n, t.disk (k.log.start + i + 1) = k.buf (k.log.lh.block i) ∧
          t.buf (k.log.start + i + 1) = k.buf (k.log.lh.block i)) k := by
    refine (writeLog_wp fits clean).bind fun _ t ⟨logT, cleanT, _, doneT⟩ => ?_
    rw [fillHead, Prog.wp_get_bind, wp_bread_bind, logT]
    refine Prog.wp_act cleanT ⟨logT, cleanT, ⟨_, upd_self ..⟩, fun i lt => ?_⟩
    have ne : k.log.start + i + 1 ≠ k.log.start := by omega
    simpa [upd_ne ne] using doneT i lt
  obtain ⟨_, t, ok, logT, cleanT, ⟨hb, head⟩, doneT⟩ := first.exists_ok
  refine ⟨_, _, Prog.visited_bind ok, first.1, ?_⟩
  have com : k.log.Committed old k.buf (upd t.disk k.log.start (k.log.lh.store hb)) :=
    cleanT.commit fits fun i lt => (doneT i lt).1
  have rest : Prog.wp (fun u => k.log.Committed old k.buf u.disk ∨
      k.log.Clean (k.log.lh.installed old k.buf) u.disk)
      (fun _ => False)
      ((Prog.get >>= fun k => bwrite k.log.start) >>= fun _ => installTrans >>= fun _ =>
        clearHead >>= fun _ => writeHead) (fun _ _ => True) t := by
    refine Prog.wp_seq (fun _ u => u = t.setDisk k.log.start (k.log.lh.store hb)) ?_ ?_
    · rw [Prog.wp_get_bind, logT]
      refine wp_bwrite ?_ ?_ <;> rw [head]
      exact .inl com
    rintro _ _ rfl
    have run : Prog.wp _ (fun _ => False) installTrans _ (t.setDisk k.log.start (k.log.lh.store hb)) :=
      installTrans_wp fits ⟨by simp [logT], by simp [logT], by simp [logT]⟩ com
        fun i lt => (doneT i lt).2
    refine (run.weaken (fun _ => Or.inl) fun _ => id).bind fun _ u ⟨sameU, comU, doneU⟩ => ?_
    exact (clearHead_writeHead_wp (.inl comU) (fun _ => comU.finish doneU fits) sameU.1
      fun _ => Or.inr).mono fun _ _ _ => trivial
  exact rest.1

end Runs

/-! ## Crash atomicity -/

section Crash

variable {log : Log} {target old new disk disk' : Nat → Block}

theorem Recovers.clean (rec : Recovers log.start log.size disk disk')
    (area : log.Area log.start) (clean : log.Clean target disk) : log.Clean target disk' := by
  induction rec with
  | done ok => exact (recoverFromLog_clean log.size rfl area clean).post_of_ok ok
  | crash mem _ ih => exact ih ((recoverFromLog_clean log.size rfl area clean).visited mem)

theorem Recovers.committed (rec : Recovers log.start log.size disk disk') (fits : log.Fits)
    (com : log.Committed old new disk) : log.Clean (log.lh.installed old new) disk' := by
  induction rec with
  | done ok => exact (recoverFromLog_committed log.size rfl fits com).post_of_ok ok
  | crash mem rest ih =>
    rcases (recoverFromLog_committed log.size rfl fits com).visited mem
      with com' | clean'
    · exact ih com'
    exact rest.clean fits.area_start clean'

theorem recoverFromLog_completes {c : Kernel} (target old new : Nat → Block) (fits : log.Fits)
    (state : log.Clean target c.disk ∨ log.Committed old new c.disk) :
    ∃ disk', Recovers log.start log.size c.disk disk' := by
  rcases state with clean | com
  · obtain ⟨_, k, ok, _⟩ := (recoverFromLog_clean log.size rfl fits.area_start clean).exists_ok
    exact ⟨k.disk, .done ok⟩
  obtain ⟨_, k, ok, _⟩ := (recoverFromLog_committed log.size rfl fits com).exists_ok
  exact ⟨k.disk, .done ok⟩

theorem all_early_or_late {α : Type} {early late pre post : List α} {c : α}
    (split : early ++ late = pre ++ c :: post) : (∀ x ∈ pre ++ [c], x ∈ early) ∨ c ∈ late := by
  rw [List.append_cons, List.append_eq_append_iff] at split
  rcases split with ⟨rest, eq, lateEq⟩ | ⟨rest, eq, -⟩
  · rcases List.eq_nil_or_concat rest with rfl | ⟨init, last, rfl⟩
    · rw [List.append_nil] at eq
      exact .inl fun x mem => eq ▸ mem
    rw [List.concat_eq_append, ← List.append_assoc] at eq
    have same := (List.append_inj' eq rfl).2
    refine .inr ?_
    rw [lateEq, List.singleton_inj.mp same]
    simp
  exact .inl fun x mem => eq ▸ List.mem_append_left rest mem

theorem commit_recovers {k c : Kernel} {pre post : List Kernel} (fits : k.log.Fits)
    (empty : LogHeader.count (k.disk k.log.start) = 0)
    (crash : k :: (commit k).visited = pre ++ c :: post) :
    ((∀ c' ∈ pre ++ [c], LogHeader.count (c'.disk k.log.start) = 0) ∧ k.log.Clean k.disk c.disk) ∨
      k.log.Committed k.disk k.buf c.disk ∨
      k.log.Clean (k.log.lh.installed k.disk k.buf) c.disk := by
  have clean : k.log.Clean k.disk k.disk := ⟨empty, fun _ _ => rfl⟩
  obtain ⟨early, late, visited, cleanEarly, lateStates⟩ :
      ∃ early late, (commit k).visited = early ++ late ∧ (∀ t ∈ early, k.log.Clean k.disk t.disk) ∧
        ∀ t ∈ late, k.log.Committed k.disk k.buf t.disk ∨
          k.log.Clean (k.log.lh.installed k.disk k.buf) t.disk := by
    by_cases nonempty : 0 < k.log.lh.n
    · exact commit_phases fits nonempty clean
    have unfolded : commit k = (if 0 < k.log.lh.n then
        (writeLog >>= fun _ => writeHead >>= fun _ => installTrans >>= fun _ =>
          clearHead >>= fun _ => writeHead) else pure () : Kern Unit) k := rfl
    rw [unfolded, if_neg nonempty]
    exact ⟨[], [], rfl, by simp, by simp⟩
  rw [visited, ← List.cons_append] at crash
  have cleanAll : ∀ t ∈ k :: early, k.log.Clean k.disk t.disk :=
    List.forall_mem_cons.mpr ⟨clean, cleanEarly⟩
  rcases all_early_or_late crash with inEarly | inLate
  · exact .inl ⟨fun c' mem => (cleanAll c' (inEarly c' mem)).1,
      cleanAll c (inEarly c (by simp))⟩
  exact .inr (lateStates c inLate)

/-- **Crash atomicity.** Let `commit` run on a clean disk, stop at `c` (before
its first block write, `pre = []`, or after some of them), and let the machine
recover. The home blocks then hold all of the old or all of the new contents;
all of the new ones if some state up to `c` had the transaction's header on
disk. Every other block outside the log is unchanged and the log is empty. -/
theorem commit_crash_atomic {k c : Kernel} {pre post : List Kernel} (fits : k.log.Fits)
    (empty : LogHeader.count (k.disk k.log.start) = 0)
    (crash : k :: (commit k).visited = pre ++ c :: post) :
    (∃ disk', Recovers k.log.start k.log.size c.disk disk') ∧
    ∀ disk', Recovers k.log.start k.log.size c.disk disk' →
      ((∀ i < k.log.lh.n, disk' (k.log.lh.block i) = k.disk (k.log.lh.block i)) ∨
        ∀ i < k.log.lh.n, disk' (k.log.lh.block i) = k.buf (k.log.lh.block i)) ∧
      ((∃ c' ∈ pre ++ [c], LogHeader.count (c'.disk k.log.start) ≠ 0) →
        ∀ i < k.log.lh.n, disk' (k.log.lh.block i) = k.buf (k.log.lh.block i)) ∧
      (∀ b, ¬ k.log.Area b → b ∉ k.log.lh.entries → disk' b = k.disk b) ∧
      LogHeader.count (disk' k.log.start) = 0 := by
  rcases commit_recovers fits empty crash with ⟨before, clean⟩ | com
  · refine ⟨recoverFromLog_completes k.disk k.disk k.buf fits (Or.inl clean), fun disk' rec => ?_⟩
    have clean' := rec.clean fits.area_start clean
    refine ⟨Or.inl fun i lt => clean'.2 _ (fits.home i lt), ?_,
      fun b outside _ => clean'.2 b outside,
      clean'.1⟩
    rintro ⟨c', mem, header⟩
    exact absurd (before c' mem) header
  refine ⟨recoverFromLog_completes _ _ _ fits com.symm, fun disk' rec => ?_⟩
  have clean' : k.log.Clean (k.log.lh.installed k.disk k.buf) disk' :=
    com.elim (rec.committed fits) (rec.clean fits.area_start)
  have new : ∀ i < k.log.lh.n, disk' (k.log.lh.block i) = k.buf (k.log.lh.block i) := by
    intro i lt
    rw [clean'.2 _ (fits.home i lt), LogHeader.installed,
      if_pos (LogHeader.mem_entries.mpr ⟨i, lt, rfl⟩)]
  refine ⟨Or.inr new, fun _ => new, fun b outside absent => ?_, clean'.1⟩
  rw [clean'.2 b outside, LogHeader.installed, if_neg absent]

/-- A transaction with the new blocks 40 and 41. -/
def twoBlocks : Kernel :=
  { reboot 2 LOGSIZE (fun _ => Bytes.zero) with
    buf := upd (upd (fun _ => Bytes.zero) 40 (Bytes.zero.setU32 0 7)) 41 (Bytes.zero.setU32 0 8)
    log := ⟨2, LOGSIZE, 0, true, ⟨2, fun i => if i = 0 then 40 else 41⟩⟩ }

theorem twoBlocks_fits : twoBlocks.log.Fits where
  header := by decide
  room := by decide
  home i _ := by
    rintro ⟨-, high⟩
    have above : ¬ (if i = 0 then 40 else 41) < 2 + LOGSIZE := by split <;> decide
    exact above high
  word i _ := by
    show (if i = 0 then 40 else 41) < 4294967296
    split <;> decide

/-- A crash when the header and the first of the two home blocks are on the disk: recovery installs
both. -/
theorem twoBlocks_crash_installing : ∃ c ∈ (commit twoBlocks).visited,
    LogHeader.count (c.disk 2) = 2 ∧ (c.disk 40).u32 0 = 7 ∧ (c.disk 41).u32 0 = 0 ∧
    ∃ disk', Recovers 2 LOGSIZE c.disk disk' ∧ (disk' 40).u32 0 = 7 ∧ (disk' 41).u32 0 = 8 ∧
      disk' 50 = Bytes.zero ∧ LogHeader.count (disk' 2) = 0 := by
  have visits : ((commit twoBlocks).visited.any fun c => LogHeader.count (c.disk 2) = 2 ∧
      (c.disk 40).u32 0 = 7 ∧ (c.disk 41).u32 0 = 0) = true := by decide +kernel
  obtain ⟨c, mem, check⟩ := List.any_eq_true.mp visits
  obtain ⟨header, first, second⟩ := of_decide_eq_true check
  obtain ⟨pre, post, crash⟩ := List.append_of_mem (List.mem_cons_of_mem twoBlocks mem)
  have empty : LogHeader.count (twoBlocks.disk twoBlocks.log.start) = 0 := by decide
  obtain ⟨⟨disk', recovers⟩, outcome⟩ := commit_crash_atomic twoBlocks_fits empty crash
  obtain ⟨-, allNew, other, clean⟩ := outcome disk' recovers
  have new := allNew ⟨c, by simp, by rw [show twoBlocks.log.start = 2 from rfl, header]; decide⟩
  refine ⟨c, mem, header, first, second, disk', recovers, ?_, ?_, ?_, clean⟩
  · rw [show disk' 40 = _ from new 0 (by decide)]
    decide
  · rw [show disk' 41 = _ from new 1 (by decide)]
    decide
  refine other 50 ?_ (by decide)
  rintro ⟨-, high⟩
  exact absurd high (by decide)

end Crash

end Xv6
