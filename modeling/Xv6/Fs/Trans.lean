import Xv6.Fs.Inodes

/-!
# Transactions

`begin_op` and `end_op` as the code of the file system sees them. `commit` brings the logged
blocks to their places on the disk; the buffers that it changes are those of the log.
-/

namespace Xv6

open Function renaming update_self → upd_self, update_of_ne → upd_ne
open Prog (wp wp_seq wp_pure wp_get_bind)

/-- Since `k`, only the log, the disk and buffers of the log may have changed. -/
structure Quiet (k t : Kernel) : Prop where
  sb : t.sb = k.sb
  itable : t.itable = k.itable
  ftable : t.ftable = k.ftable
  proc : t.proc = k.proc
  buf : ∀ b, ¬k.log.Area b → t.buf b = k.buf b

section Commit

variable {err : Panic → Prop} {k t : Kernel}

theorem Quiet.refl (k : Kernel) : Quiet k k := ⟨rfl, rfl, rfl, rfl, fun _ _ => rfl⟩

theorem Quiet.setDisk (quiet : Quiet k t) (b : Nat) (data : Block) : Quiet k (t.setDisk b data) :=
  ⟨quiet.sb, quiet.itable, quiet.ftable, quiet.proc, quiet.buf⟩

theorem Quiet.setLog (quiet : Quiet k t) (log : Log) : Quiet k (t.setLog log) :=
  ⟨quiet.sb, quiet.itable, quiet.ftable, quiet.proc, quiet.buf⟩

theorem Quiet.setBuf (quiet : Quiet k t) (b : Nat) (data : Block)
    (same : ¬k.log.Area b → data = k.buf b) :
    Quiet k (t.setBuf b data) := by
  refine ⟨quiet.sb, quiet.itable, quiet.ftable, quiet.proc, ?_⟩
  intro c outside
  show Function.update t.buf b data c = k.buf c
  by_cases eq : c = b
  · rw [eq, upd_self]
    rw [eq] at outside
    exact same outside
  rw [upd_ne eq]
  exact quiet.buf c outside

/-- In the middle of `commit`: the log has the first `copied` blocks, and the first
`installed` are at their places. -/
structure Copying (k : Kernel) (copied installed : Nat) (t : Kernel) : Prop extends Quiet k t where
  log : t.log = k.log
  copy : ∀ i < copied, t.buf (k.log.start + i + 1) = k.buf (k.log.lh.block i)
  other : ∀ b, ¬k.log.Area b → b ∉ k.log.lh.entries → t.disk b = k.disk b
  home : ∀ i < installed, t.disk (k.log.lh.block i) = k.buf (k.log.lh.block i)

theorem writeLog_copies (fits : k.log.Fits) :
    wp (Quiet k) err writeLog (fun _ t => Copying k k.log.lh.n 0 t) k := by
  rw [writeLog, wp_get_bind]
  have start : Copying k 0 0 k := ⟨.refl k, rfl, (by simp), fun _ _ _ => rfl, (by simp)⟩
  refine (Prog.wp_forRange (fun tail t => Copying k tail 0 t) start ?_).mono ?_
  · intro tail t _ lt copying
    rw [zero_add] at lt
    have area := fits.area_block lt
    rw [wp_get_bind, wp_bread_bind, wp_setBuf_bind, copying.log, copying.buf _ (fits.home tail lt)]
    have quiet := copying.toQuiet.setBuf (k.log.start + tail + 1) (k.buf (k.log.lh.block tail))
      fun outside => absurd area outside
    refine ⟨quiet, wp_bwrite (quiet.setDisk _ _) ⟨quiet.setDisk _ _, copying.log, ?_, ?_,
      (by simp)⟩⟩
    · intro i small
      show Function.update t.buf (k.log.start + tail + 1) (k.buf (k.log.lh.block tail))
        (k.log.start + i + 1) = _
      by_cases eq : i = tail
      · rw [eq, upd_self]
      rw [upd_ne (by omega)]
      exact copying.copy i (by omega)
    intro b outside absent
    have ne : b ≠ k.log.start + tail + 1 := by
      intro eq
      rw [eq] at outside
      exact outside area
    exact (upd_ne ne ..).trans (copying.other b outside absent)
  intro _ t copying
  rw [zero_add] at copying
  exact copying

theorem installTrans_copies (fits : k.log.Fits) (copying : Copying k k.log.lh.n 0 t) :
    wp (Quiet k) err installTrans (fun _ u => Copying k k.log.lh.n k.log.lh.n u) t := by
  rw [installTrans, wp_get_bind, copying.log]
  refine (Prog.wp_forRange (fun tail u => Copying k k.log.lh.n tail u) copying ?_).mono ?_
  · intro tail u _ lt copying
    rw [zero_add] at lt
    have home := fits.home tail lt
    rw [wp_get_bind, wp_bread_bind, wp_setBuf_bind, copying.log, copying.copy tail lt]
    have quiet := copying.toQuiet.setBuf (k.log.lh.block tail)
      (k.buf (k.log.lh.block tail)) fun _ => rfl
    have self : (u.setBuf (k.log.lh.block tail)
        (k.buf (k.log.lh.block tail))).buf (k.log.lh.block tail) =
        k.buf (k.log.lh.block tail) := upd_self ..
    refine ⟨quiet, wp_bwrite (quiet.setDisk _ _) ⟨quiet.setDisk _ _, copying.log, ?_, ?_, ?_⟩⟩
    · intro i small
      have ne : k.log.start + i + 1 ≠ k.log.lh.block tail := by
        intro eq
        rw [← eq] at home
        exact home (fits.area_block small)
      exact (upd_ne ne ..).trans (copying.copy i small)
    · intro b outside absent
      have ne : b ≠ k.log.lh.block tail := by
        intro eq
        exact absent (LogHeader.mem_entries.mpr ⟨tail, lt, eq.symm⟩)
      exact (upd_ne ne ..).trans (copying.other b outside absent)
    intro i small
    rw [self]
    show Function.update u.disk (k.log.lh.block tail) (k.buf (k.log.lh.block tail))
      (k.log.lh.block i) = _
    by_cases eq : k.log.lh.block i = k.log.lh.block tail
    · rw [eq, upd_self]
    rw [upd_ne eq]
    refine copying.home i ?_
    have : i ≠ tail := fun same => eq (by rw [same])
    omega
  intro _ u copying
  rw [zero_add] at copying
  exact copying

theorem writeHead_quiet (quiet : Quiet k t) (area : k.log.Area t.log.start) :
    wp (Quiet k) err writeHead (fun _ u => Quiet k u ∧ u.log = t.log ∧
      (∀ b, b ≠ t.log.start → u.disk b = t.disk b ∧ u.buf b = t.buf b)) t := by
  have quiet' := quiet.setBuf t.log.start (t.log.lh.store (t.buf t.log.start))
    fun outside => absurd area outside
  refine wp_seq (fun _ u => u = t.setBuf t.log.start (t.log.lh.store (t.buf t.log.start))) ?_ ?_
  · rw [fillHead, wp_get_bind, wp_bread_bind]
    exact Prog.wp_act quiet' rfl
  rintro _ _ rfl
  rw [wp_get_bind]
  refine wp_bwrite (quiet'.setDisk _ _) ⟨quiet'.setDisk _ _, rfl, ?_⟩
  intro b ne
  exact ⟨upd_ne ne .., upd_ne ne ..⟩

theorem commit_quiet (fits : k.log.Fits) :
    wp (Quiet k) err commit (fun _ t => Quiet k t ∧ t.log = { k.log with lh := { k.log.lh with n := 0 } } ∧
      (∀ b, ¬k.log.Area b → b ∉ k.log.lh.entries → t.disk b = k.disk b) ∧
      ∀ b ∈ k.log.lh.entries, t.disk b = k.buf b) k := by
  rw [commit, wp_get_bind]
  by_cases some : 0 < k.log.lh.n
  swap
  · have none : k.log.lh.n = 0 := by omega
    rw [if_neg some]
    refine wp_pure ⟨.refl k, ?_, fun _ _ _ => rfl, ?_⟩
    · rw [← none]
    intro b mem
    obtain ⟨i, lt, -⟩ := LogHeader.mem_entries.mp mem
    omega
  rw [if_pos some]
  have area := fits.area_start
  refine wp_seq _ (writeLog_copies fits) fun _ t₁ copying₁ => ?_
  have area₁ : k.log.Area t₁.log.start := by
    rw [copying₁.log]
    exact area
  refine wp_seq _ (writeHead_quiet copying₁.toQuiet area₁) ?_
  rintro _ t₂ ⟨quiet₂, log₂, same₂⟩
  rw [copying₁.log] at log₂ same₂
  have copying₂ : Copying k k.log.lh.n 0 t₂ := by
    refine ⟨quiet₂, log₂, ?_, ?_, nofun⟩
    · intro i lt
      rw [(same₂ _ (by omega)).2]
      exact copying₁.copy i lt
    intro b outside absent
    have ne : b ≠ k.log.start := by
      intro eq
      rw [eq] at outside
      exact outside area
    rw [(same₂ b ne).1]
    exact copying₁.other b outside absent
  refine wp_seq _ (installTrans_copies fits copying₂) fun _ t₃ copying₃ => ?_
  rw [clearHead, wp_setLog_bind]
  have quiet₃ := copying₃.toQuiet.setLog { t₃.log with lh := { t₃.log.lh with n := 0 } }
  refine ⟨quiet₃, ?_⟩
  have area₃ : k.log.Area (t₃.setLog { t₃.log with lh := { t₃.log.lh with n := 0 } }).log.start := by
    show k.log.Area t₃.log.start
    rw [copying₃.log]
    exact area
  refine (writeHead_quiet quiet₃ area₃).mono ?_
  rintro _ t₄ ⟨quiet₄, log₄, same₄⟩
  have log : t₄.log = { k.log with lh := { k.log.lh with n := 0 } } := by
    rw [log₄]
    show { t₃.log with lh := { t₃.log.lh with n := 0 } } = _
    rw [copying₃.log]
  have disk : ∀ b, ¬k.log.Area b → t₄.disk b = t₃.disk b := by
    intro b outside
    refine (same₄ b ?_).1
    intro eq
    rw [eq] at outside
    exact outside area₃
  refine ⟨quiet₄, log, ?_, ?_⟩
  · intro b outside absent
    rw [disk b outside]
    exact copying₃.other b outside absent
  intro b mem
  obtain ⟨i, lt, rfl⟩ := LogHeader.mem_entries.mp mem
  rw [disk _ (fits.home i lt)]
  exact copying₃.home i lt

end Commit

section Ops

variable {D : Nat → Block} {err : Panic → Prop} {E : Fs} {k t : Kernel}

theorem Ok.fits (ok : Clean D E k) : k.log.Fits := by
  have areas := ok.wf.inodes
  refine ⟨ok.few, ok.room, ?_, ?_⟩
  · rintro i lt ⟨low, high⟩
    have home := ok.home _ (LogHeader.mem_entries.mpr ⟨i, lt, rfl⟩)
    rw [ok.start, ok.logSize] at high
    omega
  intro i lt
  have home := ok.home _ (LogHeader.mem_entries.mpr ⟨i, lt, rfl⟩)
  have size := ok.wf.size
  omega

theorem Ok.not_area (ok : Clean D E k) {b : Nat} (low : k.sb.inodestart ≤ b) : ¬k.log.Area b := by
  rintro ⟨-, high⟩
  have areas := ok.wf.inodes
  rw [ok.start, ok.logSize] at high
  omega

theorem Ok.setLog (ok : Clean D E k) {log : Log} (start : log.start = k.log.start)
    (size : log.size = k.log.size) (lh : log.lh = k.log.lh) : Clean D E (k.setLog log) := by
  refine ⟨ok.disk, ok.wf, start.trans ok.start, size.trans ok.logSize, ?_, ?_, ?_, ?_, ok.used,
    ok.data, ok.inode,
    ok.good, ok.table, ok.sync, ok.alloc, ok.unique, ok.held⟩
  · show log.lh.n ≤ LOGSIZE
    rw [lh]
    exact ok.few
  · show log.lh.n + 1 ≤ log.size
    rw [lh, size]
    exact ok.room
  · show ∀ b ∈ log.lh.entries, _
    rw [lh]
    exact ok.home
  show ∀ b, _ → _ → b ∉ log.lh.entries → _
  rw [lh]
  exact ok.tidy

theorem Quiet.fs (quiet : Quiet k t) (ok : Clean D E k) : t.fs = k.fs := by
  show Fs.ofBuf t.sb t.buf = Fs.ofBuf k.sb k.buf
  rw [quiet.sb]
  exact Fs.ofBuf_congr ok.wf fun b low _ => quiet.buf b (ok.not_area low)

theorem Quiet.synced (quiet : Quiet k t) (ok : Clean D E k) : Synced t := by
  intro ip
  rw [quiet.itable, quiet.fs ok]
  exact ok.synced ip

theorem Ok.committed (ok : Clean D E k) (quiet : Quiet k t)
    (log : t.log = { k.log with lh := { k.log.lh with n := 0 } })
    (other : ∀ b, ¬k.log.Area b → b ∉ k.log.lh.entries → t.disk b = k.disk b)
    (home : ∀ b ∈ k.log.lh.entries, t.disk b = k.buf b) : Clean t.disk E t := by
  have fs := (quiet.fs ok).trans ok.fs_eq
  refine ⟨rfl, ?_, ?_, ?_, ?_, ?_, ?_, ?_, congrArg Fs.used fs, congrArg Fs.data fs,
    fun i _ => congrFun (congrArg Fs.inode fs) i, ?_, ?_, ?_, ?_, ?_, nofun⟩
  · rw [quiet.sb]
    exact ok.wf
  · rw [log, quiet.sb]
    exact ok.start
  · rw [log, quiet.sb]
    exact ok.logSize
  · rw [log]
    exact zero_le
  · rw [log]
    have room := ok.room
    show 0 + 1 ≤ k.log.size
    omega
  · intro b mem
    rw [log] at mem
    obtain ⟨i, lt, -⟩ := LogHeader.mem_entries.mp mem
    exact absurd lt (Nat.not_lt_zero i)
  · intro b low high _
    rw [quiet.sb] at low high
    have outside := ok.not_area low
    rw [quiet.buf b outside]
    by_cases mem : b ∈ k.log.lh.entries
    · exact .inl (home b mem).symm
    rw [other b outside mem, ok.disk]
    exact ok.tidy b low high mem
  · rw [quiet.sb]
    exact ok.good
  · rw [quiet.itable, quiet.sb]
    exact ok.table
  · rw [quiet.itable]
    exact ok.sync
  · rw [quiet.itable]
    exact ok.alloc
  rw [quiet.itable]
  exact ok.unique

theorem beginOp_wp (ready : Stops err ∨ k.log.committing = false ∧
      k.log.lh.n + (k.log.outstanding + 1) * MAXOPBLOCKS ≤ LOGSIZE) (ok : Clean D E k) :
    wp Synced err beginOp (fun _ t => Clean D E t ∧ Quiet k t ∧
      t.log = { k.log with outstanding := k.log.outstanding + 1 }) k := by
  rw [beginOp, wp_get_bind]
  cases begins : k.log.beginOp with
  | none =>
    refine Prog.wp_fail ?_
    rcases ready with stops | ⟨idle, room⟩
    · exact stops _ nofun nofun
    rw [Log.beginOp, if_neg (by rw [idle]; nofun), if_neg (by omega)] at begins
    cases begins
  | some log =>
    obtain ⟨-, -, rfl⟩ := Log.beginOp_some begins
    have clean : Clean D E (k.setLog { k.log with outstanding := k.log.outstanding + 1 }) :=
      ok.setLog rfl rfl rfl
    exact Prog.wp_act clean.synced ⟨clean, (Quiet.refl k).setLog _, rfl⟩

theorem endOp_wp (ready : Stops err ∨ k.log.committing = false) (ok : Clean D E k) :
    wp Synced err endOp (fun _ t => ∃ D', Clean D' E t ∧ Quiet k t ∧
      t.log.outstanding = k.log.outstanding - 1 ∧ t.log.committing = false ∧
        t.log.size = k.log.size ∧
      (k.log.outstanding = 1 → t.log.lh.n = 0)) k := by
  rw [endOp, wp_get_bind]
  cases ends : k.log.endOp with
  | error e =>
    obtain ⟨rfl, busy⟩ := Log.endOp_error ends
    refine Prog.wp_fail ?_
    rcases ready with stops | idle
    · exact stops _ nofun nofun
    rw [idle] at busy
    cases busy
  | ok r =>
    obtain ⟨doCommit, log⟩ := r
    obtain ⟨-, last, rfl⟩ := Log.endOp_ok ends
    generalize eq : k.setLog { k.log with outstanding := k.log.outstanding - 1, committing := doCommit } = u
    have clean : Clean D E u := by
      rw [← eq]
      exact ok.setLog rfl rfl rfl
    have quiet : Quiet k u := by
      rw [← eq]
      exact (Quiet.refl k).setLog _
    have place : u.log.Area = k.log.Area := by
      rw [← eq]
      rfl
    dsimp only
    rw [wp_setLog_bind, eq]
    refine ⟨clean.synced, ?_⟩
    cases doCommit with
    | false =>
      refine wp_pure ⟨D, clean, quiet, ?_⟩
      rw [← eq]
      refine ⟨rfl, rfl, rfl, fun one => ?_⟩
      rw [one] at last
      cases last
    | true =>
      refine wp_seq _ ((commit_quiet clean.fits).weaken (fun _ quiet => quiet.synced clean) fun _ => id) ?_
      rintro _ t ⟨quiet', log, other, home⟩
      have done := clean.committed quiet' log other home
      have closed : Clean t.disk E (t.setLog (Log.endCommit t.log)) := done.setLog rfl rfl rfl
      refine Prog.wp_act closed.synced ⟨_, closed, ?_, ?_⟩
      swap
      · show t.log.outstanding = _ ∧ _ ∧ t.log.size = _ ∧ (_ → t.log.lh.n = 0)
        rw [log, ← eq]
        exact ⟨rfl, rfl, rfl, fun _ => rfl⟩
      refine ⟨quiet'.sb.trans quiet.sb, quiet'.itable.trans quiet.itable,
        quiet'.ftable.trans quiet.ftable,
        quiet'.proc.trans quiet.proc, ?_⟩
      intro b outside
      exact (quiet'.buf b (place ▸ outside)).trans (quiet.buf b outside)

end Ops

end Xv6
