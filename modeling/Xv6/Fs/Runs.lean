import Xv6.Fs.Calls
import Xv6.Mkfs.Image

/-!
# Runs of the functions of the file system

The functions of `kernel/fs.c` and `kernel/sysfile.c` that change the file system, one after the other and in any
order, as long as the caller has the locks and references that the kernel's own callers have. A function that
panics ends the run.
-/

namespace Xv6

open Prog (wp)

/-- A call of a function of the file system. -/
inductive FsCall
  | beginOp
  | endOp
  | iget (inum : Nat)
  | ilock (ip : Nat)
  | iunlock (ip : Nat)
  | iput (ip : Nat)
  | writei (ip : Nat) (src : Addr) (off n : Nat)
  | itrunc (ip : Nat)
  | ialloc (type : Nat)
  | dirlookup (dp : Nat) (name : Name)
  | dirlink (dp : Nat) (name : Name) (inum : Nat)
  /-- assignments to fields of the inode, and `iupdate` -/
  | assign (ip nlink major minor : Nat)
  | create (p : Nat) (path : Path) (type major minor : Nat)
  | sysLink (p : Nat) (old new : Option Path)
  | sysUnlink (p : Nat) (path : Option Path)

namespace FsCall

/-- The call, without its result. -/
def run : FsCall → Kern Unit
  | beginOp => Xv6.beginOp
  | endOp => Xv6.endOp
  | iget inum => do let _ ← Xv6.iget ROOTDEV inum
  | ilock ip => Xv6.ilock ip
  | iunlock ip => Xv6.iunlock ip
  | iput ip => Xv6.iput ip
  | writei ip src off n => do let _ ← Xv6.writei ip src off n
  | itrunc ip => Xv6.itrunc ip
  | ialloc type => do let _ ← Xv6.ialloc type
  | dirlookup dp name => do let _ ← Xv6.dirlookup dp name
  | dirlink dp name inum => do let _ ← Xv6.dirlink dp name inum
  | assign ip nlink major minor => do
    setDinode ip fun d => { d with nlink, major, minor }
    iupdate ip
  | create p path type major minor => do let _ ← Xv6.create p path type major minor
  | sysLink p old new => do let _ ← Xv6.sysLink p old new
  | sysUnlink p path => do let _ ← Xv6.sysUnlink p path

/-- What the callers in the kernel see to. Directories are written by `dirlink` and `sys_unlink`
only. -/
def Ready (k : Kernel) : FsCall → Prop
  | beginOp | endOp | ilock _ | iunlock _ => True
  | iget inum => 0 < inum ∧ inum < k.sb.ninodes
  | iput ip => 0 < (k.itable ip).ref
  | writei ip _ _ _ => Held k ip (k.itable ip).inum ∧ (k.itable ip).d.type ≠ T_DIR
  | itrunc ip | dirlookup ip _ => Held k ip (k.itable ip).inum
  | ialloc type => type ≠ 0 ∧ type < 65536
  | dirlink dp _ inum => Held k dp (k.itable dp).inum ∧ inum < k.sb.ninodes
  | assign ip nlink major minor => Held k ip (k.itable ip).inum ∧ nlink < 65536 ∧ major < 65536 ∧ minor < 65536
  | create p _ type major minor => Housed k p ∧ (type ≠ 0 ∧ type < 65536) ∧ major < 65536 ∧ minor < 65536
  | sysLink p _ _ | sysUnlink p _ => Housed k p

instance (k : Kernel) (ip i : Nat) : Decidable (Held k ip i) :=
  decidable_of_iff (0 < (k.itable ip).ref ∧ (k.itable ip).valid = true ∧ (k.itable ip).locked = true ∧
      (k.itable ip).inum = i)
    ⟨fun ⟨ref, valid, locked, inum⟩ => ⟨ref, valid, locked, inum⟩,
      fun ⟨ref, valid, locked, inum⟩ => ⟨ref, valid, locked, inum⟩⟩

instance (k : Kernel) (p : Nat) : Decidable (Housed k p) :=
  decidable_of_iff (((k.proc p).cwd.any fun c => decide (0 < (k.itable c).ref)) = true) (by
    unfold Housed
    cases (k.proc p).cwd with
    | none => simp
    | some c => simp)

instance (k : Kernel) (c : FsCall) : Decidable (c.Ready k) := by cases c <;> unfold Ready <;> infer_instance

/-- Calls one after the other, as long as each is ready and returns. -/
def play : List FsCall → Kernel → Option Kernel
  | [], k => some k
  | c :: calls, k =>
    if c.Ready k then
      match (c.run k).result with
      | .ok ((), t) => play calls t
      | .error _ => none
    else none

end FsCall

inductive FsRuns (b : Kernel) : Kernel → Prop
  | start : FsRuns b b
  | step {k t : Kernel} (c : FsCall) (run : FsRuns b k) (ready : c.Ready k)
      (ends : (c.run k).result = .ok ((), t)) :
      FsRuns b t

theorem FsRuns.play {b : Kernel} (calls : List FsCall) :
    ∀ {k t : Kernel}, FsRuns b k → FsCall.play calls k = some t → FsRuns b t := by
  induction calls with
  | nil =>
    intro k t run played
    cases played
    exact run
  | cons c calls ih =>
    intro k t run played
    unfold FsCall.play at played
    split at played
    · rename_i ready
      split at played
      · rename_i u ends
        exact ih (run.step c ready ends) played
      cases played
    cases played

section Step

variable {D : Nat → Block} {E : Fs} {k : Kernel}

theorem Ended.consistent {b : Kernel} {E₀ : Fs} {t : Kernel} (ended : Ended b E₀ t) :
    Consistent t := by
  obtain ⟨D, E, during⟩ := ended
  exact ⟨D, E, during.clean⟩

theorem Created.consistent {b : Kernel} {E₀ : Fs} {own : Multiset Nat} {r : Option Nat} {t : Kernel}
    (created : Created D b E₀ own r t) : Consistent t := by
  cases r with
  | none =>
    obtain ⟨E, during⟩ := created
    exact ⟨D, E, during.clean⟩
  | some ip =>
    obtain ⟨E, -, during, -⟩ := created
    exact ⟨D, E, during.clean⟩

theorem consistent_of_wp {α : Type} {err : Panic → Prop} {m : Kern α} {inv : Kernel → Prop} {post : α → Kernel → Prop}
    (ends : wp inv err m post k) (synced : ∀ t, inv t → Synced t)
    (good : ∀ a t, post a t → Consistent t) :
    wp Synced err (do let _ ← m) (fun _ t => Consistent t) k := by
  refine Prog.wp_seq _ (ends.weaken synced fun _ => id) fun a t after => ?_
  exact Prog.wp_pure (good a t after)

theorem FsCall.run_wp (c : FsCall) (ok : Clean D E k) (ready : c.Ready k) :
    wp Synced (· ≠ .freeingFreeBlock) c.run (fun _ t => Consistent t) k := by
  have stops : Stops (· ≠ .freeingFreeBlock) := fun _ other _ => other
  have noType : Panic.ilockNoType ≠ .freeingFreeBlock := by decide
  have calm : ∀ t, Calm D t → Synced t := fun _ calm => calm.synced
  cases c with
  | beginOp =>
    refine (beginOp_wp (.inl stops) ok).mono ?_
    rintro - t ⟨clean, -⟩
    exact ⟨D, E, clean⟩
  | endOp =>
    refine (endOp_wp (.inl stops) ok).mono ?_
    rintro - t ⟨D', clean, -⟩
    exact ⟨D', E, clean⟩
  | iget inum => exact consistent_of_wp (iget_wp (.inl stops) ok ready.1 ready.2) calm fun _ _ got => ⟨D, E, got.clean⟩
  | ilock ip =>
    refine ((ilock_wp (.inl stops) ok fun _ => noType).weaken calm fun _ => id).mono ?_
    rintro - t ⟨clean, -⟩
    exact ⟨D, E, clean⟩
  | iunlock ip =>
    refine ((iunlock_wp (.inl stops) ok).weaken calm fun _ => id).mono ?_
    rintro - t ⟨clean, -⟩
    exact ⟨D, E, clean⟩
  | iput ip =>
    refine ((iput_wp (.inl stops) ok ready).weaken calm fun _ => id).mono ?_
    rintro - t ⟨E', put, -⟩
    exact ⟨D, E', put.clean⟩
  | writei ip src off n =>
    obtain ⟨held, file⟩ := ready
    have file : (E.inode (k.itable ip).inum).type ≠ T_DIR := by
      rw [← (held.loaded ok).core]
      exact file
    refine consistent_of_wp (writei_file_wp stops ok held.ref held.valid held.locked file src off n) calm ?_
    rintro - t ⟨E', worked, -⟩
    exact ⟨D, E', worked.clean⟩
  | itrunc ip =>
    refine ((itrunc_wp stops (Held.open ready ok)).weaken calm fun _ => id).mono ?_
    rintro - t ⟨E', clean, -⟩
    exact ⟨D, E', clean⟩
  | ialloc type =>
    refine consistent_of_wp (ialloc_wp stops ok ready.1 ready.2) calm ?_
    rintro r t (⟨-, rfl⟩ | ⟨ip, i, E', -, made⟩)
    · exact ⟨D, E, ok⟩
    exact ⟨D, E', made.got.clean⟩
  | dirlookup dp name =>
    refine consistent_of_wp (dirlookup_wp (.inl stops) ok ready name) calm ?_
    rintro r t ⟨-, found⟩
    split at found
    · rw [found.2]
      exact ⟨D, E, ok⟩
    obtain ⟨ip, -, got⟩ := found
    exact ⟨D, E, got.clean⟩
  | dirlink dp name inum =>
    refine consistent_of_wp (dirlink_wp stops ok ready.1 name ready.2) calm ?_
    rintro r t ⟨E', linked⟩
    exact ⟨D, E', linked.clean⟩
  | assign ip nlink major minor =>
    obtain ⟨held, small, smallMajor, smallMinor⟩ := ready
    have relabels : Relabels fun d => { d with nlink, major, minor } :=
      ⟨fun _ => rfl, fun _ => rfl, fun _ => rfl, fun _ range =>
        ⟨range.type, smallMajor, smallMinor, small, range.size, range.addrs⟩⟩
    rw [FsCall.run, wp_setDinode_bind]
    refine ⟨((held.open ok).calm_setInode _).synced, ?_⟩
    refine (((held.assigned ok relabels).iupdate stops).weaken calm fun _ => id).mono ?_
    rintro - t ⟨clean, -⟩
    exact ⟨D, _, clean⟩
  | create p path type major minor =>
    obtain ⟨housed, ⟨live, small⟩, smallMajor, smallMinor⟩ := ready
    exact consistent_of_wp (create_wp stops noType ok housed path live small smallMajor smallMinor)
      (fun _ => id) fun _ _ created => created.consistent
  | sysLink p old new =>
    exact consistent_of_wp (sysLink_wp stops noType ok ready old new)
      (fun _ => id) fun _ _ done => done.1.consistent
  | sysUnlink p path =>
    exact consistent_of_wp (sysUnlink_wp stops noType ok ready path)
      (fun _ => id) fun _ _ done => done.1.consistent

theorem FsRuns.consistent {b : Kernel} (start : Consistent b) (run : FsRuns b k) :
    Consistent k := by
  induction run with
  | start => exact start
  | step c _ ready ends ih =>
    obtain ⟨D, E, ok⟩ := ih
    exact (c.run_wp ok ready).post_of_ok ends

end Step

/-! ## A formatted disk -/

/-- A disk on which `mkfs` has not made any inode yet, apart from the bitmap. -/
def blankImage : Nat → Block := (Mkfs.State.blank.put Mkfs.sb.bmapstart (Mkfs.bitmap Mkfs.nmeta)).image

def blankKernel : Kernel := { reboot Mkfs.sb.logstart Mkfs.sb.nlog blankImage with sb := Mkfs.sb }

theorem blank_consistent : Consistent blankKernel := by
  have wf : (Mkfs.area Mkfs.NINODES).Wf := Mkfs.area_wf (by decide) (by decide)
  have made := Mkfs.made_blank wf
  have fs : blankKernel.fs = Mkfs.State.blank.fs Mkfs.NINODES :=
    (Mkfs.ofBuf_put_bitmap (s := Mkfs.State.blank) made.high).trans (Mkfs.fs_put_bitmap wf _ _)
  have free : ∀ j, ((Mkfs.State.blank.fs Mkfs.NINODES).inode j).type = 0 := by
    intro j
    refine made.free j ?_
    show j = 0 ∨ 1 ≤ j
    omega
  have good : (Mkfs.State.blank.fs Mkfs.NINODES).Good Mkfs.sb ∅ := by
    refine ⟨made.owned, ?_, ?_, Mkfs.fs_inRange _ _⟩
    · intro i bn below
      rw [Fs.node_of_free (free i)] at below
      exact absurd below (Nat.not_lt_zero _)
    intro i isDir
    rw [Fs.node_type, free i] at isDir
    cases isDir
  refine ⟨blankImage, _, rfl, wf, rfl, rfl, zero_le, by decide, nofun, fun _ _ _ _ => .inl rfl,
    congrArg Fs.used fs, congrArg Fs.data fs, fun i _ => congrFun (congrArg Fs.inode fs) i, good,
    fun _ used => absurd used (lt_irrefl 0), fun _ used => absurd used (lt_irrefl 0),
    fun _ used => absurd used (lt_irrefl 0), fun _ _ used => absurd used (lt_irrefl 0), nofun⟩

/-- A new file on the formatted disk, locked by a transaction. -/
def newFile : List FsCall := [.beginOp, .ialloc T_FILE, .ilock 0]

theorem FsRuns.exists_play (calls : List FsCall) (check : Kernel → Prop) [DecidablePred check]
    (played : ((FsCall.play calls blankKernel).any fun k => decide (check k)) = true) :
    ∃ k, FsRuns blankKernel k ∧ Consistent k ∧ check k := by
  cases ended : FsCall.play calls blankKernel with
  | none =>
    rw [ended] at played
    cases played
  | some k =>
    rw [ended] at played
    have run := FsRuns.start.play calls ended
    exact ⟨k, run, run.consistent blank_consistent, of_decide_eq_true played⟩

/-- A file with ten bytes on the disk, locked by the next transaction. -/
def tenBytes : List FsCall :=
  newFile ++ [.writei 0 (.kernel fun _ => 65) 0 10, .iunlock 0, .endOp, .beginOp, .ilock 0]

/-- In every run from a consistent file system: no two slots of inodes name one block, the blocks
they name are in the data area, and the bits that are set are those of these blocks and of the
blocks before the data area. So `balloc` returns a block that no inode has, and nothing frees a
free block. -/
theorem blocks_owned {b k : Kernel} (start : Consistent b) (run : FsRuns b k) :
    (∀ i s i' s', k.fs.ref i s ≠ 0 → k.fs.ref i s = k.fs.ref i' s' → i = i' ∧ s = s') ∧
    (∀ i s, k.fs.ref i s ≠ 0 → k.sb.dataStart ≤ k.fs.ref i s ∧ k.fs.ref i s < k.sb.size) ∧
    (∀ a < k.sb.size, k.fs.used a = true ↔ a < k.sb.dataStart ∨ ∃ i s, k.fs.ref i s = a) ∧
    (∀ a t, (balloc k).result = .ok (a, t) → a ≠ 0 → k.fs.used a = false ∧
      ∀ i s, k.fs.ref i s ≠ a) ∧
    ∀ c : FsCall, c.Ready k → (c.run k).result ≠ .error .freeingFreeBlock := by
  obtain ⟨D, E, ok⟩ := run.consistent start
  have owned := ok.good.owned
  have fs := ok.fs_eq
  have used : ∀ a < k.sb.size, k.fs.used a = true ↔ a < k.sb.dataStart ∨
      ∃ i s, k.fs.ref i s = a := by
    intro a low
    rw [fs, owned.used low, Set.mem_empty_iff_false, false_or]
  refine ⟨?_, ?_, used, ?_, ?_⟩
  · intro i s i' s' named same
    rw [fs] at named same
    exact owned.distinct named same
  · intro i s named
    rw [fs] at named ⊢
    exact owned.area named
  · intro a t returns some
    rcases (balloc_wp (Or.inl stops_any) ok).post_of_ok returns with ⟨zero, -⟩ | ⟨-, fresh⟩
    · exact absurd zero some
    rw [fs]
    refine ⟨fresh.free, fun i s named => ?_⟩
    have set := (owned.used fresh.high).mpr (Or.inr (Or.inr ⟨i, s, named⟩))
    rw [fresh.free] at set
    cases set
  intro c ready error
  have result := (c.run_wp ok ready).2
  rw [error] at result
  exact result rfl

/-- The ten bytes are in block 46, the first of the data area, and the next block that `balloc`
finds is 47. -/
theorem tenBytes_owned :
    ∃ k t, FsRuns blankKernel k ∧ k.fs.ref 1 (.block 0) = 46 ∧ k.fs.used 46 = true ∧
    (balloc k).result = .ok (47, t) ∧ k.fs.used 47 = false ∧ (∀ i s, k.fs.ref i s ≠ 47) ∧
    ((FsCall.itrunc 0).run k).result ≠ .error .freeingFreeBlock := by
  obtain ⟨k, run, -, ref, size, held, next⟩ :=
    FsRuns.exists_play tenBytes (fun k => k.fs.ref 1 (.block 0) = 46 ∧
    46 < k.sb.size ∧ Held k 0 (k.itable 0).inum ∧ ((balloc k).result.toOption.map Prod.fst) = some 47)
    (by decide +kernel)
  obtain ⟨-, -, used, fresh, freed⟩ := blocks_owned blank_consistent run
  cases ended : (balloc k).result with
  | error e =>
    rw [ended] at next
    cases next
  | ok r =>
    obtain ⟨a, t⟩ := r
    rw [ended] at next
    cases next
    obtain ⟨free, unnamed⟩ := fresh 47 t ended (by decide)
    exact ⟨k, t, run, ref, (used 46 size).mpr (.inr ⟨1, .block 0, ref⟩), ended, free, unnamed,
      freed _ held⟩

/-- In every run from a consistent file system no file has a hole: `readi` of a locked inode
returns what it returns with any other function in place of `balloc`, and leaves the state as it
is. -/
theorem no_holes_in_runs {b k : Kernel} (start : Consistent b) (run : FsRuns b k) :
    k.fs.NoHoles ∧
    ∀ ip i, Held k ip i → ∀ (dst : Addr) (off n : Nat), n < 2 ^ 32 →
      ∃ r, ∀ alloc, Prog.Returns (readiWith alloc ip dst off n) r k := by
  obtain ⟨D, E, ok⟩ := run.consistent start
  refine ⟨ok.fs_eq ▸ ok.good.noHoles, fun ip i held dst off n word => ?_⟩
  obtain ⟨r, out, returns, -⟩ := (held.loaded ok).readi_clipped dst off word
  exact ⟨(r, out), returns⟩

/-- `readi` of the ten bytes returns them with any allocator. -/
theorem tenBytes_no_holes : ∃ k out, FsRuns blankKernel k ∧ Held k 0 1 ∧ (k.fs.node 1).size = 10 ∧
    (∀ alloc, Prog.Returns (readiWith alloc 0 (.kernel fun _ => 0) 0 10) (10, out) k) ∧ out 0 = 65 ∧ out 9 = 65 := by
  obtain ⟨k, run, -, held, size, read⟩ := FsRuns.exists_play tenBytes (fun k => Held k 0 1 ∧
    (k.fs.node 1).size = 10 ∧
    ((readi 0 (.kernel fun _ => 0) 0 10 k).result.toOption.map fun r => (r.1.1, r.1.2 0, r.1.2 9)) =
      some (10, 65, 65)) (by decide +kernel)
  obtain ⟨⟨n, out⟩, returns⟩ :=
    (no_holes_in_runs blank_consistent run).2 0 1 held (.kernel fun _ => 0) 0 10 (by decide)
  rw [show readi 0 _ 0 10 k = _ from returns balloc] at read
  obtain ⟨rfl, first, last⟩ : n = 10 ∧ out 0 = 65 ∧ out 9 =
    65 := by simpa [Except.toOption] using read
  exact ⟨k, out, run, held, size, returns, first, last⟩

end Xv6
