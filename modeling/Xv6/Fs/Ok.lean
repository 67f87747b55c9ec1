import Xv6.Fs.Owned

/-!
# The invariant of the file system code

`Ok D dirty S E k`: the kernel `k` runs with the disk `D`, and what its buffers
and its inode table show together is the file system `E`. The inode that a
function holds locked may differ from its copy in the buffers (`dirty`), and
blocks in `S` are allocated but in no inode yet.

Between two functions nothing is dirty and `E` is what the buffers show.
-/

namespace Xv6

/-- What `bread` shows of the file system. -/
def Kernel.fs (k : Kernel) : Fs := Fs.ofBuf k.sb k.buf

/-- Entry `s` of a directory. -/
def Node.dirent (n : Node) (s : Nat) : Dirent := Dirent.ofBytes fun j => n.byte (DIRENTSIZE * s + j)

/-- A directory is a whole number of entries, and each names an inode of the disk. -/
structure Node.DirOk (ninodes : Nat) (n : Node) : Prop where
  size : n.size % DIRENTSIZE = 0
  inum : ∀ s, DIRENTSIZE * s < n.size → (n.dirent s).inum < ninodes

namespace Fs

/-- A consistent file system, with the blocks in `S` under way. -/
structure Good (sb : Superblock) (S : Set Nat) (F : Fs) : Prop where
  owned : F.Owned sb S
  noHoles : F.NoHoles
  dirs : ∀ i, (F.node i).type = T_DIR → (F.node i).DirOk sb.ninodes
  range : ∀ i, (F.inode i).InRange

/-- Blocks whose buffer may differ from the disk without being logged: free blocks
and data of files, which a failing copy leaves behind half written. -/
def Loose (S : Set Nat) (F : Fs) (b : Nat) : Prop :=
  F.used b = false ∨ b ∈ S ∨ ∃ i bn, (F.inode i).type ≠ T_DIR ∧ F.ref i (.block bn) = b

end Fs

/-- An entry of the inode table that is in use names an inode of the disk. -/
structure Inode.Refers (sb : Superblock) (ip : Nat) (e : Inode) : Prop where
  index : ip < NINODE
  dev : e.dev = ROOTDEV
  positive : 0 < e.inum
  bound : e.inum < sb.ninodes

structure Ok (D : Nat → Block) (dirty : Option Nat) (S : Set Nat) (E : Fs) (k : Kernel) : Prop where
  disk : k.disk = D
  wf : k.sb.Wf
  start : k.log.start = k.sb.logstart
  logSize : k.log.size = k.sb.nlog
  few : k.log.lh.n ≤ LOGSIZE
  room : k.log.lh.n + 1 ≤ k.log.size
  home : ∀ b ∈ k.log.lh.entries, k.sb.inodestart ≤ b ∧ b < k.sb.size
  tidy : ∀ b, k.sb.inodestart ≤ b → b < k.sb.size → b ∉ k.log.lh.entries → k.buf b = D b ∨
    E.Loose S b
  used : k.fs.used = E.used
  data : k.fs.data = E.data
  inode : ∀ i, (∀ ip ∈ dirty, (k.itable ip).inum ≠ i) → k.fs.inode i = E.inode i
  good : E.Good k.sb S
  table : ∀ ip, 0 < (k.itable ip).ref → (k.itable ip).Refers k.sb ip
  sync : ∀ ip, 0 < (k.itable ip).ref → (k.itable ip).valid = true → ip ∉ dirty →
    (k.itable ip).d = E.inode (k.itable ip).inum
  alloc : ∀ ip, 0 < (k.itable ip).ref → (k.itable ip).valid = true → ip ∉ dirty →
    (E.inode (k.itable ip).inum).type ≠ 0
  unique : ∀ ip ip', 0 < (k.itable ip).ref → 0 < (k.itable ip').ref →
    (k.itable ip).inum = (k.itable ip').inum → ip = ip'
  held : ∀ ip ∈ dirty, 0 < (k.itable ip).ref ∧ (k.itable ip).locked = true

/-- The state between two functions. -/
abbrev Clean (D : Nat → Block) (E : Fs) (k : Kernel) : Prop := Ok D none ∅ E k

/-- A function is changing the locked inode `ip`; `E` has its present fields. -/
structure Open (D : Nat → Block) (ip : Nat) (E : Fs) (k : Kernel) : Prop extends
    Ok D (some ip) ∅ E k where
  valid : (k.itable ip).valid = true
  core : (k.itable ip).d = E.inode (k.itable ip).inum
  live : (E.inode (k.itable ip).inum).type ≠ 0

def Synced (k : Kernel) : Prop :=
  ∀ ip, 0 < (k.itable ip).ref → (k.itable ip).valid = true → (k.itable ip).locked = false →
    (k.itable ip).d = k.fs.inode (k.itable ip).inum

/-- What holds in every state that a function inside a transaction passes through. -/
structure Calm (D : Nat → Block) (k : Kernel) : Prop where
  synced : Synced k
  disk : k.disk = D

/-- The panics that no run is shown to exclude here; `freeing free block` and
`ilock: no type` are not among them. -/
def Stops (err : Panic → Prop) : Prop :=
  ∀ e, e ≠ .freeingFreeBlock → e ≠ .ilockNoType → err e

theorem stops_any : Stops fun _ => True := fun _ _ _ => trivial

/-- What functions of the file system leave alone, apart from the inode table. -/
structure Frame (k k' : Kernel) : Prop where
  sb : k'.sb = k.sb
  ftable : k'.ftable = k.ftable
  proc : k'.proc = k.proc
  outstanding : k'.log.outstanding = k.log.outstanding
  committing : k'.log.committing = k.log.committing

theorem Frame.refl (k : Kernel) : Frame k k := ⟨rfl, rfl, rfl, rfl, rfl⟩

theorem Frame.trans {k k' k'' : Kernel} (first : Frame k k') (second : Frame k' k'') :
    Frame k k'' :=
  ⟨second.sb.trans first.sb, second.ftable.trans first.ftable, second.proc.trans first.proc,
    second.outstanding.trans first.outstanding, second.committing.trans first.committing⟩

theorem Frame.setInode (k : Kernel) (ip : Nat) (e : Inode) : Frame k (k.setInode ip e) := ⟨rfl, rfl, rfl, rfl, rfl⟩

/-- Only the disk fields of the inode in entry `ip` may have changed in the table. -/
structure Near (ip : Nat) (k k' : Kernel) : Prop extends Frame k k' where
  table : ∃ d, k'.itable = Function.update k.itable ip { k.itable ip with d }

theorem Near.refl (ip : Nat) (k : Kernel) : Near ip k k :=
  ⟨Frame.refl k, (k.itable ip).d, (Function.update_eq_self ip k.itable).symm⟩

theorem Near.trans {ip : Nat} {k k' k'' : Kernel} (first : Near ip k k') (second : Near ip k' k'') :
    Near ip k k'' := by
  obtain ⟨d, table⟩ := first.table
  obtain ⟨d', table'⟩ := second.table
  refine ⟨first.toFrame.trans second.toFrame, d', ?_⟩
  rw [table', table, Function.update_self, Function.update_idem]

theorem Near.inum {ip : Nat} {k k' : Kernel} (near : Near ip k k') :
    (k'.itable ip).inum = (k.itable ip).inum := by
  obtain ⟨d, table⟩ := near.table
  rw [table, Function.update_self]

end Xv6
