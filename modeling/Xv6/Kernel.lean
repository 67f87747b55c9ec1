import Xv6.Log.State

/-!
# The kernel state of the file system

One system call runs at a time here, and the buffer cache is seen from its
interface: `buf b` is what `bread` of block `b` returns, `disk b` what the disk
holds. Locks of buffers and their reference counts are the subject of
`Xv6.Log.Pins`; locks and reference counts of inodes are part of this state.
-/

namespace Xv6

open Function renaming update → upd

/-- `struct inode`; `d` is the copy of the disk inode. -/
structure Inode where
  dev : Nat
  inum : Nat
  ref : Nat
  locked : Bool
  valid : Bool
  d : Dinode

/-- The `type` of a `struct file`. -/
inductive FdType
  | none
  | pipe
  | inode
  | device
  deriving DecidableEq

/-- `struct file`; `ip` is an index of the inode table. -/
structure File where
  type : FdType
  ref : Nat
  readable : Bool
  writable : Bool
  ip : Nat
  off : Nat
  major : Nat

/-- The part of `struct proc` that the file system uses. -/
structure Proc where
  ofile : Nat → Option Nat
  cwd : Option Nat

structure Kernel where
  disk : Nat → Block
  buf : Nat → Block
  sb : Superblock
  log : Log
  itable : Nat → Inode
  ftable : Nat → File
  proc : Nat → Proc

namespace Kernel

@[simps -fullyApplied] def setBuf (k : Kernel) (b : Nat) (data : Block) : Kernel :=
  { k with buf := upd k.buf b data }

@[simps -fullyApplied] def setDisk (k : Kernel) (b : Nat) (data : Block) : Kernel :=
  { k with disk := upd k.disk b data }

@[simps -fullyApplied] def setLog (k : Kernel) (log : Log) : Kernel := { k with log := log }

/-- Assign to entry `i` of the inode table. -/
@[simps -fullyApplied] def setInode (k : Kernel) (i : Nat) (ip : Inode) : Kernel :=
  { k with itable := upd k.itable i ip }

/-- Assign to entry `i` of the file table. -/
@[simps -fullyApplied] def setFile (k : Kernel) (i : Nat) (f : File) : Kernel :=
  { k with ftable := upd k.ftable i f }

@[simps -fullyApplied] def setProc (k : Kernel) (p : Nat) (proc : Proc) : Kernel :=
  { k with proc := upd k.proc p proc }

end Kernel

abbrev Kern (α : Type) : Type := Prog Kernel Panic α

/-- `bread(dev, b)` as its caller sees it. -/
def bread (b : Nat) : Kern Block := do
  return (← Prog.get).buf b

/-- Assign to the data of a buffer that the caller holds. -/
def setBuf (b : Nat) (data : Block) : Kern Unit :=
  Prog.act fun k => k.setBuf b data

/-- `bwrite`: one atomic write of the buffer to the disk. -/
def bwrite (b : Nat) : Kern Unit :=
  Prog.act fun k => k.setDisk b (k.buf b)

def setLog (f : Log → Log) : Kern Unit :=
  Prog.act fun k => k.setLog (f k.log)

section Rules

variable {α : Type} {inv : Kernel → Prop} {err : Panic → Prop} {post : α → Kernel → Prop} {k : Kernel}

theorem wp_bread_bind {b : Nat} {next : Block → Kern α} :
    Prog.wp inv err (bread b >>= next) post k ↔ Prog.wp inv err (next (k.buf b)) post k := Iff.rfl

theorem wp_setBuf_bind {b : Nat} {data : Block} {next : Unit → Kern α} :
    Prog.wp inv err (setBuf b data >>= next) post k ↔
      inv (k.setBuf b data) ∧ Prog.wp inv err (next ()) post (k.setBuf b data) :=
  Prog.wp_act_bind

theorem wp_setLog_bind {f : Log → Log} {next : Unit → Kern α} :
    Prog.wp inv err (setLog f >>= next) post k ↔
      inv (k.setLog (f k.log)) ∧ Prog.wp inv err (next ()) post (k.setLog (f k.log)) :=
  Prog.wp_act_bind

theorem wp_bwrite {b : Nat} {post : Unit → Kernel → Prop} (inside : inv (k.setDisk b (k.buf b)))
    (h : post () (k.setDisk b (k.buf b))) : Prog.wp inv err (bwrite b) post k :=
  Prog.wp_act inside h

end Rules

end Xv6
