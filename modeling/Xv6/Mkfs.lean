import Xv6.Sysfile

/-!
# mkfs

`mkfs/mkfs.c`: the program that makes the first file system, on a little-endian
host, where `xshort` and `xint` change nothing. The image is a file of the host:
its sectors, and how many of them it has. A read past its end is short and ends the
program, a write past its end extends it. An input file is the name `mkfs` was given
and what the calls of `read` returned; `main` runs with the image open. Printing is
left out.
-/

namespace Xv6.Mkfs

open Prog (get fail)

abbrev FSSIZE : Nat := 2000
abbrev NINODES : Nat := 200

abbrev nbitmap : Nat := FSSIZE / (BSIZE * 8) + 1
abbrev ninodeblocks : Nat := NINODES / IPB + 1
abbrev nlog : Nat := LOGSIZE
abbrev nmeta : Nat := 2 + nlog + ninodeblocks + nbitmap
abbrev nblocks : Nat := FSSIZE - nmeta

def sb : Superblock where
  magic := FSMAGIC
  size := FSSIZE
  nblocks := nblocks
  ninodes := NINODES
  nlog := nlog
  logstart := 2
  inodestart := 2 + nlog
  bmapstart := 2 + nlog + ninodeblocks

/-- The block that starts with the superblock. -/
def sbBlock : Block :=
  (((((((Bytes.zero.setU32 0 sb.magic).setU32 4 sb.size).setU32 8 sb.nblocks).setU32 12 sb.ninodes).setU32
    16 sb.nlog).setU32 20 sb.logstart).setU32 24 sb.inodestart).setU32 28 sb.bmapstart

/-- Why `mkfs` ends with a status other than 0: a call of `die`, or an assertion. -/
inductive Failure
  | read
  | open (path : List UInt8)
  | rootino
  | slash
  | maxfile
  | used
  deriving DecidableEq

structure State where
  image : Nat → Block
  length : Nat
  freeinode : Nat
  freeblock : Nat
  /-- The sectors that `winode` has written, the last one first. -/
  inodeWrites : List Nat

/-- The state before `main`; the image was truncated when it was opened. -/
def State.start : State := ⟨fun _ => Bytes.zero, 0, 1, 0, []⟩

abbrev Mk (α : Type) : Type := Prog State Failure α

/-! ## Sectors -/

/-- The sector at the offset `sec * BSIZE`, a product of `uint`. -/
def sector (sec : Nat) : Nat := sec * BSIZE % 2 ^ 32 / BSIZE

def wsect (sec : Nat) (buf : Block) : Mk Unit :=
  Prog.act fun s => { s with
    image := Function.update s.image (sector sec) buf
    length := max s.length (sector sec + 1) }

def rsect (sec : Nat) : Mk Block := do
  let s ← get
  if s.length ≤ sector sec then fail .read
  return s.image (sector sec)

/-! ## Inodes and blocks -/

def winode (inum : Nat) (ip : Dinode) : Mk Unit := do
  let bn := sb.iblock inum
  let buf ← rsect bn
  wsect bn (ip.store buf (inum % IPB))
  Prog.act fun s => { s with inodeWrites := sector bn :: s.inodeWrites }

def rinode (inum : Nat) : Mk Dinode := do
  let buf ← rsect (sb.iblock inum)
  return Dinode.ofBlock buf (inum % IPB)

def ialloc (type : Nat) : Mk Nat := do
  let inum := (← get).freeinode
  Prog.act fun s => { s with freeinode := s.freeinode + 1 }
  winode inum { Dinode.zero with type, nlink := 1 }
  return inum

/-- The loop of `balloc`. -/
def bitmap : Nat → Block
  | 0 => Bytes.zero
  | used + 1 => (bitmap used).setBit used

def balloc (used : Nat) : Mk Unit := do
  if ¬ used < BSIZE * 8 then fail .used
  wsect sb.bmapstart (bitmap used)

/-- `freeblock++`. -/
def nextBlock : Mk Nat := do
  let b := (← get).freeblock
  Prog.act fun s => { s with freeblock := s.freeblock + 1 }
  return b

def indirectOf (din : Dinode) : Mk Dinode := do
  if din.addr NDIRECT = 0 then
    let x ← nextBlock
    return din.setAddr NDIRECT x
  else return din

def entryOf (din : Dinode) (j : Nat) : Mk (Dinode × Nat) := do
  let indirect ← rsect (din.addr NDIRECT)
  if indirect.u32 (4 * j) = 0 then
    let x ← nextBlock
    wsect (din.addr NDIRECT) (indirect.setU32 (4 * j) x)
    return (din, x)
  else return (din, indirect.u32 (4 * j))

/-- The first half of a round of `iappend`: the number of block `fbn` of `din`, and
`din` with the addresses that were missing. -/
def blockOf (din : Dinode) (fbn : Nat) : Mk (Dinode × Nat) := do
  if fbn < NDIRECT then
    if din.addr fbn = 0 then
      let x ← nextBlock
      return (din.setAddr fbn x, x)
    else return (din, din.addr fbn)
  else
    let din ← indirectOf din
    entryOf din (fbn - NDIRECT)

/-- The loop of `iappend`; the fuel bounds the bytes that are left. -/
def iappendLoop : Nat → List UInt8 → Dinode → Nat → Mk (Dinode × Nat)
  | 0, _, din, off => return (din, off)
  | fuel + 1, p, din, off => do
    if p = [] then return (din, off)
    else
      let fbn := off / BSIZE
      if ¬ fbn < MAXFILE then fail .maxfile
      let (din, x) ← blockOf din fbn
      let n1 := min p.length ((fbn + 1) * BSIZE - off)
      let buf ← rsect x
      wsect x (buf.write (off - fbn * BSIZE) n1 fun j => p.getD j 0)
      iappendLoop fuel (p.drop n1) din (off + n1)

def iappend (inum : Nat) (p : List UInt8) : Mk Unit := do
  let din ← rinode inum
  let (din, off) ← iappendLoop p.length p din din.size
  winode inum { din with size := off }

/-! ## The program -/

/-- The bytes that one call of `read(fd, buf, sizeof(buf))` returned. -/
abbrev Chunk : Type := { bytes : List UInt8 // 0 < bytes.length ∧ bytes.length ≤ BSIZE }

/-- One of `argv[2]`, `argv[3]`, …, a string without a zero byte, and what `open` and
the calls of `read` up to the end of the file gave. -/
structure Input where
  path : List UInt8
  string : 0 ∉ path
  chunks : Option (List Chunk)

def user : List UInt8 := [117, 115, 101, 114, 47]

abbrev underscore : UInt8 := 95

/-- The name without a leading `user/`. -/
def stripUser (path : List UInt8) : List UInt8 := if user.isPrefixOf path then path.drop 5 else path

/-- The name without a leading `_`. -/
def stripUnderscore (name : List UInt8) : List UInt8 :=
  if name.head? = some underscore then name.tail else name

/-- The name of the file in the image. -/
def Input.shortname (file : Input) : List UInt8 := stripUnderscore (stripUser file.path)

def dirent (inum : Nat) (name : Name) : List UInt8 := (List.range DIRENTSIZE).map (Dirent.byte ⟨inum, name⟩)

/-- The array of characters a string is. -/
def chars (s : List UInt8) : Name := fun j => s.getD j 0

def appendChunks (inum : Nat) : List Chunk → Mk Unit
  | [] => return ()
  | chunk :: rest => do
    iappend inum chunk.val
    appendChunks inum rest

/-- The body of the loop of `main` over its arguments. -/
def addFile (rootino : Nat) (file : Input) : Mk Unit := do
  if slash ∈ stripUser file.path then fail .slash
  match file.chunks with
  | none => fail (.open file.path)
  | some chunks => do
    let inum ← ialloc T_FILE
    iappend rootino (dirent inum (strncpy (chars file.shortname)))
    appendChunks inum chunks

def addFiles (rootino : Nat) : List Input → Mk Unit
  | [] => return ()
  | file :: rest => do
    addFile rootino file
    addFiles rootino rest

/-- `main`; to return is to exit with status 0. -/
def main (files : List Input) : Mk Unit := do
  Prog.act fun s => { s with freeblock := nmeta }
  Prog.forRange 0 FSSIZE fun i => wsect i Bytes.zero
  wsect 1 sbBlock
  let rootino ← ialloc T_DIR
  if rootino ≠ ROOTINO then fail .rootino
  iappend rootino (dirent rootino dotName)
  iappend rootino (dirent rootino dotdotName)
  addFiles rootino files
  let din ← rinode rootino
  winode rootino { din with size := (din.size / BSIZE + 1) * BSIZE }
  balloc (← get).freeblock

end Xv6.Mkfs
