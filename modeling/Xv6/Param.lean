import Xv6.Lib.Bytes
import Xv6.Lib.Prog

/-!
# Constants and on-disk records

The constants of `kernel/param.h`, `kernel/fs.h` and `kernel/stat.h`, and the
records the kernel reads out of disk blocks: the superblock, `struct dinode`
and `struct dirent`. A `short` or `int` field is the number its bytes encode;
code that depends on the sign says so where it does.
-/

namespace Xv6

abbrev MAXOPBLOCKS : Nat := 10
abbrev LOGSIZE : Nat := MAXOPBLOCKS * 3
abbrev NBUF : Nat := MAXOPBLOCKS * 3
abbrev NINODE : Nat := 50
abbrev NFILE : Nat := 100
abbrev NOFILE : Nat := 16
abbrev NDEV : Nat := 10
abbrev ROOTDEV : Nat := 1

abbrev ROOTINO : Nat := 1
abbrev BSIZE : Nat := 1024
abbrev FSMAGIC : Nat := 0x10203040
abbrev NDIRECT : Nat := 12
abbrev NINDIRECT : Nat := BSIZE / 4
abbrev MAXFILE : Nat := NDIRECT + NINDIRECT
abbrev DINODESIZE : Nat := 64
abbrev IPB : Nat := BSIZE / DINODESIZE
abbrev BPB : Nat := BSIZE * 8
abbrev DIRSIZ : Nat := 14
abbrev DIRENTSIZE : Nat := 16

abbrev T_DIR : Nat := 1
abbrev T_FILE : Nat := 2
abbrev T_DEVICE : Nat := 3

abbrev O_RDONLY : Nat := 0x000
abbrev O_WRONLY : Nat := 0x001
abbrev O_RDWR : Nat := 0x002
abbrev O_CREATE : Nat := 0x200
abbrev O_TRUNC : Nat := 0x400

/-- The contents of one disk block. -/
abbrev Block : Type := Bytes BSIZE

/-- `struct superblock`. -/
structure Superblock where
  magic : Nat
  size : Nat
  nblocks : Nat
  ninodes : Nat
  nlog : Nat
  logstart : Nat
  inodestart : Nat
  bmapstart : Nat

/-- The superblock as `readsb` copies it out of block 1. -/
def Superblock.ofBlock (b : Block) : Superblock where
  magic := b.u32 0
  size := b.u32 4
  nblocks := b.u32 8
  ninodes := b.u32 12
  nlog := b.u32 16
  logstart := b.u32 20
  inodestart := b.u32 24
  bmapstart := b.u32 28

def Superblock.iblock (sb : Superblock) (i : Nat) : Nat := i / IPB + sb.inodestart

/-- `BBLOCK(b, sb)`: the bitmap block that holds the bit of block `b`. -/
def Superblock.bblock (sb : Superblock) (b : Nat) : Nat := b / BPB + sb.bmapstart

/-- `struct dinode`, and the copy of it in an in-memory inode. -/
structure Dinode where
  type : Nat
  major : Nat
  minor : Nat
  nlink : Nat
  size : Nat
  addrs : Fin (NDIRECT + 1) → Nat

namespace Dinode

def zero : Dinode := ⟨0, 0, 0, 0, 0, fun _ => 0⟩

def addr (d : Dinode) (i : Nat) : Nat := if h : i < NDIRECT + 1 then d.addrs ⟨i, h⟩ else 0

/-- `addrs[i] = a`. -/
def setAddr (d : Dinode) (i a : Nat) : Dinode :=
  { d with addrs := fun j => if j.val = i then a else d.addrs j }

/-- Every field is in the range of its C type. -/
structure InRange (d : Dinode) : Prop where
  type : d.type < 65536
  major : d.major < 65536
  minor : d.minor < 65536
  nlink : d.nlink < 65536
  size : d.size < 4294967296
  addrs : ∀ i, d.addrs i < 4294967296

/-- The record at index `i` of a block of inodes. -/
def ofBlock (b : Block) (i : Nat) : Dinode where
  type := b.u16 (DINODESIZE * i)
  major := b.u16 (DINODESIZE * i + 2)
  minor := b.u16 (DINODESIZE * i + 4)
  nlink := b.u16 (DINODESIZE * i + 6)
  size := b.u32 (DINODESIZE * i + 8)
  addrs j := b.u32 (DINODESIZE * i + 12 + 4 * j.val)

/-- Byte `j` of the record in memory. -/
def byte (d : Dinode) (j : Nat) : UInt8 :=
  if j < 2 then Bytes.leByte d.type j
  else if j < 4 then Bytes.leByte d.major (j - 2)
  else if j < 6 then Bytes.leByte d.minor (j - 4)
  else if j < 8 then Bytes.leByte d.nlink (j - 6)
  else if j < 12 then Bytes.leByte d.size (j - 8)
  else Bytes.leByte (d.addr ((j - 12) / 4)) ((j - 12) % 4)

/-- Store the record at index `i` of a block of inodes. -/
def store (d : Dinode) (b : Block) (i : Nat) : Block :=
  b.write (DINODESIZE * i) DINODESIZE d.byte

attribute [ext] Dinode

theorem ofBlock_inRange (b : Block) (i : Nat) : (ofBlock b i).InRange where
  type := b.u16_lt _
  major := b.u16_lt _
  minor := b.u16_lt _
  nlink := b.u16_lt _
  size := b.u32_lt _
  addrs _ := b.u32_lt _

theorem zero_inRange : zero.InRange where
  type := by decide
  major := by decide
  minor := by decide
  nlink := by decide
  size := by decide
  addrs _ := show 0 < 4294967296 by decide

theorem byte_store {d : Dinode} {b : Block} {i j : Nat} (index : i < IPB)
    (inside : j < DINODESIZE) :
    (d.store b i).byte (DINODESIZE * i + j) = d.byte j := by
  have bound : i < 16 := index
  have room : DINODESIZE * i + j < BSIZE := by
    simp only [DINODESIZE, BSIZE] at inside ⊢
    omega
  unfold store
  rw [Bytes.byte_write_in (by omega) (by omega) room, Nat.add_sub_cancel_left]

theorem u16_store {d : Dinode} {b : Block} {i off v : Nat} (index : i < IPB)
    (inside : off + 2 ≤ DINODESIZE) (field : ∀ j < 2, d.byte (off + j) = Bytes.leByte v j) :
    (d.store b i).u16 (DINODESIZE * i + off) = v % 65536 := by
  refine Bytes.u16_of_leByte fun j small => ?_
  rw [add_assoc, byte_store index (by omega), field j small]

theorem u32_store {d : Dinode} {b : Block} {i off v : Nat} (index : i < IPB)
    (inside : off + 4 ≤ DINODESIZE) (field : ∀ j < 4, d.byte (off + j) = Bytes.leByte v j) :
    (d.store b i).u32 (DINODESIZE * i + off) = v % 4294967296 := by
  refine Bytes.u32_of_leByte fun j small => ?_
  rw [add_assoc, byte_store index (by omega), field j small]

theorem byte_addr (d : Dinode) (a : Fin (NDIRECT + 1)) {j : Nat} (small : j < 4) :
    d.byte (12 + 4 * a.val + j) = Bytes.leByte (d.addrs a) j := by
  unfold byte
  rw [if_neg (by omega), if_neg (by omega), if_neg (by omega), if_neg (by omega),
    if_neg (by omega)]
  have index : (12 + 4 * a.val + j - 12) / 4 = a.val := by omega
  have rest : (12 + 4 * a.val + j - 12) % 4 = j := by omega
  rw [index, rest, addr, dif_pos a.isLt]

theorem ofBlock_store_self {d : Dinode} (range : d.InRange) (b : Block) {i : Nat}
    (index : i < IPB) :
    ofBlock (d.store b i) i = d := by
  ext
  case type =>
    have field : ∀ j < 2, d.byte (0 + j) = Bytes.leByte d.type j := fun j small => by
      simp only [byte, zero_add, if_pos small]
    exact (u16_store index (by decide) field).trans (Nat.mod_eq_of_lt range.type)
  case major =>
    refine (u16_store index (by decide) fun j small => ?_).trans (Nat.mod_eq_of_lt range.major)
    simp only [byte]
    rw [if_neg (by omega), if_pos (by omega), Nat.add_sub_cancel_left]
  case minor =>
    refine (u16_store index (by decide) fun j small => ?_).trans (Nat.mod_eq_of_lt range.minor)
    simp only [byte]
    rw [if_neg (by omega), if_neg (by omega), if_pos (by omega), Nat.add_sub_cancel_left]
  case nlink =>
    refine (u16_store index (by decide) fun j small => ?_).trans (Nat.mod_eq_of_lt range.nlink)
    simp only [byte]
    rw [if_neg (by omega), if_neg (by omega), if_neg (by omega), if_pos (by omega),
      Nat.add_sub_cancel_left]
  case size =>
    refine (u32_store index (by decide) fun j small => ?_).trans (Nat.mod_eq_of_lt range.size)
    simp only [byte]
    rw [if_neg (by omega), if_neg (by omega), if_neg (by omega), if_neg (by omega),
      if_pos (by omega), Nat.add_sub_cancel_left]
  case addrs a =>
    have inside : 12 + 4 * a.val + 4 ≤ DINODESIZE := by
      have bound : a.val < 13 := a.isLt
      simp only [DINODESIZE]
      omega
    have stored := u32_store (b := b) index inside fun j small => byte_addr d a small
    rw [← add_assoc] at stored
    exact stored.trans (Nat.mod_eq_of_lt (range.addrs a))

theorem ofBlock_store_of_ne (d : Dinode) (b : Block) {i j : Nat} (ne : i ≠ j) :
    ofBlock (d.store b i) j = ofBlock b j := by
  have apart : DINODESIZE * j + DINODESIZE ≤ DINODESIZE * i ∨
      DINODESIZE * i + DINODESIZE ≤ DINODESIZE * j := by
    simp only [DINODESIZE]
    omega
  simp only [DINODESIZE] at apart
  ext
  case addrs a =>
    have bound : a.val < 13 := a.isLt
    refine Bytes.u32_write_out ?_
    simp only [DINODESIZE]
    omega
  case size =>
    refine Bytes.u32_write_out ?_
    simp only [DINODESIZE]
    omega
  all_goals
    refine Bytes.u16_write_out ?_
    simp only [DINODESIZE]
    omega

end Dinode

/-- `struct dirent`; the name is the array of `DIRSIZ` bytes. -/
structure Dirent where
  inum : Nat
  name : Nat → UInt8

/-- Byte `j` of the entry in memory. -/
def Dirent.byte (de : Dirent) (j : Nat) : UInt8 :=
  if j < 2 then Bytes.leByte de.inum j else de.name (j - 2)

def Dirent.ofBytes (f : Nat → UInt8) : Dirent where
  inum := (f 0).toNat + 256 * (f 1).toNat
  name j := if j < DIRSIZ then f (j + 2) else 0

end Xv6
