import Xv6.Fs

/-!
# Inodes, bitmap and data behind the buffers

The blocks of a disk, read as `mkfs` lays them out: an array of inodes, a bitmap
and the data blocks. Each store of the kernel into a buffer changes one of them
in one place and nothing else.
-/

namespace Xv6

open Function renaming update → upd, update_self → upd_self, update_of_ne → upd_ne,
  update_idem → upd_idem, update_eq_self → upd_eq_self

/-- The first block after the boot block, the superblock, the log, the inodes and
the bitmap. -/
def Superblock.dataStart (sb : Superblock) : Nat := sb.bmapstart + sb.size / BPB + 1

/-- The areas of the disk lie one after the other, the numbers fit their types, and
a directory entry can name every inode. -/
structure Superblock.Wf (sb : Superblock) : Prop where
  log : 2 ≤ sb.logstart
  inodes : sb.logstart + sb.nlog ≤ sb.inodestart
  bitmap : sb.inodestart + (sb.ninodes - 1) / IPB + 1 ≤ sb.bmapstart
  data : sb.dataStart ≤ sb.size
  size : sb.size < 2147483648
  root : ROOTINO < sb.ninodes
  names : sb.ninodes ≤ 65536

/-- What a disk holds: inodes, bitmap and data blocks. -/
@[ext] structure Fs where
  inode : Nat → Dinode
  used : Nat → Bool
  data : Nat → Block

namespace Fs

def ofBuf (sb : Superblock) (buf : Nat → Block) : Fs where
  inode i := if i < sb.ninodes then Dinode.ofBlock (buf (sb.iblock i)) (i % IPB) else Dinode.zero
  used b := if b < sb.size then (buf (sb.bblock b)).bit (b % BPB) else false
  data b := if sb.dataStart ≤ b ∧ b < sb.size then buf b else Bytes.zero

@[simps -fullyApplied] def setInode (F : Fs) (i : Nat) (d : Dinode) : Fs :=
  { F with inode := upd F.inode i d }

@[simps -fullyApplied] def setUsed (F : Fs) (b : Nat) (used : Bool) : Fs :=
  { F with used := upd F.used b used }

@[simps -fullyApplied] def setData (F : Fs) (b : Nat) (data : Block) : Fs :=
  { F with data := upd F.data b data }

theorem setInode_self {F : Fs} {i : Nat} {d : Dinode} (same : F.inode i = d) :
    F.setInode i d = F := by
  unfold setInode
  rw [← same, upd_eq_self]

@[simp] theorem setInode_setInode (F : Fs) (i : Nat) (d d' : Dinode) :
    (F.setInode i d).setInode i d' = F.setInode i d' := by
  unfold setInode
  rw [upd_idem]

end Fs

namespace Superblock

variable {sb : Superblock}

theorem dataStart_pos (sb : Superblock) : 0 < sb.dataStart := Nat.succ_pos _

theorem Wf.iblock_lt (wf : sb.Wf) {i : Nat} (low : i < sb.ninodes) :
    sb.inodestart ≤ sb.iblock i ∧ sb.iblock i < sb.bmapstart := by
  have bitmap : sb.inodestart + (sb.ninodes - 1) / 16 + 1 ≤ sb.bmapstart := wf.bitmap
  show sb.inodestart ≤ i / 16 + sb.inodestart ∧ i / 16 + sb.inodestart < sb.bmapstart
  omega

theorem Wf.bblock_lt (_ : sb.Wf) {b : Nat} (low : b < sb.size) :
    sb.bmapstart ≤ sb.bblock b ∧ sb.bblock b < sb.dataStart := by
  show sb.bmapstart ≤ b / 8192 + sb.bmapstart ∧
    b / 8192 + sb.bmapstart < sb.bmapstart + sb.size / 8192 + 1
  omega

theorem Wf.areas (wf : sb.Wf) : sb.logstart + sb.nlog ≤ sb.inodestart ∧
    sb.inodestart < sb.bmapstart ∧ sb.bmapstart < sb.dataStart := by
  have bitmap : sb.inodestart + (sb.ninodes - 1) / 16 + 1 ≤ sb.bmapstart := wf.bitmap
  refine ⟨wf.inodes, by omega, ?_⟩
  show sb.bmapstart < sb.bmapstart + sb.size / 8192 + 1
  omega

end Superblock

namespace Fs

variable {sb : Superblock} {buf : Nat → Block}

theorem ofBuf_inode {i : Nat} (low : i < sb.ninodes) :
    (ofBuf sb buf).inode i = Dinode.ofBlock (buf (sb.iblock i)) (i % IPB) := if_pos low

variable {b : Nat}

theorem ofBuf_used (low : b < sb.size) : (ofBuf sb buf).used b = (buf (sb.bblock b)).bit (b % BPB) := if_pos low

theorem ofBuf_data (low : sb.dataStart ≤ b) (high : b < sb.size) : (ofBuf sb buf).data b = buf b := if_pos ⟨low, high⟩

variable {buf' : Nat → Block}

theorem ofBuf_inode_congr {i : Nat}
    (same : i < sb.ninodes → buf' (sb.iblock i) = buf (sb.iblock i)) :
    (ofBuf sb buf').inode i = (ofBuf sb buf).inode i := by
  show (if i < sb.ninodes then _ else _) = (if i < sb.ninodes then _ else _)
  split
  · rename_i low
    rw [same low]
  rfl

theorem ofBuf_used_congr (same : b < sb.size → buf' (sb.bblock b) = buf (sb.bblock b)) :
    (ofBuf sb buf').used b = (ofBuf sb buf).used b := by
  show (if b < sb.size then _ else _) = (if b < sb.size then _ else _)
  split
  · rename_i low
    rw [same low]
  rfl

theorem ofBuf_data_congr (same : sb.dataStart ≤ b → b < sb.size → buf' b = buf b) :
    (ofBuf sb buf').data b = (ofBuf sb buf).data b := by
  show (if sb.dataStart ≤ b ∧ b < sb.size then _ else _) =
    (if sb.dataStart ≤ b ∧ b < sb.size then _ else _)
  split
  · rename_i inside
    exact same inside.1 inside.2
  rfl

section

variable (wf : sb.Wf)
include wf

theorem ofBuf_store {i : Nat} {d : Dinode} (low : i < sb.ninodes) (range : d.InRange) :
    ofBuf sb (upd buf (sb.iblock i) (d.store (buf (sb.iblock i)) (i % IPB))) =
      (ofBuf sb buf).setInode i d := by
  have area := wf.iblock_lt low
  have areas := wf.areas
  ext1
  case inode =>
    funext j
    by_cases eq : j = i
    · rw [eq, ofBuf_inode low, upd_self, setInode_inode, upd_self]
      exact Dinode.ofBlock_store_self range _ (Nat.mod_lt _ (by decide))
    rw [setInode_inode, upd_ne eq]
    by_cases same : sb.iblock j = sb.iblock i
    · -- two inodes of one block are at different places in it
      have index : i % IPB ≠ j % IPB := by
        change j / 16 + sb.inodestart = i / 16 + sb.inodestart at same
        show i % 16 ≠ j % 16
        omega
      show (if j < sb.ninodes then _ else _) = (if j < sb.ninodes then _ else _)
      rw [same, upd_self, Dinode.ofBlock_store_of_ne _ _ index]
    exact ofBuf_inode_congr fun _ => upd_ne same _ _
  case used =>
    funext b
    exact ofBuf_used_congr fun inside =>
      have other := wf.bblock_lt inside
      upd_ne (by omega) _ _
  case data =>
    funext b
    exact ofBuf_data_congr fun inside _ => upd_ne (by omega) _ _

theorem ofBuf_bit {x : Block} {bit : Bool} (low : b < sb.size)
    (change : ∀ j, j < BPB → x.bit j = if j = b % BPB then bit else (buf (sb.bblock b)).bit j) :
    ofBuf sb (upd buf (sb.bblock b) x) = (ofBuf sb buf).setUsed b bit := by
  have area := wf.bblock_lt low
  ext1
  case inode =>
    funext i
    exact ofBuf_inode_congr fun inside =>
      have other := wf.iblock_lt inside
      upd_ne (by omega) _ _
  case used =>
    funext c
    by_cases eq : c = b
    · rw [eq, ofBuf_used low, upd_self, setUsed_used, upd_self,
        change _ (Nat.mod_lt _ (by decide)), if_pos rfl]
    rw [setUsed_used, upd_ne eq]
    by_cases same : sb.bblock c = sb.bblock b
    · have index : c % BPB ≠ b % BPB := by
        change c / 8192 + sb.bmapstart = b / 8192 + sb.bmapstart at same
        show c % 8192 ≠ b % 8192
        omega
      show (if c < sb.size then _ else _) = (if c < sb.size then _ else _)
      rw [same, upd_self, change _ (Nat.mod_lt _ (by decide)), if_neg index]
    exact ofBuf_used_congr fun _ => upd_ne same _ _
  case data =>
    funext c
    exact ofBuf_data_congr fun inside _ => upd_ne (by omega) _ _

theorem ofBuf_setBit (low : b < sb.size) :
    ofBuf sb (upd buf (sb.bblock b) ((buf (sb.bblock b)).setBit (b % BPB))) =
      (ofBuf sb buf).setUsed b true := by
  have inside : b % BPB / 8 < BSIZE := show b % 8192 / 8 < 1024 by omega
  refine ofBuf_bit wf low fun j _ => ?_
  rw [Bytes.bit_setBit inside]
  by_cases eq : j = b % BPB <;> simp [eq]

theorem ofBuf_clearBit (low : b < sb.size) :
    ofBuf sb (upd buf (sb.bblock b) ((buf (sb.bblock b)).clearBit (b % BPB))) =
      (ofBuf sb buf).setUsed b false := by
  have inside : b % BPB / 8 < BSIZE := show b % 8192 / 8 < 1024 by omega
  refine ofBuf_bit wf low fun j _ => ?_
  rw [Bytes.bit_clearBit inside]
  by_cases eq : j = b % BPB <;> simp [eq]

theorem ofBuf_setData {x : Block} (low : sb.dataStart ≤ b) (high : b < sb.size) :
    ofBuf sb (upd buf b x) = (ofBuf sb buf).setData b x := by
  have areas := wf.areas
  ext1
  case inode =>
    funext i
    exact ofBuf_inode_congr fun inside =>
      have other := wf.iblock_lt inside
      upd_ne (by omega) _ _
  case used =>
    funext c
    exact ofBuf_used_congr fun inside =>
      have other := wf.bblock_lt inside
      upd_ne (by omega) _ _
  case data =>
    funext c
    by_cases eq : c = b
    · rw [eq, ofBuf_data low high, upd_self, setData_data, upd_self]
    rw [setData_data, upd_ne eq]
    exact ofBuf_data_congr fun _ _ => upd_ne eq _ _

theorem ofBuf_congr (same : ∀ b, sb.inodestart ≤ b → b < sb.size → buf' b = buf b) :
    ofBuf sb buf' = ofBuf sb buf := by
  have areas := wf.areas
  have data := wf.data
  ext1
  case inode =>
    funext i
    exact ofBuf_inode_congr fun inside =>
      have other := wf.iblock_lt inside
      same _ other.1 (by omega)
  case used =>
    funext c
    exact ofBuf_used_congr fun inside =>
      have other := wf.bblock_lt inside
      same _ (by omega) (by omega)
  case data =>
    funext c
    exact ofBuf_data_congr fun low high => same _ (by omega) high

end

theorem ofBuf_inRange (i : Nat) : ((ofBuf sb buf).inode i).InRange := by
  show Dinode.InRange (if i < sb.ninodes then _ else _)
  split
  · exact Dinode.ofBlock_inRange _ _
  exact Dinode.zero_inRange

end Fs

end Xv6
