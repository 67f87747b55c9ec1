import Xv6.Fs.View

/-!
# Who owns which block, and what a file holds

A data block belongs to the one slot of the one inode that names it: `Owned`.
Blocks between the allocator and an inode belong to nobody and are kept in the
set `S`. What an inode is for the rest of the kernel, its `node`, does not show
where its blocks lie, and a block that is missing reads as zeros; allocation and
attaching of blocks are then invisible.
-/

namespace Xv6

open Function renaming update_self → upd_self, update_of_ne → upd_ne

/-- A place that can hold the number of a data block: an address of the inode or an
entry of its indirect block. -/
inductive Slot
  | addr (j : Nat)
  | entry (j : Nat)
  deriving DecidableEq

def Slot.block (bn : Nat) : Slot := if bn < NDIRECT then .addr bn else .entry (bn - NDIRECT)

theorem Slot.block_inj {bn bn' : Nat} (same : Slot.block bn = Slot.block bn') : bn = bn' := by
  unfold block at same
  split at same <;> split at same
  · exact Slot.addr.inj same
  · cases same
  · cases same
  have index := Slot.entry.inj same
  omega

theorem Slot.block_ne_indirect (bn : Nat) : Slot.block bn ≠ .addr NDIRECT := by
  unfold block
  split
  · rename_i direct
    intro same
    have index := Slot.addr.inj same
    omega
  nofun

/-- What the rest of the kernel sees of an inode. -/
@[ext] structure Node where
  type : Nat
  major : Nat
  minor : Nat
  nlink : Nat
  size : Nat
  byte : Nat → UInt8

/-- An inode that is not in use. -/
def Node.free : Node := ⟨0, 0, 0, 0, 0, fun _ => 0⟩

namespace Fs

/-- The block number in slot `s` of inode `i`; an inode that is free has none. -/
def ref (F : Fs) (i : Nat) : Slot → Nat
  | .addr j => if (F.inode i).type = 0 then 0 else (F.inode i).addr j
  | .entry j =>
    if (F.inode i).type = 0 ∨ (F.inode i).addr NDIRECT = 0 then 0
    else (F.data ((F.inode i).addr NDIRECT)).u32 (4 * j)

/-- The contents of block `bn` of inode `i`. -/
def block (F : Fs) (i bn : Nat) : Block :=
  if F.ref i (.block bn) = 0 then Bytes.zero else F.data (F.ref i (.block bn))

def node (F : Fs) (i : Nat) : Node :=
  if (F.inode i).type = 0 then Node.free
  else
    { type := (F.inode i).type
      major := (F.inode i).major
      minor := (F.inode i).minor
      nlink := (F.inode i).nlink
      size := (F.inode i).size
      byte o := (F.block i (o / BSIZE)).byte (o % BSIZE) }

/-- No block below the size of a file is missing. -/
def NoHoles (F : Fs) : Prop :=
  ∀ i bn, bn * BSIZE < (F.node i).size → F.ref i (.block bn) ≠ 0

/-- Each block that a slot names is named by one slot of one inode and lies in the
data area. The bits that are set are those of the blocks before the data area, of
the blocks in `S` and of the blocks that some slot names. -/
structure Owned (sb : Superblock) (S : Set Nat) (F : Fs) : Prop where
  distinct : ∀ {i s i' s'}, F.ref i s ≠ 0 → F.ref i s = F.ref i' s' → i = i' ∧ s = s'
  area : ∀ {i s}, F.ref i s ≠ 0 → sb.dataStart ≤ F.ref i s ∧ F.ref i s < sb.size
  used : ∀ {b}, b < sb.size → (F.used b = true ↔ b < sb.dataStart ∨ b ∈ S ∨ ∃ i s, F.ref i s = b)
  spare : ∀ {b}, b ∈ S → sb.dataStart ≤ b ∧ b < sb.size ∧ ∀ i s, F.ref i s ≠ b

section Slots

variable {F F' : Fs} {i : Nat}

theorem ref_of_free (free : (F.inode i).type = 0) (s : Slot) : F.ref i s = 0 := by
  cases s with
  | addr j => exact if_pos free
  | entry j => exact if_pos (.inl free)

theorem ref_addr (alloc : (F.inode i).type ≠ 0) (j : Nat) : F.ref i (.addr j) = (F.inode i).addr j := if_neg alloc

theorem ref_entry (alloc : (F.inode i).type ≠ 0) (indirect : (F.inode i).addr NDIRECT ≠ 0)
    (j : Nat) :
    F.ref i (.entry j) = (F.data ((F.inode i).addr NDIRECT)).u32 (4 * j) :=
  if_neg (not_or.mpr ⟨alloc, indirect⟩)

theorem ref_entry_of_zero (none : (F.inode i).addr NDIRECT = 0) (j : Nat) :
    F.ref i (.entry j) = 0 := if_pos (.inr none)

theorem addr_le_of_ref {j : Nat} (named : F.ref i (.addr j) ≠ 0) : j ≤ NDIRECT := by
  by_contra past
  refine named ?_
  by_cases free : (F.inode i).type = 0
  · exact if_pos free
  refine (if_neg free).trans (dif_neg ?_)
  omega

theorem entry_lt_of_ref {j : Nat} (named : F.ref i (.entry j) ≠ 0) : j < NINDIRECT := by
  by_contra past
  refine named ?_
  by_cases none : (F.inode i).type = 0 ∨ (F.inode i).addr NDIRECT = 0
  · exact if_pos none
  refine (if_neg none).trans (Bytes.u32_past ?_)
  have low : 256 ≤ j := Nat.not_lt.mp past
  show 1024 ≤ 4 * j
  omega

theorem alloc_of_ref {s : Slot} (named : F.ref i s ≠ 0) : (F.inode i).type ≠ 0 :=
  fun free => named (ref_of_free free s)

theorem ref_congr (type : (F'.inode i).type = 0 ↔ (F.inode i).type = 0)
    (addrs : (F'.inode i).addrs = (F.inode i).addrs)
    (data : F.ref i (.addr NDIRECT) ≠ 0 →
      F'.data (F.ref i (.addr NDIRECT)) = F.data (F.ref i (.addr NDIRECT))) (s : Slot) :
    F'.ref i s = F.ref i s := by
  have addr : ∀ j, (F'.inode i).addr j = (F.inode i).addr j := by
    intro j
    unfold Dinode.addr
    rw [addrs]
  by_cases free : (F.inode i).type = 0
  · rw [ref_of_free free, ref_of_free (type.mpr free)]
  have alloc : ¬ (F'.inode i).type = 0 := fun h => free (type.mp h)
  cases s with
  | addr j => rw [ref_addr free, ref_addr alloc, addr]
  | entry j =>
    by_cases none : (F.inode i).addr NDIRECT = 0
    · rw [ref_entry_of_zero none, ref_entry_of_zero ((addr _).trans none)]
    rw [ref_addr free] at data
    rw [ref_entry free none, ref_entry alloc (by rwa [addr]), addr, data none]

theorem block_congr {bn : Nat} (ref : F'.ref i (.block bn) = F.ref i (.block bn))
    (data : F.ref i (.block bn) ≠ 0 → F'.data (F.ref i (.block bn)) =
      F.data (F.ref i (.block bn))) :
    F'.block i bn = F.block i bn := by
  unfold block
  rw [ref]
  split
  · rfl
  rename_i named
  exact data named

theorem node_of_free (free : (F.inode i).type = 0) : F.node i = Node.free := if_pos free

theorem node_of_alloc (alloc : (F.inode i).type ≠ 0) : F.node i =
    { type := (F.inode i).type
      major := (F.inode i).major
      minor := (F.inode i).minor
      nlink := (F.inode i).nlink
      size := (F.inode i).size
      byte := fun o => (F.block i (o / BSIZE)).byte (o % BSIZE) } := if_neg alloc

@[simp] theorem node_type (F : Fs) (i : Nat) : (F.node i).type = (F.inode i).type := by
  unfold node
  split
  · rename_i free
    exact free.symm
  rfl

theorem node_congr (type : (F'.inode i).type = (F.inode i).type)
    (major : (F'.inode i).major = (F.inode i).major)
    (minor : (F'.inode i).minor = (F.inode i).minor)
    (nlink : (F'.inode i).nlink = (F.inode i).nlink) (size : (F'.inode i).size = (F.inode i).size)
    (block : ∀ bn, F'.block i bn = F.block i bn) : F'.node i = F.node i := by
  unfold node
  rw [type, major, minor, nlink, size, funext block]

theorem node_congr_of_inode (inode : F'.inode i = F.inode i)
    (block : ∀ bn, F'.block i bn = F.block i bn) : F'.node i = F.node i :=
  node_congr (by rw [inode]) (by rw [inode]) (by rw [inode]) (by rw [inode]) (by rw [inode]) block

end Slots

/-! ## Changes of ownership -/

section Changes

variable {sb : Superblock} {S : Set Nat} {F F' : Fs} {i b : Nat} {s : Slot}

section

variable (own : Owned sb S F)
include own

theorem Owned.congr (ref : ∀ i s, F'.ref i s = F.ref i s)
    (used : F'.used = F.used) : Owned sb S F' where
  distinct := by
    intro i s i' s'
    rw [ref, ref]
    exact own.distinct
  area := by
    intro i s
    rw [ref]
    exact own.area
  used := by
    intro b low
    simp only [ref, used]
    exact own.used low
  spare := by
    intro b mem
    simp only [ref]
    exact own.spare mem

theorem Owned.not_ref (low : b < sb.size) (free : F.used b = false) :
    sb.dataStart ≤ b ∧ b ∉ S ∧ ∀ i s, F.ref i s ≠ b := by
  have absent := (own.used low).not.mp (by simp [free])
  simp only [not_or, not_lt, not_exists] at absent
  exact absent

theorem Owned.used_of_ref (named : F.ref i s ≠ 0) : F.used (F.ref i s) = true :=
  (own.used (own.area named).2).mpr (.inr (.inr ⟨i, s, rfl⟩))

theorem Owned.claim (low : b < sb.size) (free : F.used b = false) :
    Owned sb (insert b S) (F.setUsed b true) := by
  obtain ⟨inside, -, unnamed⟩ := own.not_ref low free
  refine ⟨own.distinct, own.area, fun {c} lowC => ?_, fun {c} mem => ?_⟩
  · by_cases eq : c = b
    · subst eq
      simp
    rw [setUsed_used, upd_ne eq, own.used lowC, Set.mem_insert_iff]
    simp only [eq, false_or]
    rfl
  rcases Set.mem_insert_iff.mp mem with rfl | mem
  · exact ⟨inside, low, unnamed⟩
  exact own.spare mem

/-- Give a block back to the bitmap. -/
theorem Owned.release (mem : b ∈ S) : Owned sb (S \ {b}) (F.setUsed b false) := by
  obtain ⟨inside, low, unnamed⟩ := own.spare mem
  refine ⟨own.distinct, own.area, fun {c} lowC => ?_, fun {c} memC => own.spare memC.1⟩
  by_cases eq : c = b
  · subst eq
    have refs : ¬ ∃ i s, (F.setUsed c false).ref i s = c := fun ⟨i, s, named⟩ => unnamed i s named
    simp [refs, inside]
  rw [setUsed_used, upd_ne eq, own.used lowC, Set.mem_sdiff, Set.mem_singleton_iff]
  simp only [eq, not_false_eq_true, and_true]
  rfl

theorem Owned.attach (mem : b ∈ S) (empty : F.ref i s = 0)
    (ref : ∀ i' s', F'.ref i' s' = if i' = i ∧ s' = s then b else F.ref i' s')
    (used : F'.used = F.used) : Owned sb (S \ {b}) F' := by
  obtain ⟨inside, low, unnamed⟩ := own.spare mem
  have other : ∀ i' s', F'.ref i' s' ≠ 0 → (i' = i ∧ s' = s ∧ F'.ref i' s' = b) ∨
      (F'.ref i' s' = F.ref i' s' ∧ F'.ref i' s' ≠ b) := by
    intro i' s' named
    by_cases here : i' = i ∧ s' = s
    · exact .inl ⟨here.1, here.2, by rw [ref, if_pos here]⟩
    refine .inr ?_
    rw [ref, if_neg here]
    exact ⟨rfl, unnamed i' s'⟩
  refine ⟨fun {i₁ s₁ i₂ s₂} named same => ?_, fun {i₁ s₁} named => ?_, fun {c} lowC => ?_,
    fun {c} memC => ?_⟩
  · rcases other i₁ s₁ named with ⟨rfl, rfl, here₁⟩ | ⟨old₁, ne₁⟩
    · rcases other i₂ s₂ (same ▸ named) with ⟨rfl, rfl, -⟩ | ⟨-, ne₂⟩
      · exact ⟨rfl, rfl⟩
      exact absurd (same ▸ here₁) ne₂
    rcases other i₂ s₂ (same ▸ named) with ⟨-, -, here₂⟩ | ⟨old₂, -⟩
    · exact absurd (same.trans here₂) ne₁
    exact own.distinct (old₁ ▸ named) (by rw [← old₁, ← old₂, same])
  · rcases other i₁ s₁ named with ⟨-, -, here⟩ | ⟨old, -⟩
    · rw [here]
      exact ⟨inside, low⟩
    rw [old]
    exact own.area (old ▸ named)
  · rw [used, own.used lowC]
    by_cases eq : c = b
    · subst eq
      have here : F'.ref i s = c := by rw [ref, if_pos ⟨rfl, rfl⟩]
      simp only [mem, true_or, or_true, true_iff]
      exact .inr (.inr ⟨i, s, here⟩)
    have refs : (c < sb.dataStart ∨ ∃ i s, F'.ref i s = c) ↔
        (c < sb.dataStart ∨ ∃ i s, F.ref i s = c) := by
      refine or_congr_right' fun data => ⟨?_, ?_⟩
      · rintro ⟨i', s', named⟩
        refine ⟨i', s', ?_⟩
        rw [ref] at named
        split at named
        · exact absurd named.symm eq
        exact named
      rintro ⟨i', s', named⟩
      refine ⟨i', s', ?_⟩
      rw [ref, if_neg, named]
      -- the empty slot names block 0, which is before the data area
      rintro ⟨rfl, rfl⟩
      exact data (by rw [← named, empty]; exact sb.dataStart_pos)
    simp only [Set.mem_sdiff, Set.mem_singleton_iff, eq, not_false_eq_true, and_true]
    rw [or_left_comm, ← refs, or_left_comm]
  refine ⟨(own.spare memC.1).1, (own.spare memC.1).2.1, fun i' s' named => ?_⟩
  rw [ref] at named
  split at named
  · exact memC.2 named.symm
  exact (own.spare memC.1).2.2 i' s' named

theorem Owned.detach
    (ref : ∀ i' s', F'.ref i' s' = if i' = i then 0 else F.ref i' s') (used : F'.used = F.used) :
    Owned sb (S ∪ {b | b ≠ 0 ∧ ∃ s, F.ref i s = b}) F' := by
  have other : ∀ i' s', F'.ref i' s' ≠ 0 → i' ≠ i ∧ F'.ref i' s' = F.ref i' s' := by
    intro i' s' named
    rw [ref] at named ⊢
    split at named
    · exact absurd rfl named
    rename_i ne
    exact ⟨ne, if_neg ne⟩
  refine ⟨fun {i₁ s₁ i₂ s₂} named same => ?_, fun {i₁ s₁} named => ?_, fun {c} lowC => ?_,
    fun {c} memC => ?_⟩
  · have old₁ := (other i₁ s₁ named).2
    have old₂ := (other i₂ s₂ (same ▸ named)).2
    exact own.distinct (old₁ ▸ named) (by rw [← old₁, ← old₂, same])
  · have old := (other i₁ s₁ named).2
    rw [old]
    exact own.area (old ▸ named)
  · rw [used, own.used lowC]
    by_cases data : c < sb.dataStart
    · simp [data]
    have positive : c ≠ 0 := fun eq => data (eq ▸ sb.dataStart_pos)
    simp only [data, false_or, Set.mem_union, Set.mem_ofPred_eq, or_assoc]
    refine or_congr_right ⟨?_, ?_⟩
    · rintro ⟨i', s', named⟩
      by_cases here : i' = i
      · exact .inl ⟨positive, s', here ▸ named⟩
      exact .inr ⟨i', s', by rw [ref, if_neg here, named]⟩
    rintro (⟨-, s', named⟩ | ⟨i', s', named⟩)
    · exact ⟨i, s', named⟩
    exact ⟨i', s', by rw [← (other i' s' (named ▸ positive)).2, named]⟩
  rcases memC with mem | ⟨positive, s', rfl⟩
  · obtain ⟨inside, low, unnamed⟩ := own.spare mem
    refine ⟨inside, low, fun i' s' named => ?_⟩
    have positive : c ≠ 0 := fun eq => absurd inside (by rw [eq]; exact not_le.mpr sb.dataStart_pos)
    exact unnamed i' s' (by rw [← (other i' s' (named ▸ positive)).2, named])
  refine ⟨(own.area positive).1, (own.area positive).2, fun i' s'' named => ?_⟩
  obtain ⟨ne, old⟩ := other i' s'' (named ▸ positive)
  exact ne (own.distinct (old ▸ named ▸ positive) (old ▸ named)).1

end

/-! ## Where the slots change -/

theorem ref_setUsed (F : Fs) (b : Nat) (used : Bool) (i : Nat) (s : Slot) :
    (F.setUsed b used).ref i s = F.ref i s := by
  cases s <;> rfl

theorem ref_setInode_of_ne {d : Dinode} {i' : Nat} (ne : i' ≠ i) (s : Slot) :
    (F.setInode i d).ref i' s = F.ref i' s := by
  have inode : (F.setInode i d).inode i' = F.inode i' := upd_ne ne _ _
  refine ref_congr ?_ ?_ ?_ s
  · rw [inode]
  · rw [inode]
  exact fun _ => rfl

theorem ref_setData {x : Block}
    (other : ∀ i, F.ref i (.addr NDIRECT) ≠ 0 → F.ref i (.addr NDIRECT) ≠ b) (i : Nat) (s : Slot) :
    (F.setData b x).ref i s = F.ref i s := by
  refine ref_congr ?_ ?_ ?_ s
  · exact Iff.rfl
  · rfl
  exact fun indirect => upd_ne (other i indirect) _ _

theorem ref_setAddr {j : Nat} (alloc : (F.inode i).type ≠ 0) (bound : j < NDIRECT + 1)
    (empty : F.ref i (.addr j) = 0) (zeroed : F.data b = Bytes.zero) (i' : Nat) (s' : Slot) :
    (F.setInode i ((F.inode i).setAddr j b)).ref i' s' =
      if i' = i ∧ s' = .addr j then b else F.ref i' s' := by
  by_cases here : i' = i
  swap
  · rw [if_neg fun h => here h.1, ref_setInode_of_ne here]
  subst here
  have inode : (F.setInode i' ((F.inode i').setAddr j b)).inode i' = (F.inode i').setAddr j b :=
    upd_self ..
  have type : ((F.setInode i' ((F.inode i').setAddr j b)).inode i').type ≠ 0 := by
    rw [inode]
    exact alloc
  have addr : ∀ j', ((F.inode i').setAddr j b).addr j' = if j' =
      j then b else (F.inode i').addr j' := by
    intro j'
    unfold Dinode.addr Dinode.setAddr
    by_cases eq : j' = j
    · subst eq
      simp [bound]
    by_cases inside : j' < NDIRECT + 1 <;> simp [inside, eq]
  rw [ref_addr alloc] at empty
  cases s' with
  | addr j' =>
    rw [ref_addr type, ref_addr alloc, inode, addr]
    simp
  | entry j' =>
    simp only [reduceCtorEq, and_false, if_false]
    by_cases indirect : j = NDIRECT
    · subst indirect
      rw [ref_entry_of_zero empty]
      by_cases zero : b = 0
      · rw [ref_entry_of_zero]
        rw [inode, addr, if_pos rfl, zero]
      rw [ref_entry type, inode, addr, if_pos rfl]
      · show (F.data b).u32 _ = 0
        rw [zeroed, Bytes.u32_zero]
      rwa [inode, addr, if_pos rfl]
    by_cases none : (F.inode i').addr NDIRECT = 0
    · rw [ref_entry_of_zero none, ref_entry_of_zero]
      rwa [inode, addr, if_neg (Ne.symm indirect)]
    rw [ref_entry type, ref_entry alloc none, inode, addr, if_neg (Ne.symm indirect)]
    · rfl
    rwa [inode, addr, if_neg (Ne.symm indirect)]

theorem Owned.ref_setU32 (own : Owned sb S F) {a j : Nat} (indirect : F.ref i (.addr NDIRECT) = a)
    (named : a ≠ 0) (bound : j < NINDIRECT) (word : b < 4294967296) (i' : Nat) (s' : Slot) :
    (F.setData a ((F.data a).setU32 (4 * j) b)).ref i' s' =
      if i' = i ∧ s' = .entry j then b else F.ref i' s' := by
  by_cases here : i' = i
  swap
  · rw [if_neg fun h => here h.1]
    refine ref_congr ?_ ?_ ?_ s'
    · exact Iff.rfl
    · rfl
    intro other
    refine upd_ne (fun same => ?_) _ _
    exact here (own.distinct other (same.trans indirect.symm)).1
  subst here
  have alloc := alloc_of_ref (indirect ▸ named : F.ref i' (.addr NDIRECT) ≠ 0)
  have addr := ref_addr alloc NDIRECT
  rw [indirect] at addr
  cases s' with
  | addr j' =>
    simp only [reduceCtorEq, and_false, if_false]
    rfl
  | entry j' =>
    have room : 4 * j + 4 ≤ BSIZE := by
      have small : j < 256 := bound
      simp only [BSIZE]
      omega
    have entry := ref_entry (F := F.setData a ((F.data a).setU32 (4 * j) b)) (i := i') alloc
      (addr ▸ named) j'
    have old := ref_entry alloc (addr ▸ named) j'
    rw [setData_inode, setData_data, ← addr, upd_self] at entry
    rw [← addr] at old
    rw [entry]
    by_cases eq : j' = j
    · subst eq
      rw [if_pos ⟨rfl, rfl⟩, Bytes.u32_setU32 room, Nat.mod_eq_of_lt word]
    rw [if_neg fun h => eq (Slot.entry.inj h.2), old, Bytes.u32_setU32_ne (by omega)]

end Changes

/-! ## Where the contents change -/

section Contents

variable {sb : Superblock} {S : Set Nat} {F F' : Fs} {i b : Nat} {s : Slot}

theorem node_setUsed (F : Fs) (b : Nat) (used : Bool) : (F.setUsed b used).node = F.node := by
  funext i
  refine node_congr_of_inode rfl fun bn => block_congr (ref_setUsed F b used i _) fun _ => rfl

theorem node_setData_of_unnamed {x : Block} (unnamed : ∀ i s, F.ref i s ≠ b) :
    (F.setData b x).node = F.node := by
  funext i
  refine node_congr_of_inode rfl fun bn => block_congr ?_ fun _ => ?_
  · exact ref_setData (fun i _ => unnamed i _) i _
  exact upd_ne (unnamed i _) _ _

theorem block_attach (empty : F.ref i s = 0)
    (ref : ∀ i' s', F'.ref i' s' = if i' = i ∧ s' = s then b else F.ref i' s')
    (zeroed : F'.data b = Bytes.zero)
    (data : ∀ i' bn, F.ref i' (.block bn) ≠ 0 →
      F'.data (F.ref i' (.block bn)) = F.data (F.ref i' (.block bn))) (i' bn : Nat) :
    F'.block i' bn = F.block i' bn := by
  by_cases here : i' = i ∧ Slot.block bn = s
  · obtain ⟨rfl, rfl⟩ := here
    have now : F'.ref i' (.block bn) = b := by rw [ref, if_pos ⟨rfl, rfl⟩]
    unfold block
    rw [now, if_pos empty, zeroed, ite_self]
  exact block_congr (by rw [ref, if_neg here]) (data i' bn)

theorem node_setAddr {j : Nat} (alloc : (F.inode i).type ≠ 0) (bound : j < NDIRECT + 1)
    (empty : F.ref i (.addr j) = 0) (zeroed : F.data b = Bytes.zero) :
    (F.setInode i ((F.inode i).setAddr j b)).node = F.node := by
  funext i'
  have block : ∀ bn, (F.setInode i ((F.inode i).setAddr j b)).block i' bn = F.block i' bn :=
    block_attach empty (ref_setAddr alloc bound empty zeroed) zeroed (fun _ _ _ => rfl) i'
  by_cases here : i' = i
  · subst here
    have inode : (F.setInode i' ((F.inode i').setAddr j b)).inode i' = (F.inode i').setAddr j b :=
      upd_self ..
    refine node_congr ?_ ?_ ?_ ?_ ?_ block <;> rw [inode] <;> rfl
  exact node_congr_of_inode (upd_ne here _ _) block

theorem Owned.node_setU32 (own : Owned sb S F) {a j : Nat} (indirect : F.ref i (.addr NDIRECT) = a)
    (named : a ≠ 0) (bound : j < NINDIRECT) (word : b < 4294967296) (apart : b ≠ a)
    (empty : F.ref i (.entry j) = 0) (zeroed : F.data b = Bytes.zero) :
    (F.setData a ((F.data a).setU32 (4 * j) b)).node = F.node := by
  funext i'
  refine node_congr_of_inode rfl ?_
  refine block_attach empty (own.ref_setU32 indirect named bound word) ?_ ?_ i'
  · exact (upd_ne apart _ _).trans zeroed
  intro i₁ bn other
  refine upd_ne (fun same => ?_) _ _
  exact Slot.block_ne_indirect bn (own.distinct other (same.trans indirect.symm)).2

theorem Owned.not_indirect (own : Owned sb S F) {bn : Nat} (here : F.ref i (.block bn) = b)
    (i' : Nat) (indirect : F.ref i' (.addr NDIRECT) ≠ 0) : F.ref i' (.addr NDIRECT) ≠ b := by
  intro same
  exact Slot.block_ne_indirect bn (own.distinct indirect (same.trans here.symm)).2.symm

theorem Owned.block_setData (own : Owned sb S F) {bn : Nat} {x : Block}
    (here : F.ref i (.block bn) = b) (named : b ≠ 0) (i' bn' : Nat) :
    (F.setData b x).block i' bn' = if i' = i ∧ bn' = bn then x else F.block i' bn' := by
  have ref := ref_setData (x := x) (own.not_indirect here) i' (.block bn')
  by_cases eq : i' = i ∧ bn' = bn
  · obtain ⟨rfl, rfl⟩ := eq
    unfold block
    rw [ref, here, if_neg named, if_pos ⟨rfl, rfl⟩, setData_data, upd_self]
  rw [if_neg eq]
  refine block_congr ref fun other => upd_ne (fun same => eq ?_) _ _
  obtain ⟨inode, slot⟩ := own.distinct other (same.trans here.symm)
  exact ⟨inode, Slot.block_inj slot⟩

/-- Blocks were added where some were missing; nothing else changed. -/
structure Grows (F F' : Fs) : Prop where
  node : F'.node = F.node
  ref : ∀ {i s}, F.ref i s ≠ 0 → F'.ref i s = F.ref i s

theorem Grows.refl (F : Fs) : Grows F F := ⟨rfl, fun _ => rfl⟩

theorem Grows.trans {F'' : Fs} (first : Grows F F') (second : Grows F' F'') : Grows F F'' where
  node := second.node.trans first.node
  ref named := (second.ref ((first.ref named).symm ▸ named)).trans (first.ref named)

theorem Grows.of_attach (node : F'.node = F.node) (empty : F.ref i s = 0)
    (ref : ∀ i' s', F'.ref i' s' = if i' = i ∧ s' = s then b else F.ref i' s') : Grows F F' := by
  refine ⟨node, fun {i' s'} named => ?_⟩
  rw [ref, if_neg]
  rintro ⟨rfl, rfl⟩
  exact named empty

theorem Grows.noHoles (grows : Grows F F') (noHoles : NoHoles F) : NoHoles F' := by
  intro i bn below
  rw [grows.node] at below
  have named := noHoles i bn below
  rwa [grows.ref named]

/-- The contents of inode `i` changed below its size or blocks were added to it. -/
structure Rewrites (i : Nat) (F F' : Fs) : Prop where
  other : ∀ {j}, j ≠ i → F'.node j = F.node j
  same : F'.node i = { F.node i with byte := (F'.node i).byte }
  ref : ∀ {j s}, F.ref j s ≠ 0 → F'.ref j s = F.ref j s

theorem Grows.rewrites (grows : Grows F F') (i : Nat) : Rewrites i F F' where
  other _ := by rw [grows.node]
  same := by rw [grows.node]
  ref := grows.ref

theorem Rewrites.trans {F'' : Fs} (first : Rewrites i F F') (second : Rewrites i F' F'') : Rewrites i F F'' where
  other ne := (second.other ne).trans (first.other ne)
  same := by rw [second.same, first.same]
  ref named := (second.ref ((first.ref named).symm ▸ named)).trans (first.ref named)

theorem Rewrites.size (rewrites : Rewrites i F F') (j : Nat) :
    (F'.node j).size = (F.node j).size := by
  by_cases eq : j = i
  · rw [eq, rewrites.same]
  rw [rewrites.other eq]

theorem Rewrites.type (rewrites : Rewrites i F F') (j : Nat) :
    (F'.node j).type = (F.node j).type := by
  by_cases eq : j = i
  · rw [eq, rewrites.same]
  rw [rewrites.other eq]

theorem Rewrites.noHoles (rewrites : Rewrites i F F') (noHoles : NoHoles F) : NoHoles F' := by
  intro j bn below
  rw [rewrites.size] at below
  have named := noHoles j bn below
  rwa [rewrites.ref named]

theorem Owned.write_node (own : Owned sb S F) {bn o len : Nat} {f : Nat → UInt8}
    (here : F.ref i (.block bn) = b) (named : b ≠ 0) (room : o + len ≤ BSIZE) (x : Nat) :
    ((F.setData b ((F.data b).write o len f)).node i).byte x =
      if bn * BSIZE + o ≤ x ∧ x < bn * BSIZE + o + len then f (x - (bn * BSIZE + o))
      else (F.node i).byte x := by
  have alloc := alloc_of_ref (here ▸ named : F.ref i (.block bn) ≠ 0)
  rw [node_of_alloc alloc, node_of_alloc (F := F.setData b _) alloc]
  change o + len ≤ 1024 at room
  show ((F.setData b _).block i (x / 1024)).byte (x % 1024) =
    if bn * 1024 + o ≤ x ∧ x < bn * 1024 + o + len then f (x - (bn * 1024 + o))
    else (F.block i (x / 1024)).byte (x % 1024)
  rw [own.block_setData here named]
  by_cases eq : x / 1024 = bn
  · rw [if_pos ⟨rfl, eq⟩]
    by_cases window : o ≤ x % 1024 ∧ x % 1024 < o + len
    · rw [Bytes.byte_write_in window.1 window.2 (show x % 1024 < 1024 by omega), if_pos (by omega)]
      congr 1
      omega
    rw [Bytes.byte_write_out (by omega), if_neg (by omega), block, eq, here, if_neg named]
  rw [if_neg fun h => eq h.2, if_neg (by omega)]

theorem Owned.rewrites_setData (own : Owned sb S F) {bn : Nat} {x : Block}
    (here : F.ref i (.block bn) = b) (named : b ≠ 0) : Rewrites i F (F.setData b x) where
  other := by
    intro j ne
    refine node_congr_of_inode rfl fun bn' => ?_
    rw [own.block_setData here named, if_neg fun h => ne h.1]
  same := by
    have alloc := alloc_of_ref (here ▸ named : F.ref i (.block bn) ≠ 0)
    rw [node_of_alloc alloc, node_of_alloc (F := F.setData b _) alloc]
    rfl
  ref _ := ref_setData (own.not_indirect here) _ _

theorem node_setInode_of_ne {d : Dinode} {j : Nat} (ne : j ≠ i) :
    (F.setInode i d).node j = F.node j :=
  node_congr_of_inode (upd_ne ne _ _) fun _ => block_congr (ref_setInode_of_ne ne _) fun _ => rfl

theorem ref_setInode {d : Dinode} (type : d.type = 0 ↔ (F.inode i).type = 0)
    (addrs : d.addrs = (F.inode i).addrs) (j : Nat) (s : Slot) :
    (F.setInode i d).ref j s = F.ref j s := by
  by_cases eq : j = i
  · subst eq
    refine ref_congr ?_ ?_ ?_ s
    · rw [setInode_inode, upd_self]
      exact type
    · rw [setInode_inode, upd_self]
      exact addrs
    exact fun _ => rfl
  exact ref_setInode_of_ne eq s

theorem node_setInode {d : Dinode} (alloc : d.type ≠ 0) (before : (F.inode i).type ≠ 0)
    (addrs : d.addrs = (F.inode i).addrs) : (F.setInode i d).node i =
      { type := d.type, major := d.major, minor := d.minor, nlink := d.nlink, size := d.size
        byte := (F.node i).byte } := by
  have inode : (F.setInode i d).inode i = d := upd_self ..
  have block : ∀ bn, (F.setInode i d).block i bn = F.block i bn := fun bn =>
    block_congr (ref_setInode ⟨fun h => absurd h alloc, fun h => absurd h before⟩ addrs i _)
      fun _ => rfl
  rw [node_of_alloc (by rwa [inode]), node_of_alloc before, inode]
  simp only [block]

theorem node_setSize (live : (F.inode i).type ≠ 0) (size : Nat) :
    (F.setInode i { F.inode i with size }).node i = { F.node i with size } := by
  rw [node_setInode (d := { F.inode i with size }) live live rfl, node_of_alloc live]

theorem NoHoles.size_le (noHoles : NoHoles F) (i : Nat) : (F.node i).size ≤ MAXFILE * BSIZE := by
  by_contra long
  have named := noHoles i MAXFILE (Nat.lt_of_not_le long)
  exact absurd (entry_lt_of_ref (j := NINDIRECT) named) (lt_irrefl _)

end Contents

end Fs

end Xv6
