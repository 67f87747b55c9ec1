import Xv6.Mkfs
import Xv6.Fs.Ok

/-!
# What `iappend` builds

While `mkfs` runs, the image is read the way the kernel will read it, with the bitmap
that `balloc` writes in the end: the blocks below `freeblock` are in use. `Layout`
says that each inode made so far holds the bytes appended to it, in blocks of its
own, and `need` counts those blocks.

The inodes are those below `N`. The superblock says how many there are, but the blocks
set aside for them have room for a few more.
-/

namespace Xv6.Mkfs

open Function (update_self update_of_ne update_idem update_eq_self)
open Function renaming update → upd
open Prog (wp)

/-! ## Running to the end -/

/-- Run from `s`, an error satisfies `err` and a normal end `post`. -/
abbrev Ends {α : Type} (err : Failure → Prop) (m : Mk α) (post : α → State → Prop) (s : State) :
    Prop :=
  wp (fun _ => True) err m post s

namespace State

/-- Sector `b` of the image written. -/
@[simps -fullyApplied] def put (s : State) (b : Nat) (x : Block) : State :=
  { s with image := upd s.image b x }

/-- One more block taken. -/
@[simps -fullyApplied] def bump (s : State) : State := { s with freeblock := s.freeblock + 1 }

end State

section Rules

variable {α : Type} {err : Failure → Prop} {post : α → State → Prop} {s : State} {sec : Nat}

/-- The offset of a sector of a small image does not overflow. -/
theorem sector_of_lt (low : sec < 2 ^ 22) : sector sec = sec := by
  unfold sector
  simp only [BSIZE]
  omega

/-- `wsect` inside the image. -/
theorem ends_wsect_bind {buf : Block} {next : Unit → Mk α} (low : sec < FSSIZE)
    (len : s.length = FSSIZE) :
    Ends err (wsect sec buf >>= next) post s ↔ Ends err (next ()) post (s.put sec buf) := by
  have eq : { s with image := upd s.image (sector sec) buf
                     length := max s.length (sector sec + 1) } = s.put sec buf := by
    rw [sector_of_lt (lt_trans low (by decide)), max_eq_left (by omega)]
    rfl
  rw [Ends, wsect, Prog.wp_act_bind, eq, true_and]

theorem ends_wsect {buf : Block} {post : Unit → State → Prop} (low : sec < FSSIZE)
    (len : s.length = FSSIZE) (h : post () (s.put sec buf)) : Ends err (wsect sec buf) post s := by
  show Ends err (wsect sec buf >>= pure) post s
  exact (ends_wsect_bind low len).mpr (Prog.wp_pure h)

/-- `rsect` inside the image. -/
theorem ends_rsect_bind {next : Block → Mk α} (low : sec < FSSIZE) (len : s.length = FSSIZE) :
    Ends err (rsect sec >>= next) post s ↔ Ends err (next (s.image sec)) post s := by
  have inside : ¬ s.length ≤ sector sec := by
    rw [sector_of_lt (lt_trans low (by decide)), len]
    omega
  have returns : Prog.Returns (rsect sec) (s.image sec) s := by
    show (if s.length ≤ sector sec then _ else _ : Mk Block) s = _
    rw [if_neg inside, sector_of_lt (lt_trans low (by decide))]
    rfl
  exact returns.wp_bind

/-- `rsect` past the end of the image ends the program. -/
theorem ends_rsect_past {next : Block → Mk α} (past : FSSIZE ≤ sec) (word : sec < 2 ^ 22)
    (len : s.length = FSSIZE) (stop : err .read) : Ends err (rsect sec >>= next) post s := by
  have outside : s.length ≤ sector sec := by
    rw [sector_of_lt word, len]
    exact past
  have fails : Ends err (rsect sec) (fun _ _ => False) s := by
    show wp _ err (if s.length ≤ sector sec then _ else _ : Mk Block) _ s
    rw [if_pos outside]
    exact ⟨fun _ mem => absurd mem List.not_mem_nil, stop⟩
  exact fails.bind fun _ _ => False.elim

/-- The next free block is taken, whether there is one or not. -/
theorem ends_nextBlock_bind {next : Nat → Mk α} :
    Ends err (nextBlock >>= next) post s ↔ Ends err (next s.freeblock) post s.bump := by
  rw [Ends, nextBlock, Prog.bind_assoc, Prog.wp_get_bind, Prog.bind_assoc, Prog.wp_act_bind,
    true_and]
  exact Iff.rfl

end Rules

/-! ## The image as a file system -/

def area (N : Nat) : Superblock := { sb with ninodes := N }

theorem dataStart_area (N : Nat) : (area N).dataStart = nmeta := by
  show 2 + nlog + ninodeblocks + FSSIZE / BPB + 1 = nmeta
  decide

/-- The layout that `mkfs` writes is one that the kernel works with, for as many inodes as the
inode blocks hold. -/
theorem area_wf {N : Nat} (root : ROOTINO < N) (room : N ≤ 208) : (area N).Wf where
  log := le_refl 2
  inodes := le_refl 32
  bitmap := show 32 + (N - 1) / 16 + 1 ≤ 45 by omega
  data := by
    rw [dataStart_area]
    show nmeta ≤ FSSIZE
    decide
  size := show FSSIZE < 2147483648 by decide
  root := root
  names := show N ≤ 65536 by omega

/-- The image with the bitmap that is written in the end. -/
def State.fs (s : State) (N : Nat) : Fs :=
  { Fs.ofBuf (area N) s.image with used := fun b => decide (b < s.freeblock) }

/-- The image with the copy of inode `i` that `iappend` works on. -/
def State.view (s : State) (N i : Nat) (din : Dinode) : Fs := (s.fs N).setInode i din

/-- The blocks below `freeblock` are those before the data area and those that one slot of
one inode names; the others are still zero. -/
structure Tracks (N : Nat) (F : Fs) (s : State) : Prop where
  length : s.length = FSSIZE
  low : nmeta ≤ s.freeblock
  high : s.freeblock ≤ FSSIZE
  used : F.used = fun b => decide (b < s.freeblock)
  owned : F.Owned (area N) ∅
  zeroed : ∀ b, s.freeblock ≤ b → F.data b = Bytes.zero

/-- What `iappend` leaves alone before it writes the inode back. -/
structure Keeps (s t : State) : Prop where
  freeinode : t.freeinode = s.freeinode
  inodeWrites : t.inodeWrites = s.inodeWrites
  metadata : ∀ b < nmeta, t.image b = s.image b

theorem Keeps.refl (s : State) : Keeps s s := ⟨rfl, rfl, fun _ _ => rfl⟩

theorem Keeps.trans {s t u : State} (first : Keeps s t) (second : Keeps t u) : Keeps s u :=
  ⟨second.freeinode.trans first.freeinode, second.inodeWrites.trans first.inodeWrites,
    fun b low => (second.metadata b low).trans (first.metadata b low)⟩

theorem Keeps.bump (s : State) : Keeps s s.bump := ⟨rfl, rfl, fun _ _ => rfl⟩

theorem Keeps.put {s : State} {b : Nat} {x : Block} (low : nmeta ≤ b) : Keeps s (s.put b x) :=
  ⟨rfl, rfl, fun c lowC => update_of_ne (by omega) _ _⟩

section Views

variable {N i : Nat} {s t : State} {din : Dinode} {b : Nat} {x : Block}

/-- A block that was taken counts as used. -/
theorem view_bump : s.bump.view N i din = (s.view N i din).setUsed s.freeblock true := by
  ext1
  case inode => rfl
  case data => rfl
  case used =>
    funext c
    show decide (c < s.freeblock + 1) = upd (fun b => decide (b < s.freeblock)) _ true c
    by_cases eq : c = s.freeblock
    · rw [eq, update_self]
      exact decide_eq_true (Nat.lt_succ_self _)
    rw [update_of_ne eq]
    exact decide_eq_decide.mpr (by omega)

/-- A write to a data block changes that block of the file system. -/
theorem view_put (wf : (area N).Wf) (low : nmeta ≤ b) (high : b < FSSIZE) :
    (s.put b x).view N i din = (s.view N i din).setData b x := by
  have buffers : Fs.ofBuf (area N) (s.put b x).image = (Fs.ofBuf (area N) s.image).setData b x :=
    Fs.ofBuf_setData wf (by rwa [dataStart_area]) high
  unfold State.view State.fs
  rw [buffers]
  rfl

@[simp] theorem view_inode : (s.view N i din).inode i = din := update_self ..

/-- What leaves the metadata alone leaves the inodes. -/
theorem Keeps.inode (wf : (area N).Wf) (keeps : Keeps s t) (j : Nat) :
    (t.fs N).inode j = (s.fs N).inode j :=
  Fs.ofBuf_inode_congr fun low => keeps.metadata _ (by
    have below : sb.iblock j < 45 := (wf.iblock_lt low).2
    exact lt_trans below (by decide))

end Views

/-! ## New blocks -/

section Blocks

variable {N i : Nat} {F F' : Fs} {s t u : State} {din din' din'' : Dinode} {b : Nat}

/-- Blocks that are referred to were taken before. -/
theorem Tracks.ref_lt (tracks : Tracks N F s) {j : Nat} {slot : Slot} (named : F.ref j slot ≠ 0) :
    nmeta ≤ F.ref j slot ∧ F.ref j slot < s.freeblock := by
  refine ⟨dataStart_area N ▸ (tracks.owned.area named).1, ?_⟩
  have used := tracks.owned.used_of_ref named
  rw [tracks.used] at used
  exact of_decide_eq_true used

/-- What is referred to is in the image. -/
theorem Tracks.image_ref (tracks : Tracks N (s.view N i din) s) {j : Nat} {slot : Slot}
    (named : (s.view N i din).ref j slot ≠ 0) : (s.view N i din).ref j slot < FSSIZE ∧
      s.image ((s.view N i din).ref j slot) =
        (s.view N i din).data ((s.view N i din).ref j slot) := by
  obtain ⟨low, high⟩ := tracks.ref_lt named
  have inside : (s.view N i din).ref j slot < FSSIZE := lt_of_lt_of_le high tracks.high
  exact ⟨inside, (Fs.ofBuf_data (by rwa [dataStart_area]) inside).symm⟩

/-- The next free block belongs to nobody. -/
theorem Tracks.claim (tracks : Tracks N F s) (more : s.freeblock < FSSIZE) :
    (F.setUsed s.freeblock true).Owned (area N) {s.freeblock} := by
  have free : F.used s.freeblock = false := by
    rw [tracks.used]
    exact decide_eq_false (lt_irrefl _)
  have claimed := tracks.owned.claim more free
  rwa [← Set.singleton_def] at claimed

/-- The slots in `new` of inode `i` were given blocks where they had none. -/
structure Extends (N i : Nat) (new : Set Slot) (s : State) (din : Dinode) (t : State) (din' : Dinode) :
    Prop where
  tracks : Tracks N (t.view N i din') t
  grows : (s.view N i din).Grows (t.view N i din')
  ref : ∀ j slot, (t.view N i din').ref j slot ≠ 0 ↔ (s.view N i din).ref j slot ≠ 0 ∨
    (j = i ∧ slot ∈ new)
  keeps : Keeps s t
  range : din'.InRange
  same : din' = { din with addrs := din'.addrs }

theorem Extends.refl (tracks : Tracks N (s.view N i din) s) (range : din.InRange) {new : Set Slot}
    (named : ∀ slot ∈ new, (s.view N i din).ref i slot ≠ 0) : Extends N i new s din s din where
  tracks := tracks
  grows := .refl _
  ref := by
    intro j slot
    constructor
    · exact Or.inl
    rintro (old | ⟨rfl, mem⟩)
    · exact old
    exact named slot mem
  keeps := .refl s
  range := range
  same := rfl

/-- Two extensions of a file in a row. -/
theorem Extends.trans {new new' : Set Slot} (first : Extends N i new s din t din')
    (second : Extends N i new' t din' u din'') : Extends N i (new ∪ new') s din u din'' where
  tracks := second.tracks
  grows := first.grows.trans second.grows
  ref := by
    intro j slot
    rw [second.ref, first.ref, Set.mem_union]
    tauto
  keeps := first.keeps.trans second.keeps
  range := second.range
  same := by rw [second.same, first.same]

/-- The other files keep their blocks. -/
theorem Extends.ref_eq {new : Set Slot} (ext : Extends N i new s din t din') {j : Nat}
    (ne : j ≠ i) (slot : Slot) :
    (t.view N i din').ref j slot = (s.view N i din).ref j slot := by
  by_cases named : (s.view N i din).ref j slot = 0
  · rw [named]
    by_contra now
    rcases (ext.ref j slot).mp now with old | ⟨eq, -⟩
    · exact old named
    exact ne eq
  exact ext.grows.ref named

/-- A block that is attached to one slot extends the file by that slot. -/
theorem Extends.of_attach {slot : Slot} (tracks : Tracks N (s.view N i din) s)
    (more : s.freeblock < FSSIZE) (empty : (s.view N i din).ref i slot = 0)
    (count : t.freeblock = s.freeblock + 1) (length : t.length = s.length)
    (ref : ∀ j slot', (t.view N i din').ref j slot' =
      if j = i ∧ slot' = slot then s.freeblock else (s.view N i din).ref j slot')
    (node : (t.view N i din').node = (s.view N i din).node)
    (zeroed : ∀ b, s.freeblock < b → (t.view N i din').data b = Bytes.zero)
    (keeps : Keeps s t) (range : din'.InRange) (same : din' = { din with addrs := din'.addrs }) :
    Extends N i {slot} s din t din' := by
  have low := tracks.low
  have used : (t.view N i din').used = ((s.view N i din).setUsed s.freeblock true).used := by
    rw [← view_bump]
    funext c
    show decide (c < t.freeblock) = decide (c < s.freeblock + 1)
    rw [count]
  have owned : (t.view N i din').Owned (area N) ({s.freeblock} \ {s.freeblock}) :=
    (tracks.claim more).attach (i := i) (s := slot) rfl ((Fs.ref_setUsed ..).trans empty)
      (fun j slot' => by rw [ref, Fs.ref_setUsed]) used
  rw [sdiff_self] at owned
  refine ⟨⟨length.trans tracks.length, by omega, by omega, rfl, owned,
    fun b past => zeroed b (by omega)⟩,
    .of_attach node empty ref, fun j slot' => ?_, keeps, range, same⟩
  rw [ref, Set.mem_singleton_iff]
  have positive : s.freeblock ≠ 0 := by
    have first : 0 < nmeta := by decide
    omega
  split
  · rename_i here
    simp only [here, and_self, or_true, iff_true]
    exact positive
  rename_i other
  simp only [other, or_false]

theorem setAddr_inRange (range : din.InRange) (j : Nat) (word : b < 4294967296) :
    (din.setAddr j b).InRange :=
  ⟨range.type, range.major, range.minor, range.nlink, range.size, fun a => by
    show (if a.val = j then b else din.addrs a) < 4294967296
    split
    · exact word
    exact range.addrs a⟩

theorem addr_setAddr (din : Dinode) {j : Nat} (bound : j < NDIRECT + 1) :
    (din.setAddr j b).addr j = b := by
  unfold Dinode.addr Dinode.setAddr
  rw [dif_pos bound]
  exact if_pos rfl

/-- A free block is attached to a direct slot, or as indirect block. -/
theorem Tracks.attachAddr (tracks : Tracks N (s.view N i din) s) (range : din.InRange)
    (live : din.type ≠ 0) {j : Nat} (bound : j < NDIRECT + 1) (empty : din.addr j = 0)
    (more : s.freeblock < FSSIZE) :
    Extends N i {.addr j} s din s.bump (din.setAddr j s.freeblock) := by
  have alloc : ((s.bump.view N i din).inode i).type ≠ 0 := by
    rw [view_inode]
    exact live
  have none : (s.bump.view N i din).ref i (.addr j) = 0 := by
    rw [Fs.ref_addr alloc, view_inode]
    exact empty
  have zero : (s.bump.view N i din).data s.freeblock = Bytes.zero := tracks.zeroed _ (le_refl _)
  have ref := Fs.ref_setAddr alloc bound none zero
  have node := Fs.node_setAddr alloc bound none zero
  have view : (s.bump.view N i din).setInode i (((s.bump.view N i din).inode i).setAddr j s.freeblock) =
      s.bump.view N i (din.setAddr j s.freeblock) := by
    rw [view_inode]
    exact Fs.setInode_setInode ..
  rw [view] at ref node
  rw [view_bump] at none
  refine .of_attach tracks more ?_ rfl rfl ?_ ?_ ?_ (.bump s) ?_ rfl
  · rwa [Fs.ref_setUsed] at none
  · intro j' slot'
    rw [ref, view_bump, Fs.ref_setUsed]
  · rw [node, view_bump, Fs.node_setUsed]
  · exact fun b past => tracks.zeroed b past.le
  exact setAddr_inRange range j (lt_trans more (by decide))

/-- A free block is attached to an entry of the indirect block. -/
theorem Tracks.attachEntry (wf : (area N).Wf) (tracks : Tracks N (s.view N i din) s)
    (range : din.InRange) {a j : Nat} (indirect : (s.view N i din).ref i (.addr NDIRECT) = a)
    (named : a ≠ 0) (bound : j < NINDIRECT) (empty : (s.view N i din).ref i (.entry j) = 0)
    (more : s.freeblock < FSSIZE) :
    Extends N i {.entry j} s din (s.bump.put a ((s.image a).setU32 (4 * j) s.freeblock)) din := by
  obtain ⟨low, high⟩ := tracks.ref_lt (indirect ▸ named : (s.view N i din).ref i (.addr NDIRECT) ≠ 0)
  have read := (tracks.image_ref (indirect ▸ named : (s.view N i din).ref i (.addr NDIRECT) ≠ 0)).2
  rw [indirect] at low high read
  have inside : a < FSSIZE := lt_trans high more
  have own : (s.bump.view N i din).Owned (area N) {s.freeblock} := by
    rw [view_bump]
    exact tracks.claim more
  have view : (s.bump.put a ((s.image a).setU32 (4 * j) s.freeblock)).view N i din =
      (s.bump.view N i din).setData a (((s.bump.view N i din).data a).setU32 (4 * j) s.freeblock) := by
    rw [view_put wf low inside, read]
    rfl
  have indirect' : (s.bump.view N i din).ref i (.addr NDIRECT) = a := by
    rw [view_bump, Fs.ref_setUsed]
    exact indirect
  have empty' : (s.bump.view N i din).ref i (.entry j) = 0 := by
    rw [view_bump, Fs.ref_setUsed]
    exact empty
  have word : s.freeblock < 4294967296 := lt_trans more (by decide)
  refine .of_attach tracks more empty rfl rfl ?_ ?_ ?_ ((Keeps.bump s).trans (.put low)) range rfl
  · intro j' slot'
    rw [view, own.ref_setU32 indirect' named bound word, view_bump, Fs.ref_setUsed]
  · rw [view, own.node_setU32 indirect' named bound word (by omega) empty' (tracks.zeroed _ (le_refl _)),
      view_bump, Fs.node_setUsed]
  intro b past
  rw [view]
  exact (update_of_ne (by omega) _ _).trans (tracks.zeroed b past.le)

end Blocks

/-! ## Contents -/

/-- The bytes appended to inode `i` so far: they are where the kernel looks for them, and the
inode has the blocks for them and no others. -/
structure Holds (F : Fs) (i : Nat) (c : List UInt8) : Prop where
  live : (F.inode i).type ≠ 0
  byte : ∀ o < c.length, (F.node i).byte o = c.getD o 0
  block : ∀ bn, F.ref i (.block bn) ≠ 0 ↔ bn * BSIZE < c.length
  indirect : F.ref i (.addr NDIRECT) ≠ 0 ↔ NDIRECT * BSIZE < c.length

/-- The contents of a file depend on its bytes and blocks. -/
theorem Holds.congr {F F' : Fs} {i : Nat} {c : List UInt8} (holds : Holds F i c) (type : (F'.inode i).type ≠ 0)
    (byte : (F'.node i).byte = (F.node i).byte) (ref : ∀ slot, F'.ref i slot = F.ref i slot) :
    Holds F' i c where
  live := type
  byte := by
    rw [byte]
    exact holds.byte
  block := by
    intro bn
    rw [ref]
    exact holds.block bn
  indirect := by
    rw [ref]
    exact holds.indirect

/-- The blocks that `n` bytes take, with the indirect block. -/
def need (n : Nat) : Nat := (n + BSIZE - 1) / BSIZE + if NDIRECT * BSIZE < n then 1 else 0

theorem need_mono {m n : Nat} (le : m ≤ n) : need m ≤ need n := by
  simp only [need, BSIZE, NDIRECT]
  split_ifs <;> omega

/-- The blocks that the byte at `off` takes when the ones before it are there. -/
def newBlocks (off : Nat) : Nat := (if off % BSIZE = 0 then 1 else 0) + if off = NDIRECT * BSIZE then 1 else 0

/-- The blocks that one round of `iappend` takes. -/
theorem need_add {off m : Nat} (some : 0 < m) (inside : off % BSIZE + m ≤ BSIZE) :
    need (off + m) = need off + newBlocks off := by
  simp only [need, newBlocks, BSIZE, NDIRECT] at inside ⊢
  split_ifs <;> omega

structure Layout (N : Nat) (files : Nat → List UInt8) (F : Fs) (s : State) : Prop extends Tracks N F s where
  holds : ∀ j, 0 < j → j < s.freeinode → Holds F j (files j)
  free : ∀ j, j = 0 ∨ s.freeinode ≤ j → (F.inode j).type = 0

/-! ## One round -/

def slotsOf (fbn : Nat) : Set Slot := {slot | slot = .block fbn ∨ slot = .addr NDIRECT ∧ NDIRECT ≤ fbn}

section Round

variable {N i : Nat} {s : State} {din : Dinode} {c : List UInt8} {err : Failure → Prop}

/-- What the first half of a round ends with: the block is there, or its number is past
the end of the image. -/
inductive Mapped (N i off : Nat) (s : State) (din : Dinode) (r : Dinode × Nat) (t : State) : Prop
  | there (ext : Extends N i (slotsOf (off / BSIZE)) s din t r.1)
      (count : t.freeblock = s.freeblock + newBlocks off)
      (here : (t.view N i r.1).ref i (.block (off / BSIZE)) = r.2)
  | past (length : t.length = FSSIZE) (outside : FSSIZE ≤ r.2) (word : r.2 < 2 ^ 22)
      (full : FSSIZE < s.freeblock + newBlocks off)

theorem Extends.ref_new {new : Set Slot} {t : State} {din' : Dinode} (ext : Extends N i new s din t din') {slot : Slot}
    (mem : slot ∈ new) : (t.view N i din').ref i slot ≠ 0 := (ext.ref i slot).mpr (.inr ⟨rfl, mem⟩)

/-- A round of `iappend` on a direct block. -/
theorem blockOf_direct (tracks : Tracks N (s.view N i din) s) (holds : Holds (s.view N i din) i c)
    (range : din.InRange) (direct : c.length / BSIZE < NDIRECT) :
    Ends err (blockOf din (c.length / BSIZE)) (Mapped N i c.length s din) s := by
  have live := holds.live
  have slot : Slot.block (c.length / BSIZE) = .addr (c.length / BSIZE) := if_pos direct
  have addr : (s.view N i din).ref i (.block (c.length / BSIZE)) = din.addr (c.length / BSIZE) := by
    rw [slot, Fs.ref_addr live, view_inode]
  have only : slotsOf (c.length / BSIZE) = {.addr (c.length / BSIZE)} := by
    ext x
    simp only [slotsOf, slot, Set.mem_ofPred_eq, Set.mem_singleton_iff]
    constructor
    · rintro (eq | ⟨-, far⟩)
      · exact eq
      omega
    exact Or.inl
  have block := holds.block (c.length / BSIZE)
  rw [addr] at block
  rw [view_inode] at live
  unfold blockOf
  rw [if_pos direct]
  by_cases empty : din.addr (c.length / BSIZE) = 0
  · have count : newBlocks c.length = 1 := by
      have start : ¬ c.length / BSIZE * BSIZE < c.length := fun below => block.mpr below empty
      simp only [newBlocks, BSIZE, NDIRECT] at start direct ⊢
      rw [if_pos (by omega), if_neg (by omega)]
    rw [if_pos empty, ends_nextBlock_bind]
    refine Prog.wp_pure ?_
    by_cases more : s.freeblock < FSSIZE
    · have ext := tracks.attachAddr range live (by omega) empty more
      rw [← only] at ext
      refine .there ext (by rw [count]; rfl) ?_
      have alloc : ((s.bump.view N i (din.setAddr (c.length / BSIZE) s.freeblock)).inode i).type ≠ 0 := by
        rw [view_inode]
        exact live
      rw [slot, Fs.ref_addr alloc, view_inode]
      exact addr_setAddr din (by omega)
    have high := tracks.high
    exact .past tracks.length (Nat.le_of_not_lt more) (lt_of_le_of_lt high (by decide)) (by omega)
  have count : newBlocks c.length = 0 := by
    have below := block.mp empty
    simp only [newBlocks, BSIZE, NDIRECT] at below direct ⊢
    rw [if_neg (by omega), if_neg (by omega)]
  rw [if_neg empty]
  refine Prog.wp_pure (.there ?_ (by rw [count]; rfl) addr)
  refine .refl tracks range fun slot' mem => ?_
  rw [only, Set.mem_singleton_iff] at mem
  rw [mem, ← slot, addr]
  exact empty

theorem Tracks.u32_image (tracks : Tracks N (s.view N i din) s) {a : Nat}
    (indirect : (s.view N i din).ref i (.addr NDIRECT) = a) (named : a ≠ 0) (j : Nat) :
    (s.image a).u32 (4 * j) = (s.view N i din).ref i (.entry j) := by
  have named' : (s.view N i din).ref i (.addr NDIRECT) ≠ 0 := indirect ▸ named
  have live := Fs.alloc_of_ref named'
  have read := (tracks.image_ref named').2
  rw [indirect] at read
  rw [Fs.ref_addr live] at indirect named'
  rw [Fs.ref_entry live named', indirect, read]

/-- The entry of the indirect block, taken if it is not there. -/
theorem entryOf_ends (wf : (area N).Wf) {j : Nat} (tracks : Tracks N (s.view N i din) s)
    (range : din.InRange) (live : din.type ≠ 0) (indirect : din.addr NDIRECT ≠ 0)
    (bound : j < NINDIRECT) :
    Ends err (entryOf din j) (fun r t =>
      (Extends N i {.entry j} s din t r.1 ∧ (t.view N i r.1).ref i (.entry j) = r.2 ∧
        t.freeblock = s.freeblock + if (s.view N i din).ref i (.entry j) = 0 then 1 else 0) ∨
      ((s.view N i din).ref i (.entry j) = 0 ∧ FSSIZE ≤ s.freeblock ∧ t.length = FSSIZE ∧
        r.2 = s.freeblock)) s := by
  have alloc : ((s.view N i din).inode i).type ≠ 0 := by
    rw [view_inode]
    exact live
  have addr : (s.view N i din).ref i (.addr NDIRECT) =
      din.addr NDIRECT := by rw [Fs.ref_addr alloc, view_inode]
  have named : (s.view N i din).ref i (.addr NDIRECT) ≠ 0 := addr ▸ indirect
  have inside := (tracks.image_ref named).1
  rw [addr] at inside
  unfold entryOf
  rw [ends_rsect_bind inside tracks.length, tracks.u32_image addr indirect]
  by_cases empty : (s.view N i din).ref i (.entry j) = 0
  swap
  · rw [if_neg empty, if_neg empty]
    refine Prog.wp_pure (.inl ⟨.refl tracks range fun slot mem => ?_, rfl, rfl⟩)
    rw [Set.mem_singleton_iff.mp mem]
    exact empty
  rw [if_pos empty, ends_nextBlock_bind, ends_wsect_bind inside (s := s.bump) tracks.length,
    if_pos empty]
  refine Prog.wp_pure ?_
  by_cases more : s.freeblock < FSSIZE
  swap
  · exact .inr ⟨empty, Nat.le_of_not_lt more, tracks.length, rfl⟩
  have ext := tracks.attachEntry wf range addr indirect bound empty more
  refine .inl ⟨ext, ?_, rfl⟩
  have addr' : ((s.bump.put (din.addr NDIRECT)
      ((s.image (din.addr NDIRECT)).setU32 (4 * j) s.freeblock)).view
      N i din).ref i (.addr NDIRECT) = din.addr NDIRECT := (ext.grows.ref named).trans addr
  rw [← ext.tracks.u32_image addr' indirect]
  show (upd s.image _ _ (din.addr NDIRECT)).u32 (4 * j) = s.freeblock
  have room : 4 * j + 4 ≤ BSIZE := by
    change j < 256 at bound
    show 4 * j + 4 ≤ 1024
    omega
  rw [update_self, Bytes.u32_setU32 room]
  exact Nat.mod_eq_of_lt (lt_trans more (by decide))

theorem slotsOf_indirect {fbn : Nat} (indirect : ¬ fbn < NDIRECT) :
    slotsOf fbn = {.addr NDIRECT} ∪ {.entry (fbn - NDIRECT)} := by
  ext slot
  have block : Slot.block fbn = .entry (fbn - NDIRECT) := if_neg indirect
  simp only [slotsOf, block, Set.mem_ofPred_eq, Set.mem_union, Set.mem_singleton_iff]
  have far : NDIRECT ≤ fbn := Nat.le_of_not_lt indirect
  simp only [far, and_true]
  exact or_comm

/-- A round of `iappend` on a block behind the indirect block. -/
theorem blockOf_indirect (wf : (area N).Wf) (tracks : Tracks N (s.view N i din) s)
    (holds : Holds (s.view N i din) i c) (range : din.InRange)
    (indirect : ¬ c.length / BSIZE < NDIRECT) (small : c.length / BSIZE < MAXFILE)
    (full : FSSIZE < s.freeblock + newBlocks c.length → err .read) :
    Ends err (blockOf din (c.length / BSIZE)) (Mapped N i c.length s din) s := by
  have live := holds.live
  have addr : (s.view N i din).ref i (.addr NDIRECT) =
      din.addr NDIRECT := by rw [Fs.ref_addr live, view_inode]
  have block := holds.block (c.length / BSIZE)
  have slot : Slot.block (c.length / BSIZE) = .entry (c.length / BSIZE - NDIRECT) := if_neg indirect
  have first := holds.indirect
  have bound : c.length / BSIZE - NDIRECT < NINDIRECT := by
    change c.length / 1024 < 268 at small
    show c.length / 1024 - 12 < 256
    omega
  rw [view_inode] at live
  rw [addr] at first
  rw [slot] at block
  unfold blockOf
  rw [if_neg indirect, indirectOf]
  by_cases none : din.addr NDIRECT = 0
  · -- the first block behind the indirect block
    have start : c.length = NDIRECT * BSIZE := by
      have short : ¬ NDIRECT * BSIZE < c.length := fun long => first.mpr long none
      simp only [NDIRECT, BSIZE] at short indirect ⊢
      omega
    have count : newBlocks c.length = 2 := by
      rw [start]
      decide
    have empty : (s.view N i din).ref i (.entry (c.length / BSIZE - NDIRECT)) = 0 := by
      rw [Fs.ref_entry_of_zero]
      rwa [view_inode]
    rw [if_pos none, Prog.bind_assoc, ends_nextBlock_bind]
    show Ends err (entryOf (din.setAddr NDIRECT s.freeblock) _) _ s.bump
    have low := tracks.low
    have positive : s.freeblock ≠ 0 := by
      have meta_ : 0 < nmeta := by decide
      omega
    have stored := addr_setAddr din (j := NDIRECT) (b := s.freeblock) (Nat.lt_succ_self _)
    by_cases more : s.freeblock < FSSIZE
    swap
    · have high := tracks.high
      unfold entryOf
      rw [stored]
      exact ends_rsect_past (Nat.le_of_not_lt more)
        (lt_of_le_of_lt high (by decide)) tracks.length (full (by omega))
    have ext := tracks.attachAddr range live (by omega) none more
    have still : (s.bump.view N i (din.setAddr NDIRECT s.freeblock)).ref i (.entry (c.length / BSIZE - NDIRECT)) = 0 := by
      by_contra named
      rcases (ext.ref _ _).mp named with old | ⟨-, mem⟩
      · exact old empty
      cases mem
    refine (entryOf_ends wf ext.tracks ext.range live (by rwa [stored]) bound).mono fun r t done => ?_
    rw [if_pos still] at done
    rcases done with ⟨entry, here, total⟩ | ⟨-, past, length, last⟩
    · refine .there ?_ (by rw [total, count]; rfl) (by rw [slot]; exact here)
      rw [slotsOf_indirect indirect]
      exact ext.trans entry
    have last' : r.2 = s.freeblock + 1 := last
    have past' : FSSIZE ≤ s.freeblock + 1 := past
    refine .past length (by omega) ?_ (by omega)
    rw [last']
    exact lt_of_le_of_lt (Nat.succ_le_of_lt more) (by decide)
  have long := first.mp none
  rw [if_neg none]
  show Ends err (entryOf din _) _ s
  have named : (s.view N i din).ref i (.addr NDIRECT) ≠ 0 := addr ▸ none
  have count : newBlocks c.length =
      if (s.view N i din).ref i (.entry (c.length / BSIZE - NDIRECT)) = 0 then 1 else 0 := by
    simp only [newBlocks, BSIZE, NDIRECT] at block long ⊢
    rw [if_neg (by omega : ¬ c.length = 12 * 1024), add_zero]
    refine if_congr ?_ rfl rfl
    rw [← not_iff_not, ← ne_eq (Fs.ref _ _ _), block]
    omega
  refine (entryOf_ends wf tracks range live none bound).mono fun r t done => ?_
  rcases done with ⟨entry, here, total⟩ | ⟨empty, past, length, last⟩
  · refine .there ?_ (by rw [total, count]) (by rw [slot]; exact here)
    rw [slotsOf_indirect indirect]
    refine Extends.trans (.refl tracks range fun slot' mem => ?_) entry
    rw [Set.mem_singleton_iff.mp mem]
    exact named
  rw [if_pos empty] at count
  refine .past length (by omega) ?_ (by omega)
  rw [last]
  exact lt_of_le_of_lt tracks.high (by decide)

/-- A round of `iappend` finds or takes the block it writes to, or the image is full. -/
theorem blockOf_ends (wf : (area N).Wf) (tracks : Tracks N (s.view N i din) s)
    (holds : Holds (s.view N i din) i c) (range : din.InRange) (small : c.length / BSIZE < MAXFILE)
    (full : FSSIZE < s.freeblock + newBlocks c.length → err .read) :
    Ends err (blockOf din (c.length / BSIZE)) (Mapped N i c.length s din) s := by
  by_cases direct : c.length / BSIZE < NDIRECT
  · exact blockOf_direct tracks holds range direct
  exact blockOf_indirect wf tracks holds range direct small full

end Round

/-! ## `iappend` -/

section Append

variable {N i : Nat} {files : Nat → List UInt8} {s : State} {din : Dinode} {err : Failure → Prop}

/-- The state in the loop of `iappend` on inode `i`, of which `din` is the copy in memory. -/
structure Appending (N i : Nat) (files : Nat → List UInt8) (s : State) (din : Dinode) : Prop extends
    Layout N files (s.view N i din) s where
  wf : (area N).Wf
  positive : 0 < i
  made : i < s.freeinode
  range : din.InRange

/-- The contents after one round. -/
theorem Holds.append {F : Fs} {c q : List UInt8} {x : Nat} {S : Set Nat} (holds : Holds F i c) {F' : Fs}
    (owned : F'.Owned (area N) S) (node : F'.node = F.node)
    (ref : ∀ slot, F'.ref i slot ≠ 0 ↔ F.ref i slot ≠ 0 ∨ slot ∈ slotsOf (c.length / BSIZE))
    (here : F'.ref i (.block (c.length / BSIZE)) = x) (named : x ≠ 0) (some : 0 < q.length)
    (inside : c.length % BSIZE + q.length ≤ BSIZE) :
    Holds (F'.setData x ((F'.data x).write (c.length % BSIZE) q.length fun j => q.getD j 0)) i (c ++ q) := by
  have live : (F'.inode i).type ≠ 0 :=
    Fs.alloc_of_ref (here ▸ named : F'.ref i (.block (c.length / BSIZE)) ≠ 0)
  have same : ∀ slot, (F'.setData x _).ref i slot = F'.ref i slot :=
    Fs.ref_setData (x := (F'.data x).write (c.length % BSIZE) q.length fun j => q.getD j 0)
      (owned.not_indirect here) i
  refine ⟨live, fun o low => ?_, fun bn => ?_, ?_⟩
  · rw [owned.write_node here named inside, node]
    have start : c.length / BSIZE * BSIZE + c.length % BSIZE = c.length := Nat.div_add_mod' ..
    rw [start]
    rw [List.length_append] at low
    by_cases old : o < c.length
    · rw [if_neg (by omega), holds.byte o old, List.getD_eq_getElem?_getD,
        List.getD_eq_getElem?_getD,
        List.getElem?_append_left old]
    rw [if_pos (by omega), List.getD_eq_getElem?_getD, List.getD_eq_getElem?_getD,
      List.getElem?_append_right (by omega)]
  · rw [same, ref, holds.block, List.length_append]
    simp only [slotsOf, Set.mem_ofPred_eq, Slot.block_ne_indirect, false_and, or_false]
    rw [show Slot.block bn = Slot.block (c.length / BSIZE) ↔
      bn = c.length / BSIZE from ⟨Slot.block_inj, congrArg _⟩]
    simp only [BSIZE] at inside ⊢
    omega
  rw [same, ref, holds.indirect, List.length_append]
  simp only [slotsOf, Set.mem_ofPred_eq, (Slot.block_ne_indirect _).symm, false_or, true_and]
  simp only [BSIZE, NDIRECT] at inside ⊢
  omega

/-- One round appends its bytes to the file, and the other files stay. -/
theorem Appending.write {c q : List UInt8} {x : Nat} (app : Appending N i files s din) {t : State}
    {din' : Dinode} (content : files i = c)
    (ext : Extends N i (slotsOf (c.length / BSIZE)) s din t din')
    (here : (t.view N i din').ref i (.block (c.length / BSIZE)) = x) (some : 0 < q.length)
    (inside : c.length % BSIZE + q.length ≤ BSIZE) :
    Appending N i (upd files i (c ++ q))
      (t.put x ((t.image x).write (c.length % BSIZE) q.length fun j => q.getD j 0)) din' := by
  have named : (t.view N i din').ref i (.block (c.length / BSIZE)) ≠ 0 := ext.ref_new (.inl rfl)
  obtain ⟨low, high⟩ := ext.tracks.ref_lt named
  obtain ⟨bound, read⟩ := ext.tracks.image_ref named
  rw [here] at low high bound read named
  have owned := ext.tracks.owned
  have made := ext.keeps.freeinode
  have view : ∀ y, (t.put x y).view N i din' = (t.view N i din').setData x y :=
    fun _ => view_put app.wf low bound
  rw [read]
  have slots : ∀ j slot, ((t.view N i din').setData x _).ref j slot =
      (t.view N i din').ref j slot :=
    Fs.ref_setData (x := ((t.view N i din').data x).write (c.length % BSIZE) q.length fun j => q.getD j 0)
      (owned.not_indirect here)
  refine ⟨⟨⟨ext.tracks.length, ext.tracks.low, ext.tracks.high, rfl, ?_, ?_⟩, ?_, ?_⟩, app.wf,
    app.positive, ?_,
    ext.range⟩
  · rw [view]
    exact owned.congr slots rfl
  · intro b past
    rw [view]
    have past' : t.freeblock ≤ b := past
    exact (update_of_ne (by omega) _ _).trans (ext.tracks.zeroed b past')
  · intro j positive below
    have below' : j < s.freeinode := made ▸ below
    rw [view]
    by_cases eq : j = i
    · subst eq
      rw [update_self]
      refine (content ▸ app.holds j positive below').append owned ext.grows.node (fun slot => ?_) here named some inside
      rw [ext.ref]
      simp only [true_and]
    rw [update_of_ne eq]
    have old := app.holds j positive below'
    have node : ((t.view N i din').setData x (((t.view N i din').data x).write (c.length % BSIZE) q.length
        fun j => q.getD j 0)).node j = (s.view N i din).node j := by
      rw [(owned.rewrites_setData here named).other eq, ext.grows.node]
    refine old.congr ?_ (by rw [node]) fun slot => ?_
    · rw [← Fs.node_type, node, Fs.node_type]
      exact old.live
    rw [slots, ext.ref_eq eq]
  · intro j unused
    have unused' : j = 0 ∨ s.freeinode ≤ j := made ▸ unused
    rw [view, ← Fs.node_type, (owned.rewrites_setData here named).type, ext.grows.node,
      Fs.node_type]
    exact app.free j unused'
  exact lt_of_lt_of_eq app.made made.symm

/-- `iappend` appends all bytes, or ends at the end of the image. -/
theorem iappendLoop_ends (fuel : Nat) :
    ∀ {p : List UInt8} {files : Nat → List UInt8} {s : State} {din : Dinode},
    p.length ≤ fuel → Appending N i files s din →
      (FSSIZE + need (files i).length < s.freeblock + need ((files i).length + p.length) →
        err .read) →
      (MAXFILE * BSIZE < (files i).length + p.length → err .maxfile) →
      Ends err (iappendLoop fuel p din (files i).length) (fun r t =>
        r.2 = (files i).length + p.length ∧ Keeps s t ∧
        t.freeblock + need (files i).length = s.freeblock + need ((files i).length + p.length) ∧
        r.1.size = din.size ∧ r.1.type = din.type ∧
        Appending N i (upd files i (files i ++ p)) t r.1) s := by
  induction fuel with
  | zero =>
    intro p files s din few app _ _
    have nil : p = [] := List.eq_nil_of_length_eq_zero (by omega)
    subst nil
    refine Prog.wp_pure ⟨rfl, .refl s, rfl, rfl, rfl, ?_⟩
    rwa [List.append_nil, update_eq_self]
  | succ fuel ih =>
    intro p files s din few app full big
    by_cases nil : p = []
    · subst nil
      rw [iappendLoop, if_pos rfl]
      refine Prog.wp_pure ⟨rfl, .refl s, rfl, rfl, rfl, ?_⟩
      rwa [List.append_nil, update_eq_self]
    obtain ⟨c, content⟩ : ∃ c, c = files i := ⟨_, rfl⟩
    obtain ⟨n, round⟩ : ∃ n, n = min p.length ((c.length / BSIZE + 1) * BSIZE - c.length) :=
      ⟨_, rfl⟩
    have some : 0 < p.length := List.length_pos_of_ne_nil nil
    have progress : 0 < n := by
      simp only [BSIZE] at round
      omega
    have inside : c.length % BSIZE + n ≤ BSIZE := by
      simp only [BSIZE] at round ⊢
      omega
    have start : c.length - c.length / BSIZE * BSIZE = c.length % BSIZE := by
      simp only [BSIZE]
      omega
    rw [← content] at full big ⊢
    have step : need (c.length + n) = need c.length + newBlocks c.length := need_add progress inside
    have later : need (c.length + n) ≤ need (c.length + p.length) := need_mono (by omega)
    rw [iappendLoop, if_neg nil]
    refine Prog.wp_guard (fun far => big ?_) fun small => ?_
    · simp only [BSIZE] at far ⊢
      omega
    refine Prog.wp_seq _ (blockOf_ends app.wf app.toTracks (content ▸ app.holds i app.positive app.made) app.range
      (not_not.mp small) fun more => full (by omega)) ?_
    rintro ⟨din', x⟩ t (⟨ext, count, here⟩ | ⟨length, outside, word, more⟩)
    swap
    · exact ends_rsect_past outside word length (full (by omega))
    change Extends N i _ s din t din' at ext
    change (t.view N i din').ref i (.block (c.length / BSIZE)) = x at here
    have named : (t.view N i din').ref i (.block (c.length / BSIZE)) ≠ 0 := ext.ref_new (.inl rfl)
    have bound : x < FSSIZE := here ▸ (ext.tracks.image_ref named).1
    have size : (p.take n).length = n := by
      rw [List.length_take]
      omega
    have bytes : ((t.image x).write (c.length % BSIZE) n fun j => p.getD j 0) =
        (t.image x).write (c.length % BSIZE) (p.take n).length fun j => (p.take n).getD j 0 := by
      rw [size]
      funext b
      unfold Bytes.write
      refine ite_congr rfl (fun window => ?_) fun _ => rfl
      show p.getD _ 0 = (p.take n).getD _ 0
      rw [List.getD_eq_getElem?_getD, List.getD_eq_getElem?_getD,
        List.getElem?_take_of_lt (by omega)]
    show Ends err (rsect x >>= fun buf =>
      wsect x (buf.write (c.length - c.length / BSIZE * BSIZE)
        (min p.length ((c.length / BSIZE + 1) * BSIZE - c.length)) fun j => p.getD j 0) >>= fun _ =>
      iappendLoop fuel (p.drop (min p.length ((c.length / BSIZE + 1) * BSIZE - c.length))) din'
        (c.length + min p.length ((c.length / BSIZE + 1) * BSIZE - c.length))) _ t
    rw [← round, start, ends_rsect_bind bound ext.tracks.length,
      ends_wsect_bind bound ext.tracks.length, bytes]
    have app' := app.write (q := p.take n) content.symm ext here (by omega) (by omega)
    have now : upd files i (c ++ p.take n) i = c ++ p.take n := update_self ..
    have total : (c ++ p.take n).length = c.length + n := by rw [List.length_append, size]
    have rest : (p.drop n).length = p.length - n := List.length_drop ..
    have whole : c.length + n + (p.length - n) = c.length + p.length := by omega
    have next := ih (p := p.drop n) (by omega) app' (by
      rw [now, total, rest, whole]
      intro more
      refine full ?_
      rw [State.put_freeblock] at more
      omega) (by
      rw [now, total, rest, whole]
      exact big)
    rw [now, total, rest, whole] at next
    refine next.mono fun r u done => ?_
    obtain ⟨last, keeps, count', size', type', app''⟩ := done
    have first := ext.same
    refine ⟨last, ext.keeps.trans ((Keeps.put ?_).trans keeps), ?_, ?_, ?_, ?_⟩
    · exact here ▸ (ext.tracks.ref_lt named).1
    · rw [State.put_freeblock] at count'
      omega
    · rw [size', first]
    · rw [type', first]
    rwa [update_idem, List.append_assoc, List.take_append_drop] at app''

end Append

end Xv6.Mkfs
