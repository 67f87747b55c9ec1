import Xv6.Mkfs.Layout

/-!
# The image `mkfs` makes

`Made` is the invariant between two calls of `main`, and `Image` is what `main` ends with: the root
directory holds the two dots and one entry for each input file, inode `2 + k` holds the bytes of
the `k`-th file, and the bitmap shows the blocks below `freeblock`.
-/

namespace Xv6.Mkfs

open List (length_append length_nil nil_append)
open Function renaming update → upd, update_self → upd_self, update_of_ne → upd_ne,
  update_idem → upd_idem, update_eq_self → upd_eq_self
open Prog (wp wp_seq wp_pure wp_guard wp_get_bind)

/-- Between two calls: the inodes in the image are those of `files`. -/
structure Made (N : Nat) (files : Nat → List UInt8) (s : State) : Prop extends Layout N files (s.fs N) s where
  wf : (area N).Wf
  first : 0 < s.freeinode
  inodes : s.freeinode ≤ N
  size : ∀ j, 0 < j → j < s.freeinode → ((s.fs N).inode j).size = (files j).length
  type : ∀ j, 0 < j → j < s.freeinode → ((s.fs N).inode j).type = if j = ROOTINO then T_DIR else T_FILE
  writes : ∀ sec ∈ s.inodeWrites, sb.inodestart ≤ sec ∧ sec < sb.bmapstart
  super : s.image 1 = sbBlock

/-! ## Inodes -/

namespace State

def wrote (s : State) (i : Nat) (d : Dinode) : State :=
  { s.put (sb.iblock i) (d.store (s.image (sb.iblock i)) (i % IPB)) with
    inodeWrites := sb.iblock i :: s.inodeWrites }

end State

section Inodes

variable {N i : Nat} {files : Nat → List UInt8} {s t : State} {d : Dinode} {err : Failure → Prop}

theorem iblock_lt (wf : (area N).Wf) (low : i < N) :
    sb.inodestart ≤ sb.iblock i ∧ sb.iblock i < sb.bmapstart :=
  wf.iblock_lt low

theorem iblock_lt_size (wf : (area N).Wf) (low : i < N) : sb.iblock i < FSSIZE :=
  lt_trans (iblock_lt wf low).2 (by decide)

theorem winode_ends (wf : (area N).Wf) (low : i < N) (len : s.length = FSSIZE)
    {post : Unit → State → Prop} (h : post () (s.wrote i d)) : Ends err (winode i d) post s := by
  have bound := iblock_lt_size wf low
  have sec : sector (sb.iblock i) = sb.iblock i := sector_of_lt (lt_trans bound (by decide))
  unfold winode
  dsimp only
  rw [ends_rsect_bind bound len, ends_wsect_bind bound len]
  refine Prog.wp_act trivial ?_
  rw [sec]
  exact h

theorem fs_wrote (wf : (area N).Wf) (low : i < N) (range : d.InRange) :
    (s.wrote i d).fs N = s.view N i d := by
  have stored : Fs.ofBuf (area N) (s.wrote i d).image = (Fs.ofBuf (area N) s.image).setInode i d :=
    Fs.ofBuf_store wf low range
  unfold State.fs
  rw [stored]
  rfl

theorem rinode_bind {α : Type} {next : Dinode → Mk α} {post : α → State → Prop} (wf : (area N).Wf)
    (low : i < N) (len : s.length = FSSIZE) :
    Ends err (rinode i >>= next) post s ↔ Ends err (next ((s.fs N).inode i)) post s := by
  have inode : (s.fs N).inode i = Dinode.ofBlock (s.image (sb.iblock i)) (i % IPB) :=
    Fs.ofBuf_inode low
  unfold rinode
  rw [Prog.bind_assoc, ends_rsect_bind (iblock_lt_size wf low) len, inode]
  exact Iff.rfl

theorem fs_inRange (s : State) (N i : Nat) : ((s.fs N).inode i).InRange := Fs.ofBuf_inRange i

theorem Holds.length_le {F : Fs} {c : List UInt8} (holds : Holds F i c) :
    c.length ≤ MAXFILE * BSIZE := by
  by_contra long
  have named := (holds.block MAXFILE).mpr (Nat.lt_of_not_le long)
  exact absurd (Fs.entry_lt_of_ref (j := NINDIRECT) named) (lt_irrefl _)

theorem Layout.setSize {F : Fs} (layout : Layout N files F s) (live : (F.inode i).type ≠ 0)
    (n : Nat) :
    Layout N files (F.setInode i { F.inode i with size := n }) s := by
  have ref := Fs.ref_setInode (F := F) (i := i) (d := { F.inode i with size := n }) Iff.rfl rfl
  have type : ∀ j, ((F.setInode i { F.inode i with size := n }).inode j).type =
    (F.inode j).type := by
    intro j
    rw [Fs.setInode_inode]
    by_cases eq : j = i
    · rw [eq, upd_self]
    rw [upd_ne eq]
  refine ⟨⟨layout.length, layout.low, layout.high, layout.used, layout.owned.congr ref rfl,
    layout.zeroed⟩, ?_, ?_⟩
  · intro j positive below
    have holds := layout.holds j positive below
    refine holds.congr (by rw [type]; exact holds.live) ?_ (ref j)
    by_cases eq : j = i
    · rw [eq, Fs.node_setSize live]
    rw [Fs.node_setInode_of_ne eq]
  intro j unused
  rw [type]
  exact layout.free j unused

/-- Only fields of the state that the layout does not speak of changed. -/
theorem Layout.state {F : Fs} (layout : Layout N files F s) (length : t.length = s.length)
    (freeblock : t.freeblock = s.freeblock) (freeinode : t.freeinode = s.freeinode) :
    Layout N files F t := by
  refine ⟨⟨?_, ?_, ?_, ?_, layout.owned, ?_⟩, ?_, ?_⟩
  · rw [length]
    exact layout.length
  · rw [freeblock]
    exact layout.low
  · rw [freeblock]
    exact layout.high
  · rw [freeblock]
    exact layout.used
  · rw [freeblock]
    exact layout.zeroed
  · rw [freeinode]
    exact layout.holds
  rw [freeinode]
  exact layout.free

theorem image_one_wrote (wf : (area N).Wf) (low : i < N) : (s.wrote i d).image 1 = s.image 1 := by
  have area : 32 ≤ sb.iblock i := (iblock_lt wf low).1
  have ne : 1 ≠ sb.iblock i := by omega
  show upd s.image (sb.iblock i) (d.store (s.image (sb.iblock i)) (i % IPB)) 1 = s.image 1
  rw [upd_ne ne]

theorem Made.writes_wrote (made : Made N files s) (low : i < N)
    (same : t.inodeWrites = s.inodeWrites) :
    ∀ sec ∈ (t.wrote i d).inodeWrites, sb.inodestart ≤ sec ∧ sec < sb.bmapstart := by
  intro sec mem
  rcases List.mem_cons.mp mem with rfl | old
  · exact iblock_lt made.wf low
  exact made.writes sec (same ▸ old)

theorem iappend_ends (made : Made N files s) (positive : 0 < i) (below : i < s.freeinode) {p : List UInt8}
    (full : FSSIZE + need (files i).length < s.freeblock + need ((files i).length + p.length) →
      err .read)
    (big : MAXFILE * BSIZE < (files i).length + p.length → err .maxfile) :
    Ends err (iappend i p) (fun _ t => t.freeinode = s.freeinode ∧
      t.freeblock + need (files i).length = s.freeblock + need ((files i).length + p.length) ∧
      Made N (upd files i (files i ++ p)) t) s := by
  have wf := made.wf
  have low : i < N := lt_of_lt_of_le below made.inodes
  have view : s.view N i ((s.fs N).inode i) = s.fs N := Fs.setInode_self rfl
  have app : Appending N i files s ((s.fs N).inode i) := by
    refine ⟨?_, wf, positive, below, fs_inRange s N i⟩
    rw [view]
    exact made.toLayout
  unfold iappend
  rw [rinode_bind wf low made.length, made.size i positive below]
  refine wp_seq _ (iappendLoop_ends p.length (le_refl _) app full big) ?_
  rintro ⟨din, off⟩ t ⟨last, keeps, count, -, type, app'⟩
  change off = _ at last
  change din.type = _ at type
  change Appending N i _ t din at app'
  subst last
  have content : (upd files i (files i ++ p) i).length = (files i).length + p.length := by
    rw [upd_self, length_append]
  have holds := app'.holds i positive app'.made
  have short := content ▸ holds.length_le
  have live : din.type ≠ 0 := by
    have alive := holds.live
    rwa [view_inode] at alive
  have range : { din with size := (files i).length + p.length }.InRange :=
    ⟨app'.range.type, app'.range.major, app'.range.minor, app'.range.nlink, lt_of_le_of_lt short (by decide),
      app'.range.addrs⟩
  refine winode_ends wf low app'.length ⟨keeps.freeinode, count, ?_⟩
  have fs : (t.wrote i { din with size := (files i).length + p.length }).fs N =
      (t.view N i din).setInode i { (t.view N i din).inode i with size := (files i).length + p.length } := by
    rw [fs_wrote wf low range, view_inode]
    exact (Fs.setInode_setInode ..).symm
  have inode : ∀ j, ((t.wrote i { din with size := (files i).length + p.length }).fs N).inode j =
      if j = i then { din with size := (files i).length + p.length } else (s.fs N).inode j := by
    intro j
    rw [fs_wrote wf low range]
    show upd (t.fs N).inode i _ j = _
    split
    · rename_i eq
      rw [eq, upd_self]
    rename_i ne
    rw [upd_ne ne, keeps.inode wf]
  have layout := app'.toLayout.setSize (i := i) (by rw [view_inode]; exact live)
    ((files i).length + p.length)
  rw [← fs] at layout
  refine ⟨layout.state rfl rfl rfl, wf, ?_, ?_, ?_, ?_, made.writes_wrote low keeps.inodeWrites, ?_⟩
  · exact lt_of_lt_of_eq made.first keeps.freeinode.symm
  · exact le_of_eq_of_le keeps.freeinode made.inodes
  · intro j positiveJ belowJ
    have belowJ' : j < s.freeinode := keeps.freeinode ▸ belowJ
    rw [inode]
    split
    · rename_i eq
      rw [eq, content]
    rename_i ne
    rw [upd_ne ne]
    exact made.size j positiveJ belowJ'
  · intro j positiveJ belowJ
    have belowJ' : j < s.freeinode := keeps.freeinode ▸ belowJ
    rw [inode]
    split
    · rename_i eq
      rw [eq]
      exact type.trans (made.type i positive below)
    exact made.type j positiveJ belowJ'
  rw [image_one_wrote wf low, keeps.metadata 1 (by decide)]
  exact made.super

theorem ialloc_ends (made : Made N files s) (more : s.freeinode < N)
    (empty : files s.freeinode = []) {type : Nat}
    (kind : type = if s.freeinode = ROOTINO then T_DIR else T_FILE) :
    Ends err (ialloc type) (fun inum t => inum = s.freeinode ∧ t.freeinode = s.freeinode + 1 ∧
      t.freeblock = s.freeblock ∧ Made N files t) s := by
  have wf := made.wf
  obtain ⟨d, new⟩ : ∃ d, d = { Dinode.zero with type, nlink := 1 } := ⟨_, rfl⟩
  have some : type ≠ 0 := by
    rw [kind]
    split <;> decide
  have range : d.InRange := by
    rw [new]
    refine ⟨?_, Dinode.zero_inRange.major, Dinode.zero_inRange.minor, show 1 < 65536 by decide,
      Dinode.zero_inRange.size, Dinode.zero_inRange.addrs⟩
    show type < 65536
    rw [kind]
    split <;> decide
  have free := made.free s.freeinode (.inr (le_refl _))
  have live : ((s.view N s.freeinode d).inode s.freeinode).type ≠ 0 := by
    rw [view_inode, new]
    exact some
  have ref : ∀ j slot, (s.view N s.freeinode d).ref j slot = (s.fs N).ref j slot := by
    intro j slot
    by_cases eq : j = s.freeinode
    · subst eq
      rw [Fs.ref_of_free free]
      cases slot with
      | addr k =>
        rw [Fs.ref_addr live, view_inode, new, Dinode.addr]
        split <;> rfl
      | entry k =>
        refine Fs.ref_entry_of_zero ?_ k
        rw [view_inode, new]
        rfl
    exact Fs.ref_setInode_of_ne eq slot
  have other : ∀ j, j ≠ s.freeinode → (s.view N s.freeinode d).inode j = (s.fs N).inode j :=
    fun j ne => upd_ne ne _ _
  unfold ialloc
  rw [Ends, wp_get_bind, Prog.wp_act_bind]
  refine ⟨trivial, ?_⟩
  rw [← new]
  refine wp_seq (fun _ t => t = { s with freeinode := s.freeinode + 1 }.wrote s.freeinode d)
    (winode_ends (s := { s with freeinode := s.freeinode + 1 }) wf more made.length rfl) ?_
  rintro - t rfl
  refine wp_pure ⟨rfl, rfl, rfl, ?_⟩
  have fs : ({ s with freeinode := s.freeinode + 1 }.wrote s.freeinode d).fs N =
    s.view N s.freeinode d :=
    fs_wrote wf more range
  refine ⟨⟨⟨made.length, made.low, made.high, rfl, ?_, ?_⟩, ?_, ?_⟩, wf, Nat.succ_pos _, more, ?_,
    ?_, ?_, ?_⟩
  · rw [fs]
    exact made.owned.congr ref rfl
  · rw [fs]
    exact made.zeroed
  · intro j positive below
    rw [fs]
    by_cases eq : j = s.freeinode
    · subst eq
      rw [empty]
      refine ⟨live, fun o low => absurd low (Nat.not_lt_zero _), fun bn => ?_, ?_⟩
      · rw [ref, Fs.ref_of_free free]
        simp
      rw [ref, Fs.ref_of_free free]
      simp
    have below' : j < s.freeinode := by
      have old : j < s.freeinode + 1 := below
      omega
    have holds := made.holds j positive below'
    refine holds.congr ?_ ?_ (ref j)
    · rw [other j eq]
      exact holds.live
    exact congrArg Node.byte (Fs.node_setInode_of_ne eq)
  · intro j unused
    have unused' : j = 0 ∨ s.freeinode + 1 ≤ j := unused
    have start := made.first
    rw [fs, other j (by omega)]
    exact made.free j (by omega)
  · intro j positive below
    rw [fs]
    by_cases eq : j = s.freeinode
    · rw [eq, view_inode, empty, new]
      rfl
    have old : j < s.freeinode + 1 := below
    rw [other j eq]
    exact made.size j positive (by omega)
  · intro j positive below
    rw [fs]
    by_cases eq : j = s.freeinode
    · rw [eq, view_inode, new]
      exact kind
    have old : j < s.freeinode + 1 := below
    rw [other j eq]
    exact made.type j positive (by omega)
  · exact made.writes_wrote more rfl
  rw [image_one_wrote wf more]
  exact made.super

end Inodes

/-! ## Files -/

def Input.bytes (file : Input) : List UInt8 := ((file.chunks.getD []).map Subtype.val).flatten

/-- The entries of the root directory for the input files; the first of them has inode 2. -/
def entries (files : List Input) : List UInt8 :=
  (files.zipIdx 2).flatMap fun f => dirent f.2 (strncpy (chars f.1.shortname))

def rootBytes (files : List Input) : List UInt8 :=
  dirent ROOTINO dotName ++ dirent ROOTINO dotdotName ++ entries files

/-- The bytes in each inode when `files` are in the image. -/
def contents (files : List Input) (i : Nat) : List UInt8 :=
  if i = ROOTINO then rootBytes files else if i < 2 then [] else (files[i - 2]?.map Input.bytes).getD []

/-- The blocks in use when `files` are in the image. -/
def space (files : List Input) : Nat :=
  nmeta + need (DIRENTSIZE * (files.length + 2)) + (files.map fun f => need f.bytes.length).sum

@[simp] theorem length_dirent (inum : Nat) (name : Name) : (dirent inum name).length = DIRENTSIZE := by simp [dirent]

theorem length_entries (files : List Input) :
    (entries files).length = DIRENTSIZE * files.length := by
  unfold entries
  generalize 2 = k
  induction files generalizing k with
  | nil => rfl
  | cons f files ih =>
    rw [List.zipIdx_cons, List.flatMap_cons, length_append, ih, length_dirent, List.length_cons]
    ring

theorem length_rootBytes (files : List Input) :
    (rootBytes files).length = DIRENTSIZE * (files.length + 2) := by
  simp only [rootBytes, length_append, length_dirent, length_entries]
  ring

theorem rootBytes_concat (files : List Input) (f : Input) : rootBytes (files ++ [f]) =
    rootBytes files ++ dirent (files.length + 2) (strncpy (chars f.shortname)) := by
  unfold rootBytes entries
  rw [List.zipIdx_append, List.flatMap_append, ← List.append_assoc, Nat.add_comm]
  simp

theorem root_ne (k : Nat) : k + 2 ≠ ROOTINO := by
  show k + 2 ≠ 1
  omega

theorem contents_root (files : List Input) : contents files ROOTINO = rootBytes files := if_pos rfl

theorem contents_file {files : List Input} {k : Nat} (low : k < files.length) :
    contents files (k + 2) = files[k].bytes := by
  unfold contents
  rw [if_neg (root_ne k), if_neg (by omega), Nat.add_sub_cancel, List.getElem?_eq_getElem low]
  rfl

theorem contents_next (files : List Input) : contents files (files.length + 2) = [] := by
  unfold contents
  rw [if_neg (root_ne _), if_neg (by omega), Nat.add_sub_cancel, List.getElem?_eq_none (le_refl _)]
  rfl

theorem contents_concat (files : List Input) (f : Input) :
    contents (files ++ [f]) = upd (upd (contents files) ROOTINO
      (rootBytes files ++ dirent (files.length + 2) (strncpy (chars f.shortname))))
      (files.length + 2) f.bytes := by
  funext i
  by_cases root : i = ROOTINO
  · rw [root, contents_root, upd_ne (root_ne _).symm, upd_self, rootBytes_concat]
  by_cases last : i = files.length + 2
  · have low : files.length < (files ++ [f]).length := by simp
    rw [last, upd_self, contents_file low]
    simp
  rw [upd_ne last, upd_ne root]
  unfold contents
  rw [if_neg root, if_neg root]
  split
  · rfl
  rename_i far
  rw [List.getElem?_append]
  split
  · rfl
  rw [List.getElem?_eq_none (l := [f]) (by simp; omega), List.getElem?_eq_none (by omega)]

theorem space_concat (files : List Input) (f : Input) :
    space (files ++ [f]) + need (DIRENTSIZE * (files.length + 2)) =
      space files + need (DIRENTSIZE * (files.length + 2) + DIRENTSIZE) + need f.bytes.length := by
  have index : DIRENTSIZE * (files.length + 1 + 2) =
      DIRENTSIZE * (files.length + 2) + DIRENTSIZE := by ring
  simp only [space, length_append, List.length_singleton, List.map_append, List.sum_append,
    List.map_singleton,
    List.sum_singleton, index]
  omega

theorem space_le (files rest : List Input) : space files ≤ space (files ++ rest) := by
  have root : need (DIRENTSIZE * (files.length + 2)) ≤ need (DIRENTSIZE * ((files ++ rest).length + 2)) :=
    need_mono (Nat.mul_le_mul_left _ (by rw [length_append]; omega))
  simp only [space, List.map_append, List.sum_append]
  omega

section Files

variable {N i : Nat} {files : Nat → List UInt8} {s : State} {err : Failure → Prop}

theorem appendChunks_ends (chunks : List Chunk) :
    ∀ {files : Nat → List UInt8} {s : State}, Made N files s → 0 < i →
    i < s.freeinode →
    (FSSIZE + need (files i).length <
      s.freeblock + need ((files i).length + (chunks.map Subtype.val).flatten.length) → err .read) →
    (MAXFILE * BSIZE < (files i).length + (chunks.map Subtype.val).flatten.length → err .maxfile) →
    Ends err (appendChunks i chunks) (fun _ t => t.freeinode = s.freeinode ∧ t.freeblock + need (files i).length =
        s.freeblock + need ((files i).length + (chunks.map Subtype.val).flatten.length) ∧
      Made N (upd files i (files i ++ (chunks.map Subtype.val).flatten)) t) s := by
  induction chunks with
  | nil =>
    intro files s made positive below _ _
    refine wp_pure ⟨rfl, rfl, ?_⟩
    rwa [List.map_nil, List.flatten_nil, List.append_nil, upd_eq_self]
  | cons chunk rest ih =>
    intro files s made positive below full big
    rw [List.map_cons, List.flatten_cons, length_append] at full big ⊢
    have later : need ((files i).length + chunk.val.length) ≤
        need ((files i).length + (chunk.val.length + (rest.map Subtype.val).flatten.length)) :=
      need_mono (by omega)
    refine wp_seq _ (iappend_ends made positive below (fun more => full (by omega))
      fun more => big (by omega)) ?_
    rintro - t ⟨same, count, made'⟩
    have now : upd files i (files i ++ chunk.val) i = files i ++ chunk.val := upd_self ..
    have next := ih made' positive (by omega) (by
      rw [now, length_append, add_assoc]
      intro more
      exact full (by omega)) (by
      rw [now, length_append, add_assoc]
      exact big)
    rw [now, length_append, add_assoc] at next
    refine next.mono fun _ u done => ?_
    obtain ⟨same', count', made''⟩ := done
    refine ⟨same'.trans same, by omega, ?_⟩
    rwa [upd_idem, List.append_assoc] at made''

theorem addFile_ends {done : List Input} (made : Made N (contents done) s)
    (count : s.freeinode = done.length + 2) (blocks : s.freeblock = space done)
    (more : s.freeinode < N) (f : Input) (named : slash ∈ stripUser f.path → err .slash)
    (opened : f.chunks = none → err (.open f.path))
    (full : FSSIZE < space (done ++ [f]) → err .read)
    (big : MAXFILE * BSIZE < f.bytes.length → err .maxfile) :
    Ends err (addFile ROOTINO f) (fun _ t => t.freeinode = (done ++ [f]).length + 2 ∧
      t.freeblock = space (done ++ [f]) ∧ Made N (contents (done ++ [f])) t) s := by
  unfold addFile
  refine wp_guard named fun _ => ?_
  have total := space_concat done f
  have root := contents_root done
  have size := length_rootBytes done
  have few : DIRENTSIZE * (done.length + 2) + DIRENTSIZE ≤ MAXFILE * BSIZE := by
    have room : N ≤ 65536 := made.wf.names
    have bitmap : 32 + (N - 1) / 16 + 1 ≤ 45 := made.wf.bitmap
    simp only [DIRENTSIZE, BSIZE, MAXFILE, NDIRECT]
    omega
  rcases read : f.chunks with - | chunks
  · exact Prog.wp_fail (opened read)
  have bytes : f.bytes = (chunks.map Subtype.val).flatten := by
    unfold Input.bytes
    rw [read]
    rfl
  refine wp_seq _ (ialloc_ends made more (by rw [count]; exact contents_next done)
    (by rw [count, if_neg (root_ne _)])) ?_
  rintro inum t ⟨rfl, next, same, made₁⟩
  have made_root : ROOTINO < t.freeinode := by
    show 1 < t.freeinode
    omega
  refine wp_seq _ (iappend_ends made₁ (by decide) made_root ?_ ?_) ?_
  · rw [root, size, length_dirent]
    intro past
    exact full (by omega)
  · rw [root, size, length_dirent]
    intro long
    omega
  rintro - u ⟨next', count', made₂⟩
  rw [root, size, length_dirent] at count'
  rw [root] at made₂
  have here : upd (contents done) ROOTINO (rootBytes done ++
      dirent s.freeinode (strncpy (chars f.shortname))) s.freeinode = [] := by
    rw [count, upd_ne (root_ne _)]
    exact contents_next done
  have rest := appendChunks_ends chunks made₂ (i := s.freeinode) (by omega) (by omega) (by
    rw [here, ← bytes, length_nil, zero_add]
    intro past
    exact full (by omega)) (by
    rw [here, ← bytes, length_nil, zero_add]
    exact big)
  rw [here, ← bytes, length_nil, zero_add, nil_append] at rest
  refine rest.mono fun _ v finished => ?_
  obtain ⟨last, count'', made₃⟩ := finished
  have zero : need 0 = 0 := by decide
  refine ⟨?_, by omega, ?_⟩
  · rw [length_append, List.length_singleton]
    omega
  rwa [count, ← contents_concat] at made₃

theorem addFiles_ends (rest : List Input) :
    ∀ {done : List Input} {s : State}, Made N (contents done) s →
    s.freeinode = done.length + 2 → s.freeblock = space done → (done ++ rest).length + 2 ≤ N →
    (∀ f ∈ rest, slash ∈ stripUser f.path → err .slash) →
      (∀ f ∈ rest, f.chunks = none → err (.open f.path)) →
    (FSSIZE < space (done ++ rest) → err .read) →
      (∀ f ∈ rest, MAXFILE * BSIZE < f.bytes.length → err .maxfile) →
    Ends err (addFiles ROOTINO rest) (fun _ t => t.freeinode = (done ++ rest).length + 2 ∧
      t.freeblock = space (done ++ rest) ∧ Made N (contents (done ++ rest)) t) s := by
  induction rest with
  | nil =>
    intro done s made count blocks _ _ _ _ _
    rw [List.append_nil]
    exact wp_pure ⟨count, blocks, made⟩
  | cons f rest ih =>
    intro done s made count blocks few named opened full big
    have split : done ++ f :: rest = (done ++ [f]) ++ rest := by simp
    rw [split] at few full ⊢
    have mono := space_le (done ++ [f]) rest
    have short : s.freeinode < N := by
      rw [length_append, length_append, List.length_singleton] at few
      omega
    refine wp_seq _ (addFile_ends made count blocks short f (named f (by simp)) (opened f (by simp))
      (fun past => full (by omega)) (big f (by simp))) ?_
    rintro - t ⟨count', blocks', made'⟩
    exact ih made' count' blocks' few (fun g mem => named g (by simp [mem]))
      (fun g mem => opened g (by simp [mem]))
      full fun g mem => big g (by simp [mem])

end Files

/-! ## The whole run -/

/-- The image after the first writes, before there is an inode. -/
def State.blank : State where
  image := upd (fun _ => Bytes.zero) 1 sbBlock
  length := FSSIZE
  freeinode := 1
  freeblock := nmeta
  inodeWrites := []

theorem bit_bitmap {used : Nat} (few : used ≤ BPB) (i : Nat) :
    (bitmap used).bit i = decide (i < used) := by
  induction used with
  | zero => simp [bitmap, Bytes.bit]
  | succ used ih =>
    have inside : used / 8 < BSIZE := by
      simp only [BPB, BSIZE] at few ⊢
      omega
    rw [bitmap, Bytes.bit_setBit inside, ih (by omega)]
    by_cases eq : i = used
    · simp [eq]
    simp only [eq, decide_false, Bool.false_or]
    exact decide_eq_decide.mpr (by omega)

section Main

variable {N : Nat} {err : Failure → Prop}

theorem zeros_ends (s : State) (length : s.length = 0) (image : s.image = fun _ => Bytes.zero) :
    Ends err (Prog.forRange 0 FSSIZE fun i => wsect i Bytes.zero) (fun _ t => t = { s with length := FSSIZE }) s := by
  have start : s = { s with length := 0 } := by rw [← length]
  refine (Prog.wp_forRange (fun i t => t = { s with length := i }) start ?_).mono fun _ t done => ?_
  · rintro i t - high rfl
    refine Prog.wp_act trivial ?_
    have sec : sector i = i := sector_of_lt (by simp only [FSSIZE] at high; omega)
    rw [sec, image]
    simp
  rwa [zero_add] at done

theorem made_blank (wf : (area N).Wf) : Made N (fun _ => []) State.blank := by
  have free : ∀ j, ((State.blank.fs N).inode j).type = 0 := by
    intro j
    show (if j < N then _ else _ : Dinode).type = 0
    split
    · rename_i low
      have area : 32 ≤ sb.iblock j := (iblock_lt wf low).1
      have ne : sb.iblock j ≠ 1 := by omega
      show (upd (fun _ => Bytes.zero) 1 sbBlock (sb.iblock j) : Block).u16 _ = 0
      rw [upd_ne ne, Bytes.u16_zero]
    rfl
  have ref : ∀ j slot, (State.blank.fs N).ref j slot = 0 := fun j => Fs.ref_of_free (free j)
  have none : ∀ j, 0 < j → ¬ j < State.blank.freeinode := by
    intro j positive
    show ¬ j < 1
    omega
  refine ⟨⟨⟨rfl, le_refl _, by decide, rfl, ?_, ?_⟩,
    fun j positive below => absurd below (none j positive),
    fun j _ => free j⟩, wf, Nat.one_pos, wf.root.le, fun j positive below => absurd below (none j positive),
    fun j positive below => absurd below (none j positive), fun _ mem => absurd mem List.not_mem_nil, ?_⟩
  · refine ⟨fun named => absurd (ref ..) named, fun named => absurd (ref ..) named, fun {b} _ => ?_,
      fun mem => absurd mem (Set.notMem_empty _)⟩
    rw [dataStart_area]
    simp only [ref, Set.mem_empty_iff_false, false_or, exists_const]
    show decide (b < nmeta) = true ↔ _
    rw [decide_eq_true_iff]
    constructor
    · exact Or.inl
    rintro (low | ⟨-, rfl⟩)
    · exact low
    decide
  · intro b past
    show (if _ then upd (fun _ => Bytes.zero) 1 sbBlock b else _ : Block) = _
    split
    · have low : 46 ≤ b := past
      have ne : b ≠ 1 := by omega
      rw [upd_ne ne]
    rfl
  show upd (fun _ => Bytes.zero) 1 sbBlock 1 = sbBlock
  rw [upd_self]

/-- What `main` ends with: the files are in the image, and the bitmap shows their blocks. -/
structure Image (N : Nat) (files : List Input) (t : State) : Prop extends Layout N (contents files) (t.fs N) t where
  wf : (area N).Wf
  made : t.freeinode = files.length + 2
  count : t.freeblock = space files
  image : Fs.ofBuf (area N) t.image = t.fs N
  root : ((t.fs N).inode ROOTINO).size = (DIRENTSIZE * (files.length + 2) / BSIZE + 1) * BSIZE
  size : ∀ j, 1 < j → j < t.freeinode → ((t.fs N).inode j).size = (contents files j).length
  type : ∀ j, 0 < j → j < t.freeinode → ((t.fs N).inode j).type = if j = ROOTINO then T_DIR else T_FILE
  writes : ∀ sec ∈ t.inodeWrites, sb.inodestart ≤ sec ∧ sec < sb.bmapstart
  super : t.image 1 = sbBlock

theorem fs_put_bitmap (wf : (area N).Wf) (s : State) (x : Block) :
    (s.put sb.bmapstart x).fs N = s.fs N := by
  ext1
  case used => rfl
  case inode =>
    funext j
    exact Fs.ofBuf_inode_congr fun low => upd_ne (ne_of_lt (iblock_lt wf low).2) _ _
  case data =>
    funext b
    refine Fs.ofBuf_data_congr fun low _ => upd_ne ?_ _ _
    rw [dataStart_area] at low
    exact ne_of_gt (lt_of_lt_of_le (by decide) low)

theorem ofBuf_put_bitmap {s : State} (high : s.freeblock ≤ FSSIZE) :
    Fs.ofBuf (area N) (s.put sb.bmapstart (bitmap s.freeblock)).image =
      (s.put sb.bmapstart (bitmap s.freeblock)).fs N := by
  ext1
  case inode => rfl
  case data => rfl
  case used =>
    funext b
    show (if b < FSSIZE then _ else _) = decide (b < s.freeblock)
    split
    · rename_i low
      have block : (area N).bblock b = sb.bmapstart := by
        show b / 8192 + sb.bmapstart = sb.bmapstart
        simp only [FSSIZE] at low
        omega
      have index : b % BPB = b := by
        simp only [BPB, FSSIZE, BSIZE] at low ⊢
        omega
      rw [block, State.put_image, upd_self, bit_bitmap (le_trans high (by decide)), index]
    exact (decide_eq_false (by omega)).symm

theorem dots_ends {s : State} (made : Made N (fun _ => []) s) (next : s.freeinode = 2) (blocks : s.freeblock = nmeta)
    {rest : Mk Unit} {post : Unit → State → Prop}
    (ends : ∀ t, t.freeinode = 2 → t.freeblock = nmeta + 1 → Made N (contents []) t →
      Ends err rest post t) :
    Ends err (do iappend ROOTINO (dirent ROOTINO dotName); iappend ROOTINO (dirent ROOTINO dotdotName); rest) post s := by
  have one : need DIRENTSIZE = 1 := by decide
  have zero : need 0 = 0 := by decide
  have two : need (DIRENTSIZE + DIRENTSIZE) = 1 := by decide
  have small : nmeta + 1 ≤ FSSIZE := by decide
  refine wp_seq _ (iappend_ends made (i := ROOTINO) (by decide)
    (show 1 < s.freeinode by omega) ?_ ?_) ?_
  · rw [length_dirent, length_nil, zero_add]
    intro past
    omega
  · rw [length_dirent, length_nil]
    exact fun long => absurd long (by decide)
  rintro - t ⟨next', blocks', made'⟩
  rw [length_dirent, length_nil, zero_add] at blocks'
  rw [nil_append] at made'
  refine wp_seq _ (iappend_ends made' (i := ROOTINO) (by decide)
    (show 1 < t.freeinode by omega) ?_ ?_) ?_
  · rw [upd_self, length_dirent, length_dirent]
    intro past
    omega
  · rw [upd_self, length_dirent, length_dirent]
    exact fun long => absurd long (by decide)
  rintro - u ⟨next'', blocks'', made''⟩
  rw [upd_self, length_dirent, length_dirent] at blocks''
  have start : upd (upd (fun _ => []) ROOTINO (dirent ROOTINO dotName)) ROOTINO
      (upd (fun _ => []) ROOTINO (dirent ROOTINO dotName) ROOTINO ++ dirent ROOTINO dotdotName) = contents [] := by
    funext i
    rw [upd_idem, upd_self]
    by_cases eq : i = ROOTINO
    · rw [eq, upd_self, contents_root, rootBytes]
      simp [entries]
    rw [upd_ne eq, contents, if_neg eq]
    simp
  rw [start] at made''
  exact ends u (by omega) (by omega) made''

theorem Made.toImage {files : List Input} {v : State} {d : Dinode} (made : Made N (contents files) v)
    (last : v.freeinode = files.length + 2) (count : v.freeblock = space files) (range : d.InRange)
    (rounded : d = { (v.fs N).inode ROOTINO with size := (DIRENTSIZE * (files.length + 2) / BSIZE + 1) * BSIZE }) :
    Image N files ((v.wrote ROOTINO d).put sb.bmapstart (bitmap v.freeblock)) := by
  have low : ROOTINO < N := made.wf.root
  have below : ROOTINO < v.freeinode := show 1 < v.freeinode by omega
  have fs : ((v.wrote ROOTINO d).put sb.bmapstart (bitmap v.freeblock)).fs N =
      (v.fs N).setInode ROOTINO d := by
    rw [fs_put_bitmap made.wf, fs_wrote made.wf low range]
    rfl
  have live : ((v.fs N).inode ROOTINO).type ≠ 0 := (made.holds ROOTINO (by decide) below).live
  have layout := made.toLayout.setSize live ((DIRENTSIZE * (files.length + 2) / BSIZE + 1) * BSIZE)
  rw [← rounded, ← fs] at layout
  have other : ∀ j, j ≠ ROOTINO → ((v.fs N).setInode ROOTINO d).inode j = (v.fs N).inode j :=
    fun j ne => upd_ne ne _ _
  have here : ((v.fs N).setInode ROOTINO d).inode ROOTINO = d := by rw [Fs.setInode_inode, upd_self]
  have high : (v.wrote ROOTINO d).freeblock ≤ FSSIZE := made.high
  refine ⟨layout.state rfl rfl rfl, made.wf, last, count, ofBuf_put_bitmap high, ?_, ?_, ?_,
    made.writes_wrote (d := d) low rfl, ?_⟩
  · rw [fs, here, rounded]
  · intro j some belowJ
    rw [fs, other j (ne_of_gt some)]
    exact made.size j (by omega) belowJ
  · intro j positive belowJ
    rw [fs]
    by_cases eq : j = ROOTINO
    · rw [eq, here, rounded]
      exact made.type ROOTINO (by decide) below
    rw [other j eq]
    exact made.type j positive belowJ
  show upd (v.wrote ROOTINO d).image sb.bmapstart (bitmap v.freeblock) 1 = sbBlock
  rw [upd_ne (by decide), image_one_wrote made.wf low]
  exact made.super

theorem close_ends {files : List Input} {v : State} (made : Made N (contents files) v)
    (last : v.freeinode = files.length + 2) (count : v.freeblock = space files)
    (few : files.length ≤ 206) :
    Ends err (do
      let din ← rinode ROOTINO
      winode ROOTINO { din with size := (din.size / BSIZE + 1) * BSIZE }
      balloc (← Prog.get).freeblock) (fun _ t => Image N files t) v := by
  have low : ROOTINO < N := made.wf.root
  have size := made.size ROOTINO (by decide) (show 1 < v.freeinode by omega)
  rw [contents_root, length_rootBytes] at size
  rw [rinode_bind made.wf low made.length, size]
  have range : Dinode.InRange { (v.fs N).inode ROOTINO with
      size := (DIRENTSIZE * (files.length + 2) / BSIZE + 1) * BSIZE } := by
    have old := fs_inRange v N ROOTINO
    refine ⟨old.type, old.major, old.minor, old.nlink, ?_, old.addrs⟩
    simp only [DIRENTSIZE, BSIZE]
    omega
  refine wp_seq (fun _ t => t = v.wrote ROOTINO _) (winode_ends made.wf low made.length rfl) ?_
  rintro - w rfl
  rw [wp_get_bind]
  refine wp_guard (fun many => absurd (lt_of_le_of_lt made.high (by decide)) many) fun _ => ?_
  exact ends_wsect (by decide) made.length (made.toImage last count range rfl)

theorem main_ends (files : List Input) (room : N ≤ 208) (few : files.length + 2 ≤ N)
    (named : ∀ f ∈ files, slash ∈ stripUser f.path → err .slash)
    (opened : ∀ f ∈ files, f.chunks = none → err (.open f.path))
    (full : FSSIZE < space files → err .read)
    (big : ∀ f ∈ files, MAXFILE * BSIZE < f.bytes.length → err .maxfile) :
    Ends err (main files) (fun _ t => Image N files t) State.start := by
  have wf : (area N).Wf := area_wf (show 1 < N by omega) room
  unfold main
  rw [Ends, Prog.wp_act_bind]
  refine ⟨trivial, wp_seq _ (zeros_ends _ rfl rfl) ?_⟩
  rintro - s rfl
  refine (ends_wsect_bind (by decide) rfl).mpr ?_
  show Ends err _ _ State.blank
  refine wp_seq _ (ialloc_ends (made_blank wf) (show 1 < N by omega) rfl rfl) ?_
  rintro inum s ⟨first, next, blocks, made⟩
  obtain rfl : inum = ROOTINO := first
  refine wp_guard (fun wrong => absurd rfl wrong) fun _ => ?_
  refine dots_ends made next blocks fun t next blocks made => ?_
  have empty : space [] = nmeta + 1 := by decide
  refine wp_seq _ (addFiles_ends files made (by rw [length_nil]; omega) (by omega)
    (by simpa using few) named opened
    (by simpa using full) big) ?_
  rintro - v ⟨last, count, made⟩
  rw [nil_append] at last count made
  exact close_ends made last count (by omega)

end Main

end Xv6.Mkfs
