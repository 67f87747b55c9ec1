import Xv6.Mkfs.Run
import Xv6.Fs.Dirs

/-!
# The image and the kernel

What the kernel finds in an image: `dirlookup` on the root directory finds each file, and `readi`
reads its bytes. Two conditions that `mkfs` does not check decide how good the image is. There may
be more files than inodes, and the size of the root directory may be rounded up past its last block.
-/

namespace Xv6.Mkfs

open List (length_replicate getD_eq_getElem?_getD flatMap_cons)

def Exits (files : List Input) (t : State) : Prop := (main files State.start).result = .ok ((), t)

theorem Exits.image {files : List Input} {t : State} (ok : Exits files t) {N : Nat} (room : N ≤ 208)
    (few : files.length + 2 ≤ N) : Image N files t := by
  have ends : Ends (fun _ => True) (main files) (fun _ t => Image N files t) State.start :=
    main_ends files room few (fun _ _ _ => trivial) (fun _ _ _ => trivial) (fun _ => trivial) fun _ _ _ => trivial
  exact ends.post_of_ok ok

theorem exits_of_fits {files : List Input} (few : files.length + 2 ≤ 208)
    (fits : space files ≤ FSSIZE) (named : ∀ f ∈ files, slash ∉ stripUser f.path)
    (opened : ∀ f ∈ files, f.chunks ≠ none)
    (small : ∀ f ∈ files, f.bytes.length ≤ MAXFILE * BSIZE) : ∃ t, Exits files t := by
  have ends : Ends (fun _ => False) (main files) (fun _ t => Image 208 files t) State.start :=
    main_ends files (le_refl _) few (fun f mem has => named f mem has) (fun f mem none => opened f mem none)
      (fun past => absurd past (by omega)) fun f mem long => absurd (small f mem) (by omega)
  obtain ⟨⟨⟩, t, ok, -⟩ := ends.exists_ok
  exact ⟨t, ok⟩

theorem ofBlock_sbBlock : Superblock.ofBlock sbBlock = sb := by
  have field : ∀ {b : Block} {off v : Nat}, off + 4 ≤ BSIZE → v < 4294967296 →
      (b.setU32 off v).u32 off = v := by
    intro b off v room word
    rw [Bytes.u32_setU32 room]
    exact Nat.mod_eq_of_lt word
  have other : ∀ {b : Block} {off off' v : Nat}, off' + 4 ≤ off →
      (b.setU32 off v).u32 off' = b.u32 off' :=
    fun apart => Bytes.u32_write_out (by omega)
  unfold Superblock.ofBlock sbBlock
  simp (disch := decide) only [field, other]

/-! ## Too many files -/

section Makes

variable {α β : Type} {n a b : Nat}

/-- Unless it stops, the program makes so many inodes. -/
def Makes (n : Nat) (m : Mk α) : Prop := ∀ s, Ends (fun _ => True) m (fun _ t => t.freeinode = s.freeinode + n) s

theorem Makes.bind {m : Mk α} {next : α → Mk β} (first : Makes a m) (rest : ∀ x, Makes b (next x)) :
    Makes (a + b) (m >>= next) := by
  intro s
  refine Prog.wp_seq _ (first s) fun x t made => ((rest x) t).mono fun _ u more => ?_
  omega

theorem Makes.skip {m : Mk α} {next : α → Mk β} (first : Makes 0 m) (rest : ∀ x, Makes b (next x)) :
    Makes b (m >>= next) := by
  rw [← Nat.zero_add b]
  exact first.bind rest

theorem Makes.pure (x : α) : Makes 0 (pure x : Mk α) := fun _ => Prog.wp_pure rfl

theorem Makes.fail (e : Failure) : Makes n (Prog.fail e : Mk α) := fun _ => Prog.wp_fail trivial

theorem Makes.get {next : State → Mk β} (rest : ∀ s, Makes b (next s)) :
    Makes b (Prog.get >>= next) :=
  fun s => rest s s

theorem Makes.act {f : State → State} (more : ∀ s, (f s).freeinode = s.freeinode + n) :
    Makes n (Prog.act f : Mk Unit) :=
  fun s => Prog.wp_act trivial (more s)

theorem Makes.ite {c : Prop} [Decidable c] {m m' : Mk α} (yes : Makes n m) (no : Makes n m') :
    Makes n (if c then m else m') := by
  split
  · exact yes
  exact no

theorem Makes.guard {c : Prop} [Decidable c] {e : Failure} {rest : Unit → Mk α}
    (go : Makes n (rest ())) :
    Makes n (if c then Prog.fail e >>= rest else rest ()) :=
  fun s => Prog.wp_guard (fun _ => trivial) fun _ => go s

theorem makes_wsect (sec : Nat) (buf : Block) : Makes 0 (wsect sec buf) := .act fun _ => rfl

theorem makes_rsect (sec : Nat) : Makes 0 (rsect sec) := by
  unfold rsect
  exact .get fun _ => .guard (.pure _)

theorem makes_rinode (inum : Nat) : Makes 0 (rinode inum) := (makes_rsect _).skip fun _ => .pure _

theorem makes_winode (inum : Nat) (ip : Dinode) : Makes 0 (winode inum ip) := by
  unfold winode
  exact (makes_rsect _).skip fun _ => (makes_wsect _ _).skip fun _ => .act fun _ => rfl

theorem makes_ialloc (type : Nat) : Makes 1 (ialloc type) := by
  unfold ialloc
  exact .get fun _ => (Makes.act (n := 1) fun _ => rfl).bind fun _ => (makes_winode _ _).skip fun _ => .pure _

theorem makes_nextBlock : Makes 0 nextBlock := by
  unfold nextBlock
  exact .get fun _ => (Makes.act fun _ => rfl).skip fun _ => .pure _

theorem makes_blockOf (din : Dinode) (fbn : Nat) : Makes 0 (blockOf din fbn) := by
  have indirect : Makes 0 (indirectOf din) := .ite (makes_nextBlock.skip fun _ => .pure _) (.pure _)
  have entry : ∀ din j, Makes 0 (entryOf din j) := fun din j => (makes_rsect _).skip fun _ =>
    .ite (makes_nextBlock.skip fun _ => (makes_wsect _ _).skip fun _ => .pure _) (.pure _)
  exact .ite (.ite (makes_nextBlock.skip fun _ => .pure _) (.pure _))
    (indirect.skip fun din => entry din _)

theorem makes_iappendLoop (fuel : Nat) : ∀ p din off, Makes 0 (iappendLoop fuel p din off) := by
  induction fuel with
  | zero => exact fun p din off => .pure _
  | succ fuel ih =>
    intro p din off
    refine .ite (.pure _) (.guard ?_)
    exact (makes_blockOf _ _).skip fun _ => (makes_rsect _).skip fun _ => (makes_wsect _ _).skip fun _ => ih _ _ _

theorem makes_iappend (inum : Nat) (p : List UInt8) : Makes 0 (iappend inum p) :=
  (makes_rinode _).skip fun _ => (makes_iappendLoop _ _ _ _).skip fun _ => makes_winode _ _

theorem makes_addFiles (rootino : Nat) (files : List Input) :
    Makes files.length (addFiles rootino files) := by
  have chunks : ∀ inum (all : List Chunk), Makes 0 (appendChunks inum all) := by
    intro inum all
    induction all with
    | nil => exact .pure _
    | cons chunk rest ih => exact (makes_iappend _ _).skip fun _ => ih
  have one : ∀ file, Makes 1 (addFile rootino file) := by
    intro file
    refine .guard ?_
    split
    · exact .fail _
    exact (makes_ialloc _).bind fun _ => (makes_iappend _ _).skip fun _ => chunks _ _
  induction files with
  | nil => exact .pure _
  | cons file rest ih =>
    rw [List.length_cons, Nat.add_comm]
    exact (one file).bind fun _ => ih

/-- Nothing limits the number of inodes: there is one for every file and one for the root. -/
theorem Exits.freeinode {files : List Input} {t : State} (ok : Exits files t) :
    t.freeinode = files.length + 2 := by
  have zeros : ∀ n lo, Makes 0 (Prog.forRange lo n fun i => wsect i Bytes.zero) := by
    intro n
    induction n with
    | zero => exact fun lo => .pure _
    | succ n ih => exact fun lo => (makes_wsect _ _).skip fun _ => ih _
  have all : Makes (1 + files.length) (main files) := by
    unfold main
    refine (Makes.act fun _ => rfl).skip fun _ => (zeros _ _).skip fun _ => (makes_wsect _ _).skip fun _ =>
      (makes_ialloc _).bind fun rootino => .guard ?_
    refine (makes_iappend _ _).skip fun _ => (makes_iappend _ _).skip fun _ => ?_
    refine (makes_addFiles _ files).bind (b := 0) fun _ => ?_
    exact (makes_rinode _).skip fun _ => (makes_winode _ _).skip fun _ => .get fun _ => .guard (makes_wsect _ _)
  have made := (all State.start).post_of_ok ok
  have start : State.start.freeinode = 1 := rfl
  omega

end Makes

/-- `mkfs` keeps to the image it announces in the superblock if and only if there are inodes for
the files. A list that needs more blocks ends in a short read; nothing tests the number of files.
-/
theorem mkfs_keeps_to_image {files : List Input} {t : State} (ok : Exits files t) :
    (Superblock.ofBlock (t.image 1) = sb ∧ (∀ i, 0 < i → i < t.freeinode → i < sb.ninodes) ∧
      (∀ i slot, (Fs.ofBuf sb t.image).ref i slot < sb.size) ∧
      ∀ sec ∈ t.inodeWrites, sb.inodestart ≤ sec ∧ sec < sb.bmapstart) ↔
        files.length + 2 ≤ NINODES := by
  have made := ok.freeinode
  constructor
  · rintro ⟨-, below, -⟩
    have last : files.length + 1 < NINODES := below _ (by omega) (by omega)
    omega
  intro few
  have image := ok.image (N := NINODES) (by decide) few
  have shown : Fs.ofBuf sb t.image = t.fs NINODES := image.image
  refine ⟨by rw [image.super, ofBlock_sbBlock], fun i _ below => ?_, fun i slot => ?_, image.writes⟩
  · show i < NINODES
    omega
  rw [shown]
  by_cases named : (t.fs NINODES).ref i slot = 0
  · rw [named]
    decide
  exact (image.owned.area named).2

def emptyFile : Input := ⟨[97], by decide, some []⟩

theorem exits_empty {n : Nat} (few : n + 2 ≤ 208) : ∃ t, Exits (List.replicate n emptyFile) t := by
  have only : ∀ f ∈ List.replicate n emptyFile, f = emptyFile :=
    fun f mem => (List.mem_replicate.mp mem).2
  refine exits_of_fits (by simpa using few) ?_ (fun f mem => ?_) (fun f mem => ?_) fun f mem => ?_
  · have root : need (DIRENTSIZE * (n + 2)) ≤ need (DIRENTSIZE * 208) :=
      need_mono (Nat.mul_le_mul_left _ few)
    have small : nmeta + need (DIRENTSIZE * 208) ≤ FSSIZE := by decide
    have zero : need emptyFile.bytes.length = 0 := by decide
    simp only [space, length_replicate, List.map_replicate, zero, List.sum_replicate, smul_zero,
      add_zero]
    omega
  · rw [only f mem]
    decide
  · rw [only f mem]
    decide
  rw [only f mem]
  decide

/-- The files `user/_sh` with three bytes, which `read` returned in two pieces, and `README` with
one. -/
def shell : Input := ⟨user ++ [95, 115, 104], by decide, some [⟨[1, 2], by decide⟩, ⟨[3], by decide⟩]⟩

@[inherit_doc shell]
def readme : Input := ⟨[82, 69, 65, 68, 77, 69], by decide, some [⟨[35], by decide⟩]⟩

theorem exits_shell : ∃ t, Exits [shell, readme] t :=
  exits_of_fits (by decide) (by decide) (by decide) (by decide) (by decide)

theorem shell_keeps_to_image : ∃ t, Exits [shell, readme] t ∧ t.freeinode = 4 ∧
    ∀ sec ∈ t.inodeWrites, sb.inodestart ≤ sec ∧ sec < sb.bmapstart := by
  obtain ⟨t, ok⟩ := exits_shell
  exact ⟨t, ok, ok.freeinode, ((mkfs_keeps_to_image ok).mpr (by decide)).2.2.2⟩

/-- The last of 199 files gets inode 200, and there are 200 inodes. -/
theorem manyFiles_past_inodes :
    ∃ files t, Exits files t ∧ ¬ ∀ i, 0 < i → i < t.freeinode → i < sb.ninodes := by
  obtain ⟨t, ok⟩ := exits_empty (n := 199) (by decide)
  have made : t.freeinode = 201 := by
    rw [ok.freeinode, List.length_replicate]
  refine ⟨_, t, ok, fun below => ?_⟩
  exact absurd (below 200 (by decide) (by omega)) (by decide)

/-! ## Holes -/

section Holes

variable {N : Nat} {files : List Input} {t : State}

theorem Image.ref_ne_zero (image : Image N files t) (part : (files.length + 2) % 64 ≠ 0)
    {i bn : Nat} (live : ((t.fs N).inode i).type ≠ 0)
    (below : bn * BSIZE < ((t.fs N).inode i).size) :
    (t.fs N).ref i (.block bn) ≠ 0 := by
  have made : 0 < i ∧ i < t.freeinode := by
    by_contra unused
    exact live (image.free i (by omega))
  rw [(image.holds i made.1 made.2).block]
  by_cases root : i = ROOTINO
  · rw [root, image.root] at below
    rw [root, contents_root, length_rootBytes]
    simp only [DIRENTSIZE, BSIZE] at below ⊢
    omega
  rwa [image.size i (by change i ≠ 1 at root; omega) made.2] at below

theorem Image.noHoles (image : Image N files t) (part : (files.length + 2) % 64 ≠ 0) :
    (t.fs N).NoHoles := by
  intro i bn below
  by_cases live : ((t.fs N).inode i).type = 0
  · rw [Fs.node_of_free live] at below
    exact absurd below (Nat.not_lt_zero _)
  rw [Fs.node_of_alloc live] at below
  exact image.ref_ne_zero part live below

end Holes

section Names

variable {a b : List UInt8}

theorem chars_take (s : List UInt8) (n j : Nat) :
    chars (s.take n) j = if j < n then chars s j else 0 := by
  unfold chars
  rw [getD_eq_getElem?_getD, getD_eq_getElem?_getD, List.getElem?_take]
  split
  · rfl
  rfl

theorem chars_of_le {j : Nat} (past : a.length ≤ j) : chars a j = 0 := by
  unfold chars
  rw [getD_eq_getElem?_getD, List.getElem?_eq_none past]
  rfl

theorem chars_of_lt {j : Nat} (low : j < a.length) : chars a j = a[j] := by
  unfold chars
  rw [getD_eq_getElem?_getD, List.getElem?_eq_getElem low]
  rfl

theorem chars_eq_zero (string : 0 ∉ a) {j : Nat} : chars a j = 0 ↔ a.length ≤ j := by
  constructor
  · intro zero
    by_contra low
    rw [chars_of_lt (by omega)] at zero
    exact string (zero ▸ List.getElem_mem _)
  exact chars_of_le

theorem strncpy_chars (string : 0 ∉ a) : strncpy (chars a) = chars a := by
  funext j
  unfold strncpy
  split
  · rfl
  rename_i early
  rw [List.all_eq_true] at early
  push Not at early
  obtain ⟨i, mem, zero⟩ := early
  rw [ne_eq, decide_eq_true_iff, not_not, chars_eq_zero string] at zero
  have low := List.mem_range.mp mem
  exact (chars_of_le (by omega)).symm

theorem sameName_self (s : Name) (n i : Nat) : sameName s s n i = true := by
  induction n generalizing i with
  | zero => rfl
  | succ n ih =>
    unfold sameName
    split
    · exact decide_eq_true (by assumption)
    rw [if_pos rfl]
    exact ih (i + 1)

theorem eq_of_sameName (left : 0 ∉ a) (right : 0 ∉ b) {n i : Nat}
    (same : sameName (chars a) (chars b) n i = true) :
    ∀ j, i ≤ j → j < i + n → chars a j = chars b j := by
  induction n generalizing i with
  | zero =>
    intro j low high
    omega
  | succ n ih =>
    intro j low high
    unfold sameName at same
    split at same
    · -- both strings have ended
      rename_i zero
      have zero' := of_decide_eq_true same
      rw [chars_eq_zero left] at zero
      rw [chars_eq_zero right] at zero'
      rw [chars_of_le (by omega), chars_of_le (by omega)]
    split at same
    · rename_i eq
      by_cases here : j = i
      · rw [here, eq]
      exact ih same j (by omega) (by omega)
    cases same

theorem eq_of_namecmp (left : 0 ∉ a) (right : 0 ∉ b) (shortA : a.length ≤ DIRSIZ)
    (shortB : b.length ≤ DIRSIZ) (same : namecmp (chars a) (chars b) = true) : a = b := by
  have agree : ∀ j, chars a j = chars b j := by
    intro j
    by_cases inside : j < DIRSIZ
    · exact eq_of_sameName left right same j zero_le (by omega)
    rw [chars_of_le (by omega), chars_of_le (by omega)]
  have length : a.length = b.length := by
    refine le_antisymm ?_ ?_
    · rw [← chars_eq_zero left, agree]
      exact chars_of_le (le_refl _)
    rw [← chars_eq_zero right, ← agree]
    exact chars_of_le (le_refl _)
  refine List.ext_getElem length fun j lowA lowB => ?_
  rw [← chars_of_lt lowA, ← chars_of_lt lowB]
  exact agree j

end Names

/-- The name of the file in its directory entry. -/
def Input.name (file : Input) : List UInt8 := file.shortname.take DIRSIZ

theorem mem_of_mem_stripUnderscore {s : List UInt8} {c : UInt8} (mem : c ∈ stripUnderscore s) :
    c ∈ s := by
  unfold stripUnderscore at mem
  split at mem
  · exact List.mem_of_mem_tail mem
  exact mem

theorem Input.zero_not_mem_shortname (file : Input) : 0 ∉ file.shortname := by
  intro mem
  have stripped := mem_of_mem_stripUnderscore mem
  unfold stripUser at stripped
  split at stripped
  · exact file.string (List.mem_of_mem_drop stripped)
  exact file.string stripped

theorem Input.zero_not_mem_name (file : Input) : 0 ∉ file.name :=
  fun mem => file.zero_not_mem_shortname (List.mem_of_mem_take mem)

/-! ## The root directory -/

/-- The entries of the root directory: number and name. -/
def rootEntries (files : List Input) : List (Nat × List UInt8) :=
  (ROOTINO, [46]) :: (ROOTINO, [46, 46]) :: (files.zipIdx 2).map fun f => (f.2, f.1.shortname)

theorem rootBytes_eq (files : List Input) :
    rootBytes files = (rootEntries files).flatMap fun e => dirent e.1 (chars e.2) := by
  have dot : dotName = chars [46] := by
    funext j
    rcases j with - | j
    · rfl
    rw [chars_of_le (by simp)]
    exact if_neg (by omega)
  have dotdot : dotdotName = chars [46, 46] := by
    funext j
    rcases j with - | - | j
    · rfl
    · rfl
    rw [chars_of_le (by simp)]
    exact if_neg (by omega)
  have rest : entries files = ((files.zipIdx 2).map fun f => (f.2, f.1.shortname)).flatMap
      fun e => dirent e.1 (chars e.2) := by
    unfold entries
    rw [List.flatMap_map]
    refine congrArg (fun g => List.flatMap g _) (funext fun f => ?_)
    rw [strncpy_chars f.1.zero_not_mem_shortname]
  rw [rootBytes, rest, dot, dotdot, rootEntries, flatMap_cons, flatMap_cons, List.append_assoc]

theorem getD_flatMap {α : Type} (g : α → List UInt8) {m : Nat} (size : ∀ x, (g x).length = m) {x : α} {j : Nat}
    (inside : j < m) : ∀ {l : List α} {s : Nat}, l[s]? = some x →
      (l.flatMap g).getD (m * s + j) 0 = (g x).getD j 0
  | [], _, found => nomatch found
  | y :: l, 0, found => by
    obtain rfl : y = x := Option.some.inj found
    rw [flatMap_cons, getD_eq_getElem?_getD, getD_eq_getElem?_getD, Nat.mul_zero, zero_add,
      List.getElem?_append_left (by rw [size]; exact inside)]
  | y :: l, s + 1, found => by
    have index : m * (s + 1) + j - (g y).length = m * s + j := by
      rw [size, Nat.mul_succ]
      omega
    rw [flatMap_cons, getD_eq_getElem?_getD,
      List.getElem?_append_right (by rw [size, Nat.mul_succ]; omega), index, ← getD_eq_getElem?_getD]
    exact getD_flatMap g size inside found

theorem length_rootEntries (files : List Input) :
    (rootEntries files).length = files.length + 2 := by
  simp [rootEntries]

theorem rootEntries_file {files : List Input} {k : Nat} (low : k < files.length) :
    (rootEntries files)[k + 2]? = some (k + 2, files[k].shortname) := by
  simp [rootEntries, List.getElem?_eq_getElem low, Nat.add_comm]

section Root

variable {N : Nat} {files : List Input} {t : State}

theorem length_lt_of_entry {s : Nat} {e : Nat × List UInt8}
    (found : (rootEntries files)[s]? = some e) :
    s < files.length + 2 := by
  obtain ⟨low, -⟩ := List.getElem?_eq_some_iff.mp found
  rwa [length_rootEntries] at low

theorem Image.dirent (image : Image N files t) {s inum : Nat} {name : List UInt8}
    (found : (rootEntries files)[s]? = some (inum, name)) (word : inum < 65536) :
    (((t.fs N).node ROOTINO).dirent s).inum = inum ∧
      (((t.fs N).node ROOTINO).dirent s).name = chars (name.take DIRSIZ) := by
  have low := length_lt_of_entry found
  have made : ROOTINO < t.freeinode := by
    show 1 < t.freeinode
    rw [image.made]
    omega
  have holds := image.holds ROOTINO (by decide) made
  have bytes : ∀ j < DIRENTSIZE, ((t.fs N).node ROOTINO).byte (DIRENTSIZE * s + j) =
      Dirent.byte ⟨inum, chars name⟩ j := by
    intro j inside
    have room : DIRENTSIZE * s + j < (contents files ROOTINO).length := by
      rw [contents_root, length_rootBytes]
      simp only [DIRENTSIZE] at inside ⊢
      omega
    rw [holds.byte _ room, contents_root, rootBytes_eq,
      getD_flatMap (fun e : Nat × List UInt8 => Mkfs.dirent e.1 (chars e.2)) (fun _ => length_dirent _ _) inside found]
    simp [Mkfs.dirent, getD_eq_getElem?_getD, List.getElem?_range inside]
  have record : ((t.fs N).node ROOTINO).dirent s = Dirent.ofBytes (Dirent.byte ⟨inum,
      chars name⟩) :=
    Dirent.ofBytes_congr bytes
  obtain ⟨number, string⟩ := @Dirent.ofBytes_byte ⟨inum, chars name⟩ word
  rw [record]
  refine ⟨number, funext fun j => ?_⟩
  rw [chars_take]
  split
  · rename_i inside
    exact string j inside
  rename_i past
  exact if_neg past

end Root

/-! ## The kernel on the image -/

/-- The kernel has read the image, and entry `ip` of its inode table is inode `i` as `ilock` loads
it. -/
structure InCore (image : Nat → Block) (k : Kernel) (ip i : Nat) : Prop where
  sb : k.sb = Superblock.ofBlock (image 1)
  buf : k.buf = image
  inum : (k.itable ip).inum = i
  d : (k.itable ip).d = Dinode.ofBlock (k.buf (k.sb.iblock i)) (i % IPB)

section Kernel

variable {files : List Input} {t : State} {k : Kernel}

theorem InCore.inode {ip i : Nat} (core : InCore t.image k ip i) (image : Image NINODES files t)
    (below : i < t.freeinode) (few : files.length + 2 ≤ NINODES) :
    (k.itable ip).d = (t.fs NINODES).inode i := by
  have low : i < NINODES := by
    rw [image.made] at below
    omega
  have super : k.sb = Mkfs.sb := by rw [core.sb, image.super, ofBlock_sbBlock]
  rw [core.d, super, core.buf]
  exact (Fs.ofBuf_inode (show i < (area NINODES).ninodes from low)).symm

theorem InCore.shown {ip i : Nat} (core : InCore t.image k ip i) (image : Image NINODES files t)
    (positive : 0 < i) (below : i < t.freeinode) (few : files.length + 2 ≤ NINODES) :
    Shown (t.fs NINODES) k ip := by
  have inode := core.inode image below few
  refine ⟨by rw [inode, core.inum], ?_, fun {slot} named => ?_⟩
  · rw [core.inum]
    exact (image.holds i positive below).live
  have area := image.owned.area named
  rw [core.buf]
  exact (Fs.ofBuf_data area.1 area.2).symm

theorem iget_finds (room : ∃ e < NINODE, (k.itable e).ref = 0) (dev inum : Nat) :
    Prog.wp (fun _ => True) (fun _ => False) (iget dev inum) (fun ip k' => (k'.itable ip).dev = dev ∧
      (k'.itable ip).inum = inum ∧ k'.buf = k.buf ∧ k'.sb = k.sb) k := by
  rw [iget, Prog.wp_get_bind]
  dsimp only
  split
  · rename_i ip cached
    have hit := List.find?_some cached
    obtain ⟨-, sameDev, sameInum⟩ := of_decide_eq_true hit
    rw [wp_setInode_bind]
    refine ⟨trivial, Prog.wp_pure ⟨?_, ?_, rfl, rfl⟩⟩
    · simpa using sameDev
    simpa using sameInum
  split
  · rw [wp_setInode_bind]
    exact ⟨trivial, Prog.wp_pure (by simp)⟩
  rename_i unused
  obtain ⟨e, low, free⟩ := room
  exact absurd (decide_eq_true free) (List.find?_eq_none.mp unused e (List.mem_range.mpr low))

theorem Image.miss (image : Image NINODES files t) {j : Nat} (low : j < files.length)
    (few : files.length + 2 ≤ NINODES) (distinct : files.Pairwise fun f g => f.name ≠ g.name)
    (dots : files[j].name ≠ [46] ∧ files[j].name ≠ [46, 46]) {s : Nat} (before : s < j + 2) :
    ¬ namecmp (chars files[j].name) (((t.fs NINODES).node ROOTINO).dirent s).name := by
  have word : NINODES ≤ 65536 := by decide
  have short : ∀ f : Input, f.name.length ≤ DIRSIZ := fun f => by
    unfold Input.name
    rw [List.length_take]
    exact Nat.min_le_left _ _
  have string := files[j].zero_not_mem_name
  have dot : (rootEntries files)[0]? = some (ROOTINO, [46]) := rfl
  have dotdot : (rootEntries files)[1]? = some (ROOTINO, [46, 46]) := rfl
  rcases s with - | - | i
  · rw [(image.dirent dot (by decide)).2]
    exact fun same => dots.1 (eq_of_namecmp string (by decide) (short _) (by decide) same)
  · rw [(image.dirent dotdot (by decide)).2]
    exact fun same => dots.2 (eq_of_namecmp string (by decide) (short _) (by decide) same)
  have lowI : i < files.length := by omega
  rw [(image.dirent (rootEntries_file lowI) (by omega)).2]
  intro same
  have eq := eq_of_namecmp string files[i].zero_not_mem_name (short _) (short _) same
  exact List.pairwise_iff_getElem.mp distinct i j lowI low (by omega) eq.symm

theorem InCore.dirlookup {dp j : Nat} (core : InCore t.image k dp ROOTINO)
    (image : Image NINODES files t) (few : files.length + 2 ≤ NINODES) (low : j < files.length)
    (distinct : files.Pairwise fun f g => f.name ≠ g.name)
    (dots : files[j].name ≠ [46] ∧ files[j].name ≠ [46, 46])
    (room : ∃ e < NINODE, (k.itable e).ref = 0) :
    Prog.wp (fun _ => True) (fun _ => False) (dirlookup dp (chars files[j].name)) (fun r k' =>
      ∃ ip, r = some (ip, DIRENTSIZE * (j + 2)) ∧ (k'.itable ip).dev = (k.itable dp).dev ∧
        (k'.itable ip).inum = j + 2 ∧ k'.buf = k.buf ∧ k'.sb = k.sb) k := by
  have word : NINODES ≤ 65536 := by decide
  have made : ROOTINO < t.freeinode := by
    show 1 < t.freeinode
    rw [image.made]
    omega
  have shown := core.shown image (by decide) made few
  have inode := core.inode image made few
  have type : (k.itable dp).d.type = T_DIR := by
    rw [inode]
    exact image.type ROOTINO (by decide) made
  have size : (k.itable dp).d.size = (DIRENTSIZE * (files.length + 2) / BSIZE + 1) * BSIZE := by
    rw [inode]
    exact image.root
  have holds := image.holds ROOTINO (by decide) made
  obtain ⟨number, string⟩ := image.dirent (rootEntries_file low) (by omega)
  have found : Prog.Returns (lookupFrom dp (chars files[j].name) (slots (k.itable dp).d.size)
      (DIRENTSIZE * 0))
      (some ((((t.fs NINODES).node (k.itable dp).inum).dirent (j + 2)).inum, DIRENTSIZE * (j + 2))) k :=
    shown.lookupFrom (by
    rw [size]
    simp only [DIRENTSIZE, BSIZE]
    omega) (by
    intro s before
    rw [size, core.inum, holds.block, contents_root, length_rootBytes]
    simp only [DIRENTSIZE, BSIZE]
    omega) (by
    rw [core.inum, number, string]
    exact ⟨by omega, sameName_self ..⟩) (by
    intro s before
    rw [core.inum]
    exact image.miss low few distinct dots before) (slots (k.itable dp).d.size) 0 zero_le (by
    rw [size]
    simp only [slots, DIRENTSIZE, BSIZE]
    omega)
  rw [core.inum, number, Nat.mul_zero] at found
  simp only [Xv6.dirlookup, wp_inode_bind]
  refine Prog.wp_guard (fun other => absurd type other) fun _ => ?_
  rw [found.wp_bind]
  refine Prog.wp_seq _ (iget_finds room (k.itable dp).dev (j + 2)) ?_
  exact fun ip k' got => Prog.wp_pure ⟨ip, rfl, got⟩

theorem InCore.readi {ip j : Nat} (core : InCore t.image k ip (j + 2))
    (image : Image NINODES files t) (few : files.length + 2 ≤ NINODES) (low : j < files.length) :
    (k.itable ip).d.size = files[j].bytes.length ∧
      ∀ dst off n, (∀ i len, Addr.copied dst i len = len) → off + n ≤ files[j].bytes.length →
        ∃ out, Prog.Returns (readi ip dst off n) ((n : Int), out) k ∧
          ∀ i < n, out i = files[j].bytes.getD (off + i) 0 := by
  have made : j + 2 < t.freeinode := by
    rw [image.made]
    omega
  have shown := core.shown image (Nat.succ_pos _) made few
  have holds := image.holds (j + 2) (Nat.succ_pos _) made
  have size : (k.itable ip).d.size = files[j].bytes.length := by
    rw [core.inode image made few, image.size (j + 2) (by omega) made, contents_file low]
  rw [contents_file low] at holds
  have small : files[j].bytes.length < 2 ^ 32 := lt_of_le_of_lt holds.length_le (by decide)
  refine ⟨size, fun dst off n copies inside => ?_⟩
  obtain ⟨r, out, returns, exact⟩ := shown.readi (by rwa [size]) dst off (n := n) (by omega) (by
    intro o _ _ below
    rw [core.inum, holds.block]
    rw [size] at below
    exact lt_of_le_of_lt (Nat.div_mul_le_self o BSIZE) below)
  obtain ⟨rfl, bytes⟩ := exact copies (by rwa [size])
  refine ⟨out, returns Xv6.balloc, fun i lt => ?_⟩
  rw [bytes i lt, core.inum]
  exact holds.byte _ (by omega)

end Kernel

/-- The kernel reads what `mkfs` wrote. Files that fit, with different names, are put into the
image; the kernel finds each of them in the root directory and reads its bytes, whatever the
pieces were in which `mkfs` had read them. The bitmap shows the blocks below `freeblock`, and no
block is in two places. -/
theorem mkfs_read_by_kernel {files : List Input} (few : files.length + 2 ≤ NINODES)
    (fits : space files ≤ FSSIZE) (opened : ∀ f ∈ files, f.chunks ≠ none)
    (small : ∀ f ∈ files, f.bytes.length ≤ MAXFILE * BSIZE)
    (plain : ∀ f ∈ files, slash ∉ stripUser f.path)
    (distinct : files.Pairwise fun f g => f.name ≠ g.name)
    (dots : ∀ f ∈ files, f.name ≠ [46] ∧ f.name ≠ [46, 46]) :
    ∃ t, Exits files t ∧
      (∀ (k : Kernel) (dp : Nat), InCore t.image k dp ROOTINO →
        (∃ e < NINODE, (k.itable e).ref = 0) →
        ∀ j (low : j < files.length), ∃ ip k',
          (dirlookup dp (chars files[j].name) k).result =
            .ok (some (ip, DIRENTSIZE * (j + 2)), k') ∧
          (k'.itable ip).dev = (k.itable dp).dev ∧ (k'.itable ip).inum = j + 2 ∧ k'.buf = k.buf ∧
            k'.sb = k.sb) ∧
      (∀ j (low : j < files.length) (k : Kernel) (ip : Nat), InCore t.image k ip (j + 2) →
        (k.itable ip).d.size = files[j].bytes.length ∧
        ∀ dst off n, (∀ i len, Addr.copied dst i len = len) → off + n ≤ files[j].bytes.length →
          ∃ out, Prog.Returns (readi ip dst off n) ((n : Int), out) k ∧
            ∀ i < n, out i = files[j].bytes.getD (off + i) 0) ∧
      (∀ b < sb.size, (Fs.ofBuf sb t.image).used b = decide (b < t.freeblock)) ∧
      ∀ i slot i' slot', (Fs.ofBuf sb t.image).ref i slot ≠ 0 →
        (Fs.ofBuf sb t.image).ref i slot = (Fs.ofBuf sb t.image).ref i' slot' → i = i' ∧
          slot = slot' := by
  obtain ⟨t, ok⟩ := exits_of_fits (le_trans few (by decide)) fits plain opened small
  have image := ok.image (N := NINODES) (by decide) few
  have shown : Fs.ofBuf sb t.image = t.fs NINODES := image.image
  refine ⟨t, ok, fun k dp core room j low => ?_, fun j low k ip core => core.readi image few low,
    ?_, ?_⟩
  · obtain ⟨r, k', done, ip, rfl, rest⟩ :=
      (core.dirlookup image few low distinct (dots _ (List.getElem_mem low)) room).exists_ok
    exact ⟨ip, k', done, rest⟩
  · intro b _
    rw [shown]
    rfl
  intro i slot i' slot' named same
  rw [shown] at named same
  exact image.owned.distinct named same

theorem shell_read_by_kernel :
    ∃ t, Exits [shell, readme] t ∧ shell.name = [115, 104] ∧ shell.bytes = [1, 2, 3] ∧
    (∀ (k : Kernel) (ip : Nat), InCore t.image k ip 2 → (k.itable ip).d.size = 3) ∧
    ∀ (k : Kernel) (ip : Nat), InCore t.image k ip 3 → (k.itable ip).d.size = 1 := by
  obtain ⟨t, ok, -, read, -⟩ := @mkfs_read_by_kernel [shell, readme] (by decide) (by decide)
    (by decide) (by decide)
    (by decide) (by decide) (by decide)
  exact ⟨t, ok, by decide, by decide, fun k ip core => (read 0 (by decide) k ip core).1,
    fun k ip core => (read 1 (by decide) k ip core).1⟩

end Xv6.Mkfs
