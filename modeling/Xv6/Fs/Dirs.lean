import Xv6.Fs.Inodes
import Xv6.Sysfile

/-!
# Directories

A directory is an array of entries. Its functions are described on the node: what
`dirlookup` finds, where `dirlink` puts a new entry, and what `namex` makes of a
path. Reading a directory has no effect; writing one replaces one entry.
-/

namespace Xv6

open Function (update_self update_of_ne)
open List (range')
open Prog (wp wp_seq wp_pure wp_guard)

set_option linter.unusedSectionVars false

/-! ## Entries -/

namespace Node

/-- The number of entries of a directory. -/
def entries (n : Node) : Nat := n.size / DIRENTSIZE

/-- The slot of the first entry with this name. -/
def lookup (n : Node) (name : Name) : Option Nat :=
  (range' 0 n.entries).find? fun s => (n.dirent s).inum ≠ 0 ∧ namecmp name (n.dirent s).name

/-- The first slot that is not in use, or the one after the last. -/
def emptySlot (n : Node) : Nat :=
  ((range' 0 n.entries).find? fun s => (n.dirent s).inum = 0).getD n.entries

/-- Is there no entry after `.` and `..`? -/
def isEmpty (n : Node) : Bool := (range' 2 (n.entries - 2)).all fun s => (n.dirent s).inum = 0

/-- Store an entry in slot `s`. -/
def setEntry (n : Node) (s : Nat) (de : Dirent) : Node :=
  { n with
    size := max n.size (DIRENTSIZE * s + DIRENTSIZE)
    byte := fun x =>
      if DIRENTSIZE * s ≤ x ∧ x < DIRENTSIZE * s + DIRENTSIZE then de.byte (x - DIRENTSIZE * s)
      else n.byte x }

theorem entries_le (n : Node) : DIRENTSIZE * n.entries ≤ n.size := Nat.mul_div_le _ _

theorem lookup_some {n : Node} {name : Name} {s : Nat} (hit : n.lookup name = some s) :
    s < n.entries ∧ (n.dirent s).inum ≠ 0 ∧ namecmp name (n.dirent s).name = true := by
  have found := List.find?_some hit
  have mem := List.mem_of_find?_eq_some hit
  simp only [decide_eq_true_eq] at found
  exact ⟨by simpa using mem, found⟩

theorem emptySlot_le (n : Node) : n.emptySlot ≤ n.entries := by
  unfold emptySlot
  rcases found : (range' 0 n.entries).find? fun s => (n.dirent s).inum = 0 with - | s
  · exact le_refl _
  have mem := List.mem_of_find?_eq_some found
  have low : s < n.entries := by simpa using mem
  exact low.le

theorem DirOk.lt_size {ninodes : Nat} {n : Node} (dirOk : n.DirOk ninodes) {s : Nat} :
    DIRENTSIZE * s < n.size ↔ s < n.entries := by
  have whole : n.size % 16 = 0 := dirOk.size
  show 16 * s < n.size ↔ s < n.size / 16
  omega

end Node

theorem slots_eq {size : Nat} (whole : size % DIRENTSIZE = 0) : slots size = size / DIRENTSIZE := by
  change size % 16 = 0 at whole
  show (size + 16 - 1) / 16 = size / 16
  omega

theorem Dirent.ofBytes_congr {f g : Nat → UInt8} (same : ∀ j < DIRENTSIZE, f j = g j) :
    Dirent.ofBytes f = Dirent.ofBytes g := by
  have inum : (Dirent.ofBytes f).inum = (Dirent.ofBytes g).inum := by
    show (f 0).toNat + 256 * (f 1).toNat = (g 0).toNat + 256 * (g 1).toNat
    rw [same 0 (by decide), same 1 (by decide)]
  have name : (Dirent.ofBytes f).name = (Dirent.ofBytes g).name := by
    funext j
    show (if j < DIRSIZ then f (j + 2) else 0) = (if j < DIRSIZ then g (j + 2) else 0)
    split
    · rename_i inside
      rw [same (j + 2) (show j + 2 < 16 by change j < 14 at inside; omega)]
    rfl
  unfold Dirent.ofBytes at *
  simp only [Dirent.mk.injEq]
  exact ⟨inum, name⟩

theorem Dirent.ofBytes_byte {de : Dirent} (word : de.inum < 65536) :
    (Dirent.ofBytes de.byte).inum = de.inum ∧
      ∀ j < DIRSIZ, (Dirent.ofBytes de.byte).name j = de.name j := by
  constructor
  · show (Bytes.leByte de.inum 0).toNat + 256 * (Bytes.leByte de.inum 1).toNat = de.inum
    rw [Bytes.leByte_toNat, Bytes.leByte_toNat]
    simp only [pow_zero, Nat.div_one, pow_one]
    omega
  intro j inside
  show (if j < DIRSIZ then (if j + 2 < 2 then _ else de.name (j + 2 - 2)) else 0) = de.name j
  rw [if_pos inside, if_neg (by omega), Nat.add_sub_cancel]

theorem zeroDirent_byte : (fun _ => 0 : Nat → UInt8) = Dirent.byte ⟨0, fun _ => 0⟩ := by
  funext j
  rw [Dirent.byte]
  split
  · simp [Bytes.leByte]
  rfl

theorem Node.dirent_setEntry (n : Node) (s : Nat) (de : Dirent) (s' : Nat) :
    (n.setEntry s de).dirent s' = if s' = s then Dirent.ofBytes de.byte else n.dirent s' := by
  split
  · rename_i eq
    subst eq
    refine Dirent.ofBytes_congr fun j inside => ?_
    show (if DIRENTSIZE * s' ≤ DIRENTSIZE * s' + j ∧ DIRENTSIZE * s' + j < _ then _ else _) =
      de.byte j
    rw [if_pos ⟨by omega, by omega⟩, Nat.add_sub_cancel_left]
  rename_i ne
  refine Dirent.ofBytes_congr fun j inside => ?_
  change j < 16 at inside
  show (if 16 * s ≤ 16 * s' + j ∧ 16 * s' + j < 16 * s + 16 then _ else _) = n.byte (16 * s' + j)
  rw [if_neg (by omega)]

/-! ## Reading -/

section Read

variable {D : Nat → Block} {err : Panic → Prop} {E : Fs} {k : Kernel} {dp : Nat}

theorem Loaded.size (loaded : Loaded E k dp) :
    (k.itable dp).d.size = (E.node (k.itable dp).inum).size := by
  rw [Fs.node_of_alloc loaded.live, loaded.core]

theorem Shown.readDirent (shown : Shown E k dp) (size : (k.itable dp).d.size < 2 ^ 32) {s : Nat}
    (short : Panic) (inside : DIRENTSIZE * s + DIRENTSIZE ≤ (k.itable dp).d.size)
    (present : E.ref (k.itable dp).inum (.block (DIRENTSIZE * s / BSIZE)) ≠ 0) :
    Prog.Returns (readDirent dp (DIRENTSIZE * s) short)
    ((E.node (k.itable dp).inum).dirent s) k := by
  obtain ⟨r, out, returns, exact⟩ := shown.readi size (.kernel fun _ => 0) (DIRENTSIZE * s)
    (n := DIRENTSIZE)
    (by decide) (by
      intro o low high _
      -- an entry lies in one block
      have block : o / BSIZE = DIRENTSIZE * s / BSIZE := by
        simp only [DIRENTSIZE, BSIZE] at low high ⊢
        omega
      rwa [block])
  obtain ⟨whole, bytes⟩ := exact (fun _ _ => rfl) inside
  refine (returns balloc).seq ?_
  show (if r ≠ DIRENTSIZE then _ else _ : Kern Dirent) k = _
  rw [if_neg (by rw [whole]; exact fun h => h rfl), Dirent.ofBytes_congr bytes]
  rfl

theorem Shown.lookupFrom (shown : Shown E k dp) (size : (k.itable dp).d.size < 2 ^ 32) {name : Name} {t : Nat}
    (present : ∀ s ≤ t, DIRENTSIZE * s + DIRENTSIZE ≤ (k.itable dp).d.size ∧
      E.ref (k.itable dp).inum (.block (DIRENTSIZE * s / BSIZE)) ≠ 0)
    (hit : ((E.node (k.itable dp).inum).dirent t).inum ≠ 0 ∧
      namecmp name ((E.node (k.itable dp).inum).dirent t).name)
    (miss : ∀ s < t, ¬ namecmp name ((E.node (k.itable dp).inum).dirent s).name) (n : Nat) :
    ∀ s ≤ t, t < s + n → Prog.Returns (lookupFrom dp name n (DIRENTSIZE * s))
      (some (((E.node (k.itable dp).inum).dirent t).inum, DIRENTSIZE * t)) k := by
  induction n with
  | zero =>
    intro s low high
    omega
  | succ n ih =>
    intro s low high
    obtain ⟨inside, named⟩ := present s low
    refine (shown.readDirent size _ inside named).seq ?_
    by_cases last : s = t
    · rw [last, if_pos hit]
      rfl
    rw [if_neg fun both => miss s (by omega) both.2]
    exact ih (s + 1) (by omega) (by omega)

theorem Loaded.readDirent (loaded : Loaded E k dp) {s : Nat} (short : Panic)
    (inside : DIRENTSIZE * s + DIRENTSIZE ≤ (E.node (k.itable dp).inum).size) :
    Prog.Returns (readDirent dp (DIRENTSIZE * s) short)
    ((E.node (k.itable dp).inum).dirent s) k := by
  refine loaded.shown.readDirent loaded.size_lt short (by rwa [loaded.size]) (loaded.noHoles _ _ ?_)
  have floor := Nat.div_mul_le_self (DIRENTSIZE * s) BSIZE
  have some : 0 < DIRENTSIZE := by decide
  omega

theorem slots_succ {s n size : Nat} (inside : DIRENTSIZE * (s + (n + 1)) ≤ size) :
    DIRENTSIZE * s + DIRENTSIZE ≤ size ∧ DIRENTSIZE * (s + 1 + n) ≤ size := by
  simp only [DIRENTSIZE] at inside ⊢
  omega

section

variable (loaded : Loaded E k dp)
include loaded

theorem Loaded.lookupFrom (name : Name) (n : Nat) :
    ∀ s, DIRENTSIZE * (s + n) ≤ (E.node (k.itable dp).inum).size →
      Prog.Returns (lookupFrom dp name n (DIRENTSIZE * s))
        (((range' s n).find? fun s => ((E.node (k.itable dp).inum).dirent s).inum ≠ 0 ∧
          namecmp name ((E.node (k.itable dp).inum).dirent s).name).map fun s =>
            (((E.node (k.itable dp).inum).dirent s).inum, DIRENTSIZE * s)) k := by
  induction n with
  | zero => exact fun _ _ => rfl
  | succ n ih =>
    intro s inside
    obtain ⟨here, inside⟩ := slots_succ inside
    refine (loaded.readDirent _ here).seq ?_
    rw [List.range'_succ, List.find?_cons]
    by_cases hit : ((E.node (k.itable dp).inum).dirent s).inum ≠ 0 ∧
        namecmp name ((E.node (k.itable dp).inum).dirent s).name
    · rw [if_pos hit, decide_eq_true hit]
      rfl
    rw [if_neg hit, decide_eq_false hit]
    exact ih (s + 1) inside

theorem Loaded.emptySlotFrom (n : Nat) :
    ∀ s, DIRENTSIZE * (s + n) ≤ (E.node (k.itable dp).inum).size →
      Prog.Returns (emptySlotFrom dp n (DIRENTSIZE * s)) (DIRENTSIZE * ((range' s n).find? fun s =>
          ((E.node (k.itable dp).inum).dirent s).inum = 0).getD (s + n)) k := by
  induction n with
  | zero => exact fun _ _ => rfl
  | succ n ih =>
    intro s inside
    obtain ⟨here, inside⟩ := slots_succ inside
    refine (loaded.readDirent _ here).seq ?_
    rw [List.range'_succ, List.find?_cons]
    by_cases hit : ((E.node (k.itable dp).inum).dirent s).inum = 0
    · rw [if_pos hit, decide_eq_true hit]
      rfl
    rw [if_neg hit, decide_eq_false hit, show s + (n + 1) = s + 1 + n by omega]
    exact ih (s + 1) inside

theorem Loaded.emptyFrom (n : Nat) : ∀ s, DIRENTSIZE * (s + n) ≤ (E.node (k.itable dp).inum).size →
      Prog.Returns (emptyFrom dp n (DIRENTSIZE * s))
        ((range' s n).all fun s => ((E.node (k.itable dp).inum).dirent s).inum = 0) k := by
  induction n with
  | zero => exact fun _ _ => rfl
  | succ n ih =>
    intro s inside
    obtain ⟨here, inside⟩ := slots_succ inside
    refine (loaded.readDirent _ here).seq ?_
    rw [List.range'_succ, List.all_cons]
    by_cases hit : ((E.node (k.itable dp).inum).dirent s).inum = 0
    · rw [if_neg (not_not.mpr hit), decide_eq_true hit, Bool.true_and]
      exact ih (s + 1) inside
    rw [if_pos hit, decide_eq_false hit, Bool.false_and]
    rfl

theorem Loaded.isdirempty (whole : (E.node (k.itable dp).inum).size % DIRENTSIZE = 0) :
    Prog.Returns (isdirempty dp) (E.node (k.itable dp).inum).isEmpty k := by
  have count : slots ((E.node (k.itable dp).inum).size - 2 * DIRENTSIZE) =
      (E.node (k.itable dp).inum).entries - 2 := by
    change _ % 16 = 0 at whole
    show (_ - 32 + 16 - 1) / 16 = _ / 16 - 2
    omega
  show Xv6.emptyFrom dp (slots ((k.itable dp).d.size - 2 * DIRENTSIZE)) (DIRENTSIZE * 2) k = _
  rw [loaded.size, count]
  by_cases short : (E.node (k.itable dp).inum).entries - 2 = 0
  · rw [Node.isEmpty, short]
    rfl
  refine loaded.emptyFrom _ 2 ?_
  have total := (E.node (k.itable dp).inum).entries_le
  have index : 2 + ((E.node (k.itable dp).inum).entries - 2) =
      (E.node (k.itable dp).inum).entries := by omega
  rwa [index]

end

theorem Held.loaded {i : Nat} (held : Held k dp i) (ok : Clean D E k) : Loaded E k dp :=
  ok.loaded (ok.sync dp held.ref held.valid nofun) (ok.alloc dp held.ref held.valid nofun)

/-- The type field of a held inode. -/
theorem Held.type {i : Nat} (held : Held k dp i) (ok : Clean D E k) :
    (k.itable dp).d.type = (E.node i).type := by
  rw [Fs.node_type, ok.sync dp held.ref held.valid nofun, held.inum]

theorem dirlookup_wp {i : Nat} (ready : Stops err ∨ (E.node i).type = T_DIR ∧ Spare k) (ok : Clean D E k)
    (held : Held k dp i) (name : Name) :
    wp (Calm D) err (dirlookup dp name) (fun r t => (E.node i).type = T_DIR ∧
        match (E.node i).lookup name with
        | none => r = none ∧ t = k
        | some s => ∃ ip, r = some (ip, DIRENTSIZE * s) ∧
            Got D E ((E.node i).dirent s).inum k ip t) k := by
  have loaded := held.loaded ok
  have size := loaded.size
  have found := fun n inside => loaded.lookupFrom name n 0 inside
  rw [held.inum] at size found
  simp only [dirlookup, wp_inode_bind]
  refine wp_guard (fun other => ?_) fun isDir => ?_
  · rcases ready with stops | ⟨isDir, -⟩
    · exact stops _ (by decide) (by decide)
    rw [held.type ok] at other
    exact absurd isDir other
  have isDir : (E.node i).type = T_DIR := by
    rw [← held.type ok]
    exact not_not.mp isDir
  have dirOk := ok.good.dirs i isDir
  have total := (E.node i).entries_le
  have count : slots (k.itable dp).d.size = (E.node i).entries := by
    rw [size, slots_eq dirOk.size]
    rfl
  have returns : Prog.Returns (lookupFrom dp name (E.node i).entries 0)
      (((E.node i).lookup name).map fun s => (((E.node i).dirent s).inum, DIRENTSIZE * s)) k :=
    found _ (by rwa [zero_add])
  rw [count, returns.wp_bind]
  rcases hit : (E.node i).lookup name with - | s
  · exact wp_pure ⟨isDir, rfl, rfl⟩
  obtain ⟨low, live, -⟩ := Node.lookup_some hit
  have inside : DIRENTSIZE * s < (E.node i).size := dirOk.lt_size.mpr low
  rw [(ok.table dp held.ref).dev]
  refine wp_seq _ (iget_wp (ready.imp_right And.right) ok (Nat.pos_of_ne_zero live)
    (dirOk.inum s inside)) ?_
  exact fun ip t got => wp_pure ⟨isDir, ip, rfl, got⟩

end Read

/-! ## Writing -/

section Write

variable {D : Nat → Block} {err : Panic → Prop} {E : Fs} {k : Kernel} {dp : Nat}

theorem Node.DirOk.setEntry {ninodes : Nat} {n n' : Node} (dirOk : n.DirOk ninodes) {s : Nat}
    {de : Dirent} (low : s ≤ n.entries) (small : de.inum < ninodes) (word : de.inum < 65536)
    (bytes : n'.byte = (n.setEntry s de).byte) (whole : n'.size % DIRENTSIZE = 0)
    (size : n'.size ≤ max n.size (DIRENTSIZE * s + DIRENTSIZE)) : n'.DirOk ninodes := by
  refine ⟨whole, fun s' inside => ?_⟩
  have dirent : n'.dirent s' = (n.setEntry s de).dirent s' := by
    unfold Node.dirent
    rw [bytes]
  rw [dirent, Node.dirent_setEntry]
  split
  · rw [(Dirent.ofBytes_byte word).1]
    exact small
  rename_i ne
  refine dirOk.inum s' ?_
  have old : n.size % 16 = 0 := dirOk.size
  change s ≤ n.size / 16 at low
  change 16 * s' < n'.size at inside
  change n'.size ≤ max n.size (16 * s + 16) at size
  show 16 * s' < n.size
  omega

variable {i : Nat}

theorem writeLoop_dirent_wp (stops : Stops err) (ok : Clean D E k) (held : Held k dp i)
    (isDir : (E.node i).type = T_DIR) {s : Nat} (low : s ≤ (E.node i).entries) {de : Dirent}
    (small : de.inum < k.sb.ninodes) :
    wp (Calm D) err (writeLoop dp (.kernel de.byte) DIRENTSIZE DIRENTSIZE 0 (DIRENTSIZE * s))
      (fun r t => ∃ E', Wrote D dp E k r.2 t E' ∧ (r = (DIRENTSIZE, DIRENTSIZE * s + DIRENTSIZE) ∧
            E'.node i = { E.node i with byte := ((E.node i).setEntry s de).byte } ∨
          r = (0, DIRENTSIZE * s) ∧ E'.node = E.node)) k := by
  have op := held.open ok
  have word : de.inum < 65536 := lt_of_lt_of_le small ok.wf.names
  have dirOk := ok.good.dirs i isDir
  have present : ∀ bn, bn * BSIZE < DIRENTSIZE * s → E.ref (k.itable dp).inum (.block bn) ≠ 0 := by
    intro bn below
    refine ok.good.noHoles _ bn ?_
    rw [held.inum]
    have total := (E.node i).entries_le
    have order := Nat.mul_le_mul_left DIRENTSIZE low
    omega
  show wp _ _ (writeLoop dp _ DIRENTSIZE (15 + 1) 0 _) _ _
  rw [writeLoop, if_pos (by decide)]
  refine wp_seq _ (bmap_wp op (.inl stops) (.inl stops)) ?_
  rintro a k₁ ⟨E₁, op₁, grows, near, slot, -⟩
  have present₁ : ∀ bn, bn * BSIZE < DIRENTSIZE * s →
      E₁.ref (k.itable dp).inum (.block bn) ≠ 0 := by
    intro bn below
    have named := present bn below
    rwa [grows.ref named]
  split
  · exact wp_pure ⟨E₁, ⟨op₁, grows.rewrites _, near, present₁⟩, .inr ⟨rfl, grows.node⟩⟩
  rename_i named
  have here := slot named
  rw [← near.inum] at here
  obtain ⟨lowA, highA⟩ := op₁.good.owned.area (here ▸ named)
  rw [here] at lowA highA
  have round : min (DIRENTSIZE - 0) (BSIZE - DIRENTSIZE * s % BSIZE) = DIRENTSIZE := by
    show min (16 - 0) (1024 - 16 * s % 1024) = 16
    omega
  have block : DIRENTSIZE * s / BSIZE * BSIZE + DIRENTSIZE * s % BSIZE = DIRENTSIZE * s :=
    Nat.div_add_mod' _ _
  have room : DIRENTSIZE * s % BSIZE + DIRENTSIZE ≤ BSIZE := by
    show 16 * s % 1024 + 16 ≤ 1024
    omega
  have inum : (k₁.itable dp).inum = i := near.inum.trans held.inum
  obtain ⟨x, stored⟩ : ∃ x, x = (E₁.data a).write (DIRENTSIZE * s % BSIZE) DIRENTSIZE
      fun i => (Addr.kernel de.byte).byte (0 + i) := ⟨_, rfl⟩
  have rewrites := op₁.good.owned.rewrites_setData (x := x) here named
  have node : (E₁.setData a x).node i =
      { E.node i with byte := ((E.node i).setEntry s de).byte } := by
    have bytes : ((E₁.setData a x).node i).byte = ((E.node i).setEntry s de).byte := by
      funext y
      rw [← inum, stored, op₁.good.owned.write_node here named room, block, grows.node]
      show (if _ then de.byte (0 + (y - _)) else _) = if _ then de.byte (y - _) else _
      rw [zero_add]
    rw [inum] at rewrites
    rw [rewrites.same, grows.node, bytes]
  have dir : ((E₁.setData a x).node (k₁.itable dp).inum).DirOk k₁.sb.ninodes := by
    rw [inum, node, near.sb]
    exact dirOk.setEntry low small word rfl dirOk.size (Nat.le_max_left _ _)
  have present₂ : ∀ bn, bn * BSIZE < DIRENTSIZE * s + DIRENTSIZE →
      (E₁.setData a x).ref (k.itable dp).inum (.block bn) ≠ 0 := by
    intro bn below
    rw [Fs.ref_setData (op₁.good.owned.not_indirect here)]
    by_cases last : bn = DIRENTSIZE * s / BSIZE
    · rw [last, ← near.inum, here]
      exact named
    refine present₁ bn ?_
    change bn * 1024 < 16 * s + 16 at below
    change ¬ bn = 16 * s / 1024 at last
    show bn * 1024 < 16 * s
    omega
  rw [wp_bread_bind, op₁.buf_eq lowA highA]
  simp only [round, Addr.copied, lt_irrefl, if_false, wp_setBuf_bind, ← stored]
  refine ⟨op₁.toOk.calm_data lowA highA, ?_⟩
  refine wp_seq _ (logWrite_wp (.inl stops) ((op₁.toOk.calm_data lowA highA).setLog _)) ?_
  rintro _ _ ⟨rfl, few, more⟩
  have op₂ := op₁.store here named few more fun _ => dir
  rw [near.inum] at rewrites
  rw [writeLoop, if_neg (by decide)]
  refine wp_pure ⟨E₁.setData a x, ⟨op₂, (grows.rewrites _).trans rewrites, ?_, present₂⟩,
    Or.inl ⟨by rw [zero_add], node⟩⟩
  exact near.trans (Near.of_itable (Frame.store ..) rfl)

theorem writei_dirent_wp (stops : Stops err) (ok : Clean D E k) (held : Held k dp i)
    (isDir : (E.node i).type = T_DIR) {s : Nat} (low : s ≤ (E.node i).entries) {de : Dirent}
    (small : de.inum < k.sb.ninodes) :
    wp (Calm D) err (writei dp (.kernel de.byte) (DIRENTSIZE * s) DIRENTSIZE) (fun r t => ∃ E', Worked D dp k t E' ∧
        (r = DIRENTSIZE ∧ E'.node = Function.update E.node i ((E.node i).setEntry s de) ∨
          r ≠ DIRENTSIZE ∧ E'.node = E.node)) k := by
  have word : de.inum < 65536 := lt_of_lt_of_le small ok.wf.names
  have dirOk := ok.good.dirs i isDir
  have stay : ∃ E', Worked D dp k k E' ∧
      (((-1 : Int) = DIRENTSIZE) ∧ E'.node = Function.update E.node i ((E.node i).setEntry s de) ∨
        (-1 : Int) ≠ DIRENTSIZE ∧ E'.node = E.node) :=
    ⟨E, ⟨ok, .refl dp k⟩, .inr ⟨by decide, rfl⟩⟩
  simp only [writei, wp_inode_bind]
  split
  · exact wp_pure stay
  split
  · exact wp_pure stay
  refine wp_seq _ (writeLoop_dirent_wp stops ok held isDir low small) ?_
  rintro ⟨tot, off⟩ t ⟨E', wrote, ⟨done, node⟩ | ⟨none, node⟩⟩
  · obtain ⟨rfl, rfl⟩ := Prod.mk.inj done
    have live : (E'.inode i).type ≠ 0 := by
      rw [← Fs.node_type, node]
      show (E.node i).type ≠ 0
      rw [isDir]
      decide
    have inode : (E'.inode i).size = (E.node i).size := by
      have sizes := congrArg Node.size node
      rw [Fs.node_of_alloc live] at sizes
      exact sizes
    have whole : (DIRENTSIZE * s + DIRENTSIZE) % DIRENTSIZE = 0 := by
      show (16 * s + 16) % 16 = 0
      omega
    refine (wrote.finish stops fun _ _ => ?_).mono ?_
    · rw [held.inum, Fs.node_setSize live, node]
      exact dirOk.setEntry low small word rfl whole (Nat.le_max_right _ _)
    rintro _ u ⟨rfl, E'', worked, more⟩
    rw [held.inum] at more
    refine ⟨E'', worked, .inl ⟨rfl, funext fun j => ?_⟩⟩
    have rewrites := wrote.rewrites
    rw [held.inum] at rewrites
    by_cases eq : j = i
    · subst eq
      rw [update_self]
      rcases more with ⟨rfl, below⟩ | ⟨above, rfl⟩
      · rw [node, Node.setEntry, Nat.max_eq_left (inode ▸ below)]
      rw [Fs.node_setSize live, node, Node.setEntry, Nat.max_eq_right (inode ▸ above.le)]
    rw [update_of_ne eq, ← rewrites.other eq]
    rcases more with ⟨rfl, -⟩ | ⟨-, rfl⟩
    · rfl
    exact Fs.node_setInode_of_ne eq
  obtain ⟨rfl, rfl⟩ := Prod.mk.inj none
  have short : DIRENTSIZE * s ≤ (E'.inode i).size := by
    have live : (E'.inode i).type ≠ 0 := by
      rw [← Fs.node_type, node, isDir]
      decide
    have sizes := congrArg Node.size (congrFun node i)
    rw [Fs.node_of_alloc live] at sizes
    have total := (E.node i).entries_le
    have order := Nat.mul_le_mul_left DIRENTSIZE low
    change (E'.inode i).size = _ at sizes
    omega
  rw [← held.inum] at short
  refine (wrote.finish stops fun longer => absurd short (Nat.not_le.mpr longer)).mono ?_
  rintro _ u ⟨rfl, E'', worked, ⟨rfl, -⟩ | ⟨above, -⟩⟩
  · exact ⟨E'', worked, .inr ⟨show ((0 : Nat) : Int) ≠ DIRENTSIZE by decide, node⟩⟩
  exact absurd short (Nat.not_le.mpr above)

/-- Entries of the inode table that are in use stay what they are. -/
structure Kept (k t : Kernel) : Prop extends Frame k t where
  entry : ∀ j, 0 < (k.itable j).ref → 0 < (t.itable j).ref ∧
    (t.itable j).inum = (k.itable j).inum ∧ (t.itable j).locked = (k.itable j).locked ∧
    ((k.itable j).valid = true → (t.itable j).valid = true)

variable {t : Kernel}

theorem Kept.trans {u : Kernel} (first : Kept k t) (second : Kept t u) : Kept k u := by
  refine ⟨first.toFrame.trans second.toFrame, fun j used => ?_⟩
  obtain ⟨used₁, inum₁, locked₁, valid₁⟩ := first.entry j used
  obtain ⟨used₂, inum₂, locked₂, valid₂⟩ := second.entry j used₁
  exact ⟨used₂, inum₂.trans inum₁, locked₂.trans locked₁, fun h => valid₂ (valid₁ h)⟩

theorem Kept.held (kept : Kept k t) (held : Held k dp i) : Held t dp i := by
  obtain ⟨used, inum, locked, valid⟩ := kept.entry dp held.ref
  exact ⟨used, valid held.valid, locked.trans held.locked, inum.trans held.inum⟩

theorem Near.kept (near : Near dp k t) : Kept k t := by
  obtain ⟨d, table⟩ := near.table
  refine ⟨near.toFrame, fun j used => ?_⟩
  by_cases eq : j = dp
  · subst eq
    rw [table, update_self]
    exact ⟨used, rfl, rfl, id⟩
  rw [table, update_of_ne eq]
  exact ⟨used, rfl, rfl, id⟩

theorem Near.ref (near : Near dp k t) (j : Nat) : (t.itable j).ref = (k.itable j).ref := by
  obtain ⟨d, table⟩ := near.table
  by_cases eq : j = dp
  · subst eq
    rw [table, update_self]
  rw [table, update_of_ne eq]

theorem Near.lockeds (near : Near dp k t) (j : Nat) :
    (t.itable j).locked = (k.itable j).locked := by
  obtain ⟨d, table⟩ := near.table
  by_cases eq : j = dp
  · subst eq
    rw [table, update_self]
  rw [table, update_of_ne eq]

variable {inum ip : Nat}

section

variable (got : Got D E inum k ip t)
include got

theorem Got.kept : Kept k t := by
  refine ⟨got.toFrame, fun j used => ?_⟩
  by_cases eq : j = ip
  · subst eq
    rw [got.old used]
    exact ⟨Nat.succ_pos _, rfl, rfl, id⟩
  rw [got.other j eq]
  exact ⟨used, rfl, rfl, id⟩

theorem Got.refs (j : Nat) : (t.itable j).ref = (k.itable j).ref + if j = ip then 1 else 0 := by
  by_cases eq : j = ip
  · rw [if_pos eq, eq, got.ref]
  rw [if_neg eq, got.other j eq, add_zero]

theorem Got.iput :
    wp (Calm D) err (iput ip) (fun _ u => Clean D E u ∧ Kept k u ∧ (∀ j, (u.itable j).ref = (k.itable j).ref) ∧
        ∀ j, (u.itable j).locked = (k.itable j).locked) t := by
  have used : 0 < (t.itable ip).ref := by
    rw [got.ref]
    exact Nat.succ_pos _
  have keeps : ¬ ((t.itable ip).ref = 1 ∧ (t.itable ip).valid = true ∧
      (E.node (t.itable ip).inum).nlink = 0) := by
    intro last
    rw [got.ref] at last
    have invalid := (got.fresh (by omega)).1
    rw [last.2.1] at invalid
    cases invalid
  refine (iput_wp (.inr keeps) got.clean used).mono ?_
  rintro _ u ⟨E', ⟨acts, clean, ref, inum', kept, -⟩, locked⟩
  have ref' : (u.itable ip).ref = (k.itable ip).ref := by rw [ref, got.ref, Nat.add_sub_cancel]
  have stay : E' = E ∧ (u.itable ip).valid = (t.itable ip).valid := kept keeps
  refine ⟨stay.1 ▸ clean, ⟨got.toFrame.trans acts.toFrame, fun j usedJ => ?_⟩, fun j => ?_,
    fun j => ?_⟩
  · by_cases eq : j = ip
    · subst eq
      have old := got.old usedJ
      refine ⟨ref'.symm ▸ usedJ, ?_, ?_, fun valid => ?_⟩
      · rw [inum', old]
      · rw [locked, old]
      rw [stay.2, old]
      exact valid
    rw [acts.other j eq, got.other j eq]
    exact ⟨usedJ, rfl, rfl, id⟩
  · by_cases eq : j = ip
    · rw [eq, ref']
    rw [acts.other j eq, got.other j eq]
  by_cases eq : j = ip
  · rw [eq, locked, got.locked]
  rw [acts.other j eq, got.other j eq]

theorem Got.lockeds (j : Nat) : (t.itable j).locked = (k.itable j).locked := by
  by_cases eq : j = ip
  · rw [eq, got.locked]
  rw [got.other j eq]

end

theorem Held.emptySlot (held : Held k dp i) (ok : Clean D E k) (isDir : (E.node i).type = T_DIR) :
    slots (k.itable dp).d.size = (E.node i).entries ∧
      Prog.Returns (emptySlotFrom dp (E.node i).entries 0)
      (DIRENTSIZE * (E.node i).emptySlot) k := by
  have loaded := held.loaded ok
  have size := loaded.size
  have total := (E.node i).entries_le
  have slot := loaded.emptySlotFrom (E.node i).entries 0
  rw [held.inum] at size slot
  refine ⟨?_, ?_⟩
  · rw [size, slots_eq (ok.good.dirs i isDir).size]
    rfl
  have found := slot (by rwa [zero_add])
  rwa [zero_add] at found

/-- What `dirlink` leaves: the new entry in the first slot that is not in use, or
nothing new. -/
structure Linked (D : Nat → Block) (E : Fs) (k : Kernel) (i : Nat) (name : Name) (inum : Nat) (r : Bool)
    (E' : Fs) (t : Kernel) : Prop where
  clean : Clean D E' t
  kept : Kept k t
  ref : ∀ j, (t.itable j).ref = (k.itable j).ref
  isDir : (E.node i).type = T_DIR
  done : r = true → (E.node i).lookup name = none ∧ E'.node = Function.update E.node i
    ((E.node i).setEntry (E.node i).emptySlot ⟨inum, strncpy name⟩)
  failed : r = false → E'.node = E.node
  locked : ∀ j, (t.itable j).locked = (k.itable j).locked

theorem dirlink_wp (stops : Stops err) (ok : Clean D E k) (held : Held k dp i) (name : Name)
    (small : inum < k.sb.ninodes) :
    wp (Calm D) err (dirlink dp name inum) (fun r t => ∃ E', Linked D E k i name inum r E' t) k := by
  rw [dirlink]
  refine wp_seq _ (dirlookup_wp (.inl stops) ok held name) ?_
  rintro r t ⟨isDir, result⟩
  rcases hit : (E.node i).lookup name with - | s
  swap
  · rw [hit] at result
    obtain ⟨ip, rfl, got⟩ := result
    refine wp_seq _ got.iput ?_
    rintro _ u ⟨clean, kept, ref, locked⟩
    exact wp_pure ⟨E, clean, kept, ref, isDir, nofun, fun _ => rfl, locked⟩
  rw [hit] at result
  obtain ⟨rfl, rfl⟩ := result
  obtain ⟨count, returns⟩ := held.emptySlot ok isDir
  have word : inum % 65536 = inum := Nat.mod_eq_of_lt (lt_of_lt_of_le small ok.wf.names)
  simp only [wp_inode_bind, count, returns.wp_bind, word]
  refine wp_seq _ (writei_dirent_wp stops ok held isDir (Node.emptySlot_le _) small) ?_
  rintro r u ⟨E', worked, ⟨rfl, node⟩ | ⟨short, node⟩⟩
  · refine wp_pure ⟨E', worked.clean, worked.near.kept, worked.near.ref, isDir, ?_, ?_,
      worked.near.lockeds⟩
    · exact fun _ => ⟨hit, node⟩
    intro no
    simp at no
  refine wp_pure ⟨E', worked.clean, worked.near.kept, worked.near.ref, isDir, ?_, fun _ => node,
    worked.near.lockeds⟩
  intro yes
  simp only [decide_eq_true_eq] at yes
  exact absurd yes short

end Write

end Xv6
