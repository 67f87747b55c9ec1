import Xv6.Fs.Read

/-!
# Directories as finite maps

A directory maps names to inode numbers. Two names are the same key if `namecmp`
says so, that is if `strncpy` cuts them to the same `DIRSIZ` bytes. `dirlink`
extends the map, the removal in `sys_unlink` restricts it, and nothing else
changes.
-/

namespace Xv6

open Prog (wp)

/-! ## Names -/

theorem strncpy_of {s : Name} {j : Nat} (some : ∀ l < j, s l ≠ 0) : strncpy s j = s j := by
  rw [strncpy]
  split
  · rfl
  rename_i ends
  by_contra ne
  refine ends (List.all_eq_true.2 fun l mem => decide_eq_true ?_)
  rcases Nat.lt_succ_iff_lt_or_eq.1 (List.mem_range.1 mem) with lt | rfl
  · exact some l lt
  exact fun zero => ne zero.symm

theorem ne_zero_of_strncpy {s : Name} {j : Nat} (ne : strncpy s j ≠ 0) : ∀ l ≤ j, s l ≠ 0 := by
  intro l le zero
  refine ne (if_neg fun all => ?_)
  exact of_decide_eq_true (List.all_eq_true.1 all l (List.mem_range.2 (by omega))) zero

theorem sameName_iff (s t : Name) (n : Nat) : ∀ i, sameName s t n i = true ↔
    ∀ j < n, (∀ l < j, s (i + l) ≠ 0) → s (i + j) = t (i + j) := by
  induction n with
  | zero => exact fun i => ⟨fun _ j low => absurd low (Nat.not_lt_zero j), fun _ => rfl⟩
  | succ n ih =>
    intro i
    rw [sameName]
    split
    · rename_i zero
      constructor
      · intro ends j low before
        cases j with
        | zero => exact zero.trans (of_decide_eq_true ends).symm
        | succ j => exact absurd zero (before 0 (Nat.succ_pos j))
      intro same
      have first := same 0 (Nat.succ_pos n) fun l low => absurd low (Nat.not_lt_zero l)
      exact decide_eq_true (first.symm.trans zero)
    rename_i some
    split
    swap
    · rename_i ne
      constructor
      · nofun
      intro same
      exact absurd (same 0 (Nat.succ_pos n) fun l low => absurd low (Nat.not_lt_zero l)) ne
    rename_i eq
    rw [ih]
    constructor
    · intro same j low before
      cases j with
      | zero => exact eq
      | succ j =>
        have rest := same j (by omega) fun l lt => by
          have ne := before (l + 1) (by omega)
          rwa [show i + (l + 1) = i + 1 + l by omega] at ne
        rwa [show i + 1 + j = i + (j + 1) by omega] at rest
    intro same j low before
    have rest := same (j + 1) (by omega) fun l lt => by
      cases l with
      | zero => exact some
      | succ l =>
        have ne := before l (by omega)
        rwa [show i + 1 + l = i + (l + 1) by omega] at ne
    rwa [show i + (j + 1) = i + 1 + j by omega] at rest

theorem namecmp_iff {s t : Name} :
    namecmp s t = true ↔ ∀ j < DIRSIZ, strncpy s j = strncpy t j := by
  rw [namecmp, sameName_iff]
  simp only [zero_add]
  constructor
  · intro same j low
    by_cases all : ∀ l ≤ j, s l ≠ 0
    · have equal : ∀ l ≤ j, s l = t l := fun l le => same l (by omega) fun m lt => all m (by omega)
      rw [strncpy_of fun l lt => all l (by omega),
        strncpy_of fun l lt => equal l (by omega) ▸ all l (by omega)]
      exact equal j (le_refl j)
    -- both are padded from the first zero on
    have ends : ∃ l ≤ j, s l = 0 ∧ ∀ m < l, s m ≠ 0 := by
      have exists' : ∃ l, l ≤ j ∧ s l = 0 := by
        by_contra none
        exact all fun l le zero => none ⟨l, le, zero⟩
      refine ⟨Nat.find exists', (Nat.find_spec exists').1, (Nat.find_spec exists').2,
        fun m lt zero => ?_⟩
      exact Nat.find_min exists' lt ⟨by have := (Nat.find_spec exists').1; omega, zero⟩
    obtain ⟨l, le, zero, before⟩ := ends
    have zero' : t l = 0 := (same l (by omega) before).symm.trans zero
    have pad : ∀ {u : Name}, u l = 0 → strncpy u j = 0 := by
      intro u zero
      by_contra ne
      exact ne_zero_of_strncpy ne l le zero
    rw [pad zero, pad zero']
  intro same j low before
  have before' : ∀ l < j, t l ≠ 0 := by
    intro l lt
    have copied := same l (by omega)
    rw [strncpy_of fun m lt' => before m (by omega)] at copied
    exact ne_zero_of_strncpy (copied ▸ before l lt) l (le_refl l)
  have equal := same j low
  rwa [strncpy_of before, strncpy_of before'] at equal

theorem namecmp_refl (s : Name) : namecmp s s = true := namecmp_iff.2 fun _ _ => rfl

theorem namecmp_symm {s t : Name} (same : namecmp s t = true) : namecmp t s = true :=
  namecmp_iff.2 fun j low => (namecmp_iff.1 same j low).symm

theorem namecmp_trans {s t u : Name} (first : namecmp s t = true) (second : namecmp t u = true) :
    namecmp s u = true :=
  namecmp_iff.2 fun j low => (namecmp_iff.1 first j low).trans (namecmp_iff.1 second j low)

theorem namecmp_stored {name stored : Name} (copied : ∀ j < DIRSIZ, stored j = strncpy name j) :
    namecmp name stored = true := by
  refine namecmp_iff.2 fun j low => ?_
  by_cases all : ∀ l < j, name l ≠ 0
  · rw [← copied j low]
    refine (strncpy_of fun l lt => ?_).symm
    rw [copied l (by omega), strncpy_of fun m lt' => all m (by omega)]
    exact all l lt
  by_contra ne
  have zero : strncpy name j = 0 := by
    by_contra some
    exact all fun l lt => ne_zero_of_strncpy some l (by omega)
  rw [zero] at ne
  have last := ne_zero_of_strncpy (Ne.symm ne) j (le_refl j)
  rw [copied j low] at last
  exact last zero

/-! ## The map -/

namespace Node

/-- Slot `s` is in use. -/
def Live (n : Node) (s : Nat) : Prop := s < n.entries ∧ (n.dirent s).inum ≠ 0

/-- No two entries have names that compare equal. -/
def Distinct (n : Node) : Prop :=
  ∀ s s', n.Live s → n.Live s' → namecmp (n.dirent s).name (n.dirent s').name = true → s = s'

/-- The inode number that the directory has for a name. -/
def find (n : Node) (name : Name) : Option Nat := (n.lookup name).map fun s => (n.dirent s).inum

/-- `.` and `..` are in slots 0 and 1. -/
structure Dots (n : Node) : Prop where
  first : n.Live 0
  isDot : namecmp dotName (n.dirent 0).name = true
  second : n.Live 1
  isDotdot : namecmp dotdotName (n.dirent 1).name = true

variable {n : Node} {name : Name}

theorem lookup_eq_some (distinct : n.Distinct) {s : Nat} :
    n.lookup name = some s ↔ n.Live s ∧ namecmp name (n.dirent s).name = true := by
  constructor
  · intro hit
    obtain ⟨low, live, same⟩ := lookup_some hit
    exact ⟨⟨low, live⟩, same⟩
  rintro ⟨live, same⟩
  cases hit : n.lookup name with
  | none =>
    have none := List.find?_eq_none.1 hit s (by simpa using live.1)
    exact absurd (decide_eq_true ⟨live.2, same⟩) none
  | some s' =>
    obtain ⟨low, live', same'⟩ := lookup_some hit
    rw [distinct s' s ⟨low, live'⟩ live (namecmp_trans (namecmp_symm same') same)]

theorem find_eq_some (distinct : n.Distinct) {v : Nat} :
    n.find name = some v ↔ ∃ s, n.Live s ∧ namecmp name (n.dirent s).name = true ∧
      (n.dirent s).inum = v := by
  rw [find, Option.map_eq_some_iff]
  constructor
  · rintro ⟨s, hit, eq⟩
    obtain ⟨live, same⟩ := (lookup_eq_some distinct).1 hit
    exact ⟨s, live, same, eq⟩
  rintro ⟨s, live, same, eq⟩
  exact ⟨s, (lookup_eq_some distinct).2 ⟨live, same⟩, eq⟩

theorem find_eq_none (distinct : n.Distinct) :
    n.find name = none ↔ ∀ s, n.Live s → namecmp name (n.dirent s).name = false := by
  constructor
  · intro none s live
    by_contra same
    have found := (find_eq_some distinct).2 ⟨s, live, Bool.eq_true_of_not_eq_false same, rfl⟩
    rw [none] at found
    cases found
  intro all
  cases found : n.find name with
  | none => rfl
  | some v =>
    obtain ⟨s, live, same, -⟩ := (find_eq_some distinct).1 found
    rw [all s live] at same
    cases same

theorem find_none_of_lookup (absent : n.lookup name = none) : n.find name = none := by
  rw [find, absent]
  rfl

/-! ### One entry changes -/

section SetEntry

variable {s s' : Nat} {de : Dirent}

section

variable (whole : n.size % DIRENTSIZE = 0)
include whole

theorem entries_setEntry (low : s ≤ n.entries) :
    (n.setEntry s de).entries = max n.entries (s + 1) := by
  change n.size % 16 = 0 at whole
  change s ≤ n.size / 16 at low
  show max n.size (16 * s + 16) / 16 = max (n.size / 16) (s + 1)
  omega

theorem live_setEntry_self (low : s ≤ n.entries) (word : de.inum < 65536) :
    (n.setEntry s de).Live s ↔ de.inum ≠ 0 := by
  rw [Live, entries_setEntry whole low, dirent_setEntry, if_pos rfl, (Dirent.ofBytes_byte word).1]
  exact ⟨And.right, fun live => ⟨by omega, live⟩⟩

theorem live_setEntry_other (low : s ≤ n.entries) (ne : s' ≠ s) :
    (n.setEntry s de).Live s' ↔ n.Live s' := by
  rw [Live, Live, entries_setEntry whole low, dirent_setEntry, if_neg ne]
  refine and_congr_left fun _ => ?_
  omega

end

theorem dirent_setEntry_other (ne : s' ≠ s) : (n.setEntry s de).dirent s' = n.dirent s' := by
  rw [dirent_setEntry, if_neg ne]

theorem Distinct.setEntry (distinct : n.Distinct) (whole : n.size % DIRENTSIZE = 0) (low : s ≤ n.entries)
    (word : de.inum < 65536)
    (new : de.inum ≠ 0 → ∀ s', s' ≠ s → n.Live s' →
      namecmp (Dirent.ofBytes de.byte).name (n.dirent s').name = false) :
    (n.setEntry s de).Distinct := by
  have clash : ∀ s', s' ≠ s → (n.setEntry s de).Live s → (n.setEntry s de).Live s' →
      namecmp (Dirent.ofBytes de.byte).name (n.dirent s').name = true → False := by
    intro s' ne live live' same
    rw [new ((live_setEntry_self whole low word).1 live) s' ne ((live_setEntry_other whole low ne).1 live')] at same
    cases same
  intro a b live live' same
  by_cases left : a = s
  · subst left
    by_cases right : b = a
    · exact right.symm
    rw [dirent_setEntry, if_pos rfl, dirent_setEntry_other right] at same
    exact (clash b right live live' same).elim
  by_cases right : b = s
  · subst right
    rw [dirent_setEntry_other left, dirent_setEntry, if_pos rfl] at same
    exact (clash a left live' live (namecmp_symm same)).elim
  rw [dirent_setEntry_other left, dirent_setEntry_other right] at same
  exact distinct a b ((live_setEntry_other whole low left).1 live)
    ((live_setEntry_other whole low right).1 live')
    same

theorem not_live_emptySlot (n : Node) : ¬n.Live n.emptySlot := by
  rintro ⟨low, live⟩
  rcases hit : (List.range' 0 n.entries).find? fun s => (n.dirent s).inum = 0 with - | s
  · have last : n.emptySlot = n.entries := by
      rw [emptySlot, hit]
      rfl
    omega
  have slot : n.emptySlot = s := by
    rw [emptySlot, hit]
    rfl
  have zero := List.find?_some hit
  rw [slot] at live
  exact live (of_decide_eq_true zero)

/-- The directory with an entry for a name that it did not have. -/
def link (n : Node) (name : Name) (inum : Nat) : Node := n.setEntry n.emptySlot ⟨inum, strncpy name⟩

/-- The directory without the entry in slot `s`. -/
def unlink (n : Node) (s : Nat) : Node := n.setEntry s ⟨0, fun _ => 0⟩

section

variable (distinct : n.Distinct)
include distinct

section

variable (whole : n.size % DIRENTSIZE = 0)
include whole

theorem Distinct.link {inum : Nat} (word : inum < 65536)
    (absent : n.find name = none) : (n.link name inum).Distinct := by
  refine distinct.setEntry whole (emptySlot_le n) word fun _ s' _ live => ?_
  by_contra same
  have stored : namecmp name (Dirent.ofBytes (Dirent.byte ⟨inum, strncpy name⟩)).name = true :=
    namecmp_stored (Dirent.ofBytes_byte word).2
  have found := namecmp_trans stored (Bool.eq_true_of_not_eq_false same)
  rw [(find_eq_none distinct).1 absent s' live] at found
  cases found

theorem find_link {inum : Nat} (positive : inum ≠ 0) (word : inum < 65536)
    (absent : n.find name = none) (name' : Name) :
    (n.link name inum).find name' = if namecmp name name' =
      true then some inum else n.find name' := by
  have distinct' := distinct.link whole word absent
  have live : (n.setEntry n.emptySlot ⟨inum, strncpy name⟩).Live n.emptySlot :=
    (live_setEntry_self whole (emptySlot_le n) word).2 positive
  have dirent : (n.link name inum).dirent n.emptySlot =
      Dirent.ofBytes (Dirent.byte ⟨inum, strncpy name⟩) := by
    rw [link, dirent_setEntry, if_pos rfl]
  have stored : namecmp name ((n.link name inum).dirent n.emptySlot).name = true := by
    rw [dirent]
    exact namecmp_stored (Dirent.ofBytes_byte word).2
  by_cases same : namecmp name name' = true
  · rw [if_pos same, find_eq_some distinct']
    refine ⟨n.emptySlot, live, namecmp_trans (namecmp_symm same) stored, ?_⟩
    rw [dirent, (Dirent.ofBytes_byte word).1]
  rw [if_neg same]
  refine Option.ext fun v => ?_
  rw [find_eq_some distinct', find_eq_some distinct]
  constructor
  · rintro ⟨s', live', same', eq⟩
    have ne : s' ≠ n.emptySlot := by
      rintro rfl
      exact same (namecmp_trans stored (namecmp_symm same'))
    rw [link, dirent_setEntry_other ne] at same' eq
    exact ⟨s', (live_setEntry_other whole (emptySlot_le n) ne).1 live', same', eq⟩
  rintro ⟨s', live', same', eq⟩
  have ne : s' ≠ n.emptySlot := by
    rintro rfl
    exact not_live_emptySlot n live'
  refine ⟨s', (live_setEntry_other whole (emptySlot_le n) ne).2 live', ?_⟩
  rw [link, dirent_setEntry_other ne]
  exact ⟨same', eq⟩

theorem Distinct.unlink (low : s ≤ n.entries) :
    (n.unlink s).Distinct := distinct.setEntry whole low (by decide) fun ne => absurd rfl ne

theorem find_unlink (hit : n.lookup name = some s) (name' : Name) :
    (n.unlink s).find name' = if namecmp name name' = true then none else n.find name' := by
  obtain ⟨⟨low, -⟩, same⟩ := (lookup_eq_some distinct).1 hit
  have distinct' := distinct.unlink whole low.le
  have gone : ¬(n.setEntry s ⟨0, fun _ => 0⟩).Live s := fun live =>
    (live_setEntry_self whole low.le (by decide)).1 live rfl
  have others : ∀ {s'}, (n.unlink s).Live s' → s' ≠ s := by
    rintro s' live rfl
    exact gone live
  by_cases same' : namecmp name name' = true
  · rw [if_pos same', find_eq_none distinct']
    intro s' live
    have ne := others live
    rw [unlink, dirent_setEntry_other ne]
    by_contra hit'
    refine ne (distinct s' s ((live_setEntry_other whole low.le ne).1 live) ?_ ?_)
    · exact ((lookup_eq_some distinct).1 hit).1
    exact namecmp_trans (namecmp_symm (namecmp_trans same' (Bool.eq_true_of_not_eq_false hit'))) same
  rw [if_neg same']
  refine Option.ext fun v => ?_
  rw [find_eq_some distinct', find_eq_some distinct]
  constructor
  · rintro ⟨s', live', hit', eq⟩
    have ne := others live'
    rw [unlink, dirent_setEntry_other ne] at hit' eq
    exact ⟨s', (live_setEntry_other whole low.le ne).1 live', hit', eq⟩
  rintro ⟨s', live', hit', eq⟩
  have ne : s' ≠ s := by
    rintro rfl
    exact same' (namecmp_trans same (namecmp_symm hit'))
  refine ⟨s', (live_setEntry_other whole low.le ne).2 live', ?_⟩
  rw [unlink, dirent_setEntry_other ne]
  exact ⟨hit', eq⟩

end

end

theorem Dots.setEntry (dots : n.Dots) (whole : n.size % DIRENTSIZE = 0) (low : s ≤ n.entries)
    (high : 2 ≤ s) :
    (n.setEntry s de).Dots := by
  have zero : 0 ≠ s := by omega
  have one : 1 ≠ s := by omega
  refine ⟨(live_setEntry_other whole low zero).2 dots.first, ?_,
    (live_setEntry_other whole low one).2 dots.second, ?_⟩
  · rw [dirent_setEntry_other zero]
    exact dots.isDot
  rw [dirent_setEntry_other one]
  exact dots.isDotdot

/-- Slot 0 or 1 has the name `.` or `..`. -/
theorem Dots.high (dots : n.Dots) (hit : namecmp name (n.dirent s).name = true)
    (other : namecmp name dotName = false) (other' : namecmp name dotdotName = false) : 2 ≤ s := by
  by_contra low
  have cases' : s = 0 ∨ s = 1 := by omega
  rcases cases' with rfl | rfl
  · rw [namecmp_trans hit (namecmp_symm dots.isDot)] at other
    cases other
  rw [namecmp_trans hit (namecmp_symm dots.isDotdot)] at other'
  cases other'

theorem Dots.emptySlot (dots : n.Dots) : 2 ≤ n.emptySlot := by
  by_contra low
  have cases' : n.emptySlot = 0 ∨ n.emptySlot = 1 := by omega
  have free := not_live_emptySlot n
  rcases cases' with eq | eq
  · rw [eq] at free
    exact free dots.first
  rw [eq] at free
  exact free dots.second

theorem isEmpty_iff (distinct : n.Distinct) (dots : n.Dots) : n.isEmpty = true ↔
    ∀ name, namecmp name dotName = false → namecmp name dotdotName = false →
      n.find name = none := by
  rw [isEmpty, List.all_eq_true]
  constructor
  · intro all name other other'
    rw [find_eq_none distinct]
    intro s live
    by_contra hit
    have high := dots.high (Bool.eq_true_of_not_eq_false hit) other other'
    have low := live.1
    exact live.2 (of_decide_eq_true (all s (List.mem_range'_1.2 ⟨high, by omega⟩)))
  intro none s mem
  obtain ⟨high, low⟩ := List.mem_range'_1.1 mem
  by_contra some
  have live : n.Live s := ⟨by omega, fun zero => some (decide_eq_true zero)⟩
  have found := (find_eq_some distinct).2 ⟨s, live, namecmp_refl _, rfl⟩
  rw [none (n.dirent s).name] at found
  · cases found
  · by_contra same
    have eq :=
      distinct s 0 live dots.first (namecmp_trans (Bool.eq_true_of_not_eq_false same) dots.isDot)
    omega
  by_contra same
  have eq :=
    distinct s 1 live dots.second (namecmp_trans (Bool.eq_true_of_not_eq_false same) dots.isDotdot)
  omega

end SetEntry

end Node

/-! ## The functions -/

section Calls

variable {D : Nat → Block} {E : Fs} {k t : Kernel} {dp i : Nat}

theorem Held.writei_slot (ok : Clean D E k) (held : Held k dp i) {s : Nat}
    (low : s < (E.node i).entries) (src : Nat → UInt8) :
    wp (fun _ => True) (fun _ => True) (writei dp (.kernel src) (DIRENTSIZE * s) DIRENTSIZE)
      (fun r _ => r = DIRENTSIZE) k := by
  have loaded := held.loaded ok
  have size := loaded.size
  rw [held.inum] at size
  have most := ok.good.noHoles.size_le i
  have inside : DIRENTSIZE * s + DIRENTSIZE ≤ (E.node i).size := by
    change s < (E.node i).size / 16 at low
    show 16 * s + 16 ≤ (E.node i).size
    omega
  have word : MAXFILE * BSIZE < 2 ^ 32 := by decide
  have sum : (DIRENTSIZE * s + DIRENTSIZE) % 2 ^ 32 = DIRENTSIZE * s + DIRENTSIZE :=
    Nat.mod_eq_of_lt (by omega)
  simp only [writei, wp_inode_bind]
  rw [if_neg (by rw [sum, size]; omega), if_neg (by rw [sum]; omega)]
  have named : E.ref (k.itable dp).inum (.block (DIRENTSIZE * s / BSIZE)) ≠ 0 := by
    rw [held.inum]
    refine ok.good.noHoles i _ (lt_of_le_of_lt (Nat.div_mul_le_self _ _) ?_)
    simp only [DIRENTSIZE] at inside ⊢
    omega
  have stored : wp (fun _ => True) (fun _ => True)
      (writeLoop dp (.kernel src) DIRENTSIZE DIRENTSIZE 0 (DIRENTSIZE * s)) (fun r _ => r.1 = DIRENTSIZE) k := by
    show wp _ _ (writeLoop dp _ DIRENTSIZE (15 + 1) 0 _) _ _
    have one : min (DIRENTSIZE - 0) (BSIZE - DIRENTSIZE * s % BSIZE) = DIRENTSIZE := by
      simp only [DIRENTSIZE, BSIZE]
      omega
    have found : Prog.Returns (bmap dp (DIRENTSIZE * s / BSIZE)) _ k :=
      loaded.shown.bmapWith named balloc
    rw [writeLoop, if_pos (by decide), found.wp_bind, if_neg named, wp_bread_bind]
    dsimp only
    rw [wp_setBuf_bind]
    refine ⟨trivial, ?_⟩
    have copied : (Addr.kernel src).copied 0 DIRENTSIZE = DIRENTSIZE := rfl
    rw [one, copied, if_neg (lt_irrefl _)]
    refine Prog.wp_skip fun _ u => ?_
    rw [writeLoop, if_neg (by decide)]
    exact Prog.wp_pure (zero_add _)
  refine Prog.wp_seq _ stored ?_
  rintro ⟨tot, off⟩ u all
  have end' : ∀ v, wp (fun _ => True) (fun _ => True) (do
      iupdate dp
      return (tot : Int)) (fun r _ => r = DIRENTSIZE) v := by
    intro v
    refine Prog.wp_skip fun _ _ => Prog.wp_pure ?_
    exact congrArg Nat.cast all
  rw [wp_inode_bind]
  split
  · exact Prog.wp_skip fun _ v => end' v
  exact end' u

theorem Held.writei_entry (ok : Clean D E k) (held : Held k dp i)
    (isDir : (E.node i).type = T_DIR) {s : Nat} (low : s ≤ (E.node i).entries) {de : Dirent}
    (small : de.inum < k.sb.ninodes) (room : LogRoom k MAXOPBLOCKS) :
    ∃ r t E', (writei dp (.kernel de.byte) (DIRENTSIZE * s) DIRENTSIZE k).result = .ok (r, t) ∧
      Worked D dp k t E' ∧
      (r = DIRENTSIZE ∧ E'.node = Function.update E.node i ((E.node i).setEntry s de) ∨
        r ≠ DIRENTSIZE ∧ E'.node = E.node ∧ s = (E.node i).entries ∧
          (MAXFILE * BSIZE < DIRENTSIZE * s + DIRENTSIZE ∨ t.fs.Full k.sb)) := by
  have inside : DIRENTSIZE * s ≤ (E.node i).size :=
    (Nat.mul_le_mul_left DIRENTSIZE low).trans (Nat.mul_div_le _ _)
  have returns : ∃ r t, (writei dp (.kernel de.byte) (DIRENTSIZE * s) DIRENTSIZE k).result =
      .ok (r, t) ∧
      (r = DIRENTSIZE ∨ MAXFILE * BSIZE < DIRENTSIZE * s + DIRENTSIZE ∨ t.fs.Full k.sb) := by
    by_cases below : DIRENTSIZE * s + DIRENTSIZE ≤ MAXFILE * BSIZE
    · have admits : Admits (fun _ => False) k (logNeed (DIRENTSIZE * s) DIRENTSIZE + 3) :=
        Admits.mono (.inr room) (logNeed_le (by decide))
      obtain ⟨_, t, returns, r, c, rfl, ends⟩ :=
        (writei_wp ok held (.kernel de.byte) inside below admits).exists_ok
      refine ⟨r, t, returns, ?_⟩
      cases ends.stop with
      | done all => exact .inl (congrArg Nat.cast all)
      | full full => exact .inr (.inr full)
      | fault short => exact absurd short (lt_irrefl _)
    have refused := held.writei_refused ⟨D, E, ok⟩ (.kernel de.byte)
      (show DIRENTSIZE < 2 ^ 32 by decide)
      (.inr (Nat.lt_of_not_le below))
    exact ⟨-1, k, congrArg Outcome.result refused, .inr (.inl (Nat.lt_of_not_le below))⟩
  obtain ⟨r, t, result, why⟩ := returns
  obtain ⟨E', worked, outcome⟩ :=
    (writei_dirent_wp stops_any ok held isDir low small).post_of_ok result
  refine ⟨r, t, E', result, worked, outcome.imp_right fun ⟨short, same⟩ => ⟨short, same, ?_,
    why.resolve_left short⟩⟩
  by_contra ne
  exact short ((held.writei_slot ok (lt_of_le_of_ne low ne) de.byte).post_of_ok result)

theorem Held.dirlink_returns (ok : Clean D E k) (held : Held k dp i)
    (isDir : (E.node i).type = T_DIR) (spare : Spare k) (room : LogRoom k MAXOPBLOCKS)
    (name : Name) {inum : Nat} (small : inum < k.sb.ninodes) :
    ∃ r t, (dirlink dp name inum k).result = .ok (r, t) ∧
      (r = false → (E.node i).lookup name ≠ none ∨
      (E.node i).emptySlot = (E.node i).entries ∧
        (MAXFILE * BSIZE < (E.node i).size + DIRENTSIZE ∨ t.fs.Full k.sb)) := by
  have look : wp (Calm D) (fun _ => False) (dirlookup dp name) _ k :=
    dirlookup_wp (.inr ⟨isDir, spare⟩) ok held name
  obtain ⟨r, t, looks, -, result⟩ := look.exists_ok
  rcases hit : (E.node i).lookup name with - | s
  swap
  · rw [hit] at result
    obtain ⟨ip, rfl, got⟩ := result
    have puts : wp (Calm D) (fun _ => False) (iput ip) _ t := got.iput
    obtain ⟨_, u, put, -⟩ := puts.exists_ok
    refine ⟨false, u, ?_, fun _ => .inl nofun⟩
    exact (Prog.result_bind looks).trans (Prog.result_bind put)
  rw [hit] at result
  obtain ⟨rfl, rfl⟩ := result
  obtain ⟨count, searches⟩ := held.emptySlot ok isDir
  have word : inum % 65536 = inum := Nat.mod_eq_of_lt (lt_of_lt_of_le small ok.wf.names)
  have small' : (⟨inum, strncpy name⟩ : Dirent).inum < t.sb.ninodes := small
  obtain ⟨r, u, E', writes, -, outcome⟩ :=
    held.writei_entry ok isDir (Node.emptySlot_le _) small' room
  refine ⟨decide (r = DIRENTSIZE), u, ?_, fun no => .inr ?_⟩
  · refine (Prog.result_bind looks).trans ?_
    show ((emptySlotFrom dp (slots (t.itable dp).d.size) 0 >>= _ : Kern Bool) t).result = _
    rw [count]
    refine (Prog.result_bind (congrArg Outcome.result searches)).trans ?_
    rw [word]
    exact Prog.result_bind writes
  rcases outcome with ⟨all, -⟩ | ⟨-, -, last, why⟩
  · exact absurd all (of_decide_eq_false no)
  refine ⟨last, why.imp_left fun long => ?_⟩
  have total := (E.node i).entries_le
  rw [last] at long
  omega

end Calls

/-! ## Runs -/

/-- The inode `i`, locked in entry `dp` of the table, is a directory that was made by `create` and
changed by `dirlink` and by the removals of `sys_unlink`, with any other steps in between that leave
it alone. -/
inductive DirRuns (dp i : Nat) : Kernel → Prop
  | new {k₀ k₁ k : Kernel} {a b : Nat} (fs : Consistent k₀) (held : Held k₀ dp i)
      (isDir : (k₀.fs.node i).type = T_DIR) (empty : (k₀.fs.node i).size = 0)
      (own : a ≠ 0 ∧ a < k₀.sb.ninodes) (parent : b ≠ 0 ∧ b < k₀.sb.ninodes)
      (dot : (dirlink dp dotName a k₀).result = .ok (true, k₁))
      (dotdot : (dirlink dp dotdotName b k₁).result = .ok (true, k)) : DirRuns dp i k
  | link {k t : Kernel} {inum : Nat} {r : Bool} (run : DirRuns dp i k) (name : Name)
      (positive : inum ≠ 0)
      (small : inum < k.sb.ninodes) (links : (dirlink dp name inum k).result = .ok (r, t)) : DirRuns dp i t
  | unlink {k k₁ k₂ t : Kernel} {ip off : Nat} (run : DirRuns dp i k) (name : Name)
      (notDot : namecmp name dotName = false) (notDotdot : namecmp name dotdotName = false)
      (looks : (dirlookup dp name k).result = .ok (some (ip, off), k₁))
      (fs : Consistent k₂) (held : Held k₂ dp i) (same : k₂.fs.node i = k₁.fs.node i)
      (stores : (writei dp (.kernel fun _ => 0) off DIRENTSIZE k₂).result = .ok ((DIRENTSIZE : Int), t)) : DirRuns dp i t
  | other {k t : Kernel} (run : DirRuns dp i k) (fs : Consistent t) (held : Held t dp i)
      (same : t.fs.node i = k.fs.node i) : DirRuns dp i t

/-- What these runs keep. -/
structure MapDir (k : Kernel) (dp i : Nat) : Prop where
  fs : Consistent k
  held : Held k dp i
  isDir : (k.fs.node i).type = T_DIR
  distinct : (k.fs.node i).Distinct
  dots : (k.fs.node i).Dots

section Runs

variable {k t : Kernel} {dp i inum : Nat} {r : Bool} {name : Name}

theorem dirlink_result (fs : Consistent k) (held : Held k dp i) (small : inum < k.sb.ninodes)
    (links : (dirlink dp name inum k).result = .ok (r, t)) :
    Consistent t ∧ Held t dp i ∧ t.sb = k.sb ∧ (r = false → t.fs.node = k.fs.node) ∧
      (r = true → (k.fs.node i).lookup name = none ∧
        t.fs.node i = (k.fs.node i).link name inum) := by
  obtain ⟨D, E, ok⟩ := fs
  obtain ⟨E', linked⟩ := (dirlink_wp stops_any ok held name small).post_of_ok links
  rw [linked.clean.fs_eq, ok.fs_eq]
  refine ⟨⟨D, E', linked.clean⟩, linked.kept.held held, linked.kept.sb, linked.failed,
    fun done => ?_⟩
  obtain ⟨absent, node⟩ := linked.done done
  refine ⟨absent, ?_⟩
  rw [node, Function.update_self]
  rfl

theorem Consistent.dir_whole (fs : Consistent k) (isDir : (k.fs.node i).type = T_DIR) :
    (k.fs.node i).size % DIRENTSIZE = 0 := by
  obtain ⟨D, E, ok⟩ := fs
  rw [ok.fs_eq] at isDir ⊢
  exact (ok.good.dirs i isDir).size

theorem Consistent.word (fs : Consistent k) (small : inum < k.sb.ninodes) : inum < 65536 := by
  obtain ⟨D, E, ok⟩ := fs
  exact lt_of_lt_of_le small ok.wf.names

theorem MapDir.same (dir : MapDir k dp i) (fs : Consistent t) (held : Held t dp i)
    (same : t.fs.node i = k.fs.node i) : MapDir t dp i := by
  refine ⟨fs, held, ?_, ?_, ?_⟩
  all_goals rw [same]
  · exact dir.isDir
  · exact dir.distinct
  exact dir.dots

theorem MapDir.link (dir : MapDir k dp i) (small : inum < k.sb.ninodes)
    (links : (dirlink dp name inum k).result = .ok (r, t)) : MapDir t dp i := by
  obtain ⟨fs, held, -, failed, done⟩ := dirlink_result dir.fs dir.held small links
  have whole := dir.fs.dir_whole dir.isDir
  cases r with
  | false => exact dir.same fs held (congrFun (failed rfl) i)
  | true =>
    obtain ⟨absent, node⟩ := done rfl
    refine ⟨fs, held, ?_, ?_, ?_⟩
    all_goals rw [node]
    · exact dir.isDir
    · exact dir.distinct.link whole (dir.fs.word small) (Node.find_none_of_lookup absent)
    exact dir.dots.setEntry whole (Node.emptySlot_le _) dir.dots.emptySlot

/-- `.` and `..` in a directory without entries go to slots 0 and 1. -/
theorem Node.Dots.new {n : Node} {a b : Nat} (empty : n.size = 0) (own : a ≠ 0 ∧ a < 65536)
    (parent : b ≠ 0 ∧ b < 65536) : ((n.link dotName a).link dotdotName b).Dots := by
  have entries : n.entries = 0 := by
    rw [Node.entries, empty]
    rfl
  have slot : n.emptySlot = 0 := Nat.le_zero.1 (entries ▸ n.emptySlot_le)
  have whole : n.size % DIRENTSIZE = 0 := by
    rw [empty]
    rfl
  have first : n.link dotName a = n.setEntry 0 ⟨a, strncpy dotName⟩ := by rw [Node.link, slot]
  have live : (n.setEntry 0 ⟨a, strncpy dotName⟩).Live 0 :=
    (Node.live_setEntry_self whole zero_le own.2).2 own.1
  have entries' : (n.setEntry 0 ⟨a, strncpy dotName⟩).entries = 1 := by
    rw [Node.entries_setEntry whole zero_le, entries]
    rfl
  have whole' : (n.setEntry 0 ⟨a, strncpy dotName⟩).size % DIRENTSIZE = 0 := by
    show max n.size (DIRENTSIZE * 0 + DIRENTSIZE) % DIRENTSIZE = 0
    rw [empty]
    rfl
  have slot' : (n.setEntry 0 ⟨a, strncpy dotName⟩).emptySlot = 1 := by
    have most := (n.setEntry 0 ⟨a, strncpy dotName⟩).emptySlot_le
    rw [entries'] at most
    have free := Node.not_live_emptySlot (n.setEntry 0 ⟨a, strncpy dotName⟩)
    by_contra ne
    rw [show (n.setEntry 0 ⟨a, strncpy dotName⟩).emptySlot = 0 by omega] at free
    exact free live
  have low : 1 ≤ (n.setEntry 0 ⟨a, strncpy dotName⟩).entries := entries'.ge
  rw [first, Node.link, slot']
  refine ⟨(Node.live_setEntry_other whole' low (by decide)).2 live, ?_,
    (Node.live_setEntry_self whole' low parent.2).2 parent.1, ?_⟩
  · rw [Node.dirent_setEntry_other (by decide), Node.dirent_setEntry, if_pos rfl]
    exact namecmp_stored (Dirent.ofBytes_byte own.2).2
  rw [Node.dirent_setEntry, if_pos rfl]
  exact namecmp_stored (Dirent.ofBytes_byte parent.2).2

theorem MapDir.new {k₀ k₁ : Kernel} {a b : Nat} (fs : Consistent k₀) (held : Held k₀ dp i)
    (isDir : (k₀.fs.node i).type = T_DIR) (empty : (k₀.fs.node i).size = 0)
    (own : a ≠ 0 ∧ a < k₀.sb.ninodes) (parent : b ≠ 0 ∧ b < k₀.sb.ninodes)
    (dot : (dirlink dp dotName a k₀).result = .ok (true, k₁))
    (dotdot : (dirlink dp dotdotName b k₁).result = .ok (true, k)) : MapDir k dp i := by
  obtain ⟨fs₁, held₁, sb, -, done₁⟩ := dirlink_result fs held own.2 dot
  obtain ⟨absent₁, node₁⟩ := done₁ rfl
  obtain ⟨fs₂, held₂, -, -, done₂⟩ := dirlink_result fs₁ held₁ (sb ▸ parent.2) dotdot
  obtain ⟨absent₂, node₂⟩ := done₂ rfl
  have distinct : (k₀.fs.node i).Distinct := by
    intro s s' live
    have low := live.1
    rw [Node.entries, empty] at low
    exact absurd low (Nat.not_lt_zero s)
  have isDir₁ : (k₁.fs.node i).type = T_DIR := by
    rw [node₁]
    exact isDir
  have distinct₁ : (k₁.fs.node i).Distinct := by
    rw [node₁]
    exact distinct.link (fs.dir_whole isDir) (fs.word own.2) (Node.find_none_of_lookup absent₁)
  refine ⟨fs₂, held₂, ?_, ?_, ?_⟩
  all_goals rw [node₂]
  · exact isDir₁
  · exact distinct₁.link (fs₁.dir_whole isDir₁) (fs.word parent.2)
      (Node.find_none_of_lookup absent₂)
  rw [node₁]
  exact Node.Dots.new empty ⟨own.1, fs.word own.2⟩ ⟨parent.1, fs.word parent.2⟩

theorem dirlookup_found (fs : Consistent k) (held : Held k dp i) {ip off : Nat}
    (looks : (dirlookup dp name k).result = .ok (some (ip, off), t)) :
    ∃ s, (k.fs.node i).lookup name = some s ∧ off = DIRENTSIZE * s ∧ t.fs.node = k.fs.node := by
  obtain ⟨D, E, ok⟩ := fs
  obtain ⟨-, result⟩ := (dirlookup_wp (.inl stops_any) ok held name).post_of_ok looks
  rw [ok.fs_eq]
  rcases hit : (E.node i).lookup name with - | s
  · rw [hit] at result
    cases result.1
  rw [hit] at result
  obtain ⟨_, eq, got⟩ := result
  cases eq
  exact ⟨s, rfl, rfl, by rw [got.clean.fs_eq]⟩

theorem unlink_result (fs : Consistent k) (held : Held k dp i) (isDir : (k.fs.node i).type = T_DIR) {s : Nat}
    (low : s < (k.fs.node i).entries)
    (stores : (writei dp (.kernel fun _ => 0) (DIRENTSIZE * s) DIRENTSIZE k).result = .ok ((DIRENTSIZE : Int), t)) :
    Consistent t ∧ Held t dp i ∧ t.fs.node i = (k.fs.node i).unlink s := by
  obtain ⟨D, E, ok⟩ := fs
  rw [ok.fs_eq] at isDir low ⊢
  have positive : (⟨0, fun _ => 0⟩ : Dirent).inum < k.sb.ninodes :=
    lt_of_lt_of_le Nat.one_pos ok.wf.root.le
  rw [zeroDirent_byte] at stores
  obtain ⟨E', worked, outcome⟩ :=
    (writei_dirent_wp stops_any ok held isDir low.le positive).post_of_ok stores
  rcases outcome with ⟨-, node⟩ | ⟨short, -⟩
  · refine ⟨⟨D, E', worked.clean⟩, worked.near.kept.held held, ?_⟩
    rw [worked.clean.fs_eq, node, Function.update_self]
    rfl
  exact absurd rfl short

theorem MapDir.unlink (dir : MapDir k dp i) {s : Nat} (hit : (k.fs.node i).lookup name = some s)
    (notDot : namecmp name dotName = false) (notDotdot : namecmp name dotdotName = false)
    (stores : (writei dp (.kernel fun _ => 0) (DIRENTSIZE * s) DIRENTSIZE k).result = .ok ((DIRENTSIZE : Int), t)) :
    MapDir t dp i := by
  obtain ⟨⟨low, -⟩, same⟩ := (Node.lookup_eq_some dir.distinct).1 hit
  obtain ⟨fs, held, node⟩ := unlink_result dir.fs dir.held dir.isDir low stores
  have whole := dir.fs.dir_whole dir.isDir
  refine ⟨fs, held, ?_, ?_, ?_⟩
  all_goals rw [node]
  · exact dir.isDir
  · exact dir.distinct.unlink whole low.le
  exact dir.dots.setEntry whole low.le (dir.dots.high same notDot notDotdot)

theorem DirRuns.mapDir (run : DirRuns dp i k) : MapDir k dp i := by
  induction run with
  | new fs held isDir empty own parent dot dotdot => exact .new fs held isDir empty own parent dot dotdot
  | link _ name positive small links ih => exact ih.link small links
  | unlink _ name notDot notDotdot looks fs held same stores ih =>
    obtain ⟨s, hit, rfl, node⟩ := dirlookup_found ih.fs ih.held looks
    have same := same.trans (congrFun node i)
    exact (ih.same fs held same).unlink (same ▸ hit) notDot notDotdot stores
  | other _ fs held same ih => exact ih.same fs held same

/-- The directory has no free slot and cannot get one: it is as long as a file can be, or the disk
is full. -/
def CannotGrow (k t : Kernel) (i : Nat) : Prop :=
  (k.fs.node i).emptySlot = (k.fs.node i).entries ∧
    (MAXFILE * BSIZE < (k.fs.node i).size + DIRENTSIZE ∨ t.fs.Full k.sb)

section

variable (dir : MapDir k dp i)
include dir

theorem MapDir.dirlookup (spare : Spare k) (name : Name) :
    ∃ r t, (dirlookup dp name k).result = .ok (r, t) ∧
      r.map (fun found => (t.itable found.1).inum) = (k.fs.node i).find name ∧
      r.map Prod.snd = ((k.fs.node i).lookup name).map (DIRENTSIZE * ·) ∧
        t.fs.node = k.fs.node := by
  obtain ⟨⟨D, E, ok⟩, held, isDir, -, -⟩ := dir
  rw [ok.fs_eq] at isDir ⊢
  have look : wp (Calm D) (fun _ => False) (Xv6.dirlookup dp name) _ k :=
    dirlookup_wp (.inr ⟨isDir, spare⟩) ok held name
  obtain ⟨r, t, looks, -, result⟩ := look.exists_ok
  refine ⟨r, t, looks, ?_⟩
  rw [Node.find]
  rcases hit : (E.node i).lookup name with - | s
  · rw [hit] at result
    obtain ⟨rfl, rfl⟩ := result
    exact ⟨rfl, rfl, by rw [ok.fs_eq]⟩
  rw [hit] at result
  obtain ⟨ip, rfl, got⟩ := result
  exact ⟨congrArg some got.named, rfl, by rw [got.clean.fs_eq]⟩

theorem MapDir.dirlink (spare : Spare k) (room : LogRoom k MAXOPBLOCKS) (name : Name)
    (positive : inum ≠ 0) (small : inum < k.sb.ninodes) :
    ∃ r t, (dirlink dp name inum k).result = .ok (r, t) ∧
      (r = false → (k.fs.node i).find name ≠ none ∨ CannotGrow k t i) ∧
      (r = false → ∀ name', (t.fs.node i).find name' = (k.fs.node i).find name') ∧
      (r = true → (k.fs.node i).find name = none ∧ ∀ name', (t.fs.node i).find name' =
        if namecmp name name' = true then some inum else (k.fs.node i).find name') := by
  obtain ⟨D, E, ok⟩ := dir.fs
  have isDir := dir.isDir
  rw [ok.fs_eq] at isDir
  obtain ⟨r, t, links, why⟩ := dir.held.dirlink_returns ok isDir spare room name small
  obtain ⟨-, -, -, failed, done⟩ := dirlink_result dir.fs dir.held small links
  refine ⟨r, t, links, fun no => ?_, fun no name' => by rw [failed no], fun yes => ?_⟩
  · rw [CannotGrow, ok.fs_eq]
    refine (why no).imp_left fun found => ?_
    rw [Node.find, ne_eq, Option.map_eq_none_iff]
    exact found
  obtain ⟨absent, node⟩ := done yes
  have absent := Node.find_none_of_lookup absent
  refine ⟨absent, fun name' => ?_⟩
  rw [node]
  exact Node.find_link dir.distinct (dir.fs.dir_whole dir.isDir) positive (dir.fs.word small) absent name'

theorem MapDir.remove (room : LogRoom k MAXOPBLOCKS) {s : Nat} (hit : (k.fs.node i).lookup name = some s) :
    ∃ t, (writei dp (.kernel fun _ => 0) (DIRENTSIZE * s) DIRENTSIZE k).result = .ok ((DIRENTSIZE : Int), t) ∧
      ∀ name', (t.fs.node i).find name' =
        if namecmp name name' = true then none else (k.fs.node i).find name' := by
  obtain ⟨⟨low, -⟩, -⟩ := (Node.lookup_eq_some dir.distinct).1 hit
  obtain ⟨D, E, ok⟩ := dir.fs
  have isDir := dir.isDir
  have low' := low
  rw [ok.fs_eq] at isDir low'
  have positive : (⟨0, fun _ => 0⟩ : Dirent).inum < k.sb.ninodes :=
    lt_of_lt_of_le Nat.one_pos ok.wf.root.le
  obtain ⟨r, t, E', stores, -⟩ := dir.held.writei_entry ok isDir low'.le positive room
  rw [← zeroDirent_byte] at stores
  have all := (dir.held.writei_slot ok low' fun _ => 0).post_of_ok stores
  rw [all] at stores
  obtain ⟨-, -, node⟩ := unlink_result dir.fs dir.held dir.isDir low stores
  refine ⟨t, stores, fun name' => ?_⟩
  rw [node]
  exact Node.find_unlink dir.distinct (dir.fs.dir_whole dir.isDir) hit name'

theorem MapDir.isdirempty : Prog.Returns (isdirempty dp) (k.fs.node i).isEmpty k := by
  obtain ⟨D, E, ok⟩ := dir.fs
  have whole := dir.fs.dir_whole dir.isDir
  have loaded := (dir.held.loaded ok).isdirempty
  rw [dir.held.inum] at loaded
  rw [ok.fs_eq] at whole ⊢
  exact loaded whole

end

/-- A directory is a finite map whose keys are names up to `namecmp`. Its size is a whole number
of entries, no two of which compare equal. With a free entry of the inode table and room in the
log, `dirlookup` returns the inode of the name; `dirlink` fails without a change if the name is
there or the directory cannot grow, and otherwise adds just the names equal to `name`; the store
of `sys_unlink` at the offset of a name removes just the names equal to it; and `isdirempty` says
whether there is a name but `.` and `..`. -/
theorem directory_finite_map (run : DirRuns dp i k) :
    ((k.fs.node i).size % DIRENTSIZE = 0 ∧ (k.fs.node i).Distinct) ∧
    (Spare k → ∀ name, ∃ r t, (dirlookup dp name k).result = .ok (r, t) ∧
      r.map (fun found => (t.itable found.1).inum) = (k.fs.node i).find name ∧
      r.map Prod.snd = ((k.fs.node i).lookup name).map (DIRENTSIZE * ·) ∧ t.fs.node = k.fs.node) ∧
    (Spare k → LogRoom k MAXOPBLOCKS → ∀ name inum, inum ≠ 0 → inum < k.sb.ninodes →
      ∃ r t, (dirlink dp name inum k).result = .ok (r, t) ∧
        (r = false → (k.fs.node i).find name ≠ none ∨ CannotGrow k t i) ∧
        (r = false → ∀ name', (t.fs.node i).find name' = (k.fs.node i).find name') ∧
        (r = true → (k.fs.node i).find name = none ∧ ∀ name', (t.fs.node i).find name' =
          if namecmp name name' = true then some inum else (k.fs.node i).find name')) ∧
    (LogRoom k MAXOPBLOCKS → ∀ name s, (k.fs.node i).lookup name = some s →
      ∃ t, (writei dp (.kernel fun _ => 0) (DIRENTSIZE * s) DIRENTSIZE k).result = .ok ((DIRENTSIZE : Int), t) ∧
        ∀ name', (t.fs.node i).find name' =
          if namecmp name name' = true then none else (k.fs.node i).find name') ∧
    ∃ empty, Prog.Returns (isdirempty dp) empty k ∧ (empty = true ↔
      ∀ name, namecmp name dotName = false → namecmp name dotdotName = false →
        (k.fs.node i).find name = none) := by
  have dir := run.mapDir
  refine ⟨⟨dir.fs.dir_whole dir.isDir, dir.distinct⟩, fun spare name => dir.dirlookup spare name,
    fun spare room name inum positive small => dir.dirlink spare room name positive small,
    fun room name s hit => dir.remove room hit, _, dir.isdirempty, Node.isEmpty_iff dir.distinct dir.dots⟩

end Runs

/-- A new inode for a directory, locked by a transaction. -/
def newDir : List FsCall := [.beginOp, .ialloc T_DIR, .ilock 0, .assign 0 1 0 0]

/-- The state after a `dirlink` that succeeded. -/
def linked (name : Name) (inum : Nat) (k : Kernel) : Option Kernel :=
  match (dirlink 0 name inum k).result with
  | .ok (true, t) => some t
  | _ => none

theorem linked_eq {name : Name} {inum : Nat} {k t : Kernel} (done : linked name inum k = some t) :
    (dirlink 0 name inum k).result = .ok (true, t) := by
  rw [linked] at done
  split at done
  · cases done
    assumption
  cases done

def fileName : Name := fun j => if j = 0 then 97 else 0

theorem newDir_links : ∃ k, DirRuns 0 1 k ∧ Spare k ∧ LogRoom k MAXOPBLOCKS ∧ 5 < k.sb.ninodes ∧
    ∃ r t, (dirlink 0 fileName 5 k).result = .ok (r, t) ∧
      (r = true → ∀ name', (t.fs.node 1).find name' =
        if namecmp fileName name' = true then some 5 else (k.fs.node 1).find name') := by
  obtain ⟨k₀, -, fs, held, node, small, found⟩ := FsRuns.exists_play newDir (fun k => Held k 0 1 ∧
    ((k.fs.node 1).type, (k.fs.node 1).size) = (T_DIR, 0) ∧ k.sb.ninodes = 200 ∧
    ((linked dotName 1 k).bind (linked dotdotName 1)).any (fun t => (t.itable 1).ref = 0 ∧ LogRoom t MAXOPBLOCKS ∧
      t.sb.ninodes = 200)) (by decide +kernel)
  simp only [Prod.mk.injEq] at node
  obtain ⟨k, both, check⟩ := (Option.any_eq_true _ _).1 found
  obtain ⟨k₁, dot, dotdot⟩ := Option.bind_eq_some_iff.1 both
  obtain ⟨free, room, sb⟩ := of_decide_eq_true check
  have one : 1 ≠ 0 ∧ 1 < k₀.sb.ninodes := ⟨by decide, by rw [small]; decide⟩
  have run : DirRuns 0 1 k := .new fs held node.1 node.2 one one (linked_eq dot) (linked_eq dotdot)
  have spare : Spare k := ⟨1, by decide, free⟩
  have low : 5 < k.sb.ninodes := by
    rw [sb]
    decide
  obtain ⟨r, t, links, -, -, done⟩ :=
    (directory_finite_map run).2.2.1 spare room fileName 5 (by decide) low
  exact ⟨k, run, spare, room, low, r, t, links, fun yes => (done yes).2⟩

/-- The same with a file, inode 2, that is not open, and with every entry of the inode table in
use. -/
def newDirFull : List FsCall :=
  newDir ++ [.ialloc T_FILE, .ilock 1, .assign 1 1 0 0, .iunlock 1, .iput 1] ++
    List.replicate (NINODE - 1) (.ialloc T_FILE)

/-- With a full table a name that is there stops `dirlink`; and an inode number that a `ushort`
does not hold is not found. -/
theorem dirlink_outside : ∃ k, DirRuns 0 1 k ∧ (k.fs.node 1).find fileName = some 2 ∧
    (dirlink 0 fileName 5 k).result = .error .igetNoInodes ∧
    ∃ t, (dirlink 0 (fun j => if j = 0 then 98 else 0) 65536 k).result = .ok (true, t) ∧
      (t.fs.node 1).find (fun j => if j = 0 then 98 else 0) = none := by
  obtain ⟨k₀, -, fs, held, node, small, found⟩ :=
    FsRuns.exists_play newDirFull (fun k => Held k 0 1 ∧
    ((k.fs.node 1).type, (k.fs.node 1).size) = (T_DIR, 0) ∧ k.sb.ninodes = 200 ∧
    (((linked dotName 1 k).bind (linked dotdotName 1)).bind (linked fileName 2)).any (fun t =>
      (t.fs.node 1).find fileName = some 2 ∧
      ((dirlink 0 fileName 5 t).result.map fun _ => ()) = .error .igetNoInodes ∧
      (linked (fun j => if j = 0 then 98 else 0) 65536 t).any (fun u =>
        (u.fs.node 1).find (fun j => if j = 0 then 98 else 0) = none))) (by decide +kernel)
  simp only [Prod.mk.injEq] at node
  obtain ⟨k, all, check⟩ := (Option.any_eq_true _ _).1 found
  obtain ⟨k₂, both, file⟩ := Option.bind_eq_some_iff.1 all
  obtain ⟨k₁, dot, dotdot⟩ := Option.bind_eq_some_iff.1 both
  obtain ⟨there, stops, lost⟩ := of_decide_eq_true check
  obtain ⟨t, links, none⟩ := (Option.any_eq_true _ _).1 lost
  have one : 1 ≠ 0 ∧ 1 < k₀.sb.ninodes := ⟨by decide, by rw [small]; decide⟩
  have run : DirRuns 0 1 k₂ := .new fs held node.1 node.2 one one (linked_eq dot) (linked_eq dotdot)
  obtain ⟨fs₁, held₁, sb₁, -⟩ := dirlink_result fs held one.2 (linked_eq dot)
  obtain ⟨-, -, sb₂, -⟩ := dirlink_result fs₁ held₁ (sb₁ ▸ one.2) (linked_eq dotdot)
  have low : 2 < k₂.sb.ninodes := by
    rw [sb₂, sb₁, small]
    decide
  refine ⟨k, run.link fileName (by decide) low (linked_eq file), there, ?_, t, linked_eq links,
    of_decide_eq_true none⟩
  cases ended : (dirlink 0 fileName 5 k).result with
  | error e =>
    rw [ended] at stops
    cases stops
    rfl
  | ok r =>
    rw [ended] at stops
    cases stops

end Xv6
