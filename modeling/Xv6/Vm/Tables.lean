import Xv6.Vm

/-!
# What the functions on page tables do

A page table is seen as the function from page numbers to entries that `look` gives, and as
the pages it is made of. Every function of `vm.c` is specified by what it does to these two
and to the pages its process holds.
-/

namespace Xv6.Vm

open Multiset (cons_add mem_toFinset add_cons)
open Function renaming update → upd, update_self → upd_self, update_of_ne → upd_ne
open Xv6.Task

/-- The pages below a page-table page. -/
def Node.tables : (n : Nat) → Node n → Multiset Nat
  | 0, _ => 0
  | n + 1, t => ∑ i, (t i).elim 0 fun e => e.1 ::ₘ Node.tables n e.2

/-- No entry of the lowest level is valid. -/
def Node.Bare : (n : Nat) → Node n → Prop
  | 0, t => ∀ i, t i = none
  | n + 1, t => ∀ i e, t i = some e → Node.Bare n e.2

/-- The entry for a page number. -/
def Pagetable.look (pt : Pagetable) (v : Nat) : Option Pte :=
  if v < 2 ^ 27 then (Node.get 2 pt.root (v * PGSIZE)).join else none

def Pagetable.pages (pt : Pagetable) : Multiset Nat := pt.page ::ₘ Node.tables 2 pt.root

/-- A sum over entries of which one gained `new`. -/
theorem sum_touch {ι : Type} [Fintype ι] [DecidableEq ι] {f g : ι → Multiset Nat} {j : ι}
    {new : Multiset Nat} (others : ∀ i, i ≠ j → g i = f i) (touched : g j = new + f j) :
    ∑ i, g i = new + ∑ i, f i := by
  have same : ∑ i ∈ {j}ᶜ, g i = ∑ i ∈ {j}ᶜ, f i := by
    apply Finset.sum_congr rfl
    intro i mem
    exact others i (by simpa using mem)
  rw [Fintype.sum_eq_add_sum_compl j g, Fintype.sum_eq_add_sum_compl j f, same, touched, add_assoc]

section Node

variable {va vb : Nat} {pte : Option Pte}

/-- An entry that `walk` reaches can be set. -/
theorem Node.get_set_self : ∀ {n : Nat} {t : Node n}, Node.get n t va ≠ none →
    Node.get n (Node.set n t va pte) va = some pte := by
  intro n
  induction n with
  | zero =>
    intro t _
    simp [Node.get, Node.set]
  | succ n ih =>
    intro t reached
    cases entry : t (px (n + 1) va) with
    | none =>
      rw [Node.get, entry] at reached
      exact absurd rfl reached
    | some e =>
      rw [Node.get, entry] at reached
      simp only [Node.set, entry, Node.get, upd_self, Option.bind_some]
      exact ih reached

/-- Setting an entry leaves those of other addresses. -/
theorem Node.get_set_of_ne : ∀ {n : Nat} {t : Node n}, (∃ l ≤ n, px l vb ≠ px l va) →
    Node.get n (Node.set n t va pte) vb = Node.get n t vb := by
  intro n
  induction n with
  | zero =>
    rintro t ⟨l, le, ne⟩
    obtain rfl := Nat.le_zero.mp le
    simp [Node.get, Node.set, upd_ne ne]
  | succ n ih =>
    rintro t ⟨l, le, ne⟩
    cases entry : t (px (n + 1) va) with
    | none => simp only [Node.set, entry]
    | some e =>
      simp only [Node.set, entry, Node.get]
      by_cases same : px (n + 1) vb = px (n + 1) va
      · have lower : l ≤ n := by
          by_contra high
          obtain rfl : l = n + 1 := by omega
          exact ne same
        rw [same, upd_self, entry]
        exact ih ⟨l, lower, ne⟩
      rw [upd_ne same]

/-- The pages of a table gain what one of its entries gained. -/
theorem Node.tables_update {n page : Nat} {i : Fin 512} {t : Node (n + 1)} {sub : Node n}
    {new : Multiset Nat}
    (at' : page ::ₘ Node.tables n sub = new + (t i).elim 0 fun e => e.1 ::ₘ Node.tables n e.2) :
    Node.tables (n + 1) (upd t i (some (page, sub))) = new + Node.tables (n + 1) t := by
  rw [Node.tables, Node.tables]
  apply sum_touch (j := i)
  · intro j ne
    rw [upd_ne ne]
  rw [upd_self]
  exact at'

/-- Setting an entry of the last level takes no page. -/
theorem Node.tables_set :
    ∀ {n : Nat} {t : Node n}, Node.tables n (Node.set n t va pte) = Node.tables n t := by
  intro n
  induction n with
  | zero =>
    intro t
    rfl
  | succ n ih =>
    intro t
    cases entry : t (px (n + 1) va) with
    | none => simp only [Node.set, entry]
    | some e =>
      have same : Node.tables (n + 1) (upd t (px (n + 1) va) (some (e.1, Node.set n e.2 va pte))) =
          0 + Node.tables (n + 1) t := by
        apply Node.tables_update
        rw [entry, Option.elim_some, ih, zero_add]
      simp only [Node.set, entry]
      rw [same, zero_add]

theorem Node.join_get_empty : ∀ {n : Nat}, (Node.get n (Node.empty n) va).join = none
  | 0 => rfl
  | _ + 1 => rfl

theorem Node.tables_empty : ∀ {n : Nat}, Node.tables n (Node.empty n) = 0
  | 0 => rfl
  | n + 1 => by simp [Node.tables, Node.empty]

end Node

/-- Two pages differ in one of their three indices. -/
theorem px_ne {v w : Nat} (hv : v < 2 ^ 27) (hw : w < 2 ^ 27) (ne : w ≠ v) :
    ∃ l ≤ 2, px l (w * PGSIZE) ≠ px l (v * PGSIZE) := by
  by_contra same
  push Not at same
  have zero := congrArg Fin.val (same 0 (by omega))
  have one := congrArg Fin.val (same 1 (by omega))
  have two := congrArg Fin.val (same 2 (by omega))
  simp only [px, PGSIZE] at zero one two
  norm_num at zero one two
  omega

theorem Pagetable.look_eq {pt : Pagetable} {v : Nat} (hv : v < 2 ^ 27) :
    pt.look v = (Node.get 2 pt.root (v * PGSIZE)).join := if_pos hv

/-- `look` after an entry was set. -/
theorem Pagetable.look_set {pt : Pagetable} {v : Nat} {pte : Option Pte} (hv : v < 2 ^ 27)
    (reached : Node.get 2 pt.root (v * PGSIZE) ≠ none) :
    (pt.set (v * PGSIZE) pte).look = upd pt.look v pte := by
  funext w
  by_cases eq : w = v
  · rw [eq, upd_self, Pagetable.look_eq hv, Pagetable.set, Node.get_set_self reached]
    rfl
  rw [upd_ne eq]
  by_cases hw : w < 2 ^ 27
  · rw [Pagetable.look_eq hw, Pagetable.look_eq hw, Pagetable.set,
      Node.get_set_of_ne (px_ne hv hw eq)]
  rw [Pagetable.look, Pagetable.look, if_neg hw, if_neg hw]

theorem Pagetable.pages_set {pt : Pagetable} {va : Nat} {pte : Option Pte} :
    (pt.set va pte).pages = pt.pages := by
  rw [Pagetable.pages, Pagetable.pages, Pagetable.set, Node.tables_set]

/-- A mapped page is reached by `walk`. -/
theorem Pagetable.reached {pt : Pagetable} {v : Nat} {pte : Pte} (hv : v < 2 ^ 27)
    (look : pt.look v = some pte) :
    Node.get 2 pt.root (v * PGSIZE) = some (some pte) := by
  rw [Pagetable.look_eq hv] at look
  exact Option.join_eq_some_iff.mp look

/-- A page table that maps nothing has no entries on the last level. -/
theorem Pagetable.bare {pt : Pagetable} (none : ∀ v, pt.look v = none) : Node.Bare 2 pt.root := by
  intro i e atI j e' atJ k
  have look := none (i * 2 ^ 18 + j * 2 ^ 9 + k)
  have hi : px 2 ((i * 2 ^ 18 + j * 2 ^ 9 + k) * PGSIZE) = i := by
    apply Fin.ext
    simp only [px, PGSIZE]
    norm_num
    omega
  have hj : px 1 ((i * 2 ^ 18 + j * 2 ^ 9 + k) * PGSIZE) = j := by
    apply Fin.ext
    simp only [px, PGSIZE]
    norm_num
    omega
  have hk : px 0 ((i * 2 ^ 18 + j * 2 ^ 9 + k) * PGSIZE) = k := by
    apply Fin.ext
    simp only [px, PGSIZE]
    norm_num
    omega
  rw [Pagetable.look_eq (by omega)] at look
  simp only [Node.get, hi, hj, hk, atI, atJ, Option.bind_some] at look
  exact look

/-! ## The pages of a range -/

/-- The pages mapped at `n` page numbers from `v` on. -/
def frames (f : Nat → Option Pte) : Nat → Nat → Multiset Nat
  | _, 0 => 0
  | v, n + 1 => (f v).elim 0 Pte.pa ::ₘ frames f (v + 1) n

/-- A table whose mappings at `n` page numbers from `v` on are removed. -/
def unmapped (f : Nat → Option Pte) (v n : Nat) : Nat → Option Pte :=
  fun w => if v ≤ w ∧ w < v + n then none else f w

section Frames

variable {f g : Nat → Option Pte} {v m n : Nat}

/-- The frames depend on the physical addresses alone. -/
theorem frames_congr_pa : ∀ {n v : Nat},
    (∀ w, v ≤ w → w < v + n → (f w).elim 0 Pte.pa = (g w).elim 0 Pte.pa) →
      frames f v n = frames g v n
  | 0, _, _ => rfl
  | n + 1, v, same => by
    rw [frames, frames, same v (by omega) (by omega),
      frames_congr_pa fun w le lt => same w (by omega) (by omega)]

theorem frames_congr (same : ∀ w, v ≤ w → w < v + n → f w = g w) : frames f v n = frames g v n := by
  apply frames_congr_pa
  intro w le lt
  rw [same w le lt]

/-- The frames of two ranges in a row. -/
theorem frames_add : ∀ {m v : Nat}, frames f v (m + n) = frames f v m + frames f (v + m) n
  | 0, v => by rw [zero_add, frames, zero_add, add_zero]
  | m + 1, v => by
    rw [Nat.add_right_comm, frames, frames, frames_add, cons_add, Nat.add_right_comm v 1 m]
    rfl

theorem frames_succ : frames f v (n + 1) = (f (v + n)).elim 0 Pte.pa ::ₘ frames f v n := by
  rw [frames_add, frames, frames, add_comm, cons_add, zero_add]

theorem card_frames : ∀ {n v : Nat}, (frames f v n).card = n
  | 0, _ => rfl
  | n + 1, v => by rw [frames, Multiset.card_cons, card_frames]

theorem unmapped_zero : unmapped f v 0 = f := by
  funext w
  rw [unmapped, if_neg (by omega)]

theorem unmapped_succ : unmapped (upd f v none) (v + 1) n = unmapped f v (n + 1) := by
  funext w
  unfold unmapped
  by_cases eq : w = v
  · rw [eq, if_neg (by omega), if_pos (by omega), upd_self]
  rw [upd_ne eq]
  by_cases range : v ≤ w ∧ w < v + (n + 1)
  · rw [if_pos range, if_pos (by omega)]
  rw [if_neg range, if_neg (by omega)]

end Frames

/-! ## The functions -/

section Specs

variable {L : Layout} {held rest : Multiset Nat} {pt : Pagetable}

/-- There are fewer than `2 ^ 20` frames. -/
theorem card_lt (valid : Valid L.Frame held) : held.card < 2 ^ 20 := by
  have card : held.toFinset.card = held.card := Multiset.toFinset_card_of_nodup valid.nodup
  have le : held.toFinset.card ≤ (Finset.range (PHYSTOP / PGSIZE)).card := by
    apply Finset.card_le_card_of_injOn (· / PGSIZE)
    · intro pa mem
      have frame := valid.ok pa (mem_toFinset.mp mem)
      have := frame.2.2
      simp only [Finset.coe_range, Set.mem_Iio, PHYSTOP, PGSIZE] at this ⊢
      omega
    intro pa mem pb mem' eq
    have frame := (valid.ok pa (mem_toFinset.mp mem)).1
    have frame' := (valid.ok pb (mem_toFinset.mp mem')).1
    simp only [PGSIZE] at eq frame frame'
    omega
  rw [Finset.card_range] at le
  have small : PHYSTOP / PGSIZE < 2 ^ 20 := by decide
  omega

/-- `kalloc` fails or takes a page that nobody has. -/
theorem runs_kalloc {post : Option Nat → Multiset Nat → Prop} (none : post none held)
    (some : ∀ pa, post (some pa) (pa ::ₘ held)) : Runs L.Frame kalloc post held := by
  apply runs_take
  · exact runs_pure none
  intro pa _ _
  exact runs_pure (some pa)

/-- `kfree` gives a page back that is held. -/
theorem runs_kfree {post : Unit → Multiset Nat → Prop} {pa : Nat} (after : post () rest) :
    Runs L.Frame (kfree L pa) post (pa ::ₘ rest) := by
  apply runs_of_valid
  intro valid
  rw [kfree, if_pos (valid.ok pa (Multiset.mem_cons_self pa rest))]
  exact runs_give (runs_pure after)

/-- A new table that maps what was mapped before changes nothing that is looked up. -/
theorem Node.join_get_update {n va vb page : Nat} {t : Node (n + 1)} {sub : Node n}
    (same : ∀ vb, px (n + 1) vb = px (n + 1) va →
      (Node.get n sub vb).join = (Node.get (n + 1) t vb).join) :
    (Node.get (n + 1) (upd t (px (n + 1) va) (some (page, sub))) vb).join =
      (Node.get (n + 1) t vb).join := by
  by_cases eq : px (n + 1) vb = px (n + 1) va
  · rw [← same vb eq, Node.get, eq, upd_self]
    rfl
  rw [Node.get, upd_ne eq, Node.get]

/-- `walk` on one level: it may take pages for tables, and maps nothing new. -/
theorem runs_nodeWalk {va : Nat} : ∀ {n : Nat} {t : Node n} {held : Multiset Nat}
    {post : Node n × Bool → Multiset Nat → Prop},
    (∀ t' new ok, Node.tables n t' = new + Node.tables n t →
      (∀ vb, (Node.get n t' vb).join = (Node.get n t vb).join) →
      (ok = true → Node.get n t' va ≠ none) → post (t', ok) (new + held)) →
    Runs L.Frame (Node.walk n t va) post held := by
  intro n
  induction n with
  | zero =>
    intro t held post after
    have end' := after t 0 true (zero_add _).symm (fun _ => rfl) (fun _ => Option.some_ne_none _)
    rw [zero_add] at end'
    exact runs_pure end'
  | succ n ih =>
    intro t held post after
    rw [Node.walk]
    cases entry : t (px (n + 1) va) with
    | some e =>
      apply runs_bind
      apply ih
      intro sub new ok tables gets reached
      apply runs_pure
      apply after
      · apply Node.tables_update
        rw [entry, tables]
        simp only [Option.elim_some, add_cons]
      · intro vb
        apply Node.join_get_update
        intro vb eq
        rw [gets, Node.get, eq, entry]
        rfl
      intro ended
      rw [Node.get, upd_self]
      exact reached ended
    | none =>
      have missing : ∀ vb, px (n + 1) vb = px (n + 1) va → Node.get (n + 1) t vb = none := by
        intro vb eq
        rw [Node.get, eq, entry]
        rfl
      apply runs_bind
      apply runs_kalloc
      · have end' := after t 0 false (zero_add _).symm (fun _ => rfl) nofun
        rw [zero_add] at end'
        exact runs_pure end'
      intro page
      apply runs_bind
      apply ih
      intro sub new ok tables gets reached
      apply runs_pure
      rw [add_cons, ← cons_add]
      apply after
      · apply Node.tables_update
        rw [entry, tables, Node.tables_empty, Option.elim_none, add_zero, add_zero]
      · intro vb
        apply Node.join_get_update
        intro vb eq
        rw [gets, Node.join_get_empty, missing vb eq]
        rfl
      intro ended
      rw [Node.get, upd_self]
      exact reached ended

variable {post : Pagetable × Bool → Multiset Nat → Prop}

/-- `walk` may take pages for tables, and what is looked up stays. -/
theorem runs_walk {v : Nat} (hv : v < 2 ^ 26) (after : ∀ pt' new ok, pt'.pages = new + pt.pages → pt'.look = pt.look →
      (ok = true → Node.get 2 pt'.root (v * PGSIZE) ≠ none) → post (pt', ok) (new + held)) :
    Runs L.Frame (walk pt (v * PGSIZE)) post held := by
  have low : ¬MAXVA ≤ v * PGSIZE := by
    simp only [MAXVA, PGSIZE]
    omega
  rw [walk, if_neg low]
  apply runs_bind
  apply runs_nodeWalk
  intro root new ok tables gets reached
  apply runs_pure
  apply after
  · rw [Pagetable.pages, Pagetable.pages, tables, add_cons]
  · funext w
    rw [Pagetable.look, Pagetable.look, gets]
  exact reached

/-- `walk` that does not allocate finds the entry of a mapped page. -/
theorem runs_lookup {v : Nat} {post : Option (Option Pte) → Multiset Nat → Prop} {pte : Pte}
    (hv : v < 2 ^ 26) (look : pt.look v = some pte) (after : post (some (some pte)) held) :
    Runs L.Frame (lookup pt (v * PGSIZE)) post held := by
  have low : ¬MAXVA ≤ v * PGSIZE := by
    simp only [MAXVA, PGSIZE]
    omega
  rw [lookup, if_neg low, Pagetable.reached (by omega) look]
  exact runs_pure after

/-- `mappages` of one page that is not mapped: it maps it, or fails and keeps the tables that it
made. -/
theorem runs_mappages {v pa : Nat} {perm : Perm} (hv : v < 2 ^ 26) (free : pt.look v = none)
    (mapped : ∀ pt' new, pt'.pages = new + pt.pages →
      pt'.look = upd pt.look v (some ⟨pa, perm⟩) → post (pt', true) (new + held))
    (failed : ∀ pt' new, pt'.pages = new + pt.pages → pt'.look = pt.look →
      post (pt', false) (new + held)) :
    Runs L.Frame (mappages pt (v * PGSIZE) PGSIZE pa perm) post held := by
  have start : pgRoundDown (v * PGSIZE) = v * PGSIZE := by
    simp only [pgRoundDown, PGSIZE]
    omega
  have one : (pgRoundDown (v * PGSIZE + PGSIZE - 1) - pgRoundDown (v * PGSIZE)) / PGSIZE = 0 := by
    simp only [pgRoundDown, PGSIZE]
    omega
  rw [mappages, if_neg (by decide), one, start, mapLoop]
  apply runs_bind
  apply runs_walk hv
  intro pt' new ok pages look reached
  cases ok with
  | false =>
    apply runs_pure
    exact failed pt' new pages look
  | true =>
    have empty : (Node.get 2 pt'.root (v * PGSIZE)).join =
        none := by rw [← Pagetable.look_eq (by omega), look, free]
    simp only [if_true, empty]
    apply runs_pure
    apply mapped
    · rw [Pagetable.pages_set, pages]
    rw [Pagetable.look_set (by omega) (reached rfl), look]

theorem runs_mappages_zero {pa : Nat} {perm : Perm} (free : pt.look 0 = none)
    (mapped : ∀ pt' new, pt'.pages = new + pt.pages →
      pt'.look = upd pt.look 0 (some ⟨pa, perm⟩) → post (pt', true) (new + held))
    (failed : ∀ pt' new, pt'.pages = new + pt.pages → pt'.look = pt.look →
      post (pt', false) (new + held)) :
    Runs L.Frame (mappages pt 0 PGSIZE pa perm) post held := by
  have zero : Runs L.Frame (mappages pt (0 * PGSIZE) PGSIZE pa perm) post held :=
    runs_mappages (by omega) free mapped failed
  rwa [Nat.zero_mul] at zero

/-- The loop of `uvmunmap`, over the pages that are left. -/
theorem runs_unmapLoop {doFree : Bool} {post : Pagetable → Multiset Nat → Prop} : ∀ {n v : Nat} {pt : Pagetable},
    v + n ≤ 2 ^ 26 → (∀ w, v ≤ w → w < v + n → ∃ pte, pt.look w = some pte ∧ pte.perm.r = true) →
    (∀ pt', pt'.pages = pt.pages → pt'.look = unmapped pt.look v n → post pt' rest) →
    Runs L.Frame (unmapLoop L doFree n pt (v * PGSIZE)) post ((if doFree then frames pt.look v n else 0) + rest) := by
  intro n
  induction n with
  | zero =>
    intro v pt _ _ after
    have none : (if doFree then frames pt.look v 0 else 0) = 0 := by cases doFree <;> rfl
    rw [none, zero_add]
    exact runs_pure (after pt rfl unmapped_zero.symm)
  | succ n ih =>
    intro v pt bound mapped after
    obtain ⟨pte, look, readable⟩ := mapped v (by omega) (by omega)
    have leaf : pte.perm ≠ ⟨false, false, false, false⟩ := by
      intro none
      rw [none] at readable
      cases readable
    have cleared : (pt.set (v * PGSIZE) none).look = upd pt.look v none := by
      apply Pagetable.look_set (by omega)
      rw [Pagetable.reached (by omega) look]
      exact Option.some_ne_none _
    have others : frames (pt.set (v * PGSIZE) none).look (v + 1) n = frames pt.look (v + 1) n := by
      apply frames_congr
      intro w le lt
      rw [cleared, upd_ne (by omega)]
    have next : Runs L.Frame (unmapLoop L doFree n (pt.set (v * PGSIZE) none)
        (v * PGSIZE + PGSIZE)) post
        ((if doFree then frames pt.look (v + 1) n else 0) + rest) := by
      rw [show v * PGSIZE + PGSIZE = (v + 1) * PGSIZE by ring, ← others]
      apply ih (by omega)
      · intro w le lt
        rw [cleared, upd_ne (by omega)]
        exact mapped w (by omega) (by omega)
      intro pt' pages look'
      apply after
      · rw [pages, Pagetable.pages_set]
      rw [look', cleared, unmapped_succ]
    rw [unmapLoop]
    apply runs_bind
    apply runs_lookup (by omega) look
    simp only [if_neg leaf]
    cases doFree with
    | false => exact next
    | true =>
      simp only [if_true, frames, look, Option.elim_some, cons_add] at next ⊢
      apply runs_bind
      exact runs_kfree next

/-- `uvmunmap` of mapped pages unmaps them, and frees them if it is told to. -/
theorem runs_uvmunmap {doFree : Bool} {post : Pagetable → Multiset Nat → Prop} {v n : Nat} (bound : v + n ≤ 2 ^ 26)
    (mapped : ∀ w, v ≤ w → w < v + n → ∃ pte, pt.look w = some pte ∧ pte.perm.r = true)
    (after : ∀ pt', pt'.pages = pt.pages → pt'.look = unmapped pt.look v n → post pt' rest) :
    Runs L.Frame (uvmunmap L pt (v * PGSIZE) n doFree) post ((if doFree then frames pt.look v n else 0) + rest) := by
  rw [uvmunmap, if_neg (by rw [Nat.mul_mod_left]; simp)]
  exact runs_unmapLoop bound mapped after

theorem runs_uvmunmap_zero {post : Pagetable → Multiset Nat → Prop} {n : Nat} (bound : n ≤ 2 ^ 26)
    (mapped : ∀ w < n, ∃ pte, pt.look w = some pte ∧ pte.perm.r = true)
    (after : ∀ pt', pt'.pages = pt.pages → pt'.look = unmapped pt.look 0 n → post pt' rest) :
    Runs L.Frame (uvmunmap L pt 0 n true) post (frames pt.look 0 n + rest) := by
  have zero : Runs L.Frame (uvmunmap L pt (0 * PGSIZE) n true) post (frames pt.look 0 n + rest) := by
    apply runs_uvmunmap (by omega) _ after
    intro w _ lt
    exact mapped w (by omega)
  rwa [Nat.zero_mul] at zero

/-- A loop over the entries of a table, each of which gives its part back. -/
theorem runs_forEntries {body : Fin 512 → VmM PUnit} (part : Fin 512 → Multiset Nat) (rest : Multiset Nat)
    {post : PUnit → Multiset Nat → Prop} (after : post ⟨⟩ rest)
    (each : ∀ i (post : PUnit → Multiset Nat → Prop) rest, post ⟨⟩ rest →
      Runs L.Frame (body i) post (part i + rest)) :
    Runs L.Frame (forEntries body) post (∑ i, part i + rest) := by
  rw [forEntries, Fin.sum_univ_def]
  generalize List.finRange 512 = l
  exact runs_forM each l after

/-- `freewalk` of a table without mappings gives all its pages back. -/
theorem runs_freewalk :
    ∀ {n page : Nat} {t : Node n} {rest : Multiset Nat} {post : PUnit → Multiset Nat → Prop},
    Node.Bare n t → post ⟨⟩ rest →
      Runs L.Frame (freewalk L n page t) post ((page ::ₘ Node.tables n t) + rest) := by
  intro n
  induction n with
  | zero =>
    intro page t rest post bare after
    have none : (page ::ₘ Node.tables 0 t) + rest = ∑ _ : Fin 512, 0 + (page ::ₘ rest) := by
      rw [Node.tables, Finset.sum_const_zero, zero_add, cons_add, zero_add]
    rw [none, freewalk]
    apply runs_bind
    apply runs_forEntries (fun _ => 0) (page ::ₘ rest) (runs_kfree after)
    intro i post rest after
    rw [bare i, zero_add]
    exact runs_pure after
  | succ n ih =>
    intro page t rest post bare after
    rw [Node.tables, cons_add, ← add_cons, freewalk]
    apply runs_bind
    apply runs_forEntries (fun i => (t i).elim 0 fun e => e.1 ::ₘ Node.tables n e.2) (page ::ₘ rest)
      (runs_kfree after)
    intro i post rest after
    cases entry : t i with
    | none =>
      rw [Option.elim_none, zero_add]
      exact runs_pure after
    | some e =>
      rw [Option.elim_some]
      exact ih (bare i e entry) after

theorem runs_freewalk_root {post : PUnit → Multiset Nat → Prop} (bare : ∀ v, pt.look v = none)
    (after : post ⟨⟩ rest) :
    Runs L.Frame (freewalk L 2 pt.page pt.root) post (pt.pages + rest) :=
  runs_freewalk (Pagetable.bare bare) after

theorem Pagetable.pages_empty (page : Nat) : (Pagetable.mk page (Node.empty 2)).pages = {page} := by
  rw [Pagetable.pages, Node.tables_empty]
  rfl

end Specs

-- From here on a proof never looks at the 512 entries of a page.
attribute [irreducible] Pagetable.pages

end Xv6.Vm
