import Xv6.Vm.Tables

/-!
# The shape of an address space

A process of size `sz` has its user pages mapped one after the other from address 0 on, the
trapframe and the trampoline at the top, and nothing else. Each function that builds, changes
or frees an address space keeps this shape, on its failure paths too, and holds exactly the
pages the shape is made of.
-/

namespace Xv6.Vm

open Multiset (add_cons card_add singleton_add)
open Function renaming update_self → upd_self, update_of_ne → upd_ne
open Xv6.Task

/-- The number of pages of a process of a size. -/
def pgs (sz : Nat) : Nat := (sz + PGSIZE - 1) / PGSIZE

/-- What the entry of a user page allows: to be read and, while nothing is cleared, to be
used in user mode. -/
def Pte.User (strict : Bool) (pte : Pte) : Prop := pte.perm.r = true ∧ (strict = true → pte.perm.u = true)

/-- `n` user pages, a trapframe, the trampoline, and nothing else. -/
structure Shaped (L : Layout) (tf : Nat) (strict : Bool) (n : Nat) (f : Nat → Option Pte) : Prop where
  user : ∀ v < n, ∃ pte, f v = some pte ∧ pte.User strict
  trapframe : f (TRAPFRAME / PGSIZE) = some ⟨tf, ⟨true, true, false, false⟩⟩
  trampoline : f (TRAMPOLINE / PGSIZE) = some ⟨L.trampoline, ⟨true, false, true, false⟩⟩
  other : ∀ v, n ≤ v → v ≠ TRAPFRAME / PGSIZE → v ≠ TRAMPOLINE / PGSIZE → f v = none

/-- The pages of a table and of its first `n` user pages. -/
def Pagetable.own (pt : Pagetable) (n : Nat) : Multiset Nat := pt.pages + frames pt.look 0 n

theorem trapframe_page : TRAPFRAME / PGSIZE = 67108862 := by decide

theorem trampoline_page : TRAMPOLINE / PGSIZE = 67108863 := by decide

theorem pgs_zero : pgs 0 = 0 := by decide

theorem pgRoundUp_of_le {sz : Nat} (high : pgs sz ≤ 2 ^ 26) : pgRoundUp sz = pgs sz * PGSIZE := by
  simp only [pgs, pgRoundUp, PGSIZE] at high ⊢
  rw [Nat.mod_eq_of_lt (by omega)]

theorem pgRoundUp_eq {sz : Nat} (small : pgs sz < 2 ^ 21) : pgRoundUp sz = pgs sz * PGSIZE :=
  pgRoundUp_of_le (by omega)

section Shape

variable {L : Layout} {tf n m : Nat} {strict : Bool} {f : Nat → Option Pte}

section

variable (shaped : Shaped L tf strict n f)
include shaped

theorem Shaped.mapped {v : Nat} (lt : v < n) : ∃ pte, f v = some pte ∧ pte.perm.r = true := by
  obtain ⟨pte, at', user⟩ := shaped.user v lt
  exact ⟨pte, at', user.1⟩

theorem Shaped.free (small : n < 2 ^ 21) : f n = none := by
  apply shaped.other n (Nat.le_refl n)
  · rw [trapframe_page]
    omega
  rw [trampoline_page]
  omega

theorem Shaped.unmapped (le : m ≤ n) (small : n < 2 ^ 21) :
    Shaped L tf strict m (unmapped f m (n - m)) := by
  have high : ∀ {v}, n ≤ v → Vm.unmapped f m (n - m) v = f v := by
    intro v above
    rw [Vm.unmapped, if_neg (by omega)]
  constructor
  · intro v lt
    rw [Vm.unmapped, if_neg (by omega)]
    exact shaped.user v (by omega)
  · rw [high (by rw [trapframe_page]; omega)]
    exact shaped.trapframe
  · rw [high (by rw [trampoline_page]; omega)]
    exact shaped.trampoline
  intro v above ne ne'
  by_cases range : v < n
  · rw [Vm.unmapped, if_pos (by omega)]
  rw [high (by omega)]
  exact shaped.other v (by omega) ne ne'

theorem Shaped.push {pte : Pte} (user : pte.User strict) (small : n < 2 ^ 21) :
    Shaped L tf strict (n + 1) (Function.update f n (some pte)) := by
  constructor
  · intro v lt
    by_cases last : v = n
    · rw [last, upd_self]
      exact ⟨pte, rfl, user⟩
    rw [upd_ne last]
    exact shaped.user v (by omega)
  · rw [upd_ne (by rw [trapframe_page]; omega)]
    exact shaped.trapframe
  · rw [upd_ne (by rw [trampoline_page]; omega)]
    exact shaped.trampoline
  intro v above ne ne'
  rw [upd_ne (by omega)]
  exact shaped.other v (by omega) ne ne'

theorem Shaped.clear {v : Nat} {pte : Pte} (at' : f v = some pte) (lt : v < n)
    (small : n < 2 ^ 21) :
    Shaped L tf false n (Function.update f v (some { pte with perm.u := false })) := by
  obtain ⟨pte', at'', user⟩ := shaped.user v lt
  obtain rfl : pte = pte' := Option.some.inj (at'.symm.trans at'')
  constructor
  · intro w lt'
    by_cases eq : w = v
    · rw [eq, upd_self]
      exact ⟨_, rfl, user.1, nofun⟩
    rw [upd_ne eq]
    obtain ⟨pte', at'', user'⟩ := shaped.user w lt'
    exact ⟨pte', at'', user'.1, nofun⟩
  · rw [upd_ne (by rw [trapframe_page]; omega)]
    exact shaped.trapframe
  · rw [upd_ne (by rw [trampoline_page]; omega)]
    exact shaped.trampoline
  intro w above ne ne'
  rw [upd_ne (by omega)]
  exact shaped.other w above ne ne'

end

def Pagetable.above (pt : Pagetable) (lo n : Nat) : Multiset Nat := pt.pages + frames pt.look lo (n - lo)

/-- The first `n` user pages are mapped as before, and no page of the table is gone. -/
def Pagetable.Keeps (pt : Pagetable) (n : Nat) (pt' : Pagetable) : Prop :=
  (∀ v < n, pt'.look v = pt.look v) ∧ pt.pages ≤ pt'.pages

theorem Pagetable.above_split {pt : Pagetable} {lo : Nat} (low : lo ≤ m) (le : m ≤ n) :
    pt.above lo n = frames pt.look m (n - m) + pt.above lo m := by
  have split : frames pt.look lo (n - lo) =
      frames pt.look lo (m - lo) + frames pt.look m (n - m) := by
    have add := frames_add (f := pt.look) (n := n - m) (m := m - lo) (v := lo)
    rwa [show m - lo + (n - m) = n - lo by omega, Nat.add_sub_cancel' low] at add
  rw [Pagetable.above, Pagetable.above, split, ← add_assoc, add_comm]

theorem Pagetable.above_unmapped {pt pt' : Pagetable} {lo k : Nat} (pages : pt'.pages = pt.pages)
    (look : pt'.look = Vm.unmapped pt.look m k) : pt'.above lo m = pt.above lo m := by
  have low : frames pt'.look lo (m - lo) = frames pt.look lo (m - lo) := by
    apply frames_congr
    intro w _ lt
    rw [look, Vm.unmapped, if_neg (by omega)]
  rw [Pagetable.above, Pagetable.above, pages, low]

theorem Pagetable.above_push {pt pt' : Pagetable} {lo : Nat} {new : Multiset Nat} {pte : Pte}
    (low : lo ≤ n) (pages : pt'.pages = new + pt.pages)
    (look : pt'.look = Function.update pt.look n (some pte)) :
    pt'.above lo (n + 1) = new + (pte.pa ::ₘ pt.above lo n) := by
  have below : frames pt'.look lo (n - lo) = frames pt.look lo (n - lo) := by
    apply frames_congr
    intro w _ lt
    rw [look, upd_ne (by omega)]
  rw [Pagetable.above, Pagetable.above, Nat.sub_add_comm low, frames_succ, below, look,
    Nat.add_sub_cancel' low,
    upd_self, pages]
  simp only [Option.elim_some, add_cons, add_assoc]

theorem Pagetable.above_lt {pt : Pagetable} {lo : Nat} {rest : Multiset Nat}
    (valid : Valid L.Frame (pt.above lo n + rest)) : n - lo < 2 ^ 20 := by
  have bound := card_lt valid
  rw [Pagetable.above, card_add, card_add, card_frames] at bound
  omega

theorem Pagetable.own_lt {pt : Pagetable} {rest : Multiset Nat}
    (valid : Valid L.Frame (pt.own n + rest)) :
    n < 2 ^ 21 := by
  have bound : n - 0 < 2 ^ 20 := above_lt valid
  omega

end Shape

structure Filled (P : Pte → Prop) (pt₀ : Pagetable) (start n : Nat) (pt : Pagetable) : Prop where
  inside : ∀ v, start ≤ v → v < n → ∃ pte, pt.look v = some pte ∧ P pte
  outside : ∀ v, ¬(start ≤ v ∧ v < n) → pt.look v = pt₀.look v
  pages : pt₀.pages ≤ pt.pages

/-- What is left of a call that fails: the mappings and the pages before it, and the pages of the
table that it made. -/
def Undone (pt₀ : Pagetable) (rest : Multiset Nat) (pt : Pagetable) (held : Multiset Nat) : Prop :=
  pt.look = pt₀.look ∧ pt₀.pages ≤ pt.pages ∧ held = pt.pages + rest

/-- All pages are new in the table, or none. -/
def AllOrNone (P : Pte → Prop) (pt₀ : Pagetable) (start stop : Nat) (rest : Multiset Nat)
    (all none : Prop) (pt : Pagetable) (held : Multiset Nat) : Prop :=
  none ∧ Undone pt₀ rest pt held ∨
    all ∧ stop - start < 2 ^ 20 ∧ Filled P pt₀ start stop pt ∧ held = pt.above start stop + rest

/-- No more pages than memory has can be mapped from `start` on, and these can. -/
def Room (pt : Pagetable) (start stop : Nat) : Prop :=
  start ≤ 2 ^ 26 ∧ ∀ v, start ≤ v → v < stop → v < start + 2 ^ 20 → v < 2 ^ 26 ∧ pt.look v = none

section Filled

variable {L : Layout} {P : Pte → Prop} {pt₀ pt pt' : Pagetable} {start stop n mem : Nat} {rest new : Multiset Nat}

theorem Filled.refl : Filled P pt₀ start start pt₀ := ⟨fun v low high => by omega, fun _ _ => rfl, le_rfl⟩

theorem Pagetable.above_self : pt.above start start = pt.pages := by
  rw [Pagetable.above, Nat.sub_self, frames, add_zero]

theorem pgs_aligned (n : Nat) : pgs (n * PGSIZE) = n := by
  simp only [pgs, PGSIZE]
  omega

section

variable (room : Room pt₀ start stop) (few : n - start < 2 ^ 20) (le : start ≤ n) (filled : Filled P pt₀ start n pt)
include room few le filled

/-- Map the next page. Where that fails, only the table may be larger. -/
theorem Filled.next {perm : Perm} {post : Pagetable × Bool → Multiset Nat → Prop}
    (more : n < stop) (ok : P ⟨mem, perm⟩)
    (mapped : ∀ pt', Filled P pt₀ start (n + 1) pt' →
      post (pt', true) (pt'.above start (n + 1) + rest))
    (failed : ∀ pt', Filled P pt₀ start n pt' →
      post (pt', false) (mem ::ₘ (pt'.above start n + rest))) :
    Runs L.Frame (mappages pt (n * PGSIZE) PGSIZE mem perm) post (mem ::ₘ (pt.above start n + rest)) := by
  obtain ⟨high, none⟩ := room.2 n le more (by omega)
  have larger {pt' : Pagetable} {new : Multiset Nat} (pages : pt'.pages =
      new + pt.pages) : pt₀.pages ≤ pt'.pages :=
    filled.pages.trans (pages ▸ Multiset.le_add_left _ _)
  apply runs_mappages high ((filled.outside n (by omega)).trans none)
  · intro pt' new pages look
    have held : new + (mem ::ₘ (pt.above start n + rest)) = pt'.above start (n + 1) + rest := by
      rw [Pagetable.above_push le pages look, add_assoc, Multiset.cons_add]
    rw [held]
    refine mapped pt' ⟨fun v low high => ?_, fun v out => ?_, larger pages⟩
    · rw [look]
      by_cases eq : v = n
      · rw [eq, upd_self]
        exact ⟨_, rfl, ok⟩
      rw [upd_ne eq]
      exact filled.inside v low (by omega)
    rw [look, upd_ne (by omega)]
    exact filled.outside v (by omega)
  intro pt' new pages look
  have held : new + (mem ::ₘ (pt.above start n + rest)) = mem ::ₘ (pt'.above start n + rest) := by
    rw [add_cons, Pagetable.above, Pagetable.above, pages, look]
    simp only [add_assoc]
  rw [held]
  exact failed pt' ⟨look ▸ filled.inside, look ▸ filled.outside, larger pages⟩

variable (most : n ≤ stop)
include most

theorem Filled.high : n ≤ 2 ^ 26 := by
  rcases Nat.eq_or_lt_of_le le with rfl | lt
  · exact room.1
  have := (room.2 (n - 1) (by omega) (by omega) (by omega)).1
  omega

variable (readable : ∀ pte, P pte → pte.perm.r = true)
include readable

theorem Filled.unmap {post : Pagetable → Multiset Nat → Prop}
    (after : ∀ pt' held, Undone pt₀ rest pt' held → post pt' held) :
    Runs L.Frame (uvmunmap L pt (start * PGSIZE) (n - start) true) post (pt.above start n + rest) := by
  have high := filled.high room few le most
  rw [Pagetable.above, add_comm pt.pages, add_assoc]
  apply runs_uvmunmap (by omega)
  · intro w low below
    obtain ⟨pte, at', ok⟩ := filled.inside w low (by omega)
    exact ⟨pte, at', readable pte ok⟩
  intro pt' pages look
  refine after pt' _ ⟨look.trans (funext fun v => ?_), pages ▸ filled.pages, by rw [pages]⟩
  rw [unmapped]
  split
  · rw [(room.2 v (by omega) (by omega) (by omega)).2]
  exact filled.outside v (by omega)

theorem Filled.dealloc {post : Pagetable × Nat → Multiset Nat → Prop} {oldsz newsz : Nat}
    (less : oldsz ≤ newsz) (first : pgs oldsz = start) (last : pgs newsz = n)
    (after : ∀ pt' held, Undone pt₀ rest pt' held → post (pt', oldsz) held) :
    Runs L.Frame (uvmdealloc L pt newsz oldsz) post (pt.above start n + rest) := by
  have high := filled.high room few le most
  have none : start = n → Runs L.Frame (pure (pt, oldsz) : VmM _) post (pt.above start n + rest) := by
    rintro rfl
    refine runs_pure (after pt _ ⟨funext fun v => filled.outside v (by omega), filled.pages, ?_⟩)
    rw [Pagetable.above_self]
  rw [uvmdealloc]
  split
  · rw [show newsz = oldsz by omega]
    exact none (by rw [← first, ← last, show newsz = oldsz by omega])
  rw [pgRoundUp_of_le (by omega), pgRoundUp_of_le (by omega), first, last]
  split
  · rw [← Nat.sub_mul, Nat.mul_div_cancel _ (by decide), asInt, Nat.mod_eq_of_lt (by omega),
      if_pos (by omega)]
    exact runs_bind (filled.unmap room few le most readable fun pt' held undone => runs_pure (after pt' held undone))
  exact none (by simp only [PGSIZE] at *; omega)

end

theorem runs_allocLoop {newsz : Nat} {perm : Perm} (readable : perm.r = true)
    (room : Room pt₀ start stop) :
    ∀ {k n : Nat} {pt : Pagetable}, n + k = stop → start ≤ n →
      Filled (·.perm = perm) pt₀ start n pt →
      Runs L.Frame (allocLoop L (start * PGSIZE) newsz perm k pt (n * PGSIZE))
        (fun r => AllOrNone (·.perm = perm) pt₀ start stop rest (r.2 = newsz) (r.2 = 0) r.1)
        (pt.above start n + rest) := by
  intro k
  induction k with
  | zero =>
    rintro n pt rfl le filled
    exact runs_of_valid fun valid => runs_pure (.inr ⟨rfl, Pagetable.above_lt valid, filled, rfl⟩)
  | succ k ih =>
    intro n pt eq le filled
    apply runs_of_valid
    intro valid
    have few := Pagetable.above_lt valid
    have undo {pt' : Pagetable} (filled : Filled (·.perm = perm) pt₀ start n pt') : Runs L.Frame
        (uvmdealloc L pt' (n * PGSIZE) (start * PGSIZE) >>= fun r => pure (r.1, 0))
        (fun r => AllOrNone (·.perm = perm) pt₀ start stop rest (r.2 = newsz) (r.2 = 0) r.1)
        (pt'.above start n + rest) :=
      runs_bind (filled.dealloc room few le (by omega) (fun pte same => same ▸ readable) (Nat.mul_le_mul_right _ le)
        (pgs_aligned _) (pgs_aligned _) fun pt'' held undone => runs_pure (.inl ⟨rfl, undone⟩))
    rw [allocLoop]
    apply runs_bind
    apply runs_kalloc
    · exact undo filled
    intro mem
    apply runs_bind
    apply filled.next room few le (by omega) rfl
    · intro pt' filled
      simp only [if_true]
      rw [show n * PGSIZE + PGSIZE = (n + 1) * PGSIZE by ring]
      exact ih (by omega) (by omega) filled
    intro pt' filled
    exact runs_bind (runs_kfree (undo filled))

theorem runs_uvmalloc_filled {oldsz newsz : Nat} {xperm : Bool × Bool} (le : oldsz ≤ newsz)
    (room : Room pt₀ (pgs oldsz) (pgs newsz)) : Runs L.Frame (uvmalloc L pt₀ oldsz newsz xperm)
      (fun r => AllOrNone (·.perm = ⟨true, xperm.1, xperm.2, true⟩) pt₀ (pgs oldsz) (pgs newsz) rest (r.2 = newsz)
        (r.2 = 0) r.1) (pt₀.pages + rest) := by
  have count : (newsz - pgs oldsz * PGSIZE + PGSIZE - 1) / PGSIZE = pgs newsz - pgs oldsz := by
    simp only [pgs, PGSIZE]
    omega
  have more : pgs oldsz ≤ pgs newsz := by
    simp only [pgs, PGSIZE]
    omega
  rw [uvmalloc, if_neg (by omega), pgRoundUp_of_le room.1, ← Pagetable.above_self]
  dsimp only
  rw [count]
  exact runs_allocLoop rfl room (by omega) le_rfl .refl

theorem runs_copyLoop {old : Pagetable} (source : ∀ v < stop, ∃ pte, old.look v = some pte ∧ pte.perm.r = true)
    (room : Room pt₀ 0 stop) : ∀ {k n : Nat}
    {pt : Pagetable}, n + k = stop → Filled (·.perm.r = true) pt₀ 0 n pt →
      Runs L.Frame (copyLoop L old k pt (n * PGSIZE))
        (fun r => AllOrNone (·.perm.r = true) pt₀ 0 stop rest (r.2 = true) (r.2 = false) r.1) (pt.above 0 n + rest) := by
  intro k
  induction k with
  | zero =>
    rintro n pt rfl filled
    exact runs_of_valid fun valid => runs_pure (.inr ⟨rfl, Pagetable.above_lt valid, filled, rfl⟩)
  | succ k ih =>
    intro n pt eq filled
    apply runs_of_valid
    intro valid
    have few := Pagetable.above_lt valid
    have undo {pt' : Pagetable} (filled : Filled (·.perm.r = true) pt₀ 0 n pt') : Runs L.Frame
        (uvmunmap L pt' 0 (n * PGSIZE / PGSIZE) true >>= fun new => pure (new, false))
        (fun r => AllOrNone (·.perm.r = true) pt₀ 0 stop rest (r.2 = true) (r.2 = false) r.1)
        (pt'.above 0 n + rest) := by
      rw [Nat.mul_div_cancel _ (by decide), ← Nat.zero_mul PGSIZE]
      exact runs_bind (filled.unmap room few n.zero_le (by omega)
        (fun _ => id) fun pt'' held undone =>
        runs_pure (.inl ⟨rfl, undone⟩))
    obtain ⟨pte, at', readable⟩ := source n (by omega)
    rw [copyLoop]
    apply runs_bind
    apply runs_lookup (room.2 n n.zero_le (by omega) (by omega)).1 at'
    apply runs_bind
    apply runs_kalloc
    · exact undo filled
    intro mem
    apply runs_bind
    apply filled.next room few n.zero_le (by omega) (show (⟨mem, pte.perm⟩ : Pte).perm.r =
      true from readable)
    · intro pt' filled
      simp only [if_true]
      rw [show n * PGSIZE + PGSIZE = (n + 1) * PGSIZE by ring]
      exact ih (by omega) filled
    intro pt' filled
    exact runs_bind (runs_kfree (undo filled))

/-- What `uvmalloc` and `uvmcopy` did before they fail is undone, whichever page they fail at, and
the pages that the table has now are held by it; `uvmdealloc` undoes what `uvmalloc` did. -/
theorem uvm_rolls_back (L : Layout) (pt : Pagetable) (rest : Multiset Nat) :
    (∀ oldsz newsz xperm, oldsz ≤ newsz → Room pt (pgs oldsz) (pgs newsz) →
      Runs L.Frame (uvmalloc L pt oldsz newsz xperm)
      (fun r held => (r.2 = 0 → Undone pt rest r.1 held) ∧ (r.2 ≠ 0 → r.2 = newsz ∧
        Runs L.Frame (uvmdealloc L r.1 newsz oldsz) (fun d left => d.2 = oldsz ∧ Undone pt rest d.1 left) held))
      (pt.pages + rest)) ∧
    ∀ old sz, (∀ v < pgs sz, ∃ pte, old.look v = some pte ∧ pte.perm.r = true) →
      Room pt 0 (pgs sz) →
      Runs L.Frame (uvmcopy L old pt sz) (fun r held => r.2 = false → Undone pt rest r.1 held) (pt.pages + rest) := by
  refine ⟨fun oldsz newsz xperm le room => ?_, fun old sz source room => ?_⟩
  · refine (runs_uvmalloc_filled le room).mono fun r held ends => ?_
    rcases ends with ⟨zero, undone⟩ | ⟨size, few, filled, rfl⟩
    · exact ⟨fun _ => undone, fun some => absurd zero some⟩
    refine ⟨fun zero => ?_, fun _ => ⟨size, ?_⟩⟩
    · obtain ⟨rfl, rfl⟩ : newsz = 0 ∧ oldsz = 0 := by omega
      exact ⟨funext fun v => filled.outside v (by omega),
        filled.pages, by rw [Pagetable.above_self]⟩
    have more : pgs oldsz ≤ pgs newsz := by
      simp only [pgs, PGSIZE]
      omega
    exact filled.dealloc room few more le_rfl (fun pte same => by rw [same]) le rfl rfl
      fun pt' left undone => ⟨rfl, undone⟩
  have loop :=
    @runs_copyLoop L pt (pgs sz) rest old source room (pgs sz) 0 pt (Nat.zero_add _) .refl
  rw [Pagetable.above_self, Nat.zero_mul] at loop
  refine loop.mono fun r held ends failed => ?_
  rcases ends with ⟨-, undone⟩ | ⟨done, -⟩
  · exact undone
  rw [failed] at done
  cases done

/-- Two pages for an empty table, and a copy of a table with one page. -/
theorem emptyTable_rolls_back : ∃ pt old : Pagetable, Room pt (pgs 0) (pgs 8192) ∧
    (∃ pte, old.look 0 = some pte ∧ pte.perm.r = true) ∧ ∀ L : Layout,
    Runs L.Frame (uvmalloc L pt 0 8192 (true, false)) (fun r _ => r.2 = 0 → r.1.look = pt.look)
      (pt.pages + 0) ∧
    Runs L.Frame (uvmcopy L old pt 4096) (fun r _ => r.2 = false → r.1.look = pt.look)
      (pt.pages + 0) := by
  have bare (v : Nat) : (Pagetable.mk 0x87ffe000 (Node.empty 2)).look v = none := by
    rw [Pagetable.look]
    split
    · exact Node.join_get_empty
    rfl
  have room (n : Nat) (few : n ≤ 2) : Room ⟨0x87ffe000, Node.empty 2⟩ 0 n :=
    ⟨by omega, fun v _ low _ => ⟨low.trans_le (few.trans (by decide)), bare v⟩⟩
  let old : Pagetable := ⟨0x87ffa000, fun _ => some (0x87ff9000, fun _ => some (0x87ff8000,
    fun _ => some ⟨0x87ff7000, ⟨true, true, false, true⟩⟩))⟩
  have source : ∃ pte, old.look 0 = some pte ∧ pte.perm.r = true := ⟨_, rfl, rfl⟩
  refine ⟨_, old, room 2 (le_refl _), source, fun L => ⟨?_, ?_⟩⟩
  · exact ((uvm_rolls_back L _ 0).1 0 8192 (true, false)
      (by decide) (room 2 (le_refl _))).mono fun r held ends zero => (ends.1 zero).1
  refine ((uvm_rolls_back L _ 0).2 old 4096 (fun v low => ?_) (room 1 (by decide))).mono
    fun r held ends failed => (ends failed).1
  obtain rfl : v = 0 := Nat.lt_one_iff.mp low
  exact source

end Filled

section Specs

variable {L : Layout} {tf lo : Nat} {strict : Bool} {held rest : Multiset Nat} {pt : Pagetable}

variable {post : Pagetable × Nat → Multiset Nat → Prop}

theorem runs_uvmdealloc {oldsz newsz : Nat} (low : lo ≤ min (pgs oldsz) (pgs newsz)) (small : pgs oldsz < 2 ^ 21)
    (shaped : Shaped L tf strict (pgs oldsz) pt.look)
    (after : ∀ pt', Shaped L tf strict (min (pgs oldsz) (pgs newsz)) pt'.look →
      pt.Keeps (min (pgs oldsz) (pgs newsz)) pt' →
      post (pt', min oldsz newsz) (pt'.above lo (min (pgs oldsz) (pgs newsz)) + rest)) :
    Runs L.Frame (uvmdealloc L pt oldsz newsz) post (pt.above lo (pgs oldsz) + rest) := by
  rw [uvmdealloc]
  have same : ∀ n, pt.Keeps n pt := fun n => ⟨fun _ _ => rfl, le_refl _⟩
  by_cases grows : oldsz ≤ newsz
  · have le : pgs oldsz ≤ pgs newsz := by
      simp only [pgs, PGSIZE]
      omega
    rw [if_pos grows]
    apply runs_pure
    have end' := after pt
    rw [Nat.min_eq_left le, Nat.min_eq_left grows] at end'
    exact end' shaped (same _)
  have le : pgs newsz ≤ pgs oldsz := by
    simp only [pgs, PGSIZE]
    omega
  rw [Nat.min_eq_right le, Nat.min_eq_right (by omega)] at after
  rw [Nat.min_eq_right le] at low
  rw [if_neg grows, pgRoundUp_eq small, pgRoundUp_eq (by omega)]
  split
  · have count : asInt ((pgs oldsz * PGSIZE - pgs newsz * PGSIZE) / PGSIZE) =
        pgs oldsz - pgs newsz := by
      rw [← Nat.sub_mul, Nat.mul_div_cancel _ (by decide), asInt, Nat.mod_eq_of_lt (by omega),
        if_pos (by omega)]
    rw [count, Pagetable.above_split low le, add_assoc]
    apply runs_bind
    apply runs_uvmunmap (by omega)
    · intro w above below
      exact shaped.mapped (by omega)
    intro pt' pages look
    apply runs_pure
    rw [← Pagetable.above_unmapped pages look]
    refine after pt' ?_ ⟨fun v lt => ?_, le_of_eq pages.symm⟩
    · rw [look]
      exact shaped.unmapped le small
    rw [look, unmapped, if_neg (by omega)]
  rename_i none
  have eq : pgs newsz = pgs oldsz := by
    simp only [PGSIZE] at none
    omega
  apply runs_pure
  rw [← eq] at shaped ⊢
  exact after pt shaped (same _)

theorem Shaped.filled {P : Pte → Prop} {pt₀ : Pagetable} {start n : Nat}
    (shaped : Shaped L tf strict start pt₀.look) (filled : Filled P pt₀ start n pt)
    (le : start ≤ n) (small : n < 2 ^ 25) (user : ∀ pte, P pte → pte.User strict) :
    Shaped L tf strict n pt.look := by
  refine ⟨fun v lt => ?_, ?_, ?_, fun v above ne ne' => ?_⟩
  · by_cases old : v < start
    · rw [filled.outside v (by omega)]
      exact shaped.user v old
    obtain ⟨pte, at', ok⟩ := filled.inside v (by omega) lt
    exact ⟨pte, at', user pte ok⟩
  · rw [filled.outside _ (by rw [trapframe_page]; omega)]
    exact shaped.trapframe
  · rw [filled.outside _ (by rw [trampoline_page]; omega)]
    exact shaped.trampoline
  rw [filled.outside v (by omega)]
  exact shaped.other v (by omega) ne ne'

theorem Shaped.room {n stop : Nat} (shaped : Shaped L tf strict n pt.look) (small : n < 2 ^ 21) :
    Room pt n stop := by
  refine ⟨by omega, fun v low _ high => ⟨by omega, shaped.other v low ?_ ?_⟩⟩
  · rw [trapframe_page]
    omega
  rw [trampoline_page]
  omega

theorem runs_uvmalloc {oldsz newsz : Nat} {xperm : Bool × Bool}
    (low : lo ≤ pgs oldsz) (bound : lo < 2 ^ 20) (shaped : Shaped L tf strict (pgs oldsz) pt.look)
    (grown : ∀ pt', Shaped L tf strict (pgs (max oldsz newsz)) pt'.look → pt.Keeps (pgs oldsz) pt' →
      post (pt', max oldsz newsz) (pt'.above lo (pgs (max oldsz newsz)) + rest))
    (failed : ∀ pt', Shaped L tf strict (pgs oldsz) pt'.look → pt.Keeps (pgs oldsz) pt' →
      post (pt', 0) (pt'.above lo (pgs oldsz) + rest)) :
    Runs L.Frame (uvmalloc L pt oldsz newsz xperm) post (pt.above lo (pgs oldsz) + rest) := by
  apply runs_of_valid
  intro valid
  have few := Pagetable.above_lt valid
  have small : pgs oldsz < 2 ^ 21 := by omega
  by_cases shrinks : newsz < oldsz
  · rw [Nat.max_eq_left (by omega)] at grown
    rw [uvmalloc, if_pos shrinks]
    exact runs_pure (grown pt shaped ⟨fun _ _ => rfl, le_refl _⟩)
  rw [Nat.max_eq_right (by omega)] at grown
  have split {pt' : Pagetable} {n : Nat} (le : pgs oldsz ≤ n)
      (keeps : ∀ v < pgs oldsz, pt'.look v = pt.look v) :
      pt'.above (pgs oldsz) n + (frames pt.look lo (pgs oldsz - lo) + rest) = pt'.above lo n + rest := by
    have kept : frames pt'.look lo (pgs oldsz - lo) = frames pt.look lo (pgs oldsz - lo) :=
      frames_congr fun v _ lt => keeps v (by omega)
    rw [Pagetable.above_split low le, ← kept, Pagetable.above, Pagetable.above]
    ac_rfl
  have more : pgs oldsz ≤ pgs newsz := by
    simp only [pgs, PGSIZE]
    omega
  rw [← split le_rfl fun _ _ => rfl, Pagetable.above_self]
  refine (runs_uvmalloc_filled (by omega) (shaped.room small)).mono fun r held ends => ?_
  rcases ends with ⟨zero, look, pages, rfl⟩ | ⟨size, some, filled, rfl⟩
  · have back := failed r.1 (look ▸ shaped) ⟨fun v _ => by rw [look], pages⟩
    rwa [← split le_rfl fun v _ => by rw [look], Pagetable.above_self, ← zero] at back
  have keeps : ∀ v < pgs oldsz, r.1.look v = pt.look v := fun v lt => filled.outside v (by omega)
  rw [split more keeps]
  rw [show r = (r.1, newsz) from Prod.ext rfl size]
  refine grown r.1 (shaped.filled filled more (by omega) fun pte same => ?_) ⟨keeps, filled.pages⟩
  rw [Pte.User, same]
  exact ⟨rfl, fun _ => rfl⟩

theorem runs_uvmfree_bare {post : Unit → Multiset Nat → Prop} (bare : ∀ v, pt.look v = none)
    (after : post () rest) :
    Runs L.Frame (uvmfree L pt 0) post (pt.pages + rest) := by
  rw [uvmfree]
  apply runs_bind
  apply runs_pure
  exact runs_freewalk_root bare after

theorem runs_procFreepagetable {sz : Nat} {post : Unit → Multiset Nat → Prop}
    (shaped : Shaped L tf strict (pgs sz) pt.look) (after : post () rest) :
    Runs L.Frame (procFreepagetable L pt sz) post (pt.own (pgs sz) + rest) := by
  apply runs_of_valid
  intro valid
  have small := Pagetable.own_lt valid
  have top : TRAMPOLINE = 67108863 * PGSIZE := by decide
  have below : TRAPFRAME = 67108862 * PGSIZE := by decide
  have trapframe := shaped.trapframe
  have trampoline := shaped.trampoline
  rw [trapframe_page] at trapframe
  rw [trampoline_page] at trampoline
  rw [procFreepagetable, top, below]
  apply runs_bind
  rw [← zero_add (pt.own _ + rest)]
  apply runs_uvmunmap (by omega)
  · intro w le lt
    obtain rfl : w = 67108863 := by omega
    exact ⟨_, trampoline, rfl⟩
  intro pt₁ pages₁ look₁
  apply runs_bind
  rw [← zero_add (pt.own _ + rest)]
  apply runs_uvmunmap (by omega)
  · intro w le lt
    obtain rfl : w = 67108862 := by omega
    rw [look₁, unmapped, if_neg (by omega)]
    exact ⟨_, trapframe, rfl⟩
  intro pt₂ pages₂ look₂
  have users : ∀ v, pt₂.look v = if v < pgs sz then pt.look v else none := by
    intro v
    rw [look₂, unmapped, look₁, unmapped]
    by_cases user : v < pgs sz
    · rw [if_neg (by omega), if_neg (by omega), if_pos user]
    rw [if_neg user]
    split
    · rfl
    split
    · rfl
    apply shaped.other v (by omega)
    · rw [trapframe_page]
      omega
    rw [trampoline_page]
    omega
  have own : pt.own (pgs sz) = frames pt₂.look 0 (pgs sz) + pt₂.pages := by
    have same : frames pt₂.look 0 (pgs sz) = frames pt.look 0 (pgs sz) := by
      apply frames_congr
      intro w _ lt
      rw [users, if_pos (by omega)]
    rw [Pagetable.own, add_comm, pages₂, pages₁, same]
  rw [own, add_assoc, uvmfree]
  split
  · apply runs_bind
    rw [pgRoundUp_eq small, Nat.mul_div_cancel _ (by decide)]
    apply runs_uvmunmap_zero (by omega)
    · intro w lt
      rw [users, if_pos lt]
      exact shaped.mapped lt
    intro pt₃ pages₃ look₃
    rw [← pages₃]
    apply runs_freewalk_root _ after
    intro v
    rw [look₃, unmapped]
    split
    · rfl
    rw [users, if_neg (by omega)]
  rename_i empty
  obtain rfl : sz = 0 := by omega
  apply runs_bind
  apply runs_pure
  rw [pgs_zero, frames, zero_add]
  apply runs_freewalk_root _ after
  intro v
  rw [users, pgs_zero, if_neg (Nat.not_lt_zero v)]

theorem runs_procPagetable (strict : Bool) {post : Option Pagetable → Multiset Nat → Prop}
    (none : post none held)
    (some : ∀ pt, Shaped L tf strict 0 pt.look → post (some pt) (pt.own 0 + held)) :
    Runs L.Frame (procPagetable L tf) post held := by
  have top : TRAMPOLINE = 67108863 * PGSIZE := by decide
  have below : TRAPFRAME = 67108862 * PGSIZE := by decide
  have bare : ∀ page v, (Pagetable.mk page (Node.empty 2)).look v = Option.none := by
    intro page v
    rw [Pagetable.look]
    split
    · exact Node.join_get_empty
    rfl
  rw [procPagetable, uvmcreate, top, below]
  apply runs_bind
  apply runs_bind
  apply runs_kalloc
  · exact runs_pure (runs_pure none)
  intro page
  apply runs_pure
  apply runs_bind
  apply runs_mappages (by omega) (bare page _)
  · intro pt₁ new₁ pages₁ look₁
    apply runs_bind
    apply runs_mappages (by omega)
    · rw [look₁, upd_ne (by omega)]
      exact bare page _
    · intro pt₂ new₂ pages₂ look₂
      apply runs_pure
      have own : new₂ + (new₁ + (page ::ₘ held)) = pt₂.own 0 + held := by
        rw [Pagetable.own, pages₂, pages₁, Pagetable.pages_empty, frames, add_zero, ← singleton_add]
        simp only [add_assoc]
      rw [own]
      apply some
      rw [look₂, look₁]
      constructor
      · intro v lt
        omega
      · rw [trapframe_page, upd_self]
      · rw [trampoline_page, upd_ne (by omega), upd_self]
      intro v _ ne ne'
      rw [trapframe_page] at ne
      rw [trampoline_page] at ne'
      rw [upd_ne ne, upd_ne ne']
      exact bare page v
    intro pt₂ new₂ pages₂ look₂
    have own : new₂ + (new₁ + (page ::ₘ held)) = pt₂.pages + held := by
      rw [pages₂, pages₁, Pagetable.pages_empty, ← singleton_add]
      simp only [add_assoc]
    apply runs_bind
    rw [own, ← zero_add (pt₂.pages + held)]
    apply runs_uvmunmap (by omega)
    · intro w le lt
      obtain rfl : w = 67108863 := by omega
      rw [look₂, look₁, upd_self]
      exact ⟨_, rfl, rfl⟩
    intro pt₃ pages₃ look₃
    apply runs_bind
    rw [← pages₃]
    apply runs_uvmfree_bare
    · intro v
      rw [look₃, unmapped]
      split
      · rfl
      rw [look₂, look₁, upd_ne (by omega)]
      exact bare page v
    exact runs_pure none
  intro pt₁ new₁ pages₁ look₁
  have own : new₁ + (page ::ₘ held) = pt₁.pages + held := by
    rw [pages₁, Pagetable.pages_empty, ← singleton_add]
    simp only [add_assoc]
  apply runs_bind
  rw [own]
  apply runs_uvmfree_bare
  · intro v
    rw [look₁]
    exact bare page v
  exact runs_pure none

end Specs

end Xv6.Vm
