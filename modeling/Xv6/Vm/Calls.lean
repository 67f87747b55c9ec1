import Xv6.Vm.Space

/-!
# The calls that change address spaces

`fork`, `growproc`, `exec` and the end of a process, each with the pages it holds before and
after, whatever fails on the way.
-/

namespace Xv6.Vm

open Multiset (cons_add coe_nil)
open Xv6.Task

/-- The pages of a process. -/
def Mem.pages (m : Mem) : Multiset Nat := m.trapframe ::ₘ m.pagetable.own (pgs m.sz)

/-- The address space of a process is as its size says. -/
def Mem.Shaped (L : Layout) (m : Mem) : Prop := Vm.Shaped L m.trapframe false (pgs m.sz) m.pagetable.look

theorem Mem.pages_add (m : Mem) (rest : Multiset Nat) :
    m.pages + rest = m.pagetable.own (pgs m.sz) + (m.trapframe ::ₘ rest) := by
  rw [Mem.pages, cons_add, Multiset.add_cons]

variable {L : Layout} {tf : Nat} {strict : Bool} {held rest : Multiset Nat} {pt : Pagetable} {m : Mem}

theorem runs_uvmcopy {old new : Pagetable} {tf' sz : Nat}
    {post : Pagetable × Bool → Multiset Nat → Prop}
    (source : Shaped L tf' strict (pgs sz) old.look) (empty : Shaped L tf false 0 new.look)
    (copied : ∀ new, Shaped L tf false (pgs sz) new.look →
      post (new, true) (new.own (pgs sz) + rest))
    (failed : ∀ new, Shaped L tf false 0 new.look → post (new, false) (new.own 0 + rest)) :
    Runs L.Frame (uvmcopy L old new sz) post (new.own 0 + rest) := by
  have loop := @runs_copyLoop L new (pgs sz) rest old (fun v lt => source.mapped lt)
    (empty.room (by decide)) (pgs sz) 0 new
    (zero_add _) .refl
  rw [Nat.zero_mul] at loop
  refine Runs.mono (show Runs L.Frame (uvmcopy L old new sz) _ (new.own 0 + rest) from loop) fun r held ends => ?_
  rcases ends with ⟨no, look, -, rfl⟩ | ⟨yes, few, filled, rfl⟩
  · rw [show r = (r.1, false) from Prod.ext rfl no]
    simpa [Pagetable.own, frames] using failed r.1 (look ▸ empty)
  rw [show r = (r.1, true) from Prod.ext rfl yes]
  exact copied r.1 (empty.filled filled zero_le (by omega) fun pte readable => ⟨readable,
    (by simp)⟩)

theorem runs_freeproc {post : Unit → Multiset Nat → Prop} (shaped : m.Shaped L)
    (after : post () rest) :
    Runs L.Frame (freeproc L (some m.trapframe) (some m.pagetable) m.sz) post (m.pages + rest) := by
  rw [freeproc, Mem.pages, cons_add]
  apply runs_bind
  apply runs_kfree
  exact runs_procFreepagetable shaped after

variable {post : Option Mem → Multiset Nat → Prop}

theorem runs_allocproc (none : post none held)
    (some : ∀ m, m.Shaped L → m.sz = 0 → post (some m) (m.pages + held)) :
    Runs L.Frame (allocproc L) post held := by
  rw [allocproc]
  apply runs_bind
  apply runs_kalloc
  · apply runs_bind
    rw [freeproc]
    exact runs_pure (runs_pure none)
  intro trapframe
  apply runs_bind
  apply runs_procPagetable false
  · apply runs_bind
    rw [freeproc]
    apply runs_bind
    apply runs_kfree
    exact runs_pure (runs_pure none)
  intro pt shaped
  apply runs_pure
  rw [← pgs_zero] at shaped ⊢
  have end' := some ⟨trapframe, pt, 0⟩ shaped rfl
  rwa [Mem.pages_add] at end'

theorem runs_fork (shaped : m.Shaped L) (none : post none (m.pages + rest))
    (some : ∀ np, np.Shaped L → post (some np) (np.pages + (m.pages + rest))) :
    Runs L.Frame (fork L m) post (m.pages + rest) := by
  rw [fork]
  apply runs_bind
  apply runs_allocproc
  · exact runs_pure none
  rintro ⟨trapframe, new, sz⟩ shaped' rfl
  rw [Mem.pages_add, pgs_zero]
  rw [Mem.Shaped, pgs_zero] at shaped'
  apply runs_bind
  apply runs_uvmcopy shaped shaped'
  · intro new' copied
    have end' := some ⟨trapframe, new', m.sz⟩ copied
    rw [Mem.pages_add] at end'
    exact runs_pure end'
  intro new' empty
  have pages := Mem.pages_add ⟨trapframe, new', 0⟩ (m.pages + rest)
  rw [pgs_zero] at pages
  rw [← pgs_zero] at empty
  rw [← pages]
  apply runs_bind
  exact runs_freeproc (m := ⟨trapframe, new', 0⟩) empty (runs_pure none)

/-- What `growproc` does: the pages below `lo` stay. -/
structure Grown (L : Layout) (m : Mem) (n : Int) (newsz lo : Nat) (m' : Mem) (ok : Bool) : Prop where
  shaped : m'.Shaped L
  trapframe : m'.trapframe = m.trapframe
  keeps : m.pagetable.Keeps lo m'.pagetable
  size : m'.sz = if ok then if 0 < n then max m.sz newsz else if n < 0 then min m.sz newsz else m.sz else m.sz
  failed : ok = false → 0 < n

theorem runs_growproc_above {n : Int} {newsz lo : Nat} {post : Mem × Bool → Multiset Nat → Prop}
    (shaped : m.Shaped L) (few : pgs m.sz < 2 ^ 20) (size : ((m.sz + n) % 2 ^ 64).toNat = newsz)
    (low : lo ≤ min (pgs m.sz) (pgs newsz))
    (after : ∀ m' ok, Grown L m n newsz lo m' ok →
      post (m', ok) (m'.pagetable.above lo (pgs m'.sz) + rest)) :
    Runs L.Frame (growproc L m n) post (m.pagetable.above lo (pgs m.sz) + rest) := by
  have less : ∀ {k : Nat} {pt : Pagetable}, lo ≤ k → m.pagetable.Keeps k pt →
      m.pagetable.Keeps lo pt :=
    fun le keeps => ⟨fun v lt => keeps.1 v (by omega), keeps.2⟩
  rw [growproc, size]
  by_cases grows : 0 < n
  · rw [if_pos grows]
    apply runs_bind
    apply runs_uvmalloc (by omega) (by omega) shaped
    · intro pt grown keeps
      by_cases zero : max m.sz newsz = 0
      · have same : m.sz = max m.sz newsz := by omega
        simp only [if_pos zero]
        rw [← same] at grown ⊢
        exact runs_pure (after ⟨_, pt, m.sz⟩ false ⟨grown, rfl, less (by omega) keeps, rfl,
          fun _ => grows⟩)
      simp only [if_neg zero]
      exact runs_pure (after ⟨_, pt, _⟩ true
        ⟨grown, rfl, less (by omega) keeps, by rw [if_pos rfl, if_pos grows], nofun⟩)
    intro pt failed keeps
    simp only [if_true]
    exact runs_pure (after ⟨_, pt, m.sz⟩ false ⟨failed, rfl, less (by omega) keeps, rfl,
      fun _ => grows⟩)
  rw [if_neg grows]
  by_cases shrinks : n < 0
  · rw [if_pos shrinks]
    apply runs_bind
    apply runs_uvmdealloc low (by omega) shaped
    intro pt shrunk keeps
    have least : min (pgs m.sz) (pgs newsz) = pgs (min m.sz newsz) := by
      simp only [pgs, PGSIZE]
      omega
    rw [least] at shrunk ⊢
    exact runs_pure (after ⟨_, pt, _⟩ true
      ⟨shrunk, rfl, less low keeps, by rw [if_pos rfl, if_neg grows, if_pos shrinks], nofun⟩)
  rw [if_neg shrinks]
  exact runs_pure (after m true ⟨shaped, rfl, ⟨fun _ _ => rfl, le_refl _⟩,
    by rw [if_pos rfl, if_neg grows, if_neg shrinks], nofun⟩)

theorem runs_growproc {n : Int} {post : Mem × Bool → Multiset Nat → Prop} (shaped : m.Shaped L)
    (after : ∀ m' ok, m'.Shaped L → post (m', ok) (m'.pages + rest)) :
    Runs L.Frame (growproc L m n) post (m.pages + rest) := by
  apply runs_of_valid
  rw [Mem.pages_add]
  intro valid
  apply runs_growproc_above shaped (Pagetable.above_lt valid) rfl zero_le
  intro m' ok grown
  have end' := after m' ok grown.shaped
  rwa [Mem.pages_add, grown.trapframe] at end'

theorem runs_loadLoop {reads : Nat → Bool} {u n : Nat} {post : Bool → Multiset Nat → Prop}
    (small : n < 2 ^ 21) (shaped : Shaped L tf true n pt.look) : ∀ {k j : Nat}, u + j + k ≤ n →
      (∀ ok, (ok = true → ∀ i < j + k, j ≤ i → reads (i * PGSIZE) = true) → post ok held) →
      Runs L.Frame (loadseg reads pt (u * PGSIZE) k (j * PGSIZE)) post held := by
  intro k
  induction k with
  | zero =>
    intro j _ after
    exact runs_pure (after true fun _ i low high => absurd high (by omega))
  | succ k ih =>
    intro j bound after
    obtain ⟨pte, look, user⟩ := shaped.user (u + j) (by omega)
    have low : ¬MAXVA ≤ (u + j) * PGSIZE := by
      simp only [MAXVA, PGSIZE]
      omega
    have found : walkaddr pt (u * PGSIZE + j * PGSIZE) = some pte.pa := by
      rw [← Nat.add_mul, walkaddr, if_neg low, Pagetable.reached (by omega) look]
      exact if_pos (user.2 rfl)
    rw [loadseg, found]
    simp only
    split
    · rename_i here
      rw [show j * PGSIZE + PGSIZE = (j + 1) * PGSIZE by ring]
      refine ih (by omega) fun ok rest => after ok fun done i low high => ?_
      by_cases eq : i = j
      · rwa [eq]
      exact rest done i (by omega) (by omega)
    exact runs_pure (after false (by simp))

theorem runs_loadseg {reads : Nat → Bool} {va n k : Nat} {post : Bool → Multiset Nat → Prop}
    (small : n < 2 ^ 21) (shaped : Shaped L tf true n pt.look) (aligned : va % PGSIZE = 0)
    (bound : va / PGSIZE + k ≤ n)
    (after : ∀ ok, (ok = true → ∀ i < k, reads (i * PGSIZE) = true) → post ok held) :
    Runs L.Frame (loadseg reads pt va k 0) post held := by
  obtain ⟨u, rfl⟩ := Nat.dvd_of_mod_eq_zero aligned
  rw [Nat.mul_div_cancel_left u (by decide)] at bound
  have loop : Runs L.Frame (loadseg reads pt (u * PGSIZE) k (0 * PGSIZE)) post held :=
    runs_loadLoop small shaped bound fun ok read => after ok fun done i low => read done i (by omega) zero_le
  rwa [Nat.zero_mul, Nat.mul_comm] at loop

/-- A program header can be read, and if it is to be loaded, so can the pages of its segment. -/
def Image.Loaded (image : Image) (i : Nat) : Prop := ∃ ph, image.progHdr i = some ph ∧
  (ph.type = ELF_PROG_LOAD → ph.filesz < 2 ^ 32 ∧ ∀ j, j * PGSIZE < ph.filesz → image.page i (j * PGSIZE) = true)

variable {image : Image}

theorem runs_loadProgram {post : Pagetable × Nat × Bool → Multiset Nat → Prop} :
    ∀ {k i sz : Nat} {pt : Pagetable}, Shaped L tf true (pgs sz) pt.look →
      (∀ pt sz ok, (ok = true → ∀ j < i + k, i ≤ j → image.Loaded j) →
        Shaped L tf true (pgs sz) pt.look →
        post (pt, sz, ok) (pt.own (pgs sz) + rest)) →
      Runs L.Frame (loadProgram L image k i pt sz) post (pt.own (pgs sz) + rest) := by
  intro k
  induction k with
  | zero =>
    intro i sz pt shaped after
    exact runs_pure (after pt sz true (fun _ j low high => absurd high (by omega)) shaped)
  | succ k ih =>
    intro i sz pt shaped after
    have bad := after pt sz false nofun shaped
    -- the rest of the loop, once this header is loaded
    have next : image.Loaded i → ∀ pt sz ok, (ok = true → ∀ j < i + 1 + k, i + 1 ≤ j →
        image.Loaded j) →
        Shaped L tf true (pgs sz) pt.look → post (pt, sz, ok) (pt.own (pgs sz) + rest) := by
      intro first pt sz ok others
      refine after pt sz ok fun done j low high => ?_
      by_cases eq : j = i
      · rwa [eq]
      exact others done j (by omega) (by omega)
    rw [loadProgram]
    split
    · exact runs_pure bad
    rename_i ph found
    split
    · rename_i other
      exact ih shaped (next ⟨ph, found, fun load => absurd load other⟩)
    split
    · exact runs_pure bad
    rename_i fits
    split
    · exact runs_pure bad
    rename_i low
    split
    · exact runs_pure bad
    rename_i aligned
    apply runs_bind
    apply runs_uvmalloc zero_le (by decide) shaped
    · intro pt' grown _
      by_cases zero : max sz ((ph.vaddr + ph.memsz) % 2 ^ 64) = 0
      · have same : sz = max sz ((ph.vaddr + ph.memsz) % 2 ^ 64) := by omega
        simp only [if_pos zero]
        rw [← same] at grown ⊢
        exact runs_pure (after pt' sz false nofun grown)
      simp only [if_neg zero]
      apply runs_of_valid
      intro valid
      have small := Pagetable.own_lt valid
      have few := Pagetable.above_lt valid
      have sum : (ph.vaddr + ph.memsz) % 2 ^ 64 = ph.vaddr + ph.memsz := by
        have := ph.vaddr_lt
        have := ph.memsz_lt
        omega
      have bound : ph.vaddr / PGSIZE + (ph.filesz % 2 ^ 32 + PGSIZE - 1) / PGSIZE ≤
          pgs (max sz ((ph.vaddr + ph.memsz) % 2 ^ 64)) := by
        rw [sum]
        simp only [pgs, PGSIZE] at aligned ⊢
        have := Nat.mod_le ph.filesz (2 ^ 32)
        omega
      apply runs_bind
      apply runs_loadseg small grown (by omega) bound
      intro ok read
      have short : ph.filesz < 2 ^ 32 := by
        rw [sum] at few
        simp only [pgs, PGSIZE] at few
        omega
      cases ok with
      | true =>
        refine ih grown (next ⟨ph, found, fun _ => ⟨short, fun j low => read rfl j ?_⟩⟩)
        simp only [PGSIZE] at low ⊢
        omega
      | false => exact runs_pure (after pt' _ false nofun grown)
    intro pt' failed _
    simp only [if_true]
    exact runs_pure (after pt' sz false nofun failed)

theorem runs_uvmclear {v n : Nat} {post : Pagetable → Multiset Nat → Prop} (small : n < 2 ^ 21)
    (lt : v < n) (shaped : Shaped L tf strict n pt.look)
    (after : ∀ pt', Shaped L tf false n pt'.look → post pt' (pt'.own n + rest)) :
    Runs L.Frame (uvmclear pt (v * PGSIZE)) post (pt.own n + rest) := by
  obtain ⟨pte, look, -⟩ := shaped.user v lt
  have cleared : (pt.set (v * PGSIZE) (some { pte with perm.u := false })).look =
      Function.update pt.look v (some { pte with perm.u := false }) := by
    apply Pagetable.look_set (by omega)
    rw [Pagetable.reached (by omega) look]
    exact Option.some_ne_none _
  have own : (pt.set (v * PGSIZE) (some { pte with perm.u := false })).own n = pt.own n := by
    rw [Pagetable.own, Pagetable.own, Pagetable.pages_set, cleared]
    congr 1
    apply frames_congr_pa
    intro w _ _
    by_cases eq : w = v
    · rw [eq, Function.update_self, look]
      rfl
    rw [Function.update_of_ne eq]
  rw [uvmclear]
  apply runs_bind
  apply runs_lookup (by omega) look
  apply runs_pure
  rw [← own]
  apply after
  rw [cleared]
  exact shaped.clear look lt small

theorem runs_exec {argv : List Nat} {post : Mem × Option Nat → Multiset Nat → Prop}
    (shaped : m.Shaped L) (after : ∀ m' r, (r ≠ none →
      ∃ phnum, image.header = some (ELF_MAGIC, phnum) ∧
      ∀ i < phnum, image.Loaded i) → m'.Shaped L → post (m', r) (m'.pages + rest)) :
    Runs L.Frame (exec L m image argv) post (m.pages + rest) := by
  have aligned : ∀ n, pgs (n * PGSIZE) = n := by
    intro n
    simp only [pgs, PGSIZE]
    omega
  have failed := after m none (fun h => absurd rfl h) shaped
  rw [exec]
  split
  swap
  · exact runs_pure failed
  split
  · exact runs_pure failed
  rename_i magic phnum header
  split
  · exact runs_pure failed
  rename_i right
  rw [not_not.mp right] at header
  apply runs_bind
  apply runs_procPagetable true
  · exact runs_pure failed
  intro pt fresh
  have own : pt.own 0 = pt.own (pgs 0) := by rw [pgs_zero]
  rw [← pgs_zero] at fresh
  rw [own]
  apply runs_bind
  apply runs_loadProgram fresh
  intro pt sz ok all loaded
  cases ok with
  | false =>
    apply runs_bind
    apply runs_procFreepagetable loaded
    exact runs_pure failed
  | true =>
    apply runs_of_valid
    intro valid
    have small := Pagetable.own_lt valid
    have two : pgs (pgs sz * PGSIZE + 2 * PGSIZE) = pgs sz + 2 := by rw [← Nat.add_mul, aligned]
    have most : max (pgs sz * PGSIZE) (pgs sz * PGSIZE + 2 * PGSIZE) =
        pgs sz * PGSIZE + 2 * PGSIZE := by omega
    simp only [if_true, pgRoundUp_eq small]
    have own : pt.own (pgs sz) = pt.own (pgs (pgs sz * PGSIZE)) := by rw [aligned]
    rw [← aligned (pgs sz)] at loaded
    rw [own]
    apply runs_bind
    apply runs_uvmalloc zero_le (by decide) loaded
    · intro pt grown _
      rw [most, two] at grown ⊢
      have nonzero : pgs sz * PGSIZE + 2 * PGSIZE ≠ 0 := by
        simp only [PGSIZE]
        omega
      simp only [if_neg nonzero, Nat.add_sub_cancel]
      apply runs_of_valid
      intro valid
      have small := Pagetable.own_lt valid
      apply runs_bind
      apply runs_uvmclear small (by omega) grown
      intro pt ready
      rw [← two] at ready ⊢
      split
      · apply runs_bind
        apply runs_procFreepagetable ready
        exact runs_pure failed
      rename_i argc _
      have end' := after ⟨m.trapframe, pt, _⟩ (some argc)
        (fun _ => ⟨phnum, header, fun i low => all rfl i (by omega) zero_le⟩) ready
      rw [Mem.pages_add] at end'
      rw [Mem.pages_add, ← add_assoc, add_comm (pt.own _), add_assoc]
      apply runs_bind
      apply runs_procFreepagetable shaped
      exact runs_pure end'
    intro pt empty _
    simp only [if_true]
    apply runs_bind
    apply runs_procFreepagetable empty
    exact runs_pure failed

theorem runs_freeAll {post : PUnit → Multiset Nat → Prop} (after : post ⟨⟩ rest) : ∀ {l : List Nat},
    Runs L.Frame (l.forM fun page => kfree L page) post (↑l + rest) := by
  intro l
  induction l with
  | nil =>
    rw [coe_nil, zero_add]
    exact runs_pure after
  | cons page l ih =>
    rw [← Multiset.cons_coe, cons_add]
    apply runs_bind
    exact runs_kfree ih

theorem runs_fetchArgs {uargv : Nat → Arg}
    {post : List Nat × Option (List Nat) → Multiset Nat → Prop}
    (after : ∀ pages r, post (pages, r) (↑pages + rest)) : ∀ {k i : Nat} {pages lens : List Nat},
    Runs L.Frame (fetchArgs uargv k i pages lens) post (↑pages + rest) := by
  have add : ∀ (page : Nat) (pages : List Nat), page ::ₘ (↑pages + rest) =
      ↑(pages ++ [page]) + rest := by
    intro page pages
    rw [← Multiset.coe_add, Multiset.coe_singleton, add_right_comm, ← Multiset.singleton_add,
      add_comm]
  intro k
  induction k with
  | zero =>
    intro i pages lens
    exact runs_pure (after pages none)
  | succ k ih =>
    intro i pages lens
    rw [fetchArgs]
    cases uargv i with
    | fault => exact runs_pure (after pages none)
    | null => exact runs_pure (after pages (some lens))
    | unterminated =>
      apply runs_bind
      apply runs_kalloc
      · exact runs_pure (after pages none)
      intro page
      rw [add]
      exact runs_pure (after _ none)
    | string len =>
      apply runs_bind
      apply runs_kalloc
      · exact runs_pure (after pages none)
      intro page
      rw [add]
      exact ih

theorem runs_sysExec {uargv : Nat → Arg} {post : Mem × Option Nat → Multiset Nat → Prop}
    (shaped : m.Shaped L) (after : ∀ m' r, m'.Shaped L → post (m', r) (m'.pages + rest)) :
    Runs L.Frame (sysExec L m image uargv) post (m.pages + rest) := by
  rw [sysExec, ← zero_add (m.pages + rest), ← coe_nil]
  apply runs_bind
  apply runs_fetchArgs
  intro pages r
  cases r with
  | none =>
    apply runs_bind
    apply runs_freeAll
    exact runs_pure (after m none shaped)
  | some argv =>
    rw [← add_assoc, add_comm (pages : Multiset Nat), add_assoc]
    apply runs_bind
    apply runs_exec shaped
    intro m' r _ shaped'
    rw [← add_assoc, add_comm m'.pages, add_assoc]
    apply runs_bind
    apply runs_freeAll
    exact runs_pure (after m' r shaped')

theorem runs_uvmfirst {post : Option Pagetable → Multiset Nat → Prop}
    (shaped : Shaped L tf false 0 pt.look) (none : ∀ g, post none g)
    (some : ∀ pt', Shaped L tf false 1 pt'.look → post (some pt') (pt'.own 1 + rest)) :
    Runs L.Frame (uvmfirst pt) post (pt.own 0 + rest) := by
  rw [uvmfirst]
  apply runs_bind
  apply runs_kalloc
  · exact runs_pure (none _)
  intro mem
  apply runs_bind
  apply runs_mappages_zero (shaped.free (by omega))
  · intro pt' new pages look
    have own : pt'.own 1 = new + (mem ::ₘ pt.own 0) :=
      Pagetable.above_push (Nat.zero_le 0) pages look
    apply runs_pure
    rw [← cons_add, ← add_assoc, ← own]
    apply some
    rw [look]
    exact shaped.push ⟨rfl, nofun⟩ (by omega)
  intro pt' new pages look
  exact runs_pure (none _)

theorem runs_userinit (none : ∀ g, post none g)
    (some : ∀ m, m.Shaped L → post (some m) (m.pages + held)) :
    Runs L.Frame (userinit L) post held := by
  rw [userinit]
  apply runs_bind
  apply runs_allocproc
  · exact runs_pure (none _)
  rintro ⟨trapframe, pt, sz⟩ shaped rfl
  have one : pgs PGSIZE = 1 := by decide
  rw [Mem.Shaped, pgs_zero] at shaped
  rw [Mem.pages_add, pgs_zero]
  apply runs_bind
  apply runs_uvmfirst shaped
  · exact fun g => runs_pure (none g)
  intro pt' first
  rw [← one] at first ⊢
  have end' := some ⟨trapframe, pt', PGSIZE⟩ first
  rw [Mem.pages_add] at end'
  exact runs_pure end'

end Xv6.Vm
