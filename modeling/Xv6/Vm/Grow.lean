import Xv6.Vm.Procs

/-!
# The contents of a growing process

`growproc` with the contents of pages. Every page that it takes is cleared at once, by `walk` or by `uvmalloc`, and
`kfree` fills a page with ones. What a process still has afterwards is as it was, and what is new is zero.
-/

namespace Xv6.Vm

open Xv6.Task

/-- The contents of a page. -/
abbrev Page := Fin PGSIZE → UInt8

def zeroed : Page := fun _ => 0

def freed : Page := fun _ => 1

/-- The contents of a user page. -/
def Mem.page (m : Mem) (mem : Nat → Page) (v : Nat) : Option Page := (m.pagetable.look v).map fun pte => mem pte.pa

section Grow

variable {L : Layout} {m : Mem} {n : Int} {lo : Nat}

theorem mem_frames {f : Nat → Option Pte} {v : Nat} {pte : Pte} (at' : f v = some pte) :
    ∀ {k : Nat}, lo ≤ v →
    v < lo + k → pte.pa ∈ frames f lo k := by
  intro k low high
  obtain ⟨i, rfl⟩ := Nat.exists_eq_add_of_le low
  obtain ⟨j, rfl⟩ : ∃ j, k = i + (j + 1) := ⟨k - i - 1, by omega⟩
  rw [frames_add, frames, at']
  simp

/-- What the result of `growproc` says. If it is 0, the size is the old size plus `n`, the pages
up to it and no others are mapped, those that were there are as before and the new ones are zero.
If it is -1, the size, the mappings and the contents of the user pages are as before. -/
structure Grew (m : Mem) (n : Int) (mem : Nat → Page) (m' : Mem) (ok : Bool) (mem' : Nat → Page) : Prop where
  done : ok = true → (m'.sz : Int) = m.sz + n ∧
    (∀ v < pgs m.sz, v < pgs m'.sz → m'.pagetable.look v = m.pagetable.look v ∧ m'.page mem' v = m.page mem v) ∧
    ∀ v, pgs m.sz ≤ v → v < pgs m'.sz → m'.page mem' v = some zeroed
  failed : ok = false → m'.sz = m.sz ∧ m'.pagetable.look = m.pagetable.look ∧
    ∀ v < pgs m.sz, m'.page mem' v = m.page mem v

variable {pool : List Nat}

/-- The pages of a process are too few for its size to come near `2 ^ 32`. -/
theorem pgs_lt_of_valid (valid : Valid L.Frame (↑pool + m.pages)) : pgs m.sz < 2 ^ 20 := by
  have bound := card_lt (valid.of_le (Multiset.le_add_left _ _))
  rw [Mem.pages, Pagetable.own, Multiset.card_cons, Multiset.card_add, card_frames] at bound
  omega

theorem growproc_grows (shaped : m.Shaped L) (valid : Valid L.Frame (↑pool + m.pages))
    (int : -2 ^ 31 ≤ n ∧ n < 2 ^ 31) (above : 0 ≤ m.sz + n) (mem : Nat → Page) :
    ∃ m' ok pool' mem', (growproc L m n).runOn zeroed freed pool mem =
      some ((m', ok), pool', mem') ∧
      m'.Shaped L ∧ Grew m n mem m' ok mem' := by
  have few := pgs_lt_of_valid valid
  obtain ⟨newsz, sum⟩ : ∃ newsz : Nat, (m.sz : Int) + n = newsz := ⟨(m.sz + n).toNat, by omega⟩
  obtain ⟨lo, least⟩ : ∃ lo, lo = min (pgs m.sz) (pgs newsz) := ⟨_, rfl⟩
  have split : m.pages = m.pagetable.above lo (pgs m.sz) + 0 + (m.trapframe ::ₘ frames m.pagetable.look 0 lo) := by
    have parts := frames_add (f := m.pagetable.look) (n := pgs m.sz - lo) (m := lo) (v := 0)
    rw [Nat.zero_add, Nat.add_sub_cancel' (by omega)] at parts
    rw [Mem.pages, Pagetable.own, parts, Pagetable.above, add_zero, Multiset.add_cons, add_assoc,
      add_comm (frames _ lo _)]
  rw [split, ← add_assoc] at valid
  have word : newsz < 2 ^ 64 := by
    simp only [pgs, PGSIZE] at few
    omega
  have wrapped : ((m.sz + n) % 2 ^ 64).toNat = newsz := by
    rw [sum]
    omega
  have runs : Runs L.Frame (growproc L m n)
      (fun r held => Grown L m n newsz lo r.1 r.2 ∧ held = r.1.pagetable.above lo (pgs r.1.sz) + 0)
      (m.pagetable.above lo (pgs m.sz) + 0) :=
    runs_growproc_above shaped few wrapped (le_of_eq least) fun _ _ grown => ⟨grown, rfl⟩
  have held : Valid L.Frame (m.pagetable.above lo (pgs m.sz) + 0) :=
    valid.of_le ((Multiset.le_add_left _ _).trans (Multiset.le_add_right _ _))
  obtain ⟨⟨m', ok⟩, pool', mem', _, ran, ⟨grown, rfl⟩, total, kept, fresh⟩ :=
    (runs.wp held).runOn zeroed freed mem (fun r => r ∉ m.pagetable.above lo (pgs m.sz) + 0) valid
      fun r mem new => absurd mem new
  have unchanged : ∀ v < lo, m'.pagetable.look v = m.pagetable.look v ∧
      m'.page mem' v = m.page mem v := by
    intro v lt
    have look := grown.keeps.1 v lt
    obtain ⟨pte, at', -⟩ := shaped.user v (by omega)
    refine ⟨look, ?_⟩
    rw [Mem.page, Mem.page, look, at', Option.map_some, Option.map_some,
      kept pte.pa (Multiset.mem_cons_of_mem (mem_frames at' (Nat.zero_le v) (by omega)))]
  have all : m.sz ≤ newsz → lo = pgs m.sz := by
    intro le
    rw [least]
    simp only [pgs, PGSIZE]
    omega
  refine ⟨m', ok, pool', mem', ran, grown.shaped, ?_, ?_⟩
  · rintro rfl
    have size : m'.sz = newsz := by
      rw [grown.size, if_pos rfl]
      split
      · omega
      split <;> omega
    rw [size]
    refine ⟨sum.symm, fun v lt lt' => unchanged v (by omega), fun v low high => ?_⟩
    have upper : lo = pgs m.sz := by omega
    have shaped' := grown.shaped
    rw [Mem.Shaped, size] at shaped'
    obtain ⟨pte, at', -⟩ := shaped'.user v high
    have mine : pte.pa ∈ frames m'.pagetable.look lo (pgs newsz - lo) := mem_frames at' (by omega)
      (by omega)
    rw [Mem.page, at', Option.map_some]
    rw [size, add_zero, Pagetable.above] at fresh total
    refine congrArg some (fresh pte.pa (Multiset.mem_add.mpr (Or.inr mine)) fun old => ?_)
    -- a page of the table before is a page of the table now, and not a user page
    rw [add_zero, Pagetable.above, upper, Nat.sub_self, frames, add_zero] at old
    have nodup : (m'.pagetable.pages + frames m'.pagetable.look lo (pgs newsz - lo)).Nodup := by
      refine Multiset.nodup_of_le (Multiset.le_add_left _ ↑pool') ?_
      rw [total]
      exact Multiset.nodup_of_le (Multiset.le_add_right _ _) valid.nodup
    exact Multiset.disjoint_left.mp (Multiset.nodup_add.mp nodup).2.2 (Multiset.mem_of_le grown.keeps.2 old) mine
  rintro rfl
  have size : m'.sz = m.sz := grown.size
  have upper := all (by have := grown.failed rfl; omega)
  refine ⟨size, funext fun v => ?_, fun v lt => (unchanged v (by omega)).2⟩
  have shaped' := grown.shaped
  rw [Mem.Shaped, size, grown.trapframe] at shaped'
  by_cases lt : v < pgs m.sz
  · exact (unchanged v (by omega)).1
  by_cases tf : v = TRAPFRAME / PGSIZE
  · rw [tf, shaped'.trapframe, shaped.trapframe]
  by_cases tr : v = TRAMPOLINE / PGSIZE
  · rw [tr, shaped'.trampoline, shaped.trampoline]
  rw [shaped'.other v (by omega) tf tr, shaped.other v (by omega) tf tr]

/-- With a negative `n` beyond the size, `uvmdealloc` gets a new size above the old one and does
nothing. -/
theorem growproc_belowZero (int : -2 ^ 31 ≤ n) (below : m.sz + n < 0) (mem : Nat → Page) :
    (growproc L m n).runOn zeroed freed pool mem = some ((m, true), pool, mem) := by
  have wraps : m.sz ≤ ((m.sz + n) % 2 ^ 64).toNat := by omega
  have nothing : growproc L m n = pure (m, true) := by
    rw [growproc, if_neg (by omega), if_pos (by omega), uvmdealloc, if_pos wraps]
    rfl
  rw [nothing]
  rfl

/-- For every process and every `int`: what the result of `growproc` says is true if and only if
the size does not go below 0. -/
theorem growproc_does (shaped : m.Shaped L) (valid : Valid L.Frame (↑pool + m.pages))
    (int : -2 ^ 31 ≤ n ∧ n < 2 ^ 31) (mem : Nat → Page) :
    (∃ m' ok pool' mem', (growproc L m n).runOn zeroed freed pool mem =
      some ((m', ok), pool', mem') ∧
      m'.Shaped L ∧ Grew m n mem m' ok mem') ↔ 0 ≤ m.sz + n := by
  refine ⟨?_, fun above => growproc_grows shaped valid int above mem⟩
  rintro ⟨m', ok, pool', mem', ran, -, grew⟩
  by_contra below
  rw [growproc_belowZero int.1 (by omega)] at ran
  cases ran
  have size := (grew.done rfl).1
  omega

end Grow

theorem first_process : ∃ (m : Mem) (pool : List Nat), m.Shaped smallLayout ∧
    Valid smallLayout.Frame (↑pool + m.pages) ∧ m.sz = 4096 := by
  have check : ((userinit smallLayout).run sixteenPages).any (fun r => r.1.any fun m => m.sz == 4096) = true := by
    decide +kernel
  obtain ⟨⟨r, pool⟩, ran, check⟩ := (Option.any_eq_true _ _).1 check
  obtain ⟨m, rfl, size⟩ := (Option.any_eq_true _ _).1 check
  obtain ⟨shaped, valid⟩ := userinit_shaped (by decide) (by decide) ran
  exact ⟨m, pool, shaped, valid, by simpa using size⟩

theorem firstProcess_grows : ∃ (m m' : Mem) (ok : Bool) (pool pool' : List Nat) (mem' : Nat → Page),
    m.sz = 4096 ∧ (growproc smallLayout m 4096).runOn zeroed freed pool (fun _ => zeroed) = some ((m', ok), pool', mem') ∧
      (ok = true → (m'.sz : Int) = 8192 ∧ m'.page mem' 1 = some zeroed) := by
  obtain ⟨m, pool, shaped, valid, size⟩ := first_process
  obtain ⟨m', ok, pool', mem', ran, -, grown, -⟩ :=
    (growproc_does shaped valid (by decide : -2 ^ 31 ≤ (4096 : Int) ∧ (4096 : Int) < 2 ^ 31) fun _ => zeroed).mpr
      (by omega)
  refine ⟨m, m', ok, pool, pool', mem', size, ran, fun done => ?_⟩
  obtain ⟨sum, -, new⟩ := grown done
  have size' : m'.sz = 8192 := by omega
  exact ⟨by omega, new 1 (by rw [size]; decide) (by rw [size']; decide)⟩

/-- A process of one page gives back two: `growproc` returns 0 and has done nothing. -/
theorem firstProcess_belowZero : ∃ (m : Mem) (pool : List Nat), m.Shaped smallLayout ∧
    Valid smallLayout.Frame (↑pool + m.pages) ∧ m.sz = 4096 ∧ ∀ mem : Nat → Page,
      (growproc smallLayout m (-8192)).runOn zeroed freed pool mem =
        some ((m, true), pool, mem) := by
  obtain ⟨m, pool, shaped, valid, size⟩ := first_process
  exact ⟨m, pool, shaped, valid, size, fun mem => growproc_belowZero (by decide) (by omega) mem⟩

end Xv6.Vm
