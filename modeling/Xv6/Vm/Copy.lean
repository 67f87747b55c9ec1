import Xv6.Vm.Tables

/-!
# Copies between the kernel and user memory

`copyout`, `copyin` and `copyinstr` of `vm.c`, with the bytes they move. They go through user memory
page by page and stop at the first page that is not mapped. What they do is what a copy of one byte
after the other would do. The pages of the page table are not in the memory that is written to.
-/

namespace Xv6.Vm.Copy

open Function (update_self update_of_ne)

/-- The bytes of physical memory. -/
abbrev Phys := Nat → UInt8

/-- 0 where there is no page. -/
def walkaddr (pt : Pagetable) (va : Nat) : Nat := (Vm.walkaddr pt va).getD 0

def memmove (mem : Phys) (dst : Nat) (src : List UInt8) : Phys :=
  fun a => if dst ≤ a ∧ a < dst + src.length then src.getD (a - dst) 0 else mem a

theorem offset_lt (va : Nat) : va - pgRoundDown va < PGSIZE := by
  simp only [pgRoundDown, PGSIZE]
  omega

/-- The memory, and whether the call returns 0. -/
def copyout (pt : Pagetable) (mem : Phys) (dstva : Nat) (src : List UInt8) : Phys × Bool :=
  if src.length = 0 then (mem, true)
  else
    let va0 := pgRoundDown dstva
    let pa0 := walkaddr pt va0
    if pa0 = 0 then (mem, false)
    else
      let n := min (PGSIZE - (dstva - va0)) src.length
      copyout pt (memmove mem (pa0 + (dstva - va0)) (src.take n)) ((va0 + PGSIZE) % 2 ^ 64) (src.drop n)
termination_by src.length
decreasing_by
  have := offset_lt dstva
  rw [List.length_drop]
  omega

/-- Up to `n` bytes from `p` on, and whether the last of them ends the copy. -/
def readRun (mem : Phys) (ends : UInt8 → Bool) : Nat → Nat → List UInt8 × Bool
  | _, 0 => ([], false)
  | p, n + 1 =>
    if ends (mem p) then ([mem p], true)
    else
      let r := readRun mem ends (p + 1) n
      (mem p :: r.1, r.2)

/-- The loop of `copyin` and `copyinstr`: what is at `dst`, and whether a byte has ended the copy,
where no page was missing. -/
def copyFrom (ends : UInt8 → Bool) (pt : Pagetable) (mem : Phys) (dst : List UInt8)
    (srcva max : Nat) :
    List UInt8 × Option Bool :=
  if max = 0 then (dst, some false)
  else
    let va0 := pgRoundDown srcva
    let pa0 := walkaddr pt va0
    if pa0 = 0 then (dst, none)
    else
      let n := min (PGSIZE - (srcva - va0)) max
      let r := readRun mem ends (pa0 + (srcva - va0)) n
      if r.2 then (dst ++ r.1, some true)
      else copyFrom ends pt mem (dst ++ r.1) ((va0 + PGSIZE) % 2 ^ 64) (max - n)
termination_by max
decreasing_by
  have := offset_lt srcva
  omega

/-- What is at `dst`, and whether the call returns 0. -/
def copyin (pt : Pagetable) (mem : Phys) (srcva len : Nat) : List UInt8 × Bool :=
  let r := copyFrom (fun _ => false) pt mem [] srcva len
  (r.1, r.2.isSome)

/-- What is at `dst`, and whether the call returns 0. -/
def copyinstr (pt : Pagetable) (mem : Phys) (srcva max : Nat) : List UInt8 × Bool :=
  let r := copyFrom (fun c => c == 0) pt mem [] srcva max
  (r.1, r.2 == some true)

/-! ## One byte after the other -/

/-- Where a byte of user memory is. -/
def phys (pt : Pagetable) (va : Nat) : Option Nat :=
  if walkaddr pt (pgRoundDown va) = 0 then none
  else some (walkaddr pt (pgRoundDown va) + (va - pgRoundDown va))

def store (pt : Pagetable) : Phys → Nat → List UInt8 → Phys × Bool
  | mem, _, [] => (mem, true)
  | mem, va, b :: src =>
    match phys pt va with
    | none => (mem, false)
    | some pa => store pt (Function.update mem pa b) (va + 1) src

def load (ends : UInt8 → Bool) (pt : Pagetable) (mem : Phys) : Nat → Nat → List UInt8 × Option Bool
  | _, 0 => ([], some false)
  | va, n + 1 =>
    match phys pt va with
    | none => ([], none)
    | some pa =>
      if ends (mem pa) then ([mem pa], some true)
      else
        let r := load ends pt mem (va + 1) n
        (mem pa :: r.1, r.2)

variable {pt : Pagetable} {mem : Phys} {va pa : Nat} {ends : UInt8 → Bool}

theorem walkaddr_lt (found : walkaddr pt va ≠ 0) : va < MAXVA := by
  by_contra high
  rw [walkaddr, Vm.walkaddr, if_pos (by omega)] at found
  exact found rfl

theorem phys_none (missing : walkaddr pt (pgRoundDown va) = 0) : phys pt va = none := if_pos missing

theorem phys_add {i : Nat} (found : walkaddr pt (pgRoundDown va) ≠ 0)
    (low : va - pgRoundDown va + i < PGSIZE) :
    phys pt (va + i) = some (walkaddr pt (pgRoundDown va) + (va - pgRoundDown va) + i) := by
  have same : pgRoundDown (va + i) = pgRoundDown va := by
    simp only [pgRoundDown, PGSIZE] at low ⊢
    omega
  have below : pgRoundDown va ≤ va := Nat.div_mul_le_self va PGSIZE
  rw [phys, same, if_neg found]
  congr 1
  omega

theorem store_run (src : List UInt8) : ∀ {run : List UInt8} (mem : Phys) {va pa : Nat},
    (∀ i < run.length, phys pt (va + i) = some (pa + i)) →
      store pt mem va (run ++ src) = store pt (memmove mem pa run) (va + run.length) src := by
  intro run
  induction run with
  | nil =>
    intro mem va pa _
    have same : memmove mem pa [] = mem := by
      funext a
      exact if_neg fun h => by simp only [List.length_nil] at h; omega
    rw [same]
    rfl
  | cons b run ih =>
    intro mem va pa there
    have first := there 0 (Nat.succ_pos _)
    have rest : ∀ i < run.length, phys pt (va + 1 + i) = some (pa + 1 + i) := by
      intro i low
      have next := there (i + 1) (Nat.succ_lt_succ low)
      rwa [add_assoc, add_assoc, Nat.add_comm 1 i]
    have moved : memmove (Function.update mem pa b) (pa + 1) run = memmove mem pa (b :: run) := by
      funext a
      simp only [memmove, List.length_cons]
      by_cases here : a = pa
      · rw [here, if_neg (by omega), if_pos (by omega), update_self, Nat.sub_self]
        rfl
      rw [update_of_ne here]
      by_cases inside : pa + 1 ≤ a ∧ a < pa + 1 + run.length
      · rw [if_pos inside, if_pos (by omega), show a - pa = a - (pa + 1) + 1 by omega]
        rfl
      rw [if_neg inside, if_neg (by omega)]
    rw [List.cons_append, store]
    rw [add_zero, add_zero] at first
    simp only [first]
    rw [ih _ rest, moved, List.length_cons, add_assoc, Nat.add_comm 1]

theorem load_run (ends : UInt8 → Bool) (mem : Phys) (k : Nat) :
    ∀ {n va pa : Nat}, (∀ i < n, phys pt (va + i) = some (pa + i)) →
    load ends pt mem va (n + k) = if (readRun mem ends pa n).2 then ((readRun mem ends pa n).1, some true)
      else ((readRun mem ends pa n).1 ++ (load ends pt mem (va + n) k).1, (load ends pt mem (va + n) k).2) := by
  intro n
  induction n with
  | zero =>
    intro va pa _
    rw [zero_add, readRun]
    rfl
  | succ n ih =>
    intro va pa there
    have first := there 0 (Nat.succ_pos _)
    have rest : ∀ i < n, phys pt (va + 1 + i) = some (pa + 1 + i) := by
      intro i low
      have next := there (i + 1) (Nat.succ_lt_succ low)
      rwa [add_assoc, add_assoc, Nat.add_comm 1 i]
    rw [add_zero, add_zero] at first
    rw [Nat.add_right_comm, load, readRun, first]
    dsimp only
    by_cases last : ends (mem pa) = true
    · rw [if_pos last, if_pos last]
      rfl
    rw [if_neg last, if_neg last, ih rest, add_assoc va, Nat.add_comm 1 n]
    split
    · rfl
    rfl

theorem next_page (found : walkaddr pt (pgRoundDown va) ≠ 0) :
    (pgRoundDown va + PGSIZE) % 2 ^ 64 = va + (PGSIZE - (va - pgRoundDown va)) := by
  have low := walkaddr_lt found
  simp only [pgRoundDown, PGSIZE, MAXVA] at low ⊢
  omega

theorem copyout_eq_store {src : List UInt8} : copyout pt mem va src = store pt mem va src := by
  induction len : src.length using Nat.strong_induction_on generalizing mem va src with
  | _ len ih =>
    rw [copyout]
    split
    · rename_i empty
      rw [List.length_eq_zero_iff.mp empty]
      rfl
    rename_i more
    dsimp only
    split
    · rename_i missing
      cases src with
      | nil => exact absurd rfl more
      | cons b src => rw [store, phys_none missing]
    rename_i found
    have offset := offset_lt va
    generalize size : min (PGSIZE - (va - pgRoundDown va)) src.length = n
    have taken : (src.take n).length = n := by
      rw [List.length_take]
      omega
    have there : ∀ i < (src.take n).length, phys pt (va + i) = some _ :=
      fun i low => phys_add found (by omega)
    have run := store_run (src.drop n) mem there
    rw [List.take_append_drop, taken] at run
    rw [ih (src.drop n).length (by rw [List.length_drop]; omega) rfl, run]
    by_cases done : n = src.length
    · rw [done, List.drop_length, store, store]
    rw [next_page found, show PGSIZE - (va - pgRoundDown va) = n by omega]

theorem copyFrom_eq_load {dst : List UInt8} {max : Nat} : copyFrom ends pt mem dst va max =
    (dst ++ (load ends pt mem va max).1, (load ends pt mem va max).2) := by
  induction max using Nat.strong_induction_on generalizing dst va with
  | _ max ih =>
    rw [copyFrom]
    split
    · rename_i none
      rw [none, load, List.append_nil]
    rename_i more
    dsimp only
    split
    · rename_i missing
      obtain ⟨max, rfl⟩ := Nat.exists_eq_succ_of_ne_zero more
      rw [load, phys_none missing, List.append_nil]
    rename_i found
    have offset := offset_lt va
    generalize size : min (PGSIZE - (va - pgRoundDown va)) max = n
    have there : ∀ i < n, phys pt (va + i) = some _ := fun i low => phys_add found (by omega)
    have run := load_run ends mem (max - n) there
    rw [Nat.add_sub_cancel' (by omega)] at run
    rw [run]
    split
    · rfl
    rw [ih (max - n) (by omega), List.append_assoc]
    by_cases done : n = max
    · rw [done, Nat.sub_self, load, load]
    rw [next_page found, show PGSIZE - (va - pgRoundDown va) = n by omega]

/-! ## What is copied -/

/-- A byte of a page that is mapped with `PTE_V` and `PTE_U`. -/
def Mapped (pt : Pagetable) (va : Nat) : Prop :=
  va < MAXVA ∧ ∃ pte, pt.look (va / PGSIZE) = some pte ∧ pte.perm.u = true

/-- No entry for the user names the physical page 0, which `walkaddr` could not return. -/
def Backed (pt : Pagetable) : Prop := ∀ v pte, pt.look v = some pte → pte.perm.u = true → pte.pa ≠ 0

/-- A byte of user memory. -/
def byte (pt : Pagetable) (mem : Phys) (va : Nat) : UInt8 := mem ((phys pt va).getD 0)

theorem walkaddr_page (low : va < MAXVA) : walkaddr pt (pgRoundDown va) =
    match pt.look (va / PGSIZE) with
    | some pte => if pte.perm.u then pte.pa else 0
    | none => 0 := by
  have small : va / PGSIZE < 2 ^ 27 := by
    simp only [MAXVA, PGSIZE] at low ⊢
    omega
  have below : ¬MAXVA ≤ pgRoundDown va := by
    have := Nat.div_mul_le_self va PGSIZE
    rw [pgRoundDown]
    omega
  rw [walkaddr, Vm.walkaddr, if_neg below, Pagetable.look_eq small, pgRoundDown]
  rcases Node.get 2 pt.root (va / PGSIZE * PGSIZE) with - | - | pte
  · rfl
  · rfl
  rw [Option.join_some]
  dsimp only
  split <;> rfl

theorem phys_ne_none_iff (backed : Backed pt) : phys pt va ≠ none ↔ Mapped pt va := by
  rw [phys, Mapped]
  by_cases low : va < MAXVA
  · rw [walkaddr_page low]
    cases look : pt.look (va / PGSIZE) with
    | none => simp
    | some pte =>
      have real := backed _ pte look
      by_cases user : pte.perm.u = true <;> simp_all
  have missing : walkaddr pt (pgRoundDown va) = 0 := by
    by_contra found
    have below := walkaddr_lt found
    simp only [pgRoundDown, PGSIZE, MAXVA] at low below
    omega
  simp [missing, low]

theorem store_ok : ∀ {src : List UInt8} {mem : Phys} {va : Nat},
    (store pt mem va src).2 = true ↔ ∀ i < src.length, phys pt (va + i) ≠ none := by
  intro src
  induction src with
  | nil => simp [store]
  | cons b src ih =>
    intro mem va
    have split : (∀ i < (b :: src).length, phys pt (va + i) ≠ none) ↔
        phys pt va ≠ none ∧ ∀ i < src.length, phys pt (va + 1 + i) ≠ none := by
      rw [List.length_cons, Nat.forall_lt_succ_left]
      simp only [add_zero, add_assoc, Nat.add_comm 1]
    rw [split, store]
    cases phys pt va with
    | none => simp
    | some pa =>
      dsimp only
      rw [ih]
      simp

theorem store_frame {a : Nat} : ∀ {src : List UInt8} {mem : Phys} {va : Nat},
    (store pt mem va src).1 a ≠ mem a → ∃ i < src.length, phys pt (va + i) = some a := by
  intro src
  induction src with
  | nil => exact fun changed => absurd rfl changed
  | cons b src ih =>
    intro mem va changed
    rw [store] at changed
    cases here : phys pt va with
    | none =>
      rw [here] at changed
      exact absurd rfl changed
    | some pa =>
      rw [here] at changed
      dsimp only at changed
      by_cases eq : a = pa
      · exact ⟨0, Nat.succ_pos _, by rw [add_zero, here, eq]⟩
      rw [← update_of_ne eq b mem] at changed
      obtain ⟨i, low, there⟩ := ih changed
      exact ⟨i + 1, Nat.succ_lt_succ low, by rwa [Nat.add_comm i, ← add_assoc]⟩

/-- How far a copy that reads gets, and why it ends there. -/
def Ends (pt : Pagetable) (mem : Phys) (ends : UInt8 → Bool) (va n k : Nat) : Option Bool → Prop
  | none => k < n ∧ phys pt (va + k) = none ∧ ∀ i < k, ends (byte pt mem (va + i)) = false
  | some false => k = n ∧ ∀ i < k, ends (byte pt mem (va + i)) = false
  | some true => ∃ j, k = j + 1 ∧ ends (byte pt mem (va + j)) = true ∧ ∀ i < j, ends (byte pt mem (va + i)) = false

theorem load_spec (ends : UInt8 → Bool) (pt : Pagetable) (mem : Phys) : ∀ n va : Nat, ∃ k ≤ n,
    (load ends pt mem va n).1 = (List.range k).map (fun i => byte pt mem (va + i)) ∧
      (∀ i < k, phys pt (va + i) ≠ none) ∧ Ends pt mem ends va n k (load ends pt mem va n).2 := by
  intro n
  induction n with
  | zero => exact fun va => ⟨0, Nat.le_refl 0, rfl, nofun, rfl, nofun⟩
  | succ n ih =>
    intro va
    rw [load]
    cases here : phys pt va with
    | none => exact ⟨0, zero_le, rfl, nofun, Nat.succ_pos n, by rwa [add_zero], nofun⟩
    | some pa =>
      have first : byte pt mem (va + 0) = mem pa := by rw [add_zero, byte, here, Option.getD_some]
      have shift : ∀ i, va + 1 + i = va + (i + 1) := by omega
      dsimp only
      split
      · rename_i last
        refine ⟨1, Nat.succ_pos n, ?_, ?_, 0, rfl, ?_, nofun⟩
        · rw [List.range_one, List.map_singleton, first]
        · intro i low
          rw [Nat.lt_one_iff.mp low, add_zero, here]
          exact Option.some_ne_none _
        rwa [first]
      rename_i more
      have goes : ends (byte pt mem (va + 0)) = false := by
        rw [first]
        exact Bool.of_not_eq_true more
      obtain ⟨k, most, bytes, there, why⟩ := ih (va + 1)
      simp only [shift] at bytes there
      refine ⟨k + 1, Nat.succ_le_succ most, ?_, ?_, ?_⟩
      · rw [List.range_succ_eq_map, List.map_cons, List.map_map, bytes, first]
        rfl
      · rw [Nat.forall_lt_succ_left, add_zero, here]
        exact ⟨Option.some_ne_none _, there⟩
      revert why
      cases (load ends pt mem (va + 1) n).2 with
      | none =>
        rintro ⟨low, missing, none⟩
        simp only [shift] at missing none
        exact ⟨Nat.succ_lt_succ low, missing, Nat.forall_lt_succ_left.mpr ⟨goes, none⟩⟩
      | some found =>
        cases found with
        | false =>
          rintro ⟨rfl, none⟩
          simp only [shift] at none
          exact ⟨rfl, Nat.forall_lt_succ_left.mpr ⟨goes, none⟩⟩
        | true =>
          rintro ⟨j, rfl, last, none⟩
          simp only [shift] at last none
          exact ⟨j + 1, rfl, last, Nat.forall_lt_succ_left.mpr ⟨goes, none⟩⟩

/-- Where the whole range is mapped with `PTE_V` and `PTE_U` below `MAXVA`, `copyout` and `copyin`
return 0, and nowhere else; `copyinstr` returns 0 where that is so up to the first NUL and the NUL
is one of the first `max` bytes. `copyout` stores the bytes in order; the other two read the bytes
in order, `copyinstr` up to the NUL. Whatever they return, only bytes of the range in pages that
are so mapped are stored to or read, so at most `len` or `max` of them. -/
theorem copies_exact (backed : Backed pt) (mem : Phys) (va : Nat) :
    (∀ src, copyout pt mem va src = store pt mem va src ∧
      ((copyout pt mem va src).2 = true ↔ ∀ i < src.length, Mapped pt (va + i)) ∧
      ∀ a, (copyout pt mem va src).1 a ≠ mem a →
        ∃ i < src.length, Mapped pt (va + i) ∧ phys pt (va + i) = some a) ∧
    (∀ len, ∃ k ≤ len, (copyin pt mem va len).1 = (List.range k).map (fun i => byte pt mem (va + i)) ∧
      (∀ i < k, Mapped pt (va + i)) ∧
      ((copyin pt mem va len).2 = true ↔ ∀ i < len, Mapped pt (va + i)) ∧
      ((copyin pt mem va len).2 = true → k = len)) ∧
    ∀ max, ∃ k ≤ max, (copyinstr pt mem va max).1 = (List.range k).map (fun i => byte pt mem (va + i)) ∧
      (∀ i < k, Mapped pt (va + i)) ∧
      ((copyinstr pt mem va max).2 = true ↔
        ∃ j < max, byte pt mem (va + j) = 0 ∧ ∀ i ≤ j, Mapped pt (va + i)) ∧
      ((copyinstr pt mem va max).2 = true →
        ∃ j, k = j + 1 ∧ byte pt mem (va + j) = 0 ∧ ∀ i < j, byte pt mem (va + i) ≠ 0) := by
  refine ⟨fun src => ?_, fun len => ?_, fun max => ?_⟩
  · rw [copyout_eq_store]
    refine ⟨rfl, ?_, fun a changed => ?_⟩
    · rw [store_ok]
      simp only [phys_ne_none_iff backed]
    obtain ⟨i, low, here⟩ := store_frame changed
    refine ⟨i, low, (phys_ne_none_iff backed).mp ?_, here⟩
    rw [here]
    exact Option.some_ne_none a
  · rw [copyin, copyFrom_eq_load, List.nil_append]
    obtain ⟨k, most, bytes, there, why⟩ := load_spec (fun _ => false) pt mem len va
    simp only [phys_ne_none_iff backed] at there
    refine ⟨k, most, bytes, there, ?_⟩
    cases ended : (load (fun _ => false) pt mem va len).2 with
    | none =>
      rw [ended] at why
      refine ⟨⟨nofun, fun all => ?_⟩, nofun⟩
      exact absurd why.2.1 ((phys_ne_none_iff backed).mpr (all k why.1))
    | some found =>
      rw [ended] at why
      cases found with
      | false => exact ⟨⟨fun _ => why.1 ▸ there, fun _ => rfl⟩, fun _ => why.1⟩
      | true =>
        obtain ⟨j, -, last, -⟩ := why
        cases last
  rw [copyinstr, copyFrom_eq_load, List.nil_append]
  obtain ⟨k, most, bytes, there, why⟩ := load_spec (fun c => c == 0) pt mem max va
  simp only [phys_ne_none_iff backed] at there
  refine ⟨k, most, bytes, there, ?_⟩
  -- before the first NUL there is none
  have early : ∀ {j}, (∀ i < k, (byte pt mem (va + i) == 0) = false) → byte pt mem (va + j) = 0 →
      k ≤ j := by
    intro j none nul
    by_contra low
    have differs := none j (by omega)
    rw [nul] at differs
    cases differs
  cases ended : (load (fun c => c == 0) pt mem va max).2 with
  | none =>
    rw [ended] at why
    obtain ⟨low, missing, none⟩ := why
    refine ⟨⟨nofun, ?_⟩, nofun⟩
    rintro ⟨j, -, nul, all⟩
    exact absurd missing ((phys_ne_none_iff backed).mpr (all k (early none nul)))
  | some found =>
    rw [ended] at why
    cases found with
    | false =>
      refine ⟨⟨nofun, ?_⟩, nofun⟩
      rintro ⟨j, low, nul, -⟩
      have := early why.2 nul
      have := why.1
      omega
    | true =>
      obtain ⟨j, rfl, last, none⟩ := why
      have nul : byte pt mem (va + j) = 0 := eq_of_beq last
      refine ⟨⟨fun _ => ⟨j, by omega, nul, fun i le => there i (by omega)⟩, fun _ => rfl⟩,
        fun _ => ?_⟩
      refine ⟨j, rfl, nul, fun i low zero => ?_⟩
      have differs := none i low
      rw [zero] at differs
      cases differs

def onePage (pte : Pte) : Pagetable where
  page := 0x87ffe000
  root i :=
    if i = 0 then
      some (0x87ffd000, fun j => if j = 0 then some (0x87ffc000, fun k => if k = 0 then some pte else none) else none)
    else none

theorem onePage_look {pte pte' : Pte} {v : Nat} (look : (onePage pte).look v = some pte') :
    pte' = pte := by
  rw [Pagetable.look] at look
  split at look
  swap
  · cases look
  simp only [onePage, Node.get] at look
  split at look
  · rw [Option.bind_some] at look
    dsimp only at look
    split at look
    · rw [Option.bind_some, Option.join_some] at look
      dsimp only at look
      split at look
      · exact (Option.some.inj look).symm
      cases look
    cases look
  cases look

/-- Two bytes on two pages. -/
theorem onePage_copied :
    ∃ pt : Pagetable, Backed pt ∧ (copyout pt (fun _ => 0) 4095 [7, 8]).2 = true := by
  let pte : Pte := ⟨0x87ffb000, ⟨true, true, false, true⟩⟩
  let next : Pte := ⟨0x87ffa000, ⟨true, true, false, true⟩⟩
  let pt := (onePage pte).set (1 * PGSIZE) (some next)
  have look : pt.look = Function.update (onePage pte).look 1 (some next) :=
    Pagetable.look_set (by decide) (by decide)
  have backed : Backed pt := by
    intro v pte' found _
    rw [look] at found
    by_cases second : v = 1
    · rw [second, Function.update_self] at found
      cases found
      decide
    rw [Function.update_of_ne second] at found
    rw [onePage_look found]
    decide
  refine ⟨pt, backed, ((copies_exact backed (fun _ => 0) 4095).1 [7, 8]).2.1.mpr fun i low => ?_⟩
  change i < 2 at low
  interval_cases i
  · exact ⟨by decide, pte, by rw [look]; rfl, rfl⟩
  exact ⟨by decide, next, by rw [look]; rfl, rfl⟩

/-- A page that is mapped, but to the physical page 0. -/
theorem pageZero_refused :
    ∃ pt : Pagetable, (∀ i < 1, Mapped pt (0 + i)) ∧ ∀ mem, (copyin pt mem 0 1).2 = false := by
  refine ⟨onePage ⟨0, ⟨true, true, false, true⟩⟩, fun i low => ?_, fun mem => ?_⟩
  · rw [Nat.lt_one_iff.mp low]
    exact ⟨by decide, _, rfl, rfl⟩
  rw [copyin, copyFrom_eq_load, load, phys_none rfl]
  rfl

/-! ## Where the kernel stores -/

/-- What a system call stores: one `copyout` after the other, until one fails. `read` calls it for
each block of a file or each byte of a pipe, `pipe` for two descriptors, `fstat` and `wait` once.
-/
def copyouts (pt : Pagetable) : Phys → List (Nat × List UInt8) → Phys
  | mem, [] => mem
  | mem, (dstva, src) :: rest =>
    let r := copyout pt mem dstva src
    if r.2 then copyouts pt r.1 rest else r.1

/-- The byte is in the page of an entry. -/
def Holds (pte : Pte) (a : Nat) : Prop := pte.pa ≤ a ∧ a < pte.pa + PGSIZE

theorem phys_holds {a : Nat} (here : phys pt va = some a) :
    ∃ pte, pt.look (va / PGSIZE) = some pte ∧ pte.perm.u = true ∧ Holds pte a := by
  rw [phys] at here
  split at here
  · cases here
  rename_i found
  have offset := offset_lt va
  have low : va < MAXVA := by
    have below := walkaddr_lt found
    simp only [pgRoundDown, PGSIZE, MAXVA] at below ⊢
    omega
  rw [walkaddr_page low] at here found
  split at found
  · rename_i pte look
    split at found
    · rename_i user
      rw [look] at here
      simp only [user, if_true, Option.some.injEq] at here
      exact ⟨pte, look, user, by omega, by omega⟩
    exact absurd rfl found
  exact absurd rfl found

/-- The bytes of a call of `copyout` with their addresses. -/
def bytesAt : Nat → List UInt8 → List (Nat × UInt8)
  | _, [] => []
  | va, b :: src => (va, b) :: bytesAt (va + 1) src

/-- The bytes of a system call with their addresses. -/
def bytes (dsts : List (Nat × List UInt8)) : List (Nat × UInt8) := dsts.flatMap fun d => bytesAt d.1 d.2

/-- The addresses that a system call stores to: up to the first one for which `walkaddr` finds no
page. -/
def reached (pt : Pagetable) (dsts : List (Nat × List UInt8)) : List Nat :=
  ((bytes dsts).map Prod.fst).takeWhile fun va => (phys pt va).isSome

def stores (pt : Pagetable) : Phys → List (Nat × UInt8) → Phys
  | mem, [] => mem
  | mem, (va, b) :: rest =>
    match phys pt va with
    | none => mem
    | some pa => stores pt (Function.update mem pa b) rest

theorem stores_append (src : List UInt8) (rest : List (Nat × UInt8)) : ∀ (mem : Phys) (va : Nat),
    stores pt mem (bytesAt va src ++ rest) =
      if (store pt mem va src).2 then stores pt (store pt mem va src).1 rest else (store pt mem va src).1 := by
  induction src with
  | nil => exact fun _ _ => rfl
  | cons b src ih =>
    intro mem va
    rw [bytesAt, List.cons_append, stores, store]
    cases phys pt va with
    | none => rfl
    | some pa => exact ih _ _

theorem copyouts_eq_stores (dsts : List (Nat × List UInt8)) :
    ∀ mem, copyouts pt mem dsts = stores pt mem (bytes dsts) := by
  induction dsts with
  | nil => exact fun _ => rfl
  | cons d dsts ih =>
    intro mem
    rw [bytes, List.flatMap_cons, stores_append, copyouts, copyout_eq_store]
    simp only [ih, bytes]

theorem stores_congr {mem mem' : Phys} {a : Nat} (l : List (Nat × UInt8)) (same : mem a = mem' a) :
    stores pt mem l a = stores pt mem' l a := by
  induction l generalizing mem mem' with
  | nil => exact same
  | cons e l ih =>
    rw [stores, stores]
    cases phys pt e.1 with
    | none => exact same
    | some pa =>
      refine ih ?_
      rw [Function.update_apply, Function.update_apply, same]

theorem stores_frame {a : Nat} (l : List (Nat × UInt8)) (changed : stores pt mem l a ≠ mem a) :
    ∃ va ∈ (l.map Prod.fst).takeWhile fun va => (phys pt va).isSome, phys pt va = some a := by
  induction l generalizing mem with
  | nil => exact absurd rfl changed
  | cons e l ih =>
    rw [stores] at changed
    cases here : phys pt e.1 with
    | none =>
      rw [here] at changed
      exact absurd rfl changed
    | some pa =>
      rw [here] at changed
      rw [List.map_cons, List.takeWhile_cons_of_pos (by rw [here]; rfl)]
      by_cases eq : a = pa
      · exact ⟨e.1, List.mem_cons_self, by rw [here, eq]⟩
      rw [← update_of_ne eq e.2 mem] at changed
      obtain ⟨va, mem, there⟩ := ih changed
      exact ⟨va, List.mem_cons_of_mem _ mem, there⟩

/-- What was at an address that is stored to does not matter afterwards. -/
theorem stores_reached {a : Nat} (l : List (Nat × UInt8)) (there : phys pt va = some a)
    (reached : va ∈ (l.map Prod.fst).takeWhile fun va => (phys pt va).isSome) :
    ∀ mem mem', stores pt mem l a = stores pt mem' l a := by
  induction l with
  | nil => cases reached
  | cons e l ih =>
    intro mem mem'
    rw [stores, stores]
    rw [List.map_cons, List.takeWhile_cons] at reached
    split at reached
    · rename_i here
      obtain ⟨pa, found⟩ := Option.isSome_iff_exists.mp here
      rw [found]
      rcases List.mem_cons.mp reached with rfl | later
      · cases found.symm.trans there
        refine stores_congr l ?_
        rw [update_self, update_self]
      exact ih later _ _
    cases reached

/-- No physical page is in two places of the page table. -/
def Apart (pt : Pagetable) : Prop :=
  ∀ v v' pte pte' a, pt.look v = some pte → pt.look v' = some pte' → Holds pte a → Holds pte' a → v = v'

/-- System calls store to writable pages only, if every page that they reach is writable. In a
page table without a page in two places, it is only then that they do so whatever was in memory.
-/
theorem copyouts_writable (pt : Pagetable) (dsts : List (Nat × List UInt8)) :
    ((∀ va ∈ reached pt dsts, ∀ pte, pt.look (va / PGSIZE) = some pte → pte.perm.w = true) →
      ∀ mem a, copyouts pt mem dsts a ≠ mem a →
        ∃ v pte, pt.look v = some pte ∧ pte.perm.u = true ∧ pte.perm.w = true ∧ Holds pte a) ∧
    (Apart pt → (∀ mem a, copyouts pt mem dsts a ≠ mem a →
        ∃ v pte, pt.look v = some pte ∧ pte.perm.u = true ∧ pte.perm.w = true ∧ Holds pte a) →
      ∀ va ∈ reached pt dsts, ∀ pte, pt.look (va / PGSIZE) = some pte → pte.perm.w = true) := by
  constructor
  · intro writable mem a changed
    rw [copyouts_eq_stores] at changed
    obtain ⟨va, mem, there⟩ := stores_frame _ changed
    obtain ⟨pte, look, user, holds⟩ := phys_holds there
    exact ⟨_, pte, look, user, writable va mem pte look, holds⟩
  intro apart only va mem pte look
  obtain ⟨a, there⟩ := Option.isSome_iff_exists.mp (List.all_eq_true.mp List.all_takeWhile va mem)
  obtain ⟨pte', look', -, holds⟩ := phys_holds there
  -- a memory with something else at the address than what is stored there
  obtain ⟨v, pte'', look'', -, writable, holds''⟩ := only (fun x => stores pt (fun _ => 0)
    (bytes dsts) x + 1) a (by
    rw [copyouts_eq_stores, stores_reached _ there mem _ fun _ => 0]
    intro eq
    have size := congrArg UInt8.toNat eq
    rw [UInt8.toNat_add] at size
    have one : (1 : UInt8).toNat = 1 := rfl
    omega)
  obtain rfl := apart _ _ _ _ a look'' look' holds'' holds
  rw [look''] at look
  rwa [← Option.some.inj look]

theorem dataPage_stored :
    ∃ (pt : Pagetable) (mem : Phys) (a : Nat), copyouts pt mem [(0, [1])] a ≠ mem a ∧
    ∃ v pte, pt.look v = some pte ∧ pte.perm.u = true ∧ pte.perm.w = true ∧ Holds pte a := by
  have changed : copyouts (onePage ⟨0x87ffb000, ⟨true, true, false, true⟩⟩)
      (fun _ => 0) [(0, [1])] 0x87ffb000 ≠ 0 := by
    rw [copyouts, copyout_eq_store]
    decide
  refine ⟨_, _, _, changed, (copyouts_writable _ _).1 (fun va mem pte look => ?_) _ _ changed⟩
  rw [onePage_look look]

/-- A store to a program's text, as `exec` maps it for a segment that is not writable. -/
theorem textPage_stored :
    ∃ (pt : Pagetable) (mem : Phys) (a : Nat), copyouts pt mem [(0, [1])] a ≠ mem a ∧
    ∀ v pte, pt.look v = some pte → pte.perm.w = false := by
  refine ⟨onePage ⟨0x87ffb000, ⟨true, false, true, true⟩⟩, fun _ => 0, 0x87ffb000, ?_,
    fun v pte look => ?_⟩
  · rw [copyouts, copyout_eq_store]
    decide
  rw [onePage_look look]

end Xv6.Vm.Copy
