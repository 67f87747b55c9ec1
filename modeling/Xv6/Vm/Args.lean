import Xv6.Vm.Copy

/-!
# The arguments of a program

`exec` pushes the argument strings on the stack page of the new image, and below them the array of pointers
to them. A string or an array that would go below the stack page is refused before it is stored.
-/

namespace Xv6.Vm.Copy

def bytes64 (n : Nat) : List UInt8 := (List.range 8).map fun i => UInt8.ofNat (n / 256 ^ i)

/-- Move the stack pointer down and store: the memory, and the new stack pointer. -/
def push (pt : Pagetable) (stackbase : Nat) (mem : Phys) (sp : Nat) (src : List UInt8) :
    Phys × Option Nat :=
  if down sp src.length < stackbase then (mem, none)
  else
    let r := copyout pt mem (down sp src.length) src
    (r.1, if r.2 then some (down sp src.length) else none)

/-- The loop over the arguments: the memory, and `ustack` and the stack pointer at its end. -/
def pushArgs (pt : Pagetable) (stackbase : Nat) :
    Phys → List (List UInt8) → List Nat → Nat → Phys × Option (List Nat × Nat)
  | mem, [], ustack, sp => (mem, some (ustack, sp))
  | mem, s :: argv, ustack, sp =>
    if MAXARG ≤ ustack.length then (mem, none)
    else
      let r := push pt stackbase mem sp (s ++ [0])
      r.2.elim (r.1, none) fun sp => pushArgs pt stackbase r.1 argv (ustack ++ [sp]) sp

/-- What `exec` returns in `a0`, and the registers that it sets in the trapframe. -/
structure Regs where
  a0 : Nat
  a1 : Nat
  sp : Nat

/-- Push the strings, and the array of pointers to them. -/
def pushStack (pt : Pagetable) (mem : Phys) (sz : Nat) (argv : List (List UInt8)) :
    Phys × Option Regs :=
  let r := pushArgs pt (sz - PGSIZE) mem argv [] sz
  r.2.elim (r.1, none) fun (ustack, sp) =>
    let r := push pt (sz - PGSIZE) r.1 sp ((ustack ++ [0]).flatMap bytes64)
    (r.1, r.2.map fun sp => ⟨ustack.length, sp, sp⟩)

/-- No subtraction from the stack pointer that is reached wraps around. -/
def Unwrapped (stackbase : Nat) : List (List UInt8) → Nat → Nat → Prop
  | [], argc, sp => (argc + 1) * 8 ≤ sp
  | s :: argv, argc, sp => s.length + 1 ≤ sp ∧
    (stackbase ≤ down sp (s.length + 1) → Unwrapped stackbase argv (argc + 1) (down sp (s.length + 1)))

/-- What `n` bytes take on the stack. -/
def room (n : Nat) : Nat := (n + 15) / 16 * 16

/-- What the strings take on the stack. -/
def need (argv : List (List UInt8)) : Nat := (argv.map fun s => room (s.length + 1)).sum

def Window (pt : Pagetable) (mem : Phys) (va : Nat) (bs : List UInt8) : Prop :=
  ∀ i < bs.length, byte pt mem (va + i) = bs.getD i 0

/-- What was pushed, with where it is, is on the stack between `low` and `high`: aligned, and one
below the other. -/
structure Pushed (pt : Pagetable) (mem : Phys) (low high : Nat) (items : List (Nat × List UInt8)) : Prop where
  each : ∀ x ∈ items, x.1 % 16 = 0 ∧ low ≤ x.1 ∧ x.1 + x.2.length ≤ high ∧ Window pt mem x.1 x.2
  below : items.Pairwise fun x y => y.1 + y.2.length ≤ x.1

variable {pt : Pagetable} {mem mem' : Phys} {va base sp n high : Nat} {src : List UInt8}

theorem down_eq (aligned : sp % 16 = 0) (fits : n ≤ sp) (small : sp ≤ MAXVA) :
    down sp n + room n = sp := by
  simp only [MAXVA] at small
  rw [down, Nat.mod_eq_of_lt (by omega : n < 2 ^ 64), show sp + 2 ^ 64 - n =
    sp - n + 2 ^ 64 by omega, Nat.add_mod_right,
    Nat.mod_eq_of_lt (by omega), room]
  omega

theorem length_bytes64 (ns : List Nat) : (ns.flatMap bytes64).length = ns.length * 8 := by
  induction ns with
  | nil => rfl
  | cons n ns ih =>
    rw [List.flatMap_cons, List.length_append, ih, bytes64, List.length_map, List.length_range,
      List.length_cons]
    omega

theorem unwrapped (positive : PGSIZE ≤ base) :
    ∀ (argv : List (List UInt8)) (argc sp : Nat), base ≤ sp →
    argc + argv.length < MAXARG → (∀ s ∈ argv, s.length < PGSIZE) →
      Unwrapped base argv argc sp := by
  intro argv
  induction argv with
  | nil =>
    intro argc sp low count _
    show (argc + 1) * 8 ≤ sp
    simp only [List.length_nil, MAXARG, PGSIZE] at *
    omega
  | cons s argv ih =>
    intro argc sp low count short
    have fits := short s List.mem_cons_self
    rw [List.length_cons] at count
    exact ⟨by omega, fun low => ih _ _ low (by omega) fun s' mem => short s' (List.mem_cons_of_mem _ mem)⟩

section Page

-- the stack page, from `base` on
variable (page : base % PGSIZE = 0) (found : walkaddr pt base ≠ 0)

include page found

theorem phys_page (low : base ≤ va) (high : va < base + PGSIZE) :
    phys pt va = some (walkaddr pt base + (va - base)) := by
  have down : pgRoundDown va = base := by
    simp only [pgRoundDown, PGSIZE] at page high ⊢
    omega
  rw [phys, down, if_neg found]

theorem byte_page (low : base ≤ va) (high : va < base + PGSIZE) :
    byte pt mem va = mem (walkaddr pt base + (va - base)) := by
  rw [byte, phys_page page found low high]
  rfl

theorem copyout_page (low : base ≤ va) (high : va + src.length ≤ base + PGSIZE) :
    copyout pt mem va src = (memmove mem (walkaddr pt base + (va - base)) src, true) := by
  have run : ∀ i < src.length, phys pt (va + i) = some (walkaddr pt base + (va - base) + i) := by
    intro i inside
    rw [phys_page page found (by omega) (by omega)]
    congr 1
    omega
  have stored := store_run [] mem run
  rwa [List.append_nil, store, ← copyout_eq_store] at stored

theorem push_spec (mem : Phys) (src : List UInt8) (aligned : sp % 16 = 0) (low : base ≤ sp)
    (high : sp ≤ base + PGSIZE) (small : base + PGSIZE ≤ MAXVA) (positive : PGSIZE ≤ base)
    (short : src.length ≤ PGSIZE) :
    push pt base mem sp src = (mem, none) ∧ sp < base + room src.length ∨
    ∃ q, push pt base mem sp src = (memmove mem (walkaddr pt base + (q - base)) src, some q) ∧
      q + room src.length = sp ∧ base ≤ q := by
  have lands := down_eq aligned (n := src.length) (by omega) (by omega)
  have takes : src.length ≤ room src.length := by
    rw [room]
    omega
  rw [push]
  generalize down sp src.length = q at lands ⊢
  by_cases below : q < base
  · exact .inl ⟨if_pos below, by omega⟩
  refine .inr ⟨q, ?_, lands, by omega⟩
  rw [if_neg below, copyout_page page found (by omega) (by omega)]
  rfl

theorem Pushed.push {items : List (Nat × List UInt8)} {q : Nat}
    (pushed : Pushed pt mem sp high items) (lands : q + room src.length = sp)
    (aligned : sp % 16 = 0) (low : base ≤ q) (inside : sp ≤ high) (top : high ≤ base + PGSIZE) :
    Pushed pt (memmove mem (walkaddr pt base + (q - base)) src) q high (items ++ [(q, src)]) := by
  have takes : src.length ≤ room src.length ∧ room src.length % 16 = 0 := by
    rw [room]
    omega
  refine ⟨List.forall_mem_append.2 ⟨fun x mem => ?_, List.forall_mem_singleton.2 ⟨by omega, le_rfl,
    ?_, ?_⟩⟩,
    List.pairwise_append.2 ⟨pushed.below, List.pairwise_singleton _ _, fun x mem => List.forall_mem_singleton.2 ?_⟩⟩
  · obtain ⟨aligned', low', high', window⟩ := pushed.each x mem
    refine ⟨aligned', by omega, high', fun i inside => ?_⟩
    have here := window i inside
    rw [byte_page page found (by omega) (by omega)] at here ⊢
    rw [memmove, if_neg (by omega), here]
  · show q + src.length ≤ high
    omega
  · intro i (inside : i < src.length)
    show byte pt _ (q + i) = src.getD i 0
    rw [byte_page page found (by omega) (by omega), memmove, if_pos (by omega)]
    congr 1
    omega
  have low' := (pushed.each x mem).2.1
  show q + src.length ≤ x.1
  omega

theorem pushArgs_spec (top : high = base + PGSIZE) (small : high ≤ MAXVA) (positive : PGSIZE ≤ base) :
    ∀ (argv : List (List UInt8)) {mem : Phys} {items : List (Nat × List UInt8)} {sp : Nat}
    {r : Option (List Nat × Nat)},
      Pushed pt mem sp high items → sp % 16 = 0 → base ≤ sp → sp ≤ high →
      items.length + argv.length < MAXARG → (∀ s ∈ argv, s.length < PGSIZE) →
      pushArgs pt base mem argv (items.map Prod.fst) sp = (mem', r) →
      match r with
      | none => sp < base + need argv
      | some (ustack, sp') => sp' + need argv = sp ∧ sp' % 16 = 0 ∧ base ≤ sp' ∧
        ∃ items', Pushed pt mem' sp' high items' ∧ ustack = items'.map Prod.fst ∧
          items'.map Prod.snd = items.map Prod.snd ++ argv.map (· ++ [0]) := by
  intro argv
  induction argv with
  | nil =>
    intro mem items sp r pushed aligned low _ _ _ ran
    cases ran
    exact ⟨rfl, aligned, low, items, pushed, rfl, (List.append_nil _).symm⟩
  | cons s argv ih =>
    intro mem items sp r pushed aligned low inside count short ran
    have length : (s ++ [0]).length =
        s.length + 1 := by rw [List.length_append, List.length_singleton]
    have needs : need (s :: argv) = room (s.length + 1) + need argv := List.sum_cons
    have takes : room (s.length + 1) % 16 = 0 := by
      rw [room]
      omega
    have fits := short s List.mem_cons_self
    rw [List.length_cons] at count
    rw [pushArgs, if_neg (by rw [List.length_map]; omega)] at ran
    rcases push_spec page found mem (s ++ [0]) aligned low (by omega)
      (by omega) positive (by omega) with
      ⟨refused, full⟩ | ⟨q, stored, lands, above⟩
    · rw [refused] at ran
      cases ran
      rw [length] at full
      show sp < base + need (s :: argv)
      omega
    rw [stored] at ran
    have pushed' := pushed.push page found lands aligned above inside (by omega)
    rw [length] at lands
    have same : items.map Prod.fst ++ [q] =
        (items ++ [(q, s ++ [0])]).map Prod.fst := by rw [List.map_append]; rfl
    replace ran : pushArgs pt base _ argv (items.map Prod.fst ++ [q]) q = (mem', r) := ran
    rw [same] at ran
    have rest := ih pushed' (by omega) above (by omega)
      (by rw [List.length_append, List.length_singleton]; omega)
      (fun s' mem => short s' (List.mem_cons_of_mem _ mem)) ran
    cases r with
    | none =>
      have full : q < base + need argv := rest
      show sp < base + need (s :: argv)
      omega
    | some ends =>
      obtain ⟨took, aligned', low', items', pushed', ptrs, strings⟩ := rest
      refine ⟨by omega, aligned', low', items', pushed', ptrs, ?_⟩
      rw [strings, List.map_append, List.append_assoc]
      rfl

end Page

/-- `exec` passes the arguments. Once the stack page is mapped, up to `MAXARG - 1` strings of less
than a page are on the stack, each with its NUL, and below them the array of pointers to them,
which ends with a null pointer; or they do not fit in the stack page and `exec` fails. The stack
pointer never wraps around. -/
theorem exec_passes {sz : Nat} {argv : List (List UInt8)} (backed : Backed pt)
    (page : sz % PGSIZE = 0) (high : 2 * PGSIZE ≤ sz)
    (stack : ∀ va, sz - PGSIZE ≤ va → va < sz → Mapped pt va) (count : argv.length < MAXARG)
    (short : ∀ s ∈ argv, s.length < PGSIZE) (mem : Phys) :
    Unwrapped (sz - PGSIZE) argv 0 sz ∧
    (∀ mem', pushStack pt mem sz argv = (mem', none) →
      PGSIZE < need argv + room ((argv.length + 1) * 8)) ∧
    ∀ mem' regs, pushStack pt mem sz argv = (mem', some regs) → regs.a0 = argv.length ∧
      regs.sp = regs.a1 ∧
      ∃ strings, strings.map Prod.snd = argv.map (· ++ [0]) ∧ Pushed pt mem' (sz - PGSIZE) sz
        (strings ++ [(regs.a1, (strings.map Prod.fst ++ [0]).flatMap bytes64)]) := by
  have base : (sz - PGSIZE) % PGSIZE = 0 := by
    simp only [PGSIZE] at page ⊢
    omega
  have aligned : sz % 16 = 0 := by
    simp only [PGSIZE] at page
    omega
  have positive : PGSIZE ≤ sz - PGSIZE := by omega
  have some : 0 < PGSIZE := by decide
  have round : pgRoundDown (sz - PGSIZE) = sz - PGSIZE := by
    simp only [pgRoundDown, PGSIZE] at base ⊢
    omega
  have small : sz ≤ MAXVA := by
    have last := (stack (sz - 1) (by omega) (by omega)).1
    omega
  have found : walkaddr pt (sz - PGSIZE) ≠ 0 := by
    intro zero
    rw [← round] at zero
    exact (phys_ne_none_iff backed).2 (stack _ (Nat.le_refl _) (by omega)) (phys_none zero)
  have few : (argv.length + 1) * 8 ≤ PGSIZE := by
    simp only [MAXARG, PGSIZE] at count ⊢
    omega
  have top : sz = sz - PGSIZE + PGSIZE := by omega
  have strings : ∀ {mem' r}, pushArgs pt (sz - PGSIZE) mem argv [] sz = (mem', r) → _ := fun ran =>
    pushArgs_spec base found top small positive argv (show Pushed pt mem sz sz [] from ⟨(by simp), .nil⟩) aligned (by omega) (by omega)
      (by rwa [List.length_nil, Nat.zero_add]) short ran
  refine ⟨unwrapped positive argv 0 sz (Nat.sub_le ..) (by rwa [Nat.zero_add]) short, ?_⟩
  rcases args : pushArgs pt (sz - PGSIZE) mem argv [] sz with ⟨mem₁, - | ⟨ustack, sp⟩⟩
  · have full : sz < sz - PGSIZE + need argv := strings args
    rw [pushStack, args]
    exact ⟨fun _ _ => by omega, (by simp)⟩
  obtain ⟨took, aligned', low, items, pushed, rfl, strings⟩ := strings args
  have length : items.length = argv.length := by simpa using congrArg List.length strings
  have bytes : ((items.map Prod.fst ++ [0]).flatMap bytes64).length = (argv.length + 1) * 8 := by
    rw [length_bytes64, List.length_append, List.length_singleton, List.length_map, length]
  have array := push_spec base found mem₁ ((items.map Prod.fst ++ [0]).flatMap bytes64) aligned' low
    (by omega) (by omega) positive (by omega)
  rw [bytes] at array
  have ends : pushStack pt mem sz argv =
      ((push pt (sz - PGSIZE) mem₁ sp ((items.map Prod.fst ++ [0]).flatMap bytes64)).1,
      (push pt (sz - PGSIZE) mem₁ sp ((items.map Prod.fst ++ [0]).flatMap bytes64)).2.map fun sp =>
        ⟨(items.map Prod.fst).length, sp, sp⟩) := by
    rw [pushStack, args]
    rfl
  rcases array with ⟨refused, full⟩ | ⟨q, stored, lands, above⟩
  · rw [ends, refused]
    exact ⟨fun _ _ => by omega, (by simp)⟩
  rw [ends, stored]
  dsimp only
  refine ⟨fun mem' ran => (by cases (Prod.mk.inj ran).2), fun mem' regs ran => ?_⟩
  obtain ⟨rfl, eq⟩ := Prod.mk.inj ran
  obtain rfl := Option.some.inj eq
  rw [← bytes] at lands
  have pushed' := pushed.push base found lands aligned' above (by omega) (by omega)
  refine ⟨by rw [List.length_map, length], rfl, items, strings, fun x mem => ?_, pushed'.below⟩
  obtain ⟨aligned, low, rest⟩ := pushed'.each x mem
  exact ⟨aligned, by omega, rest⟩

/-- `exec` passes the argument `a` on a stack page at 0x1000. -/
theorem oneArg_passed :
    ∃ (pt : Pagetable) (mem : Phys) (regs : Regs), pushStack pt (fun _ => 0) 0x2000 [[97]] =
      (mem, some regs) ∧
    regs.a0 = 1 ∧ ∃ strings, strings.map Prod.snd = [[97, 0]] ∧ Pushed pt mem 0x1000 0x2000
      (strings ++ [(regs.a1, (strings.map Prod.fst ++ [0]).flatMap bytes64)]) := by
  let pte : Pte := ⟨0x87ffb000, ⟨true, true, false, true⟩⟩
  let pt := (onePage pte).set (1 * PGSIZE) (some pte)
  have look : pt.look = Function.update (onePage pte).look 1 (some pte) :=
    Pagetable.look_set (by decide) (by decide)
  have backed : Backed pt := by
    intro v pte' found _
    rw [look, Function.update_apply] at found
    split at found
    · rw [← Option.some.inj found]
      decide
    rw [onePage_look found]
    decide
  have stack : ∀ va, 0x2000 - PGSIZE ≤ va → va < 0x2000 → Mapped pt va := by
    intro va low high
    have page : va / PGSIZE = 1 := by
      simp only [PGSIZE] at low ⊢
      omega
    exact ⟨by simp only [MAXVA]; omega, pte, by rw [page, look, Function.update_self], rfl⟩
  obtain ⟨-, fails, returns⟩ := exec_passes backed (by decide) (by decide) stack
    (show ([[97]] : List (List UInt8)).length < MAXARG by decide) (by decide) fun _ => 0
  rcases ran : pushStack pt (fun _ => 0) 0x2000 [[97]] with ⟨mem, - | regs⟩
  · exact absurd (fails mem ran) (by decide)
  obtain ⟨argc, -, passed⟩ := returns mem regs ran
  exact ⟨pt, mem, regs, ran, argc, passed⟩

end Xv6.Vm.Copy
