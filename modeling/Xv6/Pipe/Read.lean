import Xv6.Pipe
import Xv6.Vm.Copy

/-!
# `piperead` and user memory

The copy of `piperead` with the bytes that `copyout` stores. It runs under the lock of the pipe from the
first byte to the last.
-/

namespace Xv6.Pipe

open Vm (Pagetable)
open Vm.Copy (Phys copyout phys store)
open Monitor

variable {P : Type}

namespace Ring

/-- The bytes in the pipe. -/
def content (d : Ring P) : List UInt8 :=
  (List.range (d.nwrite - d.nread).toNat).map fun k => d.data ((d.nread.toNat + k) % PIPESIZE)

variable {d : Ring P}

theorem content_empty (none : d.empty = true) : d.content = [] := by
  have eq : d.nread = d.nwrite := eq_of_beq none
  rw [content, eq, UInt32.sub_self]
  rfl

theorem content_pop (nonempty : d.empty = false) (tag : Tag P) :
    d.content = d.data (d.nread.toNat % PIPESIZE) :: (d.pop tag).content := by
  have ne : d.nread.toNat ≠ d.nwrite.toNat := fun eq => by
    rw [empty, UInt32.toNat_inj.mp eq, beq_self_eq_true] at nonempty
    cases nonempty
  have next : (d.nread + 1).toNat = (d.nread.toNat + 1) % 2 ^ 32 := UInt32.toNat_add ..
  have high := d.nread.toNat_lt
  have low := d.nwrite.toNat_lt
  have count : (d.nwrite - d.nread).toNat = (d.nwrite - (d.nread + 1)).toNat + 1 := by
    rw [UInt32.toNat_sub, UInt32.toNat_sub, next]
    omega
  rw [content, count, List.range_succ_eq_map, List.map_cons, List.map_map]
  refine congrArg _ (List.map_congr_left fun k _ => congrArg d.data ?_)
  simp only [pop, next, PIPESIZE]
  omega

end Ring

/-- The loop that copies, from byte `i` on and for so many more: what `piperead` returns, and what
it leaves. -/
def copyBytes (pt : Pagetable) (tag : Tag P) (addr : Nat) : Nat → Nat → Ring P → Phys → Nat × Ring P × Phys
  | 0, i, d, mem => (i, d, mem)
  | n + 1, i, d, mem =>
    if d.empty then (i, d, mem)
    else
      let r := copyout pt mem ((addr + i) % 2 ^ 64) [d.data (d.nread.toNat % PIPESIZE)]
      if r.2 then copyBytes pt tag addr n (i + 1) (d.pop tag) r.1 else (i, d.pop tag, r.1)

/-- The loop that copies in the machine of the pipe, from byte `i` to its end. -/
inductive Copies (f : Activation P Done) (dst : Nat → Bool) (n : Int) : Nat → Ring P → Nat → Ring P → Prop
  | stop {i : Nat} {d : Ring P} :
      pipecopy f dst n i d = .wakeup .nwrite (.read f dst n .done i) → Copies f dst n i d i d
  | fail {i : Nat} {d d' : Ring P} :
      pipecopy f dst n i d = .set d' (.read f dst n .wake i) → Copies f dst n i d i d'
  | next {i j : Nat} {d d' e : Ring P} : pipecopy f dst n i d =
      .set d' (.read f dst n .copy (i + 1)) →
      Copies f dst n (i + 1) d' j e → Copies f dst n i d j e

section Copy

variable {pt : Pagetable} {tag : Tag P} {addr : Nat}

theorem copyout_one (mem : Phys) (va : Nat) (ch : UInt8) : copyout pt mem va [ch] =
    (phys pt va).elim (mem, false) fun pa => (Function.update mem pa ch, true) := by
  rw [Vm.Copy.copyout_eq_store, store]
  cases phys pt va <;> rfl

/-- `copyBytes` is the loop of `piperead` in the machine, where `copyout` decides whether there is
a page. -/
theorem copyBytes_copies (f : Activation P Done) (n : Int) (more : Nat) :
    ∀ (i : Nat) (d : Ring P) (mem : Phys),
    n.toNat = i + more → Copies f (fun i => (phys pt ((addr + i) % 2 ^ 64)).isSome) n i d
      (copyBytes pt f.tag addr more i d mem).1 (copyBytes pt f.tag addr more i d mem).2.1 := by
  induction more with
  | zero => exact fun i d mem left => .stop (if_neg fun go => by omega)
  | succ more ih =>
    intro i d mem left
    rw [copyBytes]
    split
    · rename_i none
      exact .stop (if_neg fun go => by rw [none] at go; cases go.2)
    rename_i some
    have go : (i : Int) < n ∧ d.empty = false := ⟨by omega, Bool.not_eq_true _ ▸ some⟩
    rw [copyout_one]
    cases here : phys pt ((addr + i) % 2 ^ 64) with
    | none => exact .fail (by rw [pipecopy, if_pos go, here]; rfl)
    | some pa => exact .next (by rw [pipecopy, if_pos go, here]; rfl) (ih _ _ _ (by omega))

theorem lt_of_phys {va pa : Nat} (here : phys pt va = some pa) : va + 1 < 2 ^ 64 := by
  by_contra high
  rw [Vm.Copy.phys_none] at here
  · cases here
  by_contra found
  have below := Vm.Copy.walkaddr_lt found
  simp only [Vm.pgRoundDown, Vm.PGSIZE, Vm.MAXVA] at below
  omega

/-- With a page for every byte that there is to copy, the bytes taken are the bytes stored. -/
theorem copyBytes_exact {n : Nat} : ∀ {i : Nat} {d : Ring P} {mem : Phys},
    (∀ k < min n d.content.length, phys pt (addr + i + k) ≠ none) →
    ∃ bytes, (copyBytes pt tag addr n i d mem).1 = i + bytes.length ∧
      d.content = bytes ++ (copyBytes pt tag addr n i d mem).2.1.content ∧
      store pt mem (addr + i) bytes = ((copyBytes pt tag addr n i d mem).2.2, true) := by
  induction n with
  | zero => exact fun _ => ⟨[], rfl, rfl, rfl⟩
  | succ n ih =>
    intro i d mem mapped
    rw [copyBytes]
    split
    · exact ⟨[], rfl, rfl, rfl⟩
    next some =>
    have all := Ring.content_pop (Bool.not_eq_true _ ▸ some) tag
    rw [all, List.length_cons] at mapped
    obtain ⟨pa, here⟩ := Option.ne_none_iff_exists'.mp (mapped 0 (by omega))
    rw [add_zero] at here
    rw [copyout_one, Nat.mod_eq_of_lt (by have := lt_of_phys here; omega), here, Option.elim_some]
    generalize d.data (d.nread.toNat % PIPESIZE) = ch at all ⊢
    obtain ⟨bytes, count, taken, stored⟩ := @ih (i + 1) (d.pop tag)
      (Function.update mem pa ch) fun k low => by
      rw [← add_assoc, add_assoc (addr + i), Nat.add_comm 1]
      exact mapped (k + 1) (by omega)
    refine ⟨ch :: bytes, ?_, ?_, ?_⟩
    · simp only [if_true, count, List.length_cons]
      omega
    · simp only [if_true, all, taken]
      rfl
    rw [store, here]
    exact stored

/-- Where a page is missing for a byte that there is to copy, one byte more is taken than the call
returns. -/
theorem copyBytes_loses {n : Nat} : ∀ {i : Nat} {d : Ring P} {mem : Phys}, addr + i < 2 ^ 64 →
    (∃ k < min n d.content.length, phys pt (addr + i + k) = none) →
    (copyBytes pt tag addr n i d mem).1 + (copyBytes pt tag addr n i d mem).2.1.content.length + 1 =
      i + d.content.length := by
  induction n with
  | zero =>
    rintro i d mem - ⟨k, low, -⟩
    omega
  | succ n ih =>
    rintro i d mem word ⟨k, low, missing⟩
    rw [copyBytes]
    split
    · rename_i none
      rw [Ring.content_empty none, List.length_nil] at low
      omega
    rename_i some
    have all := congrArg List.length (Ring.content_pop (Bool.not_eq_true _ ▸ some) tag)
    rw [List.length_cons] at all
    rw [copyout_one, Nat.mod_eq_of_lt word]
    cases here : phys pt (addr + i) with
    | none =>
      show i + (d.pop tag).content.length + 1 = _
      omega
    | some pa =>
      cases k with
      | zero =>
        rw [add_zero, here] at missing
        cases missing
      | succ k =>
        have rest := @ih (i + 1) (d.pop tag)
          (Function.update mem pa (d.data (d.nread.toNat % PIPESIZE)))
          (lt_of_phys here) ⟨k, by omega, by rwa [← add_assoc, add_assoc (addr + i), Nat.add_comm 1]⟩
        simp only [Option.elim_some, if_true]
        omega

end Copy

/-- A call of `piperead` has taken from the pipe as many bytes as it returns, and stored these
bytes at `addr`. -/
def Takes (pt : Pagetable) (addr : Nat) (d : Ring P) (mem : Phys) (r : Nat × Ring P × Phys) :
    Prop :=
  ∃ bytes, r.1 = bytes.length ∧ d.content = bytes ++ r.2.1.content ∧ copyout pt mem addr bytes = (r.2.2, true)

/-- `piperead` takes from the pipe the bytes that it stores and no other if and only if `walkaddr`
finds a page for every byte of the destination that there is something to store to. -/
theorem piperead_takes_what_it_returns (pt : Pagetable) (tag : Tag P) {addr : Nat}
    (word : addr < 2 ^ 64) (n : Int) (d : Ring P) (mem : Phys) :
    Takes pt addr d mem (copyBytes pt tag addr n.toNat 0 d mem) ↔
      ∀ k < min n.toNat d.content.length, phys pt (addr + k) ≠ none := by
  constructor
  · rintro ⟨bytes, count, taken, -⟩ k low missing
    have lost := @copyBytes_loses P pt tag addr n.toNat 0 d mem word ⟨k, low, missing⟩
    have length := congrArg List.length taken
    rw [List.length_append] at length
    omega
  intro mapped
  obtain ⟨bytes, count, taken, stored⟩ := @copyBytes_exact P pt tag addr n.toNat 0 d mem mapped
  rw [Nat.zero_add] at count
  exact ⟨bytes, count, taken, Vm.Copy.copyout_eq_store.trans stored⟩

/-- A pipe with one byte in it. -/
def oneByte : Ring Unit := (Ring.pipealloc fun _ => 0).push ⟨(), 0⟩ 7

/-- Ten bytes are asked for, and the pipe has one, for which there is a page. -/
theorem oneByte_read : ∃ (pt : Pagetable) (mem mem' : Phys),
    (copyBytes pt ⟨(), 1⟩ 4095 (10 : Int).toNat 0 oneByte mem).1 = 1 ∧
    (copyBytes pt ⟨(), 1⟩ 4095 (10 : Int).toNat 0 oneByte mem).2.1.content = [] ∧
    copyout pt mem 4095 [7] = (mem', true) ∧ mem' 0x87ffbfff = 7 := by
  have full : oneByte.content = [7] := by decide
  have here : phys (Vm.Copy.onePage ⟨0x87ffb000, ⟨true, true, false, true⟩⟩) 4095 =
      some 0x87ffbfff := by decide
  obtain ⟨bytes, count, taken, stored⟩ := (piperead_takes_what_it_returns (Vm.Copy.onePage
    ⟨0x87ffb000, ⟨true, true, false, true⟩⟩) ⟨(), 1⟩ (show 4095 < 2 ^ 64 by decide) 10 oneByte fun _ => 0).mpr (by
      rw [full]
      decide)
  rw [full] at taken
  have one : (copyBytes (Vm.Copy.onePage ⟨0x87ffb000, ⟨true, true, false, true⟩⟩)
      ⟨(), 1⟩ 4095 (10 : Int).toNat 0
      oneByte fun _ => 0).1 = 1 := by
    show (copyBytes _ _ 4095 (9 + 1) 0 oneByte _).1 = 1
    rw [copyBytes, if_neg (by decide), copyout_one, show (4095 + 0) % 2 ^ 64 = 4095 from rfl, here]
    simp only [Option.elim_some, if_true]
    rw [copyBytes, if_pos (by decide)]
  rw [one] at count
  obtain ⟨ch, rfl⟩ := List.length_eq_one_iff.mp count.symm
  obtain ⟨rfl, none⟩ := List.cons.inj taken
  refine ⟨_, _, _, one, none.symm, stored, ?_⟩
  rw [copyout_one, here] at stored
  exact (congrFun (congrArg Prod.fst stored) 0x87ffbfff).symm.trans
    (Function.update_self (f := fun _ => (0 : UInt8)) (0x87ffbfff : Nat) 7)

/-- Nothing is mapped at the destination: `piperead` returns 0, and the byte is not in the pipe any
more. -/
theorem oneByte_lost : ∃ (pt : Pagetable) (mem : Phys), oneByte.content = [7] ∧
    (copyBytes pt ⟨(), 1⟩ 0 1 0 oneByte mem).1 = 0 ∧
      (copyBytes pt ⟨(), 1⟩ 0 1 0 oneByte mem).2.1.content = [] := by
  refine ⟨⟨0x87ffe000, fun _ => none⟩, fun _ => 0, by decide, ?_⟩
  rw [copyBytes, if_neg (by decide), copyout_one, Nat.zero_mod, Vm.Copy.phys_none rfl]
  exact ⟨rfl, by decide⟩

end Xv6.Pipe
