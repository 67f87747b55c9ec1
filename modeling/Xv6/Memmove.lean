import Mathlib.Data.BitVec
import Mathlib.Logic.Function.Basic

/-!
# `memmove` of the kernel and of the user library

The two versions choose the direction of the copy by different tests: the kernel's goes down only where
the ranges overlap, the user library's wherever the source is not above the destination. A loop in
either direction is a copy of the bytes as they were, as long as it does not come to a byte of the
source that it has already written to.
-/

namespace Xv6.Memmove

open BitVec (ofNat)
open Function (update_self update_of_ne)

abbrev Memory := BitVec 64 → UInt8

/-- `while(n-- > 0) *d++ = *s++` -/
def copyUp : Nat → Memory → BitVec 64 → BitVec 64 → Memory
  | 0, mem, _, _ => mem
  | n + 1, mem, d, s => copyUp n (Function.update mem d (mem s)) (d + 1) (s + 1)

def copyDown : Nat → Memory → BitVec 64 → BitVec 64 → Memory
  | 0, mem, _, _ => mem
  | n + 1, mem, d, s => copyDown n (Function.update mem (d - 1) (mem (s - 1))) (d - 1) (s - 1)

namespace Kernel

/-- `memmove` of `string.c`, where `n` is a `uint`. What it returns is `dst`. -/
def memmove (mem : Memory) (dst src : BitVec 64) (n : BitVec 32) : Memory :=
  if n = 0 then mem
  else if src < dst ∧ src + n.setWidth 64 > dst then
    copyDown n.toNat mem (dst + n.setWidth 64) (src + n.setWidth 64)
  else copyUp n.toNat mem dst src

end Kernel

namespace Ulib

def memmove (mem : Memory) (dst src : BitVec 64) (n : BitVec 32) : Memory :=
  if src > dst then copyUp n.toInt.toNat mem dst src
  else copyDown n.toInt.toNat mem (dst + n.signExtend 64) (src + n.signExtend 64)

end Ulib

def snapshot (n : Nat) (mem : Memory) (dst src : BitVec 64) : Memory :=
  fun a => if (a - dst).toNat < n then mem (src + (a - dst)) else mem a

variable {n : Nat} {mem : Memory} {dst src : BitVec 64}

theorem copyUp_eq (apart : (src - dst).toNat + n ≤ 2 ^ 64) :
    copyUp n mem dst src = snapshot n mem dst src := by
  induction n generalizing mem dst src with
  | zero => rfl
  | succ n ih =>
    rw [copyUp, ih (by rw [add_sub_add_right_eq_sub]; omega)]
    funext a
    obtain ⟨x, rfl⟩ : ∃ x, a = dst + x := ⟨a - dst, (add_sub_cancel dst a).symm⟩
    rw [snapshot, snapshot, add_sub_cancel_left, add_sub_add_left_eq_sub, add_add_sub_cancel]
    generalize gap : src - dst = y at apart
    by_cases first : x = 0
    · subst first
      rw [if_neg (by bv_omega), if_pos (by simp), add_zero, add_zero, update_self]
    have less : (x - 1).toNat + 1 = x.toNat := by bv_omega
    rw [update_of_ne fun eq => first (add_eq_left.mp eq), ← less]
    by_cases inside : (x - 1).toNat < n
    · rw [if_pos inside, if_pos (by omega), update_of_ne]
      intro eq
      have zero : y + x = 0 := by rw [← gap, sub_add_eq_add_sub, eq, sub_self]
      bv_omega
    rw [if_neg inside, if_neg (by omega)]

theorem copyDown_eq (apart : (dst - src).toNat + n ≤ 2 ^ 64) :
    copyDown n mem (dst + ofNat 64 n) (src + ofNat 64 n) = snapshot n mem dst src := by
  induction n generalizing mem with
  | zero => rfl
  | succ n ih =>
    have last (p : BitVec 64) : p + ofNat 64 (n + 1) - 1 = p + ofNat 64 n := by
      rw [BitVec.ofNat_add, ← add_assoc]
      exact add_sub_cancel_right ..
    rw [copyDown, last, last, ih (by omega)]
    funext a
    obtain ⟨x, rfl⟩ : ∃ x, a = dst + x := ⟨a - dst, (add_sub_cancel dst a).symm⟩
    rw [snapshot, snapshot, add_sub_cancel_left]
    have small : (ofNat 64 n).toNat = n := Nat.mod_eq_of_lt (by omega)
    by_cases here : x = ofNat 64 n
    · rw [here, if_neg (by omega), if_pos (by omega), update_self]
    have ne : x.toNat ≠ n := fun eq => here (by rw [← eq, BitVec.ofNat_toNat, BitVec.setWidth_eq])
    rw [update_of_ne fun eq => here (add_left_cancel eq)]
    by_cases inside : x.toNat < n
    · rw [if_pos inside, if_pos (by omega), update_of_ne]
      intro eq
      have gap : x = dst - src + ofNat 64 n := by rw [sub_add_eq_add_sub, ← eq, add_sub_cancel_left]
      have := congrArg BitVec.toNat gap
      rw [BitVec.toNat_add, small] at this
      omega
    rw [if_neg inside, if_neg (by omega)]

theorem Kernel.memmove_eq {n : BitVec 32} (dstFits : dst.toNat + n.toNat ≤ 2 ^ 64)
    (srcFits : src.toNat + n.toNat ≤ 2 ^ 64) :
    Kernel.memmove mem dst src n = snapshot n.toNat mem dst src := by
  have wide : n.setWidth 64 = ofNat 64 n.toNat := by bv_omega
  rw [Kernel.memmove, wide]
  split
  · next none =>
    subst none
    rfl
  split
  · exact copyDown_eq (by bv_omega)
  exact copyUp_eq (by bv_omega)

theorem Ulib.memmove_eq {n : BitVec 32} (dstFits : dst.toNat + n.toInt.toNat ≤ 2 ^ 64)
    (srcFits : src.toNat + n.toInt.toNat ≤ 2 ^ 64) :
    Ulib.memmove mem dst src n = snapshot n.toInt.toNat mem dst src := by
  rw [Ulib.memmove]
  split
  · exact copyUp_eq (by bv_omega)
  by_cases negative : n.toInt ≤ 0
  · rw [Int.toNat_of_nonpos negative]
    rfl
  have msb : n.msb = false := by rw [BitVec.msb_eq_toInt, decide_eq_false_iff_not]; omega
  have wide : n.signExtend 64 = ofNat 64 n.toInt.toNat := by
    rw [BitVec.signExtend_eq_setWidth_of_msb_false msb, BitVec.toInt_eq_toNat_of_msb msb,
      Int.toNat_natCast,
      BitVec.ofNat_toNat]
  rw [wide]
  exact copyDown_eq (by bv_omega)

/-- Whichever way the two ranges overlap, both versions leave the bytes that the source held
before at the destination and change no other byte. So they agree on every length that both can be
given. -/
theorem memmove_snapshot (mem : Memory) (dst src : BitVec 64) (n : BitVec 32) :
    (dst.toNat + n.toNat ≤ 2 ^ 64 → src.toNat + n.toNat ≤ 2 ^ 64 →
      Kernel.memmove mem dst src n = snapshot n.toNat mem dst src) ∧
    (dst.toNat + n.toInt.toNat ≤ 2 ^ 64 → src.toNat + n.toInt.toNat ≤ 2 ^ 64 →
      Ulib.memmove mem dst src n = snapshot n.toInt.toNat mem dst src) ∧
    (0 ≤ n.toInt → dst.toNat + n.toNat ≤ 2 ^ 64 → src.toNat + n.toNat ≤ 2 ^ 64 →
      Kernel.memmove mem dst src n = Ulib.memmove mem dst src n) := by
  refine ⟨Kernel.memmove_eq, Ulib.memmove_eq, fun positive dstFits srcFits => ?_⟩
  have same : n.toInt.toNat = n.toNat := by
    rw [BitVec.toInt_eq_toNat_of_msb (by rw [BitVec.msb_eq_toInt, decide_eq_false_iff_not]; omega)]
    rfl
  rw [Kernel.memmove_eq dstFits srcFits, Ulib.memmove_eq (by rwa [same]) (by rwa [same]), same]

/-- Three bytes are moved up by one, which only a copy that goes down gets right. -/
theorem memmove_overlapping : ∃ mem : Memory, Kernel.memmove mem 5 4 3 = snapshot 3 mem 5 4 ∧
    Kernel.memmove mem 5 4 3 = Ulib.memmove mem 5 4 3 ∧ copyUp 3 mem 5 4 7 ≠ mem 6 := by
  have moved := memmove_snapshot (fun a => a.toNat.toUInt8) 5 4 3
  exact ⟨_, moved.1 (by decide) (by decide), moved.2.2 (by decide) (by decide)
    (by decide), by decide⟩

end Xv6.Memmove
