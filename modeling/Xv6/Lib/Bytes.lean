import Mathlib.Tactic
import Mathlib.Logic.Function.Basic

/-!
# Byte arrays of a fixed size and the views a C program takes of them

A disk block is a fixed number of bytes that C code reads through casts: as an
array of 32-bit words, as records with 16-bit fields, as a bitmap. `Bytes size`
is exactly `size` bytes, `write` replaces a window of them, and each view (`u16`,
`u32`, `bit`) comes with the two facts its users need: what a write inside the
window stores, and that a write outside it changes nothing.
-/

namespace Xv6

def Bytes (size : Nat) : Type := Fin size → UInt8

namespace Bytes

variable {size : Nat}

/-- All bytes zero, as `memset(p, 0, size)` leaves them. -/
def zero : Bytes size := fun _ => 0

/-- The byte at offset `i`; offsets past the end read as zero. -/
def byte (b : Bytes size) (i : Nat) : UInt8 :=
  if h : i < size then b ⟨i, h⟩ else 0

def write (b : Bytes size) (off len : Nat) (f : Nat → UInt8) : Bytes size :=
  fun j => if off ≤ j.val ∧ j.val < off + len then f (j.val - off) else b j

@[simp] theorem byte_zero (i : Nat) : (zero : Bytes size).byte i = 0 := by
  unfold byte zero
  split <;> rfl

variable {off len : Nat} {b : Bytes size} {f : Nat → UInt8}

theorem byte_write_in {i : Nat} (low : off ≤ i) (high : i < off + len) (inside : i < size) :
    (b.write off len f).byte i = f (i - off) := by
  simp only [byte, write, dif_pos inside, low, high, and_self, if_true]

theorem byte_write_out {i : Nat} (miss : i < off ∨ off + len ≤ i) :
    (b.write off len f).byte i = b.byte i := by
  unfold byte write
  split
  · rw [if_neg (by simp only; omega)]
  rfl

/-! ## Little-endian words -/

/-- Byte number `i` of `v`, least significant first. -/
def leByte (v i : Nat) : UInt8 := UInt8.ofNat (v / 256 ^ i)

/-- The `unsigned short` at offset `off`. -/
def u16 (b : Bytes size) (off : Nat) : Nat :=
  (b.byte off).toNat + 256 * (b.byte (off + 1)).toNat

/-- The `unsigned int` at offset `off`. -/
def u32 (b : Bytes size) (off : Nat) : Nat :=
  (b.byte off).toNat + 256 * (b.byte (off + 1)).toNat +
    65536 * (b.byte (off + 2)).toNat + 16777216 * (b.byte (off + 3)).toNat

def setU32 (b : Bytes size) (off v : Nat) : Bytes size := b.write off 4 (leByte v)

theorem leByte_toNat (v i : Nat) : (leByte v i).toNat = v / 256 ^ i % 256 := by
  simp [leByte, UInt8.toNat_ofNat']

theorem u16_lt (b : Bytes size) (off : Nat) : b.u16 off < 65536 := by
  have h0 := (b.byte off).toNat_lt
  have h1 := (b.byte (off + 1)).toNat_lt
  unfold u16
  omega

theorem u32_lt (b : Bytes size) (off : Nat) : b.u32 off < 4294967296 := by
  have h0 := (b.byte off).toNat_lt
  have h1 := (b.byte (off + 1)).toNat_lt
  have h2 := (b.byte (off + 2)).toNat_lt
  have h3 := (b.byte (off + 3)).toNat_lt
  unfold u32
  omega

variable {off' : Nat}

theorem u16_congr {a : Bytes size}
    (same : ∀ i, i < 2 → a.byte (off + i) = b.byte (off' + i)) : a.u16 off = b.u16 off' := by
  have h0 := same 0 (by omega)
  have h1 := same 1 (by omega)
  simp only [add_zero] at h0
  unfold u16
  rw [h0, h1]

theorem u32_congr {a : Bytes size}
    (same : ∀ i, i < 4 → a.byte (off + i) = b.byte (off' + i)) : a.u32 off = b.u32 off' := by
  have h0 := same 0 (by omega)
  have h1 := same 1 (by omega)
  have h2 := same 2 (by omega)
  have h3 := same 3 (by omega)
  simp only [add_zero] at h0
  unfold u32
  rw [h0, h1, h2, h3]

theorem u16_of_leByte {v : Nat} (same : ∀ i, i < 2 → b.byte (off + i) = leByte v i) :
    b.u16 off = v % 65536 := by
  have h0 := congrArg UInt8.toNat (same 0 (by omega))
  have h1 := congrArg UInt8.toNat (same 1 (by omega))
  simp only [leByte_toNat, add_zero, pow_zero, Nat.div_one, pow_one] at h0 h1
  unfold u16
  omega

theorem u32_of_leByte {v : Nat} (same : ∀ i, i < 4 → b.byte (off + i) = leByte v i) :
    b.u32 off = v % 4294967296 := by
  have h0 := congrArg UInt8.toNat (same 0 (by omega))
  have h1 := congrArg UInt8.toNat (same 1 (by omega))
  have h2 := congrArg UInt8.toNat (same 2 (by omega))
  have h3 := congrArg UInt8.toNat (same 3 (by omega))
  simp only [leByte_toNat, add_zero, pow_zero, Nat.div_one, pow_one, Nat.reducePow]
    at h0 h1 h2 h3
  unfold u32
  omega

@[simp] theorem u32_zero (off : Nat) : (zero : Bytes size).u32 off = 0 := by simp [u32]

@[simp] theorem u16_zero (off : Nat) : (zero : Bytes size).u16 off = 0 := by simp [u16]

theorem u32_past (past : size ≤ off) : b.u32 off = 0 := by
  have zero : ∀ i, off ≤ i → b.byte i = 0 := fun i low => dif_neg (by omega)
  unfold u32
  rw [zero off (le_refl _), zero (off + 1) (by omega), zero (off + 2) (by omega),
    zero (off + 3) (by omega)]
  rfl

theorem u32_setU32 {v : Nat} (inside : off + 4 ≤ size) :
    (b.setU32 off v).u32 off = v % 4294967296 := by
  refine u32_of_leByte fun i hi => ?_
  rw [setU32, byte_write_in (by omega) (by omega) (by omega)]
  congr 1
  omega

theorem u32_write_out (miss : off' + 4 ≤ off ∨ off + len ≤ off') :
    (b.write off len f).u32 off' = b.u32 off' :=
  u32_congr fun i hi => byte_write_out (by omega)

theorem u16_write_out (miss : off' + 2 ≤ off ∨ off + len ≤ off') :
    (b.write off len f).u16 off' = b.u16 off' :=
  u16_congr fun i hi => byte_write_out (by omega)

theorem u32_setU32_ne {v : Nat} (miss : off' + 4 ≤ off ∨ off + 4 ≤ off') :
    (b.setU32 off v).u32 off' = b.u32 off' :=
  u32_write_out miss

/-! ## Bitmaps -/

def bitMask (i : Nat) : UInt8 := 1 <<< UInt8.ofNat (i % 8)

/-- Is bit `i` of the bitmap set? -/
def bit (b : Bytes size) (i : Nat) : Bool := b.byte (i / 8) &&& bitMask i != 0

def setBit (b : Bytes size) (i : Nat) : Bytes size :=
  b.write (i / 8) 1 fun _ => b.byte (i / 8) ||| bitMask i

def clearBit (b : Bytes size) (i : Nat) : Bytes size :=
  b.write (i / 8) 1 fun _ => b.byte (i / 8) &&& ~~~bitMask i

private theorem bitMask_toNat (i : Nat) : (bitMask i).toNat = 2 ^ (i % 8) := by
  have h : i % 8 < 8 := Nat.mod_lt _ (by omega)
  unfold bitMask
  generalize i % 8 = j at h
  interval_cases j <;> decide

private theorem bitMask_compl_testBit (i j : Nat) :
    (~~~bitMask i).toNat.testBit (j % 8) = !decide (j % 8 = i % 8) := by
  have hi : i % 8 < 8 := Nat.mod_lt _ (by omega)
  have hj : j % 8 < 8 := Nat.mod_lt _ (by omega)
  unfold bitMask
  generalize i % 8 = a at hi
  generalize j % 8 = c at hj
  interval_cases a <;> interval_cases c <;> decide

private theorem and_two_pow_eq_zero (x j : Nat) : x &&& 2 ^ j = 0 ↔ x.testBit j = false := by
  constructor
  · intro zero
    have atBit := congrArg (Nat.testBit · j) zero
    simpa [Nat.testBit_and, Nat.testBit_two_pow_self] using atBit
  intro clear
  apply Nat.eq_of_testBit_eq
  intro n
  rw [Nat.testBit_and, Nat.testBit_two_pow, Nat.zero_testBit]
  by_cases same : j = n
  · subst same
    simp [clear]
  simp [same]

theorem bit_eq_testBit (b : Bytes size) (i : Nat) :
    b.bit i = (b.byte (i / 8)).toNat.testBit (i % 8) := by
  have zero : b.byte (i / 8) &&& bitMask i = 0 ↔ (b.byte (i / 8)).toNat.testBit (i % 8) =
      false := by
    rw [← and_two_pow_eq_zero, ← bitMask_toNat, ← UInt8.toNat_and, ← UInt8.toNat_inj]
    rfl
  unfold bit
  cases h : (b.byte (i / 8)).toNat.testBit (i % 8) with
  | false => rw [zero.mpr h]; rfl
  | true =>
    rw [bne_iff_ne, Ne, zero, h]
    decide

theorem bit_setBit {i j : Nat} (inside : i / 8 < size) :
    (b.setBit i).bit j = (decide (j = i) || b.bit j) := by
  rw [bit_eq_testBit, bit_eq_testBit, setBit]
  by_cases same : j / 8 = i / 8
  · rw [same, byte_write_in (by omega) (by omega) inside, UInt8.toNat_or, bitMask_toNat,
      Nat.testBit_or, Nat.testBit_two_pow, Bool.or_comm]
    congr 1
    rw [decide_eq_decide]
    omega
  rw [byte_write_out (by omega)]
  have : j ≠ i := fun h => same (by rw [h])
  simp [this]

theorem bit_clearBit {i j : Nat} (inside : i / 8 < size) :
    (b.clearBit i).bit j = (b.bit j && !decide (j = i)) := by
  rw [bit_eq_testBit, bit_eq_testBit, clearBit]
  by_cases same : j / 8 = i / 8
  · rw [same, byte_write_in (by omega) (by omega) inside, UInt8.toNat_and, Nat.testBit_and,
      bitMask_compl_testBit]
    congr 2
    rw [decide_eq_decide]
    omega
  rw [byte_write_out (by omega)]
  have : j ≠ i := fun h => same (by rw [h])
  simp [this]

end Bytes

end Xv6
