import Mathlib.Data.Nat.Digits.Lemmas

/-!
# Numbers of the user `printf`

`vprintf` of `user/printf.c` prints through `printint`, which has a buffer of 16 characters and takes an
`int` whatever the conversion, and through `printptr`, which prints 16 digits.
-/

namespace Xv6.Printf

def digits : List Char := "0123456789ABCDEF".toList

def digit (d : Nat) : Char := digits.getD d '0'

/-- The loop of `printint`, with room for so many characters in the buffer; `none` if it would not
do. -/
def digitLoop (base : Nat) : Nat → Nat → Option (List Char)
  | 0, _ => none
  | room + 1, x => (if x / base = 0 then some [] else digitLoop base room (x / base)).map (digit (x % base) :: ·)

def printint (xx : BitVec 32) (base : Nat) (sgn : Bool) : Option (List Char) :=
  let neg := sgn && xx.toInt < 0
  let x := if neg then -xx else xx
  (digitLoop base 16 x.toNat).bind fun buf =>
    if neg then if buf.length < 16 then some ('-' :: buf.reverse) else none
    else some buf.reverse

def ptrLoop : Nat → BitVec 64 → List Char
  | 0, _ => []
  | n + 1, x => digit (x >>> 60).toNat :: ptrLoop n (x <<< 4)

def printptr (x : BitVec 64) : List Char := '0' :: 'x' :: ptrLoop 16 x

/-- What `va_arg` finds: a register, or a pointer to a string. -/
inductive Arg
  | word (w : BitVec 64)
  | str (s : Option (List Char))

/-- What `vprintf` writes; `state` says whether a `%` came before. There is no result where an
argument is missing or is not of the kind asked for. -/
def vprintf : Bool → List Char → List Arg → Option (List Char)
  | _, [], _ => some []
  | false, c :: fmt, args => if c = '%' then vprintf true fmt args else (vprintf false fmt args).map (c :: ·)
  | true, c :: fmt, args =>
    if c = 'd' ∨ c = 'l' ∨ c = 'x' ∨ c = 'p' ∨ c = 'c' then
      match args with
      | .word w :: args =>
        (if c = 'd' then printint (w.setWidth 32) 10 true
          else if c = 'l' then printint (w.setWidth 32) 10 false
          else if c = 'x' then printint (w.setWidth 32) 16 false
          else if c = 'p' then some (printptr w)
          else some [Char.ofNat (w.toNat % 256)]).bind fun out => (vprintf false fmt args).map (out ++ ·)
      | _ => none
    else if c = 's' then
      match args with
      | .str s :: args => (vprintf false fmt args).map (s.getD "(null)".toList ++ ·)
      | _ => none
    else if c = '%' then (vprintf false fmt args).map (c :: ·)
    else (vprintf false fmt args).map ('%' :: c :: ·)

/-! ## Reading back -/

/-- The number that digits stand for, the first one being the most significant. -/
def value (base : Nat) (s : List Char) : Nat := Nat.ofDigits base (s.reverse.map digits.idxOf)

/-- The shortest digits of a number. -/
def Numeral (base x : Nat) (s : List Char) : Prop :=
  value base s = x ∧ (∀ c ∈ s, digits.idxOf c < base) ∧ s ≠ [] ∧ (s.head? = some '0' → s = ['0'])

theorem idxOf_digit {d : Nat} (low : d < 16) : digits.idxOf (digit d) = d := by
  interval_cases d <;> decide

variable {base x d : Nat} {s : List Char}

theorem Numeral.single (low : x < base) (most : base ≤ 16) : Numeral base x [digit x] := by
  have index : digits.idxOf (digit x) = x := idxOf_digit (by omega)
  refine ⟨?_, by simp [index, low], by simp, fun zero => ?_⟩
  · rw [value, List.reverse_singleton, List.map_singleton, index, Nat.ofDigits_singleton]
  rw [Option.some.inj zero]

theorem Numeral.concat (numeral : Numeral base x s) (low : d < base) (most : base ≤ 16)
    (positive : x ≠ 0) :
    Numeral base (x * base + d) (s ++ [digit d]) := by
  obtain ⟨reads, valid, some, shortest⟩ := numeral
  have index : digits.idxOf (digit d) = d := idxOf_digit (by omega)
  refine ⟨?_, ?_, by simp, fun zero => ?_⟩
  · rw [value, List.reverse_concat, List.map_cons, index, Nat.ofDigits_cons, ← value, reads,
      Nat.mul_comm, Nat.add_comm]
  · simpa [or_imp, forall_and, index, low] using valid
  rw [List.head?_append_of_ne_nil _ some] at zero
  rw [shortest zero] at reads
  exact absurd reads.symm positive

theorem digitLoop_spec (two : 2 ≤ base) (most : base ≤ 16) {k : Nat} :
    ∀ {room x : Nat}, k < room → x < base ^ (k + 1) →
    ∃ buf, digitLoop base room x = some buf ∧ buf.length ≤ k + 1 ∧ Numeral base x buf.reverse := by
  induction k with
  | zero =>
    intro room x inside low
    obtain ⟨room, rfl⟩ := Nat.exists_eq_succ_of_ne_zero (by omega : room ≠ 0)
    rw [pow_one] at low
    rw [digitLoop, Nat.div_eq_of_lt low, Nat.mod_eq_of_lt low]
    exact ⟨_, rfl, le_rfl, .single low most⟩
  | succ k ih =>
    intro room x inside low
    obtain ⟨room, rfl⟩ := Nat.exists_eq_succ_of_ne_zero (by omega : room ≠ 0)
    have below : x % base < base := Nat.mod_lt x (by omega)
    rw [digitLoop]
    split
    · next zero =>
      have small : x < base := (Nat.div_eq_zero_iff.mp zero).resolve_left (by omega)
      rw [Nat.mod_eq_of_lt small]
      exact ⟨_, rfl, by simp, .single small most⟩
    next more =>
    obtain ⟨buf, done, length, numeral⟩ := ih (by omega : k < room)
      (Nat.div_lt_of_lt_mul (by rwa [← pow_succ']))
    have whole := numeral.concat below most more
    rw [Nat.div_add_mod', ← List.reverse_cons] at whole
    rw [done]
    exact ⟨_, rfl, Nat.succ_le_succ length, whole⟩

theorem printint_unsigned (xx : BitVec 32) (four : 4 ≤ base) (most : base ≤ 16) :
    ∃ s, printint xx base false = some s ∧ s.length ≤ 16 ∧ Numeral base xx.toNat s := by
  have low : xx.toNat < base ^ (15 + 1) := xx.isLt.trans_le (Nat.pow_le_pow_left four 16)
  obtain ⟨buf, done, length, numeral⟩ := digitLoop_spec (by omega) most (by decide : 15 < 16) low
  refine ⟨buf.reverse, ?_, by simpa using length, numeral⟩
  simp [printint, done]

/-- The digits of a number with its sign. -/
def Signed (x : Int) (s : List Char) : Prop :=
  if x < 0 then ∃ t, s = '-' :: t ∧ Numeral 10 (-x).toNat t else Numeral 10 x.toNat s

theorem printint_signed (xx : BitVec 32) :
    ∃ s, printint xx 10 true = some s ∧ s.length ≤ 16 ∧ Signed xx.toInt s := by
  have sign := xx.toInt_eq_toNat_cond
  by_cases neg : xx.toInt < 0
  · have magnitude : (-xx).toNat = (-xx.toInt).toNat := by
      rw [BitVec.toNat_neg]
      split at sign <;> omega
    have low : (-xx).toNat < 10 ^ (9 + 1) := by
      rw [magnitude]
      split at sign <;> omega
    obtain ⟨buf, done, length, numeral⟩ := digitLoop_spec (by decide) (by decide)
      (by decide : 9 < 16) low
    refine ⟨'-' :: buf.reverse, ?_, by simp; omega, ?_⟩
    · have room : buf.length < 16 := by omega
      simp [printint, neg, -BitVec.toNat_neg, done, room]
    rw [Signed, if_pos neg, ← magnitude]
    exact ⟨_, rfl, numeral⟩
  have plain : printint xx 10 true = printint xx 10 false := by simp [printint, neg]
  have same : xx.toInt.toNat = xx.toNat := by split at sign <;> omega
  obtain ⟨s, done, length, numeral⟩ := printint_unsigned xx (by decide : 4 ≤ 10) (by decide)
  refine ⟨s, plain.trans done, length, ?_⟩
  rwa [Signed, if_neg neg, same]

theorem ptrLoop_spec (n : Nat) : ∀ x : BitVec 64, n ≤ 16 → (ptrLoop n x).length = n ∧
    (∀ c ∈ ptrLoop n x, digits.idxOf c < 16) ∧
      value 16 (ptrLoop n x) = x.toNat / 2 ^ (64 - 4 * n) := by
  induction n with
  | zero => exact fun x _ => ⟨rfl, nofun, (Nat.div_eq_of_lt x.isLt).symm⟩
  | succ n ih =>
    intro x low
    obtain ⟨length, valid, reads⟩ := ih (x <<< 4) (by omega)
    have top : (x >>> 60).toNat =
        x.toNat / 2 ^ 60 := by rw [BitVec.toNat_ushiftRight, Nat.shiftRight_eq_div_pow]
    have small : (x >>> 60).toNat < 16 := by
      have := x.isLt
      omega
    have index := idxOf_digit small
    refine ⟨congrArg (· + 1) length, ?_, ?_⟩
    · rw [ptrLoop, List.forall_mem_cons, index]
      exact ⟨small, valid⟩
    have rest : (x <<< 4).toNat = x.toNat % 2 ^ 60 * 2 ^ 4 := by
      rw [BitVec.toNat_shiftLeft, Nat.shiftLeft_eq]
      omega
    obtain ⟨e, he⟩ : ∃ e, 60 = e + 4 * n := ⟨60 - 4 * n, by omega⟩
    have power : 2 ^ 60 = 2 ^ e * 16 ^ n := by
      rw [he, pow_add, pow_mul]
      norm_num
    have split := Nat.mod_add_div x.toNat (2 ^ 60)
    rw [ptrLoop, value, List.reverse_cons, List.map_append, Nat.ofDigits_append, ← value, reads,
      rest, List.map_singleton,
      index, Nat.ofDigits_singleton, List.length_map, List.length_reverse, length, top,
      show 64 - 4 * n = e + 4 by omega, show 64 - 4 * (n + 1) = e by omega, pow_add,
      Nat.mul_div_mul_right _ _ (by decide : 0 < 2 ^ 4)]
    nth_rewrite 3 [← split]
    rw [power, Nat.mul_assoc, Nat.add_mul_div_left _ _ (by positivity)]

def Prints (conversion : Char) (w : BitVec 64) (s : List Char) : Prop :=
  ∀ fmt args, vprintf false ('%' :: conversion :: fmt) (.word w :: args) = (vprintf false fmt args).map (s ++ ·)

/-- A conversion writes only one thing. -/
theorem Prints.unique {c : Char} {w : BitVec 64} {s' : List Char} (first : Prints c w s)
    (second : Prints c w s') :
    s = s' := by
  have same := (first [] []).symm.trans (second [] [])
  simpa [vprintf] using same

/-- `%d` prints an `int`, `%x` an `unsigned int` and `%p` a pointer. `%l` prints its argument if
and only if that fits in an `uint`. -/
theorem printf_numbers (w : BitVec 64) :
    (∃ s, Prints 'd' w s ∧ s.length ≤ 16 ∧ Signed (w.setWidth 32).toInt s) ∧
    (∃ s, Prints 'x' w s ∧ s.length ≤ 16 ∧ Numeral 16 (w.setWidth 32).toNat s) ∧
    (∃ s, Prints 'p' w ('0' :: 'x' :: s) ∧ s.length = 16 ∧ (∀ c ∈ s, digits.idxOf c < 16) ∧
      value 16 s = w.toNat) ∧
    ((∃ s, Prints 'l' w s ∧ s.length ≤ 16 ∧ Numeral 10 w.toNat s) ↔ w.toNat < 2 ^ 32) := by
  refine ⟨?_, ?_, ?_, ?_⟩
  · obtain ⟨s, done, right⟩ := printint_signed (w.setWidth 32)
    exact ⟨s, fun fmt args => by simp [vprintf, done], right⟩
  · obtain ⟨s, done, right⟩ := printint_unsigned (w.setWidth 32) (by decide : 4 ≤ 16) le_rfl
    exact ⟨s, fun fmt args => by simp [vprintf, done], right⟩
  · obtain ⟨length, valid, reads⟩ := ptrLoop_spec 16 w le_rfl
    exact ⟨ptrLoop 16 w, fun fmt args => by simp [vprintf, printptr], length,
      valid, by simpa using reads⟩
  obtain ⟨s, done, right⟩ := printint_unsigned (w.setWidth 32) (by decide : 4 ≤ 10) (by decide)
  have prints : Prints 'l' w s := fun fmt args => by simp [vprintf, done]
  rw [BitVec.toNat_setWidth] at right
  constructor
  · rintro ⟨s', prints', -, numeral⟩
    -- what is printed reads back as the low 32 bits
    rw [prints'.unique prints] at numeral
    rw [← numeral.1, right.2.1]
    exact Nat.mod_lt _ (by decide)
  intro small
  rw [Nat.mod_eq_of_lt small] at right
  exact ⟨s, prints, right⟩

theorem printf_page : ∃ s, vprintf false ['%', 'l'] [.word 4096] = some s ∧ Numeral 10 4096 s := by
  obtain ⟨s, done, -, right⟩ := (printf_numbers 4096).2.2.2.mpr (by decide)
  exact ⟨s, by simpa [vprintf] using done [] [], right⟩

/-- `%l` prints 4 GiB as 0. -/
theorem printf_large : ∃ (w : BitVec 64) (s : List Char),
    vprintf false ['%', 'l'] [.word w] = some s ∧ value 10 s ≠ w.toNat :=
  ⟨2 ^ 32, ['0'], by decide, by decide⟩

end Xv6.Printf
