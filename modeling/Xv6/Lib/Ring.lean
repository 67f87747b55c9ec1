import Mathlib.Tactic
import Mathlib.Data.Nat.ModEq

/-!
# Rings with free-running counters

An array of `n` cells that holds the last part of a history: entry `k` of the history, counted from
the start, is in cell `k % n`. The positions are kept in machine words that count without end and
wrap; as long as two positions are close, their words tell them apart.
-/

namespace Xv6.Ring

/-! ## Words that count -/

/-- The word stands for a position. -/
def Counts (w : UInt32) (k : Nat) : Prop := w = UInt32.ofNat k

namespace Counts

variable {v w : UInt32} {j k n : Nat}

theorem zero : Counts 0 0 := rfl

theorem toNat (h : Counts w k) : w.toNat = k % 2 ^ 32 := by
  rw [h, UInt32.toNat_ofNat']

theorem add (h : Counts w k) (n : Nat) : Counts (w + UInt32.ofNat n) (k + n) := by
  rw [Counts, h, UInt32.ofNat_add]

theorem succ (h : Counts w k) : Counts (w + 1) (k + 1) := h.add 1

theorem pred (h : Counts w (k + 1)) : Counts (w - 1) k := by
  rw [Counts, h, UInt32.ofNat_add]
  simp

theorem eq_iff (hv : Counts v j) (hw : Counts w k) (low : j ≤ k) (close : k < j + 2 ^ 32) :
    v = w ↔ j = k := by
  constructor
  · intro eq
    have same : j % 2 ^ 32 = k % 2 ^ 32 := by rw [← hv.toNat, ← hw.toNat, eq]
    omega
  intro eq
  rw [hv, hw, eq]

theorem sub (hv : Counts v j) (hw : Counts w k) (low : j ≤ k) (close : k < j + 2 ^ 32) :
    (w - v).toNat = k - j := by
  rw [UInt32.toNat_sub, hv.toNat, hw.toNat]
  omega

theorem index (h : Counts w k) (divides : n ∣ 2 ^ 32) : w.toNat % n = k % n := by
  rw [h.toNat, Nat.mod_mod_of_dvd _ divides]

end Counts

/-! ## Cells -/

variable {α : Type}

theorem getElem?_of_isPrefix {start history : List α} (isPrefix : start <+: history) {k : Nat}
    {a : α} (found : start[k]? = some a) : history[k]? = some a := by
  obtain ⟨rest, rfl⟩ := isPrefix
  rw [List.getElem?_append_left (List.getElem?_eq_some_iff.mp found).1]
  exact found

def Holds (n : Nat) (cells : Nat → α) (history : List α) (low : Nat) : Prop :=
  ∀ k a, low ≤ k → history[k]? = some a → cells (k % n) = a

namespace Holds

variable {n low : Nat} {cells : Nat → α} {history : List α} {a : α}

theorem nil : Holds n cells [] low := by
  intro k a _ h
  simp at h

theorem cell_ne {j k : Nat} (lt : j < k) (close : k < j + n) : j % n ≠ k % n := by
  intro same
  have := Nat.ModEq.eq_of_abs_lt (show j ≡ k [MOD n] from same) (by rw [abs_lt]; omega)
  omega

section

variable (h : Holds n cells history low)
include h

theorem push (room : history.length < low + n) :
    Holds n (Function.update cells (history.length % n) a) (history ++ [a]) low := by
  intro k b after found
  rcases Nat.lt_trichotomy k history.length with lt | eq | gt
  · rw [List.getElem?_append_left lt] at found
    rw [Function.update_of_ne (cell_ne lt (by omega))]
    exact h k b after found
  · rw [eq, List.getElem?_concat_length] at found
    rw [eq, Function.update_self]
    exact Option.some.inj found
  rw [List.getElem?_eq_none (by rw [List.length_append, List.length_singleton]; omega)] at found
  cases found

theorem later {high : Nat} (le : low ≤ high) : Holds n cells history high :=
  fun k a after found => h k a (le.trans after) found

theorem of_prefix {start : List α} (isPrefix : start <+: history) : Holds n cells start low :=
  fun k a after found => h k a after (getElem?_of_isPrefix isPrefix found)

theorem read (lt : low < history.length) : history[low]? = some (cells (low % n)) := by
  rw [List.getElem?_eq_getElem lt, h low _ le_rfl (List.getElem?_eq_getElem lt)]

end

end Holds

theorem isPrefix_concat {taken history : List α} {a : α} (h : taken <+: history)
    (next : history[taken.length]? = some a) :
    taken ++ [a] <+: history := by
  obtain ⟨rest, rfl⟩ := h
  rw [List.getElem?_append_right le_rfl, Nat.sub_self] at next
  cases rest with
  | nil => cases next
  | cons b rest =>
    cases next
    exact ⟨rest, by simp⟩

end Xv6.Ring
