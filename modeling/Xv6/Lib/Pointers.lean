import Mathlib.Data.Fintype.Basic
import Mathlib.Data.Finset.Card
import Mathlib.Logic.Function.Basic

/-!
# Counting pointers

Variables of a finite set that may point to objects. A reference count is right when it
is the number of the variables that point to the object.
-/

namespace Xv6

variable {X H β : Type} [Fintype X] [DecidableEq X] [DecidableEq β]

def pointers (hold : X → Option H) (f : H → β) (b : β) : Finset X :=
  Finset.univ.filter fun x => (hold x).map f = some b

omit [DecidableEq X] in
@[simp] theorem mem_pointers {hold : X → Option H} {f : H → β} {b : β} {x : X} :
    x ∈ pointers hold f b ↔ ∃ h, hold x = some h ∧ f h = b := by
  simp [pointers]

omit [Fintype X] [DecidableEq X] in
/-- What one variable counts. -/
def points (f : H → β) (b : β) (h : Option H) : Nat := if h.map f = some b then 1 else 0

theorem card_pointers_update (hold : X → Option H) (f : H → β) (b : β) (x : X) (new : Option H) :
    (pointers (Function.update hold x new) f b).card + points f b (hold x) =
      (pointers hold f b).card + points f b new := by
  have others : (pointers (Function.update hold x new) f b).erase x =
      (pointers hold f b).erase x := by
    ext y
    rw [Finset.mem_erase, Finset.mem_erase, mem_pointers, mem_pointers]
    refine and_congr_right fun ne => ?_
    rw [Function.update_of_ne ne]
  have split : ∀ g : X → Option H, (pointers g f b).card =
      ((pointers g f b).erase x).card + points f b (g x) := by
    intro g
    unfold points
    split
    · rename_i on
      have mem : x ∈ pointers g f b := Finset.mem_filter.mpr ⟨Finset.mem_univ x, on⟩
      exact (Finset.card_erase_add_one mem).symm
    rename_i off
    have absent : x ∉ pointers g f b := fun mem => off (Finset.mem_filter.mp mem).2
    rw [Finset.erase_eq_of_notMem absent, Nat.add_zero]
  have before := split hold
  have after := split (Function.update hold x new)
  rw [Function.update_self, others] at after
  omega

omit [DecidableEq X] in
theorem card_pointers_pos {hold : X → Option H} {f : H → β} {x : X} {h : H}
    (at' : hold x = some h) :
    0 < (pointers hold f (f h)).card :=
  Finset.card_pos.mpr ⟨x, mem_pointers.mpr ⟨h, at', rfl⟩⟩

end Xv6
