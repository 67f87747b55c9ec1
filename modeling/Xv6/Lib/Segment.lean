import Mathlib.Data.List.Basic
import Mathlib.Logic.Function.Basic

/-!
# Segments of linked lists

A list of nodes lies in memory as a segment from `a` to `e` if following `next`
from `a` visits the keys of the nodes in order and then arrives at `e`. A
circular list is a segment that ends where it began.
-/

namespace Xv6

variable {α β : Type}

/-- Following `next` from `a` visits the nodes of the list and arrives at `e`. -/
def Segment (key : β → α) (next : α → α) : α → List β → α → Prop
  | a, [], e => a = e
  | a, x :: l, e => key x = a ∧ Segment key next (next a) l e

namespace Segment

variable {key : β → α} {next next' : α → α} {a e : α} {x : β} {l l' : List β}

theorem append_iff :
    Segment key next a (l ++ l') e ↔ ∃ m, Segment key next a l m ∧ Segment key next m l' e := by
  induction l generalizing a with
  | nil =>
    constructor
    · exact fun seg => ⟨a, rfl, seg⟩
    rintro ⟨m, rfl, seg⟩
    exact seg
  | cons x l ih =>
    constructor
    · rintro ⟨eq, seg⟩
      obtain ⟨m, first, second⟩ := ih.1 seg
      exact ⟨m, ⟨eq, first⟩, second⟩
    rintro ⟨m, ⟨eq, first⟩, second⟩
    exact ⟨eq, ih.2 ⟨m, first, second⟩⟩

theorem split_iff : Segment key next a (l ++ x :: l') e ↔
    Segment key next a l (key x) ∧ Segment key next (next (key x)) l' e := by
  rw [append_iff]
  constructor
  · rintro ⟨m, first, eq, second⟩
    rw [eq]
    exact ⟨first, second⟩
  rintro ⟨first, second⟩
  exact ⟨key x, first, rfl, second⟩

theorem congr (seg : Segment key next a l e) (same : ∀ x ∈ l, next' (key x) = next (key x)) :
    Segment key next' a l e := by
  induction l generalizing a with
  | nil => exact seg
  | cons x l ih =>
    obtain ⟨eq, rest⟩ := seg
    refine ⟨eq, ?_⟩
    rw [← eq, same x List.mem_cons_self, eq]
    exact ih rest fun y mem => same y (List.mem_cons_of_mem x mem)

end Segment

end Xv6
