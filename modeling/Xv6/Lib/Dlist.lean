import Mathlib.Data.List.Nodup
import Mathlib.Logic.Function.Basic

/-!
# Circular doubly linked lists

A list through the fields `prev` and `next` of its elements and of a head, which is
the node `none`. `Ring k l` says that the links go round through the elements `l`
and back, in both directions.
-/

namespace Xv6

open Option (some_ne_none)
open List (mem_cons_self mem_cons_of_mem reverse_cons nodup_cons reverse_append)
open Function renaming update → upd, update_self → upd_self, update_of_ne → upd_ne

/-- Following `f` from `a` leads through `l` to `b`. -/
def Walk {α : Type} (f : Option α → Option α) : Option α → List α → Option α → Prop
  | a, [], b => f a = b
  | a, x :: l, b => f a = some x ∧ Walk f (some x) l b

/-- The last node on the way from `a` through `l`. -/
def lastNode {α : Type} : Option α → List α → Option α
  | a, [] => a
  | _, x :: l => lastNode (some x) l

/-- A loop that follows `f` until it meets the head or an element that passes the test. -/
def searchFrom {α : Type} (f : Option α → Option α) (test : α → Bool) : Nat → Option α → Option α
  | 0, _ => none
  | _ + 1, none => none
  | fuel + 1, some x => if test x then some x else searchFrom f test fuel (f (some x))

section Walk

variable {α : Type} {f g : Option α → Option α} {a b : Option α} {x : α} {l r : List α}

/-- A walk depends on the links of the nodes it passes. -/
theorem Walk.congr (walk : Walk f a l b) (first : g a = f a)
    (rest : ∀ y ∈ l, g (some y) = f (some y)) :
    Walk g a l b := by
  induction l generalizing a with
  | nil => exact first.trans walk
  | cons y l ih =>
    obtain ⟨next, walk⟩ := walk
    refine ⟨first.trans next, ih walk (rest y mem_cons_self) fun z mem => ?_⟩
    exact rest z (mem_cons_of_mem y mem)

/-- A walk through a node is two walks. -/
theorem walk_append : Walk f a (l ++ x :: r) b ↔ Walk f a l (some x) ∧ Walk f (some x) r b := by
  induction l generalizing a with
  | nil => exact Iff.rfl
  | cons y l ih =>
    show f a = some y ∧ Walk f (some y) (l ++ x :: r) b ↔ _
    rw [ih]
    exact and_assoc.symm

theorem lastNode_cases (a : Option α) (l : List α) :
    lastNode a l = a ∨ ∃ y ∈ l, lastNode a l = some y := by
  induction l generalizing a with
  | nil => exact .inl rfl
  | cons y l ih =>
    rcases ih (some y) with eq | ⟨z, mem, eq⟩
    · exact .inr ⟨y, mem_cons_self, eq⟩
    exact .inr ⟨z, mem_cons_of_mem y mem, eq⟩

theorem lastNode_concat (a : Option α) (l : List α) : lastNode a (l ++ [x]) = some x := by
  induction l generalizing a with
  | nil => rfl
  | cons y l ih => exact ih (some y)

theorem lastNode_none_reverse (l : List α) : lastNode none l.reverse = l.head? := by
  cases l with
  | nil => rfl
  | cons y l =>
    rw [reverse_cons, lastNode_concat]
    rfl

/-- The first node on the way. -/
theorem Walk.first (walk : Walk f a l none) : f a = l.head? := by
  cases l with
  | nil => exact walk
  | cons y l => exact walk.1

/-- A search along the links is a search in the list. -/
theorem Walk.searchFrom (walk : Walk f a l none) (test : α → Bool) {fuel : Nat}
    (enough : l.length < fuel) :
    searchFrom f test fuel (f a) = l.find? test := by
  induction l generalizing a fuel with
  | nil =>
    rw [show f a = none from walk]
    cases fuel with
    | zero => rfl
    | succ fuel => rfl
  | cons y l ih =>
    obtain ⟨next, walk⟩ := walk
    obtain ⟨fuel, rfl⟩ : ∃ m, fuel = m + 1 := ⟨fuel - 1, by simp at enough; omega⟩
    rw [next, Xv6.searchFrom, List.find?_cons, ih walk (by simp at enough; omega)]
    cases test y <;> rfl

variable [DecidableEq α]

/-- Changing the last link changes where the walk ends. -/
theorem Walk.redirect (walk : Walk f a l b) (start : ∀ y ∈ l, a ≠ some y) (nodup : l.Nodup)
    (c : Option α) : Walk (upd f (Xv6.lastNode a l) c) a l c := by
  induction l generalizing a with
  | nil => exact upd_self ..
  | cons y l ih =>
    obtain ⟨next, walk⟩ := walk
    obtain ⟨absent, nodup⟩ := nodup_cons.mp nodup
    have ne : a ≠ Xv6.lastNode (some y) l := by
      rcases lastNode_cases (some y) l with eq | ⟨z, mem, eq⟩
      · rw [eq]
        exact start y mem_cons_self
      rw [eq]
      exact start z (mem_cons_of_mem y mem)
    refine ⟨(upd_ne ne _ _).trans next, ih walk (fun z mem eq => ?_) nodup⟩
    rw [Option.some.inj eq] at absent
    exact absent mem

end Walk

/-- The fields of the nodes; the head is `none`. -/
structure Links (α : Type) where
  prev : Option α → Option α
  next : Option α → Option α

namespace Links

variable {α : Type} [DecidableEq α]

def setPrev (k : Links α) (n v : Option α) : Links α := { k with prev := upd k.prev n v }

def setNext (k : Links α) (n v : Option α) : Links α := { k with next := upd k.next n v }

/-- The head alone. -/
def empty : Links α := ⟨fun _ => none, fun _ => none⟩

/-- Take `x` out: `x->next->prev = x->prev` and `x->prev->next = x->next`. -/
def unlink (k : Links α) (x : α) : Links α :=
  let k := k.setPrev (k.next (some x)) (k.prev (some x))
  k.setNext (k.prev (some x)) (k.next (some x))

/-- Put `x` behind the head. -/
def insertFront (k : Links α) (x : α) : Links α :=
  let k := k.setNext (some x) (k.next none)
  let k := k.setPrev (some x) none
  let k := k.setPrev (k.next none) (some x)
  k.setNext none (some x)

/-- The links form one circular list through the head and the elements `l`. -/
structure Ring (k : Links α) (l : List α) : Prop where
  next : Walk k.next none l none
  prev : Walk k.prev none l.reverse none
  nodup : l.Nodup

section Ring

variable {k : Links α} {l r : List α} {x : α}

omit [DecidableEq α] in
/-- The ring of the sentinel alone. -/
theorem Ring.empty : Ring (Links.empty : Links α) [] := ⟨rfl, rfl, List.nodup_nil⟩

omit [DecidableEq α] in
/-- The links of a node lead to its neighbours in the list. -/
theorem Ring.neighbours (ring : Ring k (l ++ x :: r)) :
    k.prev (some x) = lastNode none l ∧ k.next (some x) = lastNode none r.reverse := by
  have next := (walk_append.mp ring.next).2.first
  have back := ring.prev
  rw [reverse_append, reverse_cons, List.append_assoc, List.singleton_append] at back
  have prev := (walk_append.mp back).2.first
  refine ⟨?_, by rw [next, lastNode_none_reverse]⟩
  rw [prev, ← lastNode_none_reverse, List.reverse_reverse]

/-- A node is left out by the link before it. -/
theorem bypass {f : Option α → Option α} (walk : Walk f none (l ++ x :: r) none)
    (nodup : (l ++ x :: r).Nodup) :
    Walk (upd f (lastNode none l) (f (some x))) none (l ++ r) none := by
  obtain ⟨left, right⟩ := walk_append.mp walk
  have nodup' := List.nodup_append.mp nodup
  have before := left.redirect nofun nodup'.1 (f (some x))
  have apart : ∀ y ∈ r, upd f (lastNode none l) (f (some x)) (some y) = f (some y) := by
    intro y mem
    refine upd_ne ?_ _ _
    rcases lastNode_cases none l with eq | ⟨z, mem', eq⟩
    · rw [eq]
      nofun
    rw [eq]
    intro h
    exact nodup'.2.2 z mem' y (mem_cons_of_mem x mem) (Option.some.inj h).symm
  cases r with
  | nil =>
    rw [List.append_nil]
    rw [show f (some x) = none from right] at before ⊢
    exact before
  | cons y r =>
    rw [walk_append]
    rw [right.1] at before apart ⊢
    refine ⟨before, right.2.congr (apart y mem_cons_self) fun z mem => ?_⟩
    exact apart z (mem_cons_of_mem y mem)

theorem Ring.unlink (ring : Ring k (l ++ x :: r)) : Ring (k.unlink x) (l ++ r) := by
  obtain ⟨prev, next⟩ := ring.neighbours
  have apart : lastNode none r.reverse ≠ some x := by
    have nodup := (nodup_cons.mp (List.nodup_append.mp ring.nodup).2.1).1
    rcases lastNode_cases none r.reverse with eq | ⟨z, mem, eq⟩
    · rw [eq]
      nofun
    rw [eq]
    rintro ⟨⟩
    exact nodup (List.mem_reverse.mp mem)
  have prev' : (k.unlink x).prev = upd k.prev (lastNode none r.reverse) (k.prev (some x)) := by
    rw [← next]
    rfl
  have next' : (k.unlink x).next = upd k.next (lastNode none l) (k.next (some x)) := by
    show upd k.next (upd k.prev (k.next (some x)) (k.prev (some x)) (some x)) (k.next (some x)) = _
    rw [next, upd_ne apart.symm, prev]
  have back := ring.prev
  rw [reverse_append, reverse_cons, List.append_assoc, List.singleton_append] at back
  have turned : (r.reverse ++ x :: l.reverse).Nodup := by
    rw [← List.singleton_append, ← List.append_assoc, ← reverse_cons, ← reverse_append]
    exact List.nodup_reverse.mpr ring.nodup
  refine ⟨?_, ?_, ?_⟩
  · rw [next']
    exact bypass ring.next ring.nodup
  · rw [prev', reverse_append]
    exact bypass back turned
  exact ring.nodup.sublist (List.Sublist.append_left (List.sublist_cons_self x r) l)

theorem Ring.insertFront (ring : Ring k l) (absent : x ∉ l) : Ring (k.insertFront x) (x :: l) := by
  have first : k.next none =
      lastNode none l.reverse := by rw [ring.next.first, lastNode_none_reverse]
  have next' : (k.insertFront x).next = upd (upd k.next (some x) (k.next none)) none (some x) := rfl
  have prev' : (k.insertFront x).prev = upd (upd k.prev (some x) none) (lastNode none l.reverse)
      (some x) := by
    show upd (upd k.prev (some x) none) (upd k.next (some x) (k.next none) none) (some x) = _
    rw [upd_ne (some_ne_none x).symm, first]
  refine ⟨?_, ?_, nodup_cons.mpr ⟨absent, ring.nodup⟩⟩
  · rw [next']
    refine ⟨upd_self .., ?_⟩
    have start : Walk (upd (upd k.next (some x) (k.next none)) none (some x)) (some x) l none := by
      cases l with
      | nil =>
        show upd (upd k.next (some x) (k.next none)) none (some x) (some x) = none
        rw [upd_ne (some_ne_none _), upd_self]
        exact ring.next
      | cons y l =>
        have ne : some y ≠ some x := fun h => absent (Option.some.inj h ▸ mem_cons_self)
        refine ⟨?_, ring.next.2.congr ?_ fun z mem => ?_⟩
        · rw [upd_ne (some_ne_none _), upd_self]
          exact ring.next.1
        · rw [upd_ne (some_ne_none _), upd_ne ne]
        rw [upd_ne (some_ne_none _), upd_ne]
        exact fun h => absent (Option.some.inj h ▸ mem_cons_of_mem y mem)
    exact start
  rw [prev', reverse_cons, walk_append]
  have away : Walk (upd k.prev (some x) none) none l.reverse none := by
    refine ring.prev.congr (upd_ne (some_ne_none x).symm _ _) fun y mem => upd_ne ?_ _ _
    exact fun h => absent (Option.some.inj h ▸ List.mem_reverse.mp mem)
  refine ⟨away.redirect nofun (List.nodup_reverse.mpr ring.nodup) (some x), ?_⟩
  show upd (upd k.prev (some x) none) (lastNode none l.reverse) (some x) (some x) = none
  rw [upd_ne, upd_self]
  rcases lastNode_cases none l.reverse with eq | ⟨z, mem, eq⟩
  · rw [eq]
    nofun
  rw [eq]
  exact fun h => absent (Option.some.inj h ▸ List.mem_reverse.mp mem)

theorem Ring.moveFront (ring : Ring k l) (mem : x ∈ l) :
    ∃ l', Ring ((k.unlink x).insertFront x) l' ∧ l'.Perm l := by
  obtain ⟨left, right, rfl⟩ := List.append_of_mem mem
  refine ⟨x :: (left ++ right), ring.unlink.insertFront ?_, List.perm_middle.symm⟩
  have nodup := (List.perm_middle.nodup_iff).mp ring.nodup
  exact (nodup_cons.mp nodup).1

end Ring

end Links

end Xv6
