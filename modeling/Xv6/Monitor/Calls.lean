import Xv6.Monitor.Rules

/-!
# What each call did

Where the data keeps a record of who did what, each entry has the tag of a call: the thread, and how
many calls it had finished before. A `Ledger` says what the record has to show for a call that is
done, for one under way and for one that was never made; that every call of every thread is as it
should be is kept by steps that add only entries of the thread's own call.
-/

namespace Xv6.Monitor

variable {P σ Chan L W K D : Type}

/-- A call: the thread, and how many calls it had finished before. -/
abbrev Tag (P : Type) := P × Nat

/-- The thread that runs, and the calls that it has finished. -/
structure Activation (P D : Type) where
  thread : P
  past : List D

def Activation.tag (f : Activation P D) : Tag P := (f.thread, f.past.length)

structure Ledger (P σ L D : Type) where
  frame : L → Activation P D
  /-- The record shows nothing for a call that was not made. -/
  fresh : σ → Tag P → Prop
  active : σ → L → Prop
  done : σ → Tag P → D → Prop
  /-- Only the call with this tag adds to the record. -/
  only : Tag P → σ → σ → Prop
  fresh_only : ∀ {tag other d d'}, only tag d d' → other ≠ tag → fresh d other → fresh d' other
  active_only : ∀ {tag l d d'}, only tag d d' → (frame l).tag ≠ tag → active d l → active d' l
  done_only : ∀ {tag other d d' e}, only tag d d' → other ≠ tag → done d other e → done d' other e

namespace Ledger

variable (k : Ledger P σ L D)

/-- The calls that a thread has finished. -/
def finished : Loc L (List D) → List D
  | .out past => past
  | .at l => (k.frame l).past

def started : Loc L (List D) → Nat
  | .out past => past.length
  | .at l => (k.frame l).past.length + 1

/-- The record shows what it should for every call of thread `x`. -/
structure Honest (d : σ) (x : P) (loc : Loc L (List D)) : Prop where
  own : ∀ l, loc = .at l → (k.frame l).thread = x
  fresh : ∀ n, k.started loc ≤ n → k.fresh d (x, n)
  past : ∀ n e, (k.finished loc)[n]? = some e → k.done d (x, n) e
  active : ∀ l, loc = .at l → k.active d l

variable {k} {d d' : σ} {x : P} {l l' : L}

theorem Honest.init (none : ∀ n, k.fresh d (x, n)) : k.Honest d x (.out []) :=
  ⟨nofun, fun n _ => none n, nofun, nofun⟩

theorem Honest.other {loc : Loc L (List D)} {tag : Tag P} (h : k.Honest d x loc)
    (only : k.only tag d d') (ne : x ≠ tag.1) : k.Honest d' x loc := by
  have differs : ∀ n, (x, n) ≠ tag := fun n eq => ne (congrArg Prod.fst eq)
  refine ⟨h.own, fun n later => k.fresh_only only (differs n) (h.fresh n later),
    fun n e found => k.done_only only (differs n) (h.past n e found), fun l here => ?_⟩
  refine k.active_only only ?_ (h.active l here)
  rw [Activation.tag, h.own l here]
  exact differs _

theorem Honest.move (h : k.Honest d x (.at l)) (frame : k.frame l' = k.frame l)
    (only : k.only (k.frame l).tag d d') (active : k.active d' l') : k.Honest d' x (.at l') := by
  have tag : (k.frame l).tag = (x, (k.frame l).past.length) := by rw [Activation.tag, h.own l rfl]
  have differs : ∀ n, n ≠ (k.frame l).past.length → (x, n) ≠ (k.frame l).tag := by
    intro n ne eq
    rw [tag] at eq
    exact ne (Prod.mk.inj eq).2
  refine ⟨?_, ?_, ?_, ?_⟩
  · rintro _ ⟨⟩
    rw [frame]
    exact h.own l rfl
  · intro n later
    rw [started, frame] at later
    exact k.fresh_only only (differs n (by omega)) (h.fresh n later)
  · intro n e found
    rw [finished, frame] at found
    have lt := (List.getElem?_eq_some_iff.mp found).1
    exact k.done_only only (differs n (by omega)) (h.past n e found)
  rintro _ ⟨⟩
  exact active

theorem Honest.finish {e : D} (h : k.Honest d x (.at l)) (done : k.done d (k.frame l).tag e) :
    k.Honest d x (.out ((k.frame l).past ++ [e])) := by
  refine ⟨nofun, ?_, ?_, nofun⟩
  · intro n later
    rw [started, List.length_append, List.length_singleton] at later
    exact h.fresh n later
  intro n e' found
  rw [finished] at found
  rcases Nat.lt_trichotomy n (k.frame l).past.length with lt | rfl | gt
  · rw [List.getElem?_append_left lt] at found
    exact h.past n e' found
  · rw [List.getElem?_concat_length] at found
    cases found
    rw [Activation.tag, h.own l rfl] at done
    exact done
  rw [List.getElem?_eq_none (by rw [List.length_append, List.length_singleton]; omega)] at found
  cases found

theorem Honest.enter {past : List D} (h : k.Honest d x (.out past)) (frame : k.frame l = ⟨x, past⟩)
    (active : k.fresh d (x, past.length) → k.active d l) : k.Honest d x (.at l) := by
  refine ⟨?_, ?_, ?_, ?_⟩
  · rintro _ ⟨⟩
    rw [frame]
  · intro n later
    rw [started, frame] at later
    exact h.fresh n ((Nat.le_succ _).trans later)
  · intro n e found
    rw [finished, frame] at found
    exact h.past n e found
  rintro _ ⟨⟩
  exact active (h.fresh past.length le_rfl)

theorem honest_update [DecidableEq P] {loc : P → Loc L (List D)} {dest : Loc L (List D)}
    {tag : Tag P} (all : ∀ y, k.Honest d y (loc y)) (only : k.only tag d d') (owner : tag.1 = x)
    (mine : k.Honest d' x dest) (y : P) :
    k.Honest d' y (Function.update loc x dest y) := by
  by_cases eq : y = x
  · rw [eq, Function.update_self]
    exact mine
  rw [Function.update_of_ne eq]
  exact (all y).other only (by rw [owner]; exact eq)

end Ledger

/-! ## Tagged entries -/

section Tagged

variable [DecidableEq P] {α : Type}

/-- The entries that one call added. -/
def moved (tag : Tag P) (moves : List (Tag P × α)) : List α := (moves.filter (·.1 = tag)).map Prod.snd

@[simp] theorem moved_nil (tag : Tag P) : moved tag ([] : List (Tag P × α)) = [] := rfl

@[simp] theorem moved_concat_self (tag : Tag P) (moves : List (Tag P × α)) (a : α) :
    moved tag (moves ++ [(tag, a)]) = moved tag moves ++ [a] := by
  simp [moved]

theorem moved_concat_of_ne {tag other : Tag P} (ne : tag ≠ other) (moves : List (Tag P × α))
    (a : α) :
    moved tag (moves ++ [(other, a)]) = moved tag moves := by
  simp [moved, List.filter_append, ne.symm]

end Tagged

end Xv6.Monitor
