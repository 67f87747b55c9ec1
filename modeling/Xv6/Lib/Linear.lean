import Mathlib.Algebra.BigOperators.Fin
import Mathlib.Tactic

/-!
# Programs that take resources and give them back

`Task R E α` is a program that takes resources from a pool, which may have none, gives
them back, and returns an `α` or fails. Everything else it does is pure, so that programs
running at the same time meet only where they take and give.

`Runs ok m post held` is the judgment the proofs use: a program that holds `held` gives
back only what it holds, does not fail, and ends with a result and with resources that
satisfy `post`, whatever the pool does. The pool hands out resources that are `ok` and
that the program does not hold.
-/

namespace Xv6

open Multiset (nodup_cons mem_cons le_cons_self cons_coe cons_add add_cons mem_add)

inductive Task (R E α : Type)
  | done (a : α)
  | fail (e : E)
  | take (next : Option R → Task R E α)
  | give (r : R) (next : Task R E α)

namespace Task

variable {R E α β : Type}

protected def bind : Task R E α → (α → Task R E β) → Task R E β
  | done a, f => f a
  | fail e, _ => fail e
  | take next, f => take fun r => (next r).bind f
  | give r next, f => give r (next.bind f)

instance : Monad (Task R E) where
  pure := done
  bind := Task.bind

/-- What a program that never looks at its resources may assume of them. -/
structure Valid (ok : R → Prop) (held : Multiset R) : Prop where
  nodup : held.Nodup
  ok : ∀ r ∈ held, ok r

variable {ok : R → Prop} {held rest : Multiset R} {post : α → Multiset R → Prop}

theorem Valid.cons {r : R} (valid : Valid ok held) (good : ok r) (new : r ∉ held) :
    Valid ok (r ::ₘ held) := by
  refine ⟨nodup_cons.mpr ⟨new, valid.nodup⟩, ?_⟩
  intro r' mem
  rcases mem_cons.mp mem with rfl | mem
  · exact good
  exact valid.ok r' mem

theorem Valid.of_le (valid : Valid ok held) (le : rest ≤ held) : Valid ok rest :=
  ⟨Multiset.nodup_of_le le valid.nodup, fun r mem => valid.ok r (Multiset.mem_of_le le mem)⟩

/-- The same without what is known of the resources. -/
def wp (ok : R → Prop) : Task R E α → (α → Multiset R → Prop) → Multiset R → Prop
  | done a, post, held => post a held
  | fail _, _, _ => False
  | take next, post, held =>
    (next none).wp ok post held ∧ ∀ r, ok r → r ∉ held → (next (some r)).wp ok post (r ::ₘ held)
  | give r next, post, held => ∃ rest, held = r ::ₘ rest ∧ next.wp ok post rest

variable {m : Task R E α} {post' : α → Multiset R → Prop}

theorem wp.mono (h : m.wp ok post held) (weaken : ∀ a g, post a g → post' a g) :
    m.wp ok post' held := by
  induction m generalizing held with
  | done a => exact weaken a held h
  | fail e => exact h
  | take next ih => exact ⟨ih none h.1, fun r good new => ih (some r) (h.2 r good new)⟩
  | give r next ih =>
    obtain ⟨rest, rfl, h⟩ := h
    exact ⟨rest, rfl, ih h⟩

theorem wp_bind {f : α → Task R E β} {post : β → Multiset R → Prop}
    (h : m.wp ok (fun a g => (f a).wp ok post g) held) : (m.bind f).wp ok post held := by
  induction m generalizing held with
  | done a => exact h
  | fail e => exact h
  | take next ih => exact ⟨ih none h.1, fun r good new => ih (some r) (h.2 r good new)⟩
  | give r next ih =>
    obtain ⟨rest, rfl, h⟩ := h
    exact ⟨rest, rfl, ih h⟩

/-- What is held stays valid. -/
theorem wp.valid (h : m.wp ok post held) (valid : Valid ok held) :
    m.wp ok (fun a g => Valid ok g ∧ post a g) held := by
  induction m generalizing held with
  | done a => exact ⟨valid, h⟩
  | fail e => exact h
  | take next ih => exact ⟨ih none h.1 valid, fun r good new => ih (some r) (h.2 r good new) (valid.cons good new)⟩
  | give r next ih =>
    obtain ⟨rest, rfl, h⟩ := h
    exact ⟨rest, rfl, ih h (valid.of_le (le_cons_self rest r))⟩

structure Runs (ok : R → Prop) (m : Task R E α) (post : α → Multiset R → Prop) (held : Multiset R) : Prop where
  wp : Valid ok held → m.wp ok post held

theorem runs_pure {a : α} (h : post a held) : Runs ok (pure a : Task R E α) post held := ⟨fun _ => h⟩

theorem runs_bind {f : α → Task R E β} {post : β → Multiset R → Prop}
    (h : Runs ok m (fun a g => Runs ok (f a) post g) held) : Runs ok (m >>= f) post held := by
  constructor
  intro valid
  apply wp_bind
  exact ((h.wp valid).valid valid).mono fun a g after => after.2.wp after.1

theorem runs_take {next : Option R → Task R E α} (none : Runs ok (next none) post held)
    (some : ∀ r, ok r → r ∉ held → Runs ok (next (some r)) post (r ::ₘ held)) :
    Runs ok (take next) post held :=
  ⟨fun valid => ⟨none.wp valid, fun r good new => (some r good new).wp (valid.cons good new)⟩⟩

theorem runs_give {r : R} {next : Task R E α} (h : Runs ok next post rest) :
    Runs ok (give r next) post (r ::ₘ rest) :=
  ⟨fun valid => ⟨rest, rfl, h.wp (valid.of_le (le_cons_self rest r))⟩⟩

theorem runs_of_valid (h : Valid ok held → Runs ok m post held) : Runs ok m post held :=
  ⟨fun valid => (h valid).wp valid⟩

theorem Runs.mono (h : Runs ok m post held) (weaken : ∀ a g, post a g → post' a g) :
    Runs ok m post' held :=
  ⟨fun valid => (h.wp valid).mono weaken⟩

theorem runs_forM {ι : Type} {body : ι → Task R E PUnit} {part : ι → Multiset R}
    (each : ∀ i (post : PUnit → Multiset R → Prop) rest, post ⟨⟩ rest →
      Runs ok (body i) post (part i + rest)) :
    ∀ (l : List ι) {post : PUnit → Multiset R → Prop}, post ⟨⟩ rest →
      Runs ok (l.forM body) post ((l.map part).sum + rest) := by
  intro l
  induction l with
  | nil =>
    intro post h
    rw [List.map_nil, List.sum_nil, zero_add]
    exact runs_pure h
  | cons i l ih =>
    intro post h
    rw [List.map_cons, List.sum_cons, add_assoc]
    apply runs_bind
    apply each
    exact ih h

/-- Run a program alone on a pool. -/
def run : Task R E α → List R → Option (α × List R)
  | done a, pool => some (a, pool)
  | fail _, _ => none
  | take next, [] => (next none).run []
  | take next, r :: pool => (next (some r)).run pool
  | give r next, pool => next.run (r :: pool)

/-- Run a program alone on a pool, where resources have contents: what was taken holds `taken`,
and giving back leaves `given`. -/
def runOn {P : Type} [DecidableEq R] (taken given : P) :
    Task R E α → List R → (R → P) → Option (α × List R × (R → P))
  | done a, pool, mem => some (a, pool, mem)
  | fail _, _, _ => none
  | take next, [], mem => (next none).runOn taken given [] mem
  | take next, r :: pool, mem => (next (some r)).runOn taken given pool (Function.update mem r taken)
  | give r next, pool, mem => next.runOn taken given (r :: pool) (Function.update mem r given)

variable {pool : List R}

theorem wp.runOn {P : Type} [DecidableEq R] {kept : Multiset R} (h : m.wp ok post held)
    (taken given : P) (mem : R → P) (new : R → Prop) (valid : Valid ok (↑pool + held + kept))
    (fresh : ∀ r ∈ held, new r → mem r = taken) :
    ∃ a pool' mem' held', m.runOn taken given pool mem = some (a, pool', mem') ∧ post a held' ∧
      (↑pool' + held' : Multiset R) = ↑pool + held ∧ (∀ r ∈ kept, mem' r = mem r) ∧
      ∀ r ∈ held', new r → mem' r = taken := by
  induction m generalizing held pool mem with
  | done a => exact ⟨a, pool, mem, held, rfl, h, rfl, fun _ _ => rfl, fresh⟩
  | fail e => exact h.elim
  | take next ih =>
    cases pool with
    | nil => exact ih none h.1 mem valid fresh
    | cons r pool =>
      have eq : (↑(r :: pool) + held : Multiset R) =
          ↑pool + (r ::ₘ held) := by rw [← cons_coe, cons_add, add_cons]
      rw [eq] at valid ⊢
      have nodup := valid.nodup
      rw [add_cons, cons_add, nodup_cons, mem_add, mem_add] at nodup
      push Not at nodup
      have good : ok r := valid.ok r (by simp)
      have fresh' : ∀ r' ∈ r ::ₘ held, new r' → Function.update mem r taken r' = taken := by
        intro r' mem' is
        by_cases eq : r' = r
        · rw [eq, Function.update_self]
        rw [Function.update_of_ne eq]
        exact fresh r' ((mem_cons.mp mem').resolve_left eq) is
      obtain ⟨a, pool', mem', held', ran, ends, total, same, filled⟩ :=
        ih (some r) (h.2 r good nodup.1.1.2) _ valid fresh'
      refine ⟨a, pool', mem', held', ran, ends, total, fun r' mem' => ?_, filled⟩
      rw [same r' mem', Function.update_of_ne]
      rintro rfl
      exact nodup.1.2 mem'
  | give r next ih =>
    obtain ⟨rest, rfl, h⟩ := h
    have eq : (↑pool + (r ::ₘ rest) : Multiset R) =
        ↑(r :: pool) + rest := by rw [← cons_coe, cons_add, add_cons]
    rw [eq] at valid ⊢
    have nodup := valid.nodup
    rw [← cons_coe, cons_add, cons_add, nodup_cons, mem_add,
      mem_add] at nodup
    push Not at nodup
    have fresh' : ∀ r' ∈ rest, new r' → Function.update mem r given r' = taken := by
      intro r' mem' is
      rw [Function.update_of_ne]
      · exact fresh r' (Multiset.mem_cons_of_mem mem') is
      rintro rfl
      exact nodup.1.1.2 mem'
    obtain ⟨a, pool', mem', held', ran, ends, total, same, filled⟩ := ih h _ valid fresh'
    refine ⟨a, pool', mem', held', ran, ends, total, fun r' mem' => ?_, filled⟩
    rw [same r' mem', Function.update_of_ne]
    rintro rfl
    exact nodup.1.2 mem'

theorem run_eq_runOn [DecidableEq R] :
    m.run pool = (m.runOn () () pool fun _ => ()).map fun r => (r.1, r.2.1) := by
  induction m generalizing pool with
  | done | fail => rfl
  | take next ih =>
    cases pool with
    | nil => exact ih none
    | cons r pool => exact ih (some r)
  | give r next ih => exact ih

/-- A run of a program alone ends as the judgment says, and no resource is lost. -/
theorem wp.run {pool' : List R} {a : α} (h : m.wp ok post held)
    (valid : Valid ok (↑pool + held)) (ran : m.run pool = some (a, pool')) :
    ∃ held', post a held' ∧ (↑pool' + held' : Multiset R) = ↑pool + held := by
  classical
  rw [← add_zero (↑pool + held)] at valid
  obtain ⟨a, pool', mem', held', ran', ends, total, -⟩ :=
    h.runOn () () (fun _ => ()) (fun _ => True) valid fun _ _ _ => rfl
  rw [run_eq_runOn, ran'] at ran
  cases ran
  exact ⟨held', ends, total⟩

end Task

end Xv6
