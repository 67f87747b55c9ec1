import Mathlib.Tactic

/-!
# Sequential programs that show the states they pass through

`Prog σ ε α` is a program on a state `σ` that returns an `α` or stops with an
error `ε`. A run also lists the state after each atomic action, so that a
statement can speak of every state a run passes through (the machine may lose
power in any of them) and not only of the last one.

`wp inv err m post s` is the judgment the proofs use: run from `s`, every state
`m` passes through satisfies `inv`, an error satisfies `err`, and a normal end
satisfies `post`. Its rules follow the ways programs are put together.
-/

namespace Xv6

/-- The states after each atomic action of a run, and how the run ended. -/
structure Outcome (σ ε α : Type) where
  visited : List σ
  result : Except ε (α × σ)

/-- A program on a state `σ`. -/
def Prog (σ ε α : Type) : Type := σ → Outcome σ ε α

namespace Prog

variable {σ ε α β γ : Type}

protected def pure (a : α) : Prog σ ε α := fun s => ⟨[], .ok (a, s)⟩

protected def bind (m : Prog σ ε α) (next : α → Prog σ ε β) : Prog σ ε β := fun s =>
  match m s with
  | ⟨visited, .error e⟩ => ⟨visited, .error e⟩
  | ⟨visited, .ok (a, t)⟩ => ⟨visited ++ (next a t).visited, (next a t).result⟩

instance : Monad (Prog σ ε) where
  pure := Prog.pure
  bind := Prog.bind

/-- The current state. -/
def get : Prog σ ε σ := fun s => ⟨[], .ok (s, s)⟩

/-- Stop with an error. -/
def fail (e : ε) : Prog σ ε α := fun _ => ⟨[], .error e⟩

/-- One atomic action. -/
def act (f : σ → σ) : Prog σ ε Unit := fun s => ⟨[f s], .ok ((), f s)⟩

def forRange (lo : Nat) : Nat → (Nat → Prog σ ε Unit) → Prog σ ε Unit
  | 0, _ => pure ()
  | n + 1, body => do
    body lo
    forRange (lo + 1) n body

/-- Sequencing is associative. -/
theorem bind_assoc (m : Prog σ ε α) (f : α → Prog σ ε β) (g : β → Prog σ ε γ) :
    (m >>= f) >>= g = m >>= fun a => f a >>= g := by
  funext s
  show Prog.bind (Prog.bind m f) g s = Prog.bind m (fun a => Prog.bind (f a) g) s
  unfold Prog.bind
  rcases m s with ⟨visited, e | ⟨a, t⟩⟩
  · rfl
  dsimp only
  rcases f a t with ⟨visited', e | ⟨b, u⟩⟩
  · rfl
  simp only [List.append_assoc]

/-! ## The judgment -/

/-- Run from `s`, the states passed through satisfy `inv`, an error satisfies
`err` and a normal end satisfies `post`. -/
def wp (inv : σ → Prop) (err : ε → Prop) (m : Prog σ ε α) (post : α → σ → Prop) (s : σ) : Prop :=
  (∀ t ∈ (m s).visited, inv t) ∧
    match (m s).result with
    | .ok (a, t) => post a t
    | .error e => err e

variable {inv : σ → Prop} {err : ε → Prop} {m : Prog σ ε α} {post : α → σ → Prop} {s t : σ}

theorem wp.visited (h : wp inv err m post s) (mem : t ∈ (m s).visited) : inv t := h.1 t mem

variable {a : α}

/-- What a run that returns satisfies. -/
theorem wp.post_of_ok (h : wp inv err m post s) (ok : (m s).result = .ok (a, t)) : post a t := by
  have result := h.2
  rwa [ok] at result

/-- A program that meets no error returns. -/
theorem wp.exists_ok (h : wp inv (fun _ => False) m post s) :
    ∃ a t, (m s).result = .ok (a, t) ∧ post a t := by
  have result := h.2
  rcases hr : (m s).result with e | ⟨a, t⟩
  · rw [hr] at result
    exact result.elim
  rw [hr] at result
  exact ⟨a, t, rfl, result⟩

/-- Two postconditions of one run hold together. -/
theorem wp.and {post' : α → σ → Prop} (h : wp inv err m post s) (h' : wp inv err m post' s) :
    wp inv err m (fun a t => post a t ∧ post' a t) s := by
  refine ⟨h.1, ?_⟩
  have first := h.2
  have second := h'.2
  cases ended : (m s).result with
  | error e =>
    rw [ended] at first
    exact first
  | ok r =>
    rw [ended] at first second
    exact ⟨first, second⟩

variable {next : α → Prog σ ε β}

section

variable (ok : (m s).result = .ok (a, t))
include ok

/-- After a first part that returns, the second part runs from the state that is left. -/
theorem bind_of_ok : (m >>= next) s = ⟨(m s).visited ++ (next a t).visited, (next a t).result⟩ := by
  show Prog.bind m next s = _
  unfold Prog.bind
  rcases h : m s with ⟨states, e | ⟨a', t'⟩⟩
  · rw [h] at ok
    cases ok
  rw [h] at ok
  cases ok
  rfl

theorem visited_bind : ((m >>= next) s).visited = (m s).visited ++ (next a t).visited := by
  rw [bind_of_ok ok]

theorem result_bind : ((m >>= next) s).result = (next a t).result := by
  rw [bind_of_ok ok]

end

theorem wp_pure (h : post a s) : wp inv err (pure a : Prog σ ε α) post s :=
  ⟨fun _ mem => absurd mem List.not_mem_nil, h⟩

theorem wp_fail {e : ε} (h : err e) : wp inv err (fail e : Prog σ ε α) post s :=
  ⟨fun _ mem => absurd mem List.not_mem_nil, h⟩

/-- An atomic action has to keep the invariant. -/
theorem wp_act {f : σ → σ} {post : Unit → σ → Prop} (inside : inv (f s)) (h : post () (f s)) :
    wp inv err (act f : Prog σ ε Unit) post s := by
  refine ⟨fun t mem => ?_, h⟩
  rw [List.mem_singleton.mp mem]
  exact inside

theorem wp_get_bind {next : σ → Prog σ ε β} {post : β → σ → Prop} :
    wp inv err (get >>= next) post s ↔ wp inv err (next s) post s := Iff.rfl

/-- The rule for an atomic action that more follows. -/
theorem wp_act_bind {f : σ → σ} {next : Unit → Prog σ ε β} {post : β → σ → Prop} :
    wp inv err (act f >>= next) post s ↔ inv (f s) ∧ wp inv err (next ()) post (f s) := by
  show ((∀ t ∈ f s :: (next () (f s)).visited, inv t) ∧ _) ↔ _
  rw [List.forall_mem_cons, and_assoc]
  rfl

/-- The rule for a sequence: the second part starts from what the first one ends in. -/
theorem wp.bind {mid : α → σ → Prop} {post : β → σ → Prop}
    (first : wp inv err m mid s) (rest : ∀ a t, mid a t → wp inv err (next a) post t) :
    wp inv err (m >>= next) post s := by
  show wp inv err (Prog.bind m next) post s
  obtain ⟨visited, result⟩ := first
  unfold wp Prog.bind
  rcases h : m s with ⟨states, e | ⟨a, t⟩⟩
  · rw [h] at visited result
    exact ⟨visited, result⟩
  rw [h] at visited result
  obtain ⟨visited', result'⟩ := rest a t result
  refine ⟨fun u mem => ?_, result'⟩
  rcases List.mem_append.mp mem with early | late
  · exact visited u early
  exact visited' u late

/-- `wp.bind` with the middle assertion first, so that it can be left to unification. -/
theorem wp_seq (mid : α → σ → Prop) {post : β → σ → Prop}
    (first : wp inv err m mid s) (rest : ∀ a t, mid a t → wp inv err (next a) post t) :
    wp inv err (m >>= next) post s :=
  first.bind rest

/-- A part about which nothing has to be known. -/
theorem wp_skip {post : β → σ → Prop}
    (rest : ∀ a t, wp (fun _ => True) (fun _ => True) (next a) post t) :
    wp (fun _ => True) (fun _ => True) (m >>= next) post s := by
  have any : wp (fun _ => True) (fun _ => True) m (fun _ _ => True) s := by
    refine ⟨fun _ _ => trivial, ?_⟩
    cases (m s).result <;> trivial
  exact wp_seq _ any fun a t _ => rest a t

/-- The postcondition may be weakened. -/
theorem wp.mono {post' : α → σ → Prop} (h : wp inv err m post s)
    (weaken : ∀ a t, post a t → post' a t) : wp inv err m post' s := by
  refine ⟨h.1, ?_⟩
  have result := h.2
  rcases hr : (m s).result with e | ⟨a, t⟩
  · rwa [hr] at result
  rw [hr] at result
  exact weaken a t result

/-- So may the invariant and the errors that are allowed. -/
theorem wp.weaken {inv' : σ → Prop} {err' : ε → Prop} (h : wp inv err m post s)
    (visited : ∀ t, inv t → inv' t) (errors : ∀ e, err e → err' e) : wp inv' err' m post s := by
  refine ⟨fun t mem => visited t (h.1 t mem), ?_⟩
  have result := h.2
  rcases hr : (m s).result with e | ⟨a, t⟩
  · rw [hr] at result
    exact errors e result
  rwa [hr] at result

/-- From `s`, the program returns `a` and does nothing else. -/
def Returns (m : Prog σ ε α) (a : α) (s : σ) : Prop := m s = ⟨[], .ok (a, s)⟩

/-- A part that only returns a value may be replaced by it. -/
theorem Returns.bind (h : Returns m a s) : (m >>= next) s = next a s := by
  show Prog.bind m next s = _
  unfold Prog.bind
  rw [show m s = _ from h]
  rfl

theorem Returns.seq {b : β} (first : Returns m a s) (second : Returns (next a) b s) :
    Returns (m >>= next) b s :=
  (first.bind).trans second

/-- `Returns.bind` under `wp`. -/
theorem Returns.wp_bind {post : β → σ → Prop} (h : Returns m a s) :
    wp inv err (m >>= next) post s ↔ wp inv err (next a) post s := by
  unfold wp
  rw [h.bind]

/-- The rule for a test that ends in an error. -/
theorem wp_guard {c : Prop} [Decidable c] {e : ε} {rest : Unit → Prog σ ε α} (stop : c → err e)
    (go : ¬ c → wp inv err (rest ()) post s) :
    wp inv err (if c then fail e >>= rest else rest ()) post s := by
  split
  · rename_i yes
    exact ⟨fun _ mem => absurd mem List.not_mem_nil, stop yes⟩
  rename_i no
  exact go no

/-- The rule for a loop, with `keep i` before round `i`. -/
theorem wp_forRange {body : Nat → Prog σ ε Unit} (keep : Nat → σ → Prop) {n : Nat} :
    ∀ {lo : Nat} {s : σ}, keep lo s →
      (∀ i t, lo ≤ i → i < lo + n → keep i t → wp inv err (body i) (fun _ => keep (i + 1)) t) →
      wp inv err (forRange lo n body) (fun _ => keep (lo + n)) s := by
  induction n with
  | zero =>
    intro lo s start _
    exact wp_pure start
  | succ n ih =>
    intro lo s start step
    refine wp.bind (step lo s (le_refl _) (by omega) start) fun _ t kept => ?_
    have rest := ih kept fun i u low high => step i u (by omega) (by omega)
    have index : lo + 1 + n = lo + (n + 1) := by omega
    rwa [index] at rest

end Prog

end Xv6
