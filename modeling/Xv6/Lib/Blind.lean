import Xv6.Lib.Prog

/-!
# Programs that do not see a part of the state

A program is blind to a change `f` of the state when, run from the changed state,
it does the same and ends in the changed state. What is proved of it in one state
then holds, up to the change, in the other.
-/

namespace Xv6.Prog

variable {σ ε α β : Type} {f : σ → σ} {m : Prog σ ε α} {s : σ}

def Blind (f : σ → σ) (m : Prog σ ε α) : Prop :=
  ∀ s, m (f s) = ⟨(m s).visited.map f, (m s).result.map fun r => (r.1, f r.2)⟩

theorem Blind.pure (a : α) : Blind f (pure a : Prog σ ε α) := fun _ => rfl

theorem Blind.fail (e : ε) : Blind f (fail e : Prog σ ε α) := fun _ => rfl

theorem Blind.act {g : σ → σ} (same : ∀ s, g (f s) = f (g s)) :
    Blind f (act g : Prog σ ε Unit) := by
  intro s
  show (⟨[g (f s)], .ok ((), g (f s))⟩ : Outcome σ ε Unit) = _
  rw [same]
  rfl

theorem Blind.bind {next : α → Prog σ ε β} (first : Blind f m) (rest : ∀ a, Blind f (next a)) :
    Blind f (m >>= next) := by
  intro s
  show Prog.bind m next (f s) =
    ⟨(Prog.bind m next s).visited.map f, (Prog.bind m next s).result.map fun r => (r.1, f r.2)⟩
  unfold Prog.bind
  rw [first s]
  rcases m s with ⟨visited, e | ⟨a, t⟩⟩
  · rfl
  show (⟨_, _⟩ : Outcome σ ε β) = _
  rw [rest a t]
  simp only [List.map_append]

theorem Blind.get {next : σ → Prog σ ε β} (same : ∀ s, next (f s) = next s)
    (rest : ∀ s, Blind f (next s)) :
    Blind f (Prog.get >>= next) := by
  intro s
  show next (f s) (f s) = ⟨(next s s).visited.map f, _⟩
  rw [same, rest s s]
  rfl

/-- What holds of a run from `s` holds, up to the change, of the run from `f s`. -/
theorem Blind.wp {inv : σ → Prop} {err : ε → Prop} {post : α → σ → Prop} (blind : Blind f m)
    (run : wp inv err m post s) :
    wp (fun _ => True) err m (fun a t => ∃ u, t = f u ∧ post a u) (f s) := by
  refine ⟨fun _ _ => trivial, ?_⟩
  have result := run.2
  rw [blind s]
  rcases ended : (m s).result with e | ⟨a, u⟩
  · rw [ended] at result
    exact result
  rw [ended] at result
  exact ⟨u, rfl, result⟩

end Xv6.Prog
