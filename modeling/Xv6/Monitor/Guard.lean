import Xv6.Monitor.Rules

/-!
# Data that is in order while the lock is free

The rule of a monitor: what `acquire` finds, `release` and `sleep` leave behind.
-/

namespace Xv6.Monitor

open Function renaming update → upd, update_self → upd_self, update_of_ne → upd_ne

variable {P σ Chan L W K : Type} {free : σ → Prop} {holds : L → σ → Prop}

/-- `free` is left behind where `lk` is given back, and `holds` is true where the code goes on. -/
@[simp] def Act.keeps (free : σ → Prop) (holds : L → σ → Prop) (d : σ) : Act σ Chan L W → Prop
  | .set d' next => holds next d'
  | .wakeup _ next => holds next d
  | .sleep _ next => free d ∧ ∀ d', free d' → holds next d'
  | .killed yes no => holds yes d ∧ holds no d
  | .release _ => free d

structure Code.Guards (code : Code P σ Chan L W K) (free : σ → Prop) (holds : L → σ → Prop) : Prop where
  entry : ∀ {x w f l}, code.entry x w f = some l → ∀ d, free d → holds l d
  body : ∀ {l d}, holds l d → (code.body l d).keeps free holds d

/-- What a thread knows, here or where it goes on once it has `lk`. -/
@[simp] def Phase.guards (free : σ → Prop) (holds : L → σ → Prop) (d : σ) : Phase P Chan L W → Prop
  | out _ | kill _ _ | killing _ _ | killed _ _ => True
  | code l | scan _ _ l | test _ _ _ l | tested _ _ _ l | ask l _ _ | asking l _ _ | asked l => holds l d
  | sleep _ l | unlock _ l => free d ∧ ∀ d', free d' → holds l d'
  | enter l | setChan _ l | park _ l | sched _ l | off _ l | tidy l | relock l => ∀ d', free d' → holds l d'

structure Guarded (free : σ → Prop) (holds : L → σ → Prop) (s : State P σ Chan L W) : Prop where
  idle : s.lk = none → free s.data
  here : ∀ x, (s.phase x).guards free holds s.data

variable {code : Code P σ Chan L W K} {s t : State P σ Chan L W} {x : P}

theorem Guarded.holder (h : Guarded free holds s) (inv : Inv code s) (held : s.lk = some x) :
    free s.data ∨ ∃ l, holds l s.data := by
  have inside := (inv.lk x).mp held
  have mine := h.here x
  cases at' : s.phase x <;> simp_all
  all_goals exact .inr ⟨_, mine⟩

variable [DecidableEq P] [DecidableEq Chan] {table : List P} {phase : Phase P Chan L W}

section

variable (h : Guarded free holds s) (inv : Inv code s)
include h inv

theorem Guarded.keep (data : (s.phase x).inside ∨ t.data = s.data)
    (moves : t.phase = upd s.phase x phase) (mine : phase.guards free holds t.data)
    (idle : t.lk = none → free t.data) : Guarded free holds t := by
  refine ⟨idle, fun y => ?_⟩
  rw [moves]
  by_cases eq : y = x
  · rw [eq, upd_self]
    exact mine
  rw [upd_ne eq]
  have yours := h.here y
  rcases data with inside | same
  · -- the others do not have `lk`, so what they know is not about the data
    have outside : ¬(s.phase y).inside := fun its => eq (inv.alone inside its)
    cases at' : s.phase y <;> simp_all
  rw [same]
  exact yours

theorem Guarded.exec (g : code.Guards free holds) {l : L} (at' : s.phase x = .code l) :
    Guarded free holds (s.exec table x l (code.body l s.data)) := by
  have inside : (s.phase x).inside := by rw [at']; trivial
  have held := (inv.lk x).mpr inside
  have mine := h.here x
  rw [at'] at mine
  have kept := g.body mine
  cases act : code.body l s.data with
  | release w =>
    rw [act] at kept
    exact h.keep inv (.inr rfl) rfl trivial fun _ => kept
  | killed yes no => exact h.keep inv (.inr rfl) rfl mine h.idle
  | _ =>
    rw [act] at kept
    refine h.keep inv (.inl inside) rfl kept fun none => ?_
    cases held.symm.trans none

theorem Guarded.step (g : code.Guards free holds) (step : Trans code table s x t) :
    Guarded free holds t := by
  have mine := h.here x
  have asked := inv.asked x
  cases step with
  | code at' => exact h.exec inv g at'
  | call at' entry => exact h.keep inv (.inr rfl) rfl (g.entry entry) h.idle
  | enter at' none =>
    rw [at'] at mine
    exact h.keep inv (.inr rfl) rfl (mine _ (h.idle none)) (by simp)
  | unlock at' =>
    rw [at'] at mine
    exact h.keep inv (.inr rfl) rfl mine.2 fun _ => mine.1
  | @asking l yes no at' =>
    rw [at'] at mine asked
    have both := g.body mine
    rw [asked] at both
    refine h.keep inv (.inr rfl) rfl ?_ h.idle
    split
    · exact both.1
    exact both.2
  | _ => exact h.keep inv (.inr rfl) rfl (by simp_all) h.idle

end

theorem State.Reachable.guarded {w : P → W} {data : σ}
    {allow : State P σ Chan L W → Action P K → Prop} (g : code.Guards free holds)
    (init : free data) (run : Reachable code table w data allow s) :
    Guarded free holds s := by
  induction run with
  | init => exact ⟨fun _ => init, fun _ => trivial⟩
  | step run _ stepped ih => exact ih.step run.inv g (.of_step stepped)

end Xv6.Monitor
