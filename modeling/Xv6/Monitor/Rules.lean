import Xv6.Monitor

/-!
# Who holds which lock, and rules for invariants

A thread has `lk` exactly while it is inside the module and not asleep, so that the data changes
only by its hand. `Reachable.rule` is the induction that data invariants need: `lk` makes each
step of the code one step on the data. `Reachable.sleepers` is the rule for lost wakeups: where
the code goes to sleep only if the condition of the channel holds, and wakes those that sleep
before it gives `lk` back after a change that ends the condition, a process that sleeps while `lk`
is free has its condition.
-/

namespace Xv6.Monitor

open Function renaming update → upd, update_self → upd_self, update_of_ne → upd_ne,
  update_eq_self → upd_eq_self

set_option linter.unusedSectionVars false

variable {P σ Chan L W K : Type}

namespace Phase

/-- The thread has `lk`. -/
@[simp] def inside : Phase P Chan L W → Prop
  | code _ | scan _ _ _ | test _ _ _ _ | tested _ _ _ _ | ask _ _ _ | asking _ _ _ | asked _ | sleep _ _
  | unlock _ _ => True
  | _ => False

/-- Thread `x` has the lock of process `q`. -/
@[simp] def owns (x q : P) : Phase P Chan L W → Prop
  | test _ r _ _ | tested _ r _ _ | killing r _ | killed r _ => r = q
  | asking _ _ _ | asked _ | unlock _ _ | setChan _ _ | park _ _ | sched _ _ | tidy _ | relock _ => x = q
  | _ => False

@[simp] def fits (state : Run) (chan : Option Chan) : Phase P Chan L W → Prop
  | park c _ => state = .running ∧ chan = some c
  | sched c _ | off c _ => (state = .sleeping ∨ state = .runnable) ∧ chan = some c
  | _ => state = .running

@[simp] def askedOf (code : Code P σ Chan L W K) (data : σ) : Phase P Chan L W → Prop
  | ask l yes no | asking l yes no => code.body l data = .killed yes no
  | sleep c l | unlock c l | setChan c l | park c l | sched c l | off c l => ∃ l₀ d₀, code.body l₀ d₀ = .sleep c l
  | _ => True

end Phase

/-- The locks are held by the threads that are between `acquire` and `release`. -/
structure Inv (code : Code P σ Chan L W K) (s : State P σ Chan L W) : Prop where
  lk : ∀ x, s.lk = some x ↔ (s.phase x).inside
  plock : ∀ x q, s.plock q = some x ↔ (s.phase x).owns x q
  fits : ∀ x, (s.phase x).fits (s.state x) (s.chan x)
  asked : ∀ x, (s.phase x).askedOf code s.data

section Inv

variable [DecidableEq P] [DecidableEq Chan] {code : Code P σ Chan L W K} {table : List P} {s t : State P σ Chan L W}
  {x : P}

/-- Two threads inside the lock are one. -/
theorem Inv.alone (inv : Inv code s) {y : P} (mine : (s.phase x).inside)
    (yours : (s.phase y).inside) : y = x := by
  have first := (inv.lk x).mpr mine
  rw [(inv.lk y).mpr yours] at first
  exact Option.some.inj first

/-- Two threads that have the lock of one process are one. -/
theorem Inv.alone_plock (inv : Inv code s) {y q : P} (mine : (s.phase x).owns x q)
    (yours : (s.phase y).owns y q) :
    y = x := by
  have first := (inv.plock x q).mpr mine
  rw [(inv.plock y q).mpr yours] at first
  exact Option.some.inj first

variable {phase : Phase P Chan L W}

section

variable (inv : Inv code s)
include inv

/-- A step that leaves the lock alone. -/
theorem Inv.keep_lk (lk : t.lk = s.lk)
    (moves : t.phase = upd s.phase x phase) (same : phase.inside ↔ (s.phase x).inside) (y : P) :
    t.lk = some y ↔ (t.phase y).inside := by
  rw [lk, inv.lk, moves]
  by_cases eq : y = x
  · rw [eq, upd_self, same]
  rw [upd_ne eq]

/-- A step that takes the free lock. -/
theorem Inv.take_lk (free : s.lk = none) (lk : t.lk = some x)
    (moves : t.phase = upd s.phase x phase) (inside : phase.inside) (y : P) :
    t.lk = some y ↔ (t.phase y).inside := by
  rw [lk, moves]
  by_cases eq : y = x
  · rw [eq, upd_self]
    exact iff_of_true rfl inside
  have out := inv.lk y
  rw [free] at out
  rw [upd_ne eq]
  refine iff_of_false ?_ fun yours => nomatch out.mpr yours
  intro same
  exact eq (Option.some.inj same).symm

/-- A step that gives the lock back. -/
theorem Inv.drop_lk (inside : (s.phase x).inside) (lk : t.lk = none)
    (moves : t.phase = upd s.phase x phase) (outside : ¬phase.inside) (y : P) :
    t.lk = some y ↔ (t.phase y).inside := by
  rw [lk, moves]
  by_cases eq : y = x
  · rw [eq, upd_self]
    exact iff_of_false nofun outside
  rw [upd_ne eq]
  exact iff_of_false nofun fun yours => eq (inv.alone inside yours)

/-- In every step the lock is with the thread that is inside. -/
theorem Inv.step_lk (h : Trans code table s x t) : ∀ y, t.lk = some y ↔ (t.phase y).inside := by
  cases h with
  | enter at' free => exact inv.take_lk free rfl rfl trivial
  | code at' =>
    rename_i l
    cases act : code.body l s.data with
    | release w => exact inv.drop_lk (by simp [at']) rfl rfl id
    | _ => exact inv.keep_lk rfl rfl (by simp [at'])
  | unlock at' => exact inv.drop_lk (by simp [at']) rfl rfl id
  | _ => exact inv.keep_lk rfl rfl (by simp [*])

theorem Inv.keep_plock (plock : t.plock = s.plock) (moves : t.phase = upd s.phase x phase)
    (same : ∀ q, phase.owns x q ↔ (s.phase x).owns x q) (y q : P) :
    t.plock q = some y ↔ (t.phase y).owns y q := by
  rw [plock, inv.plock, moves]
  by_cases eq : y = x
  · rw [eq, upd_self, same]
  rw [upd_ne eq]

/-- A step that takes the lock of a process. -/
theorem Inv.take_plock {r : P} (free : s.plock r = none)
    (plock : t.plock = upd s.plock r (some x)) (moves : t.phase = upd s.phase x phase)
    (none : ∀ q, ¬(s.phase x).owns x q) (one : ∀ q, phase.owns x q ↔ r = q) (y q : P) :
    t.plock q = some y ↔ (t.phase y).owns y q := by
  rw [plock, moves]
  by_cases eq : y = x
  · rw [eq, upd_self, one]
    by_cases here : q = r
    · rw [here, upd_self]
      exact iff_of_true rfl rfl
    rw [upd_ne here, inv.plock]
    exact iff_of_false (none q) (Ne.symm here)
  rw [upd_ne eq, ← inv.plock]
  by_cases here : q = r
  · rw [here, upd_self, free]
    exact iff_of_false (fun same => eq (Option.some.inj same).symm) nofun
  rw [upd_ne here]

/-- A step that gives the lock of a process back. -/
theorem Inv.drop_plock {r : P} (mine : ∀ q, (s.phase x).owns x q ↔ r = q)
    (plock : t.plock = upd s.plock r none) (moves : t.phase = upd s.phase x phase)
    (none : ∀ q, ¬phase.owns x q) (y q : P) : t.plock q = some y ↔ (t.phase y).owns y q := by
  rw [plock, moves]
  by_cases eq : y = x
  · rw [eq, upd_self]
    by_cases here : q = r
    · rw [here, upd_self]
      exact iff_of_false nofun (none r)
    rw [upd_ne here, inv.plock, mine]
    exact iff_of_false (Ne.symm here) (none q)
  rw [upd_ne eq, ← inv.plock]
  by_cases here : q = r
  · rw [here, upd_self]
    refine iff_of_false nofun ?_
    intro yours
    exact eq (inv.alone_plock ((mine r).mpr rfl) ((inv.plock y r).mp yours))
  rw [upd_ne here]

/-- In every step the lock of a process is with the thread that owns it. -/
theorem Inv.step_plock (h : Trans code table s x t) :
    ∀ y q, t.plock q = some y ↔ (t.phase y).owns y q := by
  cases h with
  | scan at' _ free | ask at' free | sleep at' free | killLock at' free =>
    exact inv.take_plock free rfl rfl (by simp [at']) (by simp)
  | resume at' _ free => exact inv.take_plock free rfl rfl (by simp [at']) (by simp)
  | tested at' | asked at' | sched at' | relock at' | killed at' =>
    exact inv.drop_plock (by simp [at']) rfl rfl (by simp)
  | code at' =>
    rename_i l
    cases act : code.body l s.data with
    | _ => exact inv.keep_plock rfl rfl (by simp [at'])
  | _ => exact inv.keep_plock rfl rfl (by simp [*])

end

/-- `wakeup` does not bring a thread to a state that its place in the code excludes. -/
theorem Phase.fits.awaken {state : Run} {chan : Option Chan} (fits : phase.fits state chan) :
    phase.fits (State.awaken state) chan := by
  cases phase with
  | sched c next | off c next =>
    obtain ⟨run, sleeps⟩ := fits
    rcases run with rfl | rfl
    · exact ⟨.inr rfl, sleeps⟩
    exact ⟨.inr rfl, sleeps⟩
  | park c next =>
    obtain ⟨rfl, sleeps⟩ := fits
    exact ⟨rfl, sleeps⟩
  | _ =>
    cases fits
    exact rfl

section

variable (inv : Inv code s)
include inv

theorem Inv.keep_fits (moves : t.phase = upd s.phase x phase)
    (state : ∀ y, y ≠ x → t.state y = s.state y) (chan : ∀ y, y ≠ x → t.chan y = s.chan y)
    (mine : phase.fits (t.state x) (t.chan x)) (y : P) :
    (t.phase y).fits (t.state y) (t.chan y) := by
  rw [moves]
  by_cases eq : y = x
  · rw [eq, upd_self]
    exact mine
  rw [upd_ne eq, state y eq, chan y eq]
  exact inv.fits y

theorem Inv.awaken_fits {q : P} (moves : t.phase = upd s.phase x phase)
    (state : t.state = upd s.state q (State.awaken (s.state q))) (chan : t.chan = s.chan)
    (mine : ∀ run c, (s.phase x).fits run c → phase.fits run c) (y : P) :
    (t.phase y).fits (t.state y) (t.chan y) := by
  have runs : (s.phase y).fits (t.state y) (t.chan y) := by
    rw [state, chan]
    by_cases here : y = q
    · rw [here, upd_self]
      exact (inv.fits q).awaken
    rw [upd_ne here]
    exact inv.fits y
  rw [moves]
  by_cases eq : y = x
  · rw [eq, upd_self]
    rw [eq] at runs
    exact mine _ _ runs
  rw [upd_ne eq]
  exact runs

/-- In every step the state of a process agrees with its place in the code. -/
theorem Inv.step_fits (h : Trans code table s x t) :
    ∀ y, (t.phase y).fits (t.state y) (t.chan y) := by
  have mine := inv.fits x
  cases h with
  | @wake chan q todo next at' sleeping _ =>
    refine inv.awaken_fits (q := q) rfl ?_ rfl ?_
    · rw [sleeping]
      rfl
    simp [at']
  | killing at' => exact inv.awaken_fits rfl rfl rfl (by simp [at'])
  | code at' =>
    rename_i l
    rw [at'] at mine
    cases act : code.body l s.data with
    | _ => exact inv.keep_fits rfl (fun _ _ => rfl) (fun _ _ => rfl) mine
  | setChan at' | tidy at' =>
    rw [at'] at mine
    refine inv.keep_fits rfl (fun _ _ => rfl) (fun y ne => upd_ne ne ..) ?_
    simp_all
  | park at' | resume at' _ _ =>
    rw [at'] at mine
    refine inv.keep_fits rfl (fun y ne => upd_ne ne ..) (fun _ _ => rfl) ?_
    simp_all
  | _ =>
    refine inv.keep_fits rfl (fun _ _ => rfl) (fun _ _ => rfl) ?_
    simp_all

theorem Inv.keep_asked (data : (s.phase x).inside ∨ t.data = s.data)
    (moves : t.phase = upd s.phase x phase) (mine : phase.askedOf code t.data) (y : P) :
    (t.phase y).askedOf code t.data := by
  rw [moves]
  by_cases eq : y = x
  · rw [eq, upd_self]
    exact mine
  rw [upd_ne eq]
  have yours := inv.asked y
  rcases data with inside | same
  · have outside : ¬(s.phase y).inside := fun h => eq (inv.alone inside h)
    cases at' : s.phase y with
    | ask l yes no | asking l yes no =>
      rw [at'] at outside
      exact absurd trivial outside
    | _ =>
      rw [at'] at yours
      exact yours
  rw [same]
  exact yours

/-- In every step what a thread asked `killed` for agrees with the data. -/
theorem Inv.step_asked (h : Trans code table s x t) : ∀ y, (t.phase y).askedOf code t.data := by
  have mine := inv.asked x
  cases h with
  | code at' =>
    rename_i l
    cases act : code.body l s.data with
    | set data next =>
      have inside : (s.phase x).inside := by simp [at']
      exact inv.keep_asked (.inl inside) rfl trivial
    | killed yes no => exact inv.keep_asked (.inr rfl) rfl act
    | sleep chan next => exact inv.keep_asked (.inr rfl) rfl ⟨l, s.data, act⟩
    | _ => exact inv.keep_asked (.inr rfl) rfl trivial
  | ask at' _ | sleep at' _ | unlock at' | setChan at' | park at' | sched at' =>
    rw [at'] at mine
    exact inv.keep_asked (.inr rfl) rfl mine
  | _ => exact inv.keep_asked (.inr rfl) rfl trivial

/-- The invariant is kept by every step. -/
theorem Inv.step (h : Trans code table s x t) : Inv code t :=
  ⟨inv.step_lk h, inv.step_plock h, inv.step_fits h, inv.step_asked h⟩

end

theorem Inv.init (w : P → W) (data : σ) : Inv code (State.init w data : State P σ Chan L W) where
  lk _ := iff_of_false nofun id
  plock _ _ := iff_of_false nofun id
  fits _ := rfl
  asked _ := trivial

/-- The invariant holds along every run. -/
theorem State.Reachable.inv {w : P → W} {data : σ} {allow : State P σ Chan L W → Action P K → Prop}
    (run : Reachable code table w data allow s) : Inv code s := by
  induction run with
  | init => exact .init w data
  | step _ _ h ih => exact ih.step (.of_step h)

end Inv

/-! ## Invariants of the data

Seen from the data, a thread is either outside of the module or at a location of its code. -/

inductive Loc (L W : Type)
  | out (w : W)
  | at (l : L)
  deriving DecidableEq

def Loc.isOut : Loc L W → Bool
  | .out _ => true
  | .at _ => false

theorem Loc.isOut_iff {loc : Loc L W} : loc.isOut = true ↔ ∃ w, loc = .out w := by
  cases loc <;> simp [Loc.isOut]

/-- One step of the code, from the location `l`. -/
inductive Code.Next (code : Code P σ Chan L W K) (l : L) (d : σ) : Loc L W → σ → Prop
  | set {d' next} : code.body l d = .set d' next → Next code l d (.at next) d'
  | wakeup {chan next} : code.body l d = .wakeup chan next → Next code l d (.at next) d
  | sleep {chan next} : code.body l d = .sleep chan next → Next code l d (.at next) d
  | yes {yes no} : code.body l d = .killed yes no → Next code l d (.at yes) d
  | no {yes no} : code.body l d = .killed yes no → Next code l d (.at no) d
  | release {w} : code.body l d = .release w → Next code l d (.out w) d

@[simp] def Act.leads (d : σ) (Q : Loc L W → σ → Prop) : Act σ Chan L W → Prop
  | .set d' next => Q (.at next) d'
  | .wakeup _ next | .sleep _ next => Q (.at next) d
  | .killed yes no => Q (.at yes) d ∧ Q (.at no) d
  | .release w => Q (.out w) d

namespace Code.Next

variable {code : Code P σ Chan L W K} {l next yes no : L} {d d' e : σ} {loc : Loc L W} {chan : Chan} {w : W}

section

variable (step : code.Next l d loc d')
include step

/-- What all outcomes of an action have in common, the one that happened has. -/
theorem leads {Q : Loc L W → σ → Prop} (all : (code.body l d).leads d Q) : Q loc d' := by
  cases step <;> simp_all

theorem of_set (act : code.body l d = .set e next) : loc = .at next ∧ d' = e := by
  cases step <;> simp_all

theorem of_wakeup (act : code.body l d = .wakeup chan next) : loc = .at next ∧ d' = d := by
  cases step <;> simp_all

theorem of_sleep (act : code.body l d = .sleep chan next) : loc = .at next ∧ d' = d := by
  cases step <;> simp_all

theorem of_killed (act : code.body l d = .killed yes no) :
    (loc = .at yes ∨ loc = .at no) ∧ d' = d := by
  cases step <;> simp_all

theorem of_release (act : code.body l d = .release w) : loc = .out w ∧ d' = d := by
  cases step <;> simp_all

end

end Code.Next

@[simp] def Phase.loc : Phase P Chan L W → Loc L W
  | out w | kill _ w | killing _ w | killed _ w => .out w
  | enter l | code l | scan _ _ l | test _ _ _ l | tested _ _ _ l | ask l _ _ | asking l _ _ | asked l | sleep _ l
  | unlock _ l | setChan _ l | park _ l | sched _ l | off _ l | tidy l | relock l => .at l

/-- Where the threads are. -/
def State.loc (s : State P σ Chan L W) (x : P) : Loc L W := (s.phase x).loc

section Data

variable [DecidableEq P] [DecidableEq Chan] {code : Code P σ Chan L W K} {table : List P} {s t : State P σ Chan L W}
  {x : P}

theorem State.loc_eq_update {phase : Phase P Chan L W} {loc : Loc L W}
    (moves : t.phase = upd s.phase x phase) (here : phase.loc = loc) :
    t.loc = upd s.loc x loc := by
  funext y
  simp only [State.loc, moves, ← here]
  by_cases eq : y = x
  · rw [eq, upd_self, upd_self]
  rw [upd_ne eq, upd_ne eq]
  rfl

theorem State.loc_eq_self {phase : Phase P Chan L W} (moves : t.phase = upd s.phase x phase)
    (same : phase.loc = (s.phase x).loc) : t.loc = s.loc := by
  rw [loc_eq_update moves same]
  exact upd_eq_self x s.loc

/-- A step of a thread moves it in the code and changes the data as the code says, or does neither.
-/
theorem State.run_data (inv : Inv code s) (h : s.run code table x = some t) :
    (∃ l loc, s.loc x = .at l ∧ code.Next l s.data loc t.data ∧ t.loc = upd s.loc x loc) ∨
    (t.loc = s.loc ∧ t.data = s.data) := by
  have mine := inv.asked x
  cases Trans.of_run h with
  | call at' _ | kill at' =>
    rw [State.run, at'] at h
    cases h
  | @code l at' =>
    have here : s.loc x = .at l := by simp [State.loc, at']
    cases act : code.body l s.data with
    | set data next => exact .inl ⟨l, _, here, .set act, State.loc_eq_update rfl rfl⟩
    | wakeup chan next => exact .inl ⟨l, _, here, .wakeup act, State.loc_eq_update rfl rfl⟩
    | sleep chan next => exact .inl ⟨l, _, here, .sleep act, State.loc_eq_update rfl rfl⟩
    | killed yes no => exact .inr ⟨State.loc_eq_self rfl here.symm, rfl⟩
    | release w => exact .inl ⟨l, _, here, .release act, State.loc_eq_update rfl rfl⟩
  | @asking l yes no at' =>
    rw [at'] at mine
    refine .inl ⟨l, _, by simp [State.loc, at'], ?_, State.loc_eq_update rfl rfl⟩
    split
    · exact .yes mine
    exact .no mine
  | _ => exact .inr ⟨State.loc_eq_self rfl (by simp_all), rfl⟩

/-- The data changes only by the code of a thread that is inside. -/
theorem State.step_data (inv : Inv code s) {a : Action P K} (h : s.step code table a = some t) :
    t.data = s.data ∨ ∃ x l loc, s.loc x = .at l ∧ code.Next l s.data loc t.data := by
  cases a with
  | call x f =>
    simp only [State.step] at h
    split at h
    · obtain ⟨l, _, rfl⟩ := Option.map_eq_some_iff.mp h
      exact .inl rfl
    cases h
  | kill x q =>
    simp only [State.step] at h
    split at h
    · cases h
      exact .inl rfl
    cases h
  | run x =>
    rcases State.run_data inv h with ⟨l, loc, here, step, -⟩ | ⟨-, same⟩
    · exact .inr ⟨x, l, loc, here, step⟩
    exact .inl same

/-- A process that sleeps has come to a `sleep` in the code, on the channel it sleeps on. -/
theorem Inv.slept (inv : Inv code s) {c : Chan} (sleeping : s.state x = .sleeping)
    (chan : s.chan x = some c) :
    ∃ l₀ d₀ l, code.body l₀ d₀ = .sleep c l ∧ s.loc x = .at l := by
  have fits := inv.fits x
  have asked := inv.asked x
  cases at' : s.phase x with
  | sched c' l | off c' l =>
    rw [at'] at fits asked
    obtain ⟨l₀, d₀, act⟩ := asked
    rw [fits.2] at chan
    cases chan
    exact ⟨l₀, d₀, l, act, by simp [State.loc, at']⟩
  | park c' l =>
    rw [at', sleeping] at fits
    cases fits.1
  | _ =>
    rw [at', sleeping] at fits
    cases fits

/-- The rule for assertions about the places of the threads and the data: they hold at the start,
and calls and actions keep them. -/
theorem State.Reachable.rule {w : P → W} {data : σ} {allow : State P σ Chan L W → Action P K → Prop}
    (K : (P → Loc L W) → σ → Prop) (init : K (fun x => .out (w x)) data)
    (enter : ∀ {s x w f l}, K s.loc s.data → allow s (.call x f) → s.loc x = .out w →
      code.entry x w f = some l →
      K (upd s.loc x (.at l)) s.data)
    (next : ∀ {loc d x l loc' d'}, K loc d → loc x = .at l → code.Next l d loc' d' →
      K (upd loc x loc') d')
    (run : Reachable code table w data allow s) : K s.loc s.data := by
  induction run with
  | init => exact init
  | @step u v a run allowed h ih =>
    cases a with
    | call x f =>
      simp only [State.step] at h
      split at h
      · rename_i w out
        obtain ⟨l, entry, rfl⟩ := Option.map_eq_some_iff.mp h
        rw [State.loc_eq_update (s := u) rfl rfl]
        exact enter ih allowed (by simp [State.loc, out]) entry
      cases h
    | kill x q =>
      simp only [State.step] at h
      split at h
      · rename_i w out
        cases h
        rw [State.loc_eq_self (s := u) rfl (by rw [out]; rfl)]
        exact ih
      cases h
    | run x =>
      rcases State.run_data run.inv h with ⟨l, loc, here, step, moved⟩ | ⟨moved, same⟩
      · rw [moved]
        exact next ih here step
      rw [moved, same]
      exact ih

end Data

/-! ## Lost wakeups -/

/-- The code goes to sleep on a channel only while the condition `blocked` of the channel holds, and
wakes the channel after a change that ends the condition: from the change on, a wakeup of the
channel is `due`, at every location up to `wakeup`. `holds` is what the thread that has `lk` knows
at a location, and `calm` says where a thread that was killed may leave. -/
structure Code.Discipline (code : Code P σ Chan L W K) (holds : L → σ → Prop) (due : L → Chan → Prop)
    (blocked : Chan → σ → Prop) (calm : L → Prop) : Prop where
  entry : ∀ {x w f l}, code.entry x w f = some l → ∀ d, holds l d
  set : ∀ {l d d' next}, holds l d → code.body l d = .set d' next →
    holds next d' ∧ ∀ c, blocked c d ∨ due l c → blocked c d' ∨ due next c
  wakeup : ∀ {l d chan next}, holds l d → code.body l d = .wakeup chan next →
    holds next d ∧ ∀ c, c ≠ chan → due l c → blocked c d ∨ due next c
  sleep : ∀ {l d chan next}, holds l d → code.body l d = .sleep chan next →
    (∀ d', holds next d') ∧ blocked chan d ∧ ∀ c, due l c → blocked c d
  yes : ∀ {l d yes no}, holds l d → code.body l d = .killed yes no → calm l →
    holds yes d ∧ ∀ c, due l c → blocked c d ∨ due yes c
  no : ∀ {l d yes no}, holds l d → code.body l d = .killed yes no → holds no d ∧ ∀ c, due l c →
    blocked c d ∨ due no c
  release : ∀ {l d w}, holds l d → code.body l d = .release w → ∀ c, due l c → blocked c d

namespace Phase

/-- What the thread knows about the data, here or where it goes on. -/
@[simp] def knows (holds : L → σ → Prop) (data : σ) : Phase P Chan L W → Prop
  | out _ | kill _ _ | killing _ _ | killed _ _ => True
  | code l | scan _ _ l | test _ _ _ l | tested _ _ _ l | ask l _ _ | asking l _ _ | asked l => holds l data
  | enter l | sleep _ l | unlock _ l | setChan _ l | park _ l | sched _ l | off _ l | tidy l | relock l =>
    ∀ d, holds l d

/-- The thread is going to wake process `q` if it sleeps on channel `c`. -/
@[simp] def owes (due : L → Chan → Prop) (q : P) (c : Chan) : Phase P Chan L W → Prop
  | code l | ask l _ _ | asking l _ _ | asked l => due l c
  | scan chan todo l | tested chan _ todo l => c = chan ∧ q ∈ todo ∨ due l c
  | test chan r todo l => c = chan ∧ (q = r ∨ q ∈ todo) ∨ due l c
  | _ => False

/-- The thread is going to sleep on channel `c`, or does. -/
@[simp] def pends (state : Run) (c : Chan) : Phase P Chan L W → Prop
  | sleep chan _ | unlock chan _ | setChan chan _ | park chan _ => chan = c
  | sched chan _ | off chan _ => state = .sleeping ∧ chan = c
  | _ => False

end Phase

/-- Who sleeps on a channel is blocked, or somebody with `lk` is about to wake it. -/
structure Waits (holds : L → σ → Prop) (due : L → Chan → Prop) (blocked : Chan → σ → Prop) (s : State P σ Chan L W) :
    Prop where
  knows : ∀ x, (s.phase x).knows holds s.data
  waits : ∀ q c, (s.phase q).pends (s.state q) c → blocked c s.data ∨ ∃ x, (s.phase x).owes due q c

section Waits

variable [DecidableEq P] [DecidableEq Chan] {code : Code P σ Chan L W K} {table : List P} {s t : State P σ Chan L W}
  {x : P} {holds : L → σ → Prop} {due : L → Chan → Prop} {blocked : Chan → σ → Prop} {calm : L → Prop}

variable {phase : Phase P Chan L W}

/-- Only a thread that is inside owes a wakeup. -/
theorem Phase.owes.inside {q : P} {c : Chan} (h : phase.owes due q c) : phase.inside := by
  cases phase with
  | code | ask | asking | asked | scan | tested | test => trivial
  | _ => cases h

theorem Waits.keep_knows (waits : Waits holds due blocked s) (inv : Inv code s)
    (data : (s.phase x).inside ∨ t.data = s.data) (moves : t.phase = upd s.phase x phase)
    (mine : phase.knows holds t.data) (y : P) : (t.phase y).knows holds t.data := by
  rw [moves]
  by_cases eq : y = x
  · rw [eq, upd_self]
    exact mine
  rw [upd_ne eq]
  have yours := waits.knows y
  rcases data with inside | same
  · have outside : ¬(s.phase y).inside := fun h => eq (inv.alone inside h)
    cases at' : s.phase y <;> simp_all
  rw [same]
  exact yours

theorem Waits.keep_waits (waits : Waits holds due blocked s) (moves : t.phase = upd s.phase x phase)
    (pends : ∀ q c, (t.phase q).pends (t.state q) c → (s.phase q).pends (s.state q) c ∨
      blocked c t.data)
    (owes : ∀ q c, (t.phase q).pends (t.state q) c → blocked c s.data ∨ (s.phase x).owes due q c →
      blocked c t.data ∨ phase.owes due q c)
    (q : P) (c : Chan) (h : (t.phase q).pends (t.state q) c) : blocked c t.data ∨
      ∃ y, (t.phase y).owes due q c := by
  have mine : blocked c t.data ∨ phase.owes due q c → blocked c t.data ∨
      ∃ y, (t.phase y).owes due q c := by
    intro h
    rcases h with block | owe
    · exact .inl block
    refine .inr ⟨x, ?_⟩
    rw [moves, upd_self]
    exact owe
  rcases pends q c h with before | block
  · rcases waits.waits q c before with block | ⟨y, owe⟩
    · exact mine (owes q c h (.inl block))
    by_cases eq : y = x
    · rw [eq] at owe
      exact mine (owes q c h (.inr owe))
    refine .inr ⟨y, ?_⟩
    rw [moves, upd_ne eq]
    exact owe
  exact .inl block

theorem pends_of_moves (moves : t.phase = upd s.phase x phase)
    (state : ∀ y, y ≠ x → t.state y = .sleeping → s.state y = .sleeping)
    (mine : ∀ c, phase.pends (t.state x) c → (s.phase x).pends (s.state x) c ∨ blocked c t.data)
    (q : P) (c : Chan) (h : (t.phase q).pends (t.state q) c) :
    (s.phase q).pends (s.state q) c ∨ blocked c t.data := by
  rw [moves] at h
  by_cases eq : q = x
  · rw [eq, upd_self] at h
    rw [eq]
    exact mine c h
  rw [upd_ne eq] at h
  refine .inl ?_
  cases at' : s.phase q with
  | sched chan next | off chan next =>
    rw [at'] at h
    exact ⟨state q eq h.1, h.2⟩
  | _ =>
    rw [at'] at h
    exact h

/-- A process that waits for the thread that tests it does sleep. -/
theorem Inv.sleeping_of_pends (inv : Inv code s) {chan c : Chan} {q : P} {todo : List P} {next : L}
    (at' : s.phase x = .test chan q todo next) (h : (s.phase q).pends (s.state q) c) :
    s.state q = .sleeping ∧ s.chan q = some c := by
  have fits := inv.fits q
  have locks : (s.phase x).owns x q := by
    rw [at']
    exact rfl
  have inside : (s.phase x).inside := by
    rw [at']
    trivial
  have other : q ≠ x := by
    intro eq
    rw [eq, at'] at h
    exact h
  cases there : s.phase q with
  | sleep chan next =>
    have also : (s.phase q).inside := by
      rw [there]
      trivial
    exact absurd (inv.alone inside also) other
  | unlock chan next | setChan chan next | park chan next | sched chan next =>
    have also : (s.phase q).owns q q := by
      rw [there]
      exact rfl
    exact absurd (inv.alone_plock locks also) other
  | off chan next =>
    rw [there] at h fits
    exact ⟨h.1, h.2 ▸ fits.2⟩
  | _ =>
    rw [there] at h
    exact h.elim

/-- Every step keeps what the threads know of the data. -/
theorem Waits.step_knows (waits : Waits holds due blocked s) (inv : Inv code s)
    (d : code.Discipline holds due blocked calm) (h : Trans code table s x t)
    (leave : ∀ l yes no, s.phase x = .asking l yes no → s.killed x = true → calm l) :
    ∀ y, (t.phase y).knows holds t.data := by
  have mine := waits.knows x
  have asked := inv.asked x
  cases h with
  | call at' entry => exact waits.keep_knows inv (.inr rfl) rfl (d.entry entry)
  | @code l at' =>
    have inside : (s.phase x).inside := by simp [at']
    rw [at'] at mine
    cases act : code.body l s.data with
    | set data next => exact waits.keep_knows inv (.inl inside) rfl (d.set mine act).1
    | wakeup chan next => exact waits.keep_knows inv (.inl inside) rfl (d.wakeup mine act).1
    | sleep chan next => exact waits.keep_knows inv (.inl inside) rfl (d.sleep mine act).1
    | killed yes no => exact waits.keep_knows inv (.inl inside) rfl mine
    | release w => exact waits.keep_knows inv (.inl inside) rfl trivial
  | @asking l yes no at' =>
    rw [at'] at mine asked
    refine waits.keep_knows inv (.inr rfl) rfl ?_
    by_cases was : s.killed x = true
    · simpa [was] using (d.yes mine asked (leave l yes no at' was)).1
    simpa [was] using (d.no mine asked).1
  | _ =>
    refine waits.keep_knows inv (.inr rfl) rfl ?_
    simp_all

theorem Waits.step_waits (waits : Waits holds due blocked s) (inv : Inv code s)
    (d : code.Discipline holds due blocked calm) (all : ∀ q, q ∈ table) (h : Trans code table s x t)
    (leave : ∀ l yes no, s.phase x = .asking l yes no → s.killed x = true → calm l) :
    ∀ q c, (t.phase q).pends (t.state q) c → blocked c t.data ∨ ∃ y, (t.phase y).owes due q c := by
  have mine := waits.knows x
  have asked := inv.asked x
  cases h with
  | @code l at' =>
    rw [at'] at mine
    cases act : code.body l s.data with
    | set data next =>
      refine waits.keep_waits rfl (pends_of_moves rfl (fun _ _ => id) nofun) fun q c _ owes => ?_
      rw [at'] at owes
      exact (d.set mine act).2 c owes
    | wakeup chan next =>
      refine waits.keep_waits rfl (pends_of_moves rfl (fun _ _ => id) nofun) fun q c _ owes => ?_
      rw [at'] at owes
      rcases owes with block | owe
      · exact .inl block
      by_cases eq : c = chan
      · exact .inr (.inl ⟨eq, all q⟩)
      exact ((d.wakeup mine act).2 c eq owe).imp id Or.inr
    | sleep chan next =>
      have sleeps := d.sleep mine act
      refine waits.keep_waits rfl (pends_of_moves rfl (fun _ _ => id) ?_) fun q c _ owes => ?_
      · intro c pends
        cases pends
        exact .inr sleeps.2.1
      rw [at'] at owes
      exact .inl (owes.elim id (sleeps.2.2 c))
    | killed yes no =>
      refine waits.keep_waits rfl (pends_of_moves rfl (fun _ _ => id) nofun) fun q c _ owes => ?_
      rw [at'] at owes
      exact owes
    | release w =>
      refine waits.keep_waits rfl (pends_of_moves rfl (fun _ _ => id) nofun) fun q c _ owes => ?_
      rw [at'] at owes
      exact .inl (owes.elim id (d.release mine act c))
  | @asking l yes no at' =>
    rw [at'] at mine asked
    refine waits.keep_waits rfl (pends_of_moves rfl (fun _ _ => id) nofun) fun q c _ owes => ?_
    rw [at'] at owes
    rcases owes with block | owe
    · exact .inl block
    by_cases was : s.killed x = true
    · simpa [was] using (d.yes mine asked (leave l yes no at' was)).2 c owe
    simpa [was] using (d.no mine asked).2 c owe
  | @skip chan todo next at' =>
    refine waits.keep_waits rfl (pends_of_moves rfl (fun _ _ => id) nofun) fun q c pends owes => ?_
    have other : q ≠ x := by
      intro eq
      rw [eq] at pends
      simp at pends
    simp_all
  | @wake chan r todo next at' sleeping _ =>
    refine waits.keep_waits rfl (pends_of_moves rfl ?_ nofun) fun q c pends owes => ?_
    · intro y _ sleeps
      by_cases eq : y = r
      · rw [eq]
        exact sleeping
      simpa [eq] using sleeps
    -- it runs again, so that it does not pend any more
    have other : q ≠ r := by
      intro eq
      have fits := inv.fits r
      rw [eq] at pends
      by_cases same : r = x
      · simp [same] at pends
      cases there : s.phase r <;> simp_all
    simp_all
  | @pass chan r todo next at' awake =>
    refine waits.keep_waits rfl (pends_of_moves rfl (fun _ _ => id) nofun) fun q c pends owes => ?_
    rw [at'] at owes
    rcases owes with block | ⟨rfl, rfl | rest⟩ | owe
    · exact .inl block
    · have other : q ≠ x := by
        intro eq
        rw [eq] at pends
        simp at pends
      rw [State.goto_phase, State.goto_state, upd_ne other] at pends
      exact absurd (inv.sleeping_of_pends at' pends) awake
    · exact .inr (.inl ⟨rfl, rest⟩)
    exact .inr (.inr owe)
  | @killing r w at' =>
    refine waits.keep_waits rfl (pends_of_moves rfl ?_ nofun) fun q c _ owes => ?_
    · intro y _ sleeps
      by_cases eq : y = r
      · cases was : s.state r <;> simp_all [State.awaken]
      simpa [eq] using sleeps
    simp_all
  | park at' =>
    refine waits.keep_waits rfl (pends_of_moves rfl ?_ ?_) fun q c _ owes => ?_
    · intro y ne sleeps
      simpa [ne] using sleeps
    · simp_all
    simp_all
  | resume at' _ _ =>
    refine waits.keep_waits rfl (pends_of_moves rfl ?_ nofun) fun q c _ owes => ?_
    · intro y ne sleeps
      simpa [ne] using sleeps
    simp_all
  | _ =>
    refine waits.keep_waits rfl (pends_of_moves rfl (fun _ _ => id) ?_) fun q c _ owes => ?_
    · simp_all
    simp_all

theorem State.Reachable.sleepers {w : P → W} {data : σ} {allow : State P σ Chan L W → Action P K → Prop}
    (d : code.Discipline holds due blocked calm) (all : ∀ q, q ∈ table)
    (leave : ∀ {s x l yes no}, allow s (.run x) → s.phase x = .asking l yes no →
      s.killed x = true → calm l)
    (run : Reachable code table w data allow s) (free : s.lk = none) {q : P} {c : Chan}
    (sleeping : s.state q = .sleeping) (chan : s.chan q = some c) : blocked c s.data := by
  have waits : Waits holds due blocked s := by
    clear free sleeping chan
    induction run with
    | init => exact ⟨fun _ => trivial, nofun⟩
    | @step u v a run allowed h ih =>
      have leaves : ∀ l yes no, u.phase a.thread = .asking l yes no → u.killed a.thread = true →
          calm l := by
        intro l yes no at' was
        cases a with
        | run x => exact leave allowed at' was
        | call x f | kill x q =>
          simp [State.step, Action.thread] at h at'
          simp [at'] at h
      exact ⟨ih.step_knows run.inv d (.of_step h) leaves,
        ih.step_waits run.inv d all (.of_step h) leaves⟩
  have fits := run.inv.fits q
  have pends : (s.phase q).pends (s.state q) c := by cases at' : s.phase q <;> simp_all
  rcases waits.waits q c pends with block | ⟨x, owe⟩
  · exact block
  have holder := (run.inv.lk x).mpr owe.inside
  rw [free] at holder
  cases holder

end Waits

end Xv6.Monitor
