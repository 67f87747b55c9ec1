import Mathlib.Tactic

/-!
# Code that sleeps under a spin-lock

`sleep`, `wakeup`, `kill` and `killed` of `kernel/proc.c`, called by the code of a module that keeps
its data under one spin-lock `lk`. Each `acquire`, each `release` and each assignment or test in
between is a step of one thread, and the steps of all threads interleave. The module is a
parameter: `entry` says which functions a thread may call, and `body` what the code does next at a
location while it holds `lk`.

A thread is a process, or a CPU that runs an interrupt handler. The scheduler is seen from the
process: `sched` gives `p->lock` back, and a process that is `RUNNABLE` gets it again and runs. That
a process yields is left out; it holds no lock then, and nobody looks at whether it runs.
-/

namespace Xv6.Monitor

open Function renaming update → upd

/-- What the code of the module does next. -/
inductive Act (σ Chan L W : Type)
  | set (data : σ) (next : L)
  | wakeup (chan : Chan) (next : L)
  | sleep (chan : Chan) (next : L)
  | killed (yes no : L)
  | release (w : W)

/-- The functions of a module: `P` are the threads, `σ` is the data under `lk`, `L` are the
locations in the code, `K` the calls, and `W` is what a thread has to do with the module outside
of calls. -/
structure Code (P σ Chan L W K : Type) where
  entry : P → W → K → Option L
  body : L → σ → Act σ Chan L W

/-- `p->state`, as far as `sleep` and `wakeup` see it. -/
inductive Run
  | running
  | sleeping
  | runnable
  deriving DecidableEq

/-- Where a thread is: outside of the module, at a location of its code, or in one of the functions
of `proc.c`, with the location it then goes on at. -/
inductive Phase (P Chan L W : Type)
  | out (w : W)
  | enter (next : L)
  | code (l : L)
  -- `wakeup`: before `acquire`, before the test, and before `release` of a process
  | scan (chan : Chan) (todo : List P) (next : L)
  | test (chan : Chan) (q : P) (todo : List P) (next : L)
  | tested (chan : Chan) (q : P) (todo : List P) (next : L)
  -- `killed`
  | ask (l yes no : L)
  | asking (l yes no : L)
  | asked (next : L)
  -- `sleep`: `acquire(&p->lock)`, `release(lk)`, the two assignments, `sched` and what follows it
  | sleep (chan : Chan) (next : L)
  | unlock (chan : Chan) (next : L)
  | setChan (chan : Chan) (next : L)
  | park (chan : Chan) (next : L)
  | sched (chan : Chan) (next : L)
  | off (chan : Chan) (next : L)
  | tidy (next : L)
  | relock (next : L)
  -- `kill` of the process `q`
  | kill (q : P) (w : W)
  | killing (q : P) (w : W)
  | killed (q : P) (w : W)

structure State (P σ Chan L W : Type) where
  lk : Option P
  plock : P → Option P
  phase : P → Phase P Chan L W
  state : P → Run
  chan : P → Option Chan
  killed : P → Bool
  data : σ

inductive Action (P K : Type)
  | call (x : P) (f : K)
  | kill (x q : P)
  | run (x : P)

namespace State

variable {P σ Chan L W K : Type} [DecidableEq P] [DecidableEq Chan]

@[simps -fullyApplied] def goto (s : State P σ Chan L W) (x : P) (phase : Phase P Chan L W) :
    State P σ Chan L W :=
  { s with phase := upd s.phase x phase }

@[simps -fullyApplied] def setLk (s : State P σ Chan L W) (owner : Option P) : State P σ Chan L W :=
  { s with lk := owner }

@[simps -fullyApplied] def setPlock (s : State P σ Chan L W) (q : P) (owner : Option P) :
    State P σ Chan L W :=
  { s with plock := upd s.plock q owner }

@[simps -fullyApplied] def setState (s : State P σ Chan L W) (q : P) (state : Run) :
    State P σ Chan L W :=
  { s with state := upd s.state q state }

@[simps -fullyApplied] def setChan (s : State P σ Chan L W) (q : P) (chan : Option Chan) :
    State P σ Chan L W :=
  { s with chan := upd s.chan q chan }

@[simps -fullyApplied] def setKilled (s : State P σ Chan L W) (q : P) : State P σ Chan L W :=
  { s with killed := upd s.killed q true }

@[simps -fullyApplied] def setData (s : State P σ Chan L W) (data : σ) : State P σ Chan L W := { s with data }

/-- `acquire(&q->lock)` by `x`; it spins while somebody has the lock. -/
def acquire (s : State P σ Chan L W) (x q : P) (next : Phase P Chan L W) :
    Option (State P σ Chan L W) :=
  if s.plock q = none then some ((s.setPlock q (some x)).goto x next) else none

/-- The next step of thread `x`, at a location of the module. -/
def exec (table : List P) (s : State P σ Chan L W) (x : P) (l : L) : Act σ Chan L W → State P σ Chan L W
  | .set data next => (s.setData data).goto x (.code next)
  | .wakeup chan next => s.goto x (.scan chan table next)
  | .sleep chan next => s.goto x (.sleep chan next)
  | .killed yes no => s.goto x (.ask l yes no)
  | .release w => (s.setLk none).goto x (.out w)

/-- What `kill` makes of the state of a process, and `wakeup` of one that sleeps on its channel. -/
def awaken : Run → Run
  | .sleeping => .runnable
  | state => state

/-- The next step of thread `x`; `table` is the process table. -/
def run (code : Code P σ Chan L W K) (table : List P) (s : State P σ Chan L W) (x : P) :
    Option (State P σ Chan L W) :=
  match s.phase x with
  | .out _ => none
  | .enter next => if s.lk = none then some ((s.setLk (some x)).goto x (.code next)) else none
  | .code l => some (s.exec table x l (code.body l s.data))
  | .scan _ [] next => some (s.goto x (.code next))
  | .scan chan (q :: todo) next =>
    if q = x then some (s.goto x (.scan chan todo next)) else s.acquire x q (.test chan q todo next)
  | .test chan q todo next =>
    some ((if s.state q = .sleeping ∧ s.chan q = some chan then s.setState q .runnable else s).goto x
      (.tested chan q todo next))
  | .tested chan q todo next => some ((s.setPlock q none).goto x (.scan chan todo next))
  | .ask l yes no => s.acquire x x (.asking l yes no)
  | .asking _ yes no => some (s.goto x (.asked (if s.killed x then yes else no)))
  | .asked next => some ((s.setPlock x none).goto x (.code next))
  | .sleep chan next => s.acquire x x (.unlock chan next)
  | .unlock chan next => some ((s.setLk none).goto x (.setChan chan next))
  | .setChan chan next => some ((s.setChan x (some chan)).goto x (.park chan next))
  | .park chan next => some ((s.setState x .sleeping).goto x (.sched chan next))
  | .sched chan next => some ((s.setPlock x none).goto x (.off chan next))
  | .off _ next =>
    if s.state x = .runnable ∧ s.plock x = none then
      some (((s.setPlock x (some x)).setState x .running).goto x (.tidy next))
    else none
  | .tidy next => some ((s.setChan x none).goto x (.relock next))
  | .relock next => some ((s.setPlock x none).goto x (.enter next))
  | .kill q w => s.acquire x q (.killing q w)
  | .killing q w => some (((s.setKilled q).setState q (awaken (s.state q))).goto x (.killed q w))
  | .killed q w => some ((s.setPlock q none).goto x (.out w))

def step (code : Code P σ Chan L W K) (table : List P) (s : State P σ Chan L W) :
    Action P K → Option (State P σ Chan L W)
  | .call x f =>
    match s.phase x with
    | .out w => (code.entry x w f).map fun l => s.goto x (.enter l)
    | _ => none
  | .kill x q =>
    match s.phase x with
    | .out w => some (s.goto x (.kill q w))
    | _ => none
  | .run x => s.run code table x

/-- Nobody is in the module. -/
def init (w : P → W) (data : σ) : State P σ Chan L W where
  lk := none
  plock _ := none
  phase x := .out (w x)
  state _ := .running
  chan _ := none
  killed _ := false
  data := data

inductive Reachable (code : Code P σ Chan L W K) (table : List P) (w : P → W) (data : σ)
    (allow : State P σ Chan L W → Action P K → Prop) : State P σ Chan L W → Prop
  | init : Reachable code table w data allow (init w data)
  | step {s t : State P σ Chan L W} {a : Action P K} :
      Reachable code table w data allow s → allow s a → s.step code table a = some t →
      Reachable code table w data allow t

def play (code : Code P σ Chan L W K) (table : List P) (fine : State P σ Chan L W → Action P K → Bool)
    (s : State P σ Chan L W) : List (Action P K) → Option (State P σ Chan L W)
  | [] => some s
  | a :: rest =>
    if fine s a then
      match s.step code table a with
      | some t => t.play code table fine rest
      | none => none
    else none

end State

/-! ## The steps, case by case -/

section Trans

variable {P σ Chan L W K : Type} [DecidableEq P] [DecidableEq Chan] {code : Code P σ Chan L W K} {table : List P}
  {s t : State P σ Chan L W} {x : P}

/-- What a thread can do. -/
inductive Trans (code : Code P σ Chan L W K) (table : List P) (s : State P σ Chan L W) (x : P) :
    State P σ Chan L W → Prop
  | call {w f l} : s.phase x = .out w → code.entry x w f = some l →
      Trans code table s x (s.goto x (.enter l))
  | kill {w q} : s.phase x = .out w → Trans code table s x (s.goto x (.kill q w))
  | enter {next} : s.phase x = .enter next → s.lk = none →
      Trans code table s x ((s.setLk (some x)).goto x (.code next))
  | code {l} : s.phase x = .code l → Trans code table s x (s.exec table x l (code.body l s.data))
  | scanned {chan next} : s.phase x = .scan chan [] next →
      Trans code table s x (s.goto x (.code next))
  | skip {chan todo next} : s.phase x = .scan chan (x :: todo) next →
      Trans code table s x (s.goto x (.scan chan todo next))
  | scan {chan q todo next} : s.phase x = .scan chan (q :: todo) next → q ≠ x → s.plock q = none →
      Trans code table s x ((s.setPlock q (some x)).goto x (.test chan q todo next))
  | wake {chan q todo next} : s.phase x = .test chan q todo next → s.state q = .sleeping →
      s.chan q = some chan →
      Trans code table s x ((s.setState q .runnable).goto x (.tested chan q todo next))
  | pass {chan q todo next} : s.phase x = .test chan q todo next →
      ¬(s.state q = .sleeping ∧ s.chan q = some chan) →
      Trans code table s x (s.goto x (.tested chan q todo next))
  | tested {chan q todo next} : s.phase x = .tested chan q todo next →
      Trans code table s x ((s.setPlock q none).goto x (.scan chan todo next))
  | ask {l yes no} : s.phase x = .ask l yes no → s.plock x = none →
      Trans code table s x ((s.setPlock x (some x)).goto x (.asking l yes no))
  | asking {l yes no} : s.phase x = .asking l yes no →
      Trans code table s x (s.goto x (.asked (if s.killed x then yes else no)))
  | asked {next} : s.phase x = .asked next →
      Trans code table s x ((s.setPlock x none).goto x (.code next))
  | sleep {chan next} : s.phase x = .sleep chan next → s.plock x = none →
      Trans code table s x ((s.setPlock x (some x)).goto x (.unlock chan next))
  | unlock {chan next} : s.phase x = .unlock chan next →
      Trans code table s x ((s.setLk none).goto x (.setChan chan next))
  | setChan {chan next} : s.phase x = .setChan chan next →
      Trans code table s x ((s.setChan x (some chan)).goto x (.park chan next))
  | park {chan next} : s.phase x = .park chan next →
      Trans code table s x ((s.setState x .sleeping).goto x (.sched chan next))
  | sched {chan next} : s.phase x = .sched chan next →
      Trans code table s x ((s.setPlock x none).goto x (.off chan next))
  | resume {chan next} : s.phase x = .off chan next → s.state x = .runnable → s.plock x = none →
      Trans code table s x (((s.setPlock x (some x)).setState x .running).goto x (.tidy next))
  | tidy {next} : s.phase x = .tidy next →
      Trans code table s x ((s.setChan x none).goto x (.relock next))
  | relock {next} : s.phase x = .relock next →
      Trans code table s x ((s.setPlock x none).goto x (.enter next))
  | killLock {q w} : s.phase x = .kill q w → s.plock q = none →
      Trans code table s x ((s.setPlock q (some x)).goto x (.killing q w))
  | killing {q w} : s.phase x = .killing q w →
      Trans code table s x (((s.setKilled q).setState q (State.awaken (s.state q))).goto x (.killed q w))
  | killed {q w} : s.phase x = .killed q w →
      Trans code table s x ((s.setPlock q none).goto x (.out w))

omit [DecidableEq Chan] in
theorem State.acquire_some {q : P} {next : Phase P Chan L W} (h : s.acquire x q next = some t) :
    s.plock q = none ∧ t = (s.setPlock q (some x)).goto x next := by
  rw [State.acquire] at h
  split at h
  · rename_i free
    exact ⟨free, (Option.some.inj h).symm⟩
  cases h

theorem Trans.of_run (h : s.run code table x = some t) : Trans code table s x t := by
  rw [State.run] at h
  split at h
  · cases h
  · rename_i next at'
    split at h
    · rename_i free
      cases h
      exact .enter at' free
    cases h
  · rename_i l at'
    cases h
    exact .code at'
  · rename_i at'
    cases h
    exact .scanned at'
  · rename_i chan q todo next at'
    split at h
    · rename_i eq
      rw [eq] at at'
      cases h
      exact .skip at'
    rename_i ne
    obtain ⟨free, rfl⟩ := State.acquire_some h
    exact .scan at' ne free
  · rename_i at'
    cases h
    split
    · rename_i both
      exact .wake at' both.1 both.2
    rename_i other
    exact .pass at' other
  · rename_i at'
    cases h
    exact .tested at'
  · rename_i at'
    obtain ⟨free, rfl⟩ := State.acquire_some h
    exact .ask at' free
  · rename_i at'
    cases h
    exact .asking at'
  · rename_i at'
    cases h
    exact .asked at'
  · rename_i at'
    obtain ⟨free, rfl⟩ := State.acquire_some h
    exact .sleep at' free
  · rename_i at'
    cases h
    exact .unlock at'
  · rename_i at'
    cases h
    exact .setChan at'
  · rename_i at'
    cases h
    exact .park at'
  · rename_i at'
    cases h
    exact .sched at'
  · rename_i at'
    split at h
    · rename_i both
      cases h
      exact .resume at' both.1 both.2
    cases h
  · rename_i at'
    cases h
    exact .tidy at'
  · rename_i at'
    cases h
    exact .relock at'
  · rename_i at'
    obtain ⟨free, rfl⟩ := State.acquire_some h
    exact .killLock at' free
  · rename_i at'
    cases h
    exact .killing at'
  rename_i at'
  cases h
  exact .killed at'

def Action.thread : Action P K → P
  | .call x _ | .kill x _ | .run x => x

theorem Trans.of_step {a : Action P K} (h : s.step code table a = some t) :
    Trans code table s a.thread t := by
  cases a with
  | call x f =>
    simp only [State.step] at h
    split at h
    · rename_i w at'
      obtain ⟨l, entry, rfl⟩ := Option.map_eq_some_iff.mp h
      exact .call at' entry
    cases h
  | kill x q =>
    simp only [State.step] at h
    split at h
    · rename_i w at'
      cases h
      exact .kill at'
    cases h
  | run x => exact .of_run h

end Trans

namespace State.Reachable

variable {P σ Chan L W K : Type} [DecidableEq P] [DecidableEq Chan] {code : Code P σ Chan L W K} {table : List P}
  {w : P → W} {data : σ} {allow : State P σ Chan L W → Action P K → Prop}

theorem play {fine : State P σ Chan L W → Action P K → Bool} {actions : List (Action P K)} :
    ∀ {s t : State P σ Chan L W}, (∀ s, ∀ a ∈ actions, fine s a = true → allow s a) →
    Reachable code table w data allow s → s.play code table fine actions = some t →
    Reachable code table w data allow t := by
  induction actions with
  | nil =>
    intro s t _ run played
    cases played
    exact run
  | cons a rest ih =>
    intro s t allowed run played
    rw [State.play] at played
    split at played
    · rename_i ok
      split at played
      · rename_i u stepped
        refine ih (fun s b mem => allowed s b (List.mem_cons_of_mem _ mem))
          (run.step ?_ stepped) played
        exact allowed s a List.mem_cons_self ok
      cases played
    cases played

theorem of_play {fine : State P σ Chan L W → Action P K → Bool} {actions : List (Action P K)}
    {check : State P σ Chan L W → Bool} (allowed : ∀ s, ∀ a ∈ actions, fine s a = true → allow s a)
    (played : ((State.init w data).play code table fine actions).any check = true) :
    ∃ s, Reachable code table w data allow s ∧ check s = true := by
  obtain ⟨s, h, played⟩ := (Option.any_eq_true _ _).1 played
  exact ⟨s, Reachable.init.play allowed h, played⟩

end State.Reachable

end Xv6.Monitor
