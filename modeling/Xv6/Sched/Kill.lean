import Xv6.Sched.Switch

/-!
# Kills that come between a test of `killed` and `sleep`

The loops in `wait`, `piperead`, `pipewrite`, `consoleread` and `sys_sleep` test
`killed` and then call `sleep`; the two take `p->lock` one after the other, and
`kill` needs no other lock. A kill that falls between them sets the flag of a process
that has already looked at it, and the process goes to sleep. Without such kills no
process goes to sleep in one of these loops once it has been killed.
-/

namespace Xv6.Sched

open Function renaming update → upd, update_self → upd_self, update_of_ne → upd_ne

set_option linter.unusedSectionVars false

/-- The code is about to enter `SLEEPING` in a loop that tests `killed`, or to decide
whether the pipe is full. -/
def entersSleep : List Instr → Bool
  | .full _ _ :: _ => true
  | .park _ .sleeping :: .sched :: .setChan _ none :: .release _ :: .acquire _ :: .waitScan _ _ _ _ :: _ => true
  | .park _ .sleeping :: .sched :: .setChan _ none :: .release _ :: .acquire _ :: .poll _ loop :: _ => loop.tests
  | _ => false

/-- The code enters `SLEEPING` without another test of `killed`. -/
def dozes : List Instr → Bool
  | [] => false
  | i :: rest => entersSleep (i :: rest) || dozes rest

theorem dozes_of_tail {i : Instr} {rest : List Instr} (h : dozes rest = true) :
    dozes (i :: rest) = true := by
  rw [dozes, h, Bool.or_true]

theorem dozes_wakeup (n : Nat) (me : Option Nat) (chan : Option Chan) (rest : List Instr) :
    dozes (wakeup n me chan ++ rest) = dozes rest := by
  unfold wakeup
  generalize (List.range n).filter _ = all
  induction all with
  | nil => rfl
  | cons q all ih =>
    rw [List.flatMap_cons, List.append_assoc]
    simpa [dozes, entersSleep] using ih

theorem dozes_sleep (p : Nat) (loop : Loop) : dozes (sleep p loop) = loop.tests := by
  cases loop <;> rfl

namespace Sys

variable {C : Type} [DecidableEq C]

/-- The process has tested `killed` and goes on to sleep. -/
def InWindow (s : Sys C) (p : Nat) : Prop :=
  (∃ c, (s.cpu c).thread = some p ∧ dozes (s.cpu c).code = true) ∨
    s.saved p = true ∧ dozes (s.ctx p) = true

def Timely (s : Sys C) (c : C) (a : Action) : Prop :=
  ∀ input i pid rest, a = .run input → (s.cpu c).code = .killTest i pid :: rest →
    (s.proc i).pid = pid → ¬ s.InWindow i

/-- The states of the runs in which every kill is timely. -/
inductive TimelyRun (n : Nat) : Sys C → Prop
  | init : TimelyRun n init
  | step {s t : Sys C} {c : C} {a : Action} :
      TimelyRun n s → s.Timely c a → s.step n c a = some (.ok t) → TimelyRun n t

section Runs

variable {n : Nat} {s t : Sys C} {c : C} {p : Nat} {input : Input}

theorem TimelyRun.reachable (run : TimelyRun n s) : Reachable n s := by
  induction run with
  | init => exact .init
  | step _ _ step ih => exact ih.step step

/-- Whoever is in the window has not been killed. -/
def Alive (s : Sys C) : Prop := ∀ p, s.InWindow p → (s.proc p).killed = false

section

variable (alive : Alive s)
include alive

theorem Alive.keep (cpu : ∀ c', c' ≠ c → t.cpu c' = s.cpu c')
    (self : ∀ p, (t.cpu c).thread = some p → dozes (t.cpu c).code = true → s.InWindow p)
    (saved : ∀ p, t.saved p = true → dozes (t.ctx p) = true → s.InWindow p)
    (killed : ∀ p, s.InWindow p → (s.proc p).killed = false → (t.proc p).killed = false) :
    Alive t := by
  intro p window
  have before : s.InWindow p := by
    rcases window with ⟨c', thread, doze⟩ | ⟨h, doze⟩
    · by_cases eq : c' = c
      · subst eq
        exact self p thread doze
      rw [cpu c' eq] at thread doze
      exact .inl ⟨c', thread, doze⟩
    exact saved p h doze
  exact killed p before (alive p before)

/-- Instructions that only go on in the code, or clear the flag of somebody. -/
theorem Alive.next {k : Cpu} (cpu : t.cpu = upd s.cpu c k) (thread : k.thread = (s.cpu c).thread)
    (code : k.thread ≠ none → dozes k.code = true → dozes (s.cpu c).code = true)
    (ctx : t.ctx = s.ctx ∧ t.saved = s.saved)
    (killed : ∀ p, (t.proc p).killed = (s.proc p).killed ∨ (t.proc p).killed = false) :
    Alive t := by
  refine alive.keep (c := c) (fun c' ne => ?_) (fun p own doze => ?_) (fun p h doze => ?_)
    (fun p _ before => ?_)
  · rw [cpu, upd_ne ne]
  · rw [cpu, upd_self] at own doze
    refine .inl ⟨c, thread.symm.trans own, code ?_ doze⟩
    rw [own]
    nofun
  · rw [ctx.2] at h
    rw [ctx.1] at doze
    exact .inr ⟨h, doze⟩
  rcases killed p with same | clear
  · rw [same, before]
  exact clear

theorem Alive.goto {code : List Instr}
    (doze : dozes code = true → dozes (s.cpu c).code = true) : Alive (s.goto c code) :=
  alive.next rfl rfl (fun _ => doze) ⟨rfl, rfl⟩ fun _ => .inl rfl

theorem Alive.setProc {code : List Instr} {q : Nat} {f : Proc → Proc}
    (doze : dozes code = true → dozes (s.cpu c).code = true)
    (killed : (f (s.proc q)).killed = (s.proc q).killed ∨ (f (s.proc q)).killed = false) :
    Alive ((s.setProc q f).goto c code) := by
  refine alive.next rfl rfl (fun _ => doze) ⟨rfl, rfl⟩ fun p => ?_
  show (upd s.proc q _ p).killed = _ ∨ (upd s.proc q _ p).killed = _
  by_cases eq : p = q
  · subst eq
    rw [upd_self]
    exact killed
  rw [upd_ne eq]
  exact .inl rfl

theorem Alive.history (proc : t.proc = s.proc) (cpu : t.cpu = s.cpu)
    (ctx : t.ctx = s.ctx) (saved : t.saved = s.saved) : Alive t := by
  intro p window
  rw [InWindow, cpu, ctx, saved] at window
  rw [proc]
  exact alive p window

theorem Alive.kill {code : List Instr} {q : Nat} {f : Proc → Proc}
    (doze : dozes code = true → dozes (s.cpu c).code = true) (outside : ¬ s.InWindow q) :
    Alive ((s.setProc q f).goto c code) := by
  refine alive.keep (c := c) (fun c' ne => upd_ne ne _ _) (fun p own doze' => ?_)
    (fun p h doze' => .inr ⟨h, doze'⟩) (fun p window before => ?_)
  · rw [Sys.goto, setCpu_cpu, upd_self] at own doze'
    exact .inl ⟨c, own, doze doze'⟩
  show (upd s.proc q _ p).killed = false
  rw [upd_ne, before]
  rintro rfl
  exact outside window

end

theorem Alive.exec {j : Instr} {rest : List Instr} (good : Good s) (alive : Alive s)
    (timely : s.Timely c (.run input)) (at' : (s.cpu c).code = j :: rest)
    (step : s.exec n c input j rest = some (.ok t)) : Alive t := by
  have typed := good.inv.typedAt at'
  -- code that the process goes on with is in the window only if it was before
  have tail : dozes rest = true → dozes (s.cpu c).code = true := fun h => by
    rw [at']
    exact dozes_of_tail h
  cases j <;> simp only [Sys.exec] at step
  case acquire l =>
    split at step
    · cases step
    split at step
    · cases step
      exact alive.next (take_goto_cpu l) rfl (fun _ => tail) ⟨rfl, rfl⟩ fun _ => .inl rfl
    cases step
  case release l =>
    split at step
    · cases step
      exact alive.next (drop_goto_cpu l) rfl (fun _ => tail) ⟨rfl, rfl⟩ fun _ => .inl rfl
    cases step
  case setChan | setParent | setXstate =>
    cases step
    exact alive.setProc tail (.inl rfl)
  case park p new =>
    cases step
    have parked : Alive ((s.setProc p fun q => { q with state := new }).goto c rest) :=
      alive.setProc tail (.inl rfl)
    split
    · exact parked.history rfl rfl rfl rfl
    exact parked
  case sched =>
    obtain ⟨p, proc, lock, one, parked, -⟩ := good.inv.sched at'
    obtain ⟨q, thread, -⟩ := typed
    obtain rfl : q = p := Option.some.inj ((good.inv.mine c q thread).1.symm.trans proc)
    rw [proc] at step
    simp only [lock, one, parked, ne_eq, not_true_eq_false, if_false] at step
    cases step
    refine alive.keep (c := c) (fun c' ne => upd_ne ne _ _) (fun p own => ?_) (fun p => ?_)
      (fun _ _ h => h)
    · rw [save] at own
      dsimp only at own
      rw [setCpu_cpu, upd_self] at own
      cases own
    show upd s.saved q true p = true → dozes (upd s.ctx q rest p) = true → _
    by_cases eq : p = q
    · rw [eq, upd_self, upd_self]
      exact fun _ doze => .inl ⟨c, thread, tail doze⟩
    rw [upd_ne eq, upd_ne eq]
    exact fun h doze => .inr ⟨h, doze⟩
  case loadSched | schedNext | swtchTo | clearProc =>
    cases step
    refine alive.next rfl rfl (fun running => ?_) ⟨rfl, rfl⟩ fun _ => .inl rfl
    exact absurd typed.1 running
  case wake q chan =>
    cases step
    split
    · exact alive.setProc tail (.inl rfl)
    exact alive.goto tail
  case setKilled p =>
    obtain ⟨thread, -, -, rfl⟩ := typed
    cases step
    refine alive.kill tail ?_
    rintro (⟨c', thread', doze⟩ | ⟨saved, -⟩)
    · rw [good.inv.solo c' c p thread' thread, at'] at doze
      cases doze
    rw [(good.inv.mine c p thread).2.2] at saved
    cases saved
  case killNext | forkNext =>
    cases step
    refine alive.goto ?_
    split
    · intro h
      exact tail h
    exact tail
  case killTest i pid =>
    split at step
    · rename_i found
      cases step
      exact alive.kill (fun h => tail h) (timely input i pid rest rfl at' found)
    cases step
    exact alive.goto fun h => tail h
  case forkTest p i =>
    split at step
    swap
    · cases step
      exact alive.goto fun h => tail h
    rename_i unused
    split at step
    swap
    · cases step
      have freed : Alive ((s.setProc i Proc.free).goto c (.release (.proc i) :: rest)) :=
        alive.setProc (fun h => tail h) (.inr rfl)
      exact freed.history rfl rfl rfl rfl
    cases step
    refine alive.keep (c := c) (fun c' ne => upd_ne ne _ _) (fun p own doze => ?_)
      (fun p => ?_) (fun p _ before => ?_)
    · rw [Sys.goto, setCpu_cpu, upd_self] at own doze
      exact .inl ⟨c, own, tail doze⟩
    · show upd s.saved i true p = true →
        dozes (upd s.ctx i (forkret i) p) = true → _
      by_cases eq : p = i
      · rw [eq, upd_self, upd_self]
        exact fun _ h => by cases h
      rw [upd_ne eq, upd_ne eq]
      exact fun h doze => .inr ⟨h, doze⟩
    show (upd s.proc i _ p).killed = false
    by_cases eq : p = i
    · rw [eq, upd_self]
      rw [eq] at before
      exact before
    rw [upd_ne eq]
    exact before
  case publish p i =>
    cases step
    have published : Alive ((s.setProc i fun q => { q with state := .runnable }).goto c rest) :=
      alive.setProc tail (.inl rfl)
    exact published.history rfl rfl rfl rfl
  case waitScan p i havekids copy =>
    cases step
    refine alive.goto ?_
    split <;> split <;> exact fun h => tail h
  case waitTest p i copy =>
    split at step
    · split at step
      · cases step
        exact alive.goto fun h => tail h
      cases step
      have freed : Alive ((s.setProc i Proc.free).goto c
          (.release (.proc i) :: .release .wait :: rest)) := alive.setProc (fun h => tail h) (.inr rfl)
      exact freed.history rfl rfl rfl rfl
    cases step
    exact alive.goto fun h => tail h
  case killedTest p loop =>
    obtain ⟨thread, -, -, rfl⟩ := typed
    cases step
    by_cases killed : (s.proc p).killed = true
    · rw [if_pos killed]
      exact alive.goto fun h => by cases h
    intro q window
    rcases window with ⟨c', thread', doze⟩ | ⟨saved, doze⟩
    · by_cases eq : c' = c
      · rw [eq, Sys.goto, setCpu_cpu, upd_self] at thread'
        rw [← Option.some.inj (thread.symm.trans thread')]
        show (s.proc p).killed = false
        simpa using killed
      rw [Sys.goto, setCpu_cpu, upd_ne eq] at thread' doze
      exact alive q (.inl ⟨c', thread', doze⟩)
    exact alive q (.inr ⟨saved, doze⟩)
  case poll p loop =>
    obtain ⟨thread, -, -, rfl⟩ := typed
    split at step <;> cases step <;> refine alive.goto fun h => ?_
    · rw [List.append_nil, dozes_sleep] at h
      cases h
    · cases h
    · rw [dozes_wakeup] at h
      cases h
    · rw [dozes_wakeup] at h
      cases h
    · cases h
    cases h
  case full p pi =>
    obtain ⟨thread, -, -, rfl⟩ := typed
    have window : dozes (s.cpu c).code = true := by
      rw [at']
      rfl
    split at step <;> cases step <;> exact alive.goto fun _ => window
  case reparent p i status =>
    obtain ⟨thread, -, -, -, rfl⟩ := typed
    split at step
    · split at step
      · cases step
        refine alive.setProc (fun h => ?_) (.inl rfl)
        rw [dozes_wakeup] at h
        cases h
      cases step
      exact alive.goto fun h => by cases h
    cases step
    refine alive.goto fun h => ?_
    rw [exitEnd, dozes_wakeup] at h
    cases h
  case zombieExit => exact typed.elim
  case schedTest i =>
    split at step
    · cases step
      refine alive.next (c := c) rfl rfl (fun running => absurd typed.1 running)
        ⟨rfl, rfl⟩ fun p => ?_
      show (upd s.proc i _ p).killed = _ ∨ _
      by_cases eq : p = i
      · rw [eq, upd_self]
        exact .inl rfl
      rw [upd_ne eq]
      exact .inl rfl
    cases step
    refine alive.next rfl rfl (fun running => ?_) ⟨rfl, rfl⟩ fun _ => .inl rfl
    exact absurd typed.1 running
  case restore i =>
    obtain ⟨idle, -, -, rfl⟩ := typed
    obtain ⟨-, -, resumable, -⟩ := good.inv.atTarget (i := i) idle (by rw [at']; rfl)
    cases step
    refine alive.keep (c := c) (fun c' ne => upd_ne ne _ _) (fun p own doze => ?_)
      (fun p => ?_) (fun _ _ h => h)
    · rw [load] at own doze
      dsimp only at own doze
      rw [setCpu_cpu, upd_self] at own doze
      cases own
      exact .inr ⟨resumable.1, doze⟩
    show upd s.saved i false p = true → dozes (s.ctx p) = true → _
    by_cases eq : p = i
    · rw [eq, upd_self]
      simp
    rw [upd_ne eq]
    exact fun h doze => .inr ⟨h, doze⟩

theorem dozes_call {f : Call} {code : List Instr} (step : Sys.call n p f = .ok code) :
    dozes code = false := by
  cases f <;> simp only [Sys.call] at step
  case exit status =>
    split at step <;> cases step
    rfl
  case loop loop =>
    cases step
    cases loop <;> rfl
  case wakeup lock chan =>
    cases step
    show dozes (.acquire (.other lock) :: (wakeup n (some p)
      (some chan) ++ [.release (.other lock)])) = _
    rw [dozes, dozes_wakeup]
    rfl
  all_goals
    cases step
    rfl

theorem Alive.step {a : Action} (good : Good s) (alive : Alive s) (timely : s.Timely c a)
    (step : s.step n c a = some (.ok t)) : Alive t := by
  cases Sys.took_of_step step with
  | run at' step => exact alive.exec good timely at' step
  | call at' proc code =>
    refine alive.goto fun h => ?_
    rw [dozes_call code] at h
    cases h
  | timer free proc => exact alive.goto fun h => h
  | device free =>
    refine alive.goto fun h => ?_
    rw [dozes, dozes_wakeup] at h
    exact h

theorem TimelyRun.alive (run : TimelyRun n s) : Alive s := by
  induction run with
  | init =>
    rintro p (⟨c, thread, -⟩ | ⟨-, doze⟩)
    · cases thread
    simp only [Sys.init] at doze
    split at doze <;> cases doze
  | step before timely step ih => exact ih.step before.reachable.good timely step

end Runs

end Sys

/-- In every run without a kill between the test of `killed` and `sleep`: a process that
enters `SLEEPING` in one of the loops that test `killed` has not been killed. -/
theorem kill_not_lost {C : Type} [DecidableEq C] {n : Nat} {s : Sys C} (run : Sys.TimelyRun n s) :
    ∀ c p loop rest, loop.tests = true → (s.cpu c).code = (sleepTail p loop).tail ++ rest →
      (s.proc p).killed = false := by
  intro c p loop rest tests at'
  have good := run.reachable.good
  obtain ⟨thread, -⟩ := good.inv.typedAt at'
  refine run.alive p (Or.inl ⟨c, thread, ?_⟩)
  rw [at']
  cases loop
  case other i => cases tests
  all_goals rfl

/-- The first process forks, waits, and has found `killed` to be 0. -/
def firstWaits : List (Bool × Sys.Action) :=
  List.replicate 6 (false, .run .yes) ++ [(false, .call .fork)] ++ List.replicate 14 (false, .run .yes) ++
    [(false, .call (.loop (.wait false)))] ++ List.replicate 10 (false, .run .yes)

/-- Its child runs on the other CPU and kills it; then it goes on in `sleep`. -/
def childKills : List (Bool × Sys.Action) :=
  List.replicate 10 (true, .run .yes) ++ [(true, .call (.kill 1))] ++
    List.replicate 4 (true, .run .yes) ++ List.replicate 3 (false, .run .yes)

theorem childKills_lost : ∃ s t : Sys Bool, Sys.Reachable 2 s ∧ (s.proc 0).killed = true ∧
    (s.cpu false).code = (sleepTail 0 (.wait false)).tail ∧
    s.step 2 false (.run .yes) = some (.ok t) ∧ (t.proc 0).state = .sleeping ∧
    (t.proc 0).killed = true := by
  have played : (((Sys.init : Sys Bool).play 2 (firstWaits ++ childKills)).any fun s =>
      (s.proc 0).killed = true ∧ (s.cpu false).code = (sleepTail 0 (.wait false)).tail) = true := by
    decide +kernel
  obtain ⟨s, run, check⟩ := Sys.Reachable.of_play played
  obtain ⟨killed, code⟩ := of_decide_eq_true check
  refine ⟨s, (s.setProc 0 fun q => { q with state := .sleeping }).goto false
    (sleepTail 0 (.wait false)).tail.tail, run, killed, code, ?_, rfl, killed⟩
  rw [Sys.step, code]
  rfl

instance (s : Sys Bool) (p : Nat) : Decidable (s.InWindow p) := inferInstanceAs (Decidable (_ ∨ _))

/-- The instruction is not a kill of a process in the window. -/
def timelyAt (s : Sys Bool) : List Instr → Bool
  | .killTest i pid :: _ => decide ((s.proc i).pid = pid → ¬ s.InWindow i)
  | _ => true

/-- The kills of a schedule are timely. -/
def timely (s : Sys Bool) : List (Bool × Sys.Action) → Bool
  | [] => true
  | (c, a) :: rest => timelyAt s (s.cpu c).code &&
    match s.step 2 c a with
    | some (.ok t) => timely t rest
    | _ => false

theorem Sys.TimelyRun.of_timely {schedule : List (Bool × Sys.Action)} :
    ∀ {s t : Sys Bool}, Sys.TimelyRun 2 s → timely s schedule = true → s.play 2 schedule = some t →
      Sys.TimelyRun 2 t := by
  induction schedule with
  | nil =>
    rintro s t run - h
    cases h
    exact run
  | cons move rest ih =>
    obtain ⟨c, a⟩ := move
    intro s t run calm h
    rw [Sys.play] at h
    split at h
    · rename_i u step
      rw [timely, step, Bool.and_eq_true] at calm
      refine ih (run.step (fun input i pid rest _ at' => ?_) step) calm.2 h
      have here := calm.1
      rw [at'] at here
      exact of_decide_eq_true here
    cases h

/-- The first process sleeps in `wait`. Then its child kills it, and goes to sleep in `sys_sleep`.
-/
def killsSleeper : List (Bool × Sys.Action) :=
  firstWaits ++ List.replicate 8 (false, .run .yes) ++ List.replicate 10 (true, .run .yes) ++
    [(true, .call (.kill 1))] ++ List.replicate 4 (true, .run .yes) ++ [(true, .call (.loop .sysSleep))] ++
    List.replicate 8 (true, .run .no)

theorem killsSleeper_timely : ∃ s : Sys Bool, Sys.TimelyRun 2 s ∧ (s.proc 0).killed = true ∧
    (s.proc 0).state = .runnable ∧ (s.cpu true).code = (sleepTail 1 .sysSleep).tail ++ [] ∧
    (s.proc 1).killed = false := by
  have calm : timely Sys.init killsSleeper = true := by decide +kernel
  have played : (((Sys.init : Sys Bool).play 2 killsSleeper).any fun s => (s.proc 0).killed = true ∧
      (s.proc 0).state = .runnable ∧ (s.cpu true).code = (sleepTail 1 .sysSleep).tail ++ []) = true := by
    decide +kernel
  obtain ⟨s, h, played⟩ := (Option.any_eq_true _ _).1 played
  have run : Sys.TimelyRun 2 s := Sys.TimelyRun.init.of_timely calm h
  obtain ⟨killed, woken, code⟩ := of_decide_eq_true played
  exact ⟨s, run, killed, woken, code, kill_not_lost run true 1 .sysSleep [] rfl code⟩

end Xv6.Sched
