import Mathlib.Tactic

/-!
# Processes, their locks and the scheduler

`kernel/proc.c` with the loops that sleep in it: any number of CPUs work off
instructions, each of which is one `acquire`, one `release` or one assignment or
test that the code makes while it holds the locks. A CPU runs either the thread
of a process or its own scheduler; `swtch` is two instructions, one that saves the
registers and one that loads them. What the code decides from memory that is not
modelled (the contents of pipes, the console and the clock, and whether `copyout`,
`kalloc` and `uvmcopy` succeed) is an input of the instruction.

A timer interrupt may make a process yield, and a device interrupt may call
`wakeup`, wherever the CPU holds no spin-lock.
-/

namespace Xv6.Sched

open Function renaming update → upd

/-- `enum procstate`. -/
inductive Procstate
  | unused
  | used
  | sleeping
  | runnable
  | running
  | zombie
  deriving DecidableEq

/-- The spin-locks: `p->lock`, `wait_lock`, the lock of a pipe, of the console, of
the clock, and those of other code that sleeps. -/
inductive Lock
  | proc (p : Nat)
  | wait
  | pipe (pi : Nat)
  | cons
  | ticks
  | other (i : Nat)
  deriving DecidableEq

/-- The addresses that processes sleep on. -/
inductive Chan
  | proc (p : Nat)
  | nread (pi : Nat)
  | nwrite (pi : Nat)
  | consR
  | ticks
  | other (i : Nat)
  deriving DecidableEq

/-- The fields of `struct proc` that other processes look at. -/
structure Proc where
  state : Procstate
  chan : Option Chan
  killed : Bool
  xstate : Int
  pid : Nat
  parent : Option Nat
  deriving DecidableEq

instance : Inhabited Proc := ⟨.unused, none, false, 0, 0, none⟩

/-- The assignments of `freeproc`. -/
def Proc.free (_ : Proc) : Proc := ⟨.unused, none, false, 0, 0, none⟩

/-- The loops around a call of `sleep`: those that test `killed` before it, and
those of other code (`acquiresleep`, `begin_op`), which do not. `copy` says that
`wait` was given an address for the status. -/
inductive Loop
  | wait (copy : Bool)
  | piperead (pi : Nat)
  | pipewrite (pi : Nat)
  | consoleread
  | sysSleep
  | other (i : Nat)
  deriving DecidableEq

namespace Loop

def lock : Loop → Lock
  | wait _ => .wait
  | piperead pi | pipewrite pi => .pipe pi
  | consoleread => .cons
  | sysSleep => .ticks
  | other i => .other i

def chan (p : Nat) : Loop → Chan
  | wait _ => .proc p
  | piperead pi => .nread pi
  | pipewrite pi => .nwrite pi
  | consoleread => .consR
  | sysSleep => .ticks
  | other i => .other i

/-- The loop tests `killed` before it sleeps. -/
def tests : Loop → Bool
  | other _ => false
  | _ => true

end Loop

inductive Instr
  | acquire (l : Lock)
  | release (l : Lock)
  | setChan (p : Nat) (chan : Option Chan)
  | park (p : Nat) (state : Procstate)
  | sched
  | loadSched
  | wake (q : Nat) (chan : Option Chan)
  | setKilled (p : Nat)
  | killNext (i pid : Nat)
  | killTest (i pid : Nat)
  | forkNext (p i : Nat)
  | forkTest (p i : Nat)
  | setParent (i p : Nat)
  | publish (p i : Nat)
  | waitScan (p i : Nat) (havekids copy : Bool)
  | waitTest (p i : Nat) (copy : Bool)
  | killedTest (p : Nat) (loop : Loop)
  | poll (p : Nat) (loop : Loop)
  | full (p pi : Nat)
  | reparent (p i : Nat) (status : Int)
  | setXstate (p : Nat) (status : Int)
  | zombieExit
  | schedNext (i : Nat)
  | schedTest (i : Nat)
  | swtchTo (i : Nat)
  | restore (i : Nat)
  | clearProc
  deriving DecidableEq

/-! ## Functions as instructions -/

section Code

/-- `wakeup(chan)` on a CPU whose `c->proc` is `me`, for a table of `n` processes. -/
def wakeup (n : Nat) (me : Option Nat) (chan : Option Chan) : List Instr :=
  ((List.range n).filter fun q => me ≠ some q).flatMap fun q => [.acquire (.proc q), .wake q chan, .release (.proc q)]

/-- Back to the head of the loop. -/
def Loop.again (p : Nat) : Loop → Instr
  | .wait copy => .waitScan p 0 false copy
  | loop => .poll p loop

/-- `sleep` up to the call of `sched`, once it has `p->lock`. -/
def sleepTail (p : Nat) (loop : Loop) : List Instr :=
  [.setChan p (some (loop.chan p)), .park p .sleeping, .sched, .setChan p none, .release (.proc p),
    .acquire loop.lock, loop.again p]

def sleep (p : Nat) (loop : Loop) : List Instr :=
  .acquire (.proc p) :: .release loop.lock :: sleepTail p loop

def yield (p : Nat) : List Instr :=
  [.acquire (.proc p), .park p .runnable, .sched, .release (.proc p)]

/-- What the scheduler does when process `p` has switched back to it. -/
def resume (p : Nat) : List Instr := [.clearProc, .release (.proc p), .schedNext (p + 1)]

def forkret (p : Nat) : List Instr := [.release (.proc p)]

/-- The end of `fork`, once the child has its memory and its files. -/
def forkEnd (p i : Nat) : List Instr :=
  [.release (.proc i), .acquire .wait, .setParent i p, .release .wait, .acquire (.proc i), .publish p i,
    .release (.proc i)]

def exitEnd (n p : Nat) (parent : Option Nat) (status : Int) : List Instr :=
  wakeup n (some p) (parent.map Chan.proc) ++
    [.acquire (.proc p), .setXstate p status, .park p .zombie, .release .wait, .sched, .zombieExit]

/-- The calls that a process makes. -/
inductive Call
  | fork
  | exit (status : Int)
  | kill (pid : Nat)
  | setkilled
  | yield
  | loop (loop : Loop)
  | wakeup (lock : Nat) (chan : Chan)
  deriving DecidableEq

end Code

/-! ## The machine -/

inductive Panic
  | acquire
  | release
  | schedLock
  | schedLocks
  | schedRunning
  | noProc
  | initExiting
  | zombieExit
  deriving DecidableEq

/-- `struct cpu`, and what the CPU is doing. `held` are the locks it has acquired,
whose number is `noff`; `context` is what `swtch` to the scheduler loads; `thread`
is the process on whose stack it runs. -/
structure Cpu where
  proc : Option Nat
  held : List Lock
  thread : Option Nat
  code : List Instr
  context : List Instr

/-- An `exit` that has made its process a zombie. -/
structure Exit where
  slot : Nat
  pid : Nat
  status : Int
  deriving DecidableEq

/-- A `wait` that has freed a zombie: the number of the exit, the caller, the parent
of the zombie at that moment, and what the call returns. -/
structure Return where
  exit : Option Nat
  caller : Nat
  parent : Option Nat
  pid : Nat
  status : Int
  deriving DecidableEq

/-- The table, the locks, the CPUs, and the saved contexts. `saved p` says that the
context of `p` is complete, and `making i` names the process that `fork` makes the
slot `i` for. `exits`, `returns` and, for a zombie, `exitOf` record the history. -/
structure Sys (C : Type) where
  proc : Nat → Proc
  nextpid : Nat
  lock : Lock → Option C
  cpu : C → Cpu
  ctx : Nat → List Instr
  saved : Nat → Bool
  making : Nat → Option Nat
  exits : List Exit
  returns : List Return
  exitOf : Nat → Option Nat

/-- The process that `userinit` makes. -/
abbrev initproc : Nat := 0

/-- What the code decides from memory that is not modelled. -/
inductive Input
  | yes
  | no
  | fail
  deriving DecidableEq

namespace Sys

variable {C : Type} [DecidableEq C]

@[simps -fullyApplied] def setProc (s : Sys C) (p : Nat) (f : Proc → Proc) : Sys C :=
  { s with proc := upd s.proc p (f (s.proc p)) }

@[simps -fullyApplied] def setCpu (s : Sys C) (c : C) (k : Cpu) : Sys C :=
  { s with cpu := upd s.cpu c k }

def goto (s : Sys C) (c : C) (code : List Instr) : Sys C :=
  s.setCpu c { s.cpu c with code }

@[simps -fullyApplied] def setLock (s : Sys C) (l : Lock) (owner : Option C) : Sys C :=
  { s with lock := upd s.lock l owner }

def take (s : Sys C) (c : C) (l : Lock) : Sys C :=
  (s.setLock l (some c)).setCpu c { s.cpu c with held := l :: (s.cpu c).held }

def drop (s : Sys C) (c : C) (l : Lock) : Sys C :=
  (s.setLock l none).setCpu c { s.cpu c with held := (s.cpu c).held.erase l }

/-- `p->state = ZOMBIE` also enters the history. -/
def recordExit (s : Sys C) (p : Nat) : Sys C :=
  { s with
    exits := s.exits ++ [⟨p, (s.proc p).pid, (s.proc p).xstate⟩]
    exitOf := upd s.exitOf p (some s.exits.length) }

def recordReturn (s : Sys C) (p i : Nat) : Sys C :=
  { s with
    returns := s.returns ++ [⟨s.exitOf i, p, (s.proc i).parent, (s.proc i).pid, (s.proc i).xstate⟩]
    exitOf := upd s.exitOf i none }

/-- The effect of `sched`: save the registers in `p->context`. -/
def save (s : Sys C) (c : C) (p : Nat) (rest : List Instr) : Sys C :=
  { s.setCpu c { s.cpu c with thread := none, code := [.loadSched] } with
    ctx := upd s.ctx p rest
    saved := upd s.saved p true }

/-- Load the registers from `p->context`. -/
def load (s : Sys C) (c : C) (p : Nat) : Sys C :=
  { s.setCpu c { s.cpu c with thread := some p, code := s.ctx p } with
    saved := upd s.saved p false }

def countPid (s : Sys C) : Sys C := { s with nextpid := (s.nextpid + 1) % 2 ^ 32 }

def allocproc (s : Sys C) (p i : Nat) : Sys C :=
  { (s.setProc i fun q => { q with state := .used, pid := s.nextpid }).countPid with
    ctx := upd s.ctx i (forkret i)
    saved := upd s.saved i true
    making := upd s.making i (some p) }

/-- One instruction; `none` where the CPU spins or the input does not fit. `n` is the
size of the table. -/
def exec (n : Nat) (s : Sys C) (c : C) (input : Input) :
    Instr → List Instr → Option (Except Panic (Sys C))
  | .acquire l, rest =>
    if s.lock l = some c then some (.error .acquire)
    else if s.lock l = none then some (.ok ((s.take c l).goto c rest))
    else none
  | .release l, rest =>
    if s.lock l = some c then some (.ok ((s.drop c l).goto c rest)) else some (.error .release)
  | .setChan p chan, rest => some (.ok ((s.setProc p fun q => { q with chan }).goto c rest))
  | .park p state, rest =>
    let t := s.setProc p fun q => { q with state }
    some (.ok ((if state = .zombie then t.recordExit p else t).goto c rest))
  | .sched, rest =>
    match (s.cpu c).proc with
    | none => some (.error .noProc)
    | some p =>
      if s.lock (.proc p) ≠ some c then some (.error .schedLock)
      else if (s.cpu c).held.length ≠ 1 then some (.error .schedLocks)
      else if (s.proc p).state = .running then some (.error .schedRunning)
      else some (.ok (s.save c p rest))
  | .loadSched, _ => some (.ok (s.goto c (s.cpu c).context))
  | .wake q chan, rest =>
    some (.ok ((if (s.proc q).state = .sleeping ∧ (s.proc q).chan = chan then
      s.setProc q fun r => { r with state := .runnable } else s).goto c rest))
  | .setKilled p, rest => some (.ok ((s.setProc p fun q => { q with killed := true }).goto c rest))
  | .killNext i pid, rest =>
    some (.ok (s.goto c (if i < n then .acquire (.proc i) :: .killTest i pid :: rest else rest)))
  | .killTest i pid, rest =>
    if (s.proc i).pid = pid then
      some (.ok ((s.setProc i fun q => { q with
        killed := true
        state := if q.state = .sleeping then .runnable else q.state }).goto c (.release (.proc i) :: rest)))
    else some (.ok (s.goto c (.release (.proc i) :: .killNext (i + 1) pid :: rest)))
  | .forkNext p i, rest => some (.ok (s.goto c (if i < n then .acquire (.proc i) :: .forkTest p i :: rest else rest)))
  | .forkTest p i, rest =>
    if (s.proc i).state = .unused then
      -- the input is whether `kalloc`, `proc_pagetable` and `uvmcopy` succeed
      if input = .yes then some (.ok ((s.allocproc p i).goto c (forkEnd p i ++ rest)))
      else some (.ok (((s.setProc i Proc.free).countPid).goto c (.release (.proc i) :: rest)))
    else some (.ok (s.goto c (.release (.proc i) :: .forkNext p (i + 1) :: rest)))
  | .setParent i p, rest => some (.ok ((s.setProc i fun q => { q with parent := some p }).goto c rest))
  | .publish _ i, rest =>
    some (.ok ({ s.setProc i fun q => { q with state := .runnable } with
      making := upd s.making i none }.goto c rest))
  | .waitScan p i havekids copy, rest =>
    some (.ok (s.goto c (if i < n then
        if (s.proc i).parent = some p then .acquire (.proc i) :: .waitTest p i copy :: rest
        else .waitScan p (i + 1) havekids copy :: rest
      else if havekids then .acquire (.proc p) :: .killedTest p (.wait copy) :: rest
      else .release .wait :: rest)))
  | .waitTest p i copy, rest =>
    if (s.proc i).state = .zombie then
      -- the input is the result of `copyout`
      if copy ∧ input ≠ .yes then
        some (.ok (s.goto c (.release (.proc i) :: .release .wait :: rest)))
      else
        some (.ok (((s.recordReturn p i).setProc i Proc.free).goto c (.release (.proc i) :: .release .wait :: rest)))
    else some (.ok (s.goto c (.release (.proc i) :: .waitScan p (i + 1) true copy :: rest)))
  | .killedTest p loop, rest =>
    some (.ok (s.goto c (.release (.proc p) :: (if (s.proc p).killed then .release loop.lock :: rest
      else
        match loop with
        | .pipewrite pi => .full p pi :: rest
        | _ => sleep p loop ++ rest))))
  | .poll p loop, rest =>
    match input, loop with
    | .no, .other _ => some (.ok (s.goto c (sleep p loop ++ rest)))
    | .no, _ => some (.ok (s.goto c (.acquire (.proc p) :: .killedTest p loop :: rest)))
    | .yes, .piperead pi =>
      some (.ok (s.goto c (wakeup n (some p) (some (.nwrite pi)) ++ .release loop.lock :: rest)))
    | .yes, .pipewrite pi =>
      some (.ok (s.goto c (wakeup n (some p) (some (.nread pi)) ++ .release loop.lock :: rest)))
    | .yes, _ => some (.ok (s.goto c (.release loop.lock :: rest)))
    -- the read end of the pipe is closed
    | .fail, .pipewrite _ => some (.ok (s.goto c (.release loop.lock :: rest)))
    | .fail, _ => none
  | .full p pi, rest =>
    match input with
    | .yes => some (.ok (s.goto c
        (wakeup n (some p) (some (.nread pi)) ++ (sleep p (.pipewrite pi) ++ rest))))
    | .no => some (.ok (s.goto c (.poll p (.pipewrite pi) :: rest)))
    -- `copyin` failed
    | .fail => some (.ok (s.goto c
        (wakeup n (some p) (some (.nread pi)) ++ .release (.pipe pi) :: rest)))
  | .reparent p i status, rest =>
    if i < n then
      if (s.proc i).parent = some p then
        some (.ok ((s.setProc i fun q => { q with parent := some initproc }).goto c
          (wakeup n (some p) (some (.proc initproc)) ++ .reparent p (i + 1) status :: rest)))
      else some (.ok (s.goto c (.reparent p (i + 1) status :: rest)))
    else some (.ok (s.goto c (exitEnd n p (s.proc p).parent status)))
  | .setXstate p status, rest => some (.ok ((s.setProc p fun q => { q with xstate := status }).goto c rest))
  | .zombieExit, _ => some (.error .zombieExit)
  | .schedNext i, _ =>
    some (.ok (s.goto c (if i < n then [.acquire (.proc i), .schedTest i, .release (.proc i), .schedNext (i + 1)]
      else [.schedNext 0])))
  | .schedTest i, rest =>
    if (s.proc i).state = .runnable then
      some (.ok ((s.setProc i fun q => { q with state := .running }).setCpu c
        { s.cpu c with proc := some i, code := .swtchTo i :: .clearProc :: rest }))
    else some (.ok (s.goto c rest))
  | .swtchTo i, rest => some (.ok (s.setCpu c { s.cpu c with context := rest, code := [.restore i] }))
  | .restore i, _ => some (.ok (s.load c i))
  | .clearProc, rest => some (.ok (s.setCpu c { s.cpu c with proc := none, code := rest }))

def call (n p : Nat) : Call → Except Panic (List Instr)
  | .fork => .ok [.forkNext p 0]
  | .exit status =>
    if p = initproc then .error .initExiting else .ok [.acquire .wait, .reparent p 0 status]
  | .kill pid => .ok [.killNext 0 pid]
  | .setkilled => .ok [.acquire (.proc p), .setKilled p, .release (.proc p)]
  | .yield => .ok (yield p)
  | .loop loop => .ok [.acquire loop.lock, loop.again p]
  | .wakeup lock chan => .ok (.acquire (.other lock) :: wakeup n (some p) (some chan) ++ [.release (.other lock)])

/-- What a CPU does: work off its next instruction, let the process make a call, or
take an interrupt. -/
inductive Action
  | run (input : Input)
  | call (call : Call)
  | timer
  | device (lock : Nat) (chan : Chan)
  deriving DecidableEq

def step (n : Nat) (s : Sys C) (c : C) : Action → Option (Except Panic (Sys C))
  | .run input =>
    match (s.cpu c).code with
    | [] => none
    | i :: rest => s.exec n c input i rest
  | .call f =>
    match (s.cpu c).code, (s.cpu c).proc with
    | [], some p => some ((call n p f).map fun code => s.goto c code)
    | _, _ => none
  -- interrupts are on only while the CPU holds no spin-lock
  | .timer =>
    match (s.cpu c).held, (s.cpu c).proc with
    | [], some p =>
      if (s.proc p).state = .running then some (.ok (s.goto c (yield p ++ (s.cpu c).code)))
      else none
    | _, _ => none
  | .device lock chan =>
    match (s.cpu c).held with
    | [] => some (.ok (s.goto c (.acquire (.other lock) ::
        (wakeup n (s.cpu c).proc (some chan) ++ .release (.other lock) :: (s.cpu c).code))))
    | _ => none

/-- How a step that does not panic comes about. -/
inductive Took (n : Nat) (s : Sys C) (c : C) : Action → Sys C → Prop
  | run {input : Input} {i : Instr} {rest : List Instr} {t : Sys C}
      (at' : (s.cpu c).code = i :: rest)
      (step : s.exec n c input i rest = some (.ok t)) : Took n s c (.run input) t
  | call {f : Call} {p : Nat} {is : List Instr} (at' : (s.cpu c).code = [])
      (proc : (s.cpu c).proc = some p)
      (code : call n p f = .ok is) : Took n s c (.call f) (s.goto c is)
  | timer {p : Nat} (free : (s.cpu c).held = []) (proc : (s.cpu c).proc = some p) :
      Took n s c .timer (s.goto c (yield p ++ (s.cpu c).code))
  | device {lock : Nat} {chan : Chan} (free : (s.cpu c).held = []) :
      Took n s c (.device lock chan) (s.goto c (.acquire (.other lock) ::
        (wakeup n (s.cpu c).proc (some chan) ++ .release (.other lock) :: (s.cpu c).code)))

theorem took_of_step {n : Nat} {s t : Sys C} {c : C} {a : Action}
    (step : s.step n c a = some (.ok t)) : Took n s c a t := by
  cases a with
  | run input =>
    simp only [Sys.step] at step
    split at step
    · cases step
    rename_i at'
    exact .run at' step
  | call f =>
    simp only [Sys.step] at step
    split at step
    · rename_i p at' proc
      cases code : call n p f with
      | error e =>
        rw [code] at step
        cases step
      | ok code' =>
        rw [code] at step
        cases step
        exact .call at' proc code
    cases step
  | timer =>
    simp only [Sys.step] at step
    split at step
    · rename_i free proc
      split at step
      · cases step
        exact .timer free proc
      cases step
    cases step
  | device lock chan =>
    simp only [Sys.step] at step
    split at step
    · rename_i free
      cases step
      exact .device free
    cases step

/-- After `main` on every CPU: the first process is there and nothing runs. -/
def init : Sys C where
  proc p := if p = initproc then ⟨.runnable, none, false, 0, 1, none⟩ else default
  nextpid := 2
  lock _ := none
  cpu _ := ⟨none, [], none, [.schedNext 0], []⟩
  ctx p := if p = initproc then forkret initproc else []
  saved p := decide (p = initproc)
  making _ := none
  exits := []
  returns := []
  exitOf _ := none

/-- The states of all runs. -/
inductive Reachable (n : Nat) : Sys C → Prop
  | init : Reachable n init
  | step {s t : Sys C} {c : C} {a : Action} :
      Reachable n s → s.step n c a = some (.ok t) → Reachable n t

/-- Run a schedule: which CPU does what, in order. -/
def play (n : Nat) (s : Sys C) : List (C × Action) → Option (Sys C)
  | [] => some s
  | (c, a) :: rest =>
    match s.step n c a with
    | some (.ok t) => t.play n rest
    | _ => none

theorem Reachable.play {n : Nat} {schedule : List (C × Action)} :
    ∀ {s t : Sys C}, Reachable n s → s.play n schedule = some t → Reachable n t := by
  induction schedule with
  | nil =>
    intro s t run h
    cases h
    exact run
  | cons move rest ih =>
    intro s t run h
    obtain ⟨c, a⟩ := move
    rw [Sys.play] at h
    split at h
    · rename_i u step
      exact ih (run.step step) h
    cases h

theorem Reachable.of_play {n : Nat} {schedule : List (C × Action)} {P : Sys C → Bool}
    (check : ((Sys.init : Sys C).play n schedule).any P = true) :
    ∃ s : Sys C, Reachable n s ∧ P s = true := by
  obtain ⟨s, h, check⟩ := (Option.any_eq_true _ _).1 check
  exact ⟨s, Reachable.init.play h, check⟩

end Sys

end Xv6.Sched
