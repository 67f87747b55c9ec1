import Xv6.Sched.Switch

/-!
# Parents, zombies and `wait`

A process becomes a zombie, and gets or loses a parent, only while its CPU holds
`wait_lock`. So what `wait` has found out about the children of its caller stays true
until it gives that lock back, and what `exit` has done for its children and its
parent is done when the zombie shows. The invariant says, for code that works under
`wait_lock`, how far it has come.
-/

namespace Xv6.Sched

open Function renaming update → upd, update_self → upd_self, update_of_ne → upd_ne

set_option linter.unusedSectionVars false

/-! ## How far code has come -/

/-- `wait` is about to sleep and has given `wait_lock` back. -/
def naps : List Instr → Bool
  | .setChan _ (some (.proc _)) :: _ => true
  | _ => false

/-- The children below this slot are known not to be zombies. -/
def checked : List Instr → Option ℕ∞
  | [] => none
  | .waitScan _ i _ _ :: _ | .waitTest _ i _ :: _ => some i
  | .killedTest _ (.wait _) :: _ => some ⊤
  | .release .wait :: rest => if naps rest then some ⊤ else none
  | .acquire .wait :: _ => none
  | _ :: rest => checked rest

/-- `wait` has found that this slot is a child. -/
def visits : List Instr → Option Nat
  | [] => none
  | .waitTest _ i _ :: _ => some i
  | .release .wait :: _ | .acquire .wait :: _ => none
  | _ :: rest => visits rest

/-- The slots below this one are no longer children of the process that exits. -/
def reparented : List Instr → Option ℕ∞
  | [] => none
  | .reparent _ i _ :: _ => some i
  | .park _ .zombie :: _ => some ⊤
  | .acquire .wait :: _ => none
  | _ :: rest => reparented rest

/-- The code wakes `q` up if it sleeps in `wait`, before it gives `wait_lock` back. -/
def wakes (q : Nat) : List Instr → Bool
  | [] => false
  | .release .wait :: _ => false
  | .wake r chan :: rest => (r = q ∧ chan = some (.proc q)) || wakes q rest
  | _ :: rest => wakes q rest

/-- Code that has not started to use `wait_lock`. -/
def Unstarted (code : List Instr) : Prop :=
  checked code = none ∧ visits code = none ∧ reparented code = none

/-- The code does not begin with the last steps of `sleep`. -/
def Calm (code : List Instr) : Prop :=
  naps code = false ∧ ∀ q after, code ≠ .park q .sleeping :: after

/-- Instructions after which a section under `wait_lock` is gone. -/
def closes : Instr → Bool
  | .release .wait | .sched | .park _ .zombie => true
  | _ => false

/-- In code of process `p`, `rest` may follow `i`, as it does in the functions of the source. -/
@[mk_iff] structure Follows (n p : Nat) (i : Instr) (rest : List Instr) : Prop where
  nap : naps rest = true → i = .release .wait
  park : ∀ q after, rest = .park q .sleeping :: after → ∃ chan, i = .setChan q (some chan)
  begins : i = .acquire .wait → (checked rest = none ∨ checked rest = some 0) ∧ visits rest = none ∧
    (reparented rest = none ∨ reparented rest = some 0 ∧ p ≠ initproc)
  ends : closes i = true → Unstarted rest
  child : ∀ j q, i = .setParent j q →
    (∃ after, rest = .release .wait :: .acquire (.proc j) :: .publish q j :: after) ∧ reparented rest = none
  slot : ∀ q j, i = .forkTest q j → j < n
  status : ∀ q status, i = .setXstate q status → ∃ after, rest = .park q .zombie :: after
  poll : ∀ q copy, i ≠ .poll q (.wait copy)

/-- Code of process `p` uses `wait_lock` as the functions of the source do. -/
def Fits (n p : Nat) : List Instr → Prop
  | [] => True
  | i :: rest => Follows n p i rest ∧ Fits n p rest

/-- Instructions that may stand before any code. -/
def plain : Instr → Bool
  | .acquire .wait | .release .wait | .sched | .park _ .zombie | .setParent _ _ | .forkTest _ _
  | .setXstate _ _ | .poll _ (.wait _) => false
  | _ => true

section Code

variable {n p q : Nat} {me : Option Nat} {chan : Option Chan} {rest : List Instr}

theorem wakeup_induction {motive : List Instr → Prop} (base : motive rest) (step : ∀ q rest, motive rest →
      motive (.acquire (.proc q) :: .wake q chan :: .release (.proc q) :: rest)) :
    motive (wakeup n me chan ++ rest) := by
  unfold wakeup
  generalize (List.range n).filter _ = all
  induction all with
  | nil => exact base
  | cons q all ih =>
    rw [List.flatMap_cons, List.append_assoc]
    exact step q _ ih

theorem checked_wakeup : checked (wakeup n me chan ++ rest) = checked rest :=
  wakeup_induction (motive := fun code => checked code = checked rest) rfl fun _ _ ih => ih

theorem visits_wakeup : visits (wakeup n me chan ++ rest) = visits rest :=
  wakeup_induction (motive := fun code => visits code = visits rest) rfl fun _ _ ih => ih

theorem reparented_wakeup : reparented (wakeup n me chan ++ rest) = reparented rest :=
  wakeup_induction (motive := fun code => reparented code = reparented rest) rfl fun _ _ ih => ih

theorem wakes_wakeup (inside : q < n) (other : me ≠ some q) :
    wakes q (wakeup n me (some (.proc q)) ++ rest) = true := by
  have mem : q ∈ (List.range n).filter fun q => me ≠ some q := by simp [inside, other]
  unfold wakeup
  generalize (List.range n).filter _ = all at mem
  induction all with
  | nil => cases mem
  | cons r all ih =>
    rw [List.flatMap_cons, List.append_assoc]
    rcases List.mem_cons.mp mem with rfl | mem
    · simp [wakes]
    simp [wakes, ih mem]

theorem Follows.of_calm {i : Instr} (calm : Calm rest) (ok : plain i = true) :
    Follows n p i rest := by
  refine ⟨fun nap => ?_, fun q after eq => absurd eq (calm.2 q after), ?_, ?_, ?_, ?_, ?_, ?_⟩
  · rw [calm.1] at nap
    cases nap
  · rintro rfl
    cases ok
  · intro h
    unfold closes at h
    split at h
    · cases ok
    · cases ok
    · cases ok
    cases h
  · rintro j q rfl
    cases ok
  · rintro q j rfl
    cases ok
  · rintro q status rfl
    cases ok
  rintro q copy rfl
  cases ok

theorem Fits.cons {i : Instr} (calm : Calm rest) (ok : plain i = true) (fits : Fits n p rest) :
    Fits n p (i :: rest) :=
  ⟨.of_calm calm ok, fits⟩

theorem Fits.wakeup (calm : Calm rest) (fits : Fits n p rest) :
    Calm (Sched.wakeup n me chan ++ rest) ∧ Fits n p (Sched.wakeup n me chan ++ rest) :=
  wakeup_induction (motive := fun code => Calm code ∧ Fits n p code) ⟨calm, fits⟩ fun _ _ ih =>
    ⟨⟨rfl, nofun⟩, .cons ⟨rfl, nofun⟩ rfl (.cons ⟨rfl, nofun⟩ rfl (.cons ih.1 rfl ih.2))⟩

theorem Unstarted.wakeup (unstarted : Unstarted rest) :
    Unstarted (Sched.wakeup n me chan ++ rest) := by
  rw [Unstarted, checked_wakeup, visits_wakeup, reparented_wakeup]
  exact unstarted

theorem Fits.sleep (loop : Loop) : Fits n p (Sched.sleep p loop) := by
  cases loop <;>
    simp [Fits, follows_iff, Sched.sleep, sleepTail, Loop.lock, Loop.chan, Loop.again, naps,
      Unstarted, checked,
      visits, reparented, closes]

end Code

/-! ## The invariant -/

/-- The states that a parent may be in. -/
def Procstate.Live (state : Procstate) : Prop := state ≠ .unused ∧ state ≠ .zombie

namespace Sys

variable {C : Type} [DecidableEq C]

/-- The process sleeps in `wait`, or has given `wait_lock` back to do so. -/
def Sleepy (s : Sys C) (q : Nat) : Prop :=
  (s.proc q).state = .sleeping ∧ (s.proc q).chan = some (.proc q) ∨
    ∃ c, (s.cpu c).thread = some q ∧ (naps (s.cpu c).code = true ∨
        (s.proc q).chan = some (.proc q) ∧ ∃ rest, (s.cpu c).code = .park q .sleeping :: rest)

/-- The process has done all but become a zombie. -/
def Exiting (s : Sys C) (z : Nat) : Prop :=
  ∃ c, (s.cpu c).thread = some z ∧ reparented (s.cpu c).code = some ⊤

/-- What the code of the thread of `p` relies on. -/
structure Task (n : Nat) (s : Sys C) (p : Nat) (held : List Lock) (code : List Instr) : Prop where
  fits : Fits n p code
  holds : ¬ Unstarted code → .wait ∈ held
  scan : ∀ b, checked code = some b → ∀ z : Nat, (z : ℕ∞) < b → (s.proc z).parent = some p →
    (s.proc z).state ≠ .zombie
  child : ∀ i, visits code = some i → (s.proc i).parent = some p
  cleared : ∀ b, reparented code = some b → p ≠ initproc ∧ ∀ z : Nat, (z : ℕ∞) < b →
    (s.proc z).parent ≠ some p
  awake : (s.proc p).state ≠ .unused ∧ (s.proc p).state ≠ .used

/-- Somebody under `wait_lock` is about to wake `q` up. -/
def Woken (s : Sys C) (q : Nat) : Prop :=
  ∃ c p, (s.cpu c).thread = some p ∧ .wait ∈ (s.cpu c).held ∧ wakes q (s.cpu c).code = true

/-- Parents are there, and no parent of a zombie sleeps unless it is about to be woken. -/
structure Kin (n : Nat) (s : Sys C) : Prop where
  task : ∀ c p, (s.cpu c).thread = some p → Task n s p (s.cpu c).held (s.cpu c).code
  ctx : ∀ p, s.saved p = true → Fits n p (s.ctx p) ∧ Unstarted (s.ctx p) ∧ Calm (s.ctx p)
  outside : ∀ z, n ≤ z → (s.proc z).state = .unused
  orphan : ∀ z, (s.proc z).state = .unused → (s.proc z).parent = none
  parent : ∀ z q, (s.proc z).parent = some q → q ≠ z ∧ q < n ∧ (s.proc q).state.Live
  root : (s.proc initproc).parent = none ∧ (s.proc initproc).state.Live ∧
    (s.proc initproc).state ≠ .used
  woken : ∀ q z, Sleepy s q → (s.proc z).parent = some q → (s.proc z).state = .zombie ∨
    Exiting s z → Woken s q

section Keep

variable {n : Nat} {s t : Sys C} {c : C} {p i : Nat} {input : Input} {rest code : List Instr}

variable {held : List Lock}

/-- Code that has nothing to do with `wait_lock` yet. -/
theorem Task.fresh (fits : Fits n p code) (unstarted : Unstarted code)
    (awake : (s.proc p).state ≠ .unused ∧ (s.proc p).state ≠ .used) : Task n s p held code := by
  refine ⟨fits, fun started => absurd unstarted started, fun b found => ?_, fun i found => ?_,
    fun b found => ?_, awake⟩
  · rw [unstarted.1] at found
    cases found
  · rw [unstarted.2.1] at found
    cases found
  rw [unstarted.2.2] at found
  cases found

/-- The facts about a table that the task of a thread needs. -/
theorem Task.table {q : Nat} (task : Task n s q held code) (table : Unstarted code ∨
      ∀ z, (t.proc z).parent = (s.proc z).parent ∧
        ((t.proc z).state = .zombie → (s.proc z).state = .zombie))
    (awake : (t.proc q).state ≠ .unused ∧ (t.proc q).state ≠ .used) : Task n t q held code := by
  rcases table with unstarted | same
  · exact .fresh task.fits unstarted awake
  refine ⟨task.fits, task.holds, fun b found z below parent zombie => ?_, fun j found => ?_,
    fun b found => ⟨(task.cleared b found).1, fun z below parent => ?_⟩, awake⟩
  · rw [(same z).1] at parent
    exact task.scan b found z below parent ((same z).2 zombie)
  · rw [(same j).1]
    exact task.child j found
  rw [(same z).1] at parent
  exact (task.cleared b found).2 z below parent

theorem Kin.unstarted {c' : C} {q : Nat} (inv : Inv s) (kin : Kin n s)
    (mem : .wait ∈ (s.cpu c).held) (ne : c' ≠ c) (thread : (s.cpu c').thread = some q) :
    Unstarted (s.cpu c').code := by
  by_contra started
  exact ne (inv.sole ((kin.task c' q thread).holds started) mem)

/-- What a step of `c` has to show. -/
structure Keeps (n : Nat) (s t : Sys C) (c : C) : Prop where
  cpu : ∀ c', c' ≠ c → t.cpu c' = s.cpu c'
  own : ∀ p, (t.cpu c).thread = some p → Task n t p (t.cpu c).held (t.cpu c).code
  ctx : ∀ p, t.saved p = true → Fits n p (t.ctx p) ∧ Unstarted (t.ctx p) ∧ Calm (t.ctx p)
  table : .wait ∈ (s.cpu c).held ∨
    ∀ z, (t.proc z).parent = (s.proc z).parent ∧ ((t.proc z).state = .zombie → (s.proc z).state = .zombie)
  outside : ∀ z, n ≤ z → (t.proc z).state = .unused
  orphan : ∀ z, (t.proc z).state = .unused → (t.proc z).parent = none
  parent : ∀ z q, (t.proc z).parent = some q → q ≠ z ∧ q < n ∧ (t.proc q).state.Live
  root : (t.proc initproc).parent = none ∧ (t.proc initproc).state.Live ∧
    (t.proc initproc).state ≠ .used
  states : ∀ c' q, c' ≠ c → (s.cpu c').thread = some q → (t.proc q).state = (s.proc q).state
  pairs : ∀ q z, Sleepy t q → (t.proc z).parent = some q → (t.proc z).state = .zombie ∨
    Exiting t z →
    Woken t q ∨ Sleepy s q ∧ (s.proc z).parent = some q ∧ ((s.proc z).state = .zombie ∨ Exiting s z)
  waker : ∀ q p, Sleepy t q → (s.cpu c).thread = some p → .wait ∈ (s.cpu c).held →
    wakes q (s.cpu c).code = true →
    (t.cpu c).thread = some p ∧ .wait ∈ (t.cpu c).held ∧ wakes q (t.cpu c).code = true

theorem Keeps.kin (inv : Inv s) (kin : Kin n s) (keeps : Keeps n s t c) : Kin n t := by
  refine ⟨?_, keeps.ctx, keeps.outside, keeps.orphan, keeps.parent, keeps.root, ?_⟩
  · intro c' q thread
    by_cases eq : c' = c
    · subst eq
      exact keeps.own q thread
    rw [keeps.cpu c' eq] at thread ⊢
    have task := kin.task c' q thread
    refine task.table ?_ ?_
    · exact keeps.table.imp_left fun mem => kin.unstarted inv mem eq thread
    rw [keeps.states c' q eq thread]
    exact task.awake
  intro q z sleepy parent gone
  rcases keeps.pairs q z sleepy parent gone with woken | ⟨sleepy', parent', gone'⟩
  · exact woken
  obtain ⟨c', p, thread, mem, wake⟩ := kin.woken q z sleepy' parent' gone'
  by_cases eq : c' = c
  · subst eq
    exact ⟨c', p, keeps.waker q p sleepy thread mem wake⟩
  refine ⟨c', p, ?_⟩
  rw [keeps.cpu c' eq]
  exact ⟨thread, mem, wake⟩

/-- The state of a process turns into another one that a parent may be in, or an
unused slot is taken. -/
def Turns (n q : Nat) (old new : Procstate) : Prop :=
  new = old ∨ old.Live ∧ new.Live ∧ new ≠ .used ∨ q < n ∧ old = .unused ∧ new = .used

variable {old new : Procstate}

theorem Turns.zombie {q : Nat} (turns : Turns n q old new) (zombie : new = .zombie) :
    old = .zombie := by
  rcases turns with same | ⟨-, live, -⟩ | ⟨-, -, used⟩
  · rw [← same, zombie]
  · exact absurd zombie live.2
  rw [zombie] at used
  cases used

theorem Turns.live {q : Nat} (turns : Turns n q old new) (live : old.Live) : new.Live := by
  rcases turns with same | ⟨-, live', -⟩ | ⟨-, unused, -⟩
  · rwa [same]
  · exact live'
  exact absurd unused live.1

theorem Turns.awake {q : Nat} (turns : Turns n q old new)
    (awake : old ≠ .unused ∧ old ≠ .used) : new ≠ .unused ∧ new ≠ .used := by
  rcases turns with same | ⟨-, live', notUsed⟩ | ⟨-, unused, -⟩
  · rwa [same]
  · exact ⟨live'.1, notUsed⟩
  exact absurd unused awake.1

/-- How the code of `c` may change in a step, when `drowsy` sleep in `wait` after it. -/
structure Goes (n : Nat) (s : Sys C) (c : C) (k : Cpu) (drowsy : Nat → Prop) : Prop where
  thread : k.thread = (s.cpu c).thread
  task : ∀ p, k.thread = some p → Task n s p k.held k.code
  awake : k.thread ≠ none → naps k.code = true → naps (s.cpu c).code = true
  exiting : k.thread ≠ none → reparented k.code = some ⊤ → reparented (s.cpu c).code = some ⊤
  waker : ∀ q, drowsy q → k.thread ≠ none → .wait ∈ (s.cpu c).held → wakes q (s.cpu c).code = true →
    .wait ∈ k.held ∧ wakes q k.code = true

variable {k : Cpu}

theorem sleepy_back {q : Nat} (thread : k.thread = (s.cpu c).thread)
    (awake : k.thread ≠ none → naps k.code = true → naps (s.cpu c).code = true)
    (cpu : t.cpu = upd s.cpu c k) (others : ∀ r, r ≠ q → t.proc r = s.proc r)
    (elsewhere : ∀ c', c' ≠ c → (s.cpu c').thread = some q → (t.proc q).chan = (s.proc q).chan)
    (chan : (t.proc q).state = .sleeping → (t.proc q).chan = some (.proc q) → Sleepy s q)
    (park : ∀ r rest, k.thread = some r → k.code = .park r .sleeping :: rest →
      (t.proc r).chan = some (.proc r) → Sleepy s r) {r : Nat}
      (sleepy : Sleepy t r) : Sleepy s r := by
  have self : t.cpu c = k := by rw [cpu, upd_self]
  rcases sleepy with ⟨asleep, own⟩ | ⟨c', running, code⟩
  · by_cases eq : r = q
    · subst eq
      exact chan asleep own
    rw [others r eq] at asleep own
    exact .inl ⟨asleep, own⟩
  by_cases eq : c' = c
  · subst eq
    rw [self] at running code
    rcases code with nap | ⟨own, rest, code⟩
    · refine .inr ⟨c', by rw [← thread, running], .inl (awake ?_ nap)⟩
      rw [running]
      nofun
    exact park r rest running code own
  rw [cpu, upd_ne eq] at running code
  refine .inr ⟨c', running, code.imp_right fun ⟨own, rest, code⟩ => ⟨?_, rest, code⟩⟩
  by_cases same : r = q
  · rw [same] at running own ⊢
    rwa [← elsewhere c' eq running]
  rwa [← others r same]

theorem exiting_back (thread : k.thread = (s.cpu c).thread)
    (back : k.thread ≠ none → reparented k.code = some ⊤ → reparented (s.cpu c).code = some ⊤)
    (cpu : t.cpu = upd s.cpu c k) {z : Nat} (exiting : Exiting t z) : Exiting s z := by
  obtain ⟨c', running, found⟩ := exiting
  by_cases eq : c' = c
  · subst eq
    rw [cpu, upd_self] at running found
    refine ⟨c', by rw [← thread, running], back ?_ found⟩
    rw [running]
    nofun
  rw [cpu, upd_ne eq] at running found
  exact ⟨c', running, found⟩

theorem Kin.goes {q : Nat} (inv : Inv s) (kin : Kin n s) (goes : Goes n s c k t.Sleepy) (cpu : t.cpu = upd s.cpu c k)
    (ctx : ∀ p, t.saved p = true → Fits n p (t.ctx p) ∧ Unstarted (t.ctx p) ∧ Calm (t.ctx p))
    (others : ∀ r, r ≠ q → t.proc r = s.proc r) (parent : (t.proc q).parent = (s.proc q).parent)
    (turns : Turns n q (s.proc q).state (t.proc q).state)
    (elsewhere : ∀ c', c' ≠ c → (s.cpu c').thread = some q →
      (t.proc q).state = (s.proc q).state ∧ (t.proc q).chan = (s.proc q).chan)
    (chan : (t.proc q).state = .sleeping → (t.proc q).chan = some (.proc q) → Sleepy s q)
    (park : ∀ r rest, k.thread = some r → k.code = .park r .sleeping :: rest →
      (t.proc r).chan = some (.proc r) → Sleepy s r) : Kin n t := by
  have self : t.cpu c = k := by rw [cpu, upd_self]
  have parents : ∀ z, (t.proc z).parent = (s.proc z).parent := fun z => by
    by_cases eq : z = q
    · rw [eq, parent]
    rw [others z eq]
  have states : ∀ z, Turns n z (s.proc z).state (t.proc z).state := fun z => by
    by_cases eq : z = q
    · rw [eq]
      exact turns
    exact .inl (by rw [others z eq])
  have table : ∀ z, (t.proc z).parent = (s.proc z).parent ∧
      ((t.proc z).state = .zombie → (s.proc z).state = .zombie) :=
    fun z => ⟨parents z, (states z).zombie⟩
  refine Keeps.kin inv kin (c := c) ⟨?_, ?_, ctx, .inr table, ?_, ?_, ?_, ?_, ?_, ?_, ?_⟩
  case refine_1 => exact fun c' ne => by rw [cpu, upd_ne ne]
  case refine_2 =>
    intro p thread
    rw [self] at thread ⊢
    have task := goes.task p thread
    exact task.table (.inr table) ((states p).awake task.awake)
  case refine_3 =>
    intro z high
    rcases states z with same | ⟨live, -, -⟩ | ⟨low, -, -⟩
    · rw [same]
      exact kin.outside z high
    · exact absurd (kin.outside z high) live.1
    exact absurd low (by omega)
  case refine_4 =>
    intro z unused
    rw [parents]
    refine kin.orphan z ?_
    rcases states z with same | ⟨-, live, -⟩ | ⟨-, old, -⟩
    · rw [← same, unused]
    · exact absurd unused live.1
    exact old
  case refine_5 =>
    intro z r h
    rw [parents] at h
    obtain ⟨ne, low, live⟩ := kin.parent z r h
    exact ⟨ne, low, (states r).live live⟩
  case refine_6 =>
    obtain ⟨none, live, notUsed⟩ := kin.root
    have awake := (states initproc).awake ⟨live.1, notUsed⟩
    exact ⟨(parents _).trans none, (states initproc).live live, awake.2⟩
  case refine_7 =>
    intro c' r ne thread
    by_cases eq : r = q
    · rw [eq] at thread ⊢
      exact (elsewhere c' ne thread).1
    rw [others r eq]
  case refine_8 =>
    intro r z sleepy h gone
    rw [parents] at h
    refine .inr ⟨?_, h, gone.imp (states z).zombie (exiting_back goes.thread goes.exiting cpu)⟩
    exact sleepy_back goes.thread goes.awake cpu others (fun c' ne own => (elsewhere c' ne own).2) chan park
      sleepy
  case refine_9 =>
    intro r p sleepy thread mem wake
    rw [self, goes.thread]
    refine ⟨thread, goes.waker r sleepy ?_ mem wake⟩
    rw [goes.thread, thread]
    nofun

theorem Kin.sameCtx (kin : Kin n s) (ctx : t.ctx = s.ctx ∧ t.saved = s.saved) :
    ∀ p, t.saved p = true → Fits n p (t.ctx p) ∧ Unstarted (t.ctx p) ∧ Calm (t.ctx p) := by
  rw [ctx.1, ctx.2]
  exact kin.ctx

theorem Kin.recode (inv : Inv s) (kin : Kin n s) (goes : Goes n s c k t.Sleepy)
    (cpu : t.cpu = upd s.cpu c k) (ctx : t.ctx = s.ctx ∧ t.saved = s.saved)
    (proc : t.proc = s.proc)
    (park : ∀ r rest, k.thread = some r → k.code ≠ .park r .sleeping :: rest) : Kin n t := by
  refine kin.goes inv goes cpu (kin.sameCtx ctx) (q := initproc) (fun _ _ => by rw [proc])
    (by rw [proc])
    (.inl (by rw [proc])) (fun _ _ _ => by rw [proc]; exact ⟨rfl, rfl⟩) (fun asleep own => ?_)
    (fun r rest thread code _ => absurd code (park r rest thread))
  rw [proc] at asleep own
  exact .inl ⟨asleep, own⟩

variable {j : Instr}

/-- Going on with the rest of the code, with the same knowledge. -/
theorem Task.tail {held' : List Lock} (task : Task n s p held (j :: rest))
    (same : checked (j :: rest) = checked rest ∧ visits (j :: rest) = visits rest ∧
      reparented (j :: rest) = reparented rest)
    (keeps : .wait ∈ held → .wait ∈ held') : Task n s p held' rest := by
  refine ⟨task.fits.2, fun started => keeps (task.holds fun h => started ?_), ?_, ?_, ?_,
    task.awake⟩
  · rw [Unstarted, same.1, same.2.1, same.2.2] at h
    exact h
  · rw [← same.1]
    exact task.scan
  · rw [← same.2.1]
    exact task.child
  rw [← same.2.2]
  exact task.cleared

variable {drowsy : Nat → Prop}

/-- An instruction after which the code goes on, outside the beginnings and ends of
sections under `wait_lock`. -/
theorem Goes.tail (kin : Kin n s) (at' : (s.cpu c).code = j :: rest)
    (thread : k.thread = (s.cpu c).thread) (code : k.code = rest)
    (keeps : .wait ∈ (s.cpu c).held → .wait ∈ k.held)
    (same : checked (j :: rest) = checked rest ∧ visits (j :: rest) = visits rest ∧
      reparented (j :: rest) = reparented rest)
    (other : j ≠ .release .wait)
    (wakes : ∀ q, drowsy q → Sched.wakes q (j :: rest) = true → Sched.wakes q rest = true) :
    Goes n s c k drowsy := by
  refine ⟨thread, fun p own => ?_, fun busy nap => ?_, fun _ found => ?_,
    fun q sleepy _ mem wake => ?_⟩
  · have task := kin.task c p (thread.symm.trans own)
    rw [at'] at task
    rw [code]
    exact task.tail same keeps
  · obtain ⟨p, own⟩ := Option.ne_none_iff_exists'.mp busy
    have task := kin.task c p (thread.symm.trans own)
    rw [at'] at task
    rw [code] at nap
    exact absurd (task.fits.1.nap nap) other
  · rw [at', same.2.2, ← code]
    exact found
  rw [at'] at wake
  rw [code]
  exact ⟨keeps mem, wakes q sleepy wake⟩

/-- A scheduler has no task. -/
theorem Goes.idle (idle : (s.cpu c).thread = none) (thread : k.thread = none) :
    Goes n s c k drowsy := by
  refine ⟨thread.trans idle.symm, fun p h => ?_, fun h => absurd thread h, fun h => absurd thread h,
    fun q _ h => absurd thread h⟩
  rw [thread] at h
  cases h

/-- The rest of the code of a process is not at the last steps of `sleep`. -/
theorem Task.calm (task : Task n s p held (j :: rest))
    (other : j ≠ .release .wait) (notChan : ∀ q chan, j ≠ .setChan q (some chan)) : Calm rest := by
  refine ⟨?_, fun q after eq => ?_⟩
  · by_contra nap
    exact other (task.fits.1.nap (by simpa using nap))
  obtain ⟨chan, h⟩ := task.fits.1.park q after eq
  exact notChan q chan h

/-- An instruction that changes one process, after which the code goes on. -/
theorem Kin.tail {q : Nat} (inv : Inv s) (kin : Kin n s) (at' : (s.cpu c).code = j :: rest)
    (cpu : t.cpu = upd s.cpu c { s.cpu c with code := rest })
    (ctx : t.ctx = s.ctx ∧ t.saved = s.saved) (others : ∀ r, r ≠ q → t.proc r = s.proc r)
    (parent : (t.proc q).parent = (s.proc q).parent) (turns : Turns n q (s.proc q).state (t.proc q).state)
    (elsewhere : ∀ c', c' ≠ c → (s.cpu c').thread = some q →
      (t.proc q).state = (s.proc q).state ∧ (t.proc q).chan = (s.proc q).chan)
    (chan : (t.proc q).state = .sleeping → (t.proc q).chan = some (.proc q) → Sleepy s q)
    (same : checked (j :: rest) = checked rest ∧ visits (j :: rest) = visits rest ∧
      reparented (j :: rest) = reparented rest) (other : j ≠ .release .wait)
    (park : ∀ r after, (s.cpu c).thread = some r → rest = .park r .sleeping :: after →
      (t.proc r).chan = some (.proc r) → Sleepy s r)
    (wakes : ∀ q, Sleepy t q → Sched.wakes q (j :: rest) = true → Sched.wakes q rest = true) : Kin n t := by
  have goes : Goes n s c { s.cpu c with code := rest } t.Sleepy :=
    .tail kin at' rfl rfl id same other wakes
  exact kin.goes inv goes cpu (kin.sameCtx ctx) others parent turns elsewhere chan park

theorem Kin.acquireWait (inv : Inv s) (kin : Kin n s)
    (at' : (s.cpu c).code = .acquire .wait :: rest) (free : s.lock .wait = none) :
    Kin n ((s.take c .wait).goto c rest) := by
  have absent : .wait ∉ (s.cpu c).held := fun mem => by
    rw [(inv.lock _ c).mpr mem] at free
    cases free
  have tasks : ∀ p, (s.cpu c).thread = some p →
      Task n s p (s.cpu c).held (.acquire .wait :: rest) := by
    intro p own
    rw [← at']
    exact kin.task c p own
  have goes : Goes n s c { s.cpu c with held := .wait :: (s.cpu c).held, code := rest }
      ((s.take c .wait).goto c rest).Sleepy := by
    refine ⟨rfl, fun p own => ?_, fun busy nap => ?_, fun busy found => ?_,
      fun q _ _ mem => absurd mem absent⟩
    · have task := tasks p own
      obtain ⟨checks, visit, reparent⟩ := task.fits.1.begins rfl
      refine ⟨task.fits.2, fun _ => List.mem_cons_self, fun b found z below => ?_,
        fun i found => ?_,
        fun b found => ?_, task.awake⟩
      · rcases checks with none | zero
        · rw [none] at found
          cases found
        rw [zero] at found
        cases found
        exact absurd below (by simp)
      · rw [visit] at found
        cases found
      rcases reparent with none | ⟨zero, notInit⟩
      · rw [none] at found
        cases found
      rw [zero] at found
      cases found
      exact ⟨notInit, fun z below => absurd below (by simp)⟩
    · obtain ⟨p, own⟩ := Option.ne_none_iff_exists'.mp busy
      exact absurd ((tasks p own).fits.1.nap nap) nofun
    obtain ⟨p, own⟩ := Option.ne_none_iff_exists'.mp busy
    obtain ⟨-, -, reparent⟩ := (tasks p own).fits.1.begins rfl
    rcases reparent with none | ⟨zero, -⟩
    · rw [show reparented rest = some ⊤ from found] at none
      cases none
    rw [show reparented rest = some ⊤ from found] at zero
    cases zero
  refine kin.recode inv goes (take_goto_cpu .wait) ⟨rfl, rfl⟩ rfl fun r after own code => ?_
  exact ((tasks r own).calm nofun nofun).2 r after code

theorem Kin.releaseWait (inv : Inv s) (kin : Kin n s)
    (at' : (s.cpu c).code = .release .wait :: rest) :
    Kin n ((s.drop c .wait).goto c rest) := by
  have mem : .wait ∈ (s.cpu c).held := (inv.typedAt at').1
  generalize ht : (s.drop c .wait).goto c rest = t
  have cpu : t.cpu = upd s.cpu c { s.cpu c with held := (s.cpu c).held.erase .wait, code := rest } := by
    rw [← ht]
    exact drop_goto_cpu .wait
  have proc : t.proc = s.proc := by
    rw [← ht]
    rfl
  have self : t.cpu c = { s.cpu c with held := (s.cpu c).held.erase .wait, code := rest } := by
    rw [cpu, upd_self]
  have other : ∀ c', c' ≠ c → t.cpu c' = s.cpu c' := fun c' ne => by rw [cpu, upd_ne ne]
  have tasks : ∀ p, (s.cpu c).thread = some p →
      Task n s p (s.cpu c).held (.release .wait :: rest) := by
    intro p own
    rw [← at']
    exact kin.task c p own
  have ctx : t.ctx = s.ctx ∧ t.saved = s.saved := by
    rw [← ht]
    exact ⟨rfl, rfl⟩
  -- nobody who exits holds `wait_lock` any more
  have exiting : ∀ z, ¬ Exiting t z := by
    rintro z ⟨c', thread, found⟩
    by_cases eq : c' = c
    · subst eq
      rw [self] at thread found
      have unstarted := (tasks z thread).fits.1.ends rfl
      have none := unstarted.2.2
      rw [show reparented rest = some ⊤ from found] at none
      cases none
    rw [other c' eq] at thread found
    have unstarted := kin.unstarted inv mem eq thread
    have none := unstarted.2.2
    rw [found] at none
    cases none
  constructor
  case task =>
    intro c' q thread
    by_cases eq : c' = c
    · subst eq
      rw [self] at thread ⊢
      have task := tasks q thread
      refine .fresh task.fits.2 (task.fits.1.ends rfl) ?_
      rw [proc]
      exact task.awake
    rw [other c' eq] at thread ⊢
    have task := kin.task c' q thread
    refine task.table (.inr fun z => ?_) ?_
    · rw [proc]
      exact ⟨rfl, id⟩
    rw [proc]
    exact task.awake
  case ctx =>
    rw [ctx.1, ctx.2]
    exact kin.ctx
  case outside =>
    rw [proc]
    exact kin.outside
  case orphan =>
    rw [proc]
    exact kin.orphan
  case parent =>
    rw [proc]
    exact kin.parent
  case root =>
    rw [proc]
    exact kin.root
  case woken =>
    intro q z sleepy parent ends
    exfalso
    rw [proc] at parent
    have zombie : (s.proc z).state = .zombie := by
      rw [← proc]
      exact ends.resolve_right (exiting z)
    -- whoever slept before would have been woken by this code
    have before : ¬ Sleepy s q := by
      intro h
      obtain ⟨c', p, thread, mem', wake⟩ := kin.woken q z h parent (.inl zombie)
      rw [inv.sole mem' mem, at'] at wake
      cases wake
    rcases sleepy with asleep | ⟨c', thread, code⟩
    · rw [proc] at asleep
      exact before (.inl asleep)
    by_cases eq : c' = c
    · subst eq
      rw [self] at thread code
      have task := tasks q thread
      rcases code with nap | ⟨-, after, code⟩
      · have all : checked (.release .wait :: rest) = some ⊤ := by rw [checked, if_pos nap]
        exact task.scan ⊤ all z (by simp) parent zombie
      obtain ⟨chan, h⟩ := task.fits.1.park q after code
      cases h
    rw [other c' eq] at thread code
    rw [proc] at code
    exact before (.inr ⟨c', thread, code⟩)

theorem Kin.taskAt (kin : Kin n s) (at' : (s.cpu c).code = j :: rest)
    (own : (s.cpu c).thread = some p) : Task n s p (s.cpu c).held (j :: rest) := by
  rw [← at']
  exact kin.task c p own

section

variable (inv : Inv s)
include inv

theorem Kin.acquireOther {l : Lock} (kin : Kin n s) (at' : (s.cpu c).code = .acquire l :: rest)
    (other : l ≠ .wait) : Kin n ((s.take c l).goto c rest) := by
  have same : checked (.acquire l :: rest) = checked rest ∧
      visits (.acquire l :: rest) = visits rest ∧
      reparented (.acquire l :: rest) = reparented rest := by
    cases l <;> first | exact absurd rfl other | exact ⟨rfl, rfl, rfl⟩
  have goes : Goes n s c { s.cpu c with held := l :: (s.cpu c).held, code := rest }
      ((s.take c l).goto c rest).Sleepy :=
    .tail kin at' rfl rfl (List.mem_cons_of_mem l) same nofun fun _ _ h => h
  exact kin.recode inv goes (take_goto_cpu l) ⟨rfl, rfl⟩ rfl fun r after own =>
    ((kin.taskAt at' own).calm nofun nofun).2 r after

theorem Kin.releaseOther {l : Lock} (kin : Kin n s) (at' : (s.cpu c).code = .release l :: rest)
    (other : l ≠ .wait) : Kin n ((s.drop c l).goto c rest) := by
  have different : Instr.release l ≠ .release .wait := fun h => other (Instr.release.inj h)
  have same : checked (.release l :: rest) = checked rest ∧
      visits (.release l :: rest) = visits rest ∧
      reparented (.release l :: rest) = reparented rest := by
    cases l <;> first | exact absurd rfl other | exact ⟨rfl, rfl, rfl⟩
  have wakes : ∀ q, Sched.wakes q (.release l :: rest) = true → Sched.wakes q rest = true := by
    cases l <;> first | exact absurd rfl other | exact fun _ h => h
  have goes : Goes n s c { s.cpu c with held := (s.cpu c).held.erase l, code := rest }
      ((s.drop c l).goto c rest).Sleepy :=
    .tail kin at' rfl rfl (List.mem_erase_of_ne other.symm).mpr same different fun q _ => wakes q
  exact kin.recode inv goes (drop_goto_cpu l) ⟨rfl, rfl⟩ rfl fun r after own =>
    ((kin.taskAt at' own).calm different nofun).2 r after

theorem Kin.idle (kin : Kin n s) (idle : (s.cpu c).thread = none)
    (cpu : t.cpu = upd s.cpu c k) (ctx : t.ctx = s.ctx ∧ t.saved = s.saved)
    (proc : t.proc = s.proc) (thread : k.thread = none) : Kin n t := by
  refine kin.recode inv (.idle idle thread) cpu ctx proc fun r _ own => ?_
  rw [thread] at own
  cases own

theorem Kin.field {q : Nat} {f : Proc → Proc} (kin : Kin n s) (at' : (s.cpu c).code = j :: rest)
    (keeps : ∀ r, (f r).state = r.state ∧ (f r).chan = r.chan ∧ (f r).parent = r.parent)
    (same : checked (j :: rest) = checked rest ∧ visits (j :: rest) = visits rest ∧
      reparented (j :: rest) = reparented rest) (other : j ≠ .release .wait)
    (notChan : ∀ q chan, j ≠ .setChan q (some chan))
    (wakes : ∀ q, Sched.wakes q (j :: rest) = true → Sched.wakes q rest = true) :
    Kin n ((s.setProc q f).goto c rest) := by
  have self : ((s.setProc q f).goto c rest).proc q = f (s.proc q) := upd_self ..
  obtain ⟨state, chan, parent⟩ := keeps (s.proc q)
  refine kin.tail inv at' (q := q) rfl ⟨rfl, rfl⟩ (fun r ne => upd_ne ne _ _) ?_ (.inl ?_)
    (fun _ _ _ => ?_) (fun asleep own => ?_) same other (fun r after own eq => ?_) fun q _ => wakes q
  · rw [self, parent]
  · rw [self, state]
  · rw [self]
    exact ⟨state, chan⟩
  · rw [self] at asleep own
    exact .inl ⟨state ▸ asleep, chan ▸ own⟩
  exact absurd eq (((kin.taskAt at' own).calm other notChan).2 r after)

theorem Sleepy.asleep {q : Nat} (mem : .proc q ∈ (s.cpu c).held) (ne : (s.cpu c).thread ≠ some q)
    (sleepy : Sleepy s q) : (s.proc q).state = .sleeping ∧ (s.proc q).chan = some (.proc q) := by
  rcases sleepy with asleep | ⟨c', thread, code⟩
  · exact asleep
  exfalso
  have locked : .proc q ∈ (s.cpu c').held := by
    rcases code with nap | ⟨-, rest, code⟩
    · obtain ⟨r, x, rest, code⟩ : ∃ r x rest, (s.cpu c').code =
        .setChan r (some (.proc x)) :: rest := by
        unfold naps at nap
        split at nap
        · rename_i r x rest eq
          exact ⟨r, x, rest, eq⟩
        cases nap
      obtain ⟨own, mem', -⟩ := inv.typedAt code
      obtain rfl : q = r := Option.some.inj (thread.symm.trans own)
      exact mem'
    exact (inv.typedAt code).2.1
  rw [inv.sole locked mem] at thread
  exact ne thread

theorem rouses {q : Nat} (mem : .proc q ∈ (s.cpu c).held) (moved : (t.proc q).state = (s.proc q).state ∨
      (s.proc q).state = .sleeping ∧ (t.proc q).state = .runnable)
    (same : (t.proc q).chan = (s.proc q).chan) :
    Turns n q (s.proc q).state (t.proc q).state ∧ (∀ c', c' ≠ c → (s.cpu c').thread = some q →
        (t.proc q).state = (s.proc q).state ∧ (t.proc q).chan = (s.proc q).chan) ∧
      ((t.proc q).state = .sleeping → (t.proc q).chan = some (.proc q) → Sleepy s q) := by
  rw [same]
  rcases moved with kept | ⟨asleep, awake⟩
  · rw [kept]
    exact ⟨.inl rfl, fun _ _ _ => ⟨rfl, rfl⟩, fun asleep own => .inl ⟨asleep, own⟩⟩
  refine ⟨.inr (.inl ?_), fun c' ne thread => ?_, fun h => ?_⟩
  · rw [asleep, awake]
    exact ⟨⟨nofun, nofun⟩, ⟨nofun, nofun⟩, nofun⟩
  · have running := inv.elsewhere mem ne thread
    rw [asleep] at running
    cases running
  rw [awake] at h
  cases h

theorem Kin.wake {q : Nat} {chan : Option Chan} (kin : Kin n s)
    (at' : (s.cpu c).code = .wake q chan :: rest) :
    Kin n ((if (s.proc q).state = .sleeping ∧ (s.proc q).chan = chan then
      s.setProc q fun r => { r with state := .runnable } else s).goto c rest) := by
  obtain ⟨mem, other, -, -⟩ := inv.typedAt at'
  generalize ht : (if (s.proc q).state = .sleeping ∧ (s.proc q).chan = chan then
    s.setProc q fun r => { r with state := .runnable } else s).goto c rest = t
  have facts : t.cpu = upd s.cpu c { s.cpu c with code := rest } ∧
      (t.ctx = s.ctx ∧ t.saved = s.saved) ∧ (∀ r, r ≠ q → t.proc r = s.proc r) ∧
      (t.proc q).parent = (s.proc q).parent ∧ (t.proc q).chan = (s.proc q).chan ∧
      (t.proc q).state = if (s.proc q).state = .sleeping ∧ (s.proc q).chan = chan then .runnable
        else (s.proc q).state := by
    rw [← ht]
    split
    · have self : ((s.setProc q fun r => { r with state := .runnable }).goto c rest).proc q =
          { s.proc q with state := .runnable } := upd_self ..
      rw [self]
      exact ⟨rfl, ⟨rfl, rfl⟩, fun r ne => upd_ne ne _ _, rfl, rfl, rfl⟩
    exact ⟨rfl, ⟨rfl, rfl⟩, fun _ _ => rfl, rfl, rfl, rfl⟩
  obtain ⟨cpu, ctx, others, parent, same, state⟩ := facts
  have moved : (t.proc q).state = (s.proc q).state ∨ (s.proc q).state = .sleeping ∧
      (t.proc q).state = .runnable := by
    rw [state]
    split
    · rename_i asleep
      exact .inr ⟨asleep.1, rfl⟩
    exact .inl rfl
  obtain ⟨turns, elsewhere, back⟩ := rouses (n := n) inv mem moved same
  refine kin.tail inv at' cpu ctx others parent turns elsewhere back ⟨rfl, rfl, rfl⟩ nofun
    (fun r after own eq => absurd eq (((kin.taskAt at' own).calm nofun nofun).2 r after)) ?_
  -- whoever sleeps in `wait` after the step is not the one that was woken
  intro r sleepy wake
  rcases (Bool.or_eq_true _ _).mp wake with this | later
  · obtain ⟨rfl, rfl⟩ := of_decide_eq_true this
    exfalso
    have before : Sleepy s q :=
      sleepy_back (k := { s.cpu c with code := rest }) rfl (fun busy nap => by
          obtain ⟨p, own⟩ := Option.ne_none_iff_exists'.mp busy
          rw [((kin.taskAt at' own).calm nofun nofun).1] at nap
          cases nap)
        cpu others (fun c' ne own => (elsewhere c' ne own).2) back
        (fun r after own eq => absurd eq (((kin.taskAt at' own).calm nofun nofun).2 r after)) sleepy
    obtain ⟨asleep, own⟩ := before.asleep inv mem other
    rw [if_pos ⟨asleep, own⟩] at state
    rcases sleepy with h | ⟨c', thread, code⟩
    · rw [state] at h
      exact absurd h.1 nofun
    by_cases eq : c' = c
    · subst eq
      rw [cpu, upd_self] at thread
      exact other thread
    rw [cpu, upd_ne eq] at thread
    have running := inv.elsewhere mem eq thread
    rw [asleep] at running
    cases running
  exact later

end

theorem Goes.jump (thread : (s.cpu c).thread = some p) (task : Task n s p (s.cpu c).held code)
    (calm : Calm code) (exiting : reparented code = some ⊤ → reparented (s.cpu c).code = some ⊤)
    (old : .wait ∈ (s.cpu c).held → ∀ q, wakes q (s.cpu c).code = true → wakes q code = true) :
    Goes n s c { s.cpu c with code } drowsy := by
  refine ⟨rfl, fun q own => ?_, fun _ nap => ?_, fun _ => exiting,
    fun q _ _ mem wake => ⟨mem, old mem q wake⟩⟩
  · obtain rfl : p = q := Option.some.inj (thread.symm.trans own)
    exact task
  rw [calm.1] at nap
  cases nap

theorem Kin.jump (inv : Inv s) (kin : Kin n s) (thread : (s.cpu c).thread = some p)
    (task : Task n s p (s.cpu c).held code) (calm : Calm code)
    (exiting : reparented code = some ⊤ → reparented (s.cpu c).code = some ⊤)
    (old : .wait ∈ (s.cpu c).held → ∀ q, wakes q (s.cpu c).code = true → wakes q code = true) :
    Kin n (s.goto c code) :=
  kin.recode inv (.jump thread task calm exiting old) rfl ⟨rfl, rfl⟩ rfl fun r rest _ => calm.2 r rest

/-- Code that has nothing to do with `wait_lock` yet, in place of code that wakes nobody. -/
theorem Goes.fresh (kin : Kin n s) (thread : (s.cpu c).thread = some p)
    (fits : Fits n p code) (unstarted : Unstarted code) (calm : Calm code)
    (old : .wait ∈ (s.cpu c).held → ∀ q, wakes q (s.cpu c).code = false) :
    Goes n s c { s.cpu c with code } drowsy := by
  refine .jump thread (.fresh fits unstarted (kin.task c p thread).awake) calm (fun found => ?_)
    fun mem q wake => ?_
  · rw [unstarted.2.2] at found
    cases found
  rw [old mem q] at wake
  cases wake

section

variable (inv : Inv s)
include inv

section

variable (kin : Kin n s)
include kin

theorem Kin.fresh (thread : (s.cpu c).thread = some p) (fits : Fits n p code)
    (unstarted : Unstarted code) (calm : Calm code)
    (old : .wait ∈ (s.cpu c).held → ∀ q, wakes q (s.cpu c).code = false) : Kin n (s.goto c code) :=
  kin.recode inv (.fresh kin thread fits unstarted calm old) rfl ⟨rfl, rfl⟩ rfl fun r rest _ => calm.2 r rest

theorem Kin.killTest (thread : (s.cpu c).thread = some p)
    (mem : .proc i ∈ (s.cpu c).held) (old : ∀ q, wakes q (s.cpu c).code = false) :
    Kin n ((s.setProc i fun q => { q with
      killed := true
      state := if q.state = .sleeping then .runnable else q.state }).goto c [.release (.proc i)]) := by
  generalize ht : (s.setProc i fun q => { q with
    killed := true
    state := if q.state = .sleeping then .runnable else q.state }).goto c [.release (.proc i)] = t
  have self : t.proc i = { s.proc i with
      killed := true
      state := if (s.proc i).state = .sleeping then .runnable else (s.proc i).state } := by
    rw [← ht]
    exact upd_self ..
  have moved : (t.proc i).state = (s.proc i).state ∨ (s.proc i).state = .sleeping ∧
      (t.proc i).state = .runnable := by
    rw [self]
    dsimp only
    split
    · rename_i asleep
      exact .inr ⟨asleep, rfl⟩
    exact .inl rfl
  obtain ⟨turns, elsewhere, back⟩ := rouses (n := n) inv mem moved (by rw [self])
  have goes : Goes n s c { s.cpu c with code := [.release (.proc i)] } t.Sleepy :=
    .fresh kin thread (.cons ⟨rfl, nofun⟩ rfl trivial) ⟨rfl, rfl, rfl⟩ ⟨rfl, nofun⟩ fun _ => old
  subst ht
  exact kin.goes inv goes rfl kin.ctx (fun r ne => upd_ne ne _ _) (by rw [self]) turns elsewhere
    back nofun

theorem Kin.allocproc (at' : (s.cpu c).code = [.forkTest p i])
    (unused : (s.proc i).state = .unused) : Kin n ((s.allocproc p i).goto c (forkEnd p i)) := by
  obtain ⟨thread, -⟩ := inv.typedAt at'
  have task := kin.taskAt at' thread
  have self : ((s.allocproc p i).goto c (forkEnd p i)).proc i =
      { s.proc i with state := .used, pid := s.nextpid } := upd_self ..
  have fits : Fits n p (forkEnd p i) := by
    simp [Fits, follows_iff, forkEnd, naps, Unstarted, checked, visits, reparented, closes]
  have goes : Goes n s c { s.cpu c with code := forkEnd p i } ((s.allocproc p i).goto c (forkEnd p i)).Sleepy :=
    .fresh kin thread fits ⟨rfl, rfl, rfl⟩ ⟨rfl, nofun⟩ fun _ q => by rw [at']; rfl
  refine kin.goes inv goes rfl (fun r saved => ?_) (fun r ne => upd_ne ne _ _) (by rw [self])
    (.inr (.inr ⟨task.fits.1.slot p i rfl, unused, by rw [self]⟩)) (fun c' _ own => ?_) (fun asleep => ?_)
    nofun
  · change upd s.saved i true r = true at saved
    show Fits n r (upd s.ctx i (forkret i) r) ∧
      Unstarted (upd s.ctx i (forkret i) r) ∧ Calm (upd s.ctx i (forkret i) r)
    by_cases eq : r = i
    · subst eq
      rw [upd_self]
      exact ⟨.cons ⟨rfl, nofun⟩ rfl trivial, ⟨rfl, rfl, rfl⟩, rfl, nofun⟩
    rw [upd_ne eq] at saved ⊢
    exact kin.ctx r saved
  · exact absurd unused (kin.task c' i own).awake.1
  rw [self] at asleep
  cases asleep

theorem Kin.allocFails (at' : (s.cpu c).code = [.forkTest p i])
    (unused : (s.proc i).state = .unused) :
    Kin n (((s.setProc i Proc.free).countPid).goto c [.release (.proc i)]) := by
  obtain ⟨thread, -⟩ := inv.typedAt at'
  have self : (((s.setProc i Proc.free).countPid).goto c [.release (.proc i)]).proc i =
      Proc.free (s.proc i) := upd_self ..
  have goes : Goes n s c { s.cpu c with code := [.release (.proc i)] }
      (((s.setProc i Proc.free).countPid).goto c [.release (.proc i)]).Sleepy :=
    .fresh kin thread (.cons ⟨rfl, nofun⟩ rfl trivial) ⟨rfl, rfl, rfl⟩ ⟨rfl, nofun⟩ fun _ q => by rw [at']; rfl
  refine kin.goes inv goes rfl kin.ctx (fun r ne => upd_ne ne _ _) ?_ (.inl ?_)
    (fun c' _ own => ?_) (fun asleep => ?_) nofun
  · rw [self, kin.orphan i unused]
    rfl
  · rw [self, unused]
    rfl
  · exact absurd unused (kin.task c' i own).awake.1
  rw [self] at asleep
  cases asleep

theorem Kin.publish (at' : (s.cpu c).code = .publish p i :: rest) (used : (s.proc i).state = .used) :
    Kin n ({ s.setProc i fun q => { q with state := .runnable } with
      making := upd s.making i none }.goto c rest) := by
  have self : ({ s.setProc i fun q => { q with state := .runnable } with
      making := upd s.making i none }.goto c rest).proc i =
      { s.proc i with state := .runnable } := upd_self ..
  refine kin.tail inv at' (q := i) rfl ⟨rfl, rfl⟩ (fun r ne => upd_ne ne _ _) ?_
    (.inr (.inl ?_)) (fun c' _ own => ?_) (fun asleep => ?_) ⟨rfl, rfl, rfl⟩ nofun
    (fun r after own eq => ?_) fun _ _ h => h
  · rw [self]
  · rw [self, used]
    exact ⟨⟨nofun, nofun⟩, ⟨nofun, nofun⟩, nofun⟩
  · exact absurd used (kin.task c' i own).awake.2
  · rw [self] at asleep
    cases asleep
  exact absurd eq (((kin.taskAt at' own).calm nofun nofun).2 r after)

theorem Kin.setChan {chan : Option Chan} (at' : (s.cpu c).code = .setChan p chan :: rest) :
    Kin n ((s.setProc p fun q => { q with chan }).goto c rest) := by
  obtain ⟨thread, mem, -⟩ := inv.typedAt at'
  have self : ((s.setProc p fun q => { q with chan }).goto c rest).proc p =
      { s.proc p with chan } := upd_self ..
  -- who is about to sleep on its own address was so before
  have sleepy : chan = some (.proc p) → Sleepy s p := by
    rintro rfl
    refine .inr ⟨c, thread, .inl ?_⟩
    rw [at']
    rfl
  refine kin.tail inv at' (q := p) rfl ⟨rfl, rfl⟩ (fun r ne => upd_ne ne _ _) ?_ (.inl ?_)
    (fun c' ne own => absurd (inv.solo c' c p own thread) ne) (fun _ own => ?_) ⟨rfl, rfl, rfl⟩ nofun
    (fun r after own eq chan => ?_) fun _ _ h => h
  · rw [self]
  · rw [self]
  · rw [self] at own
    exact sleepy own
  obtain rfl : p = r := Option.some.inj (thread.symm.trans own)
  rw [self] at chan
  exact sleepy chan

theorem Kin.park (at' : (s.cpu c).code = .park p new :: rest)
    (new' : new = .sleeping ∨ new = .runnable) :
    Kin n ((s.setProc p fun q => { q with state := new }).goto c rest) := by
  obtain ⟨thread, mem, running, -⟩ := inv.typedAt at'
  rw [status_of_thread thread] at running
  have self : ((s.setProc p fun q => { q with state := new }).goto c rest).proc p =
      { s.proc p with state := new } := upd_self ..
  refine kin.tail inv at' (q := p) rfl ⟨rfl, rfl⟩ (fun r ne => upd_ne ne _ _) ?_
    (.inr (.inl ?_)) (fun c' ne own => absurd (inv.solo c' c p own thread) ne) (fun asleep own => ?_) ?_ nofun
    (fun r after own eq => ?_) fun _ _ h => h
  · rw [self]
  · rw [self, running]
    refine ⟨⟨nofun, nofun⟩, ?_⟩
    rcases new' with rfl | rfl
    · exact ⟨⟨nofun, nofun⟩, nofun⟩
    exact ⟨⟨nofun, nofun⟩, nofun⟩
  · rw [self] at asleep own
    obtain rfl : new = .sleeping := asleep
    exact .inr ⟨c, thread, .inr ⟨own, rest, at'⟩⟩
  · rcases new' with rfl | rfl
    · exact ⟨rfl, rfl, rfl⟩
    exact ⟨rfl, rfl, rfl⟩
  exact absurd eq (((kin.taskAt at' own).calm nofun nofun).2 r after)

end

end

/-! ## Steps under `wait_lock` -/

theorem exiting_cases (cpu : t.cpu = upd s.cpu c k) (thread : k.thread = some p) {z : Nat}
    (exiting : Exiting t z) : z = p ∧ reparented k.code = some ⊤ ∨ Exiting s z := by
  obtain ⟨c', own, found⟩ := exiting
  by_cases eq : c' = c
  · subst eq
    rw [cpu, upd_self] at own found
    exact .inl ⟨Option.some.inj (own.symm.trans thread), found⟩
  rw [cpu, upd_ne eq] at own found
  exact .inr ⟨c', own, found⟩

theorem Kin.under {q : Nat} (inv : Inv s) (kin : Kin n s) (own : (s.cpu c).thread = some p)
    (mem : .wait ∈ (s.cpu c).held) (cpu : t.cpu = upd s.cpu c { s.cpu c with code })
    (ctx : t.ctx = s.ctx ∧ t.saved = s.saved) (others : ∀ r, r ≠ q → t.proc r = s.proc r)
    (task : Task n t p (s.cpu c).held code) (calm : Calm code)
    (outside : n ≤ q → (t.proc q).state = .unused)
    (orphan : (t.proc q).state = .unused → (t.proc q).parent = none)
    (parent : ∀ z r, (t.proc z).parent = some r → r ≠ z ∧ r < n ∧ (t.proc r).state.Live)
    (root : (t.proc initproc).parent = none ∧ (t.proc initproc).state.Live ∧
      (t.proc initproc).state ≠ .used)
    (elsewhere : (∀ c', c' ≠ c → (s.cpu c').thread ≠ some q) ∨
      (t.proc q).state = (s.proc q).state ∧ (t.proc q).chan = (s.proc q).chan)
    (awake : (t.proc q).state = .sleeping → (t.proc q).state = (s.proc q).state ∧
      (t.proc q).chan = (s.proc q).chan)
    (pairs : ∀ r z, (t.proc z).parent = some r → (t.proc z).state = .zombie ∨ Exiting t z →
      Woken t r ∨ (s.proc z).parent = some r ∧ ((s.proc z).state = .zombie ∨ Exiting s z))
    (waker : ∀ r, wakes r (s.cpu c).code = true → wakes r code = true) : Kin n t := by
  have self : t.cpu c = { s.cpu c with code } := by rw [cpu, upd_self]
  have kept : ∀ c', c' ≠ c → (s.cpu c').thread = some q →
      (t.proc q).state = (s.proc q).state ∧ (t.proc q).chan = (s.proc q).chan :=
    fun c' ne thread => elsewhere.resolve_left fun nobody => nobody c' ne thread
  have sleepy : ∀ {r}, Sleepy t r → Sleepy s r := by
    refine sleepy_back (k := { s.cpu c with code }) rfl (fun _ nap => ?_) cpu others
      (fun c' ne thread => (kept c' ne thread).2) (fun asleep chan => ?_)
      fun r after _ eq => absurd eq (calm.2 r after)
    · rw [calm.1] at nap
      cases nap
    obtain ⟨state, chan'⟩ := awake asleep
    rw [state] at asleep
    rw [chan'] at chan
    exact .inl ⟨asleep, chan⟩
  refine Keeps.kin inv kin (c := c) ⟨?_, ?_, kin.sameCtx ctx, .inl mem, ?_, ?_, parent, root, ?_,
    ?_, ?_⟩
  case refine_1 => exact fun c' ne => by rw [cpu, upd_ne ne]
  case refine_2 =>
    intro r thread
    rw [self] at thread ⊢
    obtain rfl : p = r := Option.some.inj (own.symm.trans thread)
    exact task
  case refine_3 =>
    intro z high
    by_cases eq : z = q
    · rw [eq]
      exact outside (eq ▸ high)
    rw [others z eq]
    exact kin.outside z high
  case refine_4 =>
    intro z unused
    by_cases eq : z = q
    · rw [eq] at unused ⊢
      exact orphan unused
    rw [others z eq] at unused ⊢
    exact kin.orphan z unused
  case refine_5 =>
    intro c' r ne thread
    by_cases eq : r = q
    · rw [eq] at thread ⊢
      exact (kept c' ne thread).1
    rw [others r eq]
  case refine_6 =>
    intro r z asleep h gone
    exact (pairs r z h gone).imp_right fun before => ⟨sleepy asleep, before⟩
  case refine_7 =>
    intro r r' _ thread _ wake
    rw [self]
    exact ⟨thread, mem, waker r wake⟩

theorem Kin.parkZombie (inv : Inv s) (kin : Kin n s)
    (at' : (s.cpu c).code = .park p .zombie :: rest) :
    Kin n (((s.setProc p fun q => { q with state := .zombie }).recordExit p).goto c rest) := by
  obtain ⟨thread, -, running, options, -⟩ := inv.typedAt at'
  have mem : .wait ∈ (s.cpu c).held := by
    rcases options with h | h | ⟨-, mem⟩
    · cases h
    · cases h
    exact mem
  rw [status_of_thread thread] at running
  have task := kin.taskAt at' thread
  obtain ⟨notInit, alone⟩ := task.cleared ⊤ rfl
  have unstarted := task.fits.1.ends rfl
  generalize ht : ((s.setProc p fun q => { q with state := .zombie }).recordExit p).goto c rest = t
  have cpu : t.cpu = upd s.cpu c { s.cpu c with code := rest } := by
    rw [← ht]
    rfl
  have self : t.proc p = { s.proc p with state := .zombie } := by
    rw [← ht]
    exact upd_self ..
  have others : ∀ r, r ≠ p → t.proc r = s.proc r := by
    rw [← ht]
    exact fun r ne => upd_ne ne _ _
  have parents : ∀ z, (t.proc z).parent = (s.proc z).parent := fun z => by
    by_cases eq : z = p
    · rw [eq, self]
    rw [others z eq]
  refine kin.under inv thread mem cpu (by rw [← ht]; exact ⟨rfl, rfl⟩) others ?_
    (task.calm nofun nofun) (fun high => ?_) (fun h => ?_) (fun z r h => ?_) ?_
    (.inl fun c' ne own => ne (inv.solo c' c p own thread)) (fun h => ?_) (fun r z h gone => ?_) fun r wake => ?_
  · refine .fresh task.fits.2 unstarted ?_
    rw [self]
    exact ⟨nofun, nofun⟩
  · rw [kin.outside p high] at running
    cases running
  · rw [self] at h
    cases h
  · rw [parents] at h
    obtain ⟨ne, low, live⟩ := kin.parent z r h
    refine ⟨ne, low, ?_⟩
    by_cases eq : r = p
    · rw [eq] at h
      exact absurd h (alone z (ENat.natCast_lt_top z))
    rwa [others r eq]
  · rw [others initproc notInit.symm]
    exact kin.root
  · rw [self] at h
    cases h
  · rw [parents] at h
    refine .inr ⟨h, ?_⟩
    rcases gone with zombie | exiting
    · by_cases eq : z = p
      · rw [eq]
        exact .inr ⟨c, thread, by rw [at']; rfl⟩
      rw [others z eq] at zombie
      exact .inl zombie
    rcases exiting_cases cpu thread exiting with ⟨-, found⟩ | before
    · have none := unstarted.2.2
      rw [show reparented rest = some ⊤ from found] at none
      cases none
    exact .inr before
  rw [at'] at wake
  exact wake

theorem Kin.setParent (good : Good s) (kin : Kin n s)
    (at' : (s.cpu c).code = .setParent i p :: rest) :
    Kin n ((s.setProc i fun q => { q with parent := some p }).goto c rest) := by
  obtain ⟨inv, making⟩ := good
  obtain ⟨thread, ne, mem, ok⟩ := inv.typedAt at'
  have task := kin.taskAt at' thread
  obtain ⟨⟨after, code⟩, childless⟩ := task.fits.1.child i p rfl
  have used : (s.proc i).state = .used := by
    refine making.used i p (making.run c p thread i ?_)
    rw [at', code]
    exact List.mem_cons_self
  have nobody : ∀ c', (s.cpu c').thread ≠ some i := fun c' own => (kin.task c' i own).awake.2 used
  generalize ht : (s.setProc i fun q => { q with parent := some p }).goto c rest = t
  have cpu : t.cpu = upd s.cpu c { s.cpu c with code := rest } := by
    rw [← ht]
    rfl
  have self : t.proc i = { s.proc i with parent := some p } := by
    rw [← ht]
    exact upd_self ..
  have others : ∀ r, r ≠ i → t.proc r = s.proc r := by
    rw [← ht]
    exact fun r ne => upd_ne ne _ _
  have states : ∀ z, (t.proc z).state = (s.proc z).state := fun z => by
    by_cases eq : z = i
    · rw [eq, self]
    rw [others z eq]
  have running : (s.proc p).state = .running := by
    rw [code] at ok
    rw [← status_of_thread thread]
    exact ok.2.2.2.2.1
  have low : p < n := by
    by_contra high
    exact task.awake.1 (kin.outside p (by omega))
  refine kin.under inv thread mem cpu (by rw [← ht]; exact ⟨rfl, rfl⟩) others ?_
    (task.calm nofun nofun) (fun high => ?_) (fun h => ?_) (fun z r h => ?_) ?_
    (.inl fun c' _ => nobody c') (fun h => ?_) (fun r z h gone => ?_) fun r wake => ?_
  · have tail : Task n s p (s.cpu c).held rest := task.tail ⟨rfl, rfl, rfl⟩ id
    refine ⟨tail.fits, tail.holds, fun b found z below parent zombie => ?_, fun j found => ?_,
      fun b found => ?_, ?_⟩
    · by_cases eq : z = i
      · rw [eq, self] at zombie
        rw [used] at zombie
        cases zombie
      rw [others z eq] at parent zombie
      exact tail.scan b found z below parent zombie
    · by_cases eq : j = i
      · rw [eq, self]
      rw [others j eq]
      exact tail.child j found
    · rw [childless] at found
      cases found
    rw [states]
    exact tail.awake
  · rw [states]
    exact kin.outside i high
  · rw [states, used] at h
    cases h
  · rw [states]
    by_cases eq : z = i
    · rw [eq, self] at h
      obtain rfl : p = r := Option.some.inj h
      rw [eq]
      rw [running]
      exact ⟨ne.symm, low, nofun, nofun⟩
    rw [others z eq] at h
    exact kin.parent z r h
  · rw [states]
    refine ⟨?_, kin.root.2⟩
    rw [others initproc fun h => kin.root.2.2 (h ▸ used)]
    exact kin.root.1
  · rw [self]
    exact ⟨rfl, rfl⟩
  · have gone' : (s.proc z).state = .zombie ∨ Exiting s z := by
      rw [states] at gone
      refine gone.imp_right fun exiting => ?_
      rcases exiting_cases cpu thread exiting with ⟨-, found⟩ | before
      · rw [show reparented rest = some ⊤ from found] at childless
        cases childless
      exact before
    by_cases eq : z = i
    · exfalso
      rw [eq, used] at gone'
      rcases gone' with h | ⟨c', own, -⟩
      · cases h
      exact nobody c' own
    rw [others z eq] at h
    exact .inr ⟨h, gone'⟩
  rw [at'] at wake
  exact wake

section

variable (inv : Inv s)
include inv

section

variable (kin : Kin n s)
include kin

theorem Kin.handOver {status : Int} (at' : (s.cpu c).code = [.reparent p i status])
    (low : i < n) (child : (s.proc i).parent = some p) :
    Kin n ((s.setProc i fun q => { q with parent := some initproc }).goto c
      (wakeup n (some p) (some (.proc initproc)) ++ [.reparent p (i + 1) status])) := by
  obtain ⟨thread, notInit, held, running, -⟩ := inv.typedAt at'
  have mem : .wait ∈ (s.cpu c).held := by
    rw [held]
    exact List.mem_singleton_self _
  have task := kin.taskAt at' thread
  obtain ⟨-, alone⟩ := task.cleared i rfl
  obtain ⟨calm, fits⟩ : Calm (wakeup n (some p)
    (some (.proc initproc)) ++ [.reparent p (i + 1) status]) ∧
      Fits n p (wakeup n (some p) (some (.proc initproc)) ++ [.reparent p (i + 1) status]) := by
    refine Fits.wakeup ⟨rfl, ?_⟩ (.cons ⟨rfl, ?_⟩ rfl trivial)
    · exact nofun
    exact nofun
  have room : initproc < n := Nat.lt_of_le_of_lt (Nat.zero_le i) low
  have wake : wakes initproc (wakeup n (some p)
      (some (.proc initproc)) ++ [.reparent p (i + 1) status]) =
      true := wakes_wakeup room fun h => notInit (Option.some.inj h)
  generalize hcode : wakeup n (some p) (some (.proc initproc)) ++ [.reparent p (i + 1) status] = code at *
  have found : checked code = none ∧ visits code = none ∧
      reparented code = some ((i + 1 : Nat) : ℕ∞) := by
    rw [← hcode, checked_wakeup, visits_wakeup, reparented_wakeup]
    exact ⟨rfl, rfl, rfl⟩
  generalize ht : (s.setProc i fun q => { q with parent := some initproc }).goto c code = t
  have cpu : t.cpu = upd s.cpu c { s.cpu c with code } := by
    rw [← ht]
    rfl
  have self : t.proc i = { s.proc i with parent := some initproc } := by
    rw [← ht]
    exact upd_self ..
  have others : ∀ r, r ≠ i → t.proc r = s.proc r := by
    rw [← ht]
    exact fun r ne => upd_ne ne _ _
  have states : ∀ z, (t.proc z).state = (s.proc z).state := fun z => by
    by_cases eq : z = i
    · rw [eq, self]
    rw [others z eq]
  have notRoot : i ≠ initproc := fun h => by
    rw [h, kin.root.1] at child
    cases child
  refine kin.under inv thread mem cpu (by rw [← ht]; exact ⟨rfl, rfl⟩) others ?_ calm (fun high => ?_)
    (fun h => ?_) (fun z r h => ?_) ?_ (.inr ?_) (fun h => ?_) (fun r z h gone => ?_) fun r wake => ?_
  · refine ⟨fits, fun _ => mem, fun b h => ?_, fun j h => ?_, fun b h => ?_, ?_⟩
    · rw [found.1] at h
      cases h
    · rw [found.2.1] at h
      cases h
    · rw [found.2.2] at h
      cases h
      refine ⟨notInit, fun z below parent => ?_⟩
      by_cases eq : z = i
      · rw [eq, self] at parent
        exact notInit (Option.some.inj parent).symm
      rw [others z eq] at parent
      refine alone z ?_ parent
      have := Nat.cast_lt.mp below
      exact Nat.cast_lt.mpr (by omega)
    rw [states]
    exact task.awake
  · omega
  · rw [states] at h
    rw [kin.orphan i h] at child
    cases child
  · rw [states]
    by_cases eq : z = i
    · rw [eq, self] at h
      obtain rfl : initproc = r := Option.some.inj h
      rw [eq]
      exact ⟨notRoot.symm, room, kin.root.2.1⟩
    rw [others z eq] at h
    exact kin.parent z r h
  · rw [others initproc notRoot.symm]
    exact kin.root
  · rw [self]
    exact ⟨rfl, rfl⟩
  · rw [self]
    exact ⟨rfl, rfl⟩
  · by_cases eq : z = i
    · rw [eq, self] at h
      obtain rfl : initproc = r := Option.some.inj h
      refine .inl ⟨c, p, ?_⟩
      rw [cpu, upd_self]
      exact ⟨thread, mem, wake⟩
    rw [others z eq] at h gone
    refine .inr ⟨h, gone.imp_right fun exiting => ?_⟩
    rcases exiting_cases cpu thread exiting with ⟨-, done⟩ | before
    · rw [found.2.2] at done
      cases done
    exact before
  rw [at'] at wake
  cases wake

theorem Kin.exits {status : Int} (at' : (s.cpu c).code = [.reparent p i status]) (high : n ≤ i) :
    Kin n (s.goto c (exitEnd n p (s.proc p).parent status)) := by
  obtain ⟨thread, notInit, held, running, -⟩ := inv.typedAt at'
  have mem : .wait ∈ (s.cpu c).held := by
    rw [held]
    exact List.mem_singleton_self _
  have task := kin.taskAt at' thread
  obtain ⟨-, alone⟩ := task.cleared i rfl
  have final : Fits n p [.acquire (.proc p), .setXstate p status, .park p .zombie, .release .wait,
      .sched,
      .zombieExit] := by
    simp [Fits, follows_iff, naps, Unstarted, checked, visits, Sched.reparented, closes]
  obtain ⟨calm, fits⟩ : Calm (exitEnd n p (s.proc p).parent status) ∧
      Fits n p (exitEnd n p (s.proc p).parent status) :=
    Fits.wakeup ⟨rfl, nofun⟩ final
  have found : checked (exitEnd n p (s.proc p).parent status) = none ∧
      visits (exitEnd n p (s.proc p).parent status) = none ∧
      Sched.reparented (exitEnd n p (s.proc p).parent status) = some ⊤ := by
    rw [exitEnd, checked_wakeup, visits_wakeup, reparented_wakeup]
    exact ⟨rfl, rfl, rfl⟩
  have cpu : (s.goto c (exitEnd n p (s.proc p).parent status)).cpu =
      upd s.cpu c { s.cpu c with code := exitEnd n p (s.proc p).parent status } := rfl
  refine kin.under inv thread mem (q := p) cpu ⟨rfl, rfl⟩ (fun _ _ => rfl) ?_ calm (kin.outside p)
    (kin.orphan p)
    kin.parent kin.root (.inr ⟨rfl, rfl⟩) (fun _ => ⟨rfl, rfl⟩) (fun r z h gone => ?_) fun r wake => ?_
  · refine ⟨fits, fun _ => mem, fun b h => ?_, fun j h => ?_,
      fun b h => ⟨notInit, fun z _ parent => ?_⟩, task.awake⟩
    · rw [found.1] at h
      cases h
    · rw [found.2.1] at h
      cases h
    by_cases below : z < i
    · exact alone z (Nat.cast_lt.mpr below) parent
    have none := kin.orphan z (kin.outside z (by omega))
    rw [show (s.proc z).parent = some p from parent] at none
    cases none
  · rcases gone with zombie | exiting
    · exact .inr ⟨h, .inl zombie⟩
    rcases exiting_cases cpu thread exiting with ⟨rfl, -⟩ | before
    · obtain ⟨ne, low, -⟩ := kin.parent z r h
      refine .inl ⟨c, z, ?_⟩
      rw [cpu, upd_self]
      refine ⟨thread, mem, ?_⟩
      show wakes r (exitEnd n z (s.proc z).parent status) = true
      rw [exitEnd, show (s.proc z).parent = some r from h]
      exact wakes_wakeup low fun h => ne (Option.some.inj h).symm
    exact .inr ⟨h, .inr before⟩
  rw [at'] at wake
  cases wake

theorem Kin.collect {copy : Bool} (at' : (s.cpu c).code = [.waitTest p i copy])
    (zombie : (s.proc i).state = .zombie) :
    Kin n (((s.recordReturn p i).setProc i Proc.free).goto c [.release (.proc i), .release .wait]) := by
  obtain ⟨thread, held, running, -⟩ := inv.typedAt at'
  have mem : .wait ∈ (s.cpu c).held := by
    rw [held]
    simp
  have locked : .proc i ∈ (s.cpu c).held := by
    rw [held]
    simp
  rw [status_of_thread thread] at running
  have task := kin.taskAt at' thread
  have child := task.child i rfl
  have notRoot : i ≠ initproc := fun h => by
    rw [h, kin.root.1] at child
    cases child
  have notSelf : i ≠ p := (kin.parent i p child).1.symm
  generalize ht : ((s.recordReturn p i).setProc i Proc.free).goto c [.release (.proc i), .release .wait] = t
  have cpu : t.cpu = upd s.cpu c { s.cpu c with code := [.release (.proc i), .release .wait] } := by
    rw [← ht]
    rfl
  have self : t.proc i = Proc.free (s.proc i) := by
    rw [← ht]
    exact upd_self ..
  have others : ∀ r, r ≠ i → t.proc r = s.proc r := by
    rw [← ht]
    exact fun r ne => upd_ne ne _ _
  refine kin.under inv thread mem cpu (by rw [← ht]; exact ⟨rfl, rfl⟩) others ?_ ⟨rfl, nofun⟩
    (fun _ => ?_)
    (fun _ => ?_) (fun z r h => ?_) ?_ (.inl fun c' ne own => ?_) (fun h => ?_) (fun r z h gone => ?_)
    fun r wake => ?_
  · refine .fresh ?_ ⟨rfl, rfl, rfl⟩ ?_
    · simp [Fits, follows_iff, naps, Unstarted, checked, visits, Sched.reparented, closes]
    rw [others p notSelf.symm]
    exact task.awake
  · rw [self]
    rfl
  · rw [self]
    rfl
  · by_cases eq : z = i
    · rw [eq, self] at h
      cases h
    rw [others z eq] at h
    obtain ⟨ne, low, live⟩ := kin.parent z r h
    refine ⟨ne, low, ?_⟩
    by_cases eq' : r = i
    · rw [eq'] at live
      exact absurd zombie live.2
    rwa [others r eq']
  · rw [others initproc notRoot.symm]
    exact kin.root
  · have elsewhere := inv.elsewhere locked ne own
    rw [zombie] at elsewhere
    cases elsewhere
  · rw [self] at h
    cases h
  · by_cases eq : z = i
    · rw [eq, self] at h
      cases h
    rw [others z eq] at h gone
    refine .inr ⟨h, gone.imp_right fun exiting => ?_⟩
    rcases exiting_cases cpu thread exiting with ⟨-, found⟩ | before
    · cases found
    exact before
  rw [at'] at wake
  cases wake

/-! ## Switching -/

theorem Kin.sched (at' : (s.cpu c).code = .sched :: rest)
    (thread : (s.cpu c).thread = some p) : Kin n (s.save c p rest) := by
  obtain ⟨q, own, held, -⟩ := inv.typedAt at'
  have task := kin.taskAt at' thread
  have cpu : (s.save c p rest).cpu =
      upd s.cpu c { s.cpu c with thread := none, code := [.loadSched] } := rfl
  have self : (s.save c p rest).cpu c =
      { s.cpu c with thread := none, code := [.loadSched] } := by rw [cpu, upd_self]
  have other : ∀ c' q, ((s.save c p rest).cpu c').thread = some q →
      (s.save c p rest).cpu c' = s.cpu c' := by
    intro c' q running
    by_cases eq : c' = c
    · rw [eq, self] at running
      cases running
    rw [cpu, upd_ne eq]
  refine Keeps.kin inv kin (c := c) ⟨fun c' ne => ?_, fun q running => ?_, fun q saved => ?_,
    Or.inr fun z => ⟨rfl, id⟩, kin.outside, kin.orphan, kin.parent, kin.root, fun _ _ _ _ => rfl, ?_, ?_⟩
  · rw [cpu, upd_ne ne]
  · rw [self] at running
    cases running
  · change upd s.saved p true q = true at saved
    show Fits n q (upd s.ctx p rest q) ∧ Unstarted (upd s.ctx p rest q) ∧ Calm (upd s.ctx p rest q)
    by_cases eq : q = p
    · rw [eq, upd_self]
      exact ⟨task.fits.2, task.fits.1.ends rfl, task.calm nofun nofun⟩
    rw [upd_ne eq] at saved ⊢
    exact kin.ctx q saved
  · rintro q z sleepy parent gone
    refine .inr ⟨?_, parent, gone.imp_right ?_⟩
    · refine sleepy.imp_right ?_
      rintro ⟨c', running, code⟩
      have same := other c' q running
      rw [same] at running code
      exact ⟨c', running, code⟩
    rintro ⟨c', running, found⟩
    have same := other c' z running
    rw [same] at running found
    exact ⟨c', running, found⟩
  intro q r _ _ mem
  rw [held] at mem
  exact absurd (List.mem_singleton.mp mem) nofun

theorem Kin.restore (at' : (s.cpu c).code = .restore i :: rest) : Kin n (s.load c i) := by
  obtain ⟨idle, -⟩ := inv.typedAt at'
  obtain ⟨-, running, resumable, -⟩ := inv.atTarget (i := i) idle (by rw [at']; rfl)
  obtain ⟨fits, unstarted, calm⟩ := kin.ctx i resumable.1
  have cpu : (s.load c i).cpu = upd s.cpu c { s.cpu c with thread := some i, code := s.ctx i } :=
    rfl
  have self : (s.load c i).cpu c =
      { s.cpu c with thread := some i, code := s.ctx i } := by rw [cpu, upd_self]
  refine Keeps.kin inv kin (c := c) ⟨fun c' ne => ?_, fun q own => ?_, fun q saved => ?_,
    Or.inr fun z => ⟨rfl, id⟩, kin.outside, kin.orphan, kin.parent, kin.root, fun _ _ _ _ => rfl, ?_, ?_⟩
  · rw [cpu, upd_ne ne]
  · rw [self] at own ⊢
    obtain rfl : i = q := Option.some.inj own
    refine .fresh fits unstarted ?_
    show (s.proc i).state ≠ .unused ∧ (s.proc i).state ≠ .used
    rw [running]
    exact ⟨nofun, nofun⟩
  · change upd s.saved i false q = true at saved
    by_cases eq : q = i
    · rw [eq, upd_self] at saved
      cases saved
    rw [upd_ne eq] at saved
    exact kin.ctx q saved
  · rintro q z sleepy parent gone
    refine .inr ⟨?_, parent, gone.imp_right ?_⟩
    · refine sleepy.imp_right ?_
      rintro ⟨c', own, code⟩
      by_cases eq : c' = c
      · rw [eq, self] at code
        rcases code with nap | ⟨-, after, code⟩
        · rw [calm.1] at nap
          cases nap
        exact absurd code (calm.2 q after)
      rw [cpu, upd_ne eq] at own code
      exact ⟨c', own, code⟩
    rintro ⟨c', own, found⟩
    by_cases eq : c' = c
    · rw [eq, self] at found
      rw [unstarted.2.2] at found
      cases found
    rw [cpu, upd_ne eq] at own found
    exact ⟨c', own, found⟩
  intro q r _ own
  rw [idle] at own
  cases own

theorem Kin.schedTest (idle : (s.cpu c).thread = none) (thread : k.thread = none)
    (mem : .proc i ∈ (s.cpu c).held) (runnable : (s.proc i).state = .runnable) :
    Kin n ((s.setProc i fun q => { q with state := .running }).setCpu c k) := by
  have self : ((s.setProc i fun q => { q with state := .running }).setCpu c k).proc i =
      { s.proc i with state := .running } := upd_self ..
  refine kin.goes inv (.idle idle thread) rfl kin.ctx (fun r ne => upd_ne ne _ _) ?_
    (.inr (.inl ?_)) (fun c' ne own => ?_) (fun asleep => ?_) (fun r _ own => ?_)
  · rw [self]
  · rw [self, runnable]
    exact ⟨⟨nofun, nofun⟩, ⟨nofun, nofun⟩, nofun⟩
  · have running := inv.elsewhere mem ne own
    rw [runnable] at running
    cases running
  · rw [self] at asleep
    cases asleep
  rw [thread] at own
  cases own

/-! ## The loops -/

theorem Kin.scan {b : ℕ∞} (thread : (s.cpu c).thread = some p)
    (mem : .wait ∈ (s.cpu c).held) (fits : Fits n p code) (calm : Calm code)
    (found : checked code = some b)
    (scan : ∀ z : Nat, (z : ℕ∞) < b → (s.proc z).parent = some p → (s.proc z).state ≠ .zombie)
    (child : ∀ i, visits code = some i → (s.proc i).parent = some p) (none : reparented code = none)
    (old : ∀ q, wakes q (s.cpu c).code = false) : Kin n (s.goto c code) := by
  refine kin.jump inv thread ⟨fits, fun _ => mem, fun b' h => ?_, child, fun b' h => ?_,
    (kin.task c p thread).awake⟩ calm (fun h => ?_) fun _ q wake => ?_
  · rw [found] at h
    cases h
    exact scan
  · rw [none] at h
    cases h
  · rw [none] at h
    cases h
  rw [old q] at wake
  cases wake

end

end

/-- What `wait` knows after one more slot. -/
theorem Task.next (task : Task n s p held [j]) (found : checked [j] = some (i : ℕ∞))
    (here : (s.proc i).parent = some p → (s.proc i).state ≠ .zombie) :
    ∀ z : Nat, (z : ℕ∞) < ((i + 1 : Nat) : ℕ∞) → (s.proc z).parent = some p →
      (s.proc z).state ≠ .zombie := by
  intro z below
  by_cases eq : z = i
  · rw [eq]
    exact here
  have := Nat.cast_lt.mp below
  exact task.scan i found z (Nat.cast_lt.mpr (by omega))

theorem Kin.skip {status : Int} (inv : Inv s) (kin : Kin n s)
    (at' : (s.cpu c).code = [.reparent p i status]) (other : (s.proc i).parent ≠ some p) :
    Kin n (s.goto c [.reparent p (i + 1) status]) := by
  obtain ⟨thread, notInit, held, -⟩ := inv.typedAt at'
  have task := kin.taskAt at' thread
  obtain ⟨-, alone⟩ := task.cleared i rfl
  have mem : .wait ∈ (s.cpu c).held := by
    rw [held]
    exact List.mem_singleton_self _
  refine kin.jump inv thread ⟨.cons ⟨rfl, nofun⟩ rfl trivial, fun _ => mem, nofun, nofun,
    fun b h => ?_, task.awake⟩
    ⟨rfl, nofun⟩ (fun h => ?_) fun _ q wake => ?_
  · cases h
    refine ⟨notInit, fun z below => ?_⟩
    by_cases eq : z = i
    · rw [eq]
      exact other
    have := Nat.cast_lt.mp below
    exact alone z (Nat.cast_lt.mpr (by omega))
  · cases h
  rw [at'] at wake
  cases wake

theorem Kin.killedTest {loop : Loop} (inv : Inv s) (kin : Kin n s)
    (at' : (s.cpu c).code = [.killedTest p loop])
    (step : s.exec n c input (.killedTest p loop) [] = some (.ok t)) : Kin n t := by
  simp only [Sys.exec] at step
  cases step
  obtain ⟨thread, held, -⟩ := inv.typedAt at'
  have task := kin.taskAt at' thread
  have old : ∀ q, wakes q (s.cpu c).code = false := fun q => by rw [at']; rfl
  split
  · have fits : Fits n p [.release (.proc p), .release loop.lock] := by
      cases loop <;>
        simp [Fits, follows_iff, Loop.lock, naps, Unstarted, checked, visits, Sched.reparented,
          closes]
    refine kin.fresh inv thread fits ?_ ⟨rfl, (by simp)⟩ fun _ => old
    cases loop <;> exact ⟨rfl, rfl, rfl⟩
  have calm : Calm (sleep p loop) := ⟨rfl, fun _ _ h => by cases h⟩
  cases loop
  case wait copy =>
    have mem : .wait ∈ (s.cpu c).held := by
      rw [held]
      simp [Loop.lock]
    exact kin.scan inv thread mem (.cons calm rfl (.sleep (.wait copy)))
      ⟨rfl, (by simp)⟩ rfl (task.scan ⊤ rfl)
      (by intros; contradiction) rfl old
  case pipewrite pi =>
    exact kin.fresh inv thread (.cons ⟨rfl, (by simp)⟩ rfl (.cons ⟨rfl, (by simp)⟩ rfl trivial))
      ⟨rfl, rfl, rfl⟩
      ⟨rfl, (by simp)⟩ fun _ => old
  all_goals
    exact kin.fresh inv thread (.cons calm rfl (.sleep _)) ⟨rfl, rfl, rfl⟩
      ⟨rfl, (by simp)⟩ fun _ => old

theorem Kin.unlockLoop {loop : Loop} (inv : Inv s) (kin : Kin n s)
    (thread : (s.cpu c).thread = some p) (other : ∀ copy, loop ≠ .wait copy)
    (old : ∀ q, wakes q (s.cpu c).code = false) :
    Kin n (s.goto c [.release loop.lock]) := by
  have unlock : plain (.release loop.lock) = true ∧ Unstarted [.release loop.lock] := by
    cases loop <;> first | exact absurd rfl (other _) | exact ⟨rfl, rfl, rfl, rfl⟩
  exact kin.fresh inv thread (.cons ⟨rfl, nofun⟩ unlock.1 trivial) unlock.2 ⟨rfl,
    nofun⟩ fun _ => old

theorem Kin.wakeupRelease {l : Lock} {chan : Option Chan} (inv : Inv s) (kin : Kin n s)
    (thread : (s.cpu c).thread = some p) (other : l ≠ .wait)
    (old : ∀ q, wakes q (s.cpu c).code = false) :
    Kin n (s.goto c (wakeup n (some p) chan ++ [.release l])) := by
  have unlock : plain (.release l) = true ∧ Unstarted [.release l] := by
    cases l <;> first | exact absurd rfl other | exact ⟨rfl, rfl, rfl, rfl⟩
  have calm : Calm [.release l] := ⟨rfl, nofun⟩
  have wake : Calm (wakeup n (some p) chan ++ [.release l]) ∧
      Fits n p (wakeup n (some p) chan ++ [.release l]) :=
    Fits.wakeup calm (.cons ⟨rfl, nofun⟩ unlock.1 trivial)
  exact kin.fresh inv thread wake.2 unlock.2.wakeup wake.1 fun _ => old

theorem Kin.exec (good : Good s) (kin : Kin n s) (at' : (s.cpu c).code = j :: rest)
    (step : s.exec n c input j rest = some (.ok t)) : Kin n t := by
  have inv := good.inv
  have typed := inv.typedAt at'
  cases j <;> simp only [Sys.exec] at step
  case acquire l =>
    split at step
    · cases step
    split at step
    · rename_i free
      cases step
      by_cases wait : l = .wait
      · subst wait
        exact kin.acquireWait inv at' free
      exact kin.acquireOther inv at' wait
    cases step
  case release l =>
    split at step
    · cases step
      by_cases wait : l = .wait
      · subst wait
        exact kin.releaseWait inv at'
      exact kin.releaseOther inv at' wait
    cases step
  case setChan p chan =>
    cases step
    exact kin.setChan inv at'
  case park p new =>
    cases step
    obtain ⟨-, -, -, options, -⟩ := typed
    rcases options with rfl | rfl | ⟨rfl, -⟩
    · exact kin.park inv at' (.inl rfl)
    · exact kin.park inv at' (.inr rfl)
    exact kin.parkZombie inv at'
  case sched =>
    obtain ⟨p, thread, -⟩ := typed
    obtain ⟨q, proc, lock, one, parked, -⟩ := inv.sched at'
    obtain rfl : p = q := Option.some.inj ((inv.mine c p thread).1.symm.trans proc)
    rw [proc] at step
    simp only [lock, one, parked, ne_eq, not_true_eq_false, if_false] at step
    cases step
    exact kin.sched inv at' thread
  case loadSched | schedNext | swtchTo | clearProc =>
    cases step
    exact kin.idle inv typed.1 rfl ⟨rfl, rfl⟩ rfl typed.1
  case wake q chan =>
    cases step
    exact kin.wake inv at'
  case setKilled | setXstate =>
    cases step
    exact kin.field inv at' (fun _ => ⟨rfl, rfl, rfl⟩) ⟨rfl, rfl, rfl⟩ (by simp)
      (by simp) fun _ h => h
  case killNext i pid =>
    obtain ⟨busy, held, -, rfl⟩ := typed
    obtain ⟨p, thread⟩ := Option.ne_none_iff_exists'.mp busy
    cases step
    split
    · exact kin.fresh inv thread (.cons ⟨rfl, (by simp)⟩ rfl (.cons ⟨rfl, (by simp)⟩ rfl trivial))
        ⟨rfl, rfl, rfl⟩
        ⟨rfl, (by simp)⟩ fun _ q => by rw [at']; rfl
    exact kin.fresh inv thread trivial ⟨rfl, rfl, rfl⟩ ⟨rfl, (by simp)⟩ fun _ q => by rw [at']; rfl
  case killTest i pid =>
    obtain ⟨busy, held, -, rfl⟩ := typed
    obtain ⟨p, thread⟩ := Option.ne_none_iff_exists'.mp busy
    split at step
    · cases step
      refine kin.killTest inv thread ?_ fun q => by rw [at']; rfl
      rw [held]
      exact List.mem_singleton_self _
    cases step
    exact kin.fresh inv thread (.cons ⟨rfl, (by simp)⟩ rfl (.cons ⟨rfl, (by simp)⟩ rfl trivial))
      ⟨rfl, rfl, rfl⟩
      ⟨rfl, (by simp)⟩ fun _ q => by rw [at']; rfl
  case forkNext p i =>
    obtain ⟨thread, held, -, rfl⟩ := typed
    cases step
    split
    · rename_i low
      have fits : Fits n p [.acquire (.proc i),
          .forkTest p i] := by simp [Fits, follows_iff, naps, closes, low]
      exact kin.fresh inv thread fits ⟨rfl, rfl, rfl⟩ ⟨rfl, (by simp)⟩ fun _ q => by rw [at']; rfl
    exact kin.fresh inv thread trivial ⟨rfl, rfl, rfl⟩ ⟨rfl, (by simp)⟩ fun _ q => by rw [at']; rfl
  case forkTest p i =>
    obtain ⟨thread, held, -, rfl⟩ := typed
    split at step
    · rename_i unused
      split at step
      · cases step
        exact kin.allocproc inv at' unused
      cases step
      exact kin.allocFails inv at' unused
    cases step
    exact kin.fresh inv thread (.cons ⟨rfl, (by simp)⟩ rfl (.cons ⟨rfl, (by simp)⟩ rfl trivial))
      ⟨rfl, rfl, rfl⟩
      ⟨rfl, (by simp)⟩ fun _ q => by rw [at']; rfl
  case setParent i p =>
    cases step
    exact kin.setParent good at'
  case publish p i =>
    cases step
    exact kin.publish inv at' (good.making.publish inv at').1
  case waitScan p i havekids copy =>
    obtain ⟨thread, held, -, rfl⟩ := typed
    have task := kin.taskAt at' thread
    have mem : .wait ∈ (s.cpu c).held := by
      rw [held]
      exact List.mem_singleton_self _
    have old : ∀ q, wakes q (s.cpu c).code = false := fun q => by rw [at']; rfl
    cases step
    split
    · split
      · rename_i child
        refine kin.scan inv thread mem (.cons ⟨rfl, (by simp)⟩ rfl (.cons ⟨rfl,
          (by simp)⟩ rfl trivial)) ⟨rfl, (by simp)⟩ rfl
          (task.scan i rfl) (fun k h => ?_) rfl old
        cases h
        exact child
      rename_i other
      exact kin.scan inv thread mem (.cons ⟨rfl, (by simp)⟩ rfl trivial) ⟨rfl, (by simp)⟩ rfl
        (task.next rfl fun h => absurd h other) (by intros; contradiction) rfl old
    rename_i high
    split
    · refine kin.scan inv thread mem (.cons ⟨rfl, (by simp)⟩ rfl (.cons ⟨rfl,
        (by simp)⟩ rfl trivial)) ⟨rfl, (by simp)⟩ rfl
        (fun z _ parent => ?_) (by intros; contradiction) rfl old
      by_cases below : z < i
      · exact task.scan i rfl z (Nat.cast_lt.mpr below) parent
      rw [kin.outside z (by omega)]
      simp
    have fits : Fits n p [.release .wait] := by
      simp [Fits, follows_iff, naps, Unstarted, checked, visits, Sched.reparented]
    exact kin.fresh inv thread fits ⟨rfl, rfl, rfl⟩ ⟨rfl, (by simp)⟩ fun _ => old
  case waitTest p i copy =>
    obtain ⟨thread, held, -, rfl⟩ := typed
    have task := kin.taskAt at' thread
    have mem : .wait ∈ (s.cpu c).held := by
      rw [held]
      simp
    have old : ∀ q, wakes q (s.cpu c).code = false := fun q => by rw [at']; rfl
    split at step
    · rename_i zombie
      split at step
      · cases step
        have fits : Fits n p [.release (.proc i), .release .wait] := by
          simp [Fits, follows_iff, naps, Unstarted, checked, visits, Sched.reparented, closes]
        exact kin.fresh inv thread fits ⟨rfl, rfl, rfl⟩ ⟨rfl, (by simp)⟩ fun _ => old
      cases step
      exact kin.collect inv at' zombie
    rename_i alive
    cases step
    exact kin.scan inv thread mem (.cons ⟨rfl, (by simp)⟩ rfl (.cons ⟨rfl, (by simp)⟩ rfl trivial))
      ⟨rfl, (by simp)⟩ rfl
      (task.next rfl fun _ => alive) (by intros; contradiction) rfl old
  case killedTest p loop =>
    obtain ⟨-, -, -, rfl⟩ := typed
    have step' : s.exec n c input (.killedTest p loop) [] =
        some (.ok t) := by simpa only [Sys.exec] using step
    exact kin.killedTest inv at' step'
  case poll p loop =>
    obtain ⟨thread, held, -, rfl⟩ := typed
    have old : ∀ q, wakes q (s.cpu c).code = false := fun q => by rw [at']; rfl
    have notWait : ∀ copy, loop ≠ .wait copy := by
      rintro copy rfl
      exact (kin.taskAt at' thread).fits.1.poll p copy rfl
    split at step <;> cases step
    · exact kin.fresh inv thread (.sleep _) ⟨rfl, rfl, rfl⟩
        ⟨rfl, fun _ _ h => by cases h⟩ fun _ => old
    · refine kin.fresh inv thread (.cons ⟨rfl, (by simp)⟩ rfl (.cons ⟨rfl,
        (by simp)⟩ rfl trivial)) ?_ ⟨rfl, (by simp)⟩
        fun _ => old
      cases loop <;> first | exact absurd rfl (notWait _) | exact ⟨rfl, rfl, rfl⟩
    · exact kin.wakeupRelease inv thread (fun h => by cases h) old
    · exact kin.wakeupRelease inv thread (fun h => by cases h) old
    · exact kin.unlockLoop inv thread notWait old
    exact kin.unlockLoop inv thread notWait old
  case full p pi =>
    obtain ⟨thread, held, -, rfl⟩ := typed
    have old : ∀ q, wakes q (s.cpu c).code = false := fun q => by rw [at']; rfl
    split at step <;> cases step
    · have calm : Calm (sleep p (.pipewrite pi) ++ []) := ⟨rfl, fun _ _ h => by cases h⟩
      have wake : Calm (wakeup n (some p) (some (.nread pi)) ++ (sleep p (.pipewrite pi) ++ [])) ∧
          Fits n p (wakeup n (some p) (some (.nread pi)) ++ (sleep p (.pipewrite pi) ++ [])) :=
        Fits.wakeup calm (.sleep _)
      exact kin.fresh inv thread wake.2 (Unstarted.wakeup ⟨rfl, rfl, rfl⟩) wake.1 fun _ => old
    · exact kin.fresh inv thread (.cons ⟨rfl, (by simp)⟩ rfl trivial) ⟨rfl, rfl, rfl⟩
        ⟨rfl, (by simp)⟩ fun _ => old
    exact kin.wakeupRelease inv thread (by simp) old
  case reparent p i status =>
    obtain ⟨thread, notInit, held, -, rfl⟩ := typed
    split at step
    · rename_i low
      split at step
      · rename_i child
        cases step
        exact kin.handOver inv at' low child
      rename_i other
      cases step
      exact kin.skip inv at' other
    rename_i high
    cases step
    exact kin.exits inv at' (by omega)
  case zombieExit => exact typed.elim
  case schedTest i =>
    obtain ⟨idle, -, held, -⟩ := typed
    split at step
    · rename_i runnable
      cases step
      refine kin.schedTest inv idle idle ?_ runnable
      rw [held]
      exact List.mem_singleton_self _
    cases step
    exact kin.idle inv idle rfl ⟨rfl, rfl⟩ rfl idle
  case restore i =>
    cases step
    exact kin.restore inv at'

/-- What a call begins with. -/
theorem Fits.call {f : Call} {code : List Instr} (step : Sys.call n p f = .ok code) :
    Fits n p code ∧ Unstarted code ∧ Calm code := by
  cases f <;> simp only [Sys.call] at step
  case fork | kill pid =>
    cases step
    exact ⟨.cons ⟨rfl, (by simp)⟩ rfl trivial, ⟨rfl, rfl, rfl⟩, rfl, (by simp)⟩
  case exit status =>
    split at step
    · cases step
    rename_i notInit
    cases step
    refine ⟨?_, ⟨rfl, rfl, rfl⟩, rfl, (by simp)⟩
    simp [Fits, follows_iff, naps, checked, visits, reparented, closes, notInit]
  case setkilled =>
    cases step
    refine ⟨.cons ⟨rfl, (by simp)⟩ rfl (.cons ⟨rfl, (by simp)⟩ rfl (.cons ⟨rfl,
      (by simp)⟩ rfl trivial)), ⟨rfl, rfl, rfl⟩, rfl,
      (by simp)⟩
  case yield =>
    cases step
    refine ⟨?_, ⟨rfl, rfl, rfl⟩, rfl, fun _ _ h => by cases h⟩
    simp [Fits, follows_iff, yield, naps, Unstarted, checked, visits, reparented, closes]
  case loop loop =>
    cases step
    refine ⟨?_, ?_, rfl, (by simp)⟩
    · cases loop <;>
        simp [Fits, follows_iff, Loop.lock, Loop.again, naps, checked, visits, reparented, closes]
    cases loop <;> exact ⟨rfl, rfl, rfl⟩
  case wakeup lock chan =>
    cases step
    have wake : Calm (Sched.wakeup n (some p) (some chan) ++ [.release (.other lock)]) ∧
        Fits n p (Sched.wakeup n (some p) (some chan) ++ [.release (.other lock)]) := by
      refine Fits.wakeup ⟨rfl, ?_⟩ (.cons ⟨rfl, ?_⟩ rfl trivial)
      · simp
      simp
    have unstarted : Unstarted (Sched.wakeup n (some p) (some chan) ++ [.release (.other lock)]) :=
      Unstarted.wakeup ⟨rfl, rfl, rfl⟩
    exact ⟨.cons wake.1 rfl wake.2, unstarted, rfl, (by simp)⟩

/-- Code is not interrupted in the last steps of `sleep`. -/
theorem Inv.calm (inv : Inv s) (free : (s.cpu c).held = []) : Calm (s.cpu c).code := by
  have typed := inv.typed c
  rw [free] at typed
  refine ⟨?_, fun q after code => ?_⟩
  · unfold naps
    split
    · rename_i r x after code
      rw [code] at typed
      exact absurd typed.2.1 List.not_mem_nil
    rfl
  rw [code] at typed
  exact absurd typed.2.1 List.not_mem_nil

theorem Kin.timer (inv : Inv s) (kin : Kin n s) (free : (s.cpu c).held = [])
    (thread : (s.cpu c).thread = some p) : Kin n (s.goto c (yield p ++ (s.cpu c).code)) := by
  have task := kin.task c p thread
  have calm := inv.calm free
  have unstarted : Unstarted (s.cpu c).code := by
    by_contra started
    have mem := task.holds started
    rw [free] at mem
    cases mem
  have sched : Follows n p .sched (.release (.proc p) :: (s.cpu c).code) :=
    ⟨nofun, nofun, nofun, fun _ => unstarted, nofun, nofun, nofun, nofun⟩
  have fits : Fits n p (yield p ++ (s.cpu c).code) :=
    .cons ⟨rfl, nofun⟩ rfl (.cons ⟨rfl, nofun⟩ rfl ⟨sched, .cons calm rfl task.fits⟩)
  refine kin.fresh inv thread fits unstarted ⟨rfl, nofun⟩ fun mem => ?_
  rw [free] at mem
  cases mem

theorem Kin.device {lock : Nat} {chan : Chan} (inv : Inv s) (kin : Kin n s)
    (free : (s.cpu c).held = []) :
    Kin n (s.goto c (.acquire (.other lock) ::
      (wakeup n (s.cpu c).proc (some chan) ++ .release (.other lock) :: (s.cpu c).code))) := by
  cases thread : (s.cpu c).thread with
  | none => exact kin.idle inv thread rfl ⟨rfl, rfl⟩ rfl thread
  | some p =>
    have task := kin.task c p thread
    have unstarted : Unstarted (s.cpu c).code := by
      by_contra started
      have mem := task.holds started
      rw [free] at mem
      cases mem
    have back : Calm (.release (.other lock) :: (s.cpu c).code) := ⟨rfl, nofun⟩
    have wake : Calm (wakeup n (s.cpu c).proc (some chan) ++ .release (.other lock) :: (s.cpu c).code) ∧
        Fits n p (wakeup n (s.cpu c).proc (some chan) ++ .release (.other lock) :: (s.cpu c).code) :=
      Fits.wakeup back (.cons (inv.calm free) rfl task.fits)
    have later : Unstarted (wakeup n (s.cpu c).proc (some chan) ++ .release (.other lock) :: (s.cpu c).code) :=
      Unstarted.wakeup unstarted
    refine kin.fresh inv thread (.cons wake.1 rfl wake.2) later ⟨rfl, nofun⟩ fun mem => ?_
    rw [free] at mem
    cases mem

theorem Kin.step {a : Action} (good : Good s) (kin : Kin n s) (step : s.step n c a = some (.ok t)) :
    Kin n t := by
  have inv := good.inv
  cases Sys.took_of_step step with
  | run at' step => exact kin.exec good at' step
  | call at' proc code =>
    have typed := inv.typedAt at'
    obtain ⟨-, same, -⟩ := inv.free_cpu typed.2.1
    obtain ⟨fits, unstarted, calm⟩ := Fits.call code
    refine kin.fresh inv (same.symm.trans proc) fits unstarted calm fun _ q => ?_
    rw [at']
    rfl
  | timer free proc => exact kin.timer inv free ((inv.free_cpu free).2.1.symm.trans proc)
  | device free => exact kin.device inv free

theorem Kin.init (room : initproc < n) : Kin n (Sys.init : Sys C) := by
  have parents : ∀ z, ((Sys.init : Sys C).proc z).parent = none := fun z => by
    show (if z = initproc then _ else _ : Proc).parent = none
    split <;> rfl
  have root : (Sys.init : Sys C).proc initproc = ⟨.runnable, none, false, 0, 1,
      none⟩ := by simp [Sys.init]
  refine ⟨(by intros; contradiction), fun p saved => ?_, fun z high => ?_, fun z _ => parents z,
    fun z q h => ?_, ?_, fun q z _ h => ?_⟩
  · obtain rfl : p = initproc := of_decide_eq_true saved
    exact ⟨.cons ⟨rfl, (by simp)⟩ rfl trivial, ⟨rfl, rfl, rfl⟩, rfl, fun _ _ h => by cases h⟩
  · have ne : z ≠ initproc := fun h => absurd room (by rw [← h]; exact Nat.not_lt.mpr high)
    show (if z = initproc then _ else _ : Proc).state = .unused
    rw [if_neg ne]
    rfl
  · rw [parents] at h
    cases h
  · rw [root]
    exact ⟨rfl, ⟨(by simp), (by simp)⟩, (by simp)⟩
  rw [parents] at h
  cases h

theorem Reachable.kin (room : initproc < n) (run : Reachable n s) : Kin n s := by
  induction run with
  | init => exact Kin.init room
  | step before step ih => exact ih.step before.good step

end Keep

end Sys

/-- In every state of every run in which `wait_lock` is free, nobody who sleeps in `wait`
has a zombie child. -/
theorem no_lost_wakeup {C : Type} [DecidableEq C] {n : Nat} (room : initproc < n) {s : Sys C}
    (run : Sys.Reachable n s) (free : s.lock .wait = none) :
    ∀ q z, (s.proc q).state = .sleeping → (s.proc q).chan = some (.proc q) →
      (s.proc z).parent = some q →
      (s.proc z).state ≠ .zombie := by
  intro q z asleep chan parent zombie
  obtain ⟨c, p, -, mem, -⟩ := (run.kin room).woken q z (Or.inl ⟨asleep,
    chan⟩) parent (Or.inl zombie)
  rw [(run.good.inv.lock .wait c).mpr mem] at free
  cases free

/-- The first process forks and sleeps in `wait`. -/
def firstAsleep : List (Bool × Sys.Action) :=
  List.replicate 6 (false, .run .yes) ++ [(false, .call .fork)] ++ List.replicate 14 (false, .run .yes) ++
    [(false, .call (.loop (.wait false)))] ++ List.replicate 14 (false, .run .yes)

theorem firstAsleep_no_zombie : ∃ s : Sys Bool, Sys.Reachable 2 s ∧ s.lock .wait = none ∧
    (s.proc 0).state = .sleeping ∧ (s.proc 0).chan = some (.proc 0) ∧ (s.proc 1).parent = some 0 ∧
    (s.proc 1).state ≠ .zombie := by
  have played : (((Sys.init : Sys Bool).play 2 firstAsleep).any fun s =>
      s.lock .wait = none ∧ (s.proc 0).state = .sleeping ∧ (s.proc 0).chan = some (.proc 0) ∧
        (s.proc 1).parent = some 0) = true := by
    decide +kernel
  obtain ⟨s, run, check⟩ := Sys.Reachable.of_play played
  obtain ⟨free, asleep, chan, parent⟩ := of_decide_eq_true check
  exact ⟨s, run, free, asleep, chan, parent,
    no_lost_wakeup (by decide) run free 0 1 asleep chan parent⟩

end Xv6.Sched
