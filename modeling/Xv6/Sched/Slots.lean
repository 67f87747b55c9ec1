import Xv6.Sched.Wait

/-!
# Slots of the process table

The fields of `struct proc` that belong to the memory of the process, next to the machine of the
table, and what `allocproc`, `fork`, `freeproc` and `kill` do to a slot. `freeproc` leaves a slot
clean, and `allocproc` relies on it.
-/

namespace Xv6.Sched

open List (mem_cons_self replicate)
open Function renaming update → upd, update_self → upd_self, update_of_ne → upd_ne

set_option linter.unusedSectionVars false

/-- `p->sz`, and whether `p->trapframe` and `p->pagetable` are set. -/
structure Mem where
  sz : Nat
  trapframe : Bool
  pagetable : Bool
  deriving DecidableEq

/-- What `freeproc` leaves. -/
def Mem.free : Mem := ⟨0, false, false⟩

/-- The machine with the memory of each slot; `newborn` says that the process has not run yet, and
`named` that a `kill` has named its pid since it was made. -/
structure Life (C : Type) where
  sys : Sys C
  mem : Nat → Mem
  newborn : Nat → Bool
  named : Nat → Bool

namespace Life

variable {C : Type} [DecidableEq C]

/-- What an instruction does besides taking the machine to `t`. -/
def note (l : Life C) (input : Input) (t : Sys C) : Instr → Life C
  | .forkTest p i =>
    if (l.sys.proc i).state = .unused then
      if input = .yes then
        { sys := t
          mem := upd l.mem i ⟨(l.mem p).sz, true, true⟩
          newborn := upd l.newborn i true
          named := upd l.named i false }
      else { l with sys := t, mem := upd l.mem i .free }
    else { l with sys := t }
  | .waitTest _ i copy =>
    if (l.sys.proc i).state = .zombie ∧ ¬(copy ∧ input ≠ .yes) then
      { l with sys := t, mem := upd l.mem i .free }
    else { l with sys := t }
  | .killTest i pid =>
    if (l.sys.proc i).pid = pid then { l with sys := t, named := upd l.named i true }
    else { l with sys := t }
  | .restore i => { l with sys := t, newborn := upd l.newborn i false }
  | _ => { l with sys := t }

def after (l : Life C) (c : C) (a : Sys.Action) (t : Sys C) : Life C :=
  match a, (l.sys.cpu c).code with
  | .run input, j :: _ => l.note input t j
  | _, _ => { l with sys := t }

def step (n : Nat) (l : Life C) (c : C) (a : Sys.Action) : Option (Except Panic (Life C)) :=
  (l.sys.step n c a).map (Except.map (l.after c a))

def init : Life C where
  sys := Sys.init
  mem i := if i = initproc then ⟨4096, true, true⟩ else .free
  newborn i := decide (i = initproc)
  named _ := false

inductive Runs (n : Nat) (allowed : Call → Prop) : Life C → Prop
  | init : Runs n allowed init
  | step {l l' : Life C} {c : C} {a : Sys.Action} : Runs n allowed l →
      (∀ f, a = .call f → allowed f) →
      l.step n c a = some (.ok l') → Runs n allowed l'

variable {n : Nat} {allowed : Call → Prop} {l l' : Life C} {c : C} {t : Sys C}

theorem step_some {a : Sys.Action} (h : l.step n c a = some (.ok l')) :
    ∃ t, l.sys.step n c a = some (.ok t) ∧ l' = l.after c a t := by
  rw [step] at h
  obtain ⟨r, stepped, eq⟩ := Option.map_eq_some_iff.mp h
  cases r with
  | error e => cases eq
  | ok t =>
    cases eq
    exact ⟨t, stepped, rfl⟩

theorem note_sys (input : Input) (j : Instr) : (l.note input t j).sys = t := by
  cases j <;> simp only [note] <;> split_ifs <;> rfl

theorem after_sys (a : Sys.Action) : (l.after c a t).sys = t := by
  unfold after
  split
  · exact note_sys ..
  rfl

variable {j : Instr} {input : Input} {rest : List Instr}

theorem after_run (at' : (l.sys.cpu c).code = j :: rest) :
    l.after c (.run input) t = l.note input t j := by
  unfold after
  rw [at']

theorem Runs.reachable (run : Runs n allowed l) : Sys.Reachable n l.sys := by
  induction run with
  | init => exact .init
  | step _ _ h ih =>
    obtain ⟨t, stepped, rfl⟩ := step_some h
    rw [after_sys]
    exact ih.step stepped

/-! ## What a step does to a slot -/

/-- Nothing else of the slot changes. -/
structure Same (l l' : Life C) (i : Nat) : Prop where
  mem : l'.mem i = l.mem i
  newborn : l'.newborn i = l.newborn i
  named : l'.named i = l.named i
  saved : l.sys.saved i = true → l'.sys.saved i = true

/-- What a step of `c` can do to slot `i`. -/
inductive Change (l l' : Life C) (c : C) (i : Nat) : Prop
  | same : l'.sys.proc i = l.sys.proc i → Same l l' i → Change l l' c i
  /-- A field of a live process that has nothing to do with `kill`. -/
  | live : (l.sys.proc i).state ≠ .unused → (l'.sys.proc i).state ≠ .unused →
      (l'.sys.proc i).killed = (l.sys.proc i).killed → Same l l' i → Change l l' c i
  /-- `setkilled` by the process itself. -/
  | own : (l.sys.cpu c).thread = some i → (l.sys.proc i).state ≠ .unused →
      (l'.sys.proc i).state ≠ .unused →
      Same l l' i → Change l l' c i
  /-- `kill` with the pid of the slot. -/
  | hit {rest : List Instr} : (l.sys.cpu c).code = .killTest i (l.sys.proc i).pid :: rest →
      ((l'.sys.proc i).state = .unused → (l.sys.proc i).state = .unused) → l'.newborn i = l.newborn i →
      l'.named i = true → l'.sys.saved i = l.sys.saved i → Change l l' c i
  /-- `allocproc`; it does not touch `killed`. -/
  | born : (l.sys.proc i).state = .unused → (l'.sys.proc i).state = .used →
      (l'.sys.proc i).killed = (l.sys.proc i).killed → l'.sys.saved i = true → Change l l' c i
  | freed : l'.sys.proc i = (l.sys.proc i).free → l'.mem i = .free → l'.newborn i = l.newborn i →
      l'.sys.saved i = l.sys.saved i → Change l l' c i
  /-- The process runs for the first time, or again. -/
  | starts : l'.sys.proc i = l.sys.proc i → l'.mem i = l.mem i → l'.newborn i = false →
      Change l l' c i

theorem Change.setProc {q i : Nat} {new : Proc} (proc : l'.sys.proc = upd l.sys.proc q new)
    (other : ∀ i, i ≠ q → Same l l' i) (mine : l'.sys.proc q = new → Change l l' c q) :
    Change l l' c i := by
  by_cases eq : i = q
  · rw [eq]
    exact mine (by rw [proc, upd_self])
  exact .same (by rw [proc, upd_ne eq]) (other i eq)

theorem Change.field {u : Sys C} {q i : Nat} {new : Proc} (proc : u.proc = upd l.sys.proc q new)
    (saved : u.saved = l.sys.saved) (before : (l.sys.proc q).state ≠ .unused)
    (after : new.state ≠ .unused) (killed : new.killed = (l.sys.proc q).killed) :
    Change l { l with sys := u } c i := by
  have same : ∀ i, Same l { l with sys := u } i := fun i => ⟨rfl, rfl, rfl,
    fun h => (congrFun saved i).trans h⟩
  refine .setProc proc (fun i _ => same i) (fun eq => .live before ?_ ?_ (same q))
  · rw [eq]
    exact after
  rw [eq]
  exact killed

theorem Change.exec (good : Sys.Good l.sys) (kin : Sys.Kin n l.sys)
    (at' : (l.sys.cpu c).code = j :: rest) (step : l.sys.exec n c input j rest = some (.ok t))
    (i : Nat) :
    Change l (l.note input t j) c i := by
  have typed := good.inv.typedAt at'
  have awake : ∀ {p}, (l.sys.cpu c).thread = some p → (l.sys.proc p).state ≠ .unused :=
    fun thread => (kin.task c _ thread).awake.1
  have quiet : ∀ {u : Sys C}, u.proc = l.sys.proc → (l.sys.saved i = true → u.saved i = true) →
      Change l { l with sys := u } c i := fun proc saved => .same (congrFun proc i) ⟨rfl, rfl, rfl, saved⟩
  have field : ∀ {u : Sys C} {q : Nat} {new : Proc}, u.proc = upd l.sys.proc q new →
      u.saved = l.sys.saved → (l.sys.proc q).state ≠ .unused → new.state ≠ .unused → new.killed = (l.sys.proc q).killed →
      Change l { l with sys := u } c i :=
    fun proc => .field proc
  cases j <;> simp only [Sys.exec] at step
  case acquire k =>
    split at step
    · cases step
    split at step
    · cases step
      exact quiet rfl id
    cases step
  case release k =>
    split at step
    · cases step
      exact quiet rfl id
    cases step
  case setChan | setXstate =>
    cases step
    exact field rfl rfl (awake typed.1) (awake typed.1) rfl
  case park p new =>
    obtain ⟨thread, -, -, new', -⟩ := typed
    have live : new ≠ .unused := by rcases new' with rfl | rfl | ⟨rfl, -⟩ <;> simp
    cases step
    split
    · exact field rfl rfl (awake thread) live rfl
    exact field rfl rfl (awake thread) live rfl
  case sched =>
    split at step
    · cases step
    rename_i p _
    split_ifs at step <;> cases step
    refine quiet rfl fun was => ?_
    simp only [Sys.save]
    by_cases eq : i = p
    · rw [eq, upd_self]
    rw [upd_ne eq]
    exact was
  case wake q chan =>
    cases step
    split
    · rename_i both
      refine field rfl rfl ?_ (by simp) rfl
      rw [both.1]
      simp
    exact quiet rfl id
  case setKilled p =>
    cases step
    refine .setProc rfl (fun _ _ => ⟨rfl, rfl, rfl, id⟩)
      (fun eq => .own typed.1 (awake typed.1) ?_ ⟨rfl, rfl, rfl, id⟩)
    rw [eq]
    exact awake typed.1
  case killTest k pid =>
    simp only [note]
    split at step
    · rename_i found
      cases step
      rw [if_pos found]
      refine .setProc rfl (fun i ne => ⟨rfl, rfl, upd_ne ne .., id⟩) fun eq => ?_
      refine .hit (by rw [found]; exact at') ?_ rfl (upd_self ..) rfl
      rw [eq]
      dsimp only
      split
      · simp
      exact id
    rename_i other
    cases step
    rw [if_neg other]
    exact quiet rfl id
  case forkTest p k =>
    simp only [note]
    split at step
    swap
    · rename_i used
      cases step
      rw [if_neg used]
      exact quiet rfl id
    rename_i unused
    rw [if_pos unused]
    split at step
    · rename_i yes
      cases step
      rw [if_pos yes]
      refine .setProc rfl ?_ fun eq => .born unused ?_ ?_ (upd_self ..)
      · refine fun i ne => ⟨upd_ne ne .., upd_ne ne .., upd_ne ne .., ?_⟩
        intro was
        exact (upd_ne ne ..).trans was
      · rw [eq]
      rw [eq]
    rename_i no
    cases step
    rw [if_neg no]
    refine .setProc rfl (fun i ne => ⟨upd_ne ne .., rfl, rfl, id⟩) fun eq => ?_
    exact .freed eq (upd_self ..) rfl rfl
  case setParent k p =>
    obtain ⟨thread, -⟩ := typed
    have task := kin.task c p thread
    rw [at'] at task
    -- the slot is the one that this `fork` makes
    obtain ⟨⟨after, eq⟩, -⟩ := task.fits.1.child k p rfl
    have used := good.making.used k p (good.making.run c p thread k (by rw [at', eq]; exact mem_cons_self))
    cases step
    have live : (l.sys.proc k).state ≠ .unused := by
      rw [used]
      simp
    exact field rfl rfl live live rfl
  case publish p k =>
    have used := (good.making.publish good.inv at').1
    cases step
    refine field rfl rfl ?_ (by simp) rfl
    rw [used]
    simp
  case waitTest p k copy =>
    simp only [note]
    split at step
    · rename_i zombie
      split at step
      · rename_i fails
        cases step
        rw [if_neg (fun both => both.2 fails)]
        exact quiet rfl id
      rename_i fine
      cases step
      rw [if_pos ⟨zombie, fine⟩]
      refine .setProc rfl (fun i ne => ⟨upd_ne ne .., rfl, rfl, id⟩) fun eq => ?_
      exact .freed eq (upd_self ..) rfl rfl
    rename_i other
    cases step
    rw [if_neg (fun both => other both.1)]
    exact quiet rfl id
  case poll | full => split at step <;> cases step <;> exact quiet rfl id
  case reparent p k status =>
    split at step
    · split at step
      · rename_i child
        cases step
        have live : (l.sys.proc k).state ≠ .unused := by
          intro unused
          rw [kin.orphan k unused] at child
          cases child
        exact field rfl rfl live live rfl
      cases step
      exact quiet rfl id
    cases step
    exact quiet rfl id
  case zombieExit => cases step
  case schedTest k =>
    split at step
    · rename_i runnable
      cases step
      refine field rfl rfl ?_ (by simp) rfl
      rw [runnable]
      simp
    cases step
    exact quiet rfl id
  case restore k =>
    cases step
    by_cases eq : i = k
    · exact .starts rfl rfl (by rw [eq]; exact upd_self ..)
    exact .same rfl ⟨rfl, upd_ne eq .., rfl, fun was => (upd_ne eq ..).trans was⟩
  all_goals
    cases step
    exact quiet rfl id

/-! ## Kills of nobody -/

/-- The code of a `kill(0)` that is not done. -/
def sparesNobody : Instr → Bool
  | .killNext _ 0 | .killTest _ 0 => false
  | _ => true

def Spares (code : List Instr) : Prop := ∀ j ∈ code, sparesNobody j = true

theorem Spares.nil : Spares [] := nofun

theorem Spares.cons (first : sparesNobody j = true) (h : Spares rest) : Spares (j :: rest) := by
  intro k mem
  rcases List.mem_cons.mp mem with rfl | mem
  · exact first
  exact h k mem

theorem Spares.tail (h : Spares (j :: rest)) : Spares rest :=
  fun k mem => h k (List.mem_cons_of_mem _ mem)

variable {code : List Instr}

theorem Spares.append (h : Spares code) (h' : Spares rest) : Spares (code ++ rest) := by
  intro k mem
  exact (List.mem_append.mp mem).elim (h k) (h' k)

theorem Spares.wakeup (me : Option Nat) (chan : Option Chan) : Spares (Sched.wakeup n me chan) := by
  have all : Spares (Sched.wakeup n me chan ++ []) :=
    wakeup_induction .nil fun _ _ ih => .cons rfl (.cons rfl (.cons rfl ih))
  rwa [List.append_nil] at all

theorem Spares.sleep (p : Nat) (loop : Loop) : Spares (Sched.sleep p loop) := by
  cases loop <;> simp [Spares, sparesNobody, Sched.sleep, sleepTail, Loop.again]

/-- Nobody is in a `kill(0)`. -/
structure NoKillZero (s : Sys C) : Prop where
  code : ∀ c, Spares (s.cpu c).code
  context : ∀ c, Spares (s.cpu c).context
  ctx : ∀ p, Spares (s.ctx p)

variable {s : Sys C}

theorem NoKillZero.move {k : Cpu} (h : NoKillZero s) (cpu : t.cpu = upd s.cpu c k)
    (code : Spares k.code) (context : Spares k.context) (ctx : ∀ p, Spares (t.ctx p)) :
    NoKillZero t := by
  refine ⟨fun c' => ?_, fun c' => ?_, ctx⟩
  · rw [cpu]
    by_cases eq : c' = c
    · rw [eq, upd_self]
      exact code
    rw [upd_ne eq]
    exact h.code c'
  rw [cpu]
  by_cases eq : c' = c
  · rw [eq, upd_self]
    exact context
  rw [upd_ne eq]
  exact h.context c'

/-- The CPU goes on with other code. -/
theorem NoKillZero.goto (h : NoKillZero s) (cpu : t.cpu = (s.goto c code).cpu) (ctx : t.ctx = s.ctx)
    (spares : Spares code) : NoKillZero t :=
  h.move cpu spares (h.context c) (by rw [ctx]; exact h.ctx)

theorem NoKillZero.exec (h : NoKillZero s) (at' : (s.cpu c).code = j :: rest)
    (step : s.exec n c input j rest = some (.ok t)) : NoKillZero t := by
  have all := h.code c
  rw [at'] at all
  have first := all j mem_cons_self
  have tail := all.tail
  cases j <;> simp only [Sys.exec] at step
  case acquire k =>
    split at step
    · cases step
    split at step
    · cases step
      exact h.move (Sys.take_goto_cpu k) tail (h.context c) h.ctx
    cases step
  case release k =>
    split at step
    · cases step
      exact h.move (Sys.drop_goto_cpu k) tail (h.context c) h.ctx
    cases step
  case park p new | wake q chan =>
    cases step
    split
    · exact h.goto rfl rfl tail
    exact h.goto rfl rfl tail
  case sched =>
    split at step
    · cases step
    rename_i p _
    split_ifs at step <;> cases step
    refine h.move (k := { s.cpu c with thread := none, code := [.loadSched] }) rfl (.cons rfl .nil)
      (h.context c)
      fun q => ?_
    simp only [Sys.save]
    by_cases eq : q = p
    · rw [eq, upd_self]
      exact tail
    rw [upd_ne eq]
    exact h.ctx q
  case loadSched =>
    cases step
    exact h.goto rfl rfl (h.context c)
  case killNext k pid =>
    cases step
    refine h.goto rfl rfl ?_
    split
    · refine .cons rfl (.cons ?_ tail)
      cases pid with
      | zero => cases first
      | succ pid => rfl
    exact tail
  case killTest k pid =>
    split at step
    · cases step
      exact h.goto rfl rfl (.cons rfl tail)
    cases step
    refine h.goto rfl rfl (.cons rfl (.cons ?_ tail))
    cases pid with
    | zero => cases first
    | succ pid => rfl
  case forkNext p k =>
    cases step
    refine h.goto rfl rfl ?_
    split
    · exact .cons rfl (.cons rfl tail)
    exact tail
  case forkTest p k =>
    split at step
    swap
    · cases step
      exact h.goto rfl rfl (.cons rfl (.cons rfl tail))
    split at step
    · cases step
      refine h.move rfl ?_ (h.context c) fun q => ?_
      · refine .append ?_ tail
        simp [forkEnd, Spares, sparesNobody]
      simp only [Sys.goto, Sys.allocproc, Sys.setCpu_ctx]
      by_cases eq : q = k
      · rw [eq, upd_self]
        exact .cons rfl .nil
      rw [upd_ne eq]
      exact h.ctx q
    cases step
    exact h.goto rfl rfl (.cons rfl tail)
  case waitScan p k havekids copy =>
    cases step
    refine h.goto rfl rfl ?_
    split_ifs
    · exact .cons rfl (.cons rfl tail)
    · exact .cons rfl tail
    · exact .cons rfl (.cons rfl tail)
    exact .cons rfl tail
  case waitTest p k copy =>
    split at step
    · split at step
      · cases step
        exact h.goto rfl rfl (.cons rfl (.cons rfl tail))
      cases step
      exact h.goto rfl rfl (.cons rfl (.cons rfl tail))
    cases step
    exact h.goto rfl rfl (.cons rfl (.cons rfl tail))
  case killedTest p loop =>
    cases step
    refine h.goto rfl rfl (.cons rfl ?_)
    split
    · exact .cons rfl tail
    split
    · exact .cons rfl tail
    exact .append (.sleep _ _) tail
  case poll p loop =>
    split at step <;> cases step <;> refine h.goto rfl rfl ?_
    · exact .append (.sleep _ _) tail
    · exact .cons rfl (.cons rfl tail)
    · exact .append (.wakeup _ _) (.cons rfl tail)
    · exact .append (.wakeup _ _) (.cons rfl tail)
    · exact .cons rfl tail
    exact .cons rfl tail
  case full p pi =>
    split at step <;> cases step <;> refine h.goto rfl rfl ?_
    · exact .append (.wakeup _ _) (.append (.sleep _ _) tail)
    · exact .cons rfl tail
    exact .append (.wakeup _ _) (.cons rfl tail)
  case reparent p k status =>
    split at step
    · split at step
      · cases step
        exact h.goto rfl rfl (.append (.wakeup _ _) (.cons rfl tail))
      cases step
      exact h.goto rfl rfl (.cons rfl tail)
    cases step
    refine h.goto rfl rfl (.append (.wakeup _ _) ?_)
    simp [Spares, sparesNobody]
  case zombieExit => cases step
  case schedNext k =>
    cases step
    refine h.goto rfl rfl ?_
    split <;> simp [Spares, sparesNobody]
  case schedTest k =>
    split at step
    · cases step
      exact h.move (k := { s.cpu c with proc := some k, code := _ }) rfl (.cons rfl (.cons rfl tail)) (h.context c) h.ctx
    cases step
    exact h.goto rfl rfl tail
  case swtchTo k =>
    cases step
    exact h.move rfl (.cons rfl .nil) tail h.ctx
  case restore k =>
    cases step
    exact h.move rfl (h.ctx k) (h.context c) h.ctx
  case clearProc =>
    cases step
    exact h.move rfl tail (h.context c) h.ctx
  all_goals
    cases step
    exact h.goto rfl rfl tail

theorem NoKillZero.call {p : Nat} {f : Call} (other : f ≠ .kill 0)
    (called : Sys.call n p f = .ok code) : Spares code := by
  cases f with
  | kill pid =>
    cases called
    refine .cons ?_ .nil
    cases pid with
    | zero => exact absurd rfl other
    | succ pid => rfl
  | exit status =>
    rw [Sys.call] at called
    split at called
    · cases called
    cases called
    exact .cons rfl (.cons rfl .nil)
  | loop loop =>
    cases called
    cases loop <;> simp [Spares, sparesNobody, Loop.again]
  | wakeup lock chan =>
    cases called
    exact .cons rfl (.append (.wakeup _ _) (.cons rfl .nil))
  | fork | setkilled | yield =>
    cases called
    simp [Spares, sparesNobody, yield]

theorem NoKillZero.step {a : Sys.Action} (h : NoKillZero s) (other : ∀ f, a = .call f → f ≠ .kill 0)
    (step : s.step n c a = some (.ok t)) : NoKillZero t := by
  cases Sys.took_of_step step with
  | run at' step => exact h.exec at' step
  | @call f _ _ at' proc code => exact h.goto rfl rfl (NoKillZero.call (other f rfl) code)
  | timer free proc =>
    refine h.goto rfl rfl (.append ?_ (h.code c))
    simp [Spares, sparesNobody, yield]
  | device free => exact h.goto rfl rfl (.cons rfl (.append (.wakeup _ _) (.cons rfl (h.code c))))

/-! ## Clean slots -/

structure Tidy (l : Life C) : Prop where
  clean : ∀ i, (l.sys.proc i).state = .unused → l.sys.proc i = default ∧ l.mem i = .free
  saved : ∀ i, l.newborn i = true → l.sys.saved i = true
  named : ∀ i, l.newborn i = true → (l.sys.proc i).killed = true → l.named i = true

theorem Tidy.change (tidy : Tidy l) (good : Sys.Good l.sys) (spares : NoKillZero l.sys)
    (change : ∀ i, Change l l' c i) : Tidy l' := by
  have dead : ∀ i rest, (l.sys.proc i).state = .unused →
      (l.sys.cpu c).code ≠ .killTest i (l.sys.proc i).pid :: rest := by
    intro i rest unused at'
    have first := spares.code c
    rw [at', (tidy.clean i unused).1] at first
    cases first _ mem_cons_self
  refine ⟨fun i unused => ?_, fun i newborn => ?_, fun i newborn killed => ?_⟩
  · cases change i with
    | same proc same =>
      rw [proc, same.mem]
      rw [proc] at unused
      exact tidy.clean i unused
    | live _ live | own _ _ live => exact absurd unused live
    | hit at' state => exact absurd at' (dead i _ (state unused))
    | born _ used =>
      rw [unused] at used
      cases used
    | freed proc mem =>
      rw [proc, mem]
      exact ⟨rfl, rfl⟩
    | starts proc mem =>
      rw [proc, mem]
      rw [proc] at unused
      exact tidy.clean i unused
  · cases change i with
    | same _ same | live _ _ _ same | own _ _ _ same =>
      rw [same.newborn] at newborn
      exact same.saved (tidy.saved i newborn)
    | hit _ _ same _ saved | freed _ _ same saved =>
      rw [same] at newborn
      rw [saved]
      exact tidy.saved i newborn
    | born _ _ _ saved => exact saved
    | starts _ _ started =>
      rw [started] at newborn
      cases newborn
  cases change i with
  | same proc same =>
    rw [same.newborn] at newborn
    rw [proc] at killed
    rw [same.named]
    exact tidy.named i newborn killed
  | live _ _ kept same =>
    rw [same.newborn] at newborn
    rw [kept] at killed
    rw [same.named]
    exact tidy.named i newborn killed
  | own thread _ _ same =>
    rw [same.newborn] at newborn
    have saved := tidy.saved i newborn
    rw [(good.inv.mine c i thread).2.2] at saved
    cases saved
  | hit _ _ _ named => exact named
  | born unused _ kept =>
    rw [kept, (tidy.clean i unused).1] at killed
    cases killed
  | freed proc =>
    rw [proc] at killed
    cases killed
  | starts _ _ started =>
    rw [started] at newborn
    cases newborn

theorem Tidy.init : Tidy (Life.init : Life C) := by
  refine ⟨fun i unused => ?_, fun i newborn => newborn, fun i newborn killed => ?_⟩
  · simp only [Life.init, Sys.init] at unused ⊢
    split at unused
    · cases unused
    rename_i other
    rw [if_neg other, if_neg other]
    exact ⟨rfl, rfl⟩
  simp only [Life.init, Sys.init] at killed
  split at killed <;> cases killed

theorem NoKillZero.init : NoKillZero (Sys.init : Sys C) := by
  refine ⟨fun _ => .cons rfl .nil, fun _ => .nil, fun p => ?_⟩
  simp only [Sys.init]
  split
  · exact .cons rfl .nil
  exact .nil

def NotZero (f : Call) : Prop := f ≠ .kill 0

theorem Runs.spares (run : Runs n NotZero l) : NoKillZero l.sys := by
  induction run with
  | init => exact .init
  | step _ allowed h ih =>
    obtain ⟨t, stepped, rfl⟩ := step_some h
    rw [after_sys]
    exact ih.step (fun f eq => allowed f eq) stepped

theorem Runs.tidy (room : initproc < n) (run : Runs n NotZero l) : Tidy l := by
  induction run with
  | init => exact .init
  | @step l l' c a run allowed h ih =>
    obtain ⟨t, stepped, rfl⟩ := step_some h
    have reached := run.reachable
    refine ih.change (c := c) reached.good run.spares fun i => ?_
    cases Sys.took_of_step stepped with
    | run at' step =>
      rw [after_run at']
      exact .exec reached.good (reached.kin room) at' step i
    | call at' proc code | timer free proc | device free => exact .same rfl ⟨rfl, rfl, rfl, id⟩

def fine (allowed : Call → Prop) [DecidablePred allowed] : Sys.Action → Bool
  | .call f => decide (allowed f)
  | _ => true

/-- Run a schedule of allowed calls. -/
def play (n : Nat) (allowed : Call → Prop) [DecidablePred allowed] (l : Life C) : List (C × Sys.Action) → Option (Life C)
  | [] => some l
  | (c, a) :: rest =>
    if fine allowed a then
      match l.step n c a with
      | some (.ok l') => l'.play n allowed rest
      | _ => none
    else none

variable {schedule : List (C × Sys.Action)}

theorem Runs.play [DecidablePred allowed] :
    ∀ {l l' : Life C}, Runs n allowed l → l.play n allowed schedule = some l' →
      Runs n allowed l' := by
  induction schedule with
  | nil =>
    intro l l' run h
    cases h
    exact run
  | cons move rest ih =>
    intro l l' run h
    obtain ⟨c, a⟩ := move
    rw [Life.play] at h
    split at h
    · rename_i ok
      split at h
      · rename_i u stepped
        refine ih (run.step (fun f eq => ?_) stepped) h
        rw [eq] at ok
        exact of_decide_eq_true ok
      cases h
    cases h

theorem Runs.of_play [DecidablePred allowed] {check : Life C → Bool}
    (played : ((Life.init : Life C).play n allowed schedule).any check = true) :
    ∃ l : Life C, Runs n allowed l ∧ check l = true := by
  obtain ⟨l, h, played⟩ := (Option.any_eq_true _ _).1 played
  exact ⟨l, Runs.init.play h, played⟩

instance : DecidablePred NotZero := fun f => inferInstanceAs (Decidable (f ≠ .kill 0))

end Life

/-- Without a `kill(0)`, unused slots are clean, a `kill` that finds its pid finds a process, and a
process is killed when it first runs only if a `kill` named its pid. -/
theorem slots_clean {C : Type} [DecidableEq C] {n : Nat} (room : initproc < n) {l : Life C}
    (run : Life.Runs n Life.NotZero l) :
    (∀ i, (l.sys.proc i).state = .unused → l.sys.lock (.proc i) = none →
      (l.sys.proc i).pid = 0 ∧ (l.sys.proc i).killed = false ∧ (l.sys.proc i).parent = none ∧
        (l.sys.proc i).chan = none ∧ l.mem i = ⟨0, false, false⟩) ∧
    (∀ c i pid rest, (l.sys.cpu c).code = .killTest i pid :: rest → (l.sys.proc i).pid = pid →
      (l.sys.proc i).state ≠ .unused) ∧
    (∀ c i rest, (l.sys.cpu c).code = .restore i :: rest → l.newborn i = true →
      (l.sys.proc i).killed = true → l.named i = true) := by
  have tidy := run.tidy room
  refine ⟨fun i unused _ => ?_, fun c i pid rest at' found unused => ?_,
    fun c i rest _ => tidy.named i⟩
  · obtain ⟨proc, mem⟩ := tidy.clean i unused
    rw [proc, mem]
    exact ⟨rfl, rfl, rfl, rfl, rfl⟩
  have first := run.spares.code c
  rw [at', ← found, (tidy.clean i unused).1] at first
  cases first _ List.mem_cons_self

/-- The first process runs and calls `kill(0)`. -/
def killsZero : List (Bool × Sys.Action) :=
  replicate 6 (false, .run .yes) ++ [(false, .call (.kill 0))] ++ replicate 8 (false, .run .yes)

/-- Then it forks, and the other CPU takes the child. -/
def killsZeroForks : List (Bool × Sys.Action) :=
  killsZero ++ [(false, .call .fork)] ++ replicate 14 (false, .run .yes) ++ replicate 8 (true, .run .yes)

/-- `kill(0)` finds an unused slot, marks it and succeeds, and the next child is born killed. -/
theorem killsZero_dirty : (∃ l : Life Bool, Life.Runs 2 (fun _ => True) l ∧ (l.sys.proc 1).state = .unused ∧
      l.sys.lock (.proc 1) = none ∧ (l.sys.proc 1).killed = true) ∧
    (∃ l : Life Bool, Life.Runs 2 (fun _ => True) l ∧ (∃ rest, (l.sys.cpu true).code = .restore 1 :: rest) ∧
      l.newborn 1 = true ∧ (l.sys.proc 1).killed = true ∧ l.named 1 = false) := by
  constructor
  · have played : (((Life.init : Life Bool).play 2 (fun _ => True) killsZero).any fun l =>
        (l.sys.proc 1).state = .unused ∧ l.sys.lock (.proc 1) = none ∧ (l.sys.proc 1).killed = true) = true := by
      decide +kernel
    obtain ⟨l, run, check⟩ := Life.Runs.of_play played
    exact ⟨l, run, of_decide_eq_true check⟩
  have played : (((Life.init : Life Bool).play 2 (fun _ => True) killsZeroForks).any fun l =>
      (l.sys.cpu true).code = [.restore 1] ∧ l.newborn 1 = true ∧ (l.sys.proc 1).killed = true ∧
        l.named 1 = false) = true := by
    decide +kernel
  obtain ⟨l, run, check⟩ := Life.Runs.of_play played
  obtain ⟨at', rest⟩ := of_decide_eq_true check
  exact ⟨l, run, ⟨[], at'⟩, rest⟩

/-- The first process forks, and the other CPU takes the child. -/
def forks : List (Bool × Sys.Action) :=
  replicate 6 (false, .run .yes) ++ [(false, .call .fork)] ++ replicate 14 (false, .run .yes) ++
    [(false, .call (.kill 2))] ++ replicate 8 (false, .run .yes) ++ replicate 8 (true, .run .yes)

/-- The child is killed before it runs; its pid was named. -/
theorem forks_clean : ∃ l : Life Bool, Life.Runs 3 Life.NotZero l ∧ (l.sys.proc 1).killed = true ∧
    (∀ i, (l.sys.proc i).state = .unused → l.sys.lock (.proc i) = none →
      (l.sys.proc i).pid = 0 ∧ (l.sys.proc i).killed = false ∧ (l.sys.proc i).parent = none ∧
        (l.sys.proc i).chan = none ∧ l.mem i = ⟨0, false, false⟩) ∧ l.named 1 = true := by
  have played : (((Life.init : Life Bool).play 3 Life.NotZero forks).any fun l =>
      (l.sys.cpu true).code = [.restore 1] ∧ l.newborn 1 = true ∧ (l.sys.proc 1).killed = true) = true := by
    decide +kernel
  obtain ⟨l, run, check⟩ := Life.Runs.of_play played
  obtain ⟨at', newborn, killed⟩ := of_decide_eq_true check
  obtain ⟨clean, -, named⟩ := slots_clean (by decide) run
  exact ⟨l, run, killed, clean, named true 1 [] at' newborn killed⟩

end Xv6.Sched
