import Xv6.Sched

/-!
# Lock discipline

`Ok me locks state code` checks the instructions of a thread against the locks
that its CPU holds and the state of its process: locks are released by the CPU that
took them, a process that is no longer `RUNNING` keeps `p->lock` until it has
switched to the scheduler, and `sched` is called with that lock only. Every
instruction leads from checked code to checked code, so the checks hold in every
state of every run, and with them what `scheduler` and `sched` rely on.
-/

namespace Xv6.Sched

open List (mem_singleton_self erase_cons_head not_mem_nil)
open Function renaming update → upd, update_self → upd_self, update_of_ne → upd_ne,
  update_idem → upd_idem

/-- The process that a scheduler is about to switch to. -/
def target : List Instr → Option Nat
  | .swtchTo i :: _ | .restore i :: _ => some i
  | _ => none

/-- The process has switched to the scheduler, which has not cleared `c->proc` yet. -/
def returning : List Instr → Bool
  | .loadSched :: _ | .clearProc :: _ => true
  | _ => false

/-- The CPU is not between the assignments to `c->proc`. -/
def Settled (code : List Instr) : Prop := target code = none ∧ returning code = false

/-- The code of process `me`, or of a scheduler, is right for a CPU with these locks
when the state of the process is `state`. -/
def Ok (me : Option Nat) : List Lock → Procstate → List Instr → Prop
  | locks, state, [] => me ≠ none ∧ locks = [] ∧ state = .running
  | locks, state, .acquire l :: rest => l ∉ locks ∧ state = .running ∧ Settled rest ∧ Ok me (l :: locks) state rest
  | locks, state, .release l :: rest =>
    l ∈ locks ∧ (∀ p ∈ me, l = .proc p → state = .running) ∧ Settled rest ∧ Ok me (locks.erase l) state rest
  | locks, state, .setChan p _ :: rest => me = some p ∧ .proc p ∈ locks ∧ Ok me locks state rest
  | locks, state, .park p new :: rest =>
    me = some p ∧ .proc p ∈ locks ∧ state = .running ∧
      (new = .sleeping ∨ new = .runnable ∨ new = .zombie ∧ .wait ∈ locks) ∧ Ok me locks new rest
  | locks, state, .sched :: rest =>
    ∃ p, me = some p ∧ locks = [.proc p] ∧ state ≠ .running ∧ (state = .zombie ∨ Ok me [.proc p] .running rest)
  | locks, state, .wake q _ :: rest => .proc q ∈ locks ∧ me ≠ some q ∧ Settled rest ∧ Ok me locks state rest
  | locks, state, .setKilled p :: rest =>
    me = some p ∧ locks = [.proc p] ∧ state = .running ∧ rest = [.release (.proc p)]
  | locks, state, .killNext _ _ :: rest => me ≠ none ∧ locks = [] ∧ state = .running ∧ rest = []
  | locks, state, .killTest i _ :: rest => me ≠ none ∧ locks = [.proc i] ∧ state = .running ∧ rest = []
  | locks, state, .forkNext p _ :: rest => me = some p ∧ locks = [] ∧ state = .running ∧ rest = []
  | locks, state, .forkTest p i :: rest => me = some p ∧ locks = [.proc i] ∧ state = .running ∧ rest = []
  | locks, state, .setParent i p :: rest => me = some p ∧ i ≠ p ∧ .wait ∈ locks ∧ Ok me locks state rest
  | locks, state, .publish p i :: rest => me = some p ∧ i ≠ p ∧ .proc i ∈ locks ∧ Ok me locks state rest
  | locks, state, .waitScan p _ _ _ :: rest => me = some p ∧ locks = [.wait] ∧ state = .running ∧ rest = []
  | locks, state, .waitTest p i _ :: rest => me = some p ∧ locks = [.proc i, .wait] ∧ state = .running ∧ rest = []
  | locks, state, .killedTest p loop :: rest =>
    me = some p ∧ locks = [.proc p, loop.lock] ∧ state = .running ∧ rest = []
  | locks, state, .poll p loop :: rest => me = some p ∧ locks = [loop.lock] ∧ state = .running ∧ rest = []
  | locks, state, .full p pi :: rest => me = some p ∧ locks = [.pipe pi] ∧ state = .running ∧ rest = []
  | locks, state, .reparent p _ _ :: rest =>
    me = some p ∧ p ≠ initproc ∧ locks = [.wait] ∧ state = .running ∧ rest = []
  | locks, state, .setXstate p _ :: rest => me = some p ∧ .proc p ∈ locks ∧ Ok me locks state rest
  | _, _, .zombieExit :: _ => False
  | locks, state, .schedNext _ :: rest => me = none ∧ state = .running ∧ locks = [] ∧ rest = []
  | locks, state, .schedTest i :: rest =>
    me = none ∧ state = .running ∧ locks = [.proc i] ∧ rest = [.release (.proc i), .schedNext (i + 1)]
  | locks, state, .swtchTo i :: rest => me = none ∧ state = .running ∧ locks = [.proc i] ∧ rest = resume i
  | locks, state, .restore i :: rest => me = none ∧ state = .running ∧ locks = [.proc i] ∧ rest = []
  | locks, state, .loadSched :: rest => me = none ∧ state = .running ∧ (∃ p, locks = [.proc p]) ∧ rest = []
  | locks, state, .clearProc :: rest =>
    me = none ∧ state = .running ∧ ∃ p, locks = [.proc p] ∧ rest = [.release (.proc p), .schedNext (p + 1)]

section Code

variable {n p : Nat} {me : Option Nat} {locks : List Lock} {state : Procstate} {code rest : List Instr}

/-- A process that is not `RUNNING` has its lock. -/
theorem Ok.locked (ok : Ok (some p) locks state code) (parked : state ≠ .running) :
    .proc p ∈ locks := by
  induction code generalizing locks state with
  | nil => exact absurd ok.2.2 parked
  | cons i rest ih =>
    cases i <;> simp only [Ok] at ok
    case release l => exact List.mem_of_mem_erase (ih ok.2.2.2 parked)
    case sched =>
      obtain ⟨q, eq, rfl, -⟩ := ok
      cases eq
      exact mem_singleton_self _
    all_goals grind

/-- Only schedulers assign to `c->proc`. -/
theorem Ok.settled (ok : Ok (some p) locks state code) : Settled code := by
  rcases code with - | ⟨i, rest⟩
  · exact ⟨rfl, rfl⟩
  cases i <;> first | exact ⟨rfl, rfl⟩ | exact absurd ok.1 nofun

/-- `wakeup` needs none of the locks it takes, and gives them back. -/
theorem Ok.wakeup (chan : Option Chan) (free : ∀ q, me ≠ some q → .proc q ∉ locks)
    (settled : Settled rest) (ok : Ok me locks .running rest) :
    Ok me locks .running (wakeup n me chan ++ rest) ∧ Settled (Sched.wakeup n me chan ++ rest) := by
  unfold Sched.wakeup
  generalize List.range n = all
  induction all with
  | nil => exact ⟨ok, settled⟩
  | cons q all ih =>
    by_cases other : me = some q
    · simpa [other] using ih
    simp only [List.filter_cons, other, ne_eq, not_false_eq_true, decide_true, if_true,
      List.flatMap_cons, List.cons_append, List.nil_append]
    refine ⟨⟨free q other, rfl, ⟨rfl, rfl⟩, List.mem_cons_self, other, ⟨rfl, rfl⟩,
      List.mem_cons_self, fun _ _ _ => rfl, ih.2, ?_⟩, rfl, rfl⟩
    rw [erase_cons_head]
    exact ih.1

theorem Loop.lock_ne_proc (loop : Loop) (p : Nat) : loop.lock ≠ .proc p := by
  cases loop <;> nofun

theorem Ok.done (p : Nat) : Ok (some p) [] .running [] := ⟨nofun, rfl, rfl⟩

theorem Ok.again (loop : Loop) : Ok (some p) [loop.lock] .running [loop.again p] := by
  cases loop <;> exact ⟨rfl, rfl, rfl, rfl⟩

/-- `release` of the only lock. -/
theorem Ok.release {l : Lock} (ok : Ok (some p) [] .running rest) :
    Ok (some p) [l] .running (.release l :: rest) := by
  refine ⟨mem_singleton_self _, fun _ _ _ => rfl, ok.settled, ?_⟩
  rwa [erase_cons_head]

theorem Ok.releaseTop {l : Lock} (ok : Ok (some p) locks .running rest) :
    Ok (some p) (l :: locks) .running (.release l :: rest) := by
  refine ⟨List.mem_cons_self, fun _ _ _ => rfl, ok.settled, ?_⟩
  rwa [erase_cons_head]

theorem Ok.acquire {l : Lock} (free : l ∉ locks) (ok : Ok (some p) (l :: locks) .running rest) :
    Ok (some p) locks .running (.acquire l :: rest) :=
  ⟨free, rfl, ok.settled, ok⟩

theorem Ok.sleep (loop : Loop) : Ok (some p) [loop.lock] .running (Sched.sleep p loop) := by
  have ne := loop.lock_ne_proc p
  have erased : [Lock.proc p, loop.lock].erase loop.lock = [Lock.proc p] := by
    rw [List.erase_cons_tail (by simpa using ne.symm), erase_cons_head]
  have awake : Ok (some p) [.proc p] .running
      [.setChan p none, .release (.proc p), .acquire loop.lock, loop.again p] :=
    ⟨rfl, mem_singleton_self _, Ok.release (Ok.acquire not_mem_nil (Ok.again loop))⟩
  refine Ok.acquire (by simpa using ne.symm) ⟨by simp, fun _ _ _ => rfl, ⟨rfl, rfl⟩, ?_⟩
  rw [erased]
  exact ⟨rfl, mem_singleton_self _, rfl, mem_singleton_self _, rfl, .inl rfl,
    p, rfl, rfl, nofun, .inr awake⟩

theorem Ok.yield (ok : Ok (some p) [] .running rest) :
    Ok (some p) [] .running (Sched.yield p ++ rest) :=
  Ok.acquire not_mem_nil ⟨rfl, mem_singleton_self _, rfl, .inr (.inl rfl), p, rfl, rfl,
    nofun, .inr (Ok.release ok)⟩

theorem Ok.forkret (p : Nat) : Ok (some p) [.proc p] .running (Sched.forkret p) := Ok.release (Ok.done p)

theorem Ok.forkEnd {i : Nat} (ne : i ≠ p) (ok : Ok (some p) [] .running rest) :
    Ok (some p) [.proc i] .running (Sched.forkEnd p i ++ rest) :=
  Ok.release (Ok.acquire not_mem_nil ⟨rfl, ne, mem_singleton_self _,
    Ok.release (Ok.acquire not_mem_nil ⟨rfl, ne, mem_singleton_self _, Ok.release ok⟩)⟩)

theorem Ok.exitEnd (parent : Option Nat) (status : Int) :
    Ok (some p) [.wait] .running (Sched.exitEnd n p parent status) := by
  have erased : [Lock.proc p, Lock.wait].erase .wait = [Lock.proc p] := by
    rw [List.erase_cons_tail (by simp), erase_cons_head]
  have stored : Ok (some p) [.proc p, .wait] .running
      [.setXstate p status, .park p .zombie, .release .wait, .sched, .zombieExit] := by
    refine ⟨rfl, by simp, rfl, by simp, rfl, .inr (.inr ⟨rfl, by simp⟩), by simp, by simp,
      ⟨rfl, rfl⟩, ?_⟩
    rw [erased]
    exact ⟨p, rfl, rfl, nofun, .inl rfl⟩
  exact (Ok.wakeup _ (fun q _ => by simp) ⟨rfl, rfl⟩ (Ok.acquire (by simp) stored)).1

theorem Ok.target_locks {i : Nat} (ok : Ok me locks state code) (next : target code = some i) :
    locks = [.proc i] := by
  rcases code with - | ⟨j, rest⟩
  · cases next
  cases j <;> simp only [target, Option.some.injEq, reduceCtorEq] at next
  · subst next
    exact ok.2.2.1
  subst next
  exact ok.2.2.1

theorem Ok.settled_of_free (ok : Ok me [] state code) : Settled code := by
  rcases code with - | ⟨j, rest⟩
  · exact ⟨rfl, rfl⟩
  cases j <;> first | exact ⟨rfl, rfl⟩ | simp [Ok] at ok

end Code

/-! ## The invariant -/

/-- The states in which a scheduler may find a process with a complete context. -/
def Procstate.Ready (state : Procstate) : Prop :=
  state = .used ∨ state = .sleeping ∨ state = .runnable

namespace Sys

variable {C : Type} [DecidableEq C]

/-- The state of the process on whose stack the CPU runs. -/
def status (s : Sys C) (c : C) : Procstate :=
  match (s.cpu c).thread with
  | some p => (s.proc p).state
  | none => .running

/-- The context of `p` is complete and goes on with `p->lock`. -/
def Resumable (s : Sys C) (p : Nat) : Prop :=
  s.saved p = true ∧ Ok (some p) [.proc p] .running (s.ctx p)

structure Scheduling (s : Sys C) (c : C) : Prop where
  next : ∀ i, target (s.cpu c).code = some i → (s.cpu c).proc = some i ∧
    (s.proc i).state = .running ∧ s.Resumable i
  back : returning (s.cpu c).code = true →
    ∃ p, (s.cpu c).proc = some p ∧ (s.cpu c).held = [.proc p] ∧ (s.proc p).state ≠ .running
  idle : Settled (s.cpu c).code → (s.cpu c).proc = none
  context : ∀ p, (s.cpu c).proc = some p → (s.cpu c).code = [.restore p] ∨
    (s.cpu c).code = [.loadSched] →
    (s.cpu c).context = resume p

structure Inv (s : Sys C) : Prop where
  lock : ∀ l c, s.lock l = some c ↔ l ∈ (s.cpu c).held
  nodup : ∀ c, (s.cpu c).held.Nodup
  typed : ∀ c, Ok (s.cpu c).thread (s.cpu c).held (s.status c) (s.cpu c).code
  solo : ∀ c c' p, (s.cpu c).thread = some p → (s.cpu c').thread = some p → c = c'
  mine : ∀ c p, (s.cpu c).thread = some p → (s.cpu c).proc = some p ∧
    (s.cpu c).context = resume p ∧ s.saved p = false
  scheduling : ∀ c, (s.cpu c).thread = none → s.Scheduling c
  ready : ∀ p, (s.proc p).state.Ready → (∀ c, (s.cpu c).thread ≠ some p) → s.Resumable p
  running : ∀ p, (s.proc p).state = .running →
    ∃ c, (s.cpu c).thread = some p ∨ (s.cpu c).thread = none ∧ target (s.cpu c).code = some p

section Steps

variable {s t : Sys C} {c c' : C} {p q : Nat}

omit [DecidableEq C] in
theorem Inv.sole (inv : Inv s) {l : Lock} (mine : l ∈ (s.cpu c).held)
    (theirs : l ∈ (s.cpu c').held) : c = c' := by
  have eq := ((inv.lock l c).mpr mine).symm.trans ((inv.lock l c').mpr theirs)
  exact Option.some.inj eq

omit [DecidableEq C] in
theorem Inv.elsewhere (inv : Inv s) (mem : .proc q ∈ (s.cpu c).held) (ne : c' ≠ c)
    (thread : (s.cpu c').thread = some q) : (s.proc q).state = .running := by
  by_contra parked
  have typed := inv.typed c'
  rw [thread] at typed
  have status : s.status c' = (s.proc q).state := by rw [status, thread]
  rw [status] at typed
  exact ne (inv.sole (typed.locked parked) mem)

def Moves (s t : Sys C) (c : C) (q : Nat) : Prop :=
  (t.proc q).state = (s.proc q).state ∨
    .proc q ∈ (s.cpu c).held ∧ (t.proc q).state ≠ .running ∧ ((s.cpu c).thread = some q ∨
        (s.proc q).state ≠ .running ∧ ((t.proc q).state.Ready → (s.proc q).state.Ready))

omit [DecidableEq C] in
theorem Inv.status_eq (inv : Inv s) (moves : ∀ q, Moves s t c q) (ne : c' ≠ c)
    (cpu : t.cpu c' = s.cpu c') : t.status c' = s.status c' := by
  unfold status
  rw [cpu]
  rcases thread : (s.cpu c').thread with - | q
  · rfl
  rcases moves q with same | ⟨mem, -, own | ⟨parked, -⟩⟩
  · exact same
  · exact absurd (inv.solo c' c q thread own) ne
  exact absurd (inv.elsewhere mem ne thread) parked

theorem Inv.plain {held : List Lock} {code : List Instr} (inv : Inv s)
    (cpu : t.cpu = upd s.cpu c { s.cpu c with held, code })
    (lock : ∀ l c', t.lock l = some c' ↔ if c' = c then l ∈ held else s.lock l = some c')
    (nodup : held.Nodup) (ctx : t.ctx = s.ctx ∧ t.saved = s.saved) (moves : ∀ q, Moves s t c q)
    (typed : Ok (s.cpu c).thread held (t.status c) code)
    (before : Settled (s.cpu c).code) (after : Settled code) : Inv t := by
  have self : t.cpu c = { s.cpu c with held, code } := by rw [cpu, upd_self]
  have other : ∀ c', c' ≠ c → t.cpu c' = s.cpu c' := fun c' ne => by rw [cpu, upd_ne ne]
  have thread : ∀ c', (t.cpu c').thread = (s.cpu c').thread := fun c' => by
    by_cases eq : c' = c
    · rw [eq, self]
    rw [other c' eq]
  have resumable : ∀ {p}, s.Resumable p → t.Resumable p := fun {p} h => by
    rw [Resumable, ctx.1, ctx.2]
    exact h
  constructor
  case lock =>
    intro l c'
    rw [lock]
    by_cases eq : c' = c
    · rw [if_pos eq, eq, self]
    rw [if_neg eq, other c' eq, inv.lock]
  case nodup =>
    intro c'
    by_cases eq : c' = c
    · rw [eq, self]
      exact nodup
    rw [other c' eq]
    exact inv.nodup c'
  case typed =>
    intro c'
    by_cases eq : c' = c
    · rw [eq, self]
      exact typed
    rw [inv.status_eq moves eq (other c' eq), other c' eq]
    exact inv.typed c'
  case solo =>
    intro c₁ c₂ p h₁ h₂
    rw [thread] at h₁ h₂
    exact inv.solo c₁ c₂ p h₁ h₂
  case mine =>
    intro c' p h
    rw [thread] at h
    obtain ⟨proc, context, saved⟩ := inv.mine c' p h
    rw [ctx.2]
    by_cases eq : c' = c
    · subst eq
      rw [self]
      exact ⟨proc, context, saved⟩
    rw [other c' eq]
    exact ⟨proc, context, saved⟩
  case scheduling =>
    intro c' none
    rw [thread] at none
    have old := inv.scheduling c' none
    by_cases eq : c' = c
    · subst eq
      constructor <;> rw [self]
      · intro i found
        rw [after.1] at found
        cases found
      · intro found
        rw [after.2] at found
        cases found
      · exact fun _ => old.idle before
      intro p proc
      rw [show (s.cpu c').proc = Option.none from old.idle before] at proc
      cases proc
    constructor <;> rw [other c' eq]
    · intro i found
      obtain ⟨proc, running, saved⟩ := old.next i found
      refine ⟨proc, ?_, resumable saved⟩
      rcases moves i with same | ⟨mem, -, -⟩
      · rw [same, running]
      have held := (inv.typed c').target_locks found
      exact absurd (inv.sole (by rw [held]; exact mem_singleton_self _) mem) eq
    · intro found
      obtain ⟨p, proc, held, parked⟩ := old.back found
      refine ⟨p, proc, held, ?_⟩
      rcases moves p with same | ⟨mem, parked', -⟩
      · rwa [same]
      exact parked'
    · exact old.idle
    exact old.context
  case ready =>
    intro p ready nobody
    refine resumable ?_
    have nobody : ∀ c', (s.cpu c').thread ≠ some p := fun c' h => nobody c' ((thread c').trans h)
    rcases moves p with same | ⟨-, -, own | ⟨-, back⟩⟩
    · rw [same] at ready
      exact inv.ready p ready nobody
    · exact absurd own (nobody c)
    exact inv.ready p (back ready) nobody
  case running =>
    intro p running
    rcases moves p with same | ⟨-, parked, -⟩
    · rw [same] at running
      obtain ⟨c', at'⟩ := inv.running p running
      refine ⟨c', ?_⟩
      rw [thread]
      refine at'.imp_right fun ⟨idle, found⟩ => ⟨idle, ?_⟩
      by_cases eq : c' = c
      · rw [eq, before.1] at found
        cases found
      rwa [other c' eq]
    exact absurd running parked

/-- The CPU only goes on in its code, and the state of a process may change. -/
theorem Inv.next {code : List Instr} (inv : Inv s)
    (cpu : t.cpu = upd s.cpu c { s.cpu c with code }) (lock : t.lock = s.lock)
    (ctx : t.ctx = s.ctx ∧ t.saved = s.saved) (moves : ∀ q, Moves s t c q)
    (typed : Ok (s.cpu c).thread (s.cpu c).held (t.status c) code)
    (before : Settled (s.cpu c).code) (after : Settled code) : Inv t := by
  refine inv.plain cpu (fun l c' => ?_) (inv.nodup c) ctx moves typed before after
  rw [lock]
  by_cases eq : c' = c
  · rw [if_pos eq, eq]
    exact inv.lock l c
  rw [if_neg eq]

theorem Inv.goto {code : List Instr} (inv : Inv s)
    (typed : Ok (s.cpu c).thread (s.cpu c).held (s.status c) code)
    (before : Settled (s.cpu c).code) (after : Settled code) : Inv (s.goto c code) := by
  refine inv.next rfl rfl ⟨rfl, rfl⟩ (fun _ => .inl rfl) ?_ before after
  have status : (s.goto c code).status c = s.status c := by
    unfold Sys.status Sys.goto
    rw [setCpu_cpu, upd_self]
    rfl
  rwa [status]

theorem Inv.setProc {f : Proc → Proc} {code : List Instr} (inv : Inv s)
    (move : Moves s (s.setProc q f) c q)
    (typed : Ok (s.cpu c).thread (s.cpu c).held ((s.setProc q f).status c) code)
    (before : Settled (s.cpu c).code) (after : Settled code) :
    Inv ((s.setProc q f).goto c code) := by
  refine inv.next rfl rfl ⟨rfl, rfl⟩ (fun r => ?_) ?_ before after
  · by_cases eq : r = q
    · rw [eq]
      exact move
    refine .inl ?_
    show ((s.setProc q f).proc r).state = _
    rw [setProc_proc, upd_ne eq]
  have status : ((s.setProc q f).goto c code).status c = (s.setProc q f).status c := by
    unfold Sys.status Sys.goto
    rw [setCpu_cpu, upd_self]
    rfl
  rwa [status]

omit [DecidableEq C] in
theorem status_setProc {f : Proc → Proc}
    (same : (s.cpu c).thread = some q → (f (s.proc q)).state = (s.proc q).state) :
    (s.setProc q f).status c = s.status c := by
  unfold status
  show (match (s.cpu c).thread with | some p => _ | none => _) = _
  rcases thread : (s.cpu c).thread with - | p
  · rfl
  dsimp only
  by_cases eq : p = q
  · subst eq
    rw [setProc_proc, upd_self]
    exact same thread
  rw [setProc_proc, upd_ne eq]

theorem Inv.field {f : Proc → Proc} {code : List Instr} (inv : Inv s)
    (same : ∀ r, (f r).state = r.state)
    (typed : Ok (s.cpu c).thread (s.cpu c).held (s.status c) code)
    (before : Settled (s.cpu c).code) (after : Settled code) :
    Inv ((s.setProc q f).goto c code) := by
  refine inv.setProc (.inl ?_) ?_ before after
  · rw [setProc_proc, upd_self]
    exact same _
  rwa [status_setProc fun _ => same _]

theorem Inv.change {f : Proc → Proc} {code : List Instr} (inv : Inv s)
    (mem : .proc q ∈ (s.cpu c).held) (parked : (s.proc q).state ≠ .running)
    (stays : (f (s.proc q)).state ≠ .running)
    (ready : (f (s.proc q)).state.Ready → (s.proc q).state.Ready) (ne : (s.cpu c).thread ≠ some q)
    (typed : Ok (s.cpu c).thread (s.cpu c).held (s.status c) code)
    (before : Settled (s.cpu c).code) (after : Settled code) :
    Inv ((s.setProc q f).goto c code) := by
  refine inv.setProc (.inr ⟨mem, ?_, .inr ⟨parked, ?_⟩⟩) ?_ before after
  · rw [setProc_proc, upd_self]
    exact stays
  · rw [setProc_proc, upd_self]
    exact ready
  rwa [status_setProc fun own => absurd own ne]

theorem take_goto_cpu {rest : List Instr} (l : Lock) : ((s.take c l).goto c rest).cpu =
    upd s.cpu c { s.cpu c with held := l :: (s.cpu c).held, code := rest } := by
  unfold Sys.goto take
  simp only [setCpu_cpu, setLock_cpu, upd_self, upd_idem]

theorem drop_goto_cpu {rest : List Instr} (l : Lock) : ((s.drop c l).goto c rest).cpu =
    upd s.cpu c { s.cpu c with held := (s.cpu c).held.erase l, code := rest } := by
  unfold Sys.goto drop
  simp only [setCpu_cpu, setLock_cpu, upd_self, upd_idem]

theorem Inv.acquire {l : Lock} {rest : List Instr} (inv : Inv s)
    (at' : (s.cpu c).code = .acquire l :: rest) (free : s.lock l = none) :
    Inv ((s.take c l).goto c rest) := by
  have typed := inv.typed c
  rw [at'] at typed
  obtain ⟨absent, -, settled, typed⟩ := typed
  refine inv.plain (take_goto_cpu l) (fun k c' => ?_)
    (List.nodup_cons.mpr ⟨absent, inv.nodup c⟩) ⟨rfl, rfl⟩ (fun _ => .inl rfl) ?_ ?_ settled
  · show upd s.lock l (some c) k = some c' ↔ _
    by_cases eq : k = l
    · subst eq
      rw [upd_self]
      by_cases me : c' = c
      · simp [me]
      simp [me, free, Ne.symm me]
    rw [upd_ne eq]
    by_cases me : c' = c
    · simp [me, eq, inv.lock]
    simp [me]
  · have status : ((s.take c l).goto c rest).status c = s.status c := by
      unfold Sys.status Sys.goto take
      simp only [setCpu_cpu, upd_self]
      rfl
    rwa [status]
  rw [at']
  exact ⟨rfl, rfl⟩

theorem Inv.release {l : Lock} {rest : List Instr} (inv : Inv s)
    (at' : (s.cpu c).code = .release l :: rest) :
    s.lock l = some c ∧ Inv ((s.drop c l).goto c rest) := by
  have typed := inv.typed c
  rw [at'] at typed
  obtain ⟨mem, -, settled, typed⟩ := typed
  have mine := (inv.lock l c).mpr mem
  have nodup := inv.nodup c
  refine ⟨mine, inv.plain (drop_goto_cpu l) (fun k c' => ?_)
    (nodup.erase l) ⟨rfl, rfl⟩ (fun _ => .inl rfl) ?_ ?_ settled⟩
  · show upd s.lock l none k = some c' ↔ _
    by_cases eq : k = l
    · subst eq
      rw [upd_self]
      by_cases me : c' = c
      · simp [me, nodup.not_mem_erase]
      simp [me, mine, Ne.symm me]
    rw [upd_ne eq]
    by_cases me : c' = c
    · simp [me, List.mem_erase_of_ne eq, inv.lock]
    simp [me]
  · have status : ((s.drop c l).goto c rest).status c = s.status c := by
      unfold Sys.status Sys.goto drop
      simp only [setCpu_cpu, upd_self]
      rfl
    rwa [status]
  rw [at']
  exact ⟨rfl, rfl⟩

theorem Inv.switch {k : Cpu} (inv : Inv s) (cpu : t.cpu = upd s.cpu c k)
    (held : k.held = (s.cpu c).held) (lock : t.lock = s.lock) (mem : .proc p ∈ (s.cpu c).held)
    (others : ∀ q, q ≠ p → t.proc q = s.proc q ∧ t.ctx q = s.ctx q ∧ t.saved q = s.saved q)
    (nobody : ∀ c', c' ≠ c → (s.cpu c').thread ≠ some p)
    (typed : Ok k.thread k.held (t.status c) k.code)
    (thread : ∀ q, q ≠ p → (k.thread = some q ↔ (s.cpu c).thread = some q))
    (mine : ∀ q, k.thread = some q → k.proc = some q ∧ k.context = resume q ∧ t.saved q = false)
    (scheduling : k.thread = none → t.Scheduling c)
    (ready : (t.proc p).state.Ready → k.thread ≠ some p → t.Resumable p)
    (running : (t.proc p).state = .running →
      k.thread = some p ∨ k.thread = none ∧ target k.code = some p) : Inv t := by
  have self : t.cpu c = k := by rw [cpu, upd_self]
  have other : ∀ c', c' ≠ c → t.cpu c' = s.cpu c' := fun c' ne => by rw [cpu, upd_ne ne]
  have same : ∀ {q}, q ≠ p → s.Resumable q → t.Resumable q := fun {q} ne h => by
    rw [Resumable, (others q ne).2.1, (others q ne).2.2]
    exact h
  -- another scheduler that works on a process has its lock
  have apart : ∀ c', c' ≠ c → ∀ q, (s.cpu c').held = [.proc q] → q ≠ p := by
    rintro c' ne q one rfl
    exact ne (inv.sole (by rw [one]; exact mem_singleton_self _) mem)
  constructor
  case lock =>
    intro l c'
    rw [lock, inv.lock]
    by_cases eq : c' = c
    · rw [eq, self, held]
    rw [other c' eq]
  case nodup =>
    intro c'
    by_cases eq : c' = c
    · rw [eq, self, held]
      exact inv.nodup c
    rw [other c' eq]
    exact inv.nodup c'
  case typed =>
    intro c'
    by_cases eq : c' = c
    · rw [eq, self]
      exact typed
    have status : t.status c' = s.status c' := by
      unfold status
      rw [other c' eq]
      rcases at' : (s.cpu c').thread with - | q
      · rfl
      have ne : q ≠ p := fun h => nobody c' eq (h ▸ at')
      dsimp only
      rw [(others q ne).1]
    rw [status, other c' eq]
    exact inv.typed c'
  case solo =>
    have single : ∀ c', c' ≠ c → ∀ q, k.thread = some q → (s.cpu c').thread ≠ some q := by
      intro c' ne q mineQ theirs
      by_cases eq : q = p
      · exact nobody c' ne (eq ▸ theirs)
      exact ne (inv.solo c' c q theirs ((thread q eq).mp mineQ))
    intro c₁ c₂ q h₁ h₂
    by_cases eq₁ : c₁ = c <;> by_cases eq₂ : c₂ = c
    · rw [eq₁, eq₂]
    · rw [eq₁, self] at h₁
      rw [other c₂ eq₂] at h₂
      exact absurd h₂ (single c₂ eq₂ q h₁)
    · rw [eq₂, self] at h₂
      rw [other c₁ eq₁] at h₁
      exact absurd h₁ (single c₁ eq₁ q h₂)
    rw [other c₁ eq₁] at h₁
    rw [other c₂ eq₂] at h₂
    exact inv.solo c₁ c₂ q h₁ h₂
  case mine =>
    intro c' q h
    by_cases eq : c' = c
    · rw [eq, self] at h ⊢
      exact mine q h
    rw [other c' eq] at h ⊢
    have ne : q ≠ p := fun h' => nobody c' eq (h' ▸ h)
    rw [(others q ne).2.2]
    exact inv.mine c' q h
  case scheduling =>
    intro c' idle
    by_cases eq : c' = c
    · rw [eq, self] at idle
      rw [eq]
      exact scheduling idle
    rw [other c' eq] at idle
    have old := inv.scheduling c' idle
    constructor <;> rw [other c' eq]
    · intro i found
      have ne := apart c' eq i ((inv.typed c').target_locks found)
      rw [(others i ne).1]
      obtain ⟨proc, running, saved⟩ := old.next i found
      exact ⟨proc, running, same ne saved⟩
    · intro found
      obtain ⟨q, proc, one, parked⟩ := old.back found
      refine ⟨q, proc, one, ?_⟩
      rwa [(others q (apart c' eq q one)).1]
    · exact old.idle
    exact old.context
  case ready =>
    intro q isReady absent
    by_cases eq : q = p
    · subst eq
      refine ready isReady fun h => absent c ?_
      rw [self]
      exact h
    rw [(others q eq).1] at isReady
    refine same eq (inv.ready q isReady fun c' h => absent c' ?_)
    by_cases me : c' = c
    · rw [me] at h ⊢
      rw [self]
      exact (thread q eq).mpr h
    rw [other c' me]
    exact h
  case running =>
    intro q isRunning
    by_cases eq : q = p
    · subst eq
      refine ⟨c, ?_⟩
      rw [self]
      exact running isRunning
    rw [(others q eq).1] at isRunning
    obtain ⟨c', at'⟩ := inv.running q isRunning
    refine ⟨c', ?_⟩
    by_cases me : c' = c
    · rw [me, self]
      rw [me] at at'
      rcases at' with h | ⟨-, found⟩
      · exact .inl ((thread q eq).mpr h)
      have one := (inv.typed c).target_locks found
      rw [one, List.mem_singleton] at mem
      injection mem with h
      exact absurd h.symm eq
    rw [other c' me]
    exact at'

end Steps

end Sys

end Xv6.Sched
