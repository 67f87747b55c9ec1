import Xv6.Sched.Locks

/-!
# One CPU per process

Every instruction keeps the lock discipline and raises none of the panics of
`acquire`, `release` and `sched`. So in every state of every run a process runs on
at most one CPU, and a scheduler loads only contexts that are complete.
-/

namespace Xv6.Sched

open List (mem_singleton_self nodup_nil not_mem_nil)
open Function renaming update → upd, update_self → upd_self, update_of_ne → upd_ne

set_option linter.unusedSectionVars false

namespace Sys

variable {C : Type} [DecidableEq C]

section Exec

variable {n : Nat} {s t : Sys C} {c : C} {p i : Nat} {input : Input} {rest : List Instr}

variable {code : List Instr}

theorem Inv.typedAt (inv : Inv s) (at' : (s.cpu c).code = code) :
    Ok (s.cpu c).thread (s.cpu c).held (s.status c) code := by
  rw [← at']
  exact inv.typed c

theorem status_of_thread (thread : (s.cpu c).thread = some p) : s.status c = (s.proc p).state := by
  rw [status, thread]

section

variable (inv : Inv s)
include inv

theorem Inv.jump (thread : (s.cpu c).thread = some p)
    (typed : Ok (some p) (s.cpu c).held (s.status c) code) : Inv (s.goto c code) := by
  have before := inv.typed c
  rw [thread] at before
  refine inv.goto ?_ before.settled typed.settled
  rwa [thread]

theorem Inv.assign {f : Proc → Proc} {q : Nat} (thread : (s.cpu c).thread = some p)
    (same : ∀ r, (f r).state = r.state)
    (typed : Ok (some p) (s.cpu c).held (s.status c) rest) : Inv ((s.setProc q f).goto c rest) := by
  have before := inv.typed c
  rw [thread] at before
  refine inv.field same ?_ before.settled typed.settled
  rwa [thread]

theorem Inv.park {new : Procstate} (at' : (s.cpu c).code = .park p new :: rest) :
    Inv ((s.setProc p fun q => { q with state := new }).goto c rest) := by
  obtain ⟨thread, mem, running, parked, typed⟩ := inv.typedAt at'
  have before := inv.typed c
  rw [thread] at before typed
  refine inv.setProc (.inr ⟨mem, ?_, .inl thread⟩) ?_ before.settled typed.settled
  · rw [setProc_proc, upd_self]
    rcases parked with rfl | rfl | ⟨rfl, -⟩ <;> nofun
  have status : (s.setProc p fun q => { q with state := new }).status c = new := by
    rw [status_of_thread (s := s.setProc p _) thread, setProc_proc, upd_self]
  rwa [status, thread]

/-- The invariant does not speak of the history. -/
theorem Inv.history (proc : t.proc = s.proc) (lock : t.lock = s.lock)
    (cpu : t.cpu = s.cpu) (ctx : t.ctx = s.ctx) (saved : t.saved = s.saved) : Inv t := by
  obtain ⟨proc₁, nextpid, lock₁, cpu₁, ctx₁, saved₁, making, exits, returns, exitOf⟩ := t
  dsimp only at proc lock cpu ctx saved
  subst proc lock cpu ctx saved
  obtain ⟨lock, nodup, typed, solo, mine, scheduling, ready, running⟩ := inv
  refine ⟨lock, nodup, typed, solo, mine, fun c idle => ?_, ready, running⟩
  obtain ⟨next, back, idle, context⟩ := scheduling c idle
  exact ⟨next, back, idle, context⟩

theorem Inv.wake {chan : Option Chan} {q : Nat} (at' : (s.cpu c).code = .wake q chan :: rest) :
    Inv ((if (s.proc q).state = .sleeping ∧ (s.proc q).chan = chan then
      s.setProc q fun r => { r with state := .runnable } else s).goto c rest) := by
  obtain ⟨mem, other, settled, typed⟩ := inv.typedAt at'
  have before : Settled (s.cpu c).code := by
    rw [at']
    exact ⟨rfl, rfl⟩
  split
  · rename_i asleep
    refine inv.change mem ?_ nofun (fun _ => ?_) other typed before settled
    · rw [asleep.1]
      nofun
    rw [asleep.1]
    exact .inr (.inl rfl)
  exact inv.goto typed before settled

theorem Inv.killTest {pid : Nat} (at' : (s.cpu c).code = .killTest i pid :: rest) : Inv (if (s.proc i).pid = pid then
      (s.setProc i fun q => { q with
        killed := true
        state := if q.state = .sleeping then .runnable else q.state }).goto c (.release (.proc i) :: rest)
      else s.goto c (.release (.proc i) :: .killNext (i + 1) pid :: rest)) := by
  obtain ⟨some, held, running, rfl⟩ := inv.typedAt at'
  obtain ⟨p, thread⟩ := Option.ne_none_iff_exists'.mp some
  have before : Settled (s.cpu c).code := by
    rw [at']
    exact ⟨rfl, rfl⟩
  have mem : .proc i ∈ (s.cpu c).held := by
    rw [held]
    exact mem_singleton_self _
  have released : Ok (s.cpu c).thread (s.cpu c).held (s.status c) [.release (.proc i)] := by
    rw [thread, held, running]
    exact Ok.release (Ok.done p)
  split
  swap
  · refine inv.jump thread ?_
    rw [held, running]
    exact Ok.release ⟨nofun, rfl, rfl, rfl⟩
  by_cases asleep : (s.proc i).state = .sleeping
  · refine inv.change mem ?_ ?_ (fun _ => ?_) ?_ released before ⟨rfl, rfl⟩
    · rw [asleep]
      nofun
    · dsimp only
      rw [if_pos asleep]
      nofun
    · rw [asleep]
      exact .inr (.inl rfl)
    intro own
    rw [status_of_thread own, asleep] at running
    cases running
  refine inv.setProc (.inl ?_) ?_ before ⟨rfl, rfl⟩
  · rw [setProc_proc, upd_self]
    exact if_neg asleep
  rwa [status_setProc fun _ => if_neg asleep]

theorem Inv.publish (used : (s.proc i).state = .used)
    (at' : (s.cpu c).code = .publish p i :: rest) :
    Inv ((s.setProc i fun q => { q with state := .runnable }).goto c rest) := by
  obtain ⟨thread, other, mem, typed⟩ := inv.typedAt at'
  have before : Settled (s.cpu c).code := by
    rw [at']
    exact ⟨rfl, rfl⟩
  have after : Settled rest := by
    rw [thread] at typed
    exact typed.settled
  refine inv.change mem ?_ nofun (fun _ => ?_) ?_ typed before after
  · rw [used]
    nofun
  · rw [used]
    exact .inl rfl
  rw [thread]
  exact fun h => other (Option.some.inj h).symm

/-- `freeproc` of a process that is not running. -/
theorem Inv.free (thread : (s.cpu c).thread = some p)
    (mem : .proc i ∈ (s.cpu c).held) (parked : (s.proc i).state ≠ .running)
    (running : s.status c = .running)
    (typed : Ok (some p) (s.cpu c).held .running code) :
    Inv ((s.setProc i Proc.free).goto c code) := by
  have before := inv.typed c
  rw [thread] at before
  refine inv.change mem parked nofun ?_ ?_ ?_ before.settled typed.settled
  · rintro (h | h | h) <;> cases h
  · intro own
    rw [status_of_thread own] at running
    exact parked running
  rwa [thread, running]

theorem Inv.allocproc (at' : (s.cpu c).code = .forkTest p i :: rest)
    (unused : (s.proc i).state = .unused) :
    Inv ((s.allocproc p i).goto c (forkEnd p i ++ rest)) := by
  obtain ⟨thread, held, running, rfl⟩ := inv.typedAt at'
  have other : i ≠ p := by
    rintro rfl
    rw [status_of_thread thread, unused] at running
    cases running
  have mem : .proc i ∈ (s.cpu c).held := by
    rw [held]
    exact mem_singleton_self _
  have cpu : ((s.allocproc p i).goto c (forkEnd p i ++ [])).cpu =
      upd s.cpu c { s.cpu c with code := forkEnd p i ++ [] } := rfl
  have proc : ∀ q, ((s.allocproc p i).goto c (forkEnd p i ++ [])).proc q =
      upd s.proc i { s.proc i with state := .used, pid := s.nextpid } q := fun _ => rfl
  have ctx : ∀ q, ((s.allocproc p i).goto c (forkEnd p i ++ [])).ctx q =
      upd s.ctx i (forkret i) q := fun _ => rfl
  have saved : ∀ q, ((s.allocproc p i).goto c (forkEnd p i ++ [])).saved q =
      upd s.saved i true q := fun _ => rfl
  refine inv.switch cpu rfl rfl mem (fun q ne => ?_)
    (fun c' ne h => ?_) ?_ (fun q _ => Iff.rfl) ?_ ?_ ?_ ?_
  · rw [proc, ctx, saved, upd_ne ne, upd_ne ne, upd_ne ne]
    exact ⟨rfl, rfl, rfl⟩
  · have := inv.elsewhere mem ne h
    rw [unused] at this
    cases this
  · have status : ((s.allocproc p i).goto c (forkEnd p i ++ [])).status c = .running := by
      rw [status_of_thread (p := p), proc, upd_ne other.symm, ← status_of_thread thread,
        running]
      rw [cpu, upd_self]
      exact thread
    rw [status]
    show Ok (s.cpu c).thread (s.cpu c).held .running _
    rw [thread, held]
    exact Ok.forkEnd other (Ok.done p)
  · intro q own
    have eq : p = q := Option.some.inj (thread.symm.trans own)
    rw [saved, upd_ne (eq ▸ other.symm)]
    exact inv.mine c q own
  · intro idle
    rw [show (s.cpu c).thread = none from idle] at thread
    cases thread
  · rintro - -
    rw [Resumable, saved, ctx, upd_self, upd_self]
    exact ⟨rfl, Ok.forkret i⟩
  intro h
  rw [proc, upd_self] at h
  cases h

theorem Inv.sched (at' : (s.cpu c).code = .sched :: rest) :
    ∃ p, (s.cpu c).proc = some p ∧ s.lock (.proc p) = some c ∧ (s.cpu c).held.length = 1 ∧
      (s.proc p).state ≠ .running ∧ Inv (s.save c p rest) := by
  obtain ⟨p, thread, held, parked, typed⟩ := inv.typedAt at'
  rw [status_of_thread thread] at parked typed
  rw [thread] at typed
  obtain ⟨proc, context, -⟩ := inv.mine c p thread
  have mem : .proc p ∈ (s.cpu c).held := by
    rw [held]
    exact mem_singleton_self _
  refine ⟨p, proc, (inv.lock _ c).mpr mem, by rw [held]; rfl, parked, ?_⟩
  have cpu : (s.save c p rest).cpu =
      upd s.cpu c { s.cpu c with thread := none, code := [.loadSched] } := rfl
  have ctx : ∀ q, (s.save c p rest).ctx q = upd s.ctx p rest q := fun _ => rfl
  have saved : ∀ q, (s.save c p rest).saved q = upd s.saved p true q := fun _ => rfl
  have self : (s.save c p rest).cpu c =
      { s.cpu c with thread := none, code := [.loadSched] } := by rw [cpu, upd_self]
  refine inv.switch cpu rfl rfl mem (fun q ne => ?_)
    (fun c' ne h => ne (inv.solo c' c p h thread)) ?_
    (fun q ne => ?_) (by simp) ?_ ?_ ?_
  · rw [ctx, saved, upd_ne ne, upd_ne ne]
    exact ⟨rfl, rfl, rfl⟩
  · refine ⟨rfl, ?_, ⟨p, held⟩, rfl⟩
    rw [status, self]
  · rw [thread]
    simp [ne.symm]
  · rintro -
    constructor <;> rw [self]
    · intros; contradiction
    · exact fun _ => ⟨p, proc, held, parked⟩
    · exact fun h => by cases h.2
    intro q own _
    rw [← Option.some.inj (proc.symm.trans own)]
    exact context
  · intro ready _
    rw [Resumable, saved, ctx, upd_self, upd_self]
    refine ⟨rfl, typed.resolve_left ?_⟩
    intro zombie
    rw [show ((s.save c p rest).proc p).state = .zombie from zombie] at ready
    rcases ready with h | h | h <;> cases h
  exact fun running => absurd running parked

theorem Inv.schedule {k : Cpu} {f : Proc → Proc} (idle : (s.cpu c).thread = none)
    (held : (s.cpu c).held = [.proc p]) (keeps : k.held = (s.cpu c).held ∧ k.thread = none)
    (nobody : ∀ c', c' ≠ c → (s.cpu c').thread ≠ some p)
    (typed : Ok none [.proc p] .running k.code)
    (scheduling : ((s.setProc p f).setCpu c k).Scheduling c)
    (ready : (f (s.proc p)).state.Ready → s.Resumable p)
    (running : (f (s.proc p)).state = .running → target k.code = some p) :
    Inv ((s.setProc p f).setCpu c k) := by
  have mem : .proc p ∈ (s.cpu c).held := by
    rw [held]
    exact mem_singleton_self _
  have self : ((s.setProc p f).setCpu c k).cpu c = k := by rw [setCpu_cpu, upd_self]
  have proc : ((s.setProc p f).setCpu c k).proc p =
      f (s.proc p) := by rw [setCpu_proc, setProc_proc, upd_self]
  refine inv.switch rfl keeps.1 rfl mem (fun q ne => ⟨upd_ne ne _ _, rfl, rfl⟩) nobody ?_
    (fun q _ => ?_) ?_ (fun _ => scheduling) ?_ ?_
  · have status : ((s.setProc p f).setCpu c k).status c = .running := by rw [status, self, keeps.2]
    rwa [status, keeps.1, keeps.2, held]
  · rw [keeps.2, idle]
  · intro q own
    rw [keeps.2] at own
    cases own
  · rw [proc]
    exact fun isReady _ => ready isReady
  rw [proc]
  exact fun isRunning => .inr ⟨keeps.2, running isRunning⟩

end

theorem setProc_id (s : Sys C) (p : Nat) : s.setProc p id = s := by
  obtain ⟨⟩ := s
  simp [setProc]

section

variable (inv : Inv s)
include inv

theorem Inv.schedTest (at' : (s.cpu c).code = .schedTest i :: rest) (runnable : (s.proc i).state = .runnable) :
    Inv ((s.setProc i fun q => { q with state := .running }).setCpu c
      { s.cpu c with proc := some i, code := .swtchTo i :: .clearProc :: rest }) := by
  obtain ⟨idle, -, held, rfl⟩ := inv.typedAt at'
  have mem : .proc i ∈ (s.cpu c).held := by
    rw [held]
    exact mem_singleton_self _
  have nobody : ∀ c', c' ≠ c → (s.cpu c').thread ≠ some i := fun c' ne h => by
    have := inv.elsewhere mem ne h
    rw [runnable] at this
    cases this
  have resumable : s.Resumable i := by
    refine inv.ready i (by rw [runnable]; exact .inr (.inr rfl)) fun c' h => ?_
    by_cases eq : c' = c
    · rw [eq, idle] at h
      cases h
    exact nobody c' eq h
  refine inv.schedule idle held ⟨rfl, idle⟩ nobody ⟨rfl, rfl, rfl, rfl⟩ ?_ (fun _ => resumable)
    (fun _ => rfl)
  constructor <;> rw [setCpu_cpu, upd_self]
  · rintro j ⟨⟩
    refine ⟨rfl, ?_, resumable⟩
    rw [setCpu_proc, setProc_proc, upd_self]
  · exact nofun
  · exact fun settled => absurd settled.1 nofun
  rintro p - (h | h) <;> cases h

theorem Inv.atTarget (idle : (s.cpu c).thread = none) (next : target (s.cpu c).code = some i) :
    (s.cpu c).proc = some i ∧ (s.proc i).state = .running ∧ s.Resumable i ∧
      ∀ c', (s.cpu c').thread ≠ some i := by
  obtain ⟨proc, running, resumable⟩ := (inv.scheduling c idle).next i next
  refine ⟨proc, running, resumable, fun c' h => ?_⟩
  have unsaved := (inv.mine c' i h).2.2
  rw [resumable.1] at unsaved
  cases unsaved

theorem Inv.swtchTo (at' : (s.cpu c).code = .swtchTo i :: rest) :
    Inv (s.setCpu c { s.cpu c with context := rest, code := [.restore i] }) := by
  obtain ⟨idle, -, held, rfl⟩ := inv.typedAt at'
  obtain ⟨proc, running, resumable, nobody⟩ := inv.atTarget (i := i) idle (by rw [at']; rfl)
  have run := inv.schedule (k := { s.cpu c with context := resume i, code := [.restore i] })
    (f := id) idle held ⟨rfl, idle⟩ (fun c' _ => nobody c') ⟨rfl, rfl, rfl, rfl⟩
  rw [setProc_id] at run
  refine run ?_ (fun _ => resumable) (fun _ => rfl)
  constructor <;> rw [setCpu_cpu, upd_self]
  · rintro j ⟨⟩
    exact ⟨proc, running, resumable⟩
  · exact nofun
  · exact fun settled => absurd settled.1 nofun
  rintro p own -
  rw [← Option.some.inj (proc.symm.trans own)]

theorem Inv.restore (at' : (s.cpu c).code = .restore i :: rest) : Inv (s.load c i) := by
  obtain ⟨idle, -, held, rfl⟩ := inv.typedAt at'
  obtain ⟨proc, running, resumable, nobody⟩ := inv.atTarget (i := i) idle (by rw [at']; rfl)
  have mem : .proc i ∈ (s.cpu c).held := by
    rw [held]
    exact mem_singleton_self _
  have cpu : (s.load c i).cpu = upd s.cpu c { s.cpu c with thread := some i, code := s.ctx i } :=
    rfl
  have saved : ∀ q, (s.load c i).saved q = upd s.saved i false q := fun _ => rfl
  have self : (s.load c i).cpu c =
      { s.cpu c with thread := some i, code := s.ctx i } := by rw [cpu, upd_self]
  refine inv.switch cpu rfl rfl mem (fun q ne => ?_)
    (fun c' _ => nobody c') ?_ (fun q ne => ?_) ?_ nofun
    (fun _ ne => absurd rfl ne) (fun _ => .inl rfl)
  · rw [saved, upd_ne ne]
    exact ⟨rfl, rfl, rfl⟩
  · have status : (s.load c i).status c = .running := by
      rw [status_of_thread (s := s.load c i) (p := i) (by rw [self])]
      exact running
    rw [status]
    show Ok (some i) (s.cpu c).held .running (s.ctx i)
    rw [held]
    exact resumable.2
  · rw [idle]
    simp [ne.symm]
  rintro q ⟨⟩
  rw [saved, upd_self]
  exact ⟨proc, (inv.scheduling c idle).context i proc (.inl at'), rfl⟩

theorem Inv.atReturn (idle : (s.cpu c).thread = none) (back : returning (s.cpu c).code = true) :
    ∃ p, (s.cpu c).proc = some p ∧ (s.cpu c).held = [.proc p] ∧ (s.proc p).state ≠ .running ∧
      ∀ c', (s.cpu c').thread ≠ some p := by
  obtain ⟨p, proc, held, parked⟩ := (inv.scheduling c idle).back back
  refine ⟨p, proc, held, parked, fun c' h => ?_⟩
  by_cases eq : c' = c
  · rw [eq, idle] at h
    cases h
  exact parked (inv.elsewhere (by rw [held]; exact mem_singleton_self _) eq h)

theorem Inv.loadSched (at' : (s.cpu c).code = .loadSched :: rest) :
    Inv (s.goto c (s.cpu c).context) := by
  obtain ⟨idle, -, -, rfl⟩ := inv.typedAt at'
  obtain ⟨p, proc, held, parked, nobody⟩ := inv.atReturn idle (by rw [at']; rfl)
  have context := (inv.scheduling c idle).context p proc (.inr at')
  have run := inv.schedule (k := { s.cpu c with code := (s.cpu c).context }) (f := id) idle held
    ⟨rfl, idle⟩ (fun c' _ => nobody c')
  rw [setProc_id] at run
  refine run ?_ ?_ (fun ready => inv.ready p ready nobody) (fun running => absurd running parked)
  · show Ok none [.proc p] .running (s.cpu c).context
    rw [context]
    exact ⟨rfl, rfl, p, rfl, rfl⟩
  constructor <;> rw [setCpu_cpu, upd_self] <;> dsimp only <;> rw [context]
  · exact nofun
  · exact fun _ => ⟨p, proc, held, parked⟩
  · exact fun settled => absurd settled.2 nofun
  rintro q - (h | h) <;> cases h

theorem Inv.clearProc (at' : (s.cpu c).code = .clearProc :: rest) :
    Inv (s.setCpu c { s.cpu c with proc := none, code := rest }) := by
  obtain ⟨idle, -, p', held', rfl⟩ := inv.typedAt at'
  obtain ⟨p, proc, held, parked, nobody⟩ := inv.atReturn idle (by rw [at']; rfl)
  obtain rfl : p = p' := by
    rw [held] at held'
    simpa using held'
  have run := inv.schedule
    (k := { s.cpu c with proc := none, code := [.release (.proc p), .schedNext (p + 1)] }) (f := id)
    idle held ⟨rfl, idle⟩ (fun c' _ => nobody c')
  rw [setProc_id] at run
  refine run ?_ ?_ (fun ready => inv.ready p ready nobody) (fun running => absurd running parked)
  · refine ⟨mem_singleton_self _, nofun, ⟨rfl, rfl⟩, rfl, rfl, ?_, rfl⟩
    rw [List.erase_cons_head]
  constructor <;> rw [setCpu_cpu, upd_self]
  · exact nofun
  · exact nofun
  · exact fun _ => rfl
  exact nofun

end

/-! ## Children that `fork` has not published yet -/

end Exec

/-- The slots that code makes `RUNNABLE` at the end of `fork`. -/
def makes : List Instr → List Nat
  | [] => []
  | .publish _ i :: rest => i :: makes rest
  | _ :: rest => makes rest

/-- A slot is `USED` while the process that forks it has not published it. -/
structure Making (s : Sys C) : Prop where
  used : ∀ i p, s.making i = some p → (s.proc i).state = .used
  nodup : ∀ c, (makes (s.cpu c).code).Nodup
  run : ∀ c p, (s.cpu c).thread = some p → ∀ i ∈ makes (s.cpu c).code, s.making i = some p
  sched : ∀ c, (s.cpu c).thread = none → makes (s.cpu c).code = []
  ctx : ∀ p, s.saved p = true → (makes (s.ctx p)).Nodup ∧ ∀ i ∈ makes (s.ctx p), s.making i = some p

section Exec

variable {n : Nat} {s t : Sys C} {c : C} {p i : Nat} {input : Input} {rest : List Instr}

theorem makes_append (code rest : List Instr) :
    makes (code ++ rest) = makes code ++ makes rest := by
  induction code with
  | nil => rfl
  | cons j code ih =>
    rw [List.cons_append]
    cases j <;> simp only [makes, ih, List.cons_append]

theorem makes_wakeup (n : Nat) (me : Option Nat) (chan : Option Chan) :
    makes (wakeup n me chan) = [] := by
  unfold wakeup
  generalize (List.range n).filter _ = all
  induction all with
  | nil => rfl
  | cons q all ih =>
    rw [List.flatMap_cons, makes_append, ih]
    rfl

theorem makes_sleep (p : Nat) (loop : Loop) : makes (sleep p loop) = [] := by
  cases loop <;> rfl

theorem Making.plain (making : Making s) (cpu : ∀ c', c' ≠ c → t.cpu c' = s.cpu c')
    (self : makes (t.cpu c).code = makes (s.cpu c).code ∧ (t.cpu c).thread = (s.cpu c).thread)
    (ctx : t.ctx = s.ctx ∧ t.saved = s.saved) (ghost : t.making = s.making)
    (used : ∀ i, (s.proc i).state = .used → (t.proc i).state = .used) : Making t := by
  have codes : ∀ c', makes (t.cpu c').code = makes (s.cpu c').code ∧
      (t.cpu c').thread = (s.cpu c').thread := by
    intro c'
    by_cases eq : c' = c
    · rw [eq]
      exact self
    rw [cpu c' eq]
    exact ⟨rfl, rfl⟩
  constructor
  · intro i p h
    rw [ghost] at h
    exact used i (making.used i p h)
  · intro c'
    rw [(codes c').1]
    exact making.nodup c'
  · intro c' p h
    rw [(codes c').1, ghost]
    rw [(codes c').2] at h
    exact making.run c' p h
  · intro c' h
    rw [(codes c').1]
    rw [(codes c').2] at h
    exact making.sched c' h
  rw [ctx.1, ctx.2, ghost]
  exact making.ctx

variable {code : List Instr}

theorem Making.goto (making : Making s) (same : makes code = makes (s.cpu c).code) :
    Making (s.goto c code) := by
  refine making.plain (c := c) (fun c' ne => upd_ne ne _ _) ?_ ⟨rfl, rfl⟩ rfl (fun _ h => h)
  rw [Sys.goto, setCpu_cpu, upd_self]
  exact ⟨same, rfl⟩

theorem Making.setProc (making : Making s) {q : Nat} {f : Proc → Proc}
    (same : makes code = makes (s.cpu c).code)
    (used : (s.proc q).state = .used → (f (s.proc q)).state = .used) :
    Making ((s.setProc q f).goto c code) := by
  refine making.plain (c := c) (fun c' ne => upd_ne ne _ _) ?_ ⟨rfl, rfl⟩ rfl (fun r h => ?_)
  · rw [Sys.goto, setCpu_cpu, upd_self]
    exact ⟨same, rfl⟩
  show ((s.setProc q f).proc r).state = .used
  by_cases eq : r = q
  · subst eq
    rw [setProc_proc, upd_self]
    exact used h
  rwa [setProc_proc, upd_ne eq]

theorem Making.history (making : Making s) (proc : t.proc = s.proc) (cpu : t.cpu = s.cpu)
    (ctx : t.ctx = s.ctx) (saved : t.saved = s.saved) (ghost : t.making = s.making) : Making t := by
  obtain ⟨proc₁, nextpid, lock₁, cpu₁, ctx₁, saved₁, making₁, exits, returns, exitOf⟩ := t
  dsimp only at proc cpu ctx saved ghost
  subst proc cpu ctx saved ghost
  obtain ⟨used, nodup, run, sched, ctx⟩ := making
  exact ⟨used, nodup, run, sched, ctx⟩

theorem Making.allocproc (inv : Inv s) (making : Making s)
    (at' : (s.cpu c).code = .forkTest p i :: rest) (unused : (s.proc i).state = .unused) :
    Making ((s.allocproc p i).goto c (forkEnd p i ++ rest)) := by
  obtain ⟨thread, -⟩ := inv.typedAt at'
  have none : ∀ q, s.making i ≠ some q := fun q h => by
    have := making.used i q h
    rw [unused] at this
    cases this
  have keeps : ∀ {j q}, s.making j = some q → upd s.making i (some p) j = some q := by
    intro j q h
    rw [upd_ne, h]
    rintro rfl
    exact none q h
  have codes : ∀ c', c' ≠ c → ((s.allocproc p i).goto c (forkEnd p i ++ rest)).cpu c' = s.cpu c' :=
    fun c' ne => upd_ne ne _ _
  have self : ((s.allocproc p i).goto c (forkEnd p i ++ rest)).cpu c =
      { s.cpu c with code := forkEnd p i ++ rest } := by
    rw [Sys.goto, setCpu_cpu, upd_self]
    rfl
  have old : makes rest = makes (s.cpu c).code := by
    rw [at']
    rfl
  have ghost : ((s.allocproc p i).goto c (forkEnd p i ++ rest)).making = upd s.making i (some p) :=
    rfl
  constructor
  · intro j q h
    show (upd s.proc i _ j).state = .used
    by_cases eq : j = i
    · rw [eq, upd_self]
    rw [ghost, upd_ne eq] at h
    rw [upd_ne eq]
    exact making.used j q h
  · intro c'
    by_cases eq : c' = c
    · rw [eq, self]
      show (i :: makes rest).Nodup
      refine List.nodup_cons.mpr ⟨fun mem => ?_, old ▸ making.nodup c⟩
      exact none p (making.run c p thread i (old ▸ mem))
    rw [codes c' eq]
    exact making.nodup c'
  · intro c' q h j mem
    rw [ghost]
    by_cases eq : c' = c
    · rw [eq, self] at h mem
      have mem : j ∈ i :: makes rest := mem
      have own : p = q := Option.some.inj (thread.symm.trans h)
      rw [← own]
      rcases List.mem_cons.mp mem with rfl | mem
      · rw [upd_self]
      exact keeps (making.run c p thread j (old ▸ mem))
    rw [codes c' eq] at h mem
    exact keeps (making.run c' q h j mem)
  · intro c' h
    by_cases eq : c' = c
    · rw [eq, self, show (s.cpu c).thread = some p from thread] at h
      cases h
    rw [codes c' eq] at h ⊢
    exact making.sched c' h
  intro q
  show upd s.saved i true q = true → (makes (upd s.ctx i (forkret i) q)).Nodup ∧
    ∀ j ∈ makes (upd s.ctx i (forkret i) q), _
  by_cases eq : q = i
  · rw [eq, upd_self, upd_self]
    exact fun _ => ⟨nodup_nil, nofun⟩
  rw [upd_ne eq, upd_ne eq]
  intro h
  exact ⟨(making.ctx q h).1, fun j mem => keeps ((making.ctx q h).2 j mem)⟩

theorem Making.publish (inv : Inv s) (making : Making s) (at' : (s.cpu c).code = .publish p i :: rest) :
    (s.proc i).state = .used ∧ Making ({ s.setProc i fun q => { q with state := .runnable } with
        making := upd s.making i none }.goto c rest) := by
  obtain ⟨thread, -⟩ := inv.typedAt at'
  have mem : ∀ j, j ∈ i :: makes rest → s.making j = some p := by
    intro j mem
    refine making.run c p thread j ?_
    rw [at']
    exact mem
  have mine := mem i List.mem_cons_self
  have nodup := making.nodup c
  rw [at'] at nodup
  obtain ⟨absent, nodup⟩ := List.nodup_cons.mp nodup
  -- every other child in the making is another slot
  have keeps : ∀ {j q}, s.making j = some q → j ≠ i → upd s.making i none j = some q := by
    intro j q h ne
    rw [upd_ne ne, h]
  refine ⟨making.used i p mine, ?_⟩
  generalize ht : ({ s.setProc i fun q => { q with state := Procstate.runnable } with
    making := upd s.making i none } : Sys C).goto c rest = t
  have codes : ∀ c', c' ≠ c → t.cpu c' = s.cpu c' := fun c' ne => by
    rw [← ht]
    exact upd_ne ne _ _
  have self : t.cpu c = { s.cpu c with code := rest } := by
    rw [← ht, Sys.goto, setCpu_cpu, upd_self]
    rfl
  have ghost : t.making = upd s.making i none := by
    rw [← ht]
    rfl
  constructor
  · intro j q h
    have ne : j ≠ i := by
      rintro rfl
      rw [ghost, upd_self] at h
      cases h
    rw [ghost, upd_ne ne] at h
    rw [← ht]
    show (upd s.proc i _ j).state = .used
    rw [upd_ne ne]
    exact making.used j q h
  · intro c'
    by_cases eq : c' = c
    · rw [eq, self]
      exact nodup
    rw [codes c' eq]
    exact making.nodup c'
  · intro c' q h j memJ
    rw [ghost]
    by_cases eq : c' = c
    · rw [eq, self] at h memJ
      rw [← Option.some.inj (thread.symm.trans h)]
      exact keeps (mem j (List.mem_cons_of_mem _ memJ)) fun e => absent (e ▸ memJ)
    rw [codes c' eq] at h memJ
    have theirs := making.run c' q h j memJ
    refine keeps theirs ?_
    rintro rfl
    have same : q = p := Option.some.inj (theirs.symm.trans mine)
    exact eq (inv.solo c' c p (same ▸ h) thread)
  · intro c' h
    by_cases eq : c' = c
    · rw [eq, self, show (s.cpu c).thread = some p from thread] at h
      cases h
    rw [codes c' eq] at h ⊢
    exact making.sched c' h
  intro q saved
  have saved : s.saved q = true := by
    rw [← ht] at saved
    exact saved
  have ctx : t.ctx q = s.ctx q := by
    rw [← ht]
    rfl
  rw [ctx, ghost]
  refine ⟨(making.ctx q saved).1, fun j memJ => ?_⟩
  have theirs := (making.ctx q saved).2 j memJ
  refine keeps theirs ?_
  rintro rfl
  have same : q = p := Option.some.inj (theirs.symm.trans mine)
  have unsaved := (inv.mine c p thread).2.2
  rw [← same, saved] at unsaved
  cases unsaved

theorem Making.save (inv : Inv s) (making : Making s) (at' : (s.cpu c).code = .sched :: rest)
    (proc : (s.cpu c).proc = some p) : Making (s.save c p rest) := by
  obtain ⟨q, thread, -⟩ := inv.typedAt at'
  obtain rfl : q = p := Option.some.inj ((inv.mine c q thread).1.symm.trans proc)
  have old : makes rest = makes (s.cpu c).code := by
    rw [at']
    rfl
  have codes : ∀ c', c' ≠ c → (s.save c q rest).cpu c' = s.cpu c' :=
    fun c' ne => upd_ne ne _ _
  have self : (s.save c q rest).cpu c = { s.cpu c with thread := none, code := [.loadSched] } :=
    upd_self ..
  constructor
  · exact making.used
  · intro c'
    by_cases eq : c' = c
    · rw [eq, self]
      exact nodup_nil
    rw [codes c' eq]
    exact making.nodup c'
  · intro c' r h
    by_cases eq : c' = c
    · rw [eq, self] at h
      cases h
    rw [codes c' eq] at h ⊢
    exact making.run c' r h
  · intro c' h
    by_cases eq : c' = c
    · rw [eq, self]
      rfl
    rw [codes c' eq] at h ⊢
    exact making.sched c' h
  intro r
  show upd s.saved q true r = true → (makes (upd s.ctx q rest r)).Nodup ∧
    ∀ j ∈ makes (upd s.ctx q rest r), _
  by_cases eq : r = q
  · rw [eq, upd_self, upd_self, old]
    exact fun _ => ⟨making.nodup c, making.run c q thread⟩
  rw [upd_ne eq, upd_ne eq]
  exact making.ctx r

theorem Making.load (inv : Inv s) (making : Making s) (at' : (s.cpu c).code = .restore i :: rest) :
    Making (s.load c i) := by
  obtain ⟨idle, -, -, rfl⟩ := inv.typedAt at'
  obtain ⟨-, -, resumable, -⟩ := inv.atTarget (i := i) idle (by rw [at']; rfl)
  have codes : ∀ c', c' ≠ c → (s.load c i).cpu c' = s.cpu c' := fun c' ne => upd_ne ne _ _
  have self : (s.load c i).cpu c = { s.cpu c with thread := some i, code := s.ctx i } := upd_self ..
  have mine := making.ctx i resumable.1
  constructor
  · exact making.used
  · intro c'
    by_cases eq : c' = c
    · rw [eq, self]
      exact mine.1
    rw [codes c' eq]
    exact making.nodup c'
  · intro c' r h
    by_cases eq : c' = c
    · rw [eq, self] at h
      rw [eq, self, ← Option.some.inj h]
      exact mine.2
    rw [codes c' eq] at h ⊢
    exact making.run c' r h
  · intro c' h
    by_cases eq : c' = c
    · rw [eq, self] at h
      cases h
    rw [codes c' eq] at h ⊢
    exact making.sched c' h
  intro r
  show upd s.saved i false r = true → _
  by_cases eq : r = i
  · rw [eq, upd_self]
    exact nofun
  rw [upd_ne eq]
  exact making.ctx r

/-- The lock discipline, with the children that are being made. -/
structure Good (s : Sys C) : Prop where
  inv : Inv s
  making : Making s

theorem Good.goto (good : Good s) (thread : (s.cpu c).thread = some p)
    (typed : Ok (some p) (s.cpu c).held (s.status c) code)
    (same : makes code = makes (s.cpu c).code) : Good (s.goto c code) :=
  ⟨good.inv.jump thread typed, good.making.goto same⟩

theorem Good.assign {f : Proc → Proc} {q : Nat} (good : Good s) (thread : (s.cpu c).thread = some p)
    (same : ∀ r, (f r).state = r.state)
    (typed : Ok (some p) (s.cpu c).held (s.status c) code)
    (makes : makes code = makes (s.cpu c).code) : Good ((s.setProc q f).goto c code) :=
  ⟨good.inv.assign thread same typed, good.making.setProc makes fun h => (same _).trans h⟩

/-- Only the CPU changes, and not its thread. -/
theorem Making.cpu {k : Cpu} (making : Making s) (cpu : t.cpu = upd s.cpu c k)
    (same : makes k.code = makes (s.cpu c).code ∧ k.thread = (s.cpu c).thread)
    (ctx : t.ctx = s.ctx ∧ t.saved = s.saved) (ghost : t.making = s.making)
    (used : ∀ i, (s.proc i).state = .used → (t.proc i).state = .used) : Making t := by
  refine making.plain (c := c) (fun c' ne => ?_) ?_ ctx ghost used
  · rw [cpu, upd_ne ne]
  rw [cpu, upd_self]
  exact same

theorem Ok.killedTest {loop : Loop} (killed : Bool) :
    Ok (some p) [.proc p, loop.lock] .running (.release (.proc p) :: (if killed then [.release loop.lock]
      else
        match loop with
        | .pipewrite pi => [.full p pi]
        | _ => sleep p loop ++ [])) := by
  refine Ok.releaseTop ?_
  cases killed
  · rw [if_neg nofun]
    cases loop
    case pipewrite pi => exact ⟨rfl, rfl, rfl, rfl⟩
    all_goals exact Ok.sleep _
  rw [if_pos rfl]
  exact Ok.release (Ok.done p)

theorem makes_killedTest {loop : Loop} (killed : Bool) :
    makes (.release (.proc p) :: (if killed then .release loop.lock :: rest
      else
        match loop with
        | .pipewrite pi => .full p pi :: rest
        | _ => sleep p loop ++ rest)) = makes rest := by
  cases killed <;> cases loop <;> rfl

theorem Ok.wakeupRelease {l : Lock} {chan : Option Chan} (free : ∀ q, l ≠ .proc q)
    (ok : Ok (some p) [] .running rest) :
    Ok (some p) [l] .running (wakeup n (some p) chan ++ .release l :: rest) :=
  (Ok.wakeup chan (fun q _ => by simpa using (free q).symm) ⟨rfl, rfl⟩ (Ok.release ok)).1

/-- `freeproc` of a process that is not running and not being made. -/
theorem Good.free (good : Good s) (thread : (s.cpu c).thread = some p)
    (mem : .proc i ∈ (s.cpu c).held) (idle : (s.proc i).state ≠ .running ∧ (s.proc i).state ≠ .used)
    (running : s.status c = .running) (typed : Ok (some p) (s.cpu c).held .running code)
    (same : makes code = makes (s.cpu c).code) : Good ((s.setProc i Proc.free).goto c code) :=
  ⟨good.inv.free thread mem idle.1 running typed, good.making.setProc same fun used => absurd used idle.2⟩

theorem Good.exec {j : Instr} {r : Except Panic (Sys C)} (good : Good s)
    (at' : (s.cpu c).code = j :: rest) (step : s.exec n c input j rest = some r) :
    ∃ t, r = .ok t ∧ Good t := by
  obtain ⟨inv, making⟩ := good
  have typed := inv.typedAt at'
  have before := congrArg makes at'
  cases j <;> simp only [Sys.exec] at step
  case acquire l =>
    have absent : s.lock l ≠ some c := fun mine => typed.1 ((inv.lock l c).mp mine)
    rw [if_neg absent] at step
    split at step
    · rename_i free
      cases step
      exact ⟨_, rfl, inv.acquire at' free, making.cpu (take_goto_cpu l) ⟨before.symm, rfl⟩
        ⟨rfl, rfl⟩ rfl
        fun _ h => h⟩
    cases step
  case release l =>
    obtain ⟨mine, inv'⟩ := inv.release at'
    rw [if_pos mine] at step
    cases step
    exact ⟨_, rfl, inv', making.cpu (drop_goto_cpu l) ⟨before.symm, rfl⟩
      ⟨rfl, rfl⟩ rfl fun _ h => h⟩
  case setChan | setXstate =>
    obtain ⟨thread, -, ok⟩ := typed
    cases step
    rw [thread] at ok
    refine ⟨_, rfl, Good.assign ⟨inv, making⟩ thread ?_ ok before.symm⟩
    exact fun _ => rfl
  case park p new =>
    cases step
    have good : Good ((s.setProc p fun q => { q with state := new }).goto c rest) := by
      refine ⟨inv.park at', making.setProc before.symm fun used => ?_⟩
      obtain ⟨thread, -, running, -⟩ := typed
      rw [status_of_thread thread, used] at running
      cases running
    refine ⟨_, rfl, ?_⟩
    split
    · exact ⟨good.inv.history rfl rfl rfl rfl rfl, good.making.history rfl rfl rfl rfl rfl⟩
    exact good
  case sched =>
    obtain ⟨p, proc, lock, one, parked, inv'⟩ := inv.sched at'
    rw [proc] at step
    simp only [lock, one, parked, ne_eq, not_true_eq_false, if_false] at step
    cases step
    exact ⟨_, rfl, inv', making.save inv at' proc⟩
  case loadSched =>
    cases step
    refine ⟨_, rfl, inv.loadSched at', making.goto ?_⟩
    obtain ⟨idle, -, -, rfl⟩ := typed
    obtain ⟨p, proc, -⟩ := inv.atReturn idle (by rw [at']; rfl)
    rw [(inv.scheduling c idle).context p proc (.inr at'), before]
    rfl
  case wake q chan =>
    cases step
    refine ⟨_, rfl, inv.wake at', ?_⟩
    split
    · rename_i asleep
      refine making.setProc before.symm fun used => ?_
      rw [asleep.1] at used
      cases used
    exact making.goto before.symm
  case setKilled p =>
    obtain ⟨thread, held, running, rfl⟩ := typed
    cases step
    refine ⟨_, rfl, Good.assign ⟨inv, making⟩ thread ?_ ?_ before.symm⟩
    · exact fun _ => rfl
    rw [held, running]
    exact Ok.release (Ok.done p)
  case killNext i pid =>
    obtain ⟨some, held, running, rfl⟩ := typed
    obtain ⟨p, thread⟩ := Option.ne_none_iff_exists'.mp some
    cases step
    refine ⟨_, rfl, Good.goto ⟨inv, making⟩ thread ?_ ?_⟩
    · rw [held, running]
      split
      · exact Ok.acquire not_mem_nil ⟨nofun, rfl, rfl, rfl⟩
      exact Ok.done p
    rw [before]
    split <;> rfl
  case killTest i pid =>
    have inv' := inv.killTest at'
    split at step
    · rename_i found
      rw [if_pos found] at inv'
      cases step
      refine ⟨_, rfl, inv', making.setProc before.symm fun used => ?_⟩
      dsimp only
      rw [if_neg (by rw [used]; nofun), used]
    rename_i other
    rw [if_neg other] at inv'
    cases step
    exact ⟨_, rfl, inv', making.goto before.symm⟩
  case forkNext p i =>
    obtain ⟨thread, held, running, rfl⟩ := typed
    have ok := Ok.done p
    cases step
    refine ⟨_, rfl, Good.goto ⟨inv, making⟩ thread ?_ ?_⟩
    · rw [held, running]
      split
      · exact Ok.acquire not_mem_nil ⟨rfl, rfl, rfl, rfl⟩
      exact ok
    rw [before]
    split <;> rfl
  case forkTest p i =>
    obtain ⟨thread, held, running, rfl⟩ := typed
    have ok := Ok.done p
    split at step
    swap
    · cases step
      refine ⟨_, rfl, Good.goto ⟨inv, making⟩ thread ?_ before.symm⟩
      rw [held, running]
      exact Ok.release ⟨rfl, rfl, rfl, rfl⟩
    rename_i unused
    split at step
    · cases step
      exact ⟨_, rfl, inv.allocproc at' unused, making.allocproc inv at' unused⟩
    cases step
    have mem : .proc i ∈ (s.cpu c).held := by
      rw [held]
      exact mem_singleton_self _
    have good : Good ((s.setProc i Proc.free).goto c [.release (.proc i)]) :=
      .free ⟨inv, making⟩ thread mem (by rw [unused]; exact ⟨nofun, nofun⟩) running
        (by rw [held]; exact Ok.release ok) before.symm
    exact ⟨_, rfl, good.inv.history rfl rfl rfl rfl rfl, good.making.history rfl rfl rfl rfl rfl⟩
  case setParent i p =>
    obtain ⟨thread, -, -, ok⟩ := typed
    cases step
    rw [thread] at ok
    refine ⟨_, rfl, Good.assign ⟨inv, making⟩ thread ?_ ok before.symm⟩
    exact fun _ => rfl
  case publish p i =>
    obtain ⟨used, making'⟩ := making.publish inv at'
    cases step
    exact ⟨_, rfl, (inv.publish used at').history rfl rfl rfl rfl rfl, making'⟩
  case waitScan p i havekids copy =>
    obtain ⟨thread, held, running, rfl⟩ := typed
    have ok := Ok.done p
    cases step
    refine ⟨_, rfl, Good.goto ⟨inv, making⟩ thread ?_ ?_⟩
    · rw [held, running]
      split
      · split
        · exact Ok.acquire (by simp) ⟨rfl, rfl, rfl, rfl⟩
        exact ⟨rfl, rfl, rfl, rfl⟩
      split
      · exact Ok.acquire (by simp) ⟨rfl, rfl, rfl, rfl⟩
      exact Ok.release ok
    rw [before]
    split <;> split <;> rfl
  case waitTest p i copy =>
    obtain ⟨thread, held, running, rfl⟩ := typed
    have ok := Ok.done p
    have unlock : Ok (some p) (s.cpu c).held .running [.release (.proc i), .release .wait] := by
      rw [held]
      exact Ok.releaseTop (Ok.release ok)
    split at step
    · rename_i zombie
      split at step
      · cases step
        refine ⟨_, rfl, Good.goto ⟨inv, making⟩ thread ?_ before.symm⟩
        rwa [running]
      cases step
      have mem : .proc i ∈ (s.cpu c).held := by
        rw [held]
        exact List.mem_cons_self
      have good := Good.free ⟨inv,
        making⟩ thread mem (by rw [zombie]; exact ⟨nofun, nofun⟩) running unlock before.symm
      exact ⟨_, rfl, good.inv.history rfl rfl rfl rfl rfl, good.making.history rfl rfl rfl rfl rfl⟩
    cases step
    refine ⟨_, rfl, Good.goto ⟨inv, making⟩ thread ?_ before.symm⟩
    rw [held, running]
    exact Ok.releaseTop ⟨rfl, rfl, rfl, rfl⟩
  case killedTest p loop =>
    obtain ⟨thread, held, running, rfl⟩ := typed
    have ok := Ok.done p
    cases step
    refine ⟨_, rfl, Good.goto ⟨inv, making⟩ thread ?_ ?_⟩
    · rw [held, running]
      exact Ok.killedTest _
    rw [before]
    exact makes_killedTest _
  case poll p loop =>
    obtain ⟨thread, held, running, rfl⟩ := typed
    have ok := Ok.done p
    have test : Ok (some p) [loop.lock] .running [.acquire (.proc p), .killedTest p loop] :=
      Ok.acquire (by simpa using (loop.lock_ne_proc p).symm) ⟨rfl, rfl, rfl, rfl⟩
    split at step <;> cases step <;> refine ⟨_, rfl, Good.goto ⟨inv, making⟩ thread ?_ ?_⟩
    all_goals first | rw [held, running] | rw [before]
    · rw [List.append_nil]
      exact Ok.sleep _
    · rw [makes_append, makes_sleep]
      rfl
    · exact test
    · rfl
    · exact Ok.wakeupRelease nofun ok
    · rw [makes_append, makes_wakeup]
      rfl
    · exact Ok.wakeupRelease nofun ok
    · rw [makes_append, makes_wakeup]
      rfl
    · exact Ok.release ok
    · rfl
    · exact Ok.release ok
    rfl
  case full p pi =>
    obtain ⟨thread, held, running, rfl⟩ := typed
    have ok := Ok.done p
    split at step <;> cases step <;> refine ⟨_, rfl, Good.goto ⟨inv, making⟩ thread ?_ ?_⟩
    all_goals first | rw [held, running] | rw [before]
    · exact (Ok.wakeup _ (fun q _ => by simp [Loop.lock]) ⟨rfl, rfl⟩ (Ok.sleep (.pipewrite pi))).1
    · rw [makes_append, makes_append, makes_wakeup, makes_sleep]
      rfl
    · exact ⟨rfl, rfl, rfl, rfl⟩
    · rfl
    · exact Ok.wakeupRelease nofun ok
    rw [makes_append, makes_wakeup]
    rfl
  case reparent p i status =>
    obtain ⟨thread, notInit, held, running, rfl⟩ := typed
    split at step
    · split at step
      · cases step
        refine ⟨_, rfl, Good.assign ⟨inv, making⟩ thread ?_ ?_ ?_⟩
        · exact fun _ => rfl
        · rw [held, running]
          have again : Ok (some p) [.wait] .running [.reparent p (i + 1) status] :=
            ⟨rfl, notInit, rfl, rfl, rfl⟩
          exact (Ok.wakeup _ (fun q _ => by simp) ⟨rfl, rfl⟩ again).1
        rw [before, makes_append, makes_wakeup]
        rfl
      cases step
      refine ⟨_, rfl, Good.goto ⟨inv, making⟩ thread ?_ before.symm⟩
      rw [held, running]
      exact ⟨rfl, notInit, rfl, rfl, rfl⟩
    cases step
    refine ⟨_, rfl, Good.goto ⟨inv, making⟩ thread ?_ ?_⟩
    · rw [held, running]
      exact Ok.exitEnd _ _
    rw [before, exitEnd, makes_append, makes_wakeup]
    rfl
  case zombieExit => exact typed.elim
  case schedNext i =>
    obtain ⟨idle, running, held, rfl⟩ := typed
    cases step
    refine ⟨_, rfl, inv.goto ?_ (by rw [at']; exact ⟨rfl, rfl⟩) (by split <;> exact ⟨rfl, rfl⟩),
      making.goto (by rw [before]; split <;> rfl)⟩
    rw [held, running, idle]
    split
    · refine ⟨not_mem_nil, rfl, ⟨rfl, rfl⟩, rfl, rfl, rfl, rfl⟩
    exact ⟨rfl, rfl, rfl, rfl⟩
  case schedTest i =>
    split at step
    · rename_i runnable
      cases step
      refine ⟨_, rfl, inv.schedTest at' runnable, ?_⟩
      refine making.cpu rfl ⟨before.symm, rfl⟩ ⟨rfl, rfl⟩ rfl fun q used => ?_
      show (upd s.proc i _ q).state = .used
      rw [upd_ne, used]
      rintro rfl
      rw [runnable] at used
      cases used
    cases step
    obtain ⟨idle, running, held, rfl⟩ := typed
    refine ⟨_, rfl, inv.goto ?_ (by rw [at']; exact ⟨rfl, rfl⟩) ⟨rfl, rfl⟩, making.goto before.symm⟩
    rw [held, running, idle]
    refine ⟨mem_singleton_self _, nofun, ⟨rfl, rfl⟩, rfl, rfl, ?_, rfl⟩
    rw [List.erase_cons_head]
  case swtchTo i =>
    cases step
    obtain ⟨-, -, -, rfl⟩ := typed
    exact ⟨_, rfl, inv.swtchTo at', making.cpu rfl ⟨before.symm, rfl⟩ ⟨rfl, rfl⟩ rfl fun _ h => h⟩
  case restore i =>
    cases step
    exact ⟨_, rfl, inv.restore at', making.load inv at'⟩
  case clearProc =>
    cases step
    exact ⟨_, rfl, inv.clearProc at', making.cpu rfl ⟨before.symm, rfl⟩ ⟨rfl, rfl⟩ rfl fun _ h => h⟩

/-- What a call makes the CPU do. -/
theorem Ok.call {f : Call} (step : Sys.call n p f = .ok code) :
    Ok (some p) [] .running code ∧ makes code = [] := by
  have done := Ok.done p
  cases f <;> simp only [Sys.call] at step
  case fork =>
    cases step
    exact ⟨⟨rfl, rfl, rfl, rfl⟩, rfl⟩
  case exit status =>
    split at step
    · cases step
    rename_i notInit
    cases step
    exact ⟨Ok.acquire not_mem_nil ⟨rfl, notInit, rfl, rfl, rfl⟩, rfl⟩
  case kill pid =>
    cases step
    exact ⟨⟨nofun, rfl, rfl, rfl⟩, rfl⟩
  case setkilled =>
    cases step
    exact ⟨Ok.acquire not_mem_nil ⟨rfl, rfl, rfl, rfl⟩, rfl⟩
  case yield =>
    cases step
    exact ⟨by simpa using Ok.yield done, rfl⟩
  case loop loop =>
    cases step
    exact ⟨Ok.acquire not_mem_nil (Ok.again loop), by cases loop <;> rfl⟩
  case wakeup lock chan =>
    cases step
    refine ⟨Ok.acquire not_mem_nil (Ok.wakeupRelease nofun done), ?_⟩
    show makes (Sched.wakeup n (some p) (some chan) ++ [.release (.other lock)]) = []
    rw [makes_append, makes_wakeup]
    rfl

theorem Inv.free_cpu (inv : Inv s) (free : (s.cpu c).held = []) :
    s.status c = .running ∧ (s.cpu c).proc = (s.cpu c).thread ∧ Settled (s.cpu c).code := by
  have typed := inv.typed c
  rw [free] at typed
  have settled := typed.settled_of_free
  rcases thread : (s.cpu c).thread with - | p
  · exact ⟨by rw [status, thread], (inv.scheduling c thread).idle settled, settled⟩
  refine ⟨?_, (inv.mine c p thread).1, settled⟩
  by_contra parked
  rw [thread] at typed
  exact not_mem_nil (typed.locked parked)

theorem Good.device {lock : Nat} {chan : Chan} (good : Good s) (free : (s.cpu c).held = []) :
    Good (s.goto c (.acquire (.other lock) ::
      (wakeup n (s.cpu c).proc (some chan) ++ .release (.other lock) :: (s.cpu c).code))) := by
  obtain ⟨inv, making⟩ := good
  obtain ⟨running, proc, settled⟩ := inv.free_cpu free
  have typed := inv.typed c
  rw [free, running] at typed
  have unlock : Ok (s.cpu c).thread [.other lock] .running (.release (.other lock) :: (s.cpu c).code) := by
    refine ⟨mem_singleton_self _, nofun, settled, ?_⟩
    rwa [List.erase_cons_head]
  have wake := Ok.wakeup (n := n) (some chan) (fun q _ => by simp) ⟨rfl, rfl⟩ unlock
  refine ⟨inv.goto ?_ settled ⟨rfl, rfl⟩, making.goto ?_⟩
  · rw [free, running, proc]
    exact ⟨not_mem_nil, rfl, wake.2, wake.1⟩
  show makes (wakeup n (s.cpu c).proc (some chan) ++ .release (.other lock) :: (s.cpu c).code) = _
  rw [makes_append, makes_wakeup]
  rfl

theorem Good.timer (good : Good s) (free : (s.cpu c).held = []) (proc : (s.cpu c).proc = some p) :
    Good (s.goto c (yield p ++ (s.cpu c).code)) := by
  obtain ⟨running, same, -⟩ := good.inv.free_cpu free
  have thread : (s.cpu c).thread = some p := same.symm.trans proc
  have typed := good.inv.typed c
  rw [free, running, thread] at typed
  refine good.goto thread ?_ rfl
  rw [free, running]
  exact Ok.yield typed

theorem Good.step {a : Action} {r : Except Panic (Sys C)} (good : Good s)
    (step : s.step n c a = some r) : (∃ t, r = .ok t ∧ Good t) ∨ r = .error .initExiting := by
  cases a with
  | run input =>
    simp only [Sys.step] at step
    split at step
    · cases step
    rename_i j rest at'
    exact .inl (good.exec at' step)
  | call f =>
    simp only [Sys.step] at step
    split at step
    swap
    · cases step
    rename_i p at' proc
    cases code : Sys.call n p f with
    | error e =>
      rw [code] at step
      cases step
      cases f <;> simp only [Sys.call, reduceCtorEq] at code
      split at code
      · cases code
        exact .inr rfl
      cases code
    | ok code' =>
      rw [code] at step
      cases step
      have typed := good.inv.typedAt at'
      have thread : (s.cpu c).thread = some p := by
        obtain ⟨-, same, -⟩ := good.inv.free_cpu typed.2.1
        exact same.symm.trans proc
      refine .inl ⟨_, rfl, good.goto thread ?_ ?_⟩
      · rw [typed.2.1, typed.2.2]
        exact (Ok.call code).1
      rw [(Ok.call code).2, at']
      rfl
  | timer =>
    simp only [Sys.step] at step
    split at step
    · rename_i p free proc
      split at step
      · cases step
        exact .inl ⟨_, rfl, good.timer free proc⟩
      cases step
    cases step
  | device lock chan =>
    simp only [Sys.step] at step
    split at step
    · rename_i free
      cases step
      exact .inl ⟨_, rfl, good.device free⟩
    cases step

theorem Good.init : Good (Sys.init : Sys C) := by
  refine ⟨⟨?_, ?_, ?_, ?_, ?_, ?_, ?_, ?_⟩, ⟨?_, ?_, ?_, ?_, ?_⟩⟩
  · intro l c
    simp [Sys.init]
  · exact fun _ => nodup_nil
  · exact fun _ => ⟨rfl, rfl, rfl, rfl⟩
  · exact nofun
  · exact nofun
  · exact fun _ _ => ⟨nofun, nofun, fun _ => rfl, nofun⟩
  · intro p ready _
    by_cases eq : p = initproc
    · subst eq
      exact ⟨rfl, Ok.forkret _⟩
    simp only [Sys.init, if_neg eq] at ready
    rcases ready with h | h | h <;> cases h
  · intro p running
    simp only [Sys.init] at running
    split at running <;> cases running
  · exact nofun
  · exact fun _ => nodup_nil
  · exact nofun
  · exact fun _ _ => rfl
  intro p saved
  simp only [Sys.init, decide_eq_true_eq] at saved
  subst saved
  exact ⟨nodup_nil, nofun⟩

theorem Reachable.good (run : Reachable n s) : Good s := by
  induction run with
  | init => exact Good.init
  | step _ step ih =>
    rcases ih.step step with ⟨t, eq, good⟩ | bad
    · cases eq
      exact good
    cases bad

theorem Inv.proc_cases (inv : Inv s) (proc : (s.cpu c).proc = some p) : (s.cpu c).thread = some p ∨
      (s.cpu c).thread = none ∧ .proc p ∈ (s.cpu c).held ∧ ∀ c', (s.cpu c').thread ≠ some p := by
  rcases thread : (s.cpu c).thread with - | q
  · refine .inr ⟨rfl, ?_⟩
    have scheduling := inv.scheduling c thread
    by_cases next : target (s.cpu c).code = none
    · by_cases back : returning (s.cpu c).code = true
      · obtain ⟨q, proc', held, -, nobody⟩ := inv.atReturn thread back
        obtain rfl : q = p := Option.some.inj (proc'.symm.trans proc)
        refine ⟨?_, nobody⟩
        rw [held]
        exact mem_singleton_self _
      rw [scheduling.idle ⟨next, by simpa using back⟩] at proc
      cases proc
    obtain ⟨i, next⟩ := Option.ne_none_iff_exists'.mp next
    obtain ⟨proc', -, -, nobody⟩ := inv.atTarget thread next
    obtain rfl : i = p := Option.some.inj (proc'.symm.trans proc)
    refine ⟨?_, nobody⟩
    rw [(inv.typed c).target_locks next]
    exact mem_singleton_self _
  exact .inl ((inv.mine c q thread).1.symm.trans proc)

theorem Inv.proc_unique {c' : C} (inv : Inv s) (mine : (s.cpu c).proc = some p)
    (theirs : (s.cpu c').proc = some p) : c = c' := by
  rcases inv.proc_cases mine with thread | ⟨-, mem, nobody⟩
  · rcases inv.proc_cases theirs with thread' | ⟨-, -, nobody⟩
    · exact inv.solo c c' p thread thread'
    exact absurd thread (nobody c)
  rcases inv.proc_cases theirs with thread' | ⟨-, mem', -⟩
  · exact absurd thread' (nobody c')
  exact inv.sole mem mem'

theorem Inv.running_iff (inv : Inv s) (free : s.lock (.proc p) = none) :
    (s.proc p).state = .running ↔ ∃! c, (s.cpu c).proc = some p := by
  have unlocked : ∀ c, .proc p ∉ (s.cpu c).held := fun c mem => by
    rw [(inv.lock _ c).mpr mem] at free
    cases free
  constructor
  · intro running
    obtain ⟨c, thread | ⟨-, next⟩⟩ := inv.running p running
    · exact ⟨c, (inv.mine c p thread).1,
        fun c' theirs => inv.proc_unique theirs (inv.mine c p thread).1⟩
    refine absurd ?_ (unlocked c)
    rw [(inv.typed c).target_locks next]
    exact mem_singleton_self _
  rintro ⟨c, proc, -⟩
  rcases inv.proc_cases proc with thread | ⟨-, mem, -⟩
  · by_contra parked
    have typed := inv.typed c
    rw [status_of_thread thread, thread] at typed
    exact unlocked c (typed.locked parked)
  exact absurd mem (unlocked c)

end Exec

end Sys

/-- In every run: with `p->lock` free a process is `RUNNING` exactly when one CPU has
it as `c->proc`; two CPUs never have the same process; a context is loaded only when
the `swtch` that saved it is complete and no CPU is still on that stack; every lock
is released by the CPU that took it, and neither `acquire` nor `release` nor `sched`
panics. -/
theorem one_cpu_per_process {C : Type} [DecidableEq C] {n : Nat} {s : Sys C}
    (run : Sys.Reachable n s) :
    (∀ p, s.lock (.proc p) = none → ((s.proc p).state = .running ↔ ∃! c, (s.cpu c).proc = some p)) ∧
    (∀ c c' p, (s.cpu c).proc = some p → (s.cpu c').proc = some p → c = c') ∧
    (∀ c p rest, (s.cpu c).code = .restore p :: rest →
      s.saved p = true ∧ ∀ c', (s.cpu c').thread ≠ some p) ∧
    (∀ c l rest, (s.cpu c).code = .release l :: rest → s.lock l = some c) ∧
    ∀ c a e, s.step n c a = some (.error e) → e = .initExiting := by
  obtain ⟨inv, making⟩ := run.good
  refine ⟨fun p free => inv.running_iff free, fun c c' p => inv.proc_unique, ?_, ?_, ?_⟩
  · intro c p rest at'
    obtain ⟨idle, -⟩ := inv.typedAt at'
    obtain ⟨-, -, resumable, nobody⟩ := inv.atTarget (i := p) idle (by rw [at']; rfl)
    exact ⟨resumable.1, nobody⟩
  · exact fun c l rest at' => (inv.release at').1
  intro c a e step
  rcases Sys.Good.step ⟨inv, making⟩ step with ⟨t, eq, -⟩ | eq
  · cases eq
  exact Except.error.inj eq

/-- The first CPU takes the first process and comes to its end of `forkret`. -/
def firstRuns : List (Bool × Sys.Action) := List.replicate 6 (false, .run .yes)

theorem firstRuns_one_cpu : ∃ s : Sys Bool, Sys.Reachable 2 s ∧ s.lock (.proc 0) = none ∧
    (s.proc 0).state = .running ∧ ∃! c, (s.cpu c).proc = some 0 := by
  have played : (((Sys.init : Sys Bool).play 2 firstRuns).any fun s =>
      s.lock (.proc 0) = none ∧ (s.proc 0).state = .running) = true := by decide
  obtain ⟨s, run, check⟩ := Sys.Reachable.of_play played
  obtain ⟨free, running⟩ := of_decide_eq_true check
  exact ⟨s, run, free, running, ((one_cpu_per_process run).1 0 free).mp running⟩

end Xv6.Sched
