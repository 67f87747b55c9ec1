import Xv6.Bio
import Xv6.Log.Commit
import Xv6.Log.Protocol

/-!
# Pinned buffers

The processes of `Xv6.Log.Protocol` over the buffer cache of `Xv6.Bio`. A call of
`bread` or `brelse`, and each round of the loops of `commit`, is a list of
instructions that a process works off one at a time, so that the steps of all
processes interleave as they do in the kernel. `log_write` pins a block that is
new in the header, and `install_trans` drops the pin after it has written the
block home. Until then the buffer stays in the cache with the contents that its
last holder left.
-/

namespace Xv6.Pins

open Option (bind_eq_some_iff map_eq_some_iff)
open Function renaming update → upd, update_self → upd_self, update_of_ne → upd_ne,
  update_idem → upd_idem
open Protocol (CommitPc Phase)

set_option linter.unusedSectionVars false

/-- What a process does next to a buffer that one of its variables points to. -/
inductive Instr (k : Nat)
  | bget (v : Var k) (blockno : Nat)
  | acquire (v : Var k)
  | fill (v : Var k)
  | copy (src dst : Var k)
  | fillHead (v : Var k)
  | bwrite (v : Var k)
  | bunpin (v : Var k)
  | release (v : Var k)
  | drop (v : Var k)
  deriving DecidableEq

section Calls

variable {k : Nat}

def bread (v : Var k) (blockno : Nat) : List (Instr k) :=
  [.bget v blockno, .acquire v, .fill v]

def brelse (v : Var k) : List (Instr k) := [.release v, .drop v]

def writeLogRound (log : Log) (tail : Nat) : List (Instr k) :=
  bread .logBuf (log.start + tail + 1) ++ bread .homeBuf (log.lh.block tail) ++
    [.copy .homeBuf .logBuf, .bwrite .logBuf] ++ brelse .homeBuf ++ brelse .logBuf

def writeHead (log : Log) : List (Instr k) :=
  bread .logBuf log.start ++ [.fillHead .logBuf, .bwrite .logBuf] ++ brelse .logBuf

/-- One round of the loop of `install_trans(0)`. -/
def installRound (log : Log) (tail : Nat) : List (Instr k) :=
  bread .logBuf (log.start + tail + 1) ++ bread .homeBuf (log.lh.block tail) ++
    [.copy .logBuf .homeBuf, .bwrite .homeBuf, .bunpin .homeBuf] ++ brelse .logBuf ++
    brelse .homeBuf

/-- The accesses to buffers that go with a step of `commit`. -/
def commitCalls (log : Log) : CommitPc → List (Instr k)
  | .writeLog tail => if tail < log.lh.n then writeLogRound log tail else []
  | .writeHead | .eraseHead => writeHead log
  | .install tail => if tail < log.lh.n then installRound log tail else []
  | .test | .clear | .finish => []

end Calls

/-- The log with its processes, the cache, what every process has still to do, and
the blocks of the header whose pins `install_trans` has dropped. -/
structure State (Pid : Type) (k : Nat) where
  proto : Protocol.State Pid
  cache : Cache Pid k
  todo : Pid → List (Instr k)
  unpinned : List Nat

/-- The steps of a process: an instruction, a call of the buffer cache, a change to
a locked buffer, `log_write`, or a step of the protocol. -/
inductive Action (k : Nat)
  | run
  | bread (v : Fin k) (blockno : Nat)
  | write (v : Fin k) (data : Block)
  | logWrite (v : Fin k)
  | brelse (v : Fin k)
  | proto (action : Protocol.Action)

variable {Pid : Type} [DecidableEq Pid] {k : Nat}

namespace State

/-- The buffer that `v` points to, when the process is at that stage with it. -/
def at' (s : State Pid k) (p : Pid) (v : Var k) (stage : Stage) : Option Hold :=
  (s.cache.hold (p, v)).filter fun h => h.stage = stage

/-- An instruction; `none` where the process has to wait. -/
def exec (s : State Pid k) (p : Pid) : Instr k → Option (Except Panic (State Pid k))
  | .bget v blockno =>
    if s.cache.hold (p, v) = none then
      some ((s.cache.bget (p, v) blockno).map fun cache => { s with cache })
    else none
  | .acquire v => do
    let h ← s.at' p v .waiting
    let cache ← s.cache.acquire (p, v) h
    return .ok { s with cache }
  | .fill v => do
    let h ← s.at' p v .locked
    return .ok { s with cache := s.cache.fill (p, v) h }
  | .copy src dst => do
    let h ← s.at' p src .ready
    let g ← s.at' p dst .ready
    return .ok { s with cache := s.cache.modify (p, dst) g (s.cache.buf h.buf).data }
  | .fillHead v => do
    let h ← s.at' p v .ready
    let data := s.proto.log.lh.store (s.cache.buf h.buf).data
    return .ok { s with cache := s.cache.modify (p, v) h data }
  | .bwrite v => do
    let h ← s.at' p v .ready
    return (s.cache.bwrite (p, v) h).map fun cache => { s with cache }
  | .bunpin v => do
    let h ← s.at' p v .ready
    return .ok { s with
      cache := s.cache.bunpin h.buf
      unpinned := s.unpinned ++ [h.blockno] }
  | .release v => do
    let h ← s.at' p v .ready
    return (s.cache.release (p, v) h).map fun cache => { s with cache }
  | .drop v => do
    let h ← s.at' p v .released
    return .ok { s with cache := s.cache.drop (p, v) h }

def setTodo (s : State Pid k) (p : Pid) (todo : List (Instr k)) : State Pid k :=
  { s with todo := upd s.todo p todo }

/-- The process is between two calls and not in `commit`. -/
def Free (s : State Pid k) (p : Pid) : Prop := s.todo p = [] ∧ (s.proto.phase p).isCommit = false

instance (s : State Pid k) (p : Pid) : Decidable (s.Free p) := inferInstanceAs (Decidable (_ ∧ _))

/-- The buffer accesses of a step of the protocol. -/
def calls (s : State Pid k) (p : Pid) : Protocol.Action → List (Instr k)
  | .commit =>
    match s.proto.phase p with
    | .commit pc => commitCalls s.proto.log pc
    | _ => []
  | _ => []

def step (s : State Pid k) (p : Pid) : Action k → Option (Except Panic (State Pid k))
  | .run =>
    match s.todo p with
    | [] => none
    | i :: rest => (s.exec p i).map fun result => result.map fun t => t.setTodo p rest
  | .bread v blockno =>
    if s.Free p ∧ s.cache.hold (p, .loc v) = none then
      some (.ok (s.setTodo p (Pins.bread (.loc v) blockno)))
    else none
  | .write v data =>
    if s.Free p then do
      let h ← s.at' p (.loc v) .ready
      return .ok { s with cache := s.cache.modify (p, .loc v) h data }
    else none
  | .logWrite v =>
    if s.Free p then do
      let h ← s.at' p (.loc v) .ready
      let result ← s.proto.step p (.logWrite h.blockno)
      return result.map fun proto =>
        -- the contents that count from now on are those at the next release
        let cache := s.cache.modify (p, .loc v) h (s.cache.buf h.buf).data
        let new := s.proto.log.lh.find h.blockno = s.proto.log.lh.n
        { s with proto, cache := if new then cache.bpin h.buf else cache }
    else none
  | .brelse v =>
    if s.Free p then do
      let _ ← s.at' p (.loc v) .ready
      return .ok (s.setTodo p (Pins.brelse (.loc v)))
    else none
  | .proto action =>
    if action.isLogWrite = false ∧ s.todo p = [] then do
      let result ← s.proto.step p action
      return result.map fun proto =>
        { s.setTodo p (s.calls p action) with
          proto
          unpinned := if s.proto.phase p = .commit .clear then [] else s.unpinned }
    else none

end State

/-- A log with no operation, over a cache in which nobody holds a buffer. -/
structure Booted (start size : Nat) (block : Nat → Nat) (s : State Pid k) : Prop where
  proto : s.proto = Protocol.init Pid start size block
  listed : ∀ i, i ∈ s.cache.lru
  unique : ∀ i j, (s.cache.buf i).dev = ROOTDEV → (s.cache.buf j).dev = ROOTDEV →
    (s.cache.buf i).blockno = (s.cache.buf j).blockno → i = j
  unused : ∀ i, (s.cache.buf i).refcnt = 0
  hold : ∀ x, s.cache.hold x = none
  todo : ∀ p, s.todo p = []
  unpinned : s.unpinned = []

inductive Reachable (start size : Nat) (block : Nat → Nat) : State Pid k → Prop
  | init {s : State Pid k} : Booted start size block s → Reachable start size block s
  | step {s s' : State Pid k} {p : Pid} {action : Action k} : Reachable start size block s →
      s.step p action = some (.ok s') → Reachable start size block s'

/-! ## The steps, case by case -/

theorem State.at'_eq_some {s : State Pid k} {p : Pid} {v : Var k} {stage : Stage} {h : Hold} :
    s.at' p v stage = some h ↔ s.cache.hold (p, v) = some h ∧ h.stage = stage := by
  simp [State.at', Option.filter_eq_some_iff]

/-- The instructions that do not panic, with what each of them finds. -/
inductive Exec (s : State Pid k) (p : Pid) : Instr k → State Pid k → Prop
  | bget {v : Var k} {blockno : Nat} {cache : Cache Pid k} (free : s.cache.hold (p, v) = none)
      (ok : s.cache.bget (p, v) blockno = .ok cache) :
      Exec s p (.bget v blockno) { s with cache }
  | acquire {v : Var k} {h : Hold} {cache : Cache Pid k} (at' : s.cache.hold (p, v) = some h)
      (stage : h.stage = .waiting) (ok : s.cache.acquire (p, v) h = some cache) :
      Exec s p (.acquire v) { s with cache }
  | fill {v : Var k} {h : Hold} (at' : s.cache.hold (p, v) = some h) (stage : h.stage = .locked) :
      Exec s p (.fill v) { s with cache := s.cache.fill (p, v) h }
  | copy {src dst : Var k} {h g : Hold} (from' : s.cache.hold (p, src) = some h)
      (full : h.stage = .ready) (at' : s.cache.hold (p, dst) = some g) (stage : g.stage = .ready) :
      Exec s p (.copy src dst) { s with cache := s.cache.modify (p, dst) g (s.cache.buf h.buf).data }
  | fillHead {v : Var k} {h : Hold} (at' : s.cache.hold (p, v) = some h)
      (stage : h.stage = .ready) :
      Exec s p (.fillHead v) { s with
        cache := s.cache.modify (p, v) h (s.proto.log.lh.store (s.cache.buf h.buf).data) }
  | bwrite {v : Var k} {h : Hold} {cache : Cache Pid k} (at' : s.cache.hold (p, v) = some h)
      (stage : h.stage = .ready) (ok : s.cache.bwrite (p, v) h = .ok cache) :
      Exec s p (.bwrite v) { s with cache }
  | bunpin {v : Var k} {h : Hold} (at' : s.cache.hold (p, v) = some h) (stage : h.stage = .ready) :
      Exec s p (.bunpin v) { s with cache := s.cache.bunpin h.buf, unpinned := s.unpinned ++ [h.blockno] }
  | release {v : Var k} {h : Hold} {cache : Cache Pid k} (at' : s.cache.hold (p, v) = some h)
      (stage : h.stage = .ready) (ok : s.cache.release (p, v) h = .ok cache) :
      Exec s p (.release v) { s with cache }
  | drop {v : Var k} {h : Hold} (at' : s.cache.hold (p, v) = some h)
      (stage : h.stage = .released) :
      Exec s p (.drop v) { s with cache := s.cache.drop (p, v) h }

theorem map_eq_ok {α β : Type} {f : α → β} {x : Except Panic α} {b : β}
    (h : x.map f = .ok b) : ∃ a, x = .ok a ∧ f a = b := by
  cases x with
  | error e => cases h
  | ok a => exact ⟨a, rfl, Except.ok.inj h⟩

theorem Exec.of_exec {s t : State Pid k} {p : Pid} {i : Instr k} (h : s.exec p i = some (.ok t)) :
    Exec s p i t := by
  cases i with
  | bget v blockno =>
    rw [State.exec] at h
    split at h
    · rename_i free
      obtain ⟨cache, ok, rfl⟩ := map_eq_ok (Option.some.inj h)
      exact .bget free ok
    cases h
  | acquire v =>
    obtain ⟨g, found, h⟩ := bind_eq_some_iff.mp h
    obtain ⟨cache, ok, h⟩ := bind_eq_some_iff.mp h
    obtain ⟨at', stage⟩ := State.at'_eq_some.mp found
    cases h
    exact .acquire at' stage ok
  | fill v =>
    obtain ⟨g, found, h⟩ := bind_eq_some_iff.mp h
    obtain ⟨at', stage⟩ := State.at'_eq_some.mp found
    cases h
    exact .fill at' stage
  | copy src dst =>
    obtain ⟨f, source, h⟩ := bind_eq_some_iff.mp h
    obtain ⟨g, found, h⟩ := bind_eq_some_iff.mp h
    obtain ⟨from', full⟩ := State.at'_eq_some.mp source
    obtain ⟨at', stage⟩ := State.at'_eq_some.mp found
    cases h
    exact .copy from' full at' stage
  | fillHead v =>
    obtain ⟨g, found, h⟩ := bind_eq_some_iff.mp h
    obtain ⟨at', stage⟩ := State.at'_eq_some.mp found
    cases h
    exact .fillHead at' stage
  | bwrite v =>
    obtain ⟨g, found, h⟩ := bind_eq_some_iff.mp h
    obtain ⟨at', stage⟩ := State.at'_eq_some.mp found
    obtain ⟨cache, ok, rfl⟩ := map_eq_ok (Option.some.inj h)
    exact .bwrite at' stage ok
  | bunpin v =>
    obtain ⟨g, found, h⟩ := bind_eq_some_iff.mp h
    obtain ⟨at', stage⟩ := State.at'_eq_some.mp found
    cases h
    exact .bunpin at' stage
  | release v =>
    obtain ⟨g, found, h⟩ := bind_eq_some_iff.mp h
    obtain ⟨at', stage⟩ := State.at'_eq_some.mp found
    obtain ⟨cache, ok, rfl⟩ := map_eq_ok (Option.some.inj h)
    exact .release at' stage ok
  | drop v =>
    obtain ⟨g, found, h⟩ := bind_eq_some_iff.mp h
    obtain ⟨at', stage⟩ := State.at'_eq_some.mp found
    cases h
    exact .drop at' stage

/-- The steps that do not panic. -/
inductive Trans (s : State Pid k) (p : Pid) : State Pid k → Prop
  | run {i : Instr k} {rest : List (Instr k)} {t : State Pid k} (todo : s.todo p = i :: rest)
      (exec : Exec s p i t) : Trans s p (t.setTodo p rest)
  | bread {v : Fin k} {blockno : Nat} (free : s.Free p) (empty : s.cache.hold (p, .loc v) = none) :
      Trans s p (s.setTodo p (Pins.bread (.loc v) blockno))
  | write {v : Fin k} {data : Block} {h : Hold} (free : s.Free p)
      (at' : s.cache.hold (p, .loc v) = some h) (stage : h.stage = .ready) :
      Trans s p { s with cache := s.cache.modify (p, .loc v) h data }
  | logWrite {v : Fin k} {h : Hold} {proto : Protocol.State Pid} (free : s.Free p)
      (at' : s.cache.hold (p, .loc v) = some h) (stage : h.stage = .ready)
      (step : s.proto.step p (.logWrite h.blockno) = some (.ok proto)) :
      Trans s p { s with
        proto
        cache :=
          if s.proto.log.lh.find h.blockno = s.proto.log.lh.n then
            (s.cache.modify (p, .loc v) h (s.cache.buf h.buf).data).bpin h.buf
          else s.cache.modify (p, .loc v) h (s.cache.buf h.buf).data }
  | brelse {v : Fin k} {h : Hold} (free : s.Free p) (at' : s.cache.hold (p, .loc v) = some h)
      (stage : h.stage = .ready) : Trans s p (s.setTodo p (Pins.brelse (.loc v)))
  | proto {action : Protocol.Action} {proto : Protocol.State Pid}
      (other : action.isLogWrite = false) (free : s.todo p = [])
      (step : s.proto.step p action = some (.ok proto)) :
      Trans s p { s.setTodo p (s.calls p action) with
        proto
        unpinned := if s.proto.phase p = .commit .clear then [] else s.unpinned }

theorem Trans.of_step {s s' : State Pid k} {p : Pid} {action : Action k}
    (h : s.step p action = some (.ok s')) : Trans s p s' := by
  cases action with
  | run =>
    rw [State.step] at h
    split at h
    · cases h
    rename_i todo
    obtain ⟨result, exec, h⟩ := map_eq_some_iff.mp h
    obtain ⟨t, rfl, rfl⟩ := map_eq_ok h
    exact .run todo (.of_exec exec)
  | bread v blockno =>
    rw [State.step] at h
    split at h
    · rename_i free
      cases h
      exact .bread free.1 free.2
    cases h
  | write v data =>
    rw [State.step] at h
    split at h
    · rename_i free
      obtain ⟨g, found, h⟩ := bind_eq_some_iff.mp h
      obtain ⟨at', stage⟩ := State.at'_eq_some.mp found
      cases h
      exact .write free at' stage
    cases h
  | logWrite v =>
    rw [State.step] at h
    split at h
    · rename_i free
      obtain ⟨g, found, h⟩ := bind_eq_some_iff.mp h
      obtain ⟨result, step, h⟩ := bind_eq_some_iff.mp h
      obtain ⟨at', stage⟩ := State.at'_eq_some.mp found
      obtain ⟨proto, rfl, rfl⟩ := map_eq_ok (Option.some.inj h)
      exact .logWrite free at' stage step
    cases h
  | brelse v =>
    rw [State.step] at h
    split at h
    · rename_i free
      obtain ⟨g, found, h⟩ := bind_eq_some_iff.mp h
      obtain ⟨at', stage⟩ := State.at'_eq_some.mp found
      cases h
      exact .brelse free at' stage
    cases h
  | proto action =>
    rw [State.step] at h
    split at h
    · rename_i free
      obtain ⟨result, step, h⟩ := bind_eq_some_iff.mp h
      obtain ⟨proto, rfl, rfl⟩ := map_eq_ok (Option.some.inj h)
      exact .proto free.1 free.2 step
    cases h

theorem Trans.proto_step {s s' : State Pid k} {p : Pid} (t : Trans s p s') :
    s'.proto = s.proto ∨ ∃ action, s.proto.step p action = some (.ok s'.proto) := by
  cases t with
  | run todo exec => cases exec <;> exact .inl rfl
  | logWrite free at' stage step => exact .inr ⟨_, step⟩
  | proto other free step => exact .inr ⟨_, step⟩
  | bread | write | brelse => exact .inl rfl

/-- The log of the buffers runs as in the protocol alone. -/
theorem Reachable.proto {start size : Nat} {block : Nat → Nat} {s : State Pid k}
    (r : Reachable start size block s) : Protocol.Reachable start size block s.proto := by
  induction r with
  | init booted =>
    rw [booted.proto]
    exact .init
  | step _ step ih =>
    rcases (Trans.of_step step).proto_step with same | ⟨action, step⟩
    · rwa [same]
    exact ih.step step

/-! ## The programs of the processes -/

/-- A list of instructions finds every variable as it needs it: `home` is the block
that a round of `write_log` copies, or one of `install_trans` unpins. At its end
the variables of `commit` are free again. -/
def Wf (home : Nat) : List (Instr k) → (Var k → Option Hold) → Prop
  | [], env => env .logBuf = none ∧ env .homeBuf = none
  | .bget v blockno :: rest, env => env v = none ∧ ∀ i, Wf home rest (upd env v (some ⟨i, blockno, .waiting, false⟩))
  | .acquire v :: rest, env =>
    ∃ h, env v = some h ∧ h.stage = .waiting ∧
      Wf home rest (upd env v (some { h with stage := .locked, clean := true }))
  | .fill v :: rest, env =>
    ∃ h, env v = some h ∧ h.stage = .locked ∧ Wf home rest (upd env v (some { h with stage := .ready }))
  | .copy src dst :: rest, env =>
    ∃ h g, env src = some h ∧ h.stage = .ready ∧ h.clean = true ∧
      (src = .homeBuf → h.blockno = home) ∧ env dst = some g ∧ g.stage = .ready ∧
      Wf home rest (upd env dst (some { g with clean := false }))
  | .fillHead v :: rest, env =>
    ∃ h, env v = some h ∧ h.stage = .ready ∧ Wf home rest (upd env v (some { h with clean := false }))
  | .bwrite v :: rest, env => ∃ h, env v = some h ∧ h.stage = .ready ∧ Wf home rest env
  | .bunpin v :: rest, env => ∃ h, env v = some h ∧ h.stage = .ready ∧ h.blockno = home ∧ Wf home rest env
  | .release v :: rest, env =>
    ∃ h, env v = some h ∧ h.stage = .ready ∧ Wf home rest (upd env v (some { h with stage := .released }))
  | .drop v :: rest, env => ∃ h, env v = some h ∧ h.stage = .released ∧ Wf home rest (upd env v none)

/-- The variables of a process. -/
def State.vars (s : State Pid k) (p : Pid) (v : Var k) : Option Hold := s.cache.hold (p, v)

section Vars

variable {s t : State Pid k} {p q : Pid} {v : Var k} {new : Option Hold}

theorem vars_of_same (hold : t.cache.hold = s.cache.hold) : t.vars q = s.vars q := by
  funext w
  unfold State.vars
  rw [hold]

theorem vars_update (hold : t.cache.hold = upd s.cache.hold (p, v) new) :
    t.vars p = upd (s.vars p) v new := by
  funext w
  unfold State.vars
  rw [hold]
  by_cases eq : w = v
  · rw [eq, upd_self, upd_self]
  rw [upd_ne eq, upd_ne (fun same => eq (Prod.mk.inj same).2)]

theorem vars_update_of_ne (hold : t.cache.hold = upd s.cache.hold (p, v) new) (ne : q ≠ p) :
    t.vars q = s.vars q := by
  funext w
  unfold State.vars
  rw [hold, upd_ne (fun same => ne (Prod.mk.inj same).1)]

/-- An instruction works on the variables of its own process. -/
theorem Exec.hold {i : Instr k} (e : Exec s p i t) : t.cache.hold = s.cache.hold ∨
      ∃ v new, t.cache.hold = upd s.cache.hold (p, v) new := by
  cases e with
  | bget free ok =>
    obtain ⟨i, hold⟩ := Cache.bget_hold ok
    exact .inr ⟨_, _, hold⟩
  | acquire at' stage ok => exact .inr ⟨_, _, Cache.acquire_hold ok⟩
  | fill at' stage => exact .inr ⟨_, _, Cache.fill_hold ..⟩
  | copy from' full at' stage | fillHead at' stage | drop at' stage => exact .inr ⟨_, _, rfl⟩
  | bwrite at' stage ok => exact .inl (Cache.bwrite_hold ok)
  | bunpin at' stage => exact .inl rfl
  | release at' stage ok => exact .inr ⟨_, _, Cache.release_hold ok⟩

theorem Exec.vars_of_ne {i : Instr k} (e : Exec s p i t) (ne : q ≠ p) : t.vars q = s.vars q := by
  rcases e.hold with same | ⟨v, new, hold⟩
  · exact vars_of_same same
  exact vars_update_of_ne hold ne

theorem Wf.exec {i : Instr k} {rest : List (Instr k)} {home : Nat}
    (wf : Wf home (i :: rest) (s.vars p)) (e : Exec s p i t) : Wf home rest (t.vars p) := by
  have same : ∀ {v : Var k} {h g : Hold}, s.cache.hold (p, v) = some h → s.vars p v = some g →
      g = h := fun at' found => Option.some.inj (found.symm.trans at')
  cases e with
  | bget free ok =>
    obtain ⟨i, hold⟩ := Cache.bget_hold ok
    rw [vars_update hold]
    exact wf.2 i
  | acquire at' stage ok =>
    obtain ⟨g, found, -, wf⟩ := wf
    cases same at' found
    rwa [vars_update (Cache.acquire_hold ok)]
  | fill at' stage =>
    obtain ⟨g, found, -, wf⟩ := wf
    cases same at' found
    rwa [vars_update (Cache.fill_hold ..)]
  | copy from' full at' stage =>
    obtain ⟨f, g, -, -, -, -, found, -, wf⟩ := wf
    cases same at' found
    rwa [vars_update (s := s) rfl]
  | fillHead at' stage | drop at' stage =>
    obtain ⟨g, found, -, wf⟩ := wf
    cases same at' found
    rwa [vars_update (s := s) rfl]
  | bwrite at' stage ok =>
    obtain ⟨g, found, -, wf⟩ := wf
    rwa [vars_of_same (Cache.bwrite_hold ok)]
  | bunpin at' stage =>
    obtain ⟨g, found, -, -, wf⟩ := wf
    exact wf
  | release at' stage ok =>
    obtain ⟨g, found, -, wf⟩ := wf
    cases same at' found
    rwa [vars_update (Cache.release_hold ok)]

end Vars

section Programs

variable {home : Nat} {env : Var k → Option Hold}

theorem Wf.bread {v : Var k} {blockno : Nat} (rest : List (Instr k)) (empty : env v = none)
    (wf : ∀ i, Wf home rest (upd env v (some ⟨i, blockno, .ready, true⟩))) :
    Wf home (Pins.bread v blockno ++ rest) env := by
  refine ⟨empty, fun i => ⟨_, upd_self .., rfl, _, upd_self .., rfl, ?_⟩⟩
  simp only [upd_idem]
  exact wf i

theorem Wf.brelse {v : Var k} (rest : List (Instr k)) {h : Hold} (at' : env v = some h)
    (ready : h.stage = .ready) (wf : Wf home rest (upd env v none)) :
    Wf home (Pins.brelse v ++ rest) env := by
  refine ⟨h, at', ready, _, upd_self .., rfl, ?_⟩
  rwa [upd_idem]

theorem wf_writeHead (log : Log) (free : env .logBuf = none ∧ env .homeBuf = none) :
    Wf home (writeHead log) env := by
  refine Wf.bread _ free.1 fun i => ?_
  refine ⟨_, upd_self .., rfl, _, upd_self .., rfl, ?_⟩
  refine Wf.brelse [] (upd_self ..) rfl ?_
  simp only [upd_idem]
  have ne : Var.homeBuf (k := k) ≠ .logBuf := nofun
  exact ⟨upd_self .., (upd_ne ne ..).trans free.2⟩

theorem wf_writeLogRound (log : Log) (tail : Nat)
    (free : env .logBuf = none ∧ env .homeBuf = none) :
    Wf (log.lh.block tail) (writeLogRound log tail) env := by
  have ne : Var.logBuf (k := k) ≠ .homeBuf := nofun
  unfold writeLogRound
  simp only [List.append_assoc]
  refine Wf.bread _ free.1 fun i => Wf.bread _ ?_ fun j => ?_
  · rw [upd_ne ne.symm]
    exact free.2
  refine ⟨⟨j, log.lh.block tail, .ready, true⟩, ⟨i, log.start + tail + 1, .ready, true⟩,
    upd_self .., rfl, rfl, fun _ => rfl, ?_⟩
  rw [upd_ne ne, upd_self]
  refine ⟨rfl, rfl, _, upd_self .., rfl, ?_⟩
  refine Wf.brelse _ (h := ⟨j, log.lh.block tail, .ready, true⟩) ?_ rfl ?_
  · rw [upd_ne ne.symm, upd_self]
  refine Wf.brelse [] (h := ⟨i, log.start + tail + 1, .ready, false⟩) ?_ rfl ?_
  · rw [upd_ne ne, upd_self]
  refine ⟨upd_self .., ?_⟩
  rw [upd_ne ne.symm, upd_self]

theorem wf_installRound (log : Log) (tail : Nat) (free : env .logBuf = none ∧ env .homeBuf = none) :
    Wf (log.lh.block tail) (installRound log tail) env := by
  have ne : Var.logBuf (k := k) ≠ .homeBuf := nofun
  unfold installRound
  simp only [List.append_assoc]
  refine Wf.bread _ free.1 fun i => Wf.bread _ ?_ fun j => ?_
  · rw [upd_ne ne.symm]
    exact free.2
  refine ⟨⟨i, log.start + tail + 1, .ready, true⟩, ⟨j, log.lh.block tail, .ready, true⟩, ?_⟩
  rw [upd_ne ne, upd_self]
  refine ⟨rfl, rfl, rfl, fun eq => absurd eq ne, upd_self .., rfl, ?_⟩
  rw [upd_idem]
  refine ⟨_, upd_self .., rfl, _, upd_self .., rfl, rfl, ?_⟩
  refine Wf.brelse _ (h := ⟨i, log.start + tail + 1, .ready, true⟩) ?_ rfl ?_
  · rw [upd_ne ne, upd_self]
  refine Wf.brelse [] (h := ⟨j, log.lh.block tail, .ready, false⟩) ?_ rfl ?_
  · rw [upd_ne ne.symm, upd_self]
  refine ⟨?_, upd_self ..⟩
  rw [upd_ne ne, upd_self]

theorem Wf.nil_update {v : Fin k} {new : Option Hold} (wf : Wf home [] env) :
    Wf home [] (upd env (.loc v) new) := by
  have log : Var.logBuf ≠ .loc v := nofun
  have home : Var.homeBuf ≠ .loc v := nofun
  exact ⟨(upd_ne log ..).trans wf.1, (upd_ne home ..).trans wf.2⟩

end Programs

/-! ## The invariant -/

def Instr.isBunpin : Instr k → Bool
  | .bunpin _ => true
  | _ => false

/-- The calls of `bunpin` that a process has still to make. -/
def unpins (todo : List (Instr k)) : Nat := todo.countP Instr.isBunpin

/-- The logged blocks that are still pinned. -/
def State.pinned (s : State Pid k) : Finset Nat :=
  s.proto.log.lh.entries.toFinset \ s.unpinned.toFinset

def home (lh : LogHeader) : Phase → Nat
  | .commit (.writeLog tail) | .commit (.install tail) => lh.block (tail - 1)
  | _ => 0

/-- The pins that have been dropped when a commit is at `pc` with `n` calls of
`bunpin` still to come in the round. -/
def Dropped (lh : LogHeader) : CommitPc → Nat → List Nat → Prop
  | .install tail, n, unpinned => n ≤ 1 ∧ n ≤ tail ∧ tail ≤ lh.n ∧ unpinned = lh.entries.take (tail - n)
  | .clear, n, unpinned => n = 0 ∧ unpinned = lh.entries
  | .writeLog tail, n, unpinned => n = 0 ∧ unpinned = [] ∧ tail ≤ lh.n
  | .test, n, unpinned | .writeHead, n, unpinned => n = 0 ∧ unpinned = []
  | .eraseHead, n, unpinned | .finish, n, unpinned => n = 0 ∧ unpinned = [] ∧ lh.n = 0

section Inv

variable [Fintype Pid] {s s' t : State Pid k} {p : Pid}

structure Inv (s : State Pid k) : Prop where
  cache : s.cache.Inv s.pinned
  script : ∀ p, Wf (home s.proto.log.lh (s.proto.phase p)) (s.todo p) (s.vars p)
  idle : s.proto.log.committing = false → s.unpinned = []
  progress : ∀ p pc, s.proto.phase p = .commit pc →
    Dropped s.proto.log.lh pc (unpins (s.todo p)) s.unpinned
  quiet : ∀ p, (s.proto.phase p).isCommit = false → unpins (s.todo p) = 0

theorem Inv.of_booted {start size : Nat} {block : Nat → Nat} (booted : Booted start size block s) :
    Inv s := by
  have none : s.pinned = ∅ := by
    rw [State.pinned, booted.proto, booted.unpinned]
    rfl
  constructor
  case cache =>
    rw [none]
    constructor
    case listed => exact booted.listed
    case unique => exact booted.unique
    case count =>
      intro i
      have empty : s.cache.holders i = ∅ := by
        refine Finset.eq_empty_of_forall_notMem fun x mem => ?_
        obtain ⟨h, at', -⟩ := Cache.mem_holders.mp mem
        cases (booted.hold x).symm.trans at'
      have unpinned : ¬Cache.Pinned ∅ (s.cache.buf i) := fun pin => Finset.notMem_empty _ pin.2
      rw [booted.unused, empty, Cache.pin, if_neg unpinned]
      rfl
    case present => exact fun b mem => absurd mem (Finset.notMem_empty b)
    case left => exact fun i pin => absurd pin.2 (Finset.notMem_empty _)
    case sole =>
      intro x y h g at'
      rw [booted.hold] at at'
      cases at'
    all_goals
      intro x h at'
      rw [booted.hold] at at'
      cases at'
  case script =>
    intro p
    rw [booted.todo]
    exact ⟨booted.hold _, booted.hold _⟩
  case idle => exact fun _ => booted.unpinned
  case progress =>
    intro p pc at'
    rw [booted.proto] at at'
    cases at'
  case quiet =>
    intro p _
    rw [booted.todo]
    rfl

variable {i : Instr k}

theorem Exec.cache_inv {pinned : Finset Nat} (inv : s.cache.Inv pinned)
    (e : Exec s p i t) (other : i.isBunpin = false) :
    t.cache.Inv pinned ∧ t.unpinned = s.unpinned := by
  cases e with
  | bget free ok => exact ⟨inv.bget free ok, rfl⟩
  | acquire at' stage ok => exact ⟨inv.acquire at' ok, rfl⟩
  | fill at' stage => exact ⟨inv.fill at' stage, rfl⟩
  | copy from' full at' stage | fillHead at' stage => exact ⟨inv.modify at' stage _, rfl⟩
  | bwrite at' stage ok =>
    obtain ⟨cache, ok', inv'⟩ := inv.bwrite at' stage
    cases ok'.symm.trans ok
    exact ⟨inv', rfl⟩
  | bunpin at' stage => cases other
  | release at' stage ok =>
    obtain ⟨cache, ok', inv'⟩ := inv.release at' stage
    cases ok'.symm.trans ok
    exact ⟨inv', rfl⟩
  | drop at' stage => exact ⟨inv.drop at', rfl⟩

theorem Exec.proto_todo (e : Exec s p i t) : t.proto = s.proto ∧ t.todo = s.todo := by
  cases e <;> exact ⟨rfl, rfl⟩

theorem Dropped.bunpin {lh : LogHeader} {pc : CommitPc} {n : Nat} {unpinned : List Nat}
    (d : Dropped lh pc (n + 1) unpinned) (nodup : lh.entries.Nodup) :
    home lh (.commit pc) ∈ lh.entries.toFinset \ unpinned.toFinset ∧
      Dropped lh pc n (unpinned ++ [home lh (.commit pc)]) := by
  cases pc with
  | install tail =>
    obtain ⟨one, low, high, rfl⟩ := d
    obtain rfl : n = 0 := by omega
    obtain ⟨tail, rfl⟩ : ∃ t, tail = t + 1 := ⟨tail - 1, by omega⟩
    have bound : tail < lh.entries.length := by
      rw [LogHeader.length_entries]
      omega
    have entry : lh.entries[tail] = lh.block tail := by simp [LogHeader.entries]
    have split : lh.entries.take (tail + 1) = lh.entries.take tail ++ [lh.block tail] := by
      rw [List.take_add_one, List.getElem?_eq_getElem bound, entry]
      rfl
    have fresh : lh.block tail ∉ lh.entries.take tail := by
      have part := (List.take_sublist (tail + 1) lh.entries).nodup nodup
      rw [split, List.nodup_append] at part
      exact fun mem => part.2.2 _ mem _ (List.mem_singleton_self _) rfl
    have mem : lh.block tail ∈ lh.entries := entry ▸ List.getElem_mem bound
    constructor
    · rw [Finset.mem_sdiff, List.mem_toFinset, List.mem_toFinset]
      exact ⟨mem, fresh⟩
    exact ⟨zero_le, zero_le, high, split.symm⟩
  | _ => cases d.1

theorem unpins_cons (i : Instr k) (rest : List (Instr k)) :
    unpins (i :: rest) = unpins rest + if i.isBunpin = true then 1 else 0 := List.countP_cons

theorem setTodo_self (s : State Pid k) (p : Pid) (todo : List (Instr k)) :
    (s.setTodo p todo).todo p = todo := upd_self ..

theorem setTodo_of_ne (s : State Pid k) {p q : Pid} (todo : List (Instr k)) (ne : q ≠ p) :
    (s.setTodo p todo).todo q = s.todo q := upd_ne ne ..

variable {rest : List (Instr k)}

theorem Inv.bunpin (inv : Inv s)
    (nodup : s.proto.log.lh.entries.Nodup) (todo : s.todo p = i :: rest) (e : Exec s p i t)
    (isBunpin : i.isBunpin = true) :
    t.cache.Inv t.pinned ∧ ∃ pc, s.proto.phase p = .commit pc ∧
      Dropped s.proto.log.lh pc (unpins rest) t.unpinned := by
  have count : unpins (s.todo p) = unpins rest + 1 := by rw [todo, unpins_cons, if_pos isBunpin]
  have busy : (s.proto.phase p).isCommit = true := by
    by_contra idle
    have none := inv.quiet p (by simpa using idle)
    omega
  obtain ⟨pc, phase⟩ := Protocol.Phase.isCommit_iff.mp busy
  have progress := inv.progress p pc phase
  rw [count] at progress
  obtain ⟨mem, dropped⟩ := progress.bunpin nodup
  have script := inv.script p
  rw [todo, phase] at script
  cases e with
  | @bunpin v h at' stage =>
    obtain ⟨g, found, -, name, -⟩ := script
    have same : g = h := Option.some.inj (found.symm.trans at')
    rw [same] at name
    rw [← name] at mem dropped
    refine ⟨?_, pc, phase, dropped⟩
    have erased : State.pinned { s with
        cache := s.cache.bunpin h.buf, unpinned := s.unpinned ++ [h.blockno] } = s.pinned.erase h.blockno := by
      ext b
      simp only [State.pinned, Finset.mem_sdiff, Finset.mem_erase, List.mem_toFinset,
        List.mem_append, List.mem_singleton]
      tauto
    rw [erased]
    exact inv.cache.bunpin at' mem
  | _ => cases isBunpin

theorem Inv.of_exec (inv : Inv s) (todo : s.todo p = i :: rest) (e : Exec s p i t) (cache : t.cache.Inv t.pinned)
    (idle : s.proto.log.committing = false → t.unpinned = [])
    (progress : ∀ q pc, s.proto.phase q = .commit pc →
      Dropped s.proto.log.lh pc (unpins ((t.setTodo p rest).todo q)) t.unpinned) :
    Inv (t.setTodo p rest) := by
  obtain ⟨proto, todos⟩ := e.proto_todo
  have protos : (t.setTodo p rest).proto = s.proto := proto
  have theirs : ∀ q, q ≠ p → (t.setTodo p rest).todo q = s.todo q := fun q ne => by
    rw [setTodo_of_ne t rest ne, todos]
  constructor
  case cache => exact cache
  case script =>
    intro q
    rw [protos]
    by_cases eq : q = p
    · have script := inv.script p
      rw [todo] at script
      rw [eq, setTodo_self]
      show Wf _ rest (t.vars p)
      exact script.exec e
    rw [theirs q eq]
    have vars : (t.setTodo p rest).vars q = s.vars q := e.vars_of_ne eq
    rw [vars]
    exact inv.script q
  case idle =>
    rw [protos]
    exact idle
  case progress =>
    rw [protos]
    exact progress
  case quiet =>
    intro q out
    rw [protos] at out
    have none := inv.quiet q out
    by_cases eq : q = p
    · rw [eq] at none ⊢
      rw [todo, unpins_cons] at none
      rw [setTodo_self]
      omega
    rwa [theirs q eq]

theorem Inv.run (inv : Inv s) (counted : Protocol.Counted s.proto)
    (nodup : s.proto.log.lh.entries.Nodup) (todo : s.todo p = i :: rest) (e : Exec s p i t) :
    Inv (t.setTodo p rest) := by
  obtain ⟨proto, todos⟩ := e.proto_todo
  by_cases isBunpin : i.isBunpin = true
  · obtain ⟨cache, pc, phase, dropped⟩ := inv.bunpin nodup todo e isBunpin
    have busy : (s.proto.phase p).isCommit = true := by rw [phase]; rfl
    refine inv.of_exec todo e cache ?_ ?_
    · intro idle
      rw [counted.no_commit idle p] at busy
      cases busy
    intro q pc' at'
    obtain rfl : q = p := counted.one q p (by rw [at']; rfl) busy
    cases phase.symm.trans at'
    rwa [setTodo_self]
  obtain ⟨cache, unpinned⟩ := e.cache_inv inv.cache (by simpa using isBunpin)
  have pinned : t.pinned = s.pinned := by rw [State.pinned, proto, unpinned, State.pinned]
  refine inv.of_exec todo e (pinned ▸ cache) ?_ ?_
  · rw [unpinned]
    exact inv.idle
  intro q pc at'
  have progress := inv.progress q pc at'
  rw [unpinned]
  by_cases eq : q = p
  · rw [eq, todo, unpins_cons, if_neg isBunpin] at progress
    rwa [eq, setTodo_self]
  rwa [setTodo_of_ne t rest eq, todos]

theorem Inv.setTodo {todo : List (Instr k)} (inv : Inv s) (free : s.Free p)
    (wf : Wf (home s.proto.log.lh (s.proto.phase p)) [] (s.vars p) →
      Wf (home s.proto.log.lh (s.proto.phase p)) todo (s.vars p))
    (none : unpins todo = 0) : Inv (s.setTodo p todo) := by
  constructor
  case cache => exact inv.cache
  case script =>
    intro q
    have script := inv.script q
    by_cases eq : q = p
    · rw [eq, free.1] at script
      rw [eq, setTodo_self]
      exact wf script
    rw [setTodo_of_ne s todo eq]
    exact script
  case idle => exact inv.idle
  case progress =>
    intro q pc (at' : s.proto.phase q = .commit pc)
    have ne : q ≠ p := by
      rintro rfl
      have out := free.2
      rw [at'] at out
      cases out
    rw [setTodo_of_ne s todo ne]
    exact inv.progress q pc at'
  case quiet =>
    intro q out
    by_cases eq : q = p
    · rwa [eq, setTodo_self]
    rw [setTodo_of_ne s todo eq]
    exact inv.quiet q out

/-- A process that changes a buffer it has locked. -/
theorem Inv.write {v : Fin k} {h : Hold} (inv : Inv s) (free : s.Free p)
    (at' : s.cache.hold (p, .loc v) = some h) (stage : h.stage = .ready) (data : Block) :
    Inv { s with cache := s.cache.modify (p, .loc v) h data } := by
  constructor
  case cache => exact inv.cache.modify at' stage data
  case script =>
    intro q
    have script := inv.script q
    by_cases eq : q = p
    · rw [eq, free.1] at script
      rw [eq]
      show Wf _ (s.todo p) _
      rw [free.1, vars_update (s := s) rfl]
      exact script.nil_update
    rw [vars_update_of_ne (s := s) rfl eq]
    exact script
  case idle => exact inv.idle
  case progress => exact inv.progress
  case quiet => exact inv.quiet

variable {proto : Protocol.State Pid}

theorem Inv.logWrite {v : Fin k} {h : Hold} (inv : Inv s) (counted : Protocol.Counted s.proto)
    (free : s.Free p) (at' : s.cache.hold (p, .loc v) = some h) (stage : h.stage = .ready)
    (step : s.proto.step p (.logWrite h.blockno) = some (.ok proto)) :
    Inv { s with
      proto
      cache :=
        if s.proto.log.lh.find h.blockno = s.proto.log.lh.n then
          (s.cache.modify (p, .loc v) h (s.cache.buf h.buf).data).bpin h.buf
        else s.cache.modify (p, .loc v) h (s.cache.buf h.buf).data } := by
  have t := Protocol.Trans.of_step step
  obtain ⟨op, inside, phases, lh, committing⟩ : ∃ op, s.proto.phase p = .inOp op ∧
      proto.phase = s.proto.phase ∧ proto.log.lh = s.proto.log.lh.put h.blockno ∧
      proto.log.committing = s.proto.log.committing := by
    cases t with
    | logWrite inside ok =>
      obtain ⟨-, -, -, -, rfl⟩ := Log.logWrite_ok ok
      exact ⟨_, inside, rfl, rfl, rfl⟩
  have idle : s.proto.log.committing = false := by
    by_contra busy
    have out := counted.no_op (by simpa using busy) p
    rw [inside] at out
    cases out
  have nobody : ∀ q pc, s.proto.phase q ≠ .commit pc := by
    intro q pc busy
    have out := counted.no_commit idle q
    rw [busy] at out
    cases out
  have wrote := inv.write free at' stage (s.cache.buf h.buf).data
  have pinned : s.pinned = s.proto.log.lh.entries.toFinset := by
    rw [State.pinned, inv.idle idle]
    simp
  constructor
  case cache =>
    have now : State.pinned { s with proto } = (s.proto.log.lh.put h.blockno).entries.toFinset := by
      rw [State.pinned, lh, inv.idle idle]
      simp
    show Cache.Inv (State.pinned { s with proto }) _
    rw [now]
    have cache : Cache.Inv s.pinned (s.cache.modify (p, .loc v) h (s.cache.buf h.buf).data) :=
      wrote.cache
    split
    · rename_i new
      have absent := LogHeader.find_eq_n.mp new
      rw [LogHeader.entries_put_of_not_mem absent, List.toFinset_append]
      have union : s.proto.log.lh.entries.toFinset ∪ [h.blockno].toFinset =
          insert h.blockno s.pinned := by
        rw [pinned]
        ext b
        simp
      rw [union]
      refine cache.bpin (x := (p, .loc v)) (h := { h with clean := false }) ?_ stage rfl ?_
      · exact upd_self ..
      rw [pinned, List.mem_toFinset]
      exact absent
    rename_i old
    have known : h.blockno ∈ s.proto.log.lh.entries := by
      by_contra absent
      exact old (LogHeader.find_eq_n.mpr absent)
    rw [LogHeader.put_of_mem known, ← pinned]
    exact cache
  case script =>
    intro q
    have script := wrote.script q
    have same : home proto.log.lh (proto.phase q) = home s.proto.log.lh (s.proto.phase q) := by
      rw [phases]
      cases phase : s.proto.phase q with
      | commit pc => exact absurd phase (nobody q pc)
      | _ => rfl
    show Wf (home proto.log.lh (proto.phase q)) (s.todo q) _
    rw [same]
    split
    · exact script
    exact script
  case idle => exact fun _ => inv.idle idle
  case progress =>
    intro q pc busy
    rw [phases] at busy
    exact absurd busy (nobody q pc)
  case quiet =>
    intro q out
    rw [phases] at out
    exact inv.quiet q out

variable {action : Protocol.Action}

theorem Inv.of_proto {todo : List (Instr k)} {unpinned : List Nat} (inv : Inv s)
    (t : Protocol.Trans s.proto p action proto)
    (pinned : proto.log.lh.entries.toFinset \ unpinned.toFinset = s.pinned)
    (script : Wf (home proto.log.lh (proto.phase p)) todo (s.vars p))
    (others : ∀ q pc, q ≠ p → s.proto.phase q = .commit pc → proto.log.lh = s.proto.log.lh ∧
      unpinned = s.unpinned)
    (idle : proto.log.committing = false → unpinned = [])
    (progress : ∀ pc, proto.phase p = .commit pc → Dropped proto.log.lh pc (unpins todo) unpinned)
    (quiet : (proto.phase p).isCommit = false → unpins todo = 0) :
    Inv { s.setTodo p todo with proto, unpinned } := by
  have commits : ∀ q pc, q ≠ p → proto.phase q = .commit pc → s.proto.phase q = .commit pc := by
    intro q pc ne busy
    rcases t.phase_of_ne ne with same | ⟨-, trying⟩
    · exact same ▸ busy
    cases trying.symm.trans busy
  constructor
  case cache =>
    show Cache.Inv (proto.log.lh.entries.toFinset \ unpinned.toFinset) s.cache
    rw [pinned]
    exact inv.cache
  case script =>
    intro q
    show Wf _ ((s.setTodo p todo).todo q) (s.vars q)
    by_cases eq : q = p
    · rw [eq, setTodo_self]
      exact script
    rw [setTodo_of_ne s todo eq]
    have before := inv.script q
    cases phase : proto.phase q with
    | commit pc =>
      have busy := commits q pc eq phase
      rw [(others q pc eq busy).1, ← busy]
      exact before
    | _ =>
      have out : (s.proto.phase q).isCommit = false :=
        (congrArg Prod.snd (t.kind_of_ne eq)).symm.trans (by rw [phase]; rfl)
      cases was : s.proto.phase q with
      | commit pc =>
        rw [was] at out
        cases out
      | _ =>
        rw [was] at before
        exact before
  case idle => exact idle
  case progress =>
    intro q pc busy
    show Dropped proto.log.lh pc (unpins ((s.setTodo p todo).todo q)) unpinned
    by_cases eq : q = p
    · rw [eq] at busy ⊢
      rw [setTodo_self]
      exact progress pc busy
    have before := commits q pc eq busy
    obtain ⟨lh, same⟩ := others q pc eq before
    rw [setTodo_of_ne s todo eq, lh, same]
    exact inv.progress q pc before
  case quiet =>
    intro q out
    show unpins ((s.setTodo p todo).todo q) = 0
    by_cases eq : q = p
    · rw [eq] at out ⊢
      rw [setTodo_self]
      exact quiet out
    rw [setTodo_of_ne s todo eq]
    exact inv.quiet q ((congrArg Prod.snd (t.kind_of_ne eq)).symm.trans out)

theorem Inv.commitStep {pc : CommitPc} (inv : Inv s) (counted : Protocol.Counted s.proto)
    (free : s.todo p = []) (at' : s.proto.phase p = .commit pc) :
    Inv { s.setTodo p (commitCalls s.proto.log pc) with
      proto := s.proto.commitStep p pc
      unpinned := if pc = .clear then [] else s.unpinned } := by
  have t := Protocol.Trans.commit at'
  have others : ∀ q pc', q ≠ p → s.proto.phase q ≠ .commit pc' := by
    intro q pc' ne busy
    exact ne (counted.one q p (by rw [busy]; rfl) (by rw [at']; rfl))
  have vars : s.vars p .logBuf = none ∧ s.vars p .homeBuf = none := by
    have script := inv.script p
    rwa [free] at script
  have now := inv.progress p pc at'
  rw [free] at now
  have working : s.proto.log.committing = true := counted.flag.mpr ⟨p, by rw [at']; rfl⟩
  -- what is left to show at a place that does not clear the header
  have next : ∀ pc', (s.proto.commitStep p pc).phase p = .commit pc' → pc ≠ .clear →
      (s.proto.commitStep p pc).log = s.proto.log →
      Wf (home s.proto.log.lh (.commit pc')) (commitCalls s.proto.log pc) (s.vars p) →
      Dropped s.proto.log.lh pc' (unpins (commitCalls (k := k) s.proto.log pc)) s.unpinned →
      Inv { s.setTodo p (commitCalls s.proto.log pc) with
        proto := s.proto.commitStep p pc
        unpinned := if pc = .clear then [] else s.unpinned } := by
    intro pc' phase goes log script dropped
    rw [if_neg goes]
    refine inv.of_proto t ?_ ?_ ?_ ?_ ?_ ?_
    · rw [log]
      rfl
    · rw [log, phase]
      exact script
    · exact fun q pc' ne busy => absurd busy (others q pc' ne)
    · rw [log, working]
      simp
    · intro pc'' busy
      cases phase.symm.trans busy
      rw [log]
      exact dropped
    rw [phase]
    intros; contradiction
  cases pc with
  | test =>
    have phase := s.proto.setPhase_phase_self p (.commit (if 0 < s.proto.log.lh.n then .writeLog 0 else .finish))
    refine next _ phase (by simp) rfl vars ?_
    split
    · exact ⟨now.1, now.2, zero_le⟩
    exact ⟨now.1, now.2, by omega⟩
  | writeLog tail =>
    by_cases more : tail < s.proto.log.lh.n
    · have phase : (s.proto.commitStep p (.writeLog tail)).phase p =
          .commit (.writeLog (tail + 1)) := by
        rw [Protocol.State.commitStep, if_pos more]
        exact s.proto.setPhase_phase_self p _
      have log : (s.proto.commitStep p (.writeLog tail)).log = s.proto.log := by
        rw [Protocol.State.commitStep, if_pos more]
        rfl
      have calls : commitCalls (k := k) s.proto.log (.writeLog tail) =
        writeLogRound s.proto.log tail := if_pos more
      refine next _ phase (by simp) log ?_ ?_
      · rw [calls]
        exact wf_writeLogRound s.proto.log tail vars
      rw [calls]
      exact ⟨now.1, now.2.1, more⟩
    have phase : (s.proto.commitStep p (.writeLog tail)).phase p = .commit .writeHead := by
      rw [Protocol.State.commitStep, if_neg more]
      exact s.proto.setPhase_phase_self p _
    have log : (s.proto.commitStep p (.writeLog tail)).log = s.proto.log := by
      rw [Protocol.State.commitStep, if_neg more]
      rfl
    have calls : commitCalls (k := k) s.proto.log (.writeLog tail) = [] := if_neg more
    refine next _ phase (by simp) log ?_ ?_
    · rw [calls]
      exact vars
    rw [calls]
    exact ⟨now.1, now.2.1⟩
  | writeHead =>
    refine next _ (s.proto.setPhase_phase_self p _) (by simp) rfl (wf_writeHead _ vars) ?_
    exact ⟨zero_le, zero_le, zero_le, now.2⟩
  | install tail =>
    obtain ⟨-, -, high, unpinned⟩ := now
    have phase := s.proto.setPhase_phase_self p
      (.commit (if tail < s.proto.log.lh.n then .install (tail + 1) else .clear))
    refine next _ phase (by simp) rfl ?_ ?_
    · by_cases more : tail < s.proto.log.lh.n
      · rw [commitCalls, if_pos more, if_pos more]
        exact wf_installRound s.proto.log tail vars
      rw [commitCalls, if_neg more, if_neg more]
      exact vars
    by_cases more : tail < s.proto.log.lh.n
    · rw [commitCalls, if_pos more, if_pos more]
      exact ⟨le_rfl, Nat.succ_le_succ zero_le, more, unpinned⟩
    rw [commitCalls, if_neg more, if_neg more]
    refine ⟨rfl, unpinned.trans (List.take_of_length_le ?_)⟩
    rw [LogHeader.length_entries]
    show _ ≤ tail - 0
    omega
  | clear =>
    rw [if_pos rfl]
    refine inv.of_proto t ?_ vars ?_ ?_ ?_ ?_
    · rw [State.pinned, now.2, Finset.sdiff_self]
      rfl
    · exact fun q pc' ne busy => absurd busy (others q pc' ne)
    · exact fun _ => rfl
    · intro pc' busy
      cases (s.proto.setPhase_phase_self p (.commit .eraseHead)).symm.trans busy
      exact ⟨rfl, rfl, rfl⟩
    exact fun _ => rfl
  | eraseHead => exact next _ (s.proto.setPhase_phase_self p _) (by simp) rfl (wf_writeHead _ vars) now
  | finish =>
    rw [if_neg (by simp)]
    refine inv.of_proto t rfl vars ?_ ?_ ?_ ?_
    · exact fun q pc' ne busy => absurd busy (others q pc' ne)
    · exact fun _ => now.2.1
    · intro pc' busy
      have out := (counted.step t).no_commit rfl p
      rw [busy] at out
      cases out
    exact fun _ => rfl

theorem calls_of_not_commit (out : (s.proto.phase p).isCommit = false) : s.calls p action = [] := by
  unfold State.calls
  split
  · split
    · rename_i busy
      rw [busy] at out
      cases out
    rfl
  rfl

theorem Inv.callStep (inv : Inv s) (counted : Protocol.Counted s.proto)
    (other : action.isLogWrite = false) (free : s.todo p = [])
    (out : (s.proto.phase p).isCommit = false) (t : Protocol.Trans s.proto p action proto) :
    Inv { s.setTodo p [] with proto, unpinned := s.unpinned } := by
  have lh : proto.log.lh = s.proto.log.lh := by
    rcases t.header with same | ⟨b, op, rfl, -⟩ | ⟨-, busy, -⟩
    · exact same
    · cases other
    rw [busy] at out
    cases out
  have vars : Wf (home proto.log.lh (proto.phase p)) [] (s.vars p) := by
    have script := inv.script p
    rw [free] at script
    exact script
  refine inv.of_proto t (by rw [lh]; rfl) vars (fun _ _ _ _ => ⟨lh, rfl⟩) ?_ ?_ (fun _ => rfl)
  · intro idle
    rcases t.counters with ⟨-, -, same⟩ | ⟨-, -, -, idle, -⟩ | ⟨-, -, idle, -⟩ | ⟨busy, -⟩
    · exact inv.idle (same ▸ idle)
    · exact inv.idle idle
    · exact inv.idle idle
    cases out.symm.trans (congrArg Prod.snd busy)
  intro pc busy
  cases t with
  | last at' ok =>
    obtain ⟨idle, -, rfl⟩ := Log.endOp_ok ok
    cases (s.proto.setPhase_phase_self p (.commit .test)).symm.trans busy
    exact ⟨rfl, inv.idle idle⟩
  | commit at' =>
    rw [at'] at out
    cases out
  | call | sleep | kill | enter => cases (s.proto.setPhase_phase_self p _).symm.trans busy
  | logWrite => cases other
  | leave at' ok =>
    obtain ⟨idle, -, rfl⟩ := Log.endOp_ok ok
    have quiet := (counted.step (.leave at' ok)).no_commit rfl p
    rw [busy] at quiet
    cases quiet

theorem Inv.step (inv : Inv s) (counted : Protocol.Counted s.proto)
    (nodup : s.proto.log.lh.entries.Nodup) (t : Trans s p s') : Inv s' := by
  cases t with
  | run todo exec => exact inv.run counted nodup todo exec
  | bread free empty =>
    refine inv.setTodo free (fun wf => ?_) rfl
    exact Wf.bread [] empty fun i => wf.nil_update
  | write free at' stage => exact inv.write free at' stage _
  | logWrite free at' stage step => exact inv.logWrite counted free at' stage step
  | brelse free at' stage =>
    refine inv.setTodo free (fun wf => ?_) rfl
    exact Wf.brelse [] at' stage wf.nil_update
  | proto other free step =>
    have t := Protocol.Trans.of_step step
    by_cases busy : (s.proto.phase p).isCommit = true
    · obtain ⟨pc, phase⟩ := Protocol.Phase.isCommit_iff.mp busy
      cases t with
      | @commit pc' at' =>
        have moved := inv.commitStep counted free at'
        have calls : s.calls p .commit = commitCalls s.proto.log pc' := by rw [State.calls, at']
        simpa only [calls, at', Phase.commit.injEq] using moved
      | call at' | sleep at' | kill at' | enter at' | logWrite at' | leave at' | last at' =>
        cases phase.symm.trans at'
    have out : (s.proto.phase p).isCommit = false := by simpa using busy
    have goes : s.proto.phase p ≠ .commit .clear := fun clear => busy (by rw [clear]; rfl)
    rw [calls_of_not_commit out, if_neg goes]
    exact inv.callStep counted other free out t

theorem Reachable.inv {start size : Nat} {block : Nat → Nat} (r : Reachable start size block s) :
    Inv s := by
  induction r with
  | init booted => exact .of_booted booted
  | step before step ih => exact ih.step before.proto.counted before.proto.nodup (.of_step step)

end Inv

/-! ## Uncommitted updates stay in the cache -/

theorem Exec.block_eq {s t : State Pid k} {p : Pid} {i : Instr k} (e : Exec s p i t)
    {j : Fin NBUF} (used : (s.cache.buf j).refcnt ≠ 0) : t.cache.block j = s.cache.block j := by
  cases e with
  | bget free ok => exact Cache.bget_block ok used
  | acquire at' stage ok => exact Cache.acquire_block ok j
  | fill at' stage => exact Cache.fill_block _ _ _ j
  | copy from' full at' stage | fillHead at' stage | bunpin at' stage | drop at' stage =>
    exact Cache.block_update rfl (by rfl) j
  | bwrite at' stage ok => exact Cache.bwrite_block ok j
  | release at' stage ok => exact Cache.release_block ok j

theorem Trans.block_eq {s s' : State Pid k} {p : Pid} (t : Trans s p s') {j : Fin NBUF}
    (used : (s.cache.buf j).refcnt ≠ 0) : s'.cache.block j = s.cache.block j := by
  cases t with
  | run todo exec => exact exec.block_eq used
  | bread => rfl
  | brelse => rfl
  | proto => rfl
  | write => exact Cache.block_update rfl (by rfl) j
  | @logWrite v h proto free at' stage step =>
    have wrote : Cache.block (s.cache.modify (p, .loc v) h (s.cache.buf h.buf).data) j =
        s.cache.block j := Cache.block_update rfl (by rfl) j
    show Cache.block (if _ then _ else _) j = _
    split
    · exact (Cache.block_update rfl (by rfl) j).trans wrote
    exact wrote

section Main

variable [Fintype Pid] {start size : Nat} {block : Nat → Nat} {s : State Pid k}

theorem Inv.exists_buf (inv : Inv s) {b : Nat} (logged : b ∈ s.proto.log.lh.entries)
    (pinned : b ∉ s.unpinned) :
    ∃ i, s.cache.block i = (ROOTDEV, b) ∧ (∀ j, s.cache.block j = (ROOTDEV, b) → j = i) ∧
      (s.cache.buf i).valid = true ∧ (s.cache.buf i).refcnt = (s.cache.holders i).card + 1 := by
  have mem : b ∈ s.pinned := by
    rw [State.pinned, Finset.mem_sdiff, List.mem_toFinset, List.mem_toFinset]
    exact ⟨logged, pinned⟩
  obtain ⟨i, dev, name, valid⟩ := inv.cache.present b mem
  refine ⟨i, Prod.ext dev name, ?_, valid, ?_⟩
  · intro j other
    obtain ⟨devJ, nameJ⟩ := Prod.mk.inj other
    exact inv.cache.unique j i devJ dev (nameJ.trans name.symm)
  have pin : Cache.Pinned s.pinned (s.cache.buf i) := ⟨dev, name ▸ mem⟩
  rw [inv.cache.count i, Cache.pin, if_pos pin]

theorem Inv.copies_last (inv : Inv s) {p : Pid} {tail : Nat} {rest : List (Instr k)}
    (phase : s.proto.phase p = .commit (.writeLog (tail + 1)))
    (todo : s.todo p = .copy .homeBuf .logBuf :: rest) :
    ∃ h, s.cache.hold (p, .homeBuf) = some h ∧ h.blockno = s.proto.log.lh.block tail ∧
      (s.cache.buf h.buf).data = s.cache.last (s.proto.log.lh.block tail) := by
  have script := inv.script p
  rw [todo, phase] at script
  obtain ⟨h, -, at', ready, clean, name, -⟩ := script
  have name : h.blockno = s.proto.log.lh.block tail := name rfl
  obtain ⟨-, unpinned, bound⟩ := inv.progress p _ phase
  have logged : h.blockno ∈ s.proto.log.lh.entries := by
    rw [name]
    exact LogHeader.mem_entries.mpr ⟨tail, bound, rfl⟩
  obtain ⟨dev, blockno⟩ := inv.cache.names (p, .homeBuf) h at'
  have pin : Cache.Pinned s.pinned (s.cache.buf h.buf) := by
    refine ⟨dev, ?_⟩
    rw [blockno, State.pinned, unpinned]
    simpa using logged
  have kept := inv.cache.kept (p, .homeBuf) h at' (by rw [ready]; rfl) clean pin
  rw [blockno, name] at kept
  exact ⟨h, at', name, kept⟩

theorem Dropped.isPrefix {lh : LogHeader} {pc : CommitPc} {n : Nat} {unpinned : List Nat}
    (d : Dropped lh pc n unpinned) : unpinned <+: lh.entries := by
  cases pc with
  | install tail =>
    rw [d.2.2.2]
    exact List.take_prefix _ _
  | clear => rw [d.2]
  | test => exact d.2 ▸ List.nil_prefix
  | writeHead => exact d.2 ▸ List.nil_prefix
  | writeLog tail | eraseHead | finish => exact d.2.1 ▸ List.nil_prefix

theorem Inv.no_pin (inv : Inv s) (empty : s.proto.log.lh.n = 0) (i : Fin NBUF) :
    (s.cache.buf i).refcnt = (s.cache.holders i).card := by
  have none : ¬Cache.Pinned s.pinned (s.cache.buf i) := by
    intro pin
    have logged := (Finset.mem_sdiff.mp pin.2).1
    rw [List.mem_toFinset, LogHeader.mem_entries, empty] at logged
    obtain ⟨_, low, -⟩ := logged
    omega
  rw [inv.cache.count i, Cache.pin, if_neg none, add_zero]

/-- Until `install_trans` has dropped its pin, a logged block has one valid buffer,
referred to once more than by its holders, that no step gives to another block;
`write_log` copies what its last holder left in it. The pins are dropped in the
order of the header, each once, and all of them before the header is cleared. -/
theorem pinned_until_installed (r : Reachable start size block s) :
    s.proto.log.lh.entries.Nodup ∧ (∀ b ∈ s.proto.log.lh.entries, b ∉ s.unpinned →
        ∃ i, s.cache.block i = (ROOTDEV, b) ∧ (∀ j, s.cache.block j = (ROOTDEV, b) → j = i) ∧
          (s.cache.buf i).valid = true ∧
          (s.cache.buf i).refcnt = (s.cache.holders i).card + 1 ∧
          ∀ p action s', s.step p action = some (.ok s') → s'.cache.block i = (ROOTDEV, b)) ∧
      (∀ p tail rest, s.proto.phase p = .commit (.writeLog (tail + 1)) →
        s.todo p = .copy .homeBuf .logBuf :: rest →
        ∃ h, s.cache.hold (p, .homeBuf) = some h ∧ h.blockno = s.proto.log.lh.block tail ∧
          (s.cache.buf h.buf).data = s.cache.last (s.proto.log.lh.block tail)) ∧
      (s.proto.log.committing = false → s.unpinned = []) ∧
      (∀ p pc, s.proto.phase p = .commit pc →
        s.unpinned <+: s.proto.log.lh.entries ∧
        (pc = .test ∨ pc = .writeHead ∨ (∃ tail, pc = .writeLog tail) → s.unpinned = []) ∧
        (pc = .clear → s.unpinned = s.proto.log.lh.entries) ∧
        (pc = .finish → s.proto.log.lh.n = 0 ∧
          ∀ i, (s.cache.buf i).refcnt = (s.cache.holders i).card)) := by
  have inv := r.inv
  refine ⟨r.proto.nodup, ?_, fun p tail rest => inv.copies_last, inv.idle, ?_⟩
  · intro b logged pinned
    obtain ⟨i, at', only, valid, count⟩ := inv.exists_buf logged pinned
    refine ⟨i, at', only, valid, count, fun p action s' step => ?_⟩
    rw [(Trans.of_step step).block_eq (by omega), at']
  intro p pc phase
  have progress := inv.progress p pc phase
  refine ⟨progress.isPrefix, ?_, ?_, ?_⟩
  · rintro (rfl | rfl | ⟨tail, rfl⟩)
    · exact progress.2
    · exact progress.2
    exact progress.2.1
  · rintro rfl
    exact progress.2
  rintro rfl
  exact ⟨progress.2.2, inv.no_pin progress.2.2⟩

end Main

/-! ## A run -/

/-- A schedule, run until a step is impossible or panics. -/
def State.runAll (s : State Pid k) : List (Pid × Action k) → Option (State Pid k)
  | [] => some s
  | (p, action) :: rest =>
    match s.step p action with
    | some (.ok s') => s'.runAll rest
    | _ => none

theorem Reachable.runAll {start size : Nat} {block : Nat → Nat} {s s' : State Pid k}
    {schedule : List (Pid × Action k)} (r : Reachable start size block s)
    (ran : s.runAll schedule = some s') : Reachable start size block s' := by
  induction schedule generalizing s with
  | nil =>
    cases ran
    exact r
  | cons head rest ih =>
    unfold State.runAll at ran
    split at ran
    · rename_i stepped
      exact ih (r.step stepped) ran
    cases ran

/-- The system after `binit` and `initlog` on an empty disk. -/
def boot (Pid : Type) (k : Nat) : State Pid k where
  proto := Protocol.init Pid 2 LOGSIZE fun _ => 0
  cache :=
    { buf _ := ⟨false, 0, 0, 0, none, Bytes.zero⟩
      lru := (List.finRange NBUF).reverse
      disk _ := Bytes.zero
      hold _ := none
      last _ := Bytes.zero }
  todo _ := []
  unpinned := []

theorem boot_booted : Booted 2 LOGSIZE (fun _ => 0) (boot Pid k) where
  proto := rfl
  listed i := by simp [boot]
  unique _ _ dev := nomatch dev
  unused _ := rfl
  hold _ := rfl
  todo _ := rfl
  unpinned := rfl

local instance one : NeZero 1 := ⟨by decide⟩

def toCopy : List (Fin 1 × Action 1) :=
  [.proto .call, .proto .begin, .bread 0 70, .run, .run, .run, .logWrite 0, .brelse 0, .run, .run,
    .proto .endOp, .proto .commit, .proto .commit, .run, .run, .run, .run, .run, .run].map (0, ·)

/-- From there up to the first `bunpin` of `install_trans`. -/
def toUnpin : List (Fin 1 × Action 1) :=
  [.run, .run, .run, .run, .run, .run, .proto .commit, .proto .commit, .run, .run, .run, .run,
    .run, .run, .run, .proto .commit, .run, .run, .run, .run, .run, .run, .run, .run, .run].map (0, ·)

theorem toCopy_pinned :
    ∃ s : State (Fin 1) 1, Reachable 2 LOGSIZE (fun _ => 0) s ∧ (∃ i, s.cache.block i = (ROOTDEV, 70) ∧
        (s.cache.buf i).refcnt = (s.cache.holders i).card + 1) ∧
      ∃ h, s.cache.hold (0, .homeBuf) = some h ∧ (s.cache.buf h.buf).data = s.cache.last 70 := by
  have ran : ((boot (Fin 1) 1).runAll toCopy).map
      (fun s => (s.proto.phase 0, s.todo 0, s.proto.log.lh.n, s.proto.log.lh.block 0, s.unpinned)) =
        some (.commit (.writeLog 1), .copy .homeBuf .logBuf :: .bwrite .logBuf ::
          (brelse .homeBuf ++ brelse .logBuf), 1, 70, []) := by decide +kernel
  obtain ⟨s, run, shown⟩ := Option.map_eq_some_iff.mp ran
  simp only [Prod.mk.injEq] at shown
  obtain ⟨phase, todo, n, block, unpinned⟩ := shown
  have reachable : Reachable 2 LOGSIZE (fun _ => 0) s := (Reachable.init boot_booted).runAll run
  obtain ⟨-, pinned, copies, -⟩ := pinned_until_installed reachable
  have logged : 70 ∈ s.proto.log.lh.entries := LogHeader.mem_entries.mpr ⟨0, by omega, block⟩
  obtain ⟨i, at', -, -, count, -⟩ := pinned 70 logged (by rw [unpinned]; exact List.not_mem_nil)
  obtain ⟨h, hold, -, last⟩ := copies 0 0 _ phase todo
  rw [block] at last
  exact ⟨s, reachable, ⟨i, at', count⟩, h, hold, last⟩

/-- Right after its `bunpin` a block is still in the header and no longer pinned. -/
theorem toUnpin_not_pinned :
    ∃ s : State (Fin 1) 1, Reachable 2 LOGSIZE (fun _ => 0) s ∧ 70 ∈ s.proto.log.lh.entries ∧
      ∀ i, s.cache.block i = (ROOTDEV, 70) → (s.cache.buf i).refcnt = (s.cache.holders i).card := by
  have ran : ((boot (Fin 1) 1).runAll (toCopy ++ toUnpin)).map
      (fun s => decide (70 ∈ s.proto.log.lh.entries ∧ ∀ i, s.cache.block i = (ROOTDEV, 70) →
        (s.cache.buf i).refcnt = (s.cache.holders i).card)) = some true := by decide +kernel
  obtain ⟨s, run, shown⟩ := Option.map_eq_some_iff.mp ran
  obtain ⟨logged, free⟩ := of_decide_eq_true shown
  exact ⟨s, (Reachable.init boot_booted).runAll run, logged, free⟩

end Xv6.Pins
