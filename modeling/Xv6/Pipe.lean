import Xv6.Lib.Ring
import Xv6.Monitor.Calls

/-!
# Pipes

`pipewrite`, `piperead` and `pipeclose` of `kernel/pipe.c`, by any processes on one pipe. The pipe
carries the history of the bytes that went in and came out, each with the call that moved it; the
code does not look at it.
-/

namespace Xv6.Pipe

open List (length_append length_singleton replicate)
open Function (update_self update_of_ne)
open Monitor

set_option linter.unusedSectionVars false

def PIPESIZE : Nat := 512

/-- `struct pipe`, with the bytes put and taken so far. -/
structure Ring (P : Type) where
  data : Nat → UInt8
  nread : UInt32
  nwrite : UInt32
  readopen : Bool
  writeopen : Bool
  put : List (Tag P × UInt8)
  taken : List (Tag P × UInt8)

inductive Chan
  | nread
  | nwrite
  deriving DecidableEq

/-- The calls on a pipe. `src` is what `copyin` finds at `addr + i`, nothing where the page is not
mapped, and `dst` says where `copyout` finds a page. -/
inductive Call
  | write (src : Nat → Option UInt8) (n : Int)
  | read (dst : Nat → Bool) (n : Int)
  | close (writable : Bool)

structure Done where
  call : Call
  result : Int

/-- In `pipewrite`: the head of the loop, after the test for `killed`, before `sleep`, before the
`release` at the end, and before the one of a process that was killed. -/
inductive WriteAt
  | loop
  | test
  | sleep
  | done
  | quit

/-- In `piperead`: the head of the loop, before `sleep`, in the loop that copies, after it, before
the `release` at the end, and before the one of a process that was killed. -/
inductive ReadAt
  | loop
  | sleep
  | copy
  | wake
  | done
  | quit

/-- In `pipeclose`: the assignment, `wakeup` and `release`. -/
inductive CloseAt
  | clear
  | wake
  | done

/-- The locations in the code. `told` says whether the readers were woken after the last byte that
this call put. -/
inductive At (P : Type)
  | write (f : Activation P Done) (src : Nat → Option UInt8) (n : Int) (pc : WriteAt) (i : Nat)
      (told : Bool)
  | read (f : Activation P Done) (dst : Nat → Bool) (n : Int) (pc : ReadAt) (i : Nat)
  | close (f : Activation P Done) (writable : Bool) (pc : CloseAt)

namespace At

variable {P : Type}

def frame : At P → Activation P Done
  | write f _ _ _ _ _ | read f _ _ _ _ | close f _ _ => f

def call : At P → Call
  | write _ src n _ _ _ => .write src n
  | read _ dst n _ _ => .read dst n
  | close _ writable _ => .close writable

end At

variable {P : Type}

/-- `release(&pi->lock)` and return. -/
def ret (l : At P) (result : Int) : Act (Ring P) Chan (At P) (List Done) :=
  .release (l.frame.past ++ [⟨l.call, result⟩])

namespace Ring

/-- The pipe that `pipealloc` makes in a page that it got. -/
def pipealloc (page : Nat → UInt8) : Ring P := ⟨page, 0, 0, true, true, [], []⟩

/-- `pi->data[pi->nwrite++ % PIPESIZE] = ch` -/
def push (d : Ring P) (tag : Tag P) (ch : UInt8) : Ring P :=
  { d with
    data := Function.update d.data (d.nwrite.toNat % PIPESIZE) ch
    nwrite := d.nwrite + 1
    put := d.put ++ [(tag, ch)] }

/-- `ch = pi->data[pi->nread++ % PIPESIZE]` -/
def pop (d : Ring P) (tag : Tag P) : Ring P :=
  { d with
    nread := d.nread + 1
    taken := d.taken ++ [(tag, d.data (d.nread.toNat % PIPESIZE))] }

def full (d : Ring P) : Bool := d.nwrite == d.nread + UInt32.ofNat PIPESIZE

def empty (d : Ring P) : Bool := d.nread == d.nwrite

end Ring

def pipewrite (f : Activation P Done) (src : Nat → Option UInt8) (n : Int) (i : Nat) (told : Bool) (d : Ring P) :
    WriteAt → Act (Ring P) Chan (At P) (List Done)
  | .loop =>
    if (i : Int) < n then
      if d.readopen = false then ret (.write f src n .loop i told) (-1)
      else .killed (.write f src n .quit i told) (.write f src n .test i told)
    else .wakeup .nread (.write f src n .done i true)
  | .test =>
    if d.full then .wakeup .nread (.write f src n .sleep i true)
    else
      match src i with
      | none => .wakeup .nread (.write f src n .done i true)
      | some ch => .set (d.push f.tag ch) (.write f src n .loop (i + 1) false)
  | .sleep => .sleep .nwrite (.write f src n .loop i told)
  | .done => ret (.write f src n .done i told) i
  | .quit => ret (.write f src n .quit i told) (-1)

/-- The body of the loop that copies, at byte `i`. -/
def pipecopy (f : Activation P Done) (dst : Nat → Bool) (n : Int) (i : Nat) (d : Ring P) :
    Act (Ring P) Chan (At P) (List Done) :=
  if (i : Int) < n ∧ d.empty = false then
    .set (d.pop f.tag) (if dst i then .read f dst n .copy (i + 1) else .read f dst n .wake i)
  else .wakeup .nwrite (.read f dst n .done i)

def piperead (f : Activation P Done) (dst : Nat → Bool) (n : Int) (i : Nat) (d : Ring P) :
    ReadAt → Act (Ring P) Chan (At P) (List Done)
  | .loop =>
    if d.empty ∧ d.writeopen then .killed (.read f dst n .quit i) (.read f dst n .sleep i)
    else pipecopy f dst n i d
  | .sleep => .sleep .nread (.read f dst n .loop i)
  | .copy => pipecopy f dst n i d
  | .wake => .wakeup .nwrite (.read f dst n .done i)
  | .done => ret (.read f dst n .done i) i
  | .quit => ret (.read f dst n .quit i) (-1)

/-- `kfree` of a pipe that is closed at both ends is left out: nobody has it any more. -/
def pipeclose (f : Activation P Done) (writable : Bool) (d : Ring P) : CloseAt → Act (Ring P) Chan (At P) (List Done)
  | .clear =>
    .set (if writable then { d with writeopen := false } else { d with readopen := false }) (.close f writable .wake)
  | .wake => .wakeup (if writable then .nread else .nwrite) (.close f writable .done)
  | .done => ret (.close f writable .done) 0

def body : At P → Ring P → Act (Ring P) Chan (At P) (List Done)
  | .write f src n pc i told, d => pipewrite f src n i told d pc
  | .read f dst n pc i, d => piperead f dst n i d pc
  | .close f writable pc, d => pipeclose f writable d pc

def entry (p : P) (past : List Done) : Call → Option (At P)
  | .write src n => some (.write ⟨p, past⟩ src n .loop 0 true)
  | .read dst n => some (.read ⟨p, past⟩ dst n .loop 0)
  | .close writable => some (.close ⟨p, past⟩ writable .clear)

def code : Code P (Ring P) Chan (At P) (List Done) Call where
  entry := entry
  body := body

/-- The steps of any processes on one pipe, of which every one is allowed. -/
abbrev Reachable [DecidableEq P] (table : List P) (page : Nat → UInt8)
    (allow : State P (Ring P) Chan (At P) (List Done) → Action P Call → Prop) :
    State P (Ring P) Chan (At P) (List Done) → Prop :=
  State.Reachable code table (fun _ => []) (.pipealloc page) allow

/-! ## The buffer -/

namespace Ring

def bytes (moves : List (Tag P × UInt8)) : List UInt8 := moves.map Prod.snd

theorem length_bytes (moves : List (Tag P × UInt8)) : (bytes moves).length = moves.length := List.length_map ..

theorem bytes_concat (moves : List (Tag P × UInt8)) (tag : Tag P) (ch : UInt8) :
    bytes (moves ++ [(tag, ch)]) = bytes moves ++ [ch] := List.map_append ..

/-- The pipe holds, in order, what was put and not yet taken. -/
structure Fifo (d : Ring P) : Prop where
  nread : Xv6.Ring.Counts d.nread d.taken.length
  nwrite : Xv6.Ring.Counts d.nwrite d.put.length
  room : d.put.length ≤ d.taken.length + PIPESIZE
  cells : Xv6.Ring.Holds PIPESIZE d.data (bytes d.put) d.taken.length
  order : bytes d.taken <+: bytes d.put

namespace Fifo

variable {d : Ring P}

theorem le (fifo : Fifo d) : d.taken.length ≤ d.put.length := by
  rw [← length_bytes, ← length_bytes]
  exact fifo.order.length_le

theorem PIPESIZE_dvd : PIPESIZE ∣ 2 ^ 32 := by decide

section

variable (fifo : Fifo d)
include fifo

theorem full_iff : d.full = true ↔ d.put.length = d.taken.length + PIPESIZE := by
  have le := fifo.le
  have room := fifo.room
  rw [full, beq_iff_eq]
  simp only [PIPESIZE] at room ⊢
  rw [fifo.nwrite.eq_iff (fifo.nread.add 512) room (by omega)]

theorem empty_iff : d.empty = true ↔ d.taken.length = d.put.length := by
  have room := fifo.room
  simp only [PIPESIZE] at room
  rw [empty, beq_iff_eq]
  exact fifo.nread.eq_iff fifo.nwrite fifo.le (by omega)

/-- The difference of the counters is the number of bytes in the pipe. -/
theorem count : (d.nwrite - d.nread).toNat = d.put.length - d.taken.length := by
  have room := fifo.room
  simp only [PIPESIZE] at room
  exact fifo.nread.sub fifo.nwrite fifo.le (by omega)

theorem push (room : d.full = false) (tag : Tag P) (ch : UInt8) : Fifo (d.push tag ch) := by
  have below : d.put.length < d.taken.length + PIPESIZE := by
    refine lt_of_le_of_ne fifo.room fun eq => ?_
    rw [fifo.full_iff.mpr eq] at room
    cases room
  refine ⟨fifo.nread, ?_, ?_, ?_, ?_⟩
  · simp only [Ring.push, length_append, length_singleton]
    exact fifo.nwrite.succ
  · simp only [Ring.push, length_append, length_singleton]
    exact below
  · simp only [Ring.push]
    rw [bytes_concat, fifo.nwrite.index PIPESIZE_dvd, ← length_bytes d.put]
    exact fifo.cells.push (by rw [length_bytes]; exact below)
  simp only [Ring.push]
  rw [bytes_concat]
  exact fifo.order.trans (List.prefix_append ..)

theorem pop (some : d.empty = false) (tag : Tag P) : Fifo (d.pop tag) := by
  have below : d.taken.length < d.put.length := by
    refine lt_of_le_of_ne fifo.le fun eq => ?_
    rw [fifo.empty_iff.mpr eq] at some
    cases some
  have room := fifo.room
  refine ⟨?_, fifo.nwrite, ?_, ?_, ?_⟩
  · simp only [Ring.pop, length_append, length_singleton]
    exact fifo.nread.succ
  · simp only [Ring.pop, length_append, length_singleton]
    omega
  · simp only [Ring.pop, length_append, length_singleton]
    exact fifo.cells.later (Nat.le_succ _)
  simp only [Ring.pop]
  rw [bytes_concat, fifo.nread.index PIPESIZE_dvd]
  refine Xv6.Ring.isPrefix_concat fifo.order ?_
  rw [length_bytes]
  exact fifo.cells.read (by rw [length_bytes]; exact below)

end

end Fifo

end Ring

/-! ## What a call moves -/

section Calls

variable [DecidableEq P]

/-- A call that returned a count moved that many bytes: `pipewrite` the first ones of its buffer. -/
def Done.Exact (d : Ring P) (tag : Tag P) (done : Done) : Prop :=
  0 ≤ done.result →
    match done.call with
    | .write src _ => (moved tag d.put).map some = (List.range done.result.toNat).map src
    | .read _ _ => ((moved tag d.taken).length : Int) = done.result
    | .close _ => True

/-- So does a call that is under way. -/
def At.Exact (d : Ring P) : At P → Prop
  | .write f src _ _ i _ => (moved f.tag d.put).map some = (List.range i).map src
  | .read f dst _ _ i => (∀ j, dst j = true) ∧ (moved f.tag d.taken).length = i
  | .close _ _ _ => True

/-- Only the call `tag` moved bytes. -/
def OnlyBy (tag : Tag P) (d d' : Ring P) : Prop :=
  ∀ other, other ≠ tag → moved other d'.put = moved other d.put ∧ moved other d'.taken = moved other d.taken

theorem OnlyBy.refl (tag : Tag P) (d : Ring P) : OnlyBy tag d d := fun _ _ => ⟨rfl, rfl⟩

theorem OnlyBy.push (tag : Tag P) (d : Ring P) (ch : UInt8) : OnlyBy tag d (d.push tag ch) :=
  fun _ ne => ⟨moved_concat_of_ne ne .., rfl⟩

theorem OnlyBy.pop (tag : Tag P) (d : Ring P) : OnlyBy tag d (d.pop tag) :=
  fun _ ne => ⟨rfl, moved_concat_of_ne ne ..⟩

theorem Done.Exact.only {tag other : Tag P} {d d' : Ring P} {done : Done} (h : done.Exact d other)
    (ne : other ≠ tag) (only : OnlyBy tag d d') : done.Exact d' other := by
  intro ok
  have before := h ok
  obtain ⟨put, taken⟩ := only other ne
  cases call : done.call with
  | write src n =>
    simp only [call] at before ⊢
    rw [put]
    exact before
  | read dst n =>
    simp only [call] at before ⊢
    rw [taken]
    exact before
  | close writable => trivial

theorem At.Exact.only {tag : Tag P} {d d' : Ring P} {l : At P} (h : l.Exact d)
    (ne : l.frame.tag ≠ tag) (only : OnlyBy tag d d') : l.Exact d' := by
  obtain ⟨put, taken⟩ := only l.frame.tag ne
  cases l with
  | write f src n pc i told =>
    rw [At.Exact]
    simp only [At.frame] at put
    rw [put]
    exact h
  | read f dst n pc i =>
    rw [At.Exact]
    simp only [At.frame] at taken
    rw [taken]
    exact h
  | close f writable pc => trivial

variable {n : Int} {i : Nat} {f : Activation P Done}

theorem At.Exact.push {src : Nat → Option UInt8} {pc : WriteAt} {told : Bool} {d : Ring P}
    {ch : UInt8} (h : At.Exact d (.write f src n pc i told)) (found : src i = some ch) :
    At.Exact (d.push f.tag ch) (.write f src n .loop (i + 1) false) := by
  rw [At.Exact] at h ⊢
  simp only [Ring.push, moved_concat_self, List.map_append, List.range_succ, List.map_cons,
    List.map_nil, found, h]

variable {dst : Nat → Bool}

theorem At.Exact.pop {pc : ReadAt} {d : Ring P} (h : At.Exact d (.read f dst n pc i)) :
    At.Exact (d.pop f.tag) (.read f dst n .copy (i + 1)) := by
  obtain ⟨mapped, count⟩ := h
  exact ⟨mapped, by simp [Ring.pop, count]⟩

/-- What the history of the pipe says about a call. -/
def ledger : Ledger P (Ring P) (At P) Done where
  frame := At.frame
  fresh d tag := moved tag d.put = [] ∧ moved tag d.taken = []
  active := At.Exact
  done := Done.Exact
  only := OnlyBy
  fresh_only only ne h := by
    rw [(only _ ne).1, (only _ ne).2]
    exact h
  active_only only ne h := h.only ne only
  done_only only ne h := h.only ne only

/-- The calls that a process has finished. -/
abbrev finished : Loc (At P) (List Done) → List Done := ledger.finished

abbrev Honest (d : Ring P) (p : P) (loc : Loc (At P) (List Done)) : Prop := ledger.Honest d p loc

variable {d d' : Ring P} {p : P} {l : At P}

/-! ## A step of the code -/

variable {dest : Loc (At P) (List Done)}

theorem write_honest {src : Nat → Option UInt8} {pc : WriteAt} {told : Bool}
    (h : Honest d p (.at (.write f src n pc i told))) (fifo : d.Fifo)
    (step : code.Next (.write f src n pc i told) d dest d') :
    Honest d' p dest ∧ OnlyBy f.tag d d' ∧ d'.Fifo := by
  have exact : At.Exact d (.write f src n pc i told) := h.active _ rfl
  have stay : ∀ {pc told}, Honest d p (.at (.write f src n pc i told)) ∧ OnlyBy f.tag d d ∧
      d.Fifo :=
    ⟨h.move rfl (OnlyBy.refl _ _) exact, .refl _ _, fifo⟩
  cases pc with
  | loop =>
    by_cases more : (i : Int) < n
    · cases opened : d.readopen with
      | false =>
        obtain ⟨rfl, rfl⟩ := step.of_release ((if_pos more).trans (if_pos opened))
        exact ⟨h.finish (fun absurd => nomatch absurd), .refl _ _, fifo⟩
      | true =>
        obtain ⟨rfl | rfl, rfl⟩ := step.of_killed ((if_pos more).trans (if_neg (by simp [opened])))
        · exact stay
        exact stay
    obtain ⟨rfl, rfl⟩ := step.of_wakeup (if_neg more)
    exact stay
  | test =>
    cases full : d.full with
    | true =>
      obtain ⟨rfl, rfl⟩ := step.of_wakeup (if_pos full)
      exact stay
    | false =>
      have act : code.body (.write f src n .test i told) d = _ := if_neg (by simp [full])
      cases found : src i with
      | none =>
        rw [found] at act
        obtain ⟨rfl, rfl⟩ := step.of_wakeup act
        exact stay
      | some ch =>
        rw [found] at act
        obtain ⟨rfl, rfl⟩ := step.of_set act
        exact ⟨h.move rfl (OnlyBy.push _ _ _) (exact.push found), .push _ _ _, fifo.push full ..⟩
  | sleep =>
    obtain ⟨rfl, rfl⟩ := step.of_sleep rfl
    exact stay
  | done =>
    obtain ⟨rfl, rfl⟩ := step.of_release rfl
    exact ⟨h.finish fun _ => exact, .refl _ _, fifo⟩
  | quit =>
    obtain ⟨rfl, rfl⟩ := step.of_release rfl
    exact ⟨h.finish (fun absurd => nomatch absurd), .refl _ _, fifo⟩

theorem copy_honest {pc : ReadAt} (h : Honest d p (.at (.read f dst n pc i))) (fifo : d.Fifo)
    (act : code.body (.read f dst n pc i) d = pipecopy f dst n i d)
    (step : code.Next (.read f dst n pc i) d dest d') :
    Honest d' p dest ∧ OnlyBy f.tag d d' ∧ d'.Fifo := by
  have exact : At.Exact d (.read f dst n pc i) := h.active _ rfl
  rw [pipecopy] at act
  split at act
  · rename_i more
    obtain ⟨rfl, rfl⟩ := step.of_set act
    rw [if_pos (exact.1 i)]
    exact ⟨h.move rfl (OnlyBy.pop _ _) exact.pop, .pop _ _, fifo.pop more.2 ..⟩
  obtain ⟨rfl, rfl⟩ := step.of_wakeup act
  exact ⟨h.move rfl (OnlyBy.refl _ _) exact, .refl _ _, fifo⟩

theorem read_honest {pc : ReadAt} (h : Honest d p (.at (.read f dst n pc i))) (fifo : d.Fifo)
    (step : code.Next (.read f dst n pc i) d dest d') :
    Honest d' p dest ∧ OnlyBy f.tag d d' ∧ d'.Fifo := by
  have exact := h.active _ rfl
  have stay : ∀ {pc}, Honest d p (.at (.read f dst n pc i)) ∧ OnlyBy f.tag d d ∧ d.Fifo :=
    ⟨h.move rfl (OnlyBy.refl _ _) exact, .refl _ _, fifo⟩
  cases pc with
  | loop =>
    by_cases wait : d.empty ∧ d.writeopen
    · obtain ⟨rfl | rfl, rfl⟩ := step.of_killed (if_pos wait)
      · exact stay
      exact stay
    exact copy_honest h fifo (if_neg wait) step
  | sleep =>
    obtain ⟨rfl, rfl⟩ := step.of_sleep rfl
    exact stay
  | copy => exact copy_honest h fifo rfl step
  | wake =>
    obtain ⟨rfl, rfl⟩ := step.of_wakeup rfl
    exact stay
  | done =>
    obtain ⟨rfl, rfl⟩ := step.of_release rfl
    exact ⟨h.finish fun _ => congrArg Nat.cast exact.2, .refl _ _, fifo⟩
  | quit =>
    obtain ⟨rfl, rfl⟩ := step.of_release rfl
    exact ⟨h.finish (fun absurd => nomatch absurd), .refl _ _, fifo⟩

theorem close_honest {writable : Bool} {pc : CloseAt}
    (h : Honest d p (.at (.close f writable pc))) (fifo : d.Fifo)
    (step : code.Next (.close f writable pc) d dest d') :
    Honest d' p dest ∧ OnlyBy f.tag d d' ∧ d'.Fifo := by
  cases pc with
  | clear =>
    obtain ⟨rfl, rfl⟩ := step.of_set rfl
    cases writable with
    | true | false =>
      exact ⟨h.move rfl (fun _ _ => ⟨rfl, rfl⟩) trivial, fun _ _ => ⟨rfl, rfl⟩,
        ⟨fifo.1, fifo.2, fifo.3, fifo.4, fifo.5⟩⟩
  | wake =>
    obtain ⟨rfl, rfl⟩ := step.of_wakeup rfl
    exact ⟨h.move rfl (OnlyBy.refl _ _) trivial, .refl _ _, fifo⟩
  | done =>
    obtain ⟨rfl, rfl⟩ := step.of_release rfl
    exact ⟨h.finish fun _ => trivial, .refl _ _, fifo⟩

theorem next_honest (h : Honest d p (.at l)) (fifo : d.Fifo)
    (step : code.Next l d dest d') : Honest d' p dest ∧ OnlyBy l.frame.tag d d' ∧ d'.Fifo := by
  cases l with
  | write f src n pc i told => exact write_honest h fifo step
  | read f dst n pc i => exact read_honest h fifo step
  | close f writable pc => exact close_honest h fifo step

/-- The destination of every `piperead` is mapped. -/
def Mapped (_ : State P (Ring P) Chan (At P) (List Done)) : Action P Call → Prop
  | .call _ (.read dst _) => ∀ j, dst j = true
  | _ => True

theorem Reachable.fifo {table : List P} {page : Nat → UInt8}
    {s : State P (Ring P) Chan (At P) (List Done)} (run : Reachable table page Mapped s) :
    s.data.Fifo ∧ ∀ p, Honest s.data p (s.loc p) := by
  refine State.Reachable.rule (fun loc d => d.Fifo ∧ ∀ p, Honest d p (loc p)) ⟨?_, ?_⟩ ?_ ?_ run
  · exact ⟨.zero, .zero, zero_le, .nil, List.prefix_rfl⟩
  · intro p
    exact .init fun _ => ⟨rfl, rfl⟩
  · intro s p past f l both allowed out entered
    have mine := both.2 p
    rw [out] at mine
    refine ⟨both.1, Ledger.honest_update (k := ledger) both.2 (OnlyBy.refl (p, 0) _) rfl ?_⟩
    cases f with
    | write src n =>
      cases entered
      refine mine.enter rfl fun none => ?_
      exact congrArg (List.map some) none.1
    | read dst n =>
      cases entered
      refine mine.enter rfl fun none => ⟨allowed, ?_⟩
      exact congrArg List.length none.2
    | close writable =>
      cases entered
      exact mine.enter rfl fun _ => trivial
  intro loc d p l dest d' both here step
  have mine := both.2 p
  rw [here] at mine
  obtain ⟨honest, only, fifo⟩ := next_honest mine both.1 step
  exact ⟨fifo, Ledger.honest_update both.2 only (mine.own l rfl) honest⟩

/-- A pipe is a lossless FIFO: what came out is a prefix of what went in, a call that returned a
count moved exactly that many bytes, `pipewrite` the first ones of its buffer in order, and the
difference of the counters is the number of bytes in the pipe. -/
theorem pipe_fifo {table : List P} {page : Nat → UInt8}
    {s : State P (Ring P) Chan (At P) (List Done)} (run : Reachable table page Mapped s) :
    Ring.bytes s.data.taken <+: Ring.bytes s.data.put ∧
    (∀ p k src n r, (finished (s.loc p))[k]? = some ⟨.write src n, r⟩ → 0 ≤ r →
      (moved (p, k) s.data.put).map some = (List.range r.toNat).map src) ∧
    (∀ p k dst n r, (finished (s.loc p))[k]? = some ⟨.read dst n, r⟩ → 0 ≤ r →
      ((moved (p, k) s.data.taken).length : Int) = r) ∧
    (s.data.nwrite - s.data.nread).toNat = s.data.put.length - s.data.taken.length ∧
    (s.data.nwrite - s.data.nread).toNat ≤ PIPESIZE := by
  obtain ⟨fifo, honest⟩ := run.fifo
  refine ⟨fifo.order, ?_, ?_, fifo.count, ?_⟩
  · intro p k src n r found ok
    exact (honest p).past k _ found ok
  · intro p k dst n r found ok
    exact (honest p).past k _ found ok
  have room := fifo.room
  rw [fifo.count]
  omega

local instance two : NeZero 2 := ⟨by decide⟩

/-- Process 0 writes two bytes, and process 1 reads one. -/
def writeAndRead : List (Action (Fin 2) Call) :=
  .call 0 (.write (fun _ => some 7) 2) :: replicate 18 (.run 0) ++
    .call 1 (.read (fun _ => true) 1) :: replicate 9 (.run 1)

theorem writeAndRead_fifo : ∃ s : State (Fin 2) (Ring (Fin 2)) Chan (At (Fin 2)) (List Done),
    Reachable [0, 1] (fun _ => 0) Mapped s ∧ s.data.nwrite = 2 ∧ s.data.nread = 1 ∧
    Ring.bytes s.data.taken <+: Ring.bytes s.data.put ∧
    (∀ p k src n r, (finished (s.loc p))[k]? = some ⟨.write src n, r⟩ → 0 ≤ r →
      (moved (p, k) s.data.put).map some = (List.range r.toNat).map src) ∧
    (∀ p k dst n r, (finished (s.loc p))[k]? = some ⟨.read dst n, r⟩ → 0 ≤ r →
      ((moved (p, k) s.data.taken).length : Int) = r) ∧
    (s.data.nwrite - s.data.nread).toNat = s.data.put.length - s.data.taken.length ∧
    (s.data.nwrite - s.data.nread).toNat ≤ PIPESIZE := by
  have played : ((State.init (fun _ => []) (.pipealloc fun _ => 0)).play code [0,
      1] (fun _ _ => true)
      writeAndRead).any (fun s => decide (s.data.nwrite = 2) && decide (s.data.nread = 1)) = true := by
    decide
  have allowed : ∀ s, ∀ a ∈ writeAndRead, true = true → Mapped s a := by
    simp [writeAndRead, Mapped]
  obtain ⟨s, run, check⟩ := State.Reachable.of_play allowed played
  rw [Bool.and_eq_true, decide_eq_true_iff, decide_eq_true_iff] at check
  exact ⟨s, run, check.1, check.2, pipe_fifo run⟩

end Calls

/-! ## Wakeups -/

/-- What the process that has `pi->lock` knows: at `sleep` the condition was just tested. -/
def holds : At P → Ring P → Prop
  | .write _ _ _ .test _ _, d => d.readopen = true
  | .write _ _ _ .sleep _ _, d => d.full = true ∧ d.readopen = true
  | .read _ _ _ .sleep _, d => d.empty = true ∧ d.writeopen = true
  | _, _ => True

/-- A wakeup is to come: after bytes were put or taken, or an end was closed. -/
def due : At P → Chan → Prop
  | .write _ _ _ .loop _ told, .nread | .write _ _ _ .test _ told, .nread => told = false
  | .read _ _ _ .copy _, .nwrite | .read _ _ _ .wake _, .nwrite => True
  | .close _ true .wake, .nread | .close _ false .wake, .nwrite => True
  | _, _ => False

/-- Why processes sleep on a channel. Readers are not woken any more when the read end is closed. -/
def blocked : Chan → Ring P → Prop
  | .nread, d => d.readopen = true → d.empty = true ∧ d.writeopen = true
  | .nwrite, d => d.full = true ∧ d.readopen = true

/-- Where a killed process may leave: `pipewrite` has told the readers about its bytes. -/
def calm : At P → Prop
  | .write _ _ _ .loop _ told => told = true
  | _ => True

theorem pipecopy_set {f : Activation P Done} {dst : Nat → Bool} {n : Int} {i : Nat}
    {d d' : Ring P} {next : At P} (act : pipecopy f dst n i d = .set d' next) :
    d.empty = false ∧ d' = d.pop f.tag ∧ holds next d' ∧ due next .nwrite := by
  rw [pipecopy] at act
  split at act
  · rename_i more
    cases act
    refine ⟨more.2, rfl, ?_, ?_⟩
    · split <;> trivial
    split <;> trivial
  cases act

theorem pipecopy_wakeup {f : Activation P Done} {dst : Nat → Bool} {n : Int} {i : Nat}
    {d : Ring P} {chan : Chan} {next : At P} (act : pipecopy f dst n i d = .wakeup chan next) :
    chan = .nwrite ∧ next = .read f dst n .done i := by
  rw [pipecopy] at act
  split at act
  · cases act
  cases act
  exact ⟨rfl, rfl⟩

section Discipline

variable {l next yes no : At P} {d d' : Ring P} {chan : Chan}

theorem set_keeps (act : code.body l d = .set d' next) :
    holds next d' ∧ ∀ c, blocked c d ∨ due l c → blocked c d' ∨ due next c := by
  cases l with
  | write f src n pc i told =>
    cases pc with
    | loop =>
      simp only [code, body, pipewrite, ret] at act
      split_ifs at act
    | test =>
      simp only [code, body, pipewrite] at act
      split_ifs at act with full
      split at act
      · cases act
      cases act
      refine ⟨trivial, fun c before => ?_⟩
      cases c with
      | nread => exact .inr rfl
      | nwrite => exact before.elim (fun h => absurd h.1 full) False.elim
    | _ => cases act
  | read f dst n pc i =>
    have pops : pipecopy f dst n i d = .set d' next → (¬due (.read f dst n pc i) .nread) →
        holds next d' ∧ ∀ c, blocked c d ∨ due (.read f dst n pc i) c → blocked c d' ∨ due next c := by
      intro act none
      obtain ⟨some, rfl, later, wake⟩ := pipecopy_set act
      refine ⟨later, fun c before => ?_⟩
      cases c with
      | nread =>
        refine .inl fun opened => ?_
        rcases before with block | owe
        · have := (block opened).1
          rw [some] at this
          cases this
        exact absurd owe none
      | nwrite => exact .inr wake
    cases pc with
    | loop =>
      simp only [code, body, piperead] at act
      split_ifs at act
      exact pops act id
    | copy => exact pops act id
    | _ => cases act
  | close f writable pc =>
    cases pc with
    | clear =>
      cases act
      refine ⟨trivial, fun c before => ?_⟩
      have block := before.elim id (by cases writable <;> exact False.elim)
      cases writable with
      | true =>
        cases c with
        | nread => exact .inr trivial
        | nwrite => exact .inl block
      | false =>
        cases c with
        | nread => exact .inl nofun
        | nwrite => exact .inr trivial
    | _ => cases act

theorem wakeup_keeps (known : holds l d) (act : code.body l d = .wakeup chan next) :
    holds next d ∧ ∀ c, c ≠ chan → due l c → blocked c d ∨ due next c := by
  cases l with
  | write f src n pc i told =>
    cases pc with
    | loop =>
      simp only [code, body, pipewrite, ret] at act
      split_ifs at act
      cases act
      refine ⟨trivial, fun c other owe => ?_⟩
      cases c with
      | nread => exact absurd rfl other
      | nwrite => exact owe.elim
    | test =>
      simp only [code, body, pipewrite] at act
      have wakes : chan = .nread ∧ holds next d := by
        split_ifs at act with full
        · cases act
          exact ⟨rfl, full, known⟩
        split at act
        · cases act
          exact ⟨rfl, trivial⟩
        cases act
      refine ⟨wakes.2, fun c other owe => ?_⟩
      cases c with
      | nread => exact absurd wakes.1.symm other
      | nwrite => exact owe.elim
    | _ => cases act
  | read f dst n pc i =>
    have wakes : chan = .nwrite ∧ next = .read f dst n .done i := by
      cases pc with
      | loop =>
        simp only [code, body, piperead] at act
        split_ifs at act
        exact pipecopy_wakeup act
      | copy => exact pipecopy_wakeup act
      | wake =>
        cases act
        exact ⟨rfl, rfl⟩
      | _ => cases act
    obtain ⟨rfl, rfl⟩ := wakes
    refine ⟨trivial, fun c other owe => ?_⟩
    cases c with
    | nread => cases pc <;> exact owe.elim
    | nwrite => exact absurd rfl other
  | close f writable pc =>
    cases pc with
    | wake =>
      cases act
      refine ⟨trivial, fun c other owe => ?_⟩
      cases writable <;> cases c
      · exact owe.elim
      · exact absurd rfl other
      · exact absurd rfl other
      exact owe.elim
    | _ => cases act

theorem sleep_blocked (known : holds l d) (act : code.body l d = .sleep chan next) :
    (∀ d', holds next d') ∧ blocked chan d ∧ ∀ c, due l c → blocked c d := by
  cases l with
  | write f src n pc i told =>
    cases pc with
    | sleep =>
      cases act
      exact ⟨fun _ => trivial, known, fun c owe => by cases c <;> exact owe.elim⟩
    | loop =>
      simp only [code, body, pipewrite, ret] at act
      split_ifs at act
    | test =>
      simp only [code, body, pipewrite] at act
      split_ifs at act
      split at act <;> cases act
    | _ => cases act
  | read f dst n pc i =>
    have never : pipecopy f dst n i d ≠ .sleep chan next := by
      intro act
      rw [pipecopy] at act
      split_ifs at act
    cases pc with
    | sleep =>
      cases act
      exact ⟨fun _ => trivial, fun _ => known, fun c owe => by cases c <;> exact owe.elim⟩
    | loop =>
      simp only [code, body, piperead] at act
      split_ifs at act
      exact absurd act never
    | copy => exact absurd act never
    | _ => cases act
  | close f writable pc => cases pc <;> cases act

theorem killed_keeps (act : code.body l d = .killed yes no) :
    (holds yes d ∧ (calm l → ∀ c, due l c → blocked c d ∨ due yes c)) ∧
    (holds no d ∧ ∀ c, due l c → blocked c d ∨ due no c) := by
  cases l with
  | write f src n pc i told =>
    cases pc with
    | loop =>
      simp only [code, body, pipewrite, ret] at act
      split_ifs at act with more closed
      cases act
      refine ⟨⟨trivial, fun told c owe => ?_⟩, Bool.eq_true_of_not_eq_false closed, fun c owe => ?_⟩
      · cases c with
        | nread =>
          rw [show _ = false from owe] at told
          cases told
        | nwrite => exact owe.elim
      cases c with
      | nread => exact .inr owe
      | nwrite => exact owe.elim
    | test =>
      simp only [code, body, pipewrite] at act
      split_ifs at act
      split at act <;> cases act
    | _ => cases act
  | read f dst n pc i =>
    have never : pipecopy f dst n i d ≠ .killed yes no := by
      intro act
      rw [pipecopy] at act
      split_ifs at act
    cases pc with
    | loop =>
      simp only [code, body, piperead] at act
      split_ifs at act with wait
      · cases act
        exact ⟨⟨trivial, fun _ c owe => by cases c <;> exact owe.elim⟩, wait,
          fun c owe => by cases c <;> exact owe.elim⟩
      exact absurd act never
    | copy => exact absurd act never
    | _ => cases act
  | close f writable pc => cases pc <;> cases act

theorem release_blocked {w : List Done} (act : code.body l d = .release w) (c : Chan)
    (owe : due l c) : blocked c d := by
  cases l with
  | write f src n pc i told =>
    cases pc with
    | loop =>
      simp only [code, body, pipewrite, ret] at act
      split_ifs at act with more closed
      cases c with
      | nread =>
        intro opened
        rw [closed] at opened
        cases opened
      | nwrite => exact owe.elim
    | test =>
      simp only [code, body, pipewrite] at act
      split_ifs at act
      split at act <;> cases act
    | _ => cases c <;> exact owe.elim
  | read f dst n pc i =>
    have never : pipecopy f dst n i d ≠ .release w := by
      intro act
      rw [pipecopy] at act
      split_ifs at act
    cases pc with
    | copy => exact absurd act never
    | wake => cases act
    | _ => cases c <;> exact owe.elim
  | close f writable pc =>
    cases pc with
    | wake => cases act
    | _ => cases writable <;> cases c <;> exact owe.elim

theorem discipline : (code (P := P)).Discipline holds due blocked calm where
  entry := by
    intro p past f l entered d
    cases f <;> cases entered <;> trivial
  set _ := set_keeps
  wakeup := wakeup_keeps
  sleep := sleep_blocked
  yes _ act quiet := ⟨(killed_keeps act).1.1, (killed_keeps act).1.2 quiet⟩
  no _ act := (killed_keeps act).2
  release _ := release_blocked

end Discipline

/-! ## The ends that are open

`fileclose` calls `pipeclose` when nobody has the end any more, so that nobody is in `piperead`, nor
calls it later. -/

@[simp] def reading : Loc (At P) (List Done) → Prop
  | .at (.read _ _ _ _ _) => True
  | _ => False

/-- About to close the read end. -/
@[simp] def closing : Loc (At P) (List Done) → Prop
  | .at (.close _ false .clear) => True
  | _ => False

theorem next_ends {l : At P} {d d' : Ring P} {dest : Loc (At P) (List Done)}
    (step : code.Next l d dest d') :
    ¬closing dest ∧ (reading dest → reading (.at l)) ∧
      (closing (.at l) ∨ d'.readopen = d.readopen) := by
  refine step.leads
    (Q := fun dest d' => ¬closing dest ∧ (reading dest → reading (.at l)) ∧ (closing (.at l) ∨ d'.readopen = d.readopen)) ?_
  cases l with
  | write f src n pc i told =>
    cases pc with
    | loop =>
      simp only [code, body, pipewrite, ret]
      split_ifs <;> simp
    | test =>
      simp only [code, body, pipewrite]
      split_ifs
      · simp
      split <;> simp [Ring.push]
    | _ => simp [code, body, pipewrite, ret]
  | read f dst n pc i =>
    have copies : (pipecopy f dst n i d).leads d fun dest d' => ¬closing dest ∧
        (reading dest → reading (.at (.read f dst n pc i))) ∧
        (closing (.at (.read f dst n pc i)) ∨ d'.readopen = d.readopen) := by
      rw [pipecopy]
      split_ifs <;> simp [Ring.pop]
    cases pc with
    | loop =>
      simp only [code, body, piperead]
      split_ifs
      · simp
      exact copies
    | copy => exact copies
    | _ => simp [code, body, piperead, ret]
  | close f writable pc => cases pc <;> cases writable <;> simp [code, body, pipeclose, ret]

/-- The users of the pipe: nobody closes the read end while somebody is in `piperead`, nobody calls
`piperead` on an end that is closed or being closed, and no `pipewrite` finds its process killed
after it has put bytes and not yet told the readers. -/
def Announced (s : State P (Ring P) Chan (At P) (List Done)) : Action P Call → Prop
  | .call _ (.close false) => ∀ p, ¬reading (s.loc p)
  | .call _ (.read _ _) => s.data.readopen = true ∧ ∀ p, ¬closing (s.loc p)
  | .run p => ∀ l yes no, s.phase p = .asking l yes no → s.killed p = true → calm l
  | _ => True

variable [DecidableEq P] {table : List P} {page : Nat → UInt8} {s : State P (Ring P) Chan (At P) (List Done)}

theorem Reachable.open_of_reading (run : Reachable table page Announced s) :
    ∀ p, reading (s.loc p) → s.data.readopen = true ∧ ∀ q, ¬closing (s.loc q) := by
  refine State.Reachable.rule
    (fun loc d => ∀ p, reading (loc p) → d.readopen = true ∧ ∀ q, ¬closing (loc q)) (fun _ h => h.elim) ?_ ?_ run
  · intro s p past f l ih allowed out entered q reads
    by_cases eq : q = p
    · rw [eq, update_self] at reads
      cases f with
      | read dst n =>
        cases entered
        refine ⟨allowed.1, fun r => ?_⟩
        by_cases here : r = p
        · rw [here, update_self]
          exact id
        rw [update_of_ne here]
        exact allowed.2 r
      | write | close =>
        cases entered
        exact reads.elim
    rw [update_of_ne eq] at reads
    refine ⟨(ih q reads).1, fun r => ?_⟩
    by_cases here : r = p
    · rw [here, update_self]
      cases f with
      | close writable =>
        cases entered
        cases writable with
        | true => exact id
        | false => exact absurd reads (allowed q)
      | write | read =>
        cases entered
        exact id
    rw [update_of_ne here]
    exact (ih q reads).2 r
  intro loc d p l dest d' ih here step q reads
  obtain ⟨closes, stays, same⟩ := next_ends step
  have before : ∃ r, reading (loc r) := by
    by_cases eq : q = p
    · rw [eq, update_self] at reads
      exact ⟨p, by rw [here]; exact stays reads⟩
    rw [update_of_ne eq] at reads
    exact ⟨q, reads⟩
  obtain ⟨r, reader⟩ := before
  obtain ⟨opened, none⟩ := ih r reader
  constructor
  · rcases same with closes | same
    · rw [← here] at closes
      exact absurd closes (none p)
    rw [same, opened]
  intro t
  by_cases eq : t = p
  · rw [eq, update_self]
    exact closes
  rw [update_of_ne eq]
  exact none t

theorem sleep_nread {l next : At P} {d : Ring P} (act : code.body l d = .sleep .nread next) :
    reading (.at next) := by
  cases l with
  | write f src n pc i told =>
    cases pc with
    | loop =>
      simp only [code, body, pipewrite, ret] at act
      split_ifs at act
    | test =>
      simp only [code, body, pipewrite] at act
      split_ifs at act
      split at act <;> cases act
    | _ => cases act
  | read f dst n pc i =>
    have never : pipecopy f dst n i d ≠ .sleep .nread next := by
      intro act
      rw [pipecopy] at act
      split_ifs at act
    cases pc with
    | sleep =>
      cases act
      trivial
    | loop =>
      simp only [code, body, piperead] at act
      split_ifs at act
      exact absurd act never
    | copy => exact absurd act never
    | _ => cases act
  | close f writable pc => cases pc <;> cases act

/-- No wakeup is lost where every `pipewrite` tells the readers about the bytes that it has put. -/
theorem pipe_loses_no_wakeup (all : ∀ p, p ∈ table) (run : Reachable table page Announced s)
    (free : s.lk = none) :
    (∀ p, s.state p = .sleeping → s.chan p = some .nread →
      s.data.nread = s.data.nwrite ∧ s.data.writeopen = true) ∧
    (∀ p, s.state p = .sleeping → s.chan p = some .nwrite →
      s.data.nwrite = s.data.nread + UInt32.ofNat PIPESIZE ∧ s.data.readopen = true) := by
  have blocks : ∀ p c, s.state p = .sleeping → s.chan p = some c → blocked c s.data :=
    fun p c sleeping chan =>
    run.sleepers discipline all (fun allowed => allowed _ _ _) free sleeping chan
  constructor
  · intro p sleeping chan
    obtain ⟨l₀, d₀, l, act, here⟩ := run.inv.slept sleeping chan
    have reads : reading (s.loc p) := by
      rw [here]
      exact sleep_nread act
    obtain ⟨empty, opened⟩ := blocks p .nread sleeping chan (run.open_of_reading p reads).1
    exact ⟨eq_of_beq empty, opened⟩
  intro p sleeping chan
  obtain ⟨full, opened⟩ := blocks p .nwrite sleeping chan
  exact ⟨eq_of_beq full, opened⟩

local instance three : NeZero 3 := ⟨by decide⟩

/-- Process 1 sleeps in `piperead`. -/
def waitForBytes : List (Action (Fin 3) Call) := .call 1 (.read (fun _ => true) 1) :: replicate 11 (.run 1)

/-- Process 0 puts the first of two bytes, is killed by process 2, and returns. -/
def writeKilled : List (Action (Fin 3) Call) :=
  .call 0 (.write (fun _ => some 7) 2) :: replicate 6 (.run 0) ++ .kill 2 0 :: replicate 3 (.run 2) ++
    replicate 5 (.run 0)

/-- The reader goes on sleeping, with a byte in the pipe. -/
theorem writeKilled_loses_wakeup : ∃ s : State (Fin 3) (Ring (Fin 3)) Chan (At (Fin 3)) (List Done),
    Reachable [0, 1, 2] (fun _ => 0) (fun _ _ => True) s ∧ s.lk = none ∧ s.state 1 = .sleeping ∧
    s.chan 1 = some .nread ∧ ¬s.data.nread = s.data.nwrite := by
  have played : ((State.init (fun _ => []) (.pipealloc fun _ => 0)).play code [0, 1,
      2] (fun _ _ => true)
      (waitForBytes ++ writeKilled)).any (fun s => decide (s.lk = none ∧ s.state 1 = .sleeping ∧
        s.chan 1 = some .nread ∧ ¬s.data.nread = s.data.nwrite)) = true := by
    decide
  obtain ⟨s, run, check⟩ := State.Reachable.of_play (fun _ _ _ _ => trivial) played
  exact ⟨s, run, of_decide_eq_true check⟩

/-- Nobody is in a call when one other than `pipewrite` begins, and nobody was killed. -/
def undisturbed (s : State (Fin 3) (Ring (Fin 3)) Chan (At (Fin 3)) (List Done)) :
    Action (Fin 3) Call → Bool
  | .call _ (.write _ _) => true
  | .call _ _ => s.data.readopen && decide (∀ p, (s.loc p).isOut = true)
  | .run p => !s.killed p
  | .kill _ _ => false

theorem Announced.of_undisturbed {s : State (Fin 3) (Ring (Fin 3)) Chan (At (Fin 3)) (List Done)}
    {a : Action (Fin 3) Call} (h : undisturbed s a = true) : Announced s a := by
  have outside : decide (∀ p, (s.loc p).isOut = true) = true →
      ∀ p, ¬reading (s.loc p) ∧ ¬closing (s.loc p) := by
    intro out p
    obtain ⟨past, eq⟩ := Loc.isOut_iff.mp (of_decide_eq_true out p)
    rw [eq]
    exact ⟨id, id⟩
  cases a with
  | call p f =>
    cases f with
    | write src n => trivial
    | read dst n =>
      obtain ⟨opened, out⟩ := Bool.and_eq_true_iff.mp h
      exact ⟨opened, fun p => (outside out p).2⟩
    | close writable =>
      obtain ⟨-, out⟩ := Bool.and_eq_true_iff.mp h
      cases writable with
      | true => trivial
      | false => exact fun p => (outside out p).1
  | run p =>
    intro l yes no _ was
    simp [undisturbed, was] at h
  | kill p q => cases h

/-- Process 0 puts a byte and wakes process 1, which takes it and sleeps in its next call. -/
def writeByte : List (Action (Fin 3) Call) :=
  waitForBytes ++ .call 0 (.write (fun _ => some 7) 1) :: replicate 16 (.run 0) ++
    replicate 15 (.run 1) ++ waitForBytes

theorem waitForBytes_waits :
    ∃ s : State (Fin 3) (Ring (Fin 3)) Chan (At (Fin 3)) (List Done),
    Reachable [0, 1, 2] (fun _ => 0) Announced s ∧ s.lk = none ∧ s.state 1 = .sleeping ∧
    s.data.nwrite = 1 ∧
    (∀ p, s.state p = .sleeping → s.chan p = some .nread →
      s.data.nread = s.data.nwrite ∧ s.data.writeopen = true) ∧
    (∀ p, s.state p = .sleeping → s.chan p = some .nwrite →
      s.data.nwrite = s.data.nread + UInt32.ofNat PIPESIZE ∧ s.data.readopen = true) := by
  have played : ((State.init (fun _ => []) (.pipealloc fun _ => 0)).play code [0, 1, 2] undisturbed
      writeByte).any (fun s => decide (s.lk = none ∧ s.state 1 = .sleeping ∧ s.data.nwrite = 1)) =
        true := by
    decide +kernel
  obtain ⟨s, run, check⟩ := State.Reachable.of_play (fun _ _ _ => Announced.of_undisturbed) played
  obtain ⟨free, sleeping, written⟩ := of_decide_eq_true check
  exact ⟨s, run, free, sleeping, written, pipe_loses_no_wakeup (by decide) run free⟩

end Xv6.Pipe
