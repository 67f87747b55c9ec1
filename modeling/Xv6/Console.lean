import Xv6.Lib.Ring
import Xv6.Monitor.Calls

/-!
# Console input

`consoleread` and `consoleintr` of `kernel/console.c`, and the line discipline that they implement.
What the console prints is left out.
-/

namespace Xv6.Console

open List (prefix_rfl prefix_append length_append length_singleton mem_append replicate)
open Monitor

set_option linter.unusedSectionVars false

def INPUT_BUF_SIZE : Nat := 128

/-! ## The line discipline -/

/-- What happens to the line: a key is typed, or a committed byte is taken. -/
inductive Event
  | key (c : UInt8)
  | take

/-- `C('D')`, the end of file. -/
def ctrlD : UInt8 := 4

def newline : UInt8 := 10

/-- The bytes committed so far, those of the line that is still edited, and how many were taken. -/
structure Line where
  committed : List UInt8
  pending : List UInt8
  consumed : Nat

namespace Line

def empty : Line := ⟨[], [], 0⟩

/-- The bytes that are not yet taken. -/
def held (l : Line) : Nat := l.committed.length + l.pending.length - l.consumed

def crToNl (c : UInt8) : UInt8 := if c = 13 then newline else c

/-- A whole line, an end of file or a full buffer commits what was typed. -/
def commits (l : Line) (c : UInt8) : Bool := c == newline || c == ctrlD || l.held + 1 == INPUT_BUF_SIZE

/-- A character that is stored if it fits. -/
def type (c : UInt8) (l : Line) : Line :=
  if l.held < INPUT_BUF_SIZE then
    if l.commits (crToNl c) then { l with committed := l.committed ++ (l.pending ++ [crToNl c]), pending := [] }
    else { l with pending := l.pending ++ [crToNl c] }
  else l

/-- A key: control-U kills the line, backspace and delete erase one character of it. -/
def key (ignored : UInt8 → Bool) (c : UInt8) (l : Line) : Line :=
  if ignored c then l
  else if c = 21 then { l with pending := [] }
  else if c = 8 ∨ c = 127 then { l with pending := l.pending.dropLast }
  else l.type c

def step (ignored : UInt8 → Bool) (l : Line) : Event → Line
  | .key c => l.key ignored c
  | .take => { l with consumed := l.consumed + 1 }

def run (ignored : UInt8 → Bool) (events : List Event) : Line := events.foldl (step ignored) empty

/-- NUL and control-P are not stored. -/
def unstored (c : UInt8) : Bool := c == 0 || c == 16

end Line

/-! ## The code -/

/-- `cons`, with what happened so far: the events, the bytes taken out of the buffer with the call
that took them, and the bytes handed out. -/
structure Cons (P : Type) where
  buf : Nat → UInt8
  r : UInt32
  w : UInt32
  e : UInt32
  events : List Event
  taken : List (Tag P × UInt8)
  handed : List UInt8

/-- `consoleread` into a buffer of which `dst` says what is mapped, or an interrupt with a
character. -/
inductive Call
  | read (dst : Nat → Bool) (n : Int)
  | intr (c : UInt8)

/-- A call that is done: what it returned, and which byte was the control-D that ended it, if one
did. -/
structure Done where
  call : Call
  result : Int
  eof : Option Nat

/-- In `consoleread`: the loops, before `sleep`, and before the two calls of `release`. -/
inductive ReadAt
  | loop
  | sleep
  | done (eof : Option Nat)
  | quit

/-- In `consoleintr`: the switch, `wakeup` and `release`. -/
inductive IntrAt
  | switch
  | wake
  | done

/-- The locations in the code; `n` is what is still to read of `target` bytes. -/
inductive At (P : Type)
  | read (f : Activation P Done) (dst : Nat → Bool) (target n : Int) (pc : ReadAt)
  | intr (f : Activation P Done) (c : UInt8) (pc : IntrAt)

variable {P : Type}

def At.frame : At P → Activation P Done
  | .read f _ _ _ _ | .intr f _ _ => f

namespace Cons

def init (buf : Nat → UInt8) : Cons P := ⟨buf, 0, 0, 0, [], [], []⟩

def get (d : Cons P) (i : UInt32) : UInt8 := d.buf (i.toNat % INPUT_BUF_SIZE)

/-- `c = cons.buf[cons.r++ % INPUT_BUF_SIZE]` -/
def take (d : Cons P) (tag : Tag P) : Cons P :=
  { d with r := d.r + 1, events := d.events ++ [.take], taken := d.taken ++ [(tag, d.get d.r)] }

/-- The byte is copied to the reader. -/
def hand (d : Cons P) (c : UInt8) : Cons P := { d with handed := d.handed ++ [c] }

/-- The loop of control-U, for at most the given number of rounds. -/
def eraseLine (d : Cons P) : Nat → UInt32 → UInt32
  | 0, e => e
  | k + 1, e => if e ≠ d.w ∧ d.get (e - 1) ≠ newline then eraseLine d k (e - 1) else e

/-- `c` is stored, and committed if the line is whole; the second component says whether the readers
are woken. -/
def store (d : Cons P) (c : UInt8) : Cons P × Bool :=
  let d := { d with buf := Function.update d.buf (d.e.toNat % INPUT_BUF_SIZE) c, e := d.e + 1 }
  if c = newline ∨ c = ctrlD ∨ d.e - d.r = UInt32.ofNat INPUT_BUF_SIZE then ({ d with w := d.e }, true) else (d, false)

/-- The switch of `consoleintr`. -/
def consoleintr (d : Cons P) (c : UInt8) : Cons P × Bool :=
  if c = 16 then (d, false) -- procdump
  else if c = 21 then ({ d with e := d.eraseLine (d.e - d.w).toNat d.e }, false)
  else if c = 8 ∨ c = 127 then (if d.e ≠ d.w then { d with e := d.e - 1 } else d, false)
  else if c ≠ 0 ∧ d.e - d.r < UInt32.ofNat INPUT_BUF_SIZE then d.store (Line.crToNl c)
  else (d, false)

end Cons

def consoleread (f : Activation P Done) (dst : Nat → Bool) (target n : Int) (d : Cons P) :
    ReadAt → Act (Cons P) Unit (At P) (List Done)
  | .loop =>
    if 0 < n then
      if d.r = d.w then .killed (.read f dst target n .quit) (.read f dst target n .sleep)
      else if d.get d.r = ctrlD then
        -- saved for the next read if this one has bytes to return
        if n < target then .set d (.read f dst target n (.done (some d.taken.length)))
        else .set (d.take f.tag) (.read f dst target n (.done (some d.taken.length)))
      else if dst (target - n).toNat then
        .set ((d.take f.tag).hand (d.get d.r))
          (.read f dst target (n - 1) (if d.get d.r = newline then .done none else .loop))
      else .set (d.take f.tag) (.read f dst target n (.done none))
    else .release (f.past ++ [⟨.read dst target, target - n, none⟩])
  | .sleep => .sleep () (.read f dst target n .loop)
  | .done eof => .release (f.past ++ [⟨.read dst target, target - n, eof⟩])
  | .quit => .release (f.past ++ [⟨.read dst target, -1, none⟩])

def intr (f : Activation P Done) (c : UInt8) (d : Cons P) : IntrAt → Act (Cons P) Unit (At P) (List Done)
  | .switch =>
    .set { (d.consoleintr c).1 with events := d.events ++ [.key c] }
      (.intr f c (if (d.consoleintr c).2 then .wake else .done))
  | .wake => .wakeup () (.intr f c .done)
  | .done => .release (f.past ++ [⟨.intr c, 0, none⟩])

def body : At P → Cons P → Act (Cons P) Unit (At P) (List Done)
  | .read f dst target n pc, d => consoleread f dst target n d pc
  | .intr f c pc, d => intr f c d pc

def entry (p : P) (past : List Done) : Call → Option (At P)
  | .read dst n => some (.read ⟨p, past⟩ dst n n .loop)
  | .intr c => some (.intr ⟨p, past⟩ c .switch)

def code : Code P (Cons P) Unit (At P) (List Done) Call where
  entry := entry
  body := body

/-- The steps of any readers and of the interrupt handlers. -/
abbrev Reachable [DecidableEq P] (table : List P) (buf : Nat → UInt8)
    (allow : State P (Cons P) Unit (At P) (List Done) → Action P Call → Prop) :
    State P (Cons P) Unit (At P) (List Done) → Prop :=
  State.Reachable code table (fun _ => []) (.init buf) allow

namespace Line

theorem run_concat (ignored : UInt8 → Bool) (events : List Event) (event : Event) :
    run ignored (events ++ [event]) = (run ignored events).step ignored event := by
  rw [run, List.foldl_append]
  rfl

theorem committed_prefix (ignored : UInt8 → Bool) (l : Line) (event : Event) :
    l.committed <+: (l.step ignored event).committed := by
  cases event with
  | take => exact prefix_rfl
  | key c =>
    rw [step, key]
    split_ifs
    · exact prefix_rfl
    · exact prefix_rfl
    · exact prefix_rfl
    rw [type]
    split_ifs
    · exact prefix_append ..
    · exact prefix_rfl
    exact prefix_rfl

end Line

/-! ## The buffer holds the line -/

/-- The three indices and the buffer say where the line is. -/
structure Lined (d : Cons P) (l : Line) : Prop where
  r : Ring.Counts d.r l.consumed
  w : Ring.Counts d.w l.committed.length
  e : Ring.Counts d.e (l.committed.length + l.pending.length)
  le : l.consumed ≤ l.committed.length
  room : l.committed.length + l.pending.length ≤ l.consumed + INPUT_BUF_SIZE
  full : l.committed.length + l.pending.length = l.consumed + INPUT_BUF_SIZE → l.pending = []
  cells : Ring.Holds INPUT_BUF_SIZE d.buf (l.committed ++ l.pending) l.consumed
  unbroken : newline ∉ l.pending

namespace Lined

variable {d : Cons P} {l : Line}

theorem init (buf : Nat → UInt8) : Lined (Cons.init buf : Cons P) .empty :=
  ⟨.zero, .zero, .zero, le_rfl, zero_le, fun _ => rfl, .nil, List.not_mem_nil⟩

theorem INPUT_BUF_SIZE_dvd : INPUT_BUF_SIZE ∣ 2 ^ 32 := by decide

section

variable (h : Lined d l)
include h

theorem close : l.committed.length + l.pending.length < l.consumed + 2 ^ 32 := by
  have room := h.room
  rw [INPUT_BUF_SIZE] at room
  omega

theorem r_eq_w_iff : d.r = d.w ↔ l.consumed = l.committed.length :=
  h.r.eq_iff h.w h.le (lt_of_le_of_lt (Nat.le_add_right ..) h.close)

theorem w_eq_iff {e : UInt32} {j : Nat} (counts : Ring.Counts e (l.committed.length + j))
    (le : j ≤ l.pending.length) : d.w = e ↔ j = 0 := by
  have close := h.close
  have below := h.le
  have := h.room
  rw [INPUT_BUF_SIZE] at this
  rw [h.w.eq_iff counts (Nat.le_add_right ..) (by omega)]
  omega

theorem held : (d.e - d.r).toNat = l.held := h.r.sub h.e (h.le.trans (Nat.le_add_right ..)) h.close

/-- The next byte to be read. -/
theorem next (some' : l.consumed < l.committed.length) :
    l.committed[l.consumed]? = some (d.get d.r) := by
  have found := h.cells.read (by rw [length_append]; omega)
  rw [List.getElem?_append_left some'] at found
  rw [found, Cons.get, h.r.index INPUT_BUF_SIZE_dvd]

theorem take (some : d.r ≠ d.w) (tag : Tag P) :
    Lined (d.take tag) (l.step Line.unstored .take) := by
  have lt : l.consumed < l.committed.length :=
    lt_of_le_of_ne h.le fun eq => some (h.r_eq_w_iff.mpr eq)
  have room := h.room
  refine ⟨h.r.succ, h.w, h.e, lt, ?_, ?_, h.cells.later (Nat.le_succ _), h.unbroken⟩
  · simp only [Line.step]
    omega
  simp only [Line.step]
  omega

theorem eraseLine : ∀ (k j : Nat) (e : UInt32), j ≤ k → j ≤ l.pending.length →
    Ring.Counts e (l.committed.length + j) → d.eraseLine k e = d.w := by
  intro k
  induction k with
  | zero =>
    intro j e le within counts
    exact ((h.w_eq_iff counts within).mpr (Nat.le_zero.mp le)).symm
  | succ k ih =>
    intro j e le within counts
    rw [Cons.eraseLine]
    cases j with
    | zero =>
      have eq := (h.w_eq_iff counts within).mpr rfl
      rw [if_neg (fun both => both.1 eq.symm), eq]
    | succ j =>
      have ne : d.w ≠ e := fun eq => Nat.succ_ne_zero j ((h.w_eq_iff counts within).mp eq)
      have before : Ring.Counts (e - 1) (l.committed.length + j) := counts.pred
      have at' : (l.committed ++ l.pending)[l.committed.length + j]? =
          some (l.pending.get ⟨j, within⟩) := by
        rw [List.getElem?_append_right (Nat.le_add_right ..), Nat.add_sub_cancel_left]
        exact List.getElem?_eq_getElem within
      have byte : d.get (e - 1) = l.pending.get ⟨j, within⟩ := by
        rw [Cons.get, before.index INPUT_BUF_SIZE_dvd]
        exact h.cells _ _ (h.le.trans (Nat.le_add_right ..)) at'
      have other : d.get (e - 1) ≠ newline := by
        rw [byte]
        intro eq
        exact h.unbroken (eq ▸ List.get_mem ..)
      rw [if_pos ⟨ne.symm, other⟩]
      exact ih j _ (Nat.le_of_succ_le_succ le) (Nat.le_of_succ_le within) before

theorem shorten {e : UInt32} {pending : List UInt8} (isPrefix : pending <+: l.pending)
    (counts : Ring.Counts e (l.committed.length + pending.length)) :
    Lined { d with e } { l with pending } := by
  have shorter := isPrefix.length_le
  have room := h.room
  refine ⟨h.r, h.w, counts, h.le, ?_, ?_, ?_, fun mem => h.unbroken (isPrefix.subset mem)⟩
  · simp only
    omega
  · intro full
    simp only at full ⊢
    have none := h.full (by omega)
    rw [none] at isPrefix
    exact List.prefix_nil.mp isPrefix
  exact h.cells.of_prefix ((List.prefix_append_right_inj _).mpr isPrefix)

theorem kill :
    Lined { d with e := d.eraseLine (d.e - d.w).toNat d.e } { l with pending := [] } := by
  have count : (d.e - d.w).toNat = l.pending.length := by
    have close := h.close
    have below := h.le
    rw [h.w.sub h.e (Nat.le_add_right ..) (by omega), Nat.add_sub_cancel_left]
  rw [count, h.eraseLine _ l.pending.length d.e le_rfl le_rfl h.e]
  exact h.shorten List.nil_prefix h.w

theorem erase :
    Lined (if d.e ≠ d.w then { d with e := d.e - 1 } else d) { l with pending := l.pending.dropLast } := by
  have none := h.w_eq_iff h.e le_rfl
  split
  · rename_i ne
    have some : l.pending.length ≠ 0 := fun zero => ne (none.mpr zero).symm
    refine h.shorten (List.dropLast_prefix _) (Ring.Counts.pred ?_)
    rw [List.length_dropLast]
    have : l.committed.length + (l.pending.length - 1) + 1 =
        l.committed.length + l.pending.length := by omega
    rw [this]
    exact h.e
  rename_i eq
  have zero := none.mp (not_not.mp eq).symm
  rw [List.length_eq_zero_iff.mp zero, List.dropLast_nil, ← List.length_eq_zero_iff.mp zero]
  exact h

theorem store (fits : l.held < INPUT_BUF_SIZE) (c : UInt8) :
    Lined (d.store c).1 (if l.commits c then { l with committed := l.committed ++ (l.pending ++ [c]), pending := [] }
      else { l with pending := l.pending ++ [c] }) := by
  have below := h.le
  have held := h.held
  have size : l.held = l.committed.length + l.pending.length - l.consumed := rfl
  have cells : Ring.Holds INPUT_BUF_SIZE (Function.update d.buf (d.e.toNat % INPUT_BUF_SIZE) c)
      (l.committed ++ (l.pending ++ [c])) l.consumed := by
    rw [h.e.index INPUT_BUF_SIZE_dvd, ← List.append_assoc, ← length_append]
    exact h.cells.push (by rw [length_append]; omega)
  have counts : Ring.Counts (d.e + 1) (l.committed.length + (l.pending.length + 1)) := h.e.succ
  have whole : l.commits c = true ↔ c = newline ∨ c = ctrlD ∨
      d.e + 1 - d.r = UInt32.ofNat INPUT_BUF_SIZE := by
    rw [Line.commits, Bool.or_eq_true, Bool.or_eq_true, beq_iff_eq, beq_iff_eq, beq_iff_eq,
      or_assoc,
      ← UInt32.toNat_inj, h.r.sub counts (by omega) (by rw [INPUT_BUF_SIZE] at fits; omega)]
    have same : (UInt32.ofNat INPUT_BUF_SIZE).toNat = INPUT_BUF_SIZE := rfl
    rw [same, show l.committed.length + (l.pending.length + 1) - l.consumed = l.held + 1 by omega]
  rw [Cons.store]
  by_cases commits : l.commits c = true
  · rw [if_pos (whole.mp commits), if_pos commits]
    refine ⟨h.r, ?_, ?_, ?_, ?_, fun _ => rfl, ?_, List.not_mem_nil⟩
    · simpa using counts
    · simpa using counts
    · simp only [length_append, length_singleton]
      omega
    · simp only [length_append, length_singleton, List.length_nil]
      omega
    simpa using cells
  rw [if_neg (fun h => commits (whole.mpr h)), if_neg commits]
  rw [Line.commits] at commits
  simp only [Bool.or_eq_true, beq_iff_eq, not_or] at commits
  refine ⟨h.r, h.w, ?_, h.le, ?_, ?_, cells, ?_⟩
  · simpa using counts
  · simp only [length_append, length_singleton]
    omega
  · simp only [length_append, length_singleton]
    omega
  simp only [mem_append, List.mem_singleton, not_or]
  exact ⟨h.unbroken, fun eq => commits.1.1 eq.symm⟩

/-- `consoleintr` does to the line what its key says. -/
theorem key (c : UInt8) : Lined (d.consoleintr c).1 (l.key Line.unstored c) := by
  rw [Cons.consoleintr, Line.key, Line.unstored]
  by_cases print : c = 16
  · rw [if_pos print, if_pos (by simp [print])]
    exact h
  rw [if_neg print]
  by_cases nul : c = 0
  · subst nul
    exact h
  rw [if_neg (show ¬(c == 0 || c == 16) = true by simp [nul, print])]
  by_cases kill : c = 21
  · rw [if_pos kill, if_pos kill]
    exact h.kill
  rw [if_neg kill, if_neg kill]
  by_cases erase : c = 8 ∨ c = 127
  · rw [if_pos erase, if_pos erase]
    exact h.erase
  rw [if_neg erase, if_neg erase, Line.type]
  have fits : d.e - d.r < UInt32.ofNat INPUT_BUF_SIZE ↔ l.held < INPUT_BUF_SIZE := by
    rw [UInt32.lt_iff_toNat_lt, h.held]
    rfl
  by_cases room : l.held < INPUT_BUF_SIZE
  · rw [if_pos ⟨nul, fits.mpr room⟩, if_pos room]
    exact h.store room _
  rw [if_neg (fun both => room (fits.mp both.2)), if_neg room]
  exact h

end

end Lined

/-! ## What is handed out -/

/-- The bytes taken are the first committed ones, and those handed out are these without control-D.
-/
structure Handed (d : Cons P) (l : Line) : Prop where
  count : d.taken.length = l.consumed
  order : d.taken.map Prod.snd <+: l.committed
  handed : d.handed = (d.taken.map Prod.snd).filter (· ≠ ctrlD)

def Cons.line (d : Cons P) : Line := Line.run Line.unstored d.events

/-- The console is as its line discipline says. -/
structure Cons.Ok (d : Cons P) : Prop where
  lined : Lined d d.line
  handed : Handed d d.line

theorem Cons.consoleintr_taken (d : Cons P) (c : UInt8) :
    (d.consoleintr c).1.taken = d.taken ∧ (d.consoleintr c).1.handed = d.handed := by
  simp only [Cons.consoleintr, Cons.store]
  split_ifs <;> exact ⟨rfl, rfl⟩

theorem Lined.of_eq {d d' : Cons P} {l : Line} (h : Lined d l) (buf : d'.buf = d.buf)
    (r : d'.r = d.r) (w : d'.w = d.w) (e : d'.e = d.e) : Lined d' l :=
  ⟨r ▸ h.r, w ▸ h.w, e ▸ h.e, h.le, h.room, h.full, buf ▸ h.cells, h.unbroken⟩

namespace Cons.Ok

variable {d : Cons P}

theorem init (buf : Nat → UInt8) : (Cons.init buf : Cons P).Ok := ⟨.init buf, rfl, prefix_rfl, rfl⟩

theorem key (ok : d.Ok) (c : UInt8) :
    Cons.Ok { (d.consoleintr c).1 with events := d.events ++ [.key c] } := by
  obtain ⟨taken, handed⟩ := d.consoleintr_taken c
  have line : Cons.line { (d.consoleintr c).1 with events := d.events ++ [.key c] } =
    d.line.step Line.unstored (.key c) :=
    Line.run_concat ..
  refine ⟨?_, ?_⟩
  · rw [line]
    exact (ok.lined.key c).of_eq rfl rfl rfl rfl
  rw [line]
  refine ⟨?_, ?_, ?_⟩
  · simp only [taken, ok.handed.count, Line.step, Line.key, Line.type]
    split_ifs <;> rfl
  · simp only [taken]
    exact ok.handed.order.trans (Line.committed_prefix ..)
  simp only [taken, handed]
  exact ok.handed.handed

/-- The byte at `cons.r` is the first committed one that is not taken. -/
theorem next (ok : d.Ok) (some' : d.r ≠ d.w) :
    d.line.committed[d.taken.length]? = some (d.get d.r) := by
  rw [ok.handed.count]
  exact ok.lined.next (lt_of_le_of_ne ok.lined.le fun eq => some' (ok.lined.r_eq_w_iff.mpr eq))

/-- A byte is taken; it is handed out unless it is a control-D. -/
theorem take (ok : d.Ok) (some : d.r ≠ d.w) (tag : Tag P) {d' : Cons P} (buf : d'.buf = d.buf)
    (r : d'.r = d.r + 1) (w : d'.w = d.w) (e : d'.e = d.e)
    (events : d'.events = d.events ++ [.take]) (taken : d'.taken = d.taken ++ [(tag, d.get d.r)])
    (handed : d'.handed = d.handed ++ [d.get d.r].filter (· ≠ ctrlD)) : d'.Ok := by
  have line : d'.line = d.line.step Line.unstored .take := by
    rw [Cons.line, events]
    exact Line.run_concat ..
  refine ⟨?_, ?_⟩
  · rw [line]
    exact (ok.lined.take some tag).of_eq buf r w e
  rw [line]
  refine ⟨?_, ?_, ?_⟩
  · rw [taken, length_append, ok.handed.count]
    rfl
  · rw [taken, List.map_append]
    refine Ring.isPrefix_concat ok.handed.order ?_
    rw [List.length_map]
    exact ok.next some
  rw [taken, handed, ok.handed.handed, List.map_append, List.filter_append]
  rfl

end Cons.Ok

/-! ## What each read gets -/

section Reads

variable [DecidableEq P]

/-- What a read that returned a count took out of the buffer. A control-D that ended it was the
first byte that it found, and then it is all that the read took, or it is left for the next one.
-/
def Done.Exact (d : Cons P) (tag : Tag P) (done : Done) : Prop :=
  match done.call with
  | .intr _ => True
  | .read _ n => 0 ≤ done.result →
      match done.eof with
      | some k => d.line.committed[k]? = some ctrlD ∧
          (done.result = 0 ∧ moved tag d.taken = [ctrlD] ∨
            0 < done.result ∧ ((moved tag d.taken).length : Int) = done.result ∧
              ctrlD ∉ moved tag d.taken ∧ newline ∉ moved tag d.taken)
      | none => ((moved tag d.taken).length : Int) = done.result ∧ ctrlD ∉ moved tag d.taken ∧
          newline ∉ (moved tag d.taken).dropLast ∧
          (done.result < n → (moved tag d.taken).getLast? = some newline)

def At.Exact (d : Cons P) : At P → Prop
  | .intr _ _ _ => True
  | .read f dst target n pc => (∀ j, dst j = true) ∧
      match pc with
      | .loop | .sleep | .quit => ((moved f.tag d.taken).length : Int) = target - n ∧ ctrlD ∉ moved f.tag d.taken ∧
          newline ∉ moved f.tag d.taken ∧ (0 ≤ n ∨ n = target)
      | .done eof => Done.Exact d f.tag ⟨.read dst target, target - n, eof⟩

/-- Only the call `tag` takes bytes, and what is committed stays. -/
def OnlyBy (tag : Tag P) (d d' : Cons P) : Prop :=
  (∀ other, other ≠ tag → moved other d'.taken = moved other d.taken) ∧ d.line.committed <+: d'.line.committed

theorem OnlyBy.refl (tag : Tag P) (d : Cons P) : OnlyBy tag d d := ⟨fun _ _ => rfl, prefix_rfl⟩

theorem Done.Exact.only {tag other : Tag P} {d d' : Cons P} {done : Done} (h : done.Exact d other)
    (ne : other ≠ tag) (only : OnlyBy tag d d') : done.Exact d' other := by
  rw [Done.Exact] at h ⊢
  split
  · trivial
  rename_i dst n call
  rw [call] at h
  intro ok
  have before := h ok
  rw [only.1 other ne]
  split
  · rename_i k eof
    rw [eof] at before
    exact ⟨Ring.getElem?_of_isPrefix only.2 before.1, before.2⟩
  rename_i eof
  rw [eof] at before
  exact before

theorem At.Exact.only {tag : Tag P} {d d' : Cons P} {l : At P} (h : l.Exact d)
    (ne : l.frame.tag ≠ tag) (only : OnlyBy tag d d') : l.Exact d' := by
  cases l with
  | intr f c pc => trivial
  | read f dst target n pc =>
    refine ⟨h.1, ?_⟩
    have same := only.1 f.tag ne
    cases pc with
    | done eof => exact Done.Exact.only h.2 ne only
    | loop | sleep | quit =>
      simp only [same]
      exact h.2

def ledger : Ledger P (Cons P) (At P) Done where
  frame := At.frame
  fresh d tag := moved tag d.taken = []
  active := At.Exact
  done := Done.Exact
  only := OnlyBy
  fresh_only only ne h := by rw [only.1 _ ne, h]
  active_only only ne h := h.only ne only
  done_only only ne h := h.only ne only

abbrev Honest (d : Cons P) (p : P) (loc : Loc (At P) (List Done)) : Prop := ledger.Honest d p loc

variable {d d' : Cons P} {p : P} {f : Activation P Done} {dst : Nat → Bool} {target n : Int}

theorem OnlyBy.take (tag : Tag P) (d : Cons P) {d' : Cons P} {c : UInt8}
    (taken : d'.taken = d.taken ++ [(tag, c)]) (events : d'.events = d.events ++ [.take]) :
    OnlyBy tag d d' := by
  constructor
  · intro other ne
    rw [taken]
    exact moved_concat_of_ne ne ..
  rw [Cons.line, Cons.line, events, Line.run_concat]
  exact Line.committed_prefix ..

section

variable (exact : At.Exact d (.read f dst target n .loop))
include exact

theorem At.Exact.eofFirst (ok : d.Ok) (some' : d.r ≠ d.w) (eof : d.get d.r = ctrlD)
    (first : ¬n < target) :
    At.Exact (d.take f.tag) (.read f dst target n (.done (some d.taken.length))) := by
  obtain ⟨mapped, count, -, -, -⟩ := exact
  refine ⟨mapped, fun _ => ?_⟩
  have nothing : moved f.tag d.taken = [] := by
    rw [← List.length_eq_zero_iff]
    omega
  have found := ok.next some'
  rw [eof] at found
  refine ⟨Ring.getElem?_of_isPrefix (OnlyBy.take f.tag d rfl rfl).2 found,
    .inl ⟨by simp only; omega, ?_⟩⟩
  rw [Cons.take, moved_concat_self, nothing, eof]
  rfl

theorem At.Exact.eofLater (ok : d.Ok) (some' : d.r ≠ d.w) (eof : d.get d.r = ctrlD)
    (later : n < target) :
    At.Exact d (.read f dst target n (.done (some d.taken.length))) := by
  obtain ⟨mapped, count, noEof, noNl, -⟩ := exact
  refine ⟨mapped, fun _ => ?_⟩
  have found := ok.next some'
  rw [eof] at found
  exact ⟨found, .inr ⟨by simp only; omega, count, noEof, noNl⟩⟩

/-- It takes another byte. -/
theorem At.Exact.byte (more : 0 < n) {c : UInt8} (other : c ≠ ctrlD)
    (taken : d'.taken = d.taken ++ [(f.tag, c)]) :
    At.Exact d' (.read f dst target (n - 1) (if c = newline then .done none else .loop)) := by
  obtain ⟨mapped, count, noEof, noNl, -⟩ := exact
  refine ⟨mapped, ?_⟩
  have bytes : moved f.tag d'.taken = moved f.tag d.taken ++ [c] := by rw [taken, moved_concat_self]
  have length : ((moved f.tag d'.taken).length : Int) = target - (n - 1) := by
    rw [bytes, length_append, length_singleton]
    omega
  have eof : ctrlD ∉ moved f.tag d'.taken := by
    rw [bytes, mem_append, List.mem_singleton, not_or]
    exact ⟨noEof, fun eq => other eq.symm⟩
  split_ifs with line
  · refine fun _ => ⟨length, eof, ?_, fun _ => ?_⟩
    · rw [bytes, List.dropLast_concat]
      exact noNl
    rw [bytes, List.getLast?_concat, line]
  refine ⟨length, eof, ?_, .inl (by omega)⟩
  rw [bytes, mem_append, List.mem_singleton, not_or]
  exact ⟨noNl, fun eq => line eq.symm⟩

/-- A read that has all its bytes. -/
theorem At.Exact.all (all : ¬0 < n) : Done.Exact d f.tag ⟨.read dst target, target - n, none⟩ := by
  obtain ⟨mapped, count, noEof, noNl, -⟩ := exact
  refine fun _ => ⟨count, noEof, fun mem => noNl (List.mem_of_mem_dropLast mem), fun short => ?_⟩
  simp only at short
  omega

end

theorem read_honest {pc : ReadAt} {dest : Loc (At P) (List Done)}
    (h : Honest d p (.at (.read f dst target n pc))) (ok : d.Ok)
    (step : code.Next (.read f dst target n pc) d dest d') :
    Honest d' p dest ∧ OnlyBy f.tag d d' ∧ d'.Ok := by
  have exact : At.Exact d (.read f dst target n pc) := h.active _ rfl
  cases pc with
  | loop =>
    by_cases more : 0 < n
    swap
    · obtain ⟨rfl, rfl⟩ := step.of_release (if_neg more)
      exact ⟨h.finish (exact.all more), .refl _ _, ok⟩
    by_cases none : d.r = d.w
    · obtain ⟨rfl | rfl, rfl⟩ := step.of_killed ((if_pos more).trans (if_pos none))
      · exact ⟨h.move rfl (OnlyBy.refl _ _) exact, .refl _ _, ok⟩
      exact ⟨h.move rfl (OnlyBy.refl _ _) exact, .refl _ _, ok⟩
    have act : code.body (.read f dst target n .loop) d = _ := (if_pos more).trans (if_neg none)
    by_cases eof : d.get d.r = ctrlD
    · rw [if_pos eof] at act
      by_cases later : n < target
      · rw [if_pos later] at act
        obtain ⟨rfl, rfl⟩ := step.of_set act
        exact ⟨h.move rfl (OnlyBy.refl _ _) (exact.eofLater ok none eof later), .refl _ _, ok⟩
      rw [if_neg later] at act
      obtain ⟨rfl, rfl⟩ := step.of_set act
      have only : OnlyBy f.tag d (d.take f.tag) := .take _ _ rfl rfl
      refine ⟨h.move rfl only (exact.eofFirst ok none eof later), only, ?_⟩
      refine ok.take none f.tag rfl rfl rfl rfl rfl rfl ?_
      rw [eof]
      exact (List.append_nil _).symm
    rw [if_neg eof, if_pos (exact.1 _)] at act
    obtain ⟨rfl, rfl⟩ := step.of_set act
    have only : OnlyBy f.tag d ((d.take f.tag).hand (d.get d.r)) := .take _ _ rfl rfl
    refine ⟨h.move rfl only (exact.byte more eof rfl), only, ?_⟩
    refine ok.take none f.tag rfl rfl rfl rfl rfl rfl ?_
    rw [List.filter_cons_of_pos (by simpa using eof)]
    rfl
  | sleep =>
    obtain ⟨rfl, rfl⟩ := step.of_sleep rfl
    exact ⟨h.move rfl (OnlyBy.refl _ _) exact, .refl _ _, ok⟩
  | done eof =>
    obtain ⟨rfl, rfl⟩ := step.of_release rfl
    exact ⟨h.finish exact.2, .refl _ _, ok⟩
  | quit =>
    obtain ⟨rfl, rfl⟩ := step.of_release rfl
    exact ⟨h.finish (fun absurd => nomatch absurd), .refl _ _, ok⟩

theorem intr_honest {c : UInt8} {pc : IntrAt} {dest : Loc (At P) (List Done)}
    (h : Honest d p (.at (.intr f c pc))) (ok : d.Ok) (step : code.Next (.intr f c pc) d dest d') :
    Honest d' p dest ∧ OnlyBy f.tag d d' ∧ d'.Ok := by
  cases pc with
  | switch =>
    obtain ⟨rfl, rfl⟩ := step.of_set rfl
    have only : OnlyBy f.tag d { (d.consoleintr c).1 with events := d.events ++ [.key c] } := by
      constructor
      · intro other _
        simp only [(d.consoleintr_taken c).1]
      rw [Cons.line, Cons.line, Line.run_concat]
      exact Line.committed_prefix ..
    exact ⟨h.move rfl only trivial, only, ok.key c⟩
  | wake =>
    obtain ⟨rfl, rfl⟩ := step.of_wakeup rfl
    exact ⟨h.move rfl (OnlyBy.refl _ _) trivial, .refl _ _, ok⟩
  | done =>
    obtain ⟨rfl, rfl⟩ := step.of_release rfl
    exact ⟨h.finish trivial, .refl _ _, ok⟩

theorem next_honest {l : At P} {dest : Loc (At P) (List Done)} (h : Honest d p (.at l)) (ok : d.Ok)
    (step : code.Next l d dest d') : Honest d' p dest ∧ OnlyBy l.frame.tag d d' ∧ d'.Ok := by
  cases l with
  | read f dst target n pc => exact read_honest h ok step
  | intr f c pc => exact intr_honest h ok step

def Mapped (_ : State P (Cons P) Unit (At P) (List Done)) : Action P Call → Prop
  | .call _ (.read dst _) => ∀ j, dst j = true
  | _ => True

theorem Reachable.ok {table : List P} {buf : Nat → UInt8}
    {s : State P (Cons P) Unit (At P) (List Done)} (run : Reachable table buf Mapped s) :
    s.data.Ok ∧ ∀ p, Honest s.data p (s.loc p) := by
  refine State.Reachable.rule (fun loc d => d.Ok ∧ ∀ p, Honest d p (loc p))
    ⟨.init buf, ?_⟩ ?_ ?_ run
  · intro p
    exact .init fun _ => rfl
  · intro s p past f l both allowed out entered
    have mine := both.2 p
    rw [out] at mine
    refine ⟨both.1, Ledger.honest_update (k := ledger) both.2 (OnlyBy.refl (p, 0) _) rfl ?_⟩
    cases f with
    | read dst n =>
      cases entered
      refine mine.enter rfl fun none => ⟨allowed, ?_⟩
      have empty : moved (p, past.length) s.data.taken = [] := none
      simp [Activation.tag, empty]
    | intr c =>
      cases entered
      exact mine.enter rfl fun _ => trivial
  intro loc d p l dest d' both here step
  have mine := both.2 p
  rw [here] at mine
  obtain ⟨honest, only, ok⟩ := next_honest mine both.1 step
  exact ⟨ok, Ledger.honest_update both.2 only (mine.own l rfl) honest⟩

theorem Reachable.committed_stays {table : List P} {buf : Nat → UInt8}
    {s t : State P (Cons P) Unit (At P) (List Done)} (run : Reachable table buf Mapped s)
    {a : Action P Call} (allowed : Mapped s a) (stepped : s.step code table a = some t) {j : Nat}
    (low : s.data.line.consumed ≤ j) (high : j < s.data.line.committed.length) :
    j < t.data.line.consumed ∨
      j < t.data.line.committed.length ∧
        t.data.buf (j % INPUT_BUF_SIZE) = s.data.buf (j % INPUT_BUF_SIZE) := by
  have grows : s.data.line.committed <+: t.data.line.committed := by
    rcases State.step_data run.inv stepped with same | ⟨p, l, dest, here, step⟩
    · rw [same]
    have mine := run.ok.2 p
    rw [here] at mine
    exact (next_honest mine run.ok.1 step).2.1.2
  by_cases gone : j < t.data.line.consumed
  · exact .inl gone
  have found := List.getElem?_eq_getElem high
  have there := Ring.getElem?_of_isPrefix grows found
  have before := run.ok.1.lined.cells j _ low (Ring.getElem?_of_isPrefix (prefix_append ..) found)
  have later : Reachable table buf Mapped t := run.step allowed stepped
  have after := later.ok.1.lined.cells j _ (not_lt.mp gone)
    (Ring.getElem?_of_isPrefix (prefix_append ..) there)
  refine .inr ⟨lt_of_lt_of_le high grows.length_le, ?_⟩
  rw [after, before]

/-- The console is its line discipline. The indices are in order and at most `INPUT_BUF_SIZE`
apart, a full buffer has something to read, a committed byte stays where it is until it is taken,
the bytes handed out are the committed ones in order, without the control-Ds, and a control-D ends
a read: with no bytes if it came first. -/
theorem console_line_discipline {table : List P} {buf : Nat → UInt8}
    {s : State P (Cons P) Unit (At P) (List Done)} (run : Reachable table buf Mapped s) :
    ((s.data.w - s.data.r).toNat ≤ (s.data.e - s.data.r).toNat ∧
      (s.data.e - s.data.r).toNat ≤ INPUT_BUF_SIZE) ∧
    ((s.data.e - s.data.r).toNat = INPUT_BUF_SIZE → s.data.r ≠ s.data.w) ∧
    (s.data.r = UInt32.ofNat s.data.line.consumed ∧
      s.data.w = UInt32.ofNat s.data.line.committed.length ∧
      ∀ j c, s.data.line.consumed ≤ j → s.data.line.committed[j]? = some c →
        s.data.buf (j % INPUT_BUF_SIZE) = c) ∧
    (∀ a t, Mapped s a → s.step code table a = some t → ∀ j, s.data.line.consumed ≤ j →
      j < s.data.line.committed.length → j < t.data.line.consumed ∨
        j < t.data.line.committed.length ∧
          t.data.buf (j % INPUT_BUF_SIZE) = s.data.buf (j % INPUT_BUF_SIZE)) ∧
    s.data.handed = (s.data.line.committed.take s.data.line.consumed).filter (· ≠ ctrlD) ∧
    (∀ p k dst n r, (ledger.finished (s.loc p))[k]? = some ⟨.read dst n, r, none⟩ → 0 ≤ r →
      ((moved (p, k) s.data.taken).length : Int) = r ∧ ctrlD ∉ moved (p, k) s.data.taken ∧
        newline ∉ (moved (p, k) s.data.taken).dropLast ∧
        (r < n → (moved (p, k) s.data.taken).getLast? = some newline)) ∧
    (∀ p k dst n r j, (ledger.finished (s.loc p))[k]? = some ⟨.read dst n, r, some j⟩ → 0 ≤ r →
      s.data.line.committed[j]? = some ctrlD ∧ (r = 0 ∧ moved (p, k) s.data.taken = [ctrlD] ∨
          0 < r ∧ ((moved (p, k) s.data.taken).length : Int) = r ∧
            ctrlD ∉ moved (p, k) s.data.taken ∧
            newline ∉ moved (p, k) s.data.taken)) := by
  obtain ⟨⟨lined, handed⟩, honest⟩ := run.ok
  have held := lined.held
  have room := lined.room
  have below := lined.le
  have close := lined.close
  have size : s.data.line.held =
      s.data.line.committed.length + s.data.line.pending.length - s.data.line.consumed := rfl
  refine ⟨⟨?_, ?_⟩, ?_, ⟨lined.r, lined.w, ?_⟩, ?_, ?_, ?_, ?_⟩
  · rw [held, lined.r.sub lined.w below (by omega)]
    omega
  · omega
  · intro full empty
    have none := lined.full (by omega)
    have all := lined.r_eq_w_iff.mp empty
    rw [none, List.length_nil] at size
    rw [INPUT_BUF_SIZE] at full
    omega
  · intro j c low found
    exact lined.cells j c low (Ring.getElem?_of_isPrefix (List.prefix_append ..) found)
  · intro a t allowed stepped j low high
    exact run.committed_stays allowed stepped low high
  · rw [handed.handed, ← handed.count]
    congr 1
    have := List.prefix_iff_eq_take.mp handed.order
    rwa [List.length_map] at this
  · intro p k dst n r found ok
    exact (honest p).past k _ found ok
  intro p k dst n r j found ok
  exact (honest p).past k _ found ok

end Reads

local instance one : NeZero 1 := ⟨by decide⟩

def typeNul : List (Action (Fin 1) Call) :=
  .call 0 (.intr 0) :: replicate 3 (.run 0) ++ .call 0 (.intr newline) :: replicate 6 (.run 0) ++
    .call 0 (.read (fun _ => true) 2) :: replicate 3 (.run 0)

theorem typeNul_plays : ∃ s : State (Fin 1) (Cons (Fin 1)) Unit (At (Fin 1)) (List Done),
    Reachable [0] (fun _ => 0) Mapped s ∧ s.data.handed = [newline] ∧
    (Line.run (fun _ => false) s.data.events).committed = [0, newline] := by
  have played : ((State.init (fun _ => [])
      (.init fun _ => 0)).play code [0] (fun _ _ => true) typeNul).any
      (fun s => decide (s.data.handed = [newline] ∧
        (Line.run (fun _ => false) s.data.events).committed = [0, newline])) = true := by
    decide
  have allowed : ∀ s, ∀ a ∈ typeNul, true = true → Mapped s a := by simp [typeNul, Mapped]
  obtain ⟨s, run, check⟩ := State.Reachable.of_play allowed played
  exact ⟨s, run, of_decide_eq_true check⟩

/-- The NUL is lost, although it is not an editing character and there was room for it. -/
theorem typeNul_dropped : ∃ s : State (Fin 1) (Cons (Fin 1)) Unit (At (Fin 1)) (List Done),
    Reachable [0] (fun _ => 0) Mapped s ∧
    ¬s.data.handed <+: (Line.run (fun _ => false) s.data.events).committed.filter (· ≠ ctrlD) := by
  obtain ⟨s, run, handed, committed⟩ := typeNul_plays
  refine ⟨s, run, ?_⟩
  rw [handed, committed]
  decide

theorem typeNul_disciplined : ∃ s : State (Fin 1) (Cons (Fin 1)) Unit (At (Fin 1)) (List Done),
    Reachable [0] (fun _ => 0) Mapped s ∧ s.data.handed = [newline] ∧
    ((s.data.w - s.data.r).toNat ≤ (s.data.e - s.data.r).toNat ∧
      (s.data.e - s.data.r).toNat ≤ INPUT_BUF_SIZE) ∧
    s.data.handed = (s.data.line.committed.take s.data.line.consumed).filter (· ≠ ctrlD) := by
  obtain ⟨s, run, handed, -⟩ := typeNul_plays
  obtain ⟨indices, -, -, -, order, -⟩ := console_line_discipline run
  exact ⟨s, run, handed, indices, order⟩

end Xv6.Console
