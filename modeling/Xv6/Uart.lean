import Xv6.Lib.Ring
import Xv6.Monitor.Guard

/-!
# The transmit buffer of the UART

`uartputc`, `uartstart` and the part of `uartintr` that sends, of `kernel/uart.c`, by any processes
and interrupt handlers. `uartputc_sync` writes to the device past the buffer and is left out.
-/

namespace Xv6.Uart

open List (length_append length_singleton)
open Monitor

def UART_TX_BUF_SIZE : Nat := 32

/-- The buffer with its `uint64` counters, and what happened so far: the bytes put into the
buffer, taken out of it and written to `THR`, and what `LSR_TX_IDLE` was when `uartstart` last
looked. -/
structure Tx where
  buf : Nat → UInt8
  w : Nat
  r : Nat
  put : List UInt8
  taken : List UInt8
  sent : List UInt8
  idle : Bool

/-- `uartputc(c)`, or an interrupt. `panicked` is what the test of it finds, and `lsr` what the
reads of `LSR_TX_IDLE` find, one after the other: the device may become idle, or busy, at any
time. -/
inductive Call
  | putc (c : UInt8) (panicked : Bool) (lsr : Nat → Bool)
  | intr (lsr : Nat → Bool)

/-- The endless loop after a panic, the loop that waits for room, and in `uartstart` the head of the
loop, before `wakeup`, before the write to `THR`, and before the return when the device is busy. -/
inductive At
  | panicked
  | wait (c : UInt8) (lsr : Nat → Bool)
  | start (lsr : Nat → Bool)
  | wake (c : UInt8) (lsr : Nat → Bool)
  | thr (c : UInt8) (lsr : Nat → Bool)
  | busy

namespace Tx

def init (buf : Nat → UInt8) : Tx := ⟨buf, 0, 0, [], [], [], true⟩

/-- `uart_tx_w == uart_tx_r + UART_TX_BUF_SIZE` -/
def full (d : Tx) : Prop := d.w = (d.r + UART_TX_BUF_SIZE) % 2 ^ 64

instance (d : Tx) : Decidable d.full := inferInstanceAs (Decidable (_ = _))

def store (d : Tx) (c : UInt8) : Tx :=
  { d with buf := Function.update d.buf (d.w % UART_TX_BUF_SIZE) c, w := (d.w + 1) % 2 ^ 64, put := d.put ++ [c] }

def next (d : Tx) : UInt8 := d.buf (d.r % UART_TX_BUF_SIZE)

def take (d : Tx) : Tx := { d with r := (d.r + 1) % 2 ^ 64, taken := d.taken ++ [d.next], idle := true }

end Tx

def body : At → Tx → Act Tx Unit At Unit
  | .panicked, d => .set d .panicked
  | .wait c lsr, d => if d.full then .sleep () (.wait c lsr) else .set (d.store c) (.start lsr)
  | .start lsr, d =>
    if d.w = d.r then .release ()
    else if lsr 0 then .set d.take (.wake d.next fun n => lsr (n + 1))
    else .set { d with idle := false } .busy
  | .wake c lsr, _ => .wakeup () (.thr c lsr)
  | .thr c lsr, d => .set { d with sent := d.sent ++ [c] } (.start lsr)
  | .busy, _ => .release ()

def entry : Call → Option At
  | .putc _ true _ => some .panicked
  | .putc c false lsr => some (.wait c lsr)
  | .intr lsr => some (.start lsr)

def code {P : Type} : Code P Tx Unit At Unit Call where
  entry _ _ := entry
  body := body

abbrev Reachable {P : Type} [DecidableEq P] (table : List P) (buf : Nat → UInt8) :
    State P Tx Unit At Unit → Prop :=
  State.Reachable code table (fun _ => ()) (.init buf) fun _ _ => True

/-! ## The order of the bytes -/

/-- The buffer holds what was put into it and not yet taken. -/
structure Tx.Ok (d : Tx) : Prop where
  w : d.w = d.put.length % 2 ^ 64
  r : d.r = d.taken.length % 2 ^ 64
  order : d.taken <+: d.put
  room : d.put.length ≤ d.taken.length + UART_TX_BUF_SIZE
  cells : Ring.Holds UART_TX_BUF_SIZE d.buf d.put d.taken.length

namespace Tx.Ok

variable {d : Tx} (ok : d.Ok)
include ok

theorem full_iff : d.full ↔ d.put.length = d.taken.length + UART_TX_BUF_SIZE := by
  have room := ok.room
  have order := ok.order.length_le
  rw [full, ok.w, ok.r]
  rw [UART_TX_BUF_SIZE] at *
  omega

theorem empty_iff : d.w = d.r ↔ d.taken = d.put := by
  constructor
  · intro same
    have room := ok.room
    have order := ok.order.length_le
    rw [ok.w, ok.r] at same
    refine ok.order.eq_of_length ?_
    rw [UART_TX_BUF_SIZE] at room
    omega
  intro same
  rw [ok.w, ok.r, same]

theorem store (room : ¬d.full) (c : UInt8) : (d.store c).Ok := by
  have fits := ok.room
  rw [ok.full_iff] at room
  have index : d.w % UART_TX_BUF_SIZE = d.put.length % UART_TX_BUF_SIZE := by
    rw [ok.w, UART_TX_BUF_SIZE]
    omega
  refine ⟨?_, ok.r, ok.order.trans (List.prefix_append ..), ?_, ?_⟩
  · simp only [Tx.store, ok.w, length_append, length_singleton]
    omega
  · simp only [Tx.store, length_append, length_singleton]
    omega
  simp only [Tx.store, index]
  exact ok.cells.push (by omega)

theorem take (some : d.w ≠ d.r) : d.take.Ok := by
  have room := ok.room
  have fewer : d.taken.length < d.put.length :=
    lt_of_le_of_ne ok.order.length_le fun same => some (ok.empty_iff.mpr (ok.order.eq_of_length same))
  have index : d.r % UART_TX_BUF_SIZE = d.taken.length % UART_TX_BUF_SIZE := by
    rw [ok.r, UART_TX_BUF_SIZE]
    omega
  refine ⟨ok.w, ?_, Ring.isPrefix_concat ok.order ?_, ?_, ?_⟩
  · simp only [Tx.take, ok.r, length_append, length_singleton]
    omega
  · rw [next, index]
    exact ok.cells.read fewer
  · simp only [Tx.take, length_append, length_singleton]
    omega
  exact ok.cells.later (by simp [Tx.take])

end Tx.Ok

/-- While nobody has the lock, all that was taken is sent, and bytes are left in the buffer only if
the device was busy. -/
structure Tx.Free (d : Tx) : Prop where
  ok : d.Ok
  sent : d.taken = d.sent
  idle : d.idle = true → d.taken = d.put

@[simp] def At.Holds (d : Tx) : At → Prop
  | panicked | wait _ _ | busy => d.Free
  | start _ => d.Ok ∧ d.taken = d.sent
  | wake c _ | thr c _ => d.Ok ∧ d.taken = d.sent ++ [c]

theorem body_keeps {l : At} {d : Tx} (h : l.Holds d) :
    (body l d).keeps Tx.Free (fun l d => l.Holds d) d := by
  cases l with
  | panicked | wake c lsr | busy => exact h
  | wait c lsr =>
    rw [body]
    split
    · exact ⟨h, fun _ free => free⟩
    · rename_i room
      exact ⟨h.ok.store room c, h.sent⟩
  | start lsr =>
    obtain ⟨ok, sent⟩ := h
    rw [body]
    split
    · rename_i empty
      exact ⟨ok, sent, fun _ => ok.empty_iff.mp empty⟩
    rename_i some
    split
    · refine ⟨ok.take some, ?_⟩
      rw [Tx.take, sent]
    exact ⟨⟨ok.w, ok.r, ok.order, ok.room, ok.cells⟩, sent, fun idle => by cases idle⟩
  | thr c lsr =>
    obtain ⟨ok, sent⟩ := h
    exact ⟨⟨ok.w, ok.r, ok.order, ok.room, ok.cells⟩, sent⟩

theorem At.Holds.sent {l : At} {d : Tx} (h : l.Holds d) : d.sent <+: d.put := by
  cases l with
  | panicked | wait c lsr | busy => exact Tx.Free.sent h ▸ (Tx.Free.ok h).order
  | start lsr => exact h.2 ▸ h.1.order
  | wake c lsr | thr c lsr => exact (h.2 ▸ List.prefix_append ..).trans h.1.order

theorem guards {P : Type} : (code (P := P)).Guards Tx.Free fun l d => l.Holds d where
  entry := by
    intro x w f l entered d free
    cases f with
    | putc c panicked lsr =>
      cases panicked <;> cases entered <;> exact free
    | intr lsr =>
      cases entered
      exact ⟨free.ok, free.sent⟩
  body := body_keeps

/-! ## Waiting for room -/

@[simp] def At.Due : At → Unit → Prop
  | wake _ _, _ => True
  | _, _ => False

theorem body_ne_killed (l : At) (d : Tx) (yes no : At) : body l d ≠ .killed yes no := by
  intro act
  cases l <;> simp only [body] at act
  all_goals repeat' split at act
  all_goals cases act

theorem discipline {P : Type} :
    (code (P := P)).Discipline (fun _ _ => True) At.Due (fun _ d => d.full) fun _ => True where
  entry _ _ := trivial
  set := by
    intro l d d' next _ act
    refine ⟨trivial, fun c before => ?_⟩
    cases l <;> simp only [code, body] at act
    all_goals repeat' split at act
    all_goals cases act
    case wait.isFalse room => exact absurd (before.resolve_right id) room
    case start.isFalse.isTrue => exact .inr trivial
    all_goals exact before
  wakeup := by
    intro l d chan next _ _
    exact ⟨trivial, fun c other => absurd rfl other⟩
  sleep := by
    intro l d chan next _ act
    cases l <;> simp only [code, body] at act
    all_goals repeat' split at act
    all_goals cases act
    rename_i full
    exact ⟨fun _ => trivial, full, fun _ _ => full⟩
  yes _ act := (body_ne_killed _ _ _ _ act).elim
  no _ act := (body_ne_killed _ _ _ _ act).elim
  release := by
    intro l d w _ act c owed
    cases l with
    | wake c lsr => cases act
    | _ => cases owed

section

variable {P : Type} [DecidableEq P] {table : List P} {buf : Nat → UInt8} {s : State P Tx Unit At Unit}

/-- The device gets the bytes in the order in which they were put, each once. What is missing
while nobody has the lock is in the buffer; bytes are left there only if the device was busy when
`uartstart` last looked, so that an interrupt is still to come, and a process sleeps only while
the buffer is full. -/
theorem uart_sends_in_order (all : ∀ p, p ∈ table) (run : Reachable table buf s) :
    s.data.sent <+: s.data.put ∧ (s.lk = none → ∃ waiting, s.data.put = s.data.sent ++ waiting ∧
      waiting.length ≤ UART_TX_BUF_SIZE ∧
      (∀ i c, waiting[i]? = some c → s.data.buf ((s.data.r + i) % UART_TX_BUF_SIZE) = c) ∧
      (waiting ≠ [] → s.data.idle = false) ∧
      ∀ p, s.state p = .sleeping → s.chan p = some () → waiting.length = UART_TX_BUF_SIZE) := by
  have guarded := run.guarded guards ⟨⟨rfl, rfl, List.prefix_rfl, zero_le, .nil⟩, rfl, fun _ => rfl⟩
  constructor
  · cases held : s.lk with
    | none => exact At.Holds.sent (l := .busy) (guarded.idle held)
    | some x =>
      rcases guarded.holder run.inv held with free | ⟨l, here⟩
      · exact At.Holds.sent (l := .busy) free
      exact here.sent
  intro unlocked
  obtain ⟨ok, sent, idle⟩ := guarded.idle unlocked
  obtain ⟨waiting, put⟩ := ok.order
  have count : s.data.put.length =
      s.data.taken.length + waiting.length := by rw [← put, length_append]
  have room := ok.room
  refine ⟨waiting, by rw [← sent, put], by omega, ?_, ?_, ?_⟩
  · intro i c found
    have there : s.data.put[s.data.taken.length + i]? = some c := by
      rw [← put, List.getElem?_append_right (Nat.le_add_right ..), Nat.add_sub_cancel_left]
      exact found
    rw [← ok.cells _ c (Nat.le_add_right ..) there, ok.r, UART_TX_BUF_SIZE]
    congr 1
    omega
  · intro some
    rw [← Bool.not_eq_true]
    intro was
    rw [← idle was] at put
    exact some (List.append_right_eq_self.mp put)
  intro p sleeping chan
  have full :=
    ok.full_iff.mp (run.sleepers discipline all (fun _ _ _ => trivial) unlocked sleeping chan)
  omega

end

/-- Two bytes are put; the device takes the first and is busy then. -/
theorem putTwo_in_order :
    ∃ s : State (Fin 1) Tx Unit At Unit, Reachable [0] (fun _ => 0) s ∧ s.lk = none ∧
    s.data.sent = [1] ∧ ∃ waiting, s.data.put = s.data.sent ++ waiting ∧ waiting ≠ [] ∧
      s.data.idle = false := by
  have played : ((State.init (fun _ => ()) (.init fun _ => 0)).play code [0] (fun _ _ => true)
      (.call 0 (.putc 1 false (· == 0)) :: List.replicate 8 (.run 0) ++
        .call 0 (.putc 2 false fun _ => false) :: List.replicate 4 (.run (0 : Fin 1)))).any
      (fun s => decide (s.lk = none ∧ s.data.sent = [1] ∧ s.data.put = [1, 2])) = true := by
    decide
  obtain ⟨s, run, check⟩ := State.Reachable.of_play (fun _ _ _ _ => trivial) played
  obtain ⟨unlocked, sent, put⟩ := of_decide_eq_true check
  obtain ⟨waiting, eq, -, -, busy, -⟩ := (uart_sends_in_order (by decide) run).2 unlocked
  have some : waiting ≠ [] := by
    rintro rfl
    rw [put, sent] at eq
    cases eq
  exact ⟨s, run, unlocked, sent, waiting, eq, some, busy some⟩

end Xv6.Uart
