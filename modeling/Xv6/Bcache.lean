import Xv6.Lib.Dlist
import Xv6.Lib.Pointers
import Xv6.Bio

/-!
# The buffer cache as an array of blocks

`kernel/bio.c` again, for any number of devices, with the list of buffers through
`prev` and `next` as the code keeps it. Processes come to buffers by `bread`, hold them,
change them, write or pin them and release them, in any interleaving. Above it stands
a plain array of blocks, in which a process takes a block, changes what it has, and
puts it back. The cache does what the array does as long as no unwritten contents lose
their last pin.
-/

namespace Xv6.Bcache

open Function renaming update → upd, update_self → upd_self, update_of_ne → upd_ne,
  update_eq_self → upd_eq_self

/-- `struct buf` without its links, for blocks with contents in `D`; `lock` is the
process that has the sleep-lock. -/
structure Buf (Pid D : Type) where
  valid : Bool
  dev : Nat
  blockno : Nat
  refcnt : Nat
  lock : Option Pid
  data : D

/-- A `struct buf *` variable between `bget` and the end of `brelse`, and the block it
was asked for. `fresh` records that its process has not changed the contents, and `kept`
that it has written or pinned them since it did. -/
structure Hold where
  buf : Fin NBUF
  block : Nat × Nat
  stage : Stage
  fresh : Bool
  kept : Bool
  deriving DecidableEq

/-- The cache, the disks, and the variables `V` of every process. `pins` counts the pins
of a buffer, and `left` records what the last process to release a block left in it. -/
structure Cache (Pid V D : Type) where
  buf : Fin NBUF → Buf Pid D
  links : Links (Fin NBUF)
  disk : Nat × Nat → D
  hold : Pid × V → Option Hold
  pins : Fin NBUF → Nat
  left : Nat × Nat → Option D

inductive Action (Pid V D : Type)
  | bget (x : Pid × V) (dev blockno : Nat)
  | acquire (x : Pid × V)
  | fill (x : Pid × V)
  | modify (x : Pid × V) (data : D)
  | bwrite (x : Pid × V)
  | release (x : Pid × V)
  | drop (x : Pid × V)
  | bpin (x : Pid × V)
  | bunpin (i : Fin NBUF)

namespace Cache

set_option linter.unusedSectionVars false

variable {Pid V D : Type} [DecidableEq Pid] [DecidableEq V]

def block (c : Cache Pid V D) (i : Fin NBUF) : Nat × Nat := ((c.buf i).dev, (c.buf i).blockno)

def set (c : Cache Pid V D) (i : Fin NBUF) (b : Buf Pid D) (x : Pid × V) (h : Option Hold) :
    Cache Pid V D :=
  { c with buf := upd c.buf i b, hold := upd c.hold x h }

/-- `binit`: the buffers one after the other behind the head. -/
def binit [Inhabited D] (disk : Nat × Nat → D) : Cache Pid V D where
  buf _ := ⟨false, 0, 0, 0, none, default⟩
  links := (List.finRange NBUF).foldl Links.insertFront Links.empty
  disk := disk
  hold _ := none
  pins _ := 0
  left _ := none

/-- The critical section of `bget`: two loops over the list, one from each end. -/
def bget (c : Cache Pid V D) (x : Pid × V) (dev blockno : Nat) : Except Panic (Cache Pid V D) :=
  match searchFrom c.links.next (fun i => (c.buf i).dev = dev ∧ (c.buf i).blockno = blockno) (NBUF + 1)
      (c.links.next none) with
  | some i =>
    .ok (c.set i { c.buf i with refcnt := (c.buf i).refcnt + 1 } x (some ⟨i, (dev, blockno), .waiting, true, true⟩))
  | none =>
    match searchFrom c.links.prev (fun i => (c.buf i).refcnt = 0) (NBUF + 1) (c.links.prev none) with
    | some i =>
      .ok (c.set i { c.buf i with dev, blockno, valid := false, refcnt := 1 } x
        (some ⟨i, (dev, blockno), .waiting, true, true⟩))
    | none => .error .bgetNoBuffers

/-- The end of `bread`: read the block unless the buffer is valid. -/
def fill (c : Cache Pid V D) (x : Pid × V) (h : Hold) : Cache Pid V D :=
  if (c.buf h.buf).valid then c.set h.buf (c.buf h.buf) x (some { h with stage := .ready })
  else
    c.set h.buf { c.buf h.buf with data := c.disk (c.block h.buf), valid := true } x (some { h with stage := .ready })

def bwrite (c : Cache Pid V D) (x : Pid × V) (h : Hold) : Except Panic (Cache Pid V D) :=
  if (c.buf h.buf).lock = some x.1 then
    .ok { c.set h.buf (c.buf h.buf) x (some { h with kept := true }) with
      disk := upd c.disk (c.block h.buf) (c.buf h.buf).data }
  else .error .bwrite

/-- `brelse` up to `releasesleep`. -/
def release (c : Cache Pid V D) (x : Pid × V) (h : Hold) : Except Panic (Cache Pid V D) :=
  if (c.buf h.buf).lock = some x.1 then
    .ok { c.set h.buf { c.buf h.buf with lock := none } x (some { h with stage := .released }) with
      left := upd c.left (c.block h.buf) (some (c.buf h.buf).data) }
  else .error .brelse

/-- The critical section of `brelse`; an unused buffer moves to the front of the list. -/
def drop (c : Cache Pid V D) (x : Pid × V) (h : Hold) : Cache Pid V D :=
  { c.set h.buf { c.buf h.buf with refcnt := (c.buf h.buf).refcnt - 1 } x none with
    links := if (c.buf h.buf).refcnt - 1 = 0 then (c.links.unlink h.buf).insertFront h.buf else c.links }

def bpin (c : Cache Pid V D) (x : Pid × V) (h : Hold) : Cache Pid V D :=
  { c.set h.buf { c.buf h.buf with refcnt := (c.buf h.buf).refcnt + 1 } x (some { h with kept := true }) with
    pins := upd c.pins h.buf (c.pins h.buf + 1) }

def bunpin (c : Cache Pid V D) (i : Fin NBUF) : Cache Pid V D :=
  { c with
    buf := upd c.buf i { c.buf i with refcnt := (c.buf i).refcnt - 1 }
    pins := upd c.pins i (c.pins i - 1) }

/-- What the variable points to, if it is in this stage. -/
def at' (c : Cache Pid V D) (x : Pid × V) (stage : Stage) : Option Hold :=
  (c.hold x).filter fun h => h.stage = stage

/-- A step; `none` where the process waits for the sleep-lock or the action makes no
sense for the variable. Only pins that are there are taken back. -/
def step (c : Cache Pid V D) : Action Pid V D → Option (Except Panic (Cache Pid V D))
  | .bget x dev blockno => if c.hold x = none then some (c.bget x dev blockno) else none
  | .acquire x => do
    let h ← c.at' x .waiting
    if (c.buf h.buf).lock = none then
      some (.ok (c.set h.buf { c.buf h.buf with lock := some x.1 } x (some { h with stage := .locked })))
    else none
  | .fill x => (c.at' x .locked).map fun h => .ok (c.fill x h)
  | .modify x data => (c.at' x .ready).map fun h =>
    .ok (c.set h.buf { c.buf h.buf with data } x (some { h with fresh := false, kept := false }))
  | .bwrite x => (c.at' x .ready).map fun h => c.bwrite x h
  | .release x => (c.at' x .ready).map fun h => c.release x h
  | .drop x => (c.at' x .released).map fun h => .ok (c.drop x h)
  | .bpin x => (c.at' x .ready).map fun h => .ok (c.bpin x h)
  | .bunpin i => if 0 < c.pins i then some (.ok (c.bunpin i)) else none

/-- Devices are not 0, and a holder that has changed the contents has written or pinned
them before it releases the buffer. -/
def Obliging (c : Cache Pid V D) : Action Pid V D → Prop
  | .bget _ dev _ => dev ≠ 0
  | .release x => ∀ h ∈ c.hold x, h.kept = true
  | _ => True

/-- Also, the last pin of a buffer is taken back only when its contents are on the disk. -/
def Careful (c : Cache Pid V D) : Action Pid V D → Prop
  | .bunpin i => c.pins i = 1 → (c.buf i).data = c.disk (c.block i)
  | a => c.Obliging a

instance (c : Cache Pid V D) : DecidablePred c.Obliging
  | .bget _ dev _ => inferInstanceAs (Decidable (dev ≠ 0))
  | .release x => inferInstanceAs (Decidable (∀ h ∈ c.hold x, h.kept = true))
  | .acquire _ | .fill _ | .modify _ _ | .bwrite _ | .drop _ | .bpin _ | .bunpin _ => isTrue trivial

instance [DecidableEq D] (c : Cache Pid V D) : DecidablePred c.Careful
  | .bunpin i => inferInstanceAs (Decidable (c.pins i = 1 → (c.buf i).data = c.disk (c.block i)))
  | .bget _ dev _ => inferInstanceAs (Decidable (dev ≠ 0))
  | .release x => inferInstanceAs (Decidable (∀ h ∈ c.hold x, h.kept = true))
  | .acquire _ | .fill _ | .modify _ _ | .bwrite _ | .drop _ | .bpin _ => isTrue trivial

inductive Runs [Inhabited D] (allowed : Cache Pid V D → Action Pid V D → Prop) (disk : Nat × Nat → D) :
    Cache Pid V D → Prop
  | binit : Runs allowed disk (binit disk)
  | step {c c' : Cache Pid V D} {a : Action Pid V D} :
      Runs allowed disk c → allowed c a → c.step a = some (.ok c') → Runs allowed disk c'

def play (allowed : Cache Pid V D → Action Pid V D → Prop) [∀ c, DecidablePred (allowed c)]
    (c : Cache Pid V D) : List (Action Pid V D) → Option (Cache Pid V D)
  | [] => some c
  | a :: rest =>
    if allowed c a then
      match c.step a with
      | some (.ok c') => c'.play allowed rest
      | _ => none
    else none

variable {actions : List (Action Pid V D)} {allowed : Cache Pid V D → Action Pid V D → Prop}

theorem Runs.play [Inhabited D] [∀ c, DecidablePred (allowed c)] {disk : Nat × Nat → D} :
    ∀ {c c' : Cache Pid V D}, Runs allowed disk c → c.play allowed actions = some c' →
      Runs allowed disk c' := by
  induction actions with
  | nil =>
    intro c c' run h
    cases h
    exact run
  | cons a rest ih =>
    intro c c' run h
    rw [Cache.play] at h
    split at h
    · rename_i ok
      split at h
      · rename_i d step
        exact ih (run.step ok step) h
      cases h
    cases h

theorem Runs.of_play [Inhabited D] [∀ c, DecidablePred (allowed c)] {disk : Nat × Nat → D}
    {P : Cache Pid V D → Bool} (check : ((Cache.binit disk).play allowed actions).any P = true) :
    ∃ c, Runs allowed disk c ∧ P c = true := by
  obtain ⟨c, h, check⟩ := (Option.any_eq_true _ _).1 check
  exact ⟨c, Runs.binit.play h, check⟩

end Cache

/-! ## The array of blocks -/

/-- An array of blocks, and what the variables `X` have taken out of it. -/
structure Plain (X D : Type) where
  block : Nat × Nat → D
  held : X → Option ((Nat × Nat) × D)

/-- A variable takes a block that nobody has, changes what it has, or puts it back. -/
inductive Plain.Step {X D : Type} [DecidableEq X] : Plain X D → Plain X D → Prop
  | take {p : Plain X D} {x : X} {b : Nat × Nat} : p.held x = none →
      (∀ y d, p.held y ≠ some (b, d)) →
      Step p { p with held := upd p.held x (some (b, p.block b)) }
  | change {p : Plain X D} {x : X} {b : Nat × Nat} {d : D} (d' : D) : p.held x = some (b, d) →
      Step p { p with held := upd p.held x (some (b, d')) }
  | put {p : Plain X D} {x : X} {b : Nat × Nat} {d : D} : p.held x = some (b, d) →
      Step p ⟨upd p.block b d, upd p.held x none⟩

namespace Cache

set_option linter.unusedSectionVars false

variable {Pid V D : Type} [DecidableEq Pid] [DecidableEq V]

/-- The last contents of a block, where the disk was `disk` at the beginning. -/
def contents (c : Cache Pid V D) (disk : Nat × Nat → D) (b : Nat × Nat) : D := (c.left b).getD (disk b)

def plain (c : Cache Pid V D) (disk : Nat × Nat → D) : Plain (Pid × V) D where
  block := c.contents disk
  held x := (c.at' x .ready).map fun h => (h.block, (c.buf h.buf).data)

section Inv

variable [Fintype Pid] [Fintype V]

/-- The contents of a buffer that nobody has changed. -/
def Sound (disk : Nat × Nat → D) (c : Cache Pid V D) (i : Fin NBUF) : Prop :=
  (c.buf i).data = c.contents disk (c.block i) ∧ (c.pins i = 0 → c.disk (c.block i) = c.contents disk (c.block i))

/-- What holds for one buffer and the variables that point to it. -/
structure At (disk : Nat × Nat → D) (c : Cache Pid V D) (i : Fin NBUF) : Prop where
  names : ∀ x h, c.hold x = some h → h.buf = i → (c.buf i).dev ≠ 0 ∧ c.block i = h.block
  locked : ∀ x h, c.hold x = some h → h.buf = i → h.stage.locks = true → (c.buf i).lock = some x.1
  sole : ∀ x y h g, c.hold x = some h → c.hold y = some g → h.buf = i → g.buf = i →
    h.stage.locks = true →
    g.stage.locks = true → x = y
  owner : ∀ p, (c.buf i).lock = some p → ∃ x h, c.hold x = some h ∧ h.buf = i ∧ h.stage.locks = true
  count : (c.buf i).refcnt = (pointers c.hold Hold.buf i).card + c.pins i
  empty : (c.buf i).dev ≠ 0 → (c.buf i).valid = false →
    c.disk (c.block i) = c.contents disk (c.block i)
  free : (c.buf i).dev ≠ 0 → (c.buf i).valid = true → (c.buf i).lock = none → Sound disk c i
  found : ∀ x h, c.hold x = some h → h.buf = i → h.stage = .locked → (c.buf i).valid = true →
    Sound disk c i
  ready : ∀ x h, c.hold x = some h → h.buf = i → h.stage = .ready → (c.buf i).valid = true ∧
    (h.fresh = true → (c.buf i).data = c.contents disk (c.block i)) ∧
    (h.kept = true → c.pins i = 0 → c.disk (c.block i) = (c.buf i).data)
  new : ∀ x h, c.hold x = some h → h.buf = i → h.stage = .waiting ∨ h.stage = .locked →
    h.fresh = true ∧ h.kept = true

structure Inv (disk : Nat × Nat → D) (c : Cache Pid V D) : Prop where
  ring : ∃ l, c.links.Ring l ∧ l.Perm (List.finRange NBUF)
  unique : ∀ i j, (c.buf i).dev ≠ 0 → c.block i = c.block j → i = j
  each : ∀ i, At disk c i
  uncached : ∀ b : Nat × Nat, b.1 ≠ 0 → (∀ i, c.block i ≠ b) → c.disk b = c.contents disk b

section Steps

variable {disk : Nat × Nat → D} {c c' : Cache Pid V D} {i : Fin NBUF} {x : Pid × V} {h k : Hold} {new : Option Hold}

theorem hold_cases (hold : c'.hold = upd c.hold x new) {y : Pid × V} {g : Hold}
    (at' : c'.hold y = some g) : y = x ∧ new = some g ∨ y ≠ x ∧ c.hold y = some g := by
  rw [hold] at at'
  by_cases eq : y = x
  · rw [eq, upd_self] at at'
    exact .inl ⟨eq, at'⟩
  rw [upd_ne eq] at at'
  exact .inr ⟨eq, at'⟩

theorem At.congr {j : Fin NBUF} (each : At disk c j) (buf : c'.buf j = c.buf j)
    (pins : c'.pins j = c.pins j)
    (hold : ∀ y g, g.buf = j → (c'.hold y = some g ↔ c.hold y = some g))
    (same : c'.disk (c.block j) = c.disk (c.block j) ∧ c'.left (c.block j) = c.left (c.block j)) :
    At disk c' j := by
  have block : c'.block j = c.block j := by rw [block, block, buf]
  have contents : c'.contents disk (c'.block j) = c.contents disk (c.block j) := by
    rw [contents, contents, block, same.2]
  have sound : Sound disk c j → Sound disk c' j := by
    rintro ⟨data, written⟩
    refine ⟨by rw [buf, contents, data], fun none => ?_⟩
    rw [contents, block, same.1]
    exact written (pins ▸ none)
  have count : pointers c'.hold Hold.buf j = pointers c.hold Hold.buf j := by
    ext y
    rw [mem_pointers, mem_pointers]
    exact exists_congr fun g => and_congr_left fun on => hold y g on
  constructor
  case names =>
    intro y g at' on
    rw [buf, block]
    exact each.names y g ((hold y g on).mp at') on
  case locked =>
    intro y g at' on
    rw [buf]
    exact each.locked y g ((hold y g on).mp at') on
  case sole =>
    intro y z g f at' atz on onz
    exact each.sole y z g f ((hold y g on).mp at') ((hold z f onz).mp atz) on onz
  case owner =>
    intro p lock
    rw [buf] at lock
    obtain ⟨y, g, at', on, locks⟩ := each.owner p lock
    exact ⟨y, g, (hold y g on).mpr at', on, locks⟩
  case count => rw [buf, pins, count, each.count]
  case empty =>
    rw [buf, contents, block, same.1]
    exact each.empty
  case free =>
    rw [buf]
    exact fun dev valid lock => sound (each.free dev valid lock)
  case found =>
    intro y g at' on stage valid
    rw [buf] at valid
    exact sound (each.found y g ((hold y g on).mp at') on stage valid)
  case ready =>
    intro y g at' on stage
    rw [buf, contents, block, same.1, pins]
    exact each.ready y g ((hold y g on).mp at') on stage
  case new => exact fun y g at' on => each.new y g ((hold y g on).mp at') on

theorem Inv.touch (inv : Inv disk c) (dev : (c.buf i).dev ≠ 0)
    (ring : ∃ l, c'.links.Ring l ∧ l.Perm (List.finRange NBUF))
    (buf : ∀ j, j ≠ i → c'.buf j = c.buf j) (pins : ∀ j, j ≠ i → c'.pins j = c.pins j)
    (hold : c'.hold = upd c.hold x new) (old : ∀ g ∈ c.hold x, g.buf = i)
    (on : ∀ g ∈ new, g.buf = i) (block : c'.block i = c.block i)
    (outside : ∀ b, b ≠ c.block i → c'.disk b = c.disk b ∧ c'.left b = c.left b)
    (each : At disk c' i) :
    Inv disk c' := by
  have blocks : ∀ j, c'.block j = c.block j := fun j => by
    by_cases eq : j = i
    · rw [eq, block]
    rw [Cache.block, Cache.block, buf j eq]
  have devs : ∀ j, (c'.buf j).dev = (c.buf j).dev := fun j => congrArg Prod.fst (blocks j)
  refine ⟨ring, fun j k used same => ?_, fun j => ?_, fun b used absent => ?_⟩
  · rw [devs] at used
    rw [blocks, blocks] at same
    exact inv.unique j k used same
  · by_cases eq : j = i
    · rw [eq]
      exact each
    refine (inv.each j).congr (buf j eq) (pins j eq) (fun y g onj => ?_)
      (outside _ fun same => eq ?_)
    · rw [hold]
      by_cases mine : y = x
      · subst mine
        rw [upd_self]
        refine ⟨fun at' => absurd (onj ▸ on g at') eq, fun at' => absurd (onj ▸ old g at') eq⟩
      rw [upd_ne mine]
    exact (inv.unique i j dev same.symm).symm
  have absent' : ∀ k, c.block k ≠ b := fun k => blocks k ▸ absent k
  obtain ⟨disk', left'⟩ := outside b fun eq => absent' i eq.symm
  rw [contents, disk', left']
  exact inv.uncached b used absent'

/-- The buffer after a step of a variable that is the only one to lock it, if it does. -/
theorem At.own (each : At disk c i) (hold : c'.hold = upd c.hold x (some k)) (on : k.buf = i)
    (named : (c'.buf i).dev ≠ 0 ∧ c'.block i = k.block) (block : c'.block i = c.block i)
    (quiet : ∀ y g, y ≠ x → c.hold y = some g → g.buf = i → g.stage.locks = false)
    (lock : (c'.buf i).lock = if k.stage.locks then some x.1 else none)
    (count : (c'.buf i).refcnt + points Hold.buf i (c.hold x) + c.pins i =
      (c.buf i).refcnt + 1 + c'.pins i)
    (empty : (c'.buf i).valid = false → c'.disk (c'.block i) = c'.contents disk (c'.block i))
    (free : (c'.buf i).valid = true → k.stage ≠ .ready → Sound disk c' i)
    (ready : k.stage = .ready → (c'.buf i).valid = true ∧
      (k.fresh = true → (c'.buf i).data = c'.contents disk (c'.block i)) ∧
      (k.kept = true → c'.pins i = 0 → c'.disk (c'.block i) = (c'.buf i).data))
    (new : k.stage = .waiting ∨ k.stage = .locked → k.fresh = true ∧
      k.kept = true) : At disk c' i := by
  constructor
  case names =>
    intro y g at' ong
    rcases hold_cases hold at' with ⟨-, eq⟩ | ⟨-, before⟩
    · obtain rfl := Option.some.inj eq
      exact named
    refine ⟨named.1, ?_⟩
    rw [block]
    exact (each.names y g before ong).2
  case locked =>
    intro y g at' ong locks
    rcases hold_cases hold at' with ⟨rfl, eq⟩ | ⟨ne, before⟩
    · obtain rfl := Option.some.inj eq
      rw [lock, if_pos locks]
    rw [quiet y g ne before ong] at locks
    cases locks
  case sole =>
    intro y z g f aty atz ong onf locksg locksf
    rcases hold_cases hold aty with ⟨rfl, -⟩ | ⟨ne, before⟩
    · rcases hold_cases hold atz with ⟨rfl, -⟩ | ⟨ne, before⟩
      · rfl
      rw [quiet z f ne before onf] at locksf
      cases locksf
    rw [quiet y g ne before ong] at locksg
    cases locksg
  case owner =>
    intro p locked
    rw [lock] at locked
    split at locked
    · rename_i locks
      exact ⟨x, k, by rw [hold, upd_self], on, locks⟩
    cases locked
  case count =>
    have counted := card_pointers_update c.hold Hold.buf i x (some k)
    rw [hold]
    have one : points Hold.buf i (some k) = 1 := by simp [points, on]
    have before := each.count
    omega
  case empty => exact fun _ => empty
  case free =>
    intro _ valid none
    refine free valid fun stage => ?_
    rw [lock, stage] at none
    cases none
  case found =>
    intro y g at' ong stage valid
    rcases hold_cases hold at' with ⟨-, eq⟩ | ⟨ne, before⟩
    · obtain rfl := Option.some.inj eq
      refine free valid ?_
      rw [stage]
      simp
    have silent := quiet y g ne before ong
    rw [stage] at silent
    cases silent
  case ready =>
    intro y g at' ong stage
    rcases hold_cases hold at' with ⟨-, eq⟩ | ⟨ne, before⟩
    · obtain rfl := Option.some.inj eq
      exact ready stage
    have silent := quiet y g ne before ong
    rw [stage] at silent
    cases silent
  case new =>
    intro y g at' ong stage
    rcases hold_cases hold at' with ⟨-, eq⟩ | ⟨-, before⟩
    · obtain rfl := Option.some.inj eq
      exact new stage
    exact each.new y g before ong stage

theorem At.recount (each : At disk c i)
    (back : ∀ y g, c'.hold y = some g → g.buf = i → c.hold y = some g ∨ g.stage = .waiting ∧
      g.fresh = true ∧ g.kept = true ∧ (c.buf i).dev ≠ 0 ∧ c.block i = g.block)
    (forth : ∀ y g, c.hold y = some g → g.buf = i → g.stage.locks = true → c'.hold y = some g)
    (block : c'.block i = c.block i)
    (same : (c'.buf i).valid = (c.buf i).valid ∧ (c'.buf i).lock = (c.buf i).lock ∧
      (c'.buf i).data = (c.buf i).data) (disk' : c'.disk = c.disk) (left : c'.left = c.left)
    (pins : c'.pins i = 0 → c.pins i = 0 ∨ (c.buf i).data = c.disk (c.block i))
    (count : (c'.buf i).refcnt = (pointers c'.hold Hold.buf i).card + c'.pins i) : At disk c' i := by
  obtain ⟨valid, lock, data⟩ := same
  have dev : (c'.buf i).dev = (c.buf i).dev := congrArg Prod.fst block
  have contents : c'.contents disk (c'.block i) = c.contents disk (c.block i) := by
    rw [contents, contents, block, left]
  have sound : Sound disk c i → Sound disk c' i := by
    rintro ⟨same, written⟩
    refine ⟨by rw [data, contents, same], fun none => ?_⟩
    rw [contents, block, disk']
    rcases pins none with none | eq
    · exact written none
    rw [← eq, same]
  -- the variables that lock the buffer are the same
  have before : ∀ y g, c'.hold y = some g → g.buf = i → g.stage ≠ .waiting → c.hold y = some g :=
    fun y g at' on stage => (back y g at' on).resolve_right fun waits => stage waits.1
  have locking : ∀ y g, c'.hold y = some g → g.buf = i → g.stage.locks = true →
      c.hold y = some g := by
    intro y g at' on locks
    refine before y g at' on fun stage => ?_
    rw [stage] at locks
    cases locks
  constructor
  case names =>
    intro y g at' on
    rw [dev, block]
    rcases back y g at' on with old | ⟨-, -, -, named⟩
    · exact each.names y g old on
    exact named
  case locked =>
    intro y g at' on locks
    rw [lock]
    exact each.locked y g (locking y g at' on locks) on locks
  case sole =>
    intro y z g f aty atz ong onf locksg locksf
    exact each.sole y z g f (locking y g aty ong locksg)
      (locking z f atz onf locksf) ong onf locksg locksf
  case owner =>
    intro p locked
    rw [lock] at locked
    obtain ⟨y, g, at', on, locks⟩ := each.owner p locked
    exact ⟨y, g, forth y g at' on locks, on, locks⟩
  case count => exact count
  case empty =>
    rw [dev, valid, contents, block, disk']
    exact each.empty
  case free =>
    rw [dev, valid, lock]
    exact fun used full free => sound (each.free used full free)
  case found =>
    intro y g at' on stage full
    rw [valid] at full
    exact sound (each.found y g (before y g at' on (by rw [stage]; nofun)) on stage full)
  case ready =>
    intro y g at' on stage
    rw [valid, data, contents, block, disk']
    obtain ⟨full, fresh, kept⟩ := each.ready y g (before y g at' on (by rw [stage]; nofun)) on stage
    refine ⟨full, fresh, fun keeps none => ?_⟩
    rcases pins none with none | eq
    · exact kept keeps none
    exact eq.symm
  case new =>
    intro y g at' on stage
    rcases back y g at' on with old | ⟨-, fresh, kept, -⟩
    · exact each.new y g old on stage
    exact ⟨fresh, kept⟩

theorem At.reassign (each : At disk c i) (hold : c'.hold = upd c.hold x new)
    (old : ∀ g ∈ c.hold x, g.buf = i → g.stage.locks = false)
    (waits : ∀ g ∈ new, g.buf = i → g.stage = .waiting ∧ g.fresh = true ∧ g.kept = true ∧
      (c.buf i).dev ≠ 0 ∧ c.block i = g.block)
    (block : c'.block i = c.block i)
    (same : (c'.buf i).valid = (c.buf i).valid ∧ (c'.buf i).lock = (c.buf i).lock ∧
      (c'.buf i).data = (c.buf i).data) (disk' : c'.disk = c.disk) (left : c'.left = c.left)
    (pins : c'.pins = c.pins)
    (count : (c'.buf i).refcnt + points Hold.buf i (c.hold x) =
      (c.buf i).refcnt + points Hold.buf i new) :
    At disk c' i := by
  refine each.recount (fun y g at' on => ?_) (fun y g at' on locks => ?_) block same disk' left
    (fun none => .inl (pins ▸ none)) ?_
  · rcases hold_cases hold at' with ⟨-, eq⟩ | ⟨-, before⟩
    · exact .inr (waits g eq on)
    exact .inl before
  · rw [hold, upd_ne, at']
    rintro rfl
    rw [old g at' on] at locks
    cases locks
  have counted := card_pointers_update c.hold Hold.buf i x new
  have before := each.count
  rw [hold, pins]
  omega

/-! ## The operations -/

theorem at'_eq_some {stage : Stage} :
    c.at' x stage = some h ↔ c.hold x = some h ∧ h.stage = stage := by
  simp [at', Option.filter_eq_some_iff]

theorem map_at' {stage : Stage} {α : Type} {f : Hold → α} {r : α}
    (step : (c.at' x stage).map f = some r) :
    ∃ h, c.hold x = some h ∧ h.stage = stage ∧ f h = r := by
  obtain ⟨h, at', step⟩ := Option.map_eq_some_iff.mp step
  obtain ⟨at', stage⟩ := at'_eq_some.mp at'
  exact ⟨h, at', stage, step⟩

theorem Inv.search (inv : Inv disk c) (test : Fin NBUF → Bool) :
    ∃ l r : List (Fin NBUF), (∀ i, i ∈ l ∧ i ∈ r) ∧
      searchFrom c.links.next test (NBUF + 1) (c.links.next none) = l.find? test ∧
      searchFrom c.links.prev test (NBUF + 1) (c.links.prev none) = r.find? test := by
  obtain ⟨l, ring, perm⟩ := inv.ring
  have all : ∀ i, i ∈ l := fun i => perm.mem_iff.mpr (List.mem_finRange i)
  have length : l.length < NBUF + 1 := by
    rw [perm.length_eq, List.length_finRange]
    exact Nat.lt_succ_self _
  refine ⟨l, l.reverse, fun i => ⟨all i, List.mem_reverse.mpr (all i)⟩,
    ring.next.searchFrom test length, ?_⟩
  exact ring.prev.searchFrom test (by rwa [List.length_reverse])

variable {b : Buf Pid D}

theorem Inv.recount {links : Links (Fin NBUF)} (inv : Inv disk c) (device : (c.buf i).dev ≠ 0)
    (ring : ∃ l, links.Ring l ∧ l.Perm (List.finRange NBUF))
    (same : (b.dev, b.blockno) = c.block i ∧ b.valid = (c.buf i).valid ∧ b.lock = (c.buf i).lock ∧
      b.data = (c.buf i).data)
    (old : ∀ g ∈ c.hold x, g.buf = i ∧ g.stage.locks = false)
    (waits : ∀ g ∈ new, g.buf = i ∧ g.stage = .waiting ∧ g.fresh = true ∧ g.kept = true ∧
      c.block i = g.block)
    (count : b.refcnt + points Hold.buf i (c.hold x) = (c.buf i).refcnt + points Hold.buf i new) :
    Inv disk { c.set i b x new with links } := by
  generalize hc : { c.set i b x new with links } = c'
  have hold : c'.hold = upd c.hold x new := by
    rw [← hc]
    rfl
  obtain ⟨rest, pins, disk', left⟩ : c'.links = links ∧ c'.pins = c.pins ∧ c'.disk = c.disk ∧
    c'.left = c.left := by
    rw [← hc]
    exact ⟨rfl, rfl, rfl, rfl⟩
  obtain rfl : c'.buf i = b := by
    rw [← hc]
    exact upd_self ..
  refine inv.touch device (by rwa [rest]) (fun j ne => ?_)
    (fun _ _ => by rw [pins]) hold (fun g mem => (old g mem).1)
    (fun g mem => (waits g mem).1) same.1 (fun _ _ => by rw [disk', left]; exact ⟨rfl, rfl⟩)
    ((inv.each i).reassign hold (fun g mem _ => (old g mem).2) (fun g mem _ => ?_) same.1 same.2 disk' left pins count)
  · rw [← hc]
    exact upd_ne ne _ _
  obtain ⟨-, stage, fresh, kept, named⟩ := waits g mem
  exact ⟨stage, fresh, kept, device, named⟩

variable {blockno : Nat}

theorem Inv.hit {dev : Nat} (inv : Inv disk c) (idle : c.hold x = none) (device : dev ≠ 0)
    (found : (c.buf i).dev = dev ∧ (c.buf i).blockno = blockno) :
    Inv disk (c.set i { c.buf i with refcnt := (c.buf i).refcnt + 1 } x
      (some ⟨i, (dev, blockno), .waiting, true, true⟩)) := by
  obtain ⟨rfl, rfl⟩ := found
  refine inv.recount device inv.ring ⟨rfl, rfl, rfl, rfl⟩ (by rw [idle]; nofun) ?_ ?_
  · rintro g ⟨⟩
    exact ⟨rfl, rfl, rfl, rfl, rfl⟩
  rw [idle]
  simp [points]

theorem Inv.recycle {dev : Nat} (inv : Inv disk c) (idle : c.hold x = none) (device : dev ≠ 0)
    (absent : ∀ j, c.block j ≠ (dev, blockno)) (unused : (c.buf i).refcnt = 0) :
    Inv disk (c.set i { c.buf i with dev, blockno, valid := false, refcnt := 1 } x
      (some ⟨i, (dev, blockno), .waiting, true, true⟩)) := by
  have each := inv.each i
  have counted := each.count
  rw [unused] at counted
  have unpinned : c.pins i = 0 := by omega
  have nobody : ∀ y g, c.hold y = some g → g.buf ≠ i := by
    rintro y g at' rfl
    have := card_pointers_pos (f := Hold.buf) at'
    omega
  have unlocked : (c.buf i).lock = none := by
    cases lock : (c.buf i).lock with
    | none => rfl
    | some p =>
      obtain ⟨y, g, at', on, -⟩ := each.owner p lock
      exact absurd on (nobody y g at')
  -- the block that the buffer had is on the disk
  have written : (c.buf i).dev ≠ 0 → c.disk (c.block i) = c.contents disk (c.block i) := by
    intro used
    cases valid : (c.buf i).valid with
    | false => exact each.empty used valid
    | true => exact (each.free used valid unlocked).2 unpinned
  generalize hc : c.set i { c.buf i with dev, blockno, valid := false, refcnt := 1 } x
    (some ⟨i, (dev, blockno), .waiting, true, true⟩) = c'
  have self : c'.buf i = { c.buf i with dev, blockno, valid := false, refcnt := 1 } := by
    rw [← hc]
    exact upd_self ..
  have other : ∀ j, j ≠ i → c'.buf j = c.buf j := by
    rw [← hc]
    exact fun j ne => upd_ne ne _ _
  have hold : c'.hold = upd c.hold x (some ⟨i, (dev, blockno), .waiting, true, true⟩) := by
    rw [← hc]
    rfl
  have rest : c'.links = c.links ∧ c'.pins = c.pins ∧ c'.disk = c.disk ∧ c'.left = c.left := by
    rw [← hc]
    exact ⟨rfl, rfl, rfl, rfl⟩
  have mine : c'.block i = (dev, blockno) := by rw [block, self]
  have theirs : ∀ j, j ≠ i → c'.block j = c.block j := fun j ne => by rw [block, block, other j ne]
  have only : ∀ y g, c'.hold y = some g → g.buf = i → g =
      ⟨i, (dev, blockno), .waiting, true, true⟩ := by
    intro y g at' on
    rcases hold_cases hold at' with ⟨-, eq⟩ | ⟨-, before⟩
    · exact (Option.some.inj eq).symm
    exact absurd on (nobody y g before)
  refine ⟨by rw [rest.1]; exact inv.ring, fun j k used same => ?_, fun j => ?_,
    fun b used none => ?_⟩
  · by_cases eqj : j = i
    · by_cases eqk : k = i
      · rw [eqj, eqk]
      rw [eqj, mine, theirs k eqk] at same
      exact absurd same.symm (absent k)
    by_cases eqk : k = i
    · rw [eqk, mine, theirs j eqj] at same
      exact absurd same (absent j)
    rw [theirs j eqj, theirs k eqk] at same
    rw [other j eqj] at used
    exact inv.unique j k used same
  · by_cases eq : j = i
    · subst eq
      constructor
      case names =>
        intro y g at' on
        rw [self, mine, only y g at' on]
        exact ⟨device, rfl⟩
      case locked =>
        intro y g at' on locks
        rw [only y g at' on] at locks
        cases locks
      case sole =>
        intro y z g f at' _ on _ locks
        rw [only y g at' on] at locks
        cases locks
      case owner =>
        intro p lock
        rw [self] at lock
        rw [show (c.buf j).lock = some p from lock] at unlocked
        cases unlocked
      case count =>
        have counted' := card_pointers_update c.hold Hold.buf j x (some ⟨j, (dev, blockno),
          .waiting, true, true⟩)
        have zero : points Hold.buf j none = 0 := by simp [points]
        have one : points Hold.buf j (some ⟨j, (dev, blockno), .waiting, true, true⟩) =
            1 := by simp [points]
        rw [idle, zero, one] at counted'
        rw [self, hold, rest.2.1]
        dsimp only
        omega
      case empty =>
        intro _ _
        rw [mine, contents, rest.2.2.1, rest.2.2.2]
        exact inv.uncached (dev, blockno) device absent
      case free =>
        intro _ valid
        rw [self] at valid
        cases valid
      case found | ready =>
        intro y g at' on stage
        rw [only y g at' on] at stage
        cases stage
      case new =>
        intro y g at' on _
        rw [only y g at' on]
        exact ⟨rfl, rfl⟩
    refine (inv.each j).congr (other j eq) (by rw [rest.2.1]) (fun y g on => ?_) ?_
    · rw [hold]
      by_cases eqy : y = x
      · rw [eqy, upd_self, idle]
        refine ⟨fun h => ?_, (by simp)⟩
        rw [← Option.some.inj h] at on
        exact absurd on.symm eq
      rw [upd_ne eqy]
    rw [rest.2.2.1, rest.2.2.2]
    exact ⟨rfl, rfl⟩
  rw [contents, rest.2.2.1, rest.2.2.2]
  by_cases eq : c.block i = b
  · rw [← eq] at used ⊢
    exact written used
  refine inv.uncached b used fun k => ?_
  by_cases eqk : k = i
  · rw [eqk]
    exact eq
  rw [← theirs k eqk]
  exact none k

theorem Inv.bget {dev : Nat} (inv : Inv disk c) (idle : c.hold x = none) (device : dev ≠ 0)
    (step : c.bget x dev blockno = .ok c') : Inv disk c' := by
  obtain ⟨l, _, all, forward, -⟩ := inv.search fun i => (c.buf i).dev = dev ∧
    (c.buf i).blockno = blockno
  obtain ⟨-, r, -, -, backward⟩ := inv.search fun i => (c.buf i).refcnt = 0
  rw [Cache.bget, forward, backward] at step
  split at step
  · rename_i i found
    cases step
    have passed := List.find?_some found
    exact inv.hit idle device (of_decide_eq_true passed)
  rename_i none
  split at step
  · rename_i i found
    cases step
    have unused := List.find?_some found
    refine inv.recycle idle device (fun j same => ?_) (of_decide_eq_true unused)
    have passed := List.find?_eq_none.mp none j (all j).1
    simp only [decide_eq_true_eq] at passed
    exact passed ⟨congrArg Prod.fst same, congrArg Prod.snd same⟩
  cases step

/-- A variable that locks a buffer is the only one. -/
theorem At.quiet (each : At disk c h.buf) (at' : c.hold x = some h) (locks : h.stage.locks = true) :
    ∀ y g, y ≠ x → c.hold y = some g → g.buf = h.buf → g.stage.locks = false := by
  intro y g ne before on
  by_contra other
  exact ne (each.sole y x g h before at' on rfl (by simpa using other) locks)

section

variable (inv : Inv disk c)
include inv

section

variable (at' : c.hold x = some h)
include at'

/-- A step of a variable that points to the buffer, which keeps its block and its count
up to a change of the pins. -/
theorem Inv.own {pins : Fin NBUF → Nat} {disk' : Nat × Nat → D} {left : Nat × Nat → Option D}
    (same : k.buf = h.buf ∧ k.block = h.block)
    (block : (b.dev, b.blockno) = c.block h.buf) (others : ∀ j, j ≠ h.buf → pins j = c.pins j)
    (outside : ∀ a, a ≠ c.block h.buf → disk' a = c.disk a ∧ left a = c.left a)
    (quiet : ∀ y g, y ≠ x → c.hold y = some g → g.buf = h.buf → g.stage.locks = false)
    (lock : b.lock = if k.stage.locks then some x.1 else none)
    (count : b.refcnt + c.pins h.buf = (c.buf h.buf).refcnt + pins h.buf)
    (empty : b.valid = false → disk' (c.block h.buf) =
      (left (c.block h.buf)).getD (disk (c.block h.buf)))
    (free : b.valid = true → k.stage ≠ .ready →
      b.data = (left (c.block h.buf)).getD (disk (c.block h.buf)) ∧
      (pins h.buf = 0 → disk' (c.block h.buf) = (left (c.block h.buf)).getD (disk (c.block h.buf))))
    (ready : k.stage = .ready → b.valid = true ∧
      (k.fresh = true → b.data = (left (c.block h.buf)).getD (disk (c.block h.buf))) ∧
      (k.kept = true → pins h.buf = 0 → disk' (c.block h.buf) = b.data))
    (new : k.stage = .waiting ∨ k.stage = .locked → k.fresh = true ∧ k.kept = true) :
    Inv disk { c.set h.buf b x (some k) with pins, disk := disk', left } := by
  have each := inv.each h.buf
  obtain ⟨device, named⟩ := each.names x h at' rfl
  have one : points Hold.buf h.buf (c.hold x) = 1 := by simp [points, at']
  generalize hc : { c.set h.buf b x (some k) with pins, disk := disk', left } = c'
  have hold : c'.hold = upd c.hold x (some k) := by
    rw [← hc]
    rfl
  obtain ⟨rfl, rfl, rfl, rfl⟩ : c'.buf h.buf = b ∧ c'.pins = pins ∧ c'.disk = disk' ∧
    c'.left = left := by
    rw [← hc]
    exact ⟨upd_self .., rfl, rfl, rfl⟩
  change c'.block h.buf = c.block h.buf at block
  refine inv.touch device (by rw [← hc]; exact inv.ring)
    (fun j ne => ?_) others hold (fun g mem => ?_)
    (fun g mem => ?_) block outside (each.own hold same.1 ⟨?_, ?_⟩ block quiet lock (by omega) ?_ ?_ ?_ new)
  · rw [← hc]
    exact upd_ne ne _ _
  · rw [at'] at mem
    rw [Option.some.inj mem]
  · rw [← Option.some.inj mem]
    exact same.1
  · rwa [show (c'.buf h.buf).dev = (c.buf h.buf).dev from congrArg Prod.fst block]
  · rw [block, named, same.2]
  · rw [block]
    exact empty
  · rw [Sound, block]
    exact free
  rw [block]
  exact ready

theorem Inv.acquire (stage : h.stage = .waiting) (unlocked : (c.buf h.buf).lock = none) :
    Inv disk (c.set h.buf { c.buf h.buf with lock := some x.1 } x (some { h with stage := .locked })) := by
  have each := inv.each h.buf
  obtain ⟨device, named⟩ := each.names x h at' rfl
  refine inv.own at' ⟨rfl, rfl⟩ rfl (fun _ _ => rfl) (fun _ _ => ⟨rfl, rfl⟩)
    (fun y g _ before on => ?_) rfl rfl
    (each.empty device) (fun valid _ => each.free device valid unlocked) nofun
    fun _ => each.new x h at' rfl (.inl stage)
  by_contra locks
  have lock := each.locked y g before on (by simpa using locks)
  rw [unlocked] at lock
  cases lock

theorem Inv.fill (stage : h.stage = .locked) : Inv disk (c.fill x h) := by
  have each := inv.each h.buf
  obtain ⟨device, named⟩ := each.names x h at' rfl
  have locks : h.stage.locks = true := by rw [stage]; rfl
  have lock := each.locked x h at' rfl locks
  have quiet := each.quiet at' locks
  rw [Cache.fill]
  split
  · rename_i valid
    obtain ⟨data, written⟩ := each.found x h at' rfl stage valid
    exact inv.own at' ⟨rfl, rfl⟩ rfl (fun _ _ => rfl) (fun _ _ => ⟨rfl,
      rfl⟩) quiet lock rfl (each.empty device)
      (fun _ other => absurd rfl other)
      (fun _ => ⟨valid, fun _ => data, fun _ none => (written none).trans data.symm⟩) nofun
  rename_i invalid
  have written := each.empty device (by simpa using invalid)
  exact inv.own at' ⟨rfl, rfl⟩ rfl (fun _ _ => rfl) (fun _ _ => ⟨rfl, rfl⟩) quiet lock rfl nofun
    (fun _ other => absurd rfl other) (fun _ => ⟨rfl, fun _ => written, fun _ _ => rfl⟩) nofun

theorem Inv.edit {pins : Fin NBUF → Nat} {disk' : Nat × Nat → D} {fresh kept : Bool}
    (stage : h.stage = .ready)
    (same : (b.dev, b.blockno) = c.block h.buf ∧ b.lock = (c.buf h.buf).lock ∧
      b.valid = (c.buf h.buf).valid)
    (others : ∀ j, j ≠ h.buf → pins j = c.pins j)
    (outside : ∀ a, a ≠ c.block h.buf → disk' a = c.disk a)
    (count : b.refcnt + c.pins h.buf = (c.buf h.buf).refcnt + pins h.buf)
    (sound : fresh = true → h.fresh = true ∧ b.data = (c.buf h.buf).data)
    (written : kept = true → pins h.buf = 0 → disk' (c.block h.buf) = b.data) :
    Inv disk { c.set h.buf b x (some { h with fresh, kept }) with pins, disk := disk' } := by
  have each := inv.each h.buf
  have locks : h.stage.locks = true := by rw [stage]; rfl
  obtain ⟨valid, isFresh, -⟩ := each.ready x h at' rfl stage
  have full : b.valid = true := same.2.2.trans valid
  refine inv.own at' ⟨rfl, rfl⟩ same.1 others (fun a ne => ⟨outside a ne, rfl⟩)
    (each.quiet at' locks) ?_ count
    (fun invalid => nomatch full.symm.trans invalid) (fun _ other => absurd stage other)
    (fun _ => ⟨full, fun is => ?_, written⟩) (fun other => ?_)
  · rw [if_pos locks, same.2.1]
    exact each.locked x h at' rfl locks
  · rw [(sound is).2]
    exact isFresh (sound is).1
  change h.stage = .waiting ∨ h.stage = .locked at other
  rw [stage] at other
  exact absurd other (by simp)

theorem Inv.modify {data : D} (stage : h.stage = .ready) :
    Inv disk (c.set h.buf { c.buf h.buf with data } x (some { h with fresh := false, kept := false })) :=
  inv.edit at' stage ⟨rfl, rfl, rfl⟩ (fun _ _ => rfl) (fun _ _ => rfl) rfl nofun nofun

theorem Inv.bwrite (stage : h.stage = .ready)
    (step : c.bwrite x h = .ok c') : Inv disk c' := by
  have locks : h.stage.locks = true := by rw [stage]; rfl
  rw [Cache.bwrite, if_pos ((inv.each h.buf).locked x h at' rfl locks)] at step
  rw [← Except.ok.inj step]
  exact inv.edit at' stage ⟨rfl, rfl, rfl⟩ (fun _ _ => rfl) (fun _ ne => upd_ne ne _ _) rfl
    (fun is => ⟨is, rfl⟩) fun _ _ => upd_self ..

theorem Inv.release (stage : h.stage = .ready)
    (keeps : h.kept = true) (step : c.release x h = .ok c') : Inv disk c' := by
  have each := inv.each h.buf
  have locks : h.stage.locks = true := by rw [stage]; rfl
  obtain ⟨valid, -, kept⟩ := each.ready x h at' rfl stage
  rw [Cache.release, if_pos (each.locked x h at' rfl locks)] at step
  rw [← Except.ok.inj step]
  refine inv.own at' ⟨rfl, rfl⟩ rfl (fun _ _ => rfl) (fun _ ne => ⟨rfl, upd_ne ne _ _⟩)
    (each.quiet at' locks)
    rfl rfl (fun invalid => nomatch valid.symm.trans invalid) (fun _ _ => ?_) nofun nofun
  rw [upd_self]
  exact ⟨rfl, kept keeps⟩

theorem Inv.bpin (stage : h.stage = .ready) : Inv disk (c.bpin x h) := by
  refine inv.edit at' stage ⟨rfl, rfl, rfl⟩ (fun _ ne => upd_ne ne _ _) (fun _ _ => rfl) ?_
    (fun is => ⟨is, rfl⟩) fun _ none => ?_
  · rw [upd_self]
    dsimp only
    omega
  rw [upd_self] at none
  omega

theorem Inv.drop (stage : h.stage = .released) : Inv disk (c.drop x h) := by
  have each := inv.each h.buf
  obtain ⟨device, -⟩ := each.names x h at' rfl
  have positive := card_pointers_pos (f := Hold.buf) at'
  have counted := each.count
  have ring : ∃ l, (c.drop x h).links.Ring l ∧ l.Perm (List.finRange NBUF) := by
    obtain ⟨l, ring, perm⟩ := inv.ring
    rw [Cache.drop]
    dsimp only
    split
    · obtain ⟨l', ring', perm'⟩ := ring.moveFront (perm.mem_iff.mpr (List.mem_finRange h.buf))
      exact ⟨l', ring', perm'.trans perm⟩
    exact ⟨l, ring, perm⟩
  refine inv.recount device ring ⟨rfl, rfl, rfl, rfl⟩ (fun g mem => ?_) nofun ?_
  · rw [at'] at mem
    rw [← Option.some.inj mem, stage]
    exact ⟨rfl, rfl⟩
  have one : points Hold.buf h.buf (c.hold x) = 1 := by simp [points, at']
  have zero : points Hold.buf h.buf none = 0 := by simp [points]
  rw [one, zero]
  dsimp only
  omega

end

theorem Inv.bunpin (pinned : 0 < c.pins i)
    (written : c.pins i = 1 → (c.buf i).data = c.disk (c.block i)) : Inv disk (c.bunpin i) := by
  have each := inv.each i
  have counted := each.count
  generalize hc : c.bunpin i = c'
  have self : c'.buf i = { c.buf i with refcnt := (c.buf i).refcnt - 1 } := by
    rw [← hc]
    exact upd_self ..
  have other : ∀ j, j ≠ i → c'.buf j = c.buf j := by
    rw [← hc]
    exact fun j ne => upd_ne ne _ _
  have pins : c'.pins = upd c.pins i (c.pins i - 1) := by
    rw [← hc]
    rfl
  have rest : c'.links = c.links ∧ c'.disk = c.disk ∧ c'.left = c.left ∧ c'.hold = c.hold := by
    rw [← hc]
    exact ⟨rfl, rfl, rfl, rfl⟩
  have blocks : ∀ j, c'.block j = c.block j := fun j => by
    by_cases eq : j = i
    · rw [eq, block, block, self]
    rw [block, block, other j eq]
  refine ⟨by rw [rest.1]; exact inv.ring, fun j k used same => ?_, fun j => ?_,
    fun b used absent => ?_⟩
  · rw [blocks, blocks] at same
    rw [show (c'.buf j).dev = (c.buf j).dev from congrArg Prod.fst (blocks j)] at used
    exact inv.unique j k used same
  · by_cases eq : j = i
    · rw [eq]
      refine each.recount (fun y g at' _ => .inl (rest.2.2.2 ▸ at'))
        (fun y g at' _ _ => rest.2.2.2 ▸ at') (blocks i)
        (by rw [self]; exact ⟨rfl, rfl, rfl⟩) rest.2.1 rest.2.2.1 (fun none => .inr (written ?_)) ?_
      · rw [pins, upd_self] at none
        omega
      rw [self, rest.2.2.2, pins, upd_self]
      dsimp only
      omega
    refine (inv.each j).congr (other j eq) (by rw [pins, upd_ne eq])
      (fun y g _ => by rw [rest.2.2.2]) ?_
    rw [rest.2.1, rest.2.2.1]
    exact ⟨rfl, rfl⟩
  rw [contents, rest.2.1, rest.2.2.1]
  exact inv.uncached b used fun k => blocks k ▸ absent k

end

theorem Inv.init [Inhabited D] : Inv disk (binit disk : Cache Pid V D) := by
  have ring : ∀ (all l : List (Fin NBUF)) (k : Links (Fin NBUF)), k.Ring l → (all ++ l).Nodup →
      ∃ l', (all.foldl Links.insertFront k).Ring l' ∧ l'.Perm (all ++ l) := by
    intro all
    induction all with
    | nil => exact fun l k ring _ => ⟨l, ring, List.Perm.refl _⟩
    | cons i all ih =>
      intro l k ring nodup
      obtain ⟨absent, nodup⟩ := List.nodup_cons.mp nodup
      have outside : i ∉ l := fun mem => absent (List.mem_append_right all mem)
      have nodup' : (all ++ i :: l).Nodup :=
        List.perm_middle.nodup_iff.mpr (List.nodup_cons.mpr ⟨absent, nodup⟩)
      obtain ⟨l', ring', perm⟩ := ih (i :: l) _ (ring.insertFront outside) nodup'
      exact ⟨l', ring', perm.trans List.perm_middle⟩
  refine ⟨?_, fun i j used => absurd rfl used, fun i => ?_, fun _ _ _ => rfl⟩
  · obtain ⟨l, ring, perm⟩ := ring (List.finRange NBUF) [] _ Links.Ring.empty (by
      rw [List.append_nil]
      exact List.nodup_finRange NBUF)
    exact ⟨l, ring, by rwa [List.append_nil] at perm⟩
  refine ⟨nofun, nofun, nofun, nofun, ?_, fun used => absurd rfl used, fun used => absurd rfl used,
    nofun, nofun,
    nofun⟩
  have none : pointers (binit disk : Cache Pid V D).hold Hold.buf i = ∅ := by
    ext y
    simp [binit]
  rw [none]
  rfl

/-! ## The steps of the array -/

/-- What a variable has of the array. -/
def view (c : Cache Pid V D) (v : Option Hold) : Option ((Nat × Nat) × D) :=
  (v.filter fun h => h.stage = .ready).map fun h => (h.block, (c.buf h.buf).data)

theorem view_ready (stage : h.stage = .ready) :
    c.view (some h) = some (h.block, (c.buf h.buf).data) := by
  simp [view, stage]

theorem view_of_stage (stage : h.stage ≠ .ready) : c.view (some h) = none := by
  simp [view, stage]

theorem plain_held (hold : c'.hold = upd c.hold x new)
    (data : ∀ y g, y ≠ x → c.hold y = some g → g.stage = .ready →
      (c'.buf g.buf).data = (c.buf g.buf).data) :
    (c'.plain disk).held = upd (c.plain disk).held x (c'.view new) := by
  funext y
  by_cases eq : y = x
  · rw [eq, upd_self]
    show c'.view (c'.hold x) = _
    rw [hold, upd_self]
  rw [upd_ne eq]
  show c'.view (c'.hold y) = c.view (c.hold y)
  rw [hold, upd_ne eq]
  cases at' : c.hold y with
  | none => rfl
  | some g =>
    by_cases stage : g.stage = .ready
    · rw [view_ready stage, view_ready stage, data y g eq at' stage]
    rw [view_of_stage stage, view_of_stage stage]

theorem plain_congr (hold : c'.hold = c.hold) (left : c'.left = c.left)
    (data : ∀ i, (c'.buf i).data = (c.buf i).data) : c'.plain disk = c.plain disk := by
  have held : (c'.plain disk).held = (c.plain disk).held := by
    funext y
    show c'.view (c'.hold y) = c.view (c.hold y)
    rw [hold, view, view]
    exact Option.map_congr fun g _ => by rw [data]
  have block : (c'.plain disk).block = (c.plain disk).block := by
    funext b
    show c'.contents disk b = c.contents disk b
    rw [contents, contents, left]
  calc c'.plain disk = ⟨(c'.plain disk).block, (c'.plain disk).held⟩ := rfl
    _ = c.plain disk := by rw [block, held]

theorem plain_set (hold : c'.hold = upd c.hold x new) (left : c'.left = c.left)
    (data : ∀ y g, y ≠ x → c.hold y = some g → g.stage = .ready →
      (c'.buf g.buf).data = (c.buf g.buf).data) :
    c'.plain disk = { c.plain disk with held := upd (c.plain disk).held x (c'.view new) } := by
  have block : (c'.plain disk).block = (c.plain disk).block := by
    funext b
    show c'.contents disk b = c.contents disk b
    rw [contents, contents, left]
  calc c'.plain disk = ⟨(c'.plain disk).block, (c'.plain disk).held⟩ := rfl
    _ = _ := by rw [block, plain_held hold data]

theorem plain_eq (hold : c'.hold = upd c.hold x new) (left : c'.left = c.left)
    (data : ∀ i, (c'.buf i).data = (c.buf i).data) (same : c'.view new = c.view (c.hold x)) :
    c'.plain disk = c.plain disk := by
  rw [plain_set hold left fun y g _ _ _ => data g.buf, same,
    show c.view (c.hold x) = (c.plain disk).held x from rfl,
    upd_eq_self]

theorem data_update (same : b.data = (c.buf i).data) (j : Fin NBUF) :
    (upd c.buf i b j).data = (c.buf j).data := by
  by_cases eq : j = i
  · rw [eq, upd_self, same]
  rw [upd_ne eq]

section

variable (inv : Inv disk c)
include inv

theorem Inv.fill_take (at' : c.hold x = some h) (stage : h.stage = .locked) :
    Plain.Step (c.plain disk) ((c.fill x h).plain disk) := by
  have each := inv.each h.buf
  have locks : h.stage.locks = true := by rw [stage]; rfl
  have quiet := each.quiet at' locks
  have hold : (c.fill x h).hold = upd c.hold x (some { h with stage := .ready }) := by
    rw [Cache.fill]
    split
    · rfl
    rfl
  have left : (c.fill x h).left = c.left := by
    rw [Cache.fill]
    split
    · rfl
    rfl
  have apart : ∀ y g, y ≠ x → c.hold y = some g → g.stage = .ready → g.buf ≠ h.buf := by
    intro y g ne before ready on
    have silent := quiet y g ne before on
    rw [ready] at silent
    cases silent
  have after : ((c.fill x h).buf h.buf).data = c.contents disk h.block := by
    have mine : (c.fill x h).hold x = some { h with stage := .ready } := by rw [hold, upd_self]
    have now := (inv.fill at' stage).each h.buf
    have same := (now.names x _ mine rfl).2
    have fresh := (now.ready x _ mine rfl rfl).2.1 (each.new x h at' rfl (.inr stage)).1
    rw [same] at fresh
    rw [fresh, contents, contents, left]
  have shape : (c.fill x h).plain disk = _ := plain_set hold left fun y g ne before ready => by
    have ne := apart y g ne before ready
    rw [Cache.fill]
    split
    · exact congrArg Buf.data (upd_ne ne _ _)
    exact congrArg Buf.data (upd_ne ne _ _)
  rw [shape, view_ready rfl, after]
  refine .take ?_ fun y d has => ?_
  · show c.view (c.hold x) = none
    rw [at', view_of_stage (by rw [stage]; nofun)]
  change c.view (c.hold y) = some (h.block, d) at has
  cases before : c.hold y with
  | none =>
    rw [before] at has
    cases has
  | some g =>
    rw [before] at has
    by_cases ready : g.stage = .ready
    · rw [view_ready ready] at has
      have same : g.block = h.block := congrArg Prod.fst (Option.some.inj has)
      have ne : y ≠ x := by
        rintro rfl
        rw [at'] at before
        rw [← Option.some.inj before, stage] at ready
        cases ready
      obtain ⟨device, named⟩ := (inv.each g.buf).names y g before rfl
      have named' := (each.names x h at' rfl).2
      refine apart y g ne before ready (inv.unique g.buf h.buf device ?_)
      rw [named, named', same]
    rw [view_of_stage ready] at has
    cases has

theorem Inv.modify_change {data : D} (at' : c.hold x = some h) (stage : h.stage = .ready) :
    Plain.Step (c.plain disk) ((c.set h.buf { c.buf h.buf with data } x
      (some { h with fresh := false, kept := false })).plain disk) := by
  have quiet := (inv.each h.buf).quiet at' (by rw [stage]; rfl)
  generalize hc : c.set h.buf { c.buf h.buf with data } x (some { h with fresh := false, kept := false }) = c'
  have self : c'.buf h.buf = { c.buf h.buf with data } := by
    rw [← hc]
    exact upd_self ..
  have hold : c'.hold = upd c.hold x (some { h with fresh := false, kept := false }) := by
    rw [← hc]
    rfl
  have shape : c'.plain disk = _ := plain_set hold (by rw [← hc]; rfl) fun y g ne before ready => by
    rw [← hc]
    refine congrArg Buf.data (upd_ne (fun on => ?_) _ _)
    have silent := quiet y g ne before on
    rw [ready] at silent
    cases silent
  have now : c'.view (some { h with fresh := false, kept := false }) = some (h.block, data) := by
    rw [view_ready (h := { h with fresh := false, kept := false }) stage]
    dsimp only
    rw [self]
  have before : (c.plain disk).held x = some (h.block, (c.buf h.buf).data) := by
    show c.view (c.hold x) = _
    rw [at', view_ready stage]
  rw [shape, now]
  exact .change data before

theorem Inv.release_put (at' : c.hold x = some h) (stage : h.stage = .ready)
    (step : c.release x h = .ok c') : Plain.Step (c.plain disk) (c'.plain disk) := by
  have each := inv.each h.buf
  have lock := each.locked x h at' rfl (by rw [stage]; rfl)
  rw [Cache.release, if_pos lock] at step
  have hc := Except.ok.inj step
  have hold : c'.hold = upd c.hold x (some { h with stage := .released }) := by
    rw [← hc]
    rfl
  have held : (c'.plain disk).held = _ := plain_held hold fun y g _ _ _ => by
    rw [← hc]
    exact data_update (by rfl) g.buf
  have gone : c'.view (some { h with stage := .released }) = none := by simp [view]
  rw [gone] at held
  have block : (c'.plain disk).block = upd (c.plain disk).block h.block (c.buf h.buf).data := by
    rw [← (each.names x h at' rfl).2, ← hc]
    funext b
    show (upd c.left (c.block h.buf) (some (c.buf h.buf).data) b).getD (disk b) =
      upd (c.contents disk) (c.block h.buf) (c.buf h.buf).data b
    by_cases eq : b = c.block h.buf
    · rw [eq, upd_self, upd_self]
      rfl
    rw [upd_ne eq, upd_ne eq]
    rfl
  have before : (c.plain disk).held x = some (h.block, (c.buf h.buf).data) := by
    show c.view (c.hold x) = _
    rw [at', view_ready stage]
  have shape : c'.plain disk = ⟨upd (c.plain disk).block h.block (c.buf h.buf).data,
      upd (c.plain disk).held x none⟩ := by
    calc c'.plain disk = ⟨(c'.plain disk).block, (c'.plain disk).held⟩ := rfl
      _ = _ := by rw [block, held]
  rw [shape]
  exact .put before

theorem Inv.outcome {a : Action Pid V D} {r : Except Panic (Cache Pid V D)} (step : c.step a = some r) :
    match r with
    | .ok c' => (c.Careful a → Inv disk c') ∧
      (c'.plain disk = c.plain disk ∨ Plain.Step (c.plain disk) (c'.plain disk))
    | .error e => e = .bgetNoBuffers := by
  have locked : ∀ {x h}, c.hold x = some h → h.stage = .ready → (c.buf h.buf).lock = some x.1 := by
    intro x h at' stage
    exact (inv.each h.buf).locked x h at' rfl (by rw [stage]; rfl)
  cases a with
  | bget x dev blockno =>
    simp only [Cache.step] at step
    split at step
    swap
    · cases step
    rename_i idle
    have step := Option.some.inj step
    cases r with
    | ok c' =>
      refine ⟨fun device => inv.bget idle device step, .inl ?_⟩
      rw [Cache.bget] at step
      split at step
      · cases step
        refine plain_eq rfl rfl (data_update (by rfl)) ?_
        simp [idle, view]
      split at step
      · cases step
        refine plain_eq rfl rfl (data_update (by rfl)) ?_
        simp [idle, view]
      cases step
    | error e =>
      rw [Cache.bget] at step
      split at step
      · cases step
      split at step
      · cases step
      cases step
      rfl
  | acquire x =>
    simp only [Cache.step, Option.bind_eq_bind, Option.bind_eq_some_iff] at step
    obtain ⟨h, at', step⟩ := step
    obtain ⟨at', stage⟩ := at'_eq_some.mp at'
    split at step
    · rename_i unlocked
      cases step
      refine ⟨fun _ => inv.acquire at' stage unlocked,
        .inl (plain_eq rfl rfl (data_update (by rfl)) ?_)⟩
      rw [at', view_of_stage (h := h) (by rw [stage]; nofun),
        view_of_stage (h := { h with stage := .locked })]
      nofun
    cases step
  | fill x =>
    obtain ⟨h, at', stage, step⟩ := map_at' step
    cases step
    exact ⟨fun _ => inv.fill at' stage, .inr (inv.fill_take at' stage)⟩
  | modify x data =>
    obtain ⟨h, at', stage, step⟩ := map_at' step
    cases step
    exact ⟨fun _ => inv.modify at' stage, .inr (inv.modify_change at' stage)⟩
  | bwrite x =>
    obtain ⟨h, at', stage, step⟩ := map_at' step
    have lock := locked at' stage
    rw [Cache.bwrite, if_pos lock] at step
    cases step
    refine ⟨fun _ => inv.bwrite at' stage (if_pos lock),
      .inl (plain_eq rfl rfl (data_update (by rfl)) ?_)⟩
    rw [at', view_ready stage, view_ready (h := { h with kept := true }) stage]
    exact congrArg (fun d => some (h.block, d)) (data_update (by rfl) h.buf)
  | release x =>
    obtain ⟨h, at', stage, step⟩ := map_at' step
    have lock := locked at' stage
    rw [Cache.release, if_pos lock] at step
    cases step
    exact ⟨fun careful => inv.release at' stage (careful h at') (if_pos lock),
      Or.inr (inv.release_put at' stage (if_pos lock))⟩
  | drop x =>
    obtain ⟨h, at', stage, step⟩ := map_at' step
    cases step
    refine ⟨fun _ => inv.drop at' stage, .inl (plain_eq rfl rfl (data_update (by rfl)) ?_)⟩
    rw [at', view_of_stage (by rw [stage]; nofun)]
    rfl
  | bpin x =>
    obtain ⟨h, at', stage, step⟩ := map_at' step
    cases step
    refine ⟨fun _ => inv.bpin at' stage, .inl (plain_eq rfl rfl (data_update (by rfl)) ?_)⟩
    rw [at', view_ready stage, view_ready (h := { h with kept := true }) stage]
    exact congrArg (fun d => some (h.block, d)) (data_update (by rfl) h.buf)
  | bunpin i =>
    simp only [Cache.step] at step
    split at step
    · rename_i pinned
      cases step
      refine ⟨inv.bunpin pinned, .inl (plain_congr rfl rfl fun j => ?_)⟩
      exact data_update (by rfl) j
    cases step

end

theorem Runs.inv [Inhabited D] (run : Runs Careful disk c) : Inv disk c := by
  induction run with
  | binit => exact .init
  | step _ careful step ih => exact (ih.outcome step).1 careful

end Steps

end Inv

end Cache

/-- In every run of holders that write or pin what they have changed, in which no unwritten
contents lose their last pin: the links form one ring through the head and every buffer,
no two buffers are for one block, `bread` returns the last contents of the block, and
every further step is a step of the array of blocks or none. -/
theorem cache_refines_array {Pid V D : Type} [DecidableEq Pid] [DecidableEq V] [Fintype Pid]
    [Fintype V] [Inhabited D] {disk : Nat × Nat → D} {c : Cache Pid V D}
    (run : Cache.Runs Cache.Careful disk c) :
    (∃ l, c.links.Ring l ∧ l.Perm (List.finRange NBUF)) ∧
    (∀ i j, (c.buf i).dev ≠ 0 → c.block i = c.block j → i = j) ∧
    (∀ x h, c.hold x = some h → h.stage = .ready → h.fresh = true →
      c.block h.buf = h.block ∧ (c.buf h.buf).data = (c.left h.block).getD (disk h.block)) ∧
    (∀ a c', c.step a = some (.ok c') →
      c'.plain disk = c.plain disk ∨ Plain.Step (c.plain disk) (c'.plain disk)) ∧
    ∀ a e, c.step a = some (.error e) → e = .bgetNoBuffers := by
  have inv := run.inv
  refine ⟨inv.ring, inv.unique, fun x h at' stage fresh => ?_,
    fun a c' step => (inv.outcome step).2, fun a e => inv.outcome⟩
  have each := inv.each h.buf
  obtain ⟨-, named⟩ := each.names x h at' rfl
  have data := (each.ready x h at' rfl stage).2.1 fresh
  rw [named] at data
  exact ⟨named, data⟩

/-- One process reads block 5 of device 1, changes it, writes it, releases it, and reads it again.
-/
def writeReadBack : List (Action Unit Unit Nat) :=
  [.bget ((), ()) 1 5, .acquire ((), ()), .fill ((), ()), .modify ((), ()) 7, .bwrite ((), ()),
    .release ((), ()), .drop ((), ()), .bget ((), ()) 1 5, .acquire ((), ()), .fill ((), ())]

theorem writeReadBack_contents :
    ∃ c : Cache Unit Unit Nat, Cache.Runs Cache.Careful (fun _ => 0) c ∧
    c.left (1, 5) = some 7 ∧ (c.buf 0).data = 7 := by
  have played : (((Cache.binit fun _ => 0).play Cache.Careful writeReadBack).any fun c : Cache Unit Unit Nat =>
      c.hold ((), ()) = some ⟨0, (1, 5), .ready, true, true⟩ ∧ c.left (1, 5) = some 7) = true := by
    decide +kernel
  obtain ⟨c, run, check⟩ := Cache.Runs.of_play played
  obtain ⟨hold, left⟩ := of_decide_eq_true check
  obtain ⟨-, -, read, -⟩ := cache_refines_array run
  have data := (read ((), ()) _ hold rfl rfl).2
  rw [left] at data
  exact ⟨c, run, left, data⟩

/-- The process pins the buffer instead of writing it, and the pin is taken back before block 6
is read, into the same buffer. -/
def pinUnpinReadBack : List (Action Unit Unit Nat) :=
  [.bget ((), ()) 1 5, .acquire ((), ()), .fill ((), ()), .modify ((), ()) 7, .bpin ((), ()),
    .release ((), ()), .drop ((), ()), .bunpin 0, .bget ((), ()) 1 6, .acquire ((), ()), .fill ((), ()),
    .release ((), ()), .drop ((), ()), .bget ((), ()) 1 5, .acquire ((), ()), .fill ((), ())]

theorem pinUnpinReadBack_lost :
    ∃ c : Cache Unit Unit Nat, Cache.Runs Cache.Obliging (fun _ => 0) c ∧
    ∃ h, c.hold ((), ()) = some h ∧ h.block = (1, 5) ∧ h.stage = .ready ∧ h.fresh = true ∧
      c.left (1, 5) = some 7 ∧ (c.buf h.buf).data = 0 := by
  have played : (((Cache.binit fun _ => 0).play Cache.Obliging pinUnpinReadBack).any
      fun c : Cache Unit Unit Nat => c.left (1, 5) = some 7 ∧
        ∃ h ∈ c.hold ((), ()), h.block = (1, 5) ∧ h.stage = .ready ∧ h.fresh = true ∧ (c.buf h.buf).data = 0) =
      true := by
    decide +kernel
  obtain ⟨c, run, check⟩ := Cache.Runs.of_play played
  obtain ⟨left, h, hold, block, stage, fresh, data⟩ := of_decide_eq_true check
  exact ⟨c, run, h, hold, block, stage, fresh, left, data⟩

end Xv6.Bcache
