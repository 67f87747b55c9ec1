import Xv6.Param

/-!
# The virtio disk driver

`kernel/virtio_disk.c` after its initialisation. Any number of threads call
`virtio_disk_rw` and `virtio_disk_intr`, and the device works at the same time: it
takes heads of chains out of the `avail` ring, completes what it has taken in any
order, and puts the heads into the `used` ring. A step of a thread is what it does
between two points where another thread or the device can tell the difference;
code under `vdisk_lock` that only touches what the device does not look at is one
step. `sleep` gives the lock back and gets it again at some later time, whether or
not there was a `wakeup`: a thread that sleeps is one that has yet to acquire the
lock. Buffers are an arbitrary type; their contents are left out. The callers are
`bread` and `bwrite`, which have the sleep lock of the buffer: `bget` acquires it,
`brelse` releases it, and `bwrite` panics without it.

`Hist` is no part of the program. It records what was offered to the device, in
which order it was completed, and how many completions were handled.
-/

namespace Xv6.Virtio

open Function renaming update → upd

abbrev NUM : Nat := 8
abbrev VRING_DESC_F_NEXT : Nat := 1
abbrev VRING_DESC_F_WRITE : Nat := 2
abbrev VIRTIO_BLK_T_IN : Nat := 0
abbrev VIRTIO_BLK_T_OUT : Nat := 1

/-- What the address in a descriptor points to. -/
inductive Ptr (Buf : Type)
  | null
  | op (i : Nat)
  | data (b : Buf)
  | status (i : Nat)

/-- `struct virtq_desc`. -/
structure Desc (Buf : Type) where
  addr : Ptr Buf
  len : Nat
  flags : Nat
  next : Nat

/-- `struct virtq_avail` and `struct virtq_used`; `idx` is a `uint16`. -/
structure Ring where
  idx : Nat
  ring : Nat → Nat

structure Info (Buf : Type) where
  b : Option Buf
  status : Nat

/-- `struct virtio_blk_req`. -/
structure Op where
  type : Nat
  reserved : Nat
  sector : Nat

/-- `struct disk`, with the fields `blockno` and `disk` of the buffers. -/
structure Disk (Buf : Type) where
  desc : Nat → Desc Buf
  avail : Ring
  used : Ring
  free : Nat → Bool
  usedIdx : Nat
  info : Nat → Info Buf
  ops : Nat → Op
  blockno : Buf → Nat
  busy : Buf → Bool

inductive Fault
  | freeDesc1
  | freeDesc2
  | endless
  | status
  | nullBuf
  deriving DecidableEq

/-- The three descriptors of a request. -/
structure Chain where
  i0 : Nat
  i1 : Nat
  i2 : Nat

def Chain.list (c : Chain) : List Nat := [c.i0, c.i1, c.i2]

namespace Disk

variable {Buf : Type}

def init (blockno : Buf → Nat) : Disk Buf where
  desc _ := ⟨.null, 0, 0, 0⟩
  avail := ⟨0, fun _ => 0⟩
  used := ⟨0, fun _ => 0⟩
  free i := decide (i < NUM)
  usedIdx := 0
  info _ := ⟨none, 0⟩
  ops _ := ⟨0, 0, 0⟩
  blockno := blockno
  busy _ := false

def allocDesc (d : Disk Buf) : Option (Nat × Disk Buf) :=
  ((List.range NUM).find? d.free).map fun i => (i, { d with free := upd d.free i false })

def freeDesc (d : Disk Buf) (i : Nat) : Except Fault (Disk Buf) :=
  if NUM ≤ i then .error .freeDesc1
  else if d.free i then .error .freeDesc2
  else .ok { d with
    desc := upd d.desc i ⟨.null, 0, 0, 0⟩
    free := upd d.free i true }

/-- `free_chain`; a chain with a loop would be freed twice, so the fuel does not run out. -/
def freeChain : Nat → Disk Buf → Nat → Except Fault (Disk Buf)
  | 0, _, _ => .error .endless
  | fuel + 1, d, i => do
    let flag := (d.desc i).flags
    let nxt := (d.desc i).next
    let d ← d.freeDesc i
    if flag &&& VRING_DESC_F_NEXT ≠ 0 then freeChain fuel d nxt else return d

/-- `alloc3_desc`; a failure gives back what was taken. -/
def alloc3Desc (d : Disk Buf) : Except Fault (Option Chain × Disk Buf) :=
  match d.allocDesc with
  | none => .ok (none, d)
  | some (i0, d) =>
    match d.allocDesc with
    | none => do
      let d ← d.freeDesc i0
      return (none, d)
    | some (i1, d) =>
      match d.allocDesc with
      | none => do
        let d ← d.freeDesc i0
        let d ← d.freeDesc i1
        return (none, d)
      | some (i2, d) => .ok (some ⟨i0, i1, i2⟩, d)

/-- The three descriptors, `info`, `b->disk` and the entry of the `avail` ring. -/
def format [DecidableEq Buf] (d : Disk Buf) (b : Buf) (write : Bool) (c : Chain) : Disk Buf :=
  { d with
    ops := upd d.ops c.i0
      ⟨if write then VIRTIO_BLK_T_OUT else VIRTIO_BLK_T_IN, 0, d.blockno b * (BSIZE / 512) % 2 ^ 32⟩
    desc := upd (upd (upd d.desc
      c.i0 ⟨.op c.i0, 16, VRING_DESC_F_NEXT, c.i1⟩)
      c.i1 ⟨.data b, BSIZE, (if write then 0 else VRING_DESC_F_WRITE) ||| VRING_DESC_F_NEXT, c.i2⟩)
      c.i2 ⟨.status c.i0, 1, VRING_DESC_F_WRITE, 0⟩
    info := upd d.info c.i0 ⟨some b, 0xff⟩
    busy := upd d.busy b true
    avail := { d.avail with ring := upd d.avail.ring (d.avail.idx % NUM) c.i0 } }

/-- `disk.avail->idx += 1`. -/
def publish (d : Disk Buf) : Disk Buf := { d with avail := { d.avail with idx := (d.avail.idx + 1) % 2 ^ 16 } }

/-- The end of `virtio_disk_rw`. -/
def finish (d : Disk Buf) (c : Chain) : Except Fault (Disk Buf) :=
  freeChain (NUM + 1) { d with info := upd d.info c.i0 { d.info c.i0 with b := none } } c.i0

/-- A round of the loop of `virtio_disk_intr`. -/
def handle [DecidableEq Buf] (d : Disk Buf) : Except Fault (Disk Buf) :=
  let id := d.used.ring (d.usedIdx % NUM)
  if (d.info id).status ≠ 0 then .error .status
  else
    match (d.info id).b with
    | none => .error .nullBuf
    | some b => .ok { d with busy := upd d.busy b false, usedIdx := (d.usedIdx + 1) % 2 ^ 16 }

/-- The device completes the chain with this head: it writes the status where the third
descriptor says. -/
def complete (d : Disk Buf) (head : Nat) : Disk Buf :=
  match (d.desc (d.desc (d.desc head).next).next).addr with
  | .status i => { d with info := upd d.info i { d.info i with status := 0 } }
  | _ => d

def post (d : Disk Buf) (head : Nat) : Disk Buf :=
  { d with used := ⟨(d.used.idx + 1) % 2 ^ 16, upd d.used.ring (d.used.idx % NUM) head⟩ }

end Disk

/-- Where a thread is. The number of a request is its place among all that were offered. -/
inductive Pc (Buf : Type)
  | idle
  /-- before `acquire`, or in `sleep(&disk.free[0])` -/
  | enter (b : Buf) (write : Bool)
  | alloc (b : Buf) (write : Bool)
  | fill (b : Buf) (write : Bool) (c : Chain)
  | publish (b : Buf) (c : Chain)
  /-- at the test `b->disk == 1` -/
  | wait (b : Buf) (c : Chain) (no : Nat)
  /-- in `sleep(b)` -/
  | waiting (b : Buf) (c : Chain) (no : Nat)
  | finish (b : Buf) (c : Chain) (no : Nat)
  /-- before `release` -/
  | leave
  | intrEnter
  | intrLoop
  | intrBody

/-- A chain the device has taken. -/
structure Job where
  head : Nat
  no : Nat
  deriving DecidableEq

/-- What the device knows: how far it has read the `avail` ring, the chains it works on, and
those it has completed and not yet put into the `used` ring. -/
structure Device where
  seen : Nat
  pending : List Job
  finished : List Job

structure Offer (Buf : Type) where
  chain : Chain
  buf : Buf

/-- The requests in the order in which they were offered, how many the device has taken, the
numbers of those in the `used` ring in the order in which they got there, and how many of these
`virtio_disk_intr` has handled. -/
structure Hist (Buf : Type) where
  offers : List (Offer Buf)
  fetched : Nat
  posted : List Nat
  handled : Nat

/-- The requests that `virtio_disk_intr` has handled. -/
def Hist.processed {Buf : Type} (h : Hist Buf) : List Nat := h.posted.take h.handled

/-- `owner` is the thread that has `b->lock`. -/
structure Sys (P Buf : Type) where
  disk : Disk Buf
  owner : Buf → Option P
  lock : Option P
  pc : P → Pc Buf
  dev : Device
  hist : Hist Buf

inductive Action (P Buf : Type)
  /-- `acquiresleep(&b->lock)` in `bget` -/
  | bget (x : P) (b : Buf)
  /-- `releasesleep(&b->lock)` in `brelse` -/
  | brelse (x : P) (b : Buf)
  | call (x : P) (b : Buf) (write : Bool)
  | interrupt (x : P)
  | run (x : P)
  | fetch
  | complete (j : Job)
  | post (j : Job)

namespace Sys

variable {P Buf : Type} [DecidableEq P] [DecidableEq Buf]

def start (blockno : Buf → Nat) : Sys P Buf where
  disk := .init blockno
  owner _ := none
  lock := none
  pc _ := .idle
  dev := ⟨0, [], []⟩
  hist := ⟨[], 0, [], 0⟩

def goto (s : Sys P Buf) (x : P) (p : Pc Buf) : Sys P Buf := { s with pc := upd s.pc x p }

/-- Go on under the lock when it is free. -/
def acquire (s : Sys P Buf) (x : P) (p : Pc Buf) : Option (Except Fault (Sys P Buf)) :=
  if s.lock = none then some (.ok ({ s with lock := some x }.goto x p)) else none

def release (s : Sys P Buf) (x : P) (p : Pc Buf) : Option (Except Fault (Sys P Buf)) :=
  some (.ok ({ s with lock := none }.goto x p))

/-- The next step of a thread. -/
def run (s : Sys P Buf) (x : P) : Option (Except Fault (Sys P Buf)) :=
  match s.pc x with
  | .idle => none
  | .enter b write => s.acquire x (.alloc b write)
  | .alloc b write =>
    match s.disk.alloc3Desc with
    | .error e => some (.error e)
    | .ok (some c, d) => some (.ok ({ s with disk := d }.goto x (.fill b write c)))
    | .ok (none, d) => { s with disk := d }.release x (.enter b write)
  | .fill b write c => some (.ok ({ s with disk := s.disk.format b write c }.goto x (.publish b c)))
  | .publish b c =>
    some (.ok ({ s with
      disk := s.disk.publish
      hist := { s.hist with offers := s.hist.offers ++ [Offer.mk c b] } }.goto x (.wait b c s.hist.offers.length)))
  | .wait b c no => if s.disk.busy b then s.release x (.waiting b c no) else some (.ok (s.goto x (.finish b c no)))
  | .waiting b c no => s.acquire x (.wait b c no)
  | .finish _ c _ =>
    match s.disk.finish c with
    | .error e => some (.error e)
    | .ok d => some (.ok ({ s with disk := d }.goto x .leave))
  | .leave => s.release x .idle
  | .intrEnter => s.acquire x .intrLoop
  | .intrLoop => some (.ok (s.goto x (if s.disk.usedIdx = s.disk.used.idx then .leave else .intrBody)))
  | .intrBody =>
    match s.disk.handle with
    | .error e => some (.error e)
    | .ok d => some (.ok ({ s with disk := d, hist := { s.hist with handled := s.hist.handled + 1 } }.goto x .intrLoop))

def step (s : Sys P Buf) : Action P Buf → Option (Except Fault (Sys P Buf))
  | .bget x b =>
    match s.pc x, s.owner b with
    | .idle, none => some (.ok { s with owner := upd s.owner b (some x) })
    | _, _ => none
  | .brelse x b =>
    match s.pc x with
    | .idle => if s.owner b = some x then some (.ok { s with owner := upd s.owner b none }) else none
    | _ => none
  | .call x b write =>
    match s.pc x with
    | .idle => if s.owner b = some x then some (.ok (s.goto x (.enter b write))) else none
    | _ => none
  | .interrupt x =>
    match s.pc x with
    | .idle => some (.ok (s.goto x .intrEnter))
    | _ => none
  | .run x => s.run x
  | .fetch =>
    if s.dev.seen = s.disk.avail.idx then none
    else some (.ok { s with
      dev := { s.dev with
        seen := (s.dev.seen + 1) % 2 ^ 16
        pending := s.dev.pending ++ [Job.mk (s.disk.avail.ring (s.dev.seen % NUM)) s.hist.fetched] }
      hist := { s.hist with fetched := s.hist.fetched + 1 } })
  | .complete j =>
    if j ∈ s.dev.pending then
      some (.ok { s with
        disk := s.disk.complete j.head
        dev := { s.dev with pending := s.dev.pending.erase j, finished := s.dev.finished ++ [j] } })
    else none
  | .post j =>
    if j ∈ s.dev.finished then
      some (.ok { s with
        disk := s.disk.post j.head
        dev := { s.dev with finished := s.dev.finished.erase j }
        hist := { s.hist with posted := s.hist.posted ++ [j.no] } })
    else none

end Sys

namespace Pc

variable {Buf : Type}

/-- The thread has `vdisk_lock`. -/
def inside : Pc Buf → Bool
  | alloc .. | fill .. | publish .. | wait .. | finish .. | leave | intrLoop | intrBody => true
  | _ => false

/-- The buffer a thread was called with. -/
def buf : Pc Buf → Option Buf
  | enter b _ | alloc b _ | fill b _ _ | publish b _ | wait b _ _ | waiting b _ _ | finish b _ _ => some b
  | _ => none

/-- The descriptors of a request in progress. -/
def chain : Pc Buf → Option Chain
  | fill _ _ c | publish _ c | wait _ c _ | waiting _ c _ | finish _ c _ => some c
  | _ => none

/-- A request whose descriptors are set up. -/
def filled : Pc Buf → Option (Chain × Buf)
  | publish b c | wait b c _ | waiting b c _ | finish b c _ => some (c, b)
  | _ => none

/-- A request that was offered to the device. -/
def request : Pc Buf → Option (Nat × Chain × Buf)
  | wait b c no | waiting b c no | finish b c no => some (no, c, b)
  | _ => none

end Pc

section Runs

variable {P Buf : Type} [DecidableEq P] [DecidableEq Buf]

inductive Sys.Reachable (blockno : Buf → Nat) : Sys P Buf → Prop
  | start : Reachable blockno (.start blockno)
  | step {s t : Sys P Buf} {a : Action P Buf} (run : Reachable blockno s)
      (step : s.step a = some (.ok t)) :
      Reachable blockno t

end Runs

end Xv6.Virtio
