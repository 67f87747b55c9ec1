import Mathlib.Data.Fintype.Prod
import Mathlib.Data.Fintype.Option
import Xv6.Lib.Pointers
import Xv6.Log.State

/-!
# The buffer cache

`kernel/bio.c` with its callers: the buffers with their reference counts and
sleep-locks, the list in order of use, and for every process the `struct buf *`
variables that point into the cache. A call of `bread` or `brelse` is several
steps: the critical section of `bcache.lock`, the wait for the sleep-lock, the
transfer from the disk. The system has one disk, so that every call names
`ROOTDEV`; `dev` is 0 in a buffer that was never used.
-/

namespace Xv6

open Function renaming update → upd, update_self → upd_self, update_of_ne → upd_ne

/-- `struct buf` without its place in the list; `lock` is the owner of the sleep-lock. -/
structure Buf (Pid : Type) where
  valid : Bool
  dev : Nat
  blockno : Nat
  refcnt : Nat
  lock : Option Pid
  data : Block

/-- How far a `struct buf *` variable is between `bget` and the end of `brelse`. -/
inductive Stage
  | waiting
  | locked
  | ready
  | released
  deriving DecidableEq

/-- The process has the sleep-lock of the buffer. -/
def Stage.locks : Stage → Bool
  | .locked | .ready => true
  | .waiting | .released => false

/-- A variable that points to a buffer. `clean` records that the process has not
changed the buffer since it took the lock. -/
structure Hold where
  buf : Fin NBUF
  blockno : Nat
  stage : Stage
  clean : Bool
  deriving DecidableEq

/-- The variables of a process: the two that `commit` uses (`to` or `lbuf`, `from`
or `dbuf`) and those of other code. -/
inductive Var (k : Nat)
  | logBuf
  | homeBuf
  | loc (i : Fin k)
  deriving DecidableEq, Fintype

/-- The cache, the disk behind it and the variables. `last` records for every
block what the last process to release its buffer left in it. -/
structure Cache (Pid : Type) (k : Nat) where
  buf : Fin NBUF → Buf Pid
  lru : List (Fin NBUF)
  disk : Nat → Block
  hold : Pid × Var k → Option Hold
  last : Nat → Block

namespace Cache

set_option linter.unusedSectionVars false

variable {Pid : Type} [DecidableEq Pid] {k : Nat}

/-- Update a buffer and the variable that a step works on. -/
def set (c : Cache Pid k) (i : Fin NBUF) (b : Buf Pid) (x : Pid × Var k) (h : Option Hold) :
    Cache Pid k :=
  { c with buf := upd c.buf i b, hold := upd c.hold x h }

/-- The critical section of `bget`: the buffer of the block, else the least
recently used buffer that nobody refers to. -/
def bget (c : Cache Pid k) (x : Pid × Var k) (blockno : Nat) : Except Panic (Cache Pid k) :=
  match c.lru.find? fun i => (c.buf i).dev = ROOTDEV ∧ (c.buf i).blockno = blockno with
  | some i => .ok (c.set i { c.buf i with refcnt := (c.buf i).refcnt + 1 } x (some ⟨i, blockno, .waiting, false⟩))
  | none =>
    match c.lru.reverse.find? fun i => (c.buf i).refcnt = 0 with
    | some i =>
      .ok (c.set i { c.buf i with dev := ROOTDEV, blockno, valid := false, refcnt := 1 } x
        (some ⟨i, blockno, .waiting, false⟩))
    | none => .error .bgetNoBuffers

/-- `acquiresleep`; `none` while somebody else has the lock. -/
def acquire (c : Cache Pid k) (x : Pid × Var k) (h : Hold) : Option (Cache Pid k) :=
  if (c.buf h.buf).lock = none then
    some (c.set h.buf { c.buf h.buf with lock := some x.1 } x
      (some { h with stage := .locked, clean := true }))
  else none

/-- The end of `bread`: read the block unless the buffer is valid. -/
def fill (c : Cache Pid k) (x : Pid × Var k) (h : Hold) : Cache Pid k :=
  if (c.buf h.buf).valid then c.set h.buf (c.buf h.buf) x (some { h with stage := .ready })
  else
    c.set h.buf { c.buf h.buf with data := c.disk (c.buf h.buf).blockno, valid := true } x
      (some { h with stage := .ready })

/-- The process changes the contents of a buffer. -/
def modify (c : Cache Pid k) (x : Pid × Var k) (h : Hold) (data : Block) : Cache Pid k :=
  c.set h.buf { c.buf h.buf with data } x (some { h with clean := false })

def bwrite (c : Cache Pid k) (x : Pid × Var k) (h : Hold) : Except Panic (Cache Pid k) :=
  if (c.buf h.buf).lock = some x.1 then
    .ok { c with disk := upd c.disk (c.buf h.buf).blockno (c.buf h.buf).data }
  else .error .bwrite

/-- `brelse` up to `releasesleep`. -/
def release (c : Cache Pid k) (x : Pid × Var k) (h : Hold) : Except Panic (Cache Pid k) :=
  if (c.buf h.buf).lock = some x.1 then
    .ok { c.set h.buf { c.buf h.buf with lock := none } x (some { h with stage := .released }) with
      last := upd c.last (c.buf h.buf).blockno (c.buf h.buf).data }
  else .error .brelse

/-- The critical section of `brelse`; an unused buffer goes to the front of the list. -/
def drop (c : Cache Pid k) (x : Pid × Var k) (h : Hold) : Cache Pid k :=
  { c.set h.buf { c.buf h.buf with refcnt := (c.buf h.buf).refcnt - 1 } x none with
    lru := if (c.buf h.buf).refcnt - 1 = 0 then h.buf :: c.lru.erase h.buf else c.lru }

def bpin (c : Cache Pid k) (i : Fin NBUF) : Cache Pid k :=
  { c with buf := upd c.buf i { c.buf i with refcnt := (c.buf i).refcnt + 1 } }

def bunpin (c : Cache Pid k) (i : Fin NBUF) : Cache Pid k :=
  { c with buf := upd c.buf i { c.buf i with refcnt := (c.buf i).refcnt - 1 } }

/-! ## The variables after each operation -/

section Holds

variable {c c' : Cache Pid k} {x : Pid × Var k} {h : Hold} {blockno : Nat}

theorem bget_hold (step : c.bget x blockno = .ok c') :
    ∃ i, c'.hold = upd c.hold x (some ⟨i, blockno, .waiting, false⟩) := by
  unfold bget at step
  split at step
  · cases step
    exact ⟨_, rfl⟩
  split at step
  · cases step
    exact ⟨_, rfl⟩
  cases step

theorem acquire_hold (step : c.acquire x h = some c') :
    c'.hold = upd c.hold x (some { h with stage := .locked, clean := true }) := by
  unfold acquire at step
  split at step
  · cases step
    rfl
  cases step

theorem fill_hold (c : Cache Pid k) (x : Pid × Var k) (h : Hold) :
    (c.fill x h).hold = upd c.hold x (some { h with stage := .ready }) := by
  unfold fill
  split
  · rfl
  rfl

theorem bwrite_hold (step : c.bwrite x h = .ok c') : c'.hold = c.hold := by
  unfold bwrite at step
  split at step
  · cases step
    rfl
  cases step

theorem release_hold (step : c.release x h = .ok c') :
    c'.hold = upd c.hold x (some { h with stage := .released }) := by
  unfold release at step
  split at step
  · cases step
    rfl
  cases step

end Holds

/-! ## A buffer in use keeps its block -/

/-- The block that a buffer holds. -/
def block (c : Cache Pid k) (i : Fin NBUF) : Nat × Nat := ((c.buf i).dev, (c.buf i).blockno)

section Blocks

variable {c c' : Cache Pid k} {x : Pid × Var k} {h : Hold} {blockno : Nat}

theorem block_update {i : Fin NBUF} {b : Buf Pid} (buf : c'.buf = upd c.buf i b)
    (same : (b.dev, b.blockno) = c.block i) (j : Fin NBUF) : c'.block j = c.block j := by
  unfold block
  rw [buf]
  by_cases eq : j = i
  · rw [eq, upd_self]
    exact same
  rw [upd_ne eq]

theorem bget_block (step : c.bget x blockno = .ok c') {j : Fin NBUF} (used : (c.buf j).refcnt ≠ 0) :
    c'.block j = c.block j := by
  unfold bget at step
  split at step
  · rename_i i _
    cases step
    exact block_update (i := i) rfl (by rfl) j
  split at step
  · rename_i i found
    cases step
    have ne : j ≠ i := by
      rintro rfl
      exact used (by simpa using List.find?_some found)
    unfold block set
    dsimp only
    rw [upd_ne ne]
  cases step

theorem acquire_block (step : c.acquire x h = some c') (j : Fin NBUF) : c'.block j = c.block j := by
  unfold acquire at step
  split at step
  · cases step
    exact block_update (i := h.buf) rfl (by rfl) j
  cases step

theorem fill_block (c : Cache Pid k) (x : Pid × Var k) (h : Hold) (j : Fin NBUF) :
    (c.fill x h).block j = c.block j := by
  unfold fill
  split
  · exact block_update (i := h.buf) rfl (by rfl) j
  exact block_update (i := h.buf) rfl (by rfl) j

theorem bwrite_block (step : c.bwrite x h = .ok c') (j : Fin NBUF) : c'.block j = c.block j := by
  unfold bwrite at step
  split at step
  · cases step
    rfl
  cases step

theorem release_block (step : c.release x h = .ok c') (j : Fin NBUF) : c'.block j = c.block j := by
  unfold release at step
  split at step
  · cases step
    exact block_update (i := h.buf) rfl (by rfl) j
  cases step

end Blocks

/-! ## The invariant -/

section Inv

variable [Fintype Pid]

/-- The variables that point to a buffer. -/
def holders (c : Cache Pid k) (i : Fin NBUF) : Finset (Pid × Var k) :=
  Finset.univ.filter fun x => ∃ h ∈ c.hold x, h.buf = i

def Pinned (pinned : Finset Nat) (b : Buf Pid) : Prop := b.dev = ROOTDEV ∧ b.blockno ∈ pinned

instance (pinned : Finset Nat) (b : Buf Pid) : Decidable (Pinned pinned b) :=
  inferInstanceAs (Decidable (_ ∧ _))

def pin (pinned : Finset Nat) (b : Buf Pid) : Nat := if Pinned pinned b then 1 else 0

/-- The cache with the blocks `pinned` in it: a reference count is the number of
variables that point to the buffer, and one more for a pinned block. -/
structure Inv (pinned : Finset Nat) (c : Cache Pid k) : Prop where
  listed : ∀ i, i ∈ c.lru
  unique : ∀ i j, (c.buf i).dev = ROOTDEV → (c.buf j).dev = ROOTDEV →
    (c.buf i).blockno = (c.buf j).blockno → i = j
  names : ∀ x h, c.hold x = some h → (c.buf h.buf).dev = ROOTDEV ∧ (c.buf h.buf).blockno = h.blockno
  locked : ∀ x h, c.hold x = some h → h.stage.locks = true → (c.buf h.buf).lock = some x.1
  sole : ∀ x y h g, c.hold x = some h → c.hold y = some g → h.stage.locks = true →
    g.stage.locks = true → h.buf = g.buf → x = y
  ready : ∀ x h, c.hold x = some h → h.stage = .ready → (c.buf h.buf).valid = true
  count : ∀ i, (c.buf i).refcnt = (c.holders i).card + pin pinned (c.buf i)
  present : ∀ b ∈ pinned, ∃ i, (c.buf i).dev = ROOTDEV ∧ (c.buf i).blockno = b ∧
    (c.buf i).valid = true
  left : ∀ i, Pinned pinned (c.buf i) → (c.buf i).lock = none →
    (c.buf i).data = c.last (c.buf i).blockno
  kept : ∀ x h, c.hold x = some h → h.stage.locks = true → h.clean = true →
    Pinned pinned (c.buf h.buf) → (c.buf h.buf).data = c.last (c.buf h.buf).blockno

theorem mem_holders {c : Cache Pid k} {i : Fin NBUF} {x : Pid × Var k} :
    x ∈ c.holders i ↔ ∃ h, c.hold x = some h ∧ h.buf = i := by
  simp [holders]

/-- A variable counts for the buffer it points to. -/
def points (h : Option Hold) (i : Fin NBUF) : Nat := if ∃ g ∈ h, g.buf = i then 1 else 0

theorem card_holders {c c' : Cache Pid k} {x : Pid × Var k} {new : Option Hold}
    (hold : c'.hold = upd c.hold x new) (i : Fin NBUF) :
    (c'.holders i).card + points (c.hold x) i = (c.holders i).card + points new i := by
  have same : ∀ h, points h i = Xv6.points Hold.buf i h := by
    intro h
    cases h <;> simp [points, Xv6.points]
  have all : ∀ d : Cache Pid k, d.holders i = pointers d.hold Hold.buf i := by
    intro d
    ext y
    rw [mem_holders, mem_pointers]
  rw [same, same, all, all, hold]
  exact card_pointers_update c.hold Hold.buf i x new

theorem points_of_ne {h : Option Hold} {i j : Fin NBUF} (on : ∀ g ∈ h, g.buf = i) (ne : j ≠ i) :
    points h j = 0 := by
  unfold points
  refine if_neg ?_
  rintro ⟨g, mem, eq⟩
  exact ne (eq.symm.trans (on g mem))

/-- What a step may do to the buffer `i` and to the variable `x` that points to it,
when the buffer keeps its block. -/
structure Touch (pinned : Finset Nat) (c : Cache Pid k) (i : Fin NBUF) (b : Buf Pid)
    (x : Pid × Var k) (new : Option Hold) (last : Nat → Block) : Prop where
  dev : (c.buf i).dev = ROOTDEV
  block : b.dev = (c.buf i).dev ∧ b.blockno = (c.buf i).blockno
  valid : (c.buf i).valid = true → b.valid = true
  old : ∀ h ∈ c.hold x, h.buf = i
  on : ∀ h ∈ new, h.buf = i ∧ b.blockno = h.blockno ∧
    (h.stage.locks = true → b.lock = some x.1) ∧ (h.stage = .ready → b.valid = true)
  lock : ∀ y h, y ≠ x → c.hold y = some h → h.buf = i → h.stage.locks = true →
    b.lock = some y.1 ∧ ∀ g ∈ new, g.stage.locks = false
  count : b.refcnt + points (c.hold x) i = (c.buf i).refcnt + points new i
  others : ∀ n, n ≠ b.blockno → last n = c.last n
  left : Pinned pinned b → b.lock = none → b.data = last b.blockno
  kept : Pinned pinned b → ∀ y h, upd c.hold x new y = some h → h.buf = i →
    h.stage.locks = true → h.clean = true → b.data = last b.blockno

section Touch

variable {pinned : Finset Nat} {c c' : Cache Pid k} {i : Fin NBUF} {b : Buf Pid} {x : Pid × Var k} {new : Option Hold}

theorem Touch.last_of_ne {last : Nat → Block} (t : Touch pinned c i b x new last)
    (inv : Inv pinned c) {j : Fin NBUF} (ne : j ≠ i) (pin : Pinned pinned (c.buf j)) :
    last (c.buf j).blockno = c.last (c.buf j).blockno := by
  refine t.others _ fun eq => ne ?_
  exact inv.unique j i pin.1 t.dev (eq.trans t.block.2)

theorem Inv.touch (inv : Inv pinned c) (t : Touch pinned c i b x new c'.last)
    (buf : c'.buf = upd c.buf i b) (hold : c'.hold = upd c.hold x new)
    (listed : ∀ j, j ∈ c'.lru) : Inv pinned c' := by
  have self : c'.buf i = b := by rw [buf, upd_self]
  have other : ∀ j, j ≠ i → c'.buf j = c.buf j := fun j ne => by rw [buf, upd_ne ne]
  have mine : c'.hold x = new := by rw [hold, upd_self]
  have theirs : ∀ y, y ≠ x → c'.hold y = c.hold y := fun y ne => by rw [hold, upd_ne ne]
  have block : ∀ j, (c'.buf j).dev = (c.buf j).dev ∧ (c'.buf j).blockno = (c.buf j).blockno := by
    intro j
    by_cases eq : j = i
    · rw [eq, self]
      exact t.block
    rw [other j eq]
    exact ⟨rfl, rfl⟩
  have pins : ∀ j, Pinned pinned (c'.buf j) ↔ Pinned pinned (c.buf j) := by
    intro j
    rw [Pinned, Pinned, (block j).1, (block j).2]
  have valid : ∀ j, (c.buf j).valid = true → (c'.buf j).valid = true := by
    intro j was
    by_cases eq : j = i
    · rw [eq, self]
      exact t.valid (eq ▸ was)
    rwa [other j eq]
  constructor
  case listed => exact listed
  case unique =>
    intro j l
    rw [(block j).1, (block j).2, (block l).1, (block l).2]
    exact inv.unique j l
  case names =>
    intro y h at'
    rw [(block _).1, (block _).2]
    by_cases eq : y = x
    · obtain ⟨at', name, -⟩ := t.on h (by rw [← mine, ← eq]; exact at')
      rw [at', ← name]
      exact ⟨t.dev, t.block.2.symm⟩
    exact inv.names y h ((theirs y eq).symm.trans at')
  case locked =>
    intro y h at' locks
    by_cases eq : y = x
    · obtain ⟨on, -, lock, -⟩ := t.on h (by rw [← mine, ← eq]; exact at')
      rw [on, self, eq]
      exact lock locks
    have before := (theirs y eq).symm.trans at'
    by_cases on : h.buf = i
    · rw [on, self]
      exact (t.lock y h eq before on locks).1
    rw [other _ on]
    exact inv.locked y h before locks
  case sole =>
    have against : ∀ y h g, y ≠ x → c'.hold x = some g → c'.hold y = some h →
        g.stage.locks = true → h.stage.locks = true → g.buf = h.buf → False := by
      intro y h g ne atX atY locksX locksY same
      have new := t.on g (by rw [← mine]; exact atX)
      have silent := (t.lock y h ne ((theirs y ne).symm.trans atY) (same ▸ new.1) locksY).2 g
        (by rw [← mine]; exact atX)
      rw [silent] at locksX
      cases locksX
    intro y z h g atY atZ locksY locksZ same
    by_cases eqY : y = x
    · by_cases eqZ : z = x
      · rw [eqY, eqZ]
      exact (against z g h eqZ (eqY ▸ atY) atZ locksY locksZ same).elim
    by_cases eqZ : z = x
    · exact (against y h g eqY (eqZ ▸ atZ) atY locksZ locksY same.symm).elim
    exact inv.sole y z h g ((theirs y eqY).symm.trans atY) ((theirs z eqZ).symm.trans atZ)
      locksY locksZ same
  case ready =>
    intro y h at' ready
    by_cases eq : y = x
    · obtain ⟨on, -, -, valid⟩ := t.on h (by rw [← mine, ← eq]; exact at')
      rw [on, self]
      exact valid ready
    exact valid _ (inv.ready y h ((theirs y eq).symm.trans at') ready)
  case count =>
    intro j
    have card := card_holders hold j
    have before := inv.count j
    have same : pin pinned (c'.buf j) = pin pinned (c.buf j) := by
      unfold pin
      simp only [pins j]
    by_cases eq : j = i
    · subst eq
      have count := t.count
      rw [same, self]
      omega
    rw [points_of_ne t.old eq, points_of_ne (fun g mem => (t.on g mem).1) eq] at card
    rw [same, other j eq]
    omega
  case present =>
    intro n mem
    obtain ⟨j, dev, blockno, was⟩ := inv.present n mem
    exact ⟨j, (block j).1.trans dev, (block j).2.trans blockno, valid j was⟩
  case left =>
    intro j pinned free
    by_cases eq : j = i
    · rw [eq, self] at pinned free ⊢
      exact t.left pinned free
    rw [other j eq] at pinned free ⊢
    rw [t.last_of_ne inv eq pinned]
    exact inv.left j pinned free
  case kept =>
    intro y h at' locks clean pinned
    by_cases on : h.buf = i
    · rw [on, self] at pinned ⊢
      exact t.kept pinned y h (hold ▸ at') on locks clean
    have ne : y ≠ x := by
      rintro rfl
      exact on (t.on h (by rw [← mine]; exact at')).1
    rw [other _ on] at pinned ⊢
    rw [t.last_of_ne inv on pinned]
    exact inv.kept y h ((theirs y ne).symm.trans at') locks clean pinned

end Touch

/-! ## The operations keep it -/

section Operations

variable {pinned : Finset Nat} {c c' : Cache Pid k} {x : Pid × Var k} {h : Hold} {blockno : Nat}

theorem points_some (h : Hold) : points (some h) h.buf = 1 := if_pos ⟨h, rfl, rfl⟩

theorem points_none (i : Fin NBUF) : points none i = 0 := if_neg (by rintro ⟨g, ⟨⟩, -⟩)

section

variable (inv : Inv pinned c)
include inv

theorem Inv.valid_of_pinned {i : Fin NBUF} (pin : Pinned pinned (c.buf i)) :
    (c.buf i).valid = true := by
  obtain ⟨j, dev, blockno, valid⟩ := inv.present _ pin.2
  rwa [inv.unique i j pin.1 dev blockno.symm]

section

variable (at' : c.hold x = some h)
include at'

theorem Inv.not_locks (locks : h.stage.locks = true)
    {y : Pid × Var k} {g : Hold} (ne : y ≠ x) (other : c.hold y = some g) (same : g.buf = h.buf) :
    g.stage.locks = false := by
  by_contra both
  exact ne (inv.sole y x g h other at' (by simpa using both) locks same)

theorem Inv.acquire (step : c.acquire x h = some c') : Inv pinned c' := by
  unfold Cache.acquire at step
  split at step
  swap
  · cases step
  rename_i free
  cases step
  have nobody : ∀ y g, c.hold y = some g → g.buf = h.buf → g.stage.locks = true → False := by
    intro y g other same locks
    have taken := inv.locked y g other locks
    rw [same, free] at taken
    cases taken
  obtain ⟨dev, name⟩ := inv.names x h at'
  refine inv.touch (i := h.buf) ?_ rfl rfl inv.listed
  constructor
  case dev => exact dev
  case block => exact ⟨rfl, rfl⟩
  case valid => exact id
  case old =>
    intro g mem
    rw [Option.mem_def, at'] at mem
    cases mem
    rfl
  case on =>
    rintro _ ⟨⟩
    exact ⟨rfl, name, fun _ => rfl, nofun⟩
  case lock =>
    intro y g _ other same locks
    exact (nobody y g other same locks).elim
  case count => rw [at', points_some, points_some { h with stage := .locked, clean := true }]
  case others => exact fun _ _ => rfl
  case left => exact fun _ free => nomatch free
  case kept => exact fun pin _ _ _ _ _ _ => inv.left h.buf pin free

theorem Inv.touch_locked (locks : h.stage.locks = true) {b : Buf Pid} {g : Hold}
    (buf : c'.buf = upd c.buf h.buf b)
    (hold : c'.hold = upd c.hold x (some g)) (lru : c'.lru = c.lru)
    (block : b.dev = (c.buf h.buf).dev ∧ b.blockno = (c.buf h.buf).blockno)
    (refcnt : b.refcnt = (c.buf h.buf).refcnt) (valid : (c.buf h.buf).valid = true → b.valid = true)
    (same : g.buf = h.buf ∧ g.blockno = h.blockno)
    (own : (g.stage.locks = true → b.lock = some x.1) ∧ (g.stage = .ready → b.valid = true))
    (others : ∀ n, n ≠ b.blockno → c'.last n = c.last n)
    (left : Pinned pinned b → b.lock = none → b.data = c'.last b.blockno)
    (kept : Pinned pinned b → g.stage.locks = true → g.clean = true →
      b.data = c'.last b.blockno) : Inv pinned c' := by
  obtain ⟨dev, name⟩ := inv.names x h at'
  refine inv.touch (i := h.buf) ?_ buf hold (lru ▸ inv.listed)
  constructor
  case dev => exact dev
  case block => exact block
  case valid => exact valid
  case old =>
    intro f mem
    rw [Option.mem_def, at'] at mem
    cases mem
    rfl
  case on =>
    rintro _ ⟨⟩
    exact ⟨same.1, (block.2.trans name).trans same.2.symm, own⟩
  case lock =>
    intro y f ne other on locksY
    rw [inv.not_locks at' locks ne other on] at locksY
    cases locksY
  case count => rw [at', points_some, ← same.1, points_some, same.1, refcnt]
  case others => exact others
  case left => exact left
  case kept =>
    intro pin y f now on locksY clean
    by_cases eq : y = x
    · rw [eq, upd_self] at now
      cases now
      exact kept pin locksY clean
    rw [upd_ne eq] at now
    rw [inv.not_locks at' locks eq now on] at locksY
    cases locksY

theorem Inv.fill (locked : h.stage = .locked) : Inv pinned (c.fill x h) := by
  have locks : h.stage.locks = true := by rw [locked]; rfl
  have lock := inv.locked x h at' locks
  have busy : (c.buf h.buf).lock ≠ none := by rw [lock]; nofun
  unfold Cache.fill
  split
  · rename_i valid
    refine inv.touch_locked at' locks rfl rfl rfl ⟨rfl, rfl⟩ rfl id ⟨rfl, rfl⟩
      ⟨fun _ => lock, fun _ => valid⟩ (fun _ _ => rfl) (fun _ free => absurd free busy) ?_
    exact fun pin _ clean => inv.kept x h at' locks clean pin
  rename_i invalid
  have unpinned : ¬Pinned pinned (c.buf h.buf) := fun pin => invalid (inv.valid_of_pinned pin)
  exact inv.touch_locked at' locks rfl rfl rfl ⟨rfl, rfl⟩ rfl (fun _ => rfl) ⟨rfl, rfl⟩
    ⟨fun _ => lock, fun _ => rfl⟩ (fun _ _ => rfl) (fun _ free => absurd free busy)
    (fun pin _ _ => absurd pin unpinned)

theorem Inv.modify (ready : h.stage = .ready)
    (data : Block) : Inv pinned (c.modify x h data) := by
  have locks : h.stage.locks = true := by rw [ready]; rfl
  have lock := inv.locked x h at' locks
  have busy : (c.buf h.buf).lock ≠ none := by rw [lock]; nofun
  have valid := inv.ready x h at' ready
  exact inv.touch_locked at' locks rfl rfl rfl ⟨rfl, rfl⟩ rfl id ⟨rfl, rfl⟩
    ⟨fun _ => lock, fun _ => valid⟩ (fun _ _ => rfl) (fun _ free => absurd free busy) nofun

theorem Inv.release (ready : h.stage = .ready) : ∃ c', c.release x h = .ok c' ∧ Inv pinned c' := by
  have locks : h.stage.locks = true := by rw [ready]; rfl
  have lock := inv.locked x h at' locks
  refine ⟨_, if_pos lock, ?_⟩
  refine inv.touch_locked at' locks rfl rfl rfl ⟨rfl, rfl⟩ rfl id ⟨rfl, rfl⟩
    ⟨nofun, nofun⟩ ?_ ?_ nofun
  · exact fun n ne => upd_ne ne ..
  intro _ _
  show (c.buf h.buf).data =
    upd c.last (c.buf h.buf).blockno (c.buf h.buf).data (c.buf h.buf).blockno
  rw [upd_self]

theorem Inv.bwrite (ready : h.stage = .ready) : ∃ c', c.bwrite x h = .ok c' ∧ Inv pinned c' := by
  have lock := inv.locked x h at' (by rw [ready]; rfl)
  refine ⟨_, if_pos lock, ?_⟩
  exact { inv with }

theorem Inv.drop : Inv pinned (c.drop x h) := by
  obtain ⟨dev, name⟩ := inv.names x h at'
  have mem : x ∈ c.holders h.buf := mem_holders.mpr ⟨h, at', rfl⟩
  have used : 1 ≤ (c.buf h.buf).refcnt := by
    have pos := Finset.card_pos.mpr ⟨x, mem⟩
    have count := inv.count h.buf
    omega
  refine inv.touch (i := h.buf) (x := x)
    (b := { c.buf h.buf with refcnt := (c.buf h.buf).refcnt - 1 }) ?_ rfl rfl ?_
  · constructor
    case dev => exact dev
    case block => exact ⟨rfl, rfl⟩
    case valid => exact id
    case old =>
      intro f mem
      rw [Option.mem_def, at'] at mem
      cases mem
      rfl
    case on => exact fun _ mem => nomatch mem
    case lock =>
      intro y f _ other on locks
      exact ⟨on ▸ inv.locked y f other locks, fun _ mem => nomatch mem⟩
    case count =>
      rw [at', points_some, points_none]
      exact Nat.sub_add_cancel used
    case others => exact fun _ _ => rfl
    case left => exact inv.left h.buf
    case kept =>
      intro pin y f now on locks clean
      by_cases eq : y = x
      · rw [eq, upd_self] at now
        cases now
      rw [upd_ne eq] at now
      have kept := inv.kept y f now locks clean
      rw [on] at kept
      exact kept pin
  intro j
  show j ∈ if _ then h.buf :: c.lru.erase h.buf else c.lru
  split
  · by_cases eq : j = h.buf
    · exact eq ▸ List.mem_cons_self
    exact List.mem_cons_of_mem _ ((List.mem_erase_of_ne eq).mpr (inv.listed j))
  exact inv.listed j

end

theorem Inv.hit (free : c.hold x = none) {i : Fin NBUF}
    (found : (c.buf i).dev = ROOTDEV ∧ (c.buf i).blockno = blockno) :
    Inv pinned (c.set i { c.buf i with refcnt := (c.buf i).refcnt + 1 } x (some ⟨i, blockno, .waiting, false⟩)) := by
  refine inv.touch (i := i) ?_ rfl rfl inv.listed
  constructor
  case dev => exact found.1
  case block => exact ⟨rfl, rfl⟩
  case valid => exact id
  case old =>
    intro f mem
    rw [Option.mem_def, free] at mem
    cases mem
  case on =>
    rintro _ ⟨⟩
    exact ⟨rfl, found.2, nofun, nofun⟩
  case lock =>
    intro y f _ other on locks
    refine ⟨on ▸ inv.locked y f other locks, ?_⟩
    rintro _ ⟨⟩
    rfl
  case count => rw [free, points_none, points_some ⟨i, blockno, .waiting, false⟩]
  case others => exact fun _ _ => rfl
  case left => exact inv.left i
  case kept =>
    intro pin y f now on locks clean
    by_cases eq : y = x
    · rw [eq, upd_self] at now
      cases now
      cases clean
    rw [upd_ne eq] at now
    have kept := inv.kept y f now locks clean
    rw [on] at kept
    exact kept pin

/-- A buffer that nobody refers to has no variable pointing to it and is not pinned. -/
theorem Inv.unused {i : Fin NBUF} (zero : (c.buf i).refcnt = 0) :
    (∀ y g, c.hold y = some g → g.buf ≠ i) ∧ ¬Pinned pinned (c.buf i) := by
  have count := inv.count i
  constructor
  · intro y g at' on
    have pos := Finset.card_pos.mpr ⟨y, mem_holders.mpr ⟨g, at', on⟩⟩
    omega
  intro pin
  have one : Cache.pin pinned (c.buf i) = 1 := if_pos pin
  omega

theorem Inv.recycle (free : c.hold x = none) {i : Fin NBUF} (zero : (c.buf i).refcnt = 0)
    (absent : ∀ j, ¬((c.buf j).dev = ROOTDEV ∧ (c.buf j).blockno = blockno)) :
    Inv pinned (c.set i { c.buf i with dev := ROOTDEV, blockno, valid := false, refcnt := 1 } x
      (some ⟨i, blockno, .waiting, false⟩)) := by
  obtain ⟨nobody, unpinned⟩ := inv.unused zero
  have new : blockno ∉ pinned := by
    intro mem
    obtain ⟨j, dev, name, -⟩ := inv.present blockno mem
    exact absent j ⟨dev, name⟩
  generalize after : c.set i _ x _ = c'
  have self : c'.buf i = { c.buf i with dev := ROOTDEV, blockno, valid := false, refcnt := 1 } := by
    rw [← after]
    exact upd_self ..
  have other : ∀ j, j ≠ i → c'.buf j = c.buf j := by
    intro j ne
    rw [← after]
    exact upd_ne ne ..
  have hold : c'.hold = upd c.hold x (some ⟨i, blockno, .waiting, false⟩) := by
    rw [← after]
    rfl
  have last : c'.last = c.last := by rw [← after]; rfl
  have notPinned : ¬Pinned pinned (c'.buf i) := by
    rw [self]
    exact fun pin => new pin.2
  -- a variable other than `x` points to a buffer that did not change
  have theirs : ∀ y g, c'.hold y = some g → y = x ∧ g = ⟨i, blockno, .waiting, false⟩ ∨
      c.hold y = some g ∧ c'.buf g.buf = c.buf g.buf := by
    intro y g at'
    rw [hold] at at'
    by_cases eq : y = x
    · rw [eq, upd_self] at at'
      exact .inl ⟨eq, (Option.some.inj at').symm⟩
    rw [upd_ne eq] at at'
    exact .inr ⟨at', other _ (nobody y g at')⟩
  constructor
  case listed => rw [← after]; exact inv.listed
  case unique =>
    intro j l
    by_cases eqJ : j = i
    · by_cases eqL : l = i
      · exact fun _ _ _ => eqJ.trans eqL.symm
      rw [eqJ, self, other l eqL]
      exact fun _ dev same => absurd ⟨dev, same.symm⟩ (absent l)
    by_cases eqL : l = i
    · rw [eqL, self, other j eqJ]
      exact fun dev _ same => absurd ⟨dev, same⟩ (absent j)
    rw [other j eqJ, other l eqL]
    exact inv.unique j l
  case names =>
    intro y g at'
    rcases theirs y g at' with ⟨-, rfl⟩ | ⟨before, same⟩
    · rw [self]
      exact ⟨rfl, rfl⟩
    rw [same]
    exact inv.names y g before
  case locked =>
    intro y g at' locks
    rcases theirs y g at' with ⟨-, rfl⟩ | ⟨before, same⟩
    · cases locks
    rw [same]
    exact inv.locked y g before locks
  case sole =>
    intro y z f g atY atZ locksY locksZ on
    rcases theirs y f atY with ⟨-, rfl⟩ | ⟨beforeY, -⟩
    · cases locksY
    rcases theirs z g atZ with ⟨-, rfl⟩ | ⟨beforeZ, -⟩
    · cases locksZ
    exact inv.sole y z f g beforeY beforeZ locksY locksZ on
  case ready =>
    intro y g at' ready
    rcases theirs y g at' with ⟨-, rfl⟩ | ⟨before, same⟩
    · cases ready
    rw [same]
    exact inv.ready y g before ready
  case count =>
    intro j
    have card := card_holders hold j
    rw [free, points_none] at card
    have before := inv.count j
    by_cases eq : j = i
    · have none : Cache.pin pinned (c'.buf i) = 0 := if_neg notPinned
      have one : points (some ⟨i, blockno, .waiting, false⟩) i = 1 := points_some _
      subst eq
      rw [one] at card
      rw [none, self]
      show 1 = _
      omega
    rw [points_of_ne (i := i) (by rintro _ ⟨⟩; rfl) eq] at card
    rw [other j eq]
    omega
  case present =>
    intro n mem
    obtain ⟨j, dev, name, valid⟩ := inv.present n mem
    have ne : j ≠ i := by
      rintro rfl
      exact unpinned ⟨dev, name ▸ mem⟩
    exact ⟨j, by rw [other j ne]; exact ⟨dev, name, valid⟩⟩
  case left =>
    intro j pin lock
    by_cases eq : j = i
    · exact absurd (eq ▸ pin) notPinned
    rw [other j eq] at pin lock ⊢
    rw [last]
    exact inv.left j pin lock
  case kept =>
    intro y g at' locks clean pin
    rcases theirs y g at' with ⟨-, rfl⟩ | ⟨before, same⟩
    · cases locks
    rw [same] at pin ⊢
    rw [last]
    exact inv.kept y g before locks clean pin

theorem Inv.bget (free : c.hold x = none) (step : c.bget x blockno = .ok c') : Inv pinned c' := by
  unfold Cache.bget at step
  split at step
  · rename_i i found
    cases step
    have found : (c.buf i).dev = ROOTDEV ∧ (c.buf i).blockno =
        blockno := by simpa using List.find?_some found
    exact inv.hit free found
  rename_i absent
  split at step
  · rename_i i found
    cases step
    have zero : (c.buf i).refcnt = 0 := by simpa using List.find?_some found
    refine inv.recycle free zero fun j => ?_
    simpa using List.find?_eq_none.mp absent j (inv.listed j)
  cases step

theorem Inv.recount {pinned' : Finset Nat} {i : Fin NBUF} {n : Nat}
    (buf : c'.buf = upd c.buf i { c.buf i with refcnt := n })
    (rest : c'.hold = c.hold ∧ c'.lru = c.lru ∧ c'.last = c.last)
    (count : n + pin pinned (c.buf i) = (c.buf i).refcnt + pin pinned' (c.buf i))
    (others : ∀ j, j ≠ i → (Pinned pinned' (c.buf j) ↔ Pinned pinned (c.buf j)))
    (present : ∀ b ∈ pinned', ∃ j, (c.buf j).dev = ROOTDEV ∧ (c.buf j).blockno = b ∧ (c.buf j).valid = true)
    (left : Pinned pinned' (c.buf i) → (c.buf i).lock = none → (c.buf i).data = c.last (c.buf i).blockno)
    (kept : ∀ y g, c.hold y = some g → g.buf = i → g.stage.locks = true → g.clean = true →
      Pinned pinned' (c.buf i) → (c.buf i).data = c.last (c.buf i).blockno) : Inv pinned' c' := by
  obtain ⟨hold, lru, last⟩ := rest
  have same : ∀ j, c'.buf j = { c.buf j with refcnt := (c'.buf j).refcnt } := by
    intro j
    rw [buf]
    by_cases eq : j = i
    · rw [eq, upd_self]
    rw [upd_ne eq]
  have holders : ∀ j, c'.holders j = c.holders j := by
    intro j
    rw [Cache.holders, hold, Cache.holders]
  have data : ∀ j, Pinned pinned' (c.buf j) → (c.buf j).lock = none →
      (c.buf j).data = c.last (c.buf j).blockno := by
    intro j pin lock
    by_cases eq : j = i
    · rw [eq] at pin lock ⊢
      exact left pin lock
    exact inv.left j ((others j eq).mp pin) lock
  constructor
  case listed => rw [lru]; exact inv.listed
  case unique =>
    intro j l
    rw [same j, same l]
    exact inv.unique j l
  case names =>
    intro y g at'
    rw [same]
    exact inv.names y g (hold ▸ at')
  case locked =>
    intro y g at'
    rw [same]
    exact inv.locked y g (hold ▸ at')
  case sole => rw [hold]; exact inv.sole
  case ready =>
    intro y g at'
    rw [same]
    exact inv.ready y g (hold ▸ at')
  case count =>
    intro j
    have pins : pin pinned' (c'.buf j) = pin pinned' (c.buf j) := by rw [same j]; rfl
    rw [pins, holders j, buf]
    have before := inv.count j
    by_cases eq : j = i
    · subst eq
      rw [upd_self]
      show n = _
      omega
    have unchanged : pin pinned' (c.buf j) = pin pinned (c.buf j) := by
      unfold pin
      simp only [others j eq]
    rw [upd_ne eq, unchanged]
    exact before
  case present =>
    intro b mem
    obtain ⟨j, found⟩ := present b mem
    exact ⟨j, by rw [same j]; exact found⟩
  case left =>
    intro j
    rw [same j, last]
    exact data j
  case kept =>
    intro y g at' locks clean
    rw [same, last]
    rw [hold] at at'
    intro pin
    by_cases eq : g.buf = i
    · rw [eq]
      exact kept y g at' eq locks clean (eq ▸ pin)
    exact inv.kept y g at' locks clean ((others _ eq).mp pin)

theorem Inv.bpin (at' : c.hold x = some h) (ready : h.stage = .ready)
    (dirty : h.clean = false) (new : h.blockno ∉ pinned) :
    Inv (insert h.blockno pinned) (c.bpin h.buf) := by
  have locks : h.stage.locks = true := by rw [ready]; rfl
  have lock := inv.locked x h at' locks
  obtain ⟨dev, name⟩ := inv.names x h at'
  have before : pin pinned (c.buf h.buf) = 0 := if_neg fun pin => new (name ▸ pin.2)
  have after : pin (insert h.blockno pinned) (c.buf h.buf) = 1 :=
    if_pos ⟨dev, by rw [name]; exact Finset.mem_insert_self ..⟩
  refine inv.recount (i := h.buf) rfl ⟨rfl, rfl, rfl⟩ ?_ ?_ ?_ ?_ ?_
  · rw [before, after]
  · intro j ne
    refine and_congr_right fun devJ => ?_
    rw [Finset.mem_insert, or_iff_right]
    exact fun same => ne (inv.unique j h.buf devJ dev (same.trans name.symm))
  · intro b mem
    rcases Finset.mem_insert.mp mem with rfl | old
    · exact ⟨h.buf, dev, name, inv.ready x h at' ready⟩
    exact inv.present b old
  · intro _ free
    rw [lock] at free
    cases free
  intro y g other on locksY clean
  have eq := inv.sole y x g h other at' locksY locks on
  rw [eq, at'] at other
  cases other
  rw [dirty] at clean
  cases clean

theorem Inv.bunpin (at' : c.hold x = some h) (mem : h.blockno ∈ pinned) :
    Inv (pinned.erase h.blockno) (c.bunpin h.buf) := by
  obtain ⟨dev, name⟩ := inv.names x h at'
  have before : pin pinned (c.buf h.buf) = 1 := if_pos ⟨dev, name ▸ mem⟩
  have gone : ¬Pinned (pinned.erase h.blockno) (c.buf h.buf) := by
    intro pin
    have still := pin.2
    rw [name] at still
    exact Finset.notMem_erase _ _ still
  have after : pin (pinned.erase h.blockno) (c.buf h.buf) = 0 := if_neg gone
  have count := inv.count h.buf
  refine inv.recount (i := h.buf) rfl ⟨rfl, rfl, rfl⟩ ?_ ?_ ?_ ?_ ?_
  · rw [before, after]
    omega
  · intro j ne
    refine and_congr_right fun devJ => ?_
    rw [Finset.mem_erase, and_iff_right]
    exact fun same => ne (inv.unique j h.buf devJ dev (same.trans name.symm))
  · exact fun b mem => inv.present b (Finset.mem_of_mem_erase mem)
  · exact fun pin => absurd pin gone
  exact fun _ _ _ _ _ _ pin => absurd pin gone

end

end Operations

end Inv

end Cache

end Xv6
