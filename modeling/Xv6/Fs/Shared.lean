import Xv6.Fs.Resolve
import Xv6.Fs.Write

/-!
# Writers that share an open file

Processes that got one `struct file` from `fork` or `dup` call `filewrite` on it.
A call is a loop of chunks, each of which runs in a transaction with the inode
locked; between two chunks of one call any number of chunks of others can run.
A state has the kernel, the call that each process is in, and as history the
chunks that ran and the calls that returned.
-/

namespace Xv6

open List (map_append append_nil map_nil)
open Prog (wp)
open Function renaming update → upd

/-! ## The calls and their chunks -/

def Addr.slice (src : Addr) (i len : Nat) : List UInt8 := (List.range len).map fun j => src.byte (i + j)

/-- The address that is `i` bytes further, as `filewrite` passes it to `writei`. -/
def Addr.from (src : Addr) (i : Nat) : Addr :=
  match src with
  | .kernel byte => .kernel fun j => byte (i + j)
  | .user mem va => .user mem (va + i)

theorem Addr.from_byte (src : Addr) (i j : Nat) : (src.from i).byte j = src.byte (i + j) := by
  cases src with
  | kernel byte => rfl
  | user mem va =>
    show mem.byte (va + i + j) = mem.byte (va + (i + j))
    rw [add_assoc]

/-- All `n` bytes from the address on can be read. -/
def Addr.Mapped (src : Addr) (n : Nat) : Prop := ∀ j m, j + m ≤ n → src.copied j m = m

theorem Addr.Mapped.from {src : Addr} {n i m : Nat} (mapped : src.Mapped n) (le : i + m ≤ n) :
    (src.from i).Mapped m := by
  intro j l most
  cases src with
  | kernel byte => rfl
  | user mem va =>
    show mem.copied (va + i + j) l = l
    rw [add_assoc]
    exact mapped (i + j) l (by omega)

/-- The chunks that `filewrite` writes of `n` bytes, from byte `i` on. -/
def Addr.chunks (src : Addr) (n i : Nat) : List (List UInt8) :=
  if i < n then src.slice i (min (n - i) writeMax) :: src.chunks n (i + min (n - i) writeMax) else []
termination_by n - i
decreasing_by
  have : 0 < writeMax := by decide
  omega

theorem Addr.slice_append (src : Addr) (i a b : Nat) :
    src.slice i a ++ src.slice (i + a) b = src.slice i (a + b) := by
  rw [slice, slice, slice, List.range_add, map_append, List.map_map]
  congr 1
  refine List.map_congr_left fun j _ => ?_
  show src.byte (i + a + j) = src.byte (i + (a + j))
  rw [add_assoc]

@[simp] theorem Addr.slice_length (src : Addr) (i len : Nat) : (src.slice i len).length = len := by
  rw [slice, List.length_map, List.length_range]

theorem Addr.chunks_flatten (src : Addr) (n i : Nat) (le : i ≤ n) :
    (src.chunks n i).flatten = src.slice i (n - i) := by
  fun_induction Addr.chunks src n i with
  | case1 i more ih =>
    rw [List.flatten_cons, ih (by omega), slice_append]
    congr 1
    omega
  | case2 i done =>
    rw [show n - i = 0 by omega]
    rfl

theorem Addr.chunks_single (src : Addr) {n : Nat} (some : 0 < n) (most : n ≤ writeMax) :
    src.chunks n 0 = [src.slice 0 n] := by
  rw [chunks, if_pos some, Nat.sub_zero, min_eq_left most, zero_add, chunks, if_neg (lt_irrefl n)]

/-- A call of `filewrite` by process `proc`, and what it returned. -/
structure Returned where
  proc : Nat
  src : Addr
  n : Nat
  result : Int

/-- A process is in the loop of `filewrite`; `i` of its `n` bytes are written. -/
structure Writing where
  src : Addr
  n : Nat
  i : Nat

/-- The `n1` of the next round. -/
def Writing.due (w : Writing) : Nat := min (w.n - w.i) writeMax

theorem Writing.due_le {w : Writing} (low : w.i ≤ w.n) : w.i + w.due ≤ w.n := by
  rw [due]
  omega

/-- A chunk that ran, with the bytes that `writei` reported as written. -/
structure Chunk where
  proc : Nat
  bytes : List UInt8

structure Sharing where
  k : Kernel
  writing : Nat → Option Writing
  ran : List Chunk
  returned : List Returned

namespace Sharing

/-- Nobody is in a call yet. -/
def start (k : Kernel) : Sharing := ⟨k, fun _ => none, [], []⟩

/-- One step of one process on the file `f`. The buffer of a call is mapped, and each chunk finds
space on the disk and in the file. -/
inductive Step (f : Nat) (s : Sharing) : Sharing → Prop
  | call (p : Nat) (src : Addr) (n : Nat) (idle : s.writing p = none) (mapped : src.Mapped n) :
      Step f s { s with writing := upd s.writing p (some ⟨src, n, 0⟩) }
  | chunk (p : Nat) (w : Writing) (r : Int) (t : Kernel) (inside : s.writing p = some w)
      (more : w.i < w.n)
      (fits : (s.k.ftable f).off + w.due ≤ MAXFILE * BSIZE)
      (runs : (filewriteRound f w.src w.i w.due s.k).result = .ok (r, t))
      (space : t.fs.Full t.sb → r = w.due) :
      Step f s
        { k := t
          writing := upd s.writing p (if r = w.due then some { w with i := w.i + w.due } else none)
          ran := s.ran ++ [⟨p, w.src.slice w.i r.toNat⟩]
          returned := if r = w.due then s.returned else s.returned ++ [⟨p, w.src, w.n, -1⟩] }
  | ret (p : Nat) (w : Writing) (inside : s.writing p = some w) (done : ¬w.i < w.n) :
      Step f s
        { s with
          writing := upd s.writing p none
          returned := s.returned ++ [⟨p, w.src, w.n, if w.i = w.n then w.n else -1⟩] }

/-- Any interleaving of the steps of any number of processes. -/
inductive Runs (f : Nat) (b : Sharing) : Sharing → Prop
  | start : Runs f b b
  | step {s t : Sharing} (run : Runs f b s) (step : Step f s t) : Runs f b t

/-- What the chunks wrote, in the order they ran. -/
def written (s : Sharing) : List UInt8 := (s.ran.map Chunk.bytes).flatten

def own (s : Sharing) (p : Nat) : List (List UInt8) := (s.ran.filter (·.proc = p)).map Chunk.bytes

def finished (s : Sharing) (p : Nat) : List Returned := s.returned.filter (·.proc = p)

end Sharing

/-! ## One chunk -/

/-- The file `f` is open on inode `i`, which is not locked and no directory; its offset is inside,
and no transaction is running. -/
structure SharedFile (f i : Nat) (k : Kernel) : Prop where
  fs : Consistent k
  used : 0 < (k.itable (k.ftable f).ip).ref
  free : (k.itable (k.ftable f).ip).locked = false
  inum : (k.itable (k.ftable f).ip).inum = i
  live : (k.fs.node i).type ≠ 0
  regular : (k.fs.node i).type ≠ T_DIR
  inside : (k.ftable f).off ≤ (k.fs.node i).size
  outstanding : k.log.outstanding = 0
  committing : k.log.committing = false
  empty : k.log.lh.n = 0
  room : MAXOPBLOCKS + 1 < k.log.size

section Chunks

variable {D : Nat → Block} {E : Fs} {k t : Kernel} {f i : Nat}

theorem Ok.setFile {f : Nat} (ok : Clean D E k) (g : File) : Clean D E (k.setFile f g) :=
  ⟨ok.disk, ok.wf, ok.start, ok.logSize, ok.few, ok.room, ok.home, ok.tidy, ok.used, ok.data, ok.inode, ok.good,
    ok.table, ok.sync, ok.alloc, ok.unique, ok.held⟩

/-- What a round of `filewrite` that wrote `r` bytes of `src` leaves. -/
structure Round (f i : Nat) (k : Kernel) (src : Addr) (r : Nat) (t : Kernel) : Prop where
  file : SharedFile f i t
  entry : t.ftable f = { k.ftable f with off := (k.ftable f).off + r }
  node : t.fs.node i =
    { k.fs.node i with
      size := max (k.fs.node i).size ((k.ftable f).off + r)
      byte := (k.fs.node i).splice src (k.ftable f).off r }
  other : ∀ j, j ≠ i → t.fs.node j = k.fs.node j

theorem Held.writei_chunk (ok : Clean D E k) {ip : Nat} (held : Held k ip i) (regular : (E.node i).type ≠ T_DIR)
    {src : Addr} {off n : Nat} (inside : off ≤ (E.node i).size) (fits : off + n ≤ MAXFILE * BSIZE)
    (most : n ≤ writeMax)
    (mapped : src.Mapped n) (room : LogRoom k MAXOPBLOCKS) :
    ∃ (r : Nat) (t : Kernel) (E' : Fs), (writei ip src off n k).result = .ok ((r : Int), t) ∧
      Worked D ip k t E' ∧
      (r = n ∨ E'.Full k.sb) ∧ (∀ j, j ≠ i → E'.node j = E.node j) ∧
      E'.node i = { E.node i with size := max (E.node i).size (off + r), byte := (E.node i).splice src off r } ∧
      t.log.size = k.log.size := by
  have file : (E.inode (k.itable ip).inum).type ≠ T_DIR := by
    rw [held.inum, ← Fs.node_type]
    exact regular
  have admits : Admits (fun _ => False) k (logNeed off n + 3) := Admits.mono (.inr room)
    (logNeed_le most)
  obtain ⟨_, t, returns, r, c, rfl, ends⟩ := (writei_wp ok held src inside fits admits).exists_ok
  obtain ⟨E', worked, -⟩ :=
    (writei_file_wp stops_any ok held.ref held.valid held.locked file src off n).post_of_ok returns
  have stopped : c = 0 ∧ (r = n ∨ t.fs.Full k.sb) := by
    cases ends.stop with
    | done all => exact ⟨rfl, .inl all⟩
    | full full => exact ⟨rfl, .inr full⟩
    | fault short =>
      have low := ends.most
      rw [mapped r _ (by omega)] at short
      exact absurd short (lt_irrefl _)
  obtain ⟨rfl, why⟩ := stopped
  have node := ends.node
  have other := ends.other
  rw [worked.clean.fs_eq] at why node other
  exact ⟨r, t, E', returns, worked, why, other, node, ends.logs.size⟩

theorem ilock_log {ip : Nat} (locks : (ilock ip k).result = .ok ((), t)) : t.log = k.log := by
  have run : wp (fun _ => True) (fun _ => True) (ilock ip) (fun _ t => t.log = k.log) k := by
    simp only [ilock, wp_inode_bind]
    refine Prog.wp_guard (fun _ => trivial) fun _ => Prog.wp_guard (fun _ => trivial) fun _ => ?_
    rw [wp_setInode_bind]
    refine ⟨trivial, ?_⟩
    split
    · simp only [Prog.wp_get_bind, wp_bread_bind, wp_setDinode_bind, wp_setInode_bind,
        wp_inode_bind]
      refine ⟨trivial, trivial, ?_⟩
      split
      · exact Prog.wp_fail trivial
      exact Prog.wp_pure rfl
    exact Prog.wp_pure rfl
  exact run.post_of_ok locks

/-- After `begin_op` and `ilock` of the shared file's inode. -/
structure Entered (D : Nat → Block) (E : Fs) (f i : Nat) (k t : Kernel) : Prop where
  clean : Clean D E t
  held : Held t (k.ftable f).ip i
  ftable : t.ftable = k.ftable
  sb : t.sb = k.sb
  log : t.log = { k.log with outstanding := 1 }

theorem SharedFile.enter (shared : SharedFile f i k) (ok : Clean D E k) :
    ∃ t u, (beginOp k).result = .ok ((), t) ∧ (ilock (k.ftable f).ip t).result = .ok ((), u) ∧
      Entered D E f i k u := by
  obtain ⟨-, used, free, inum, live, -, -, outstanding, committing, empty, -⟩ := shared
  rw [ok.fs_eq] at live
  have ready : Stops (fun _ => False) ∨ k.log.committing = false ∧
      k.log.lh.n + (k.log.outstanding + 1) * MAXOPBLOCKS ≤ LOGSIZE := by
    refine .inr ⟨committing, ?_⟩
    rw [empty, outstanding]
    decide
  obtain ⟨_, t, begins, okt, quiet, log⟩ := (beginOp_wp ready ok).exists_ok
  have same : t.itable (k.ftable f).ip = k.itable (k.ftable f).ip := congrFun quiet.itable _
  have ready' : Stops (fun _ => False) ∨
      0 < (t.itable (k.ftable f).ip).ref ∧ (t.itable (k.ftable f).ip).locked = false := by
    rw [same]
    exact .inr ⟨used, free⟩
  have typed : (E.inode (t.itable (k.ftable f).ip).inum).type = 0 → False := by
    rw [same, inum, ← Fs.node_type]
    exact live
  obtain ⟨_, u, locks, oku, acts, -, entry, -⟩ := (ilock_wp ready' okt typed).exists_ok
  refine ⟨t, u, begins, locks, oku, ?_, acts.ftable.trans quiet.ftable, acts.sb.trans quiet.sb, ?_⟩
  · rw [same] at entry
    constructor <;> rw [entry]
    · exact used
    exact inum
  rw [ilock_log locks, log, outstanding]
  rfl

theorem round_leave {ip : Nat} (ok : Clean D E k) (held : Held k ip i) (outstanding : k.log.outstanding = 1)
    (committing : k.log.committing = false) :
    ∃ t u, (iunlock ip k).result = .ok ((), t) ∧ (endOp t).result = .ok ((), u) ∧
      (∃ D', Clean D' E u) ∧
      u.itable ip = { k.itable ip with locked := false } ∧ u.ftable = k.ftable ∧ u.sb = k.sb ∧
      u.log.outstanding = 0 ∧ u.log.committing = false ∧ u.log.lh.n = 0 ∧ u.log.size = k.log.size := by
  have ready : Stops (fun _ => False) ∨ 0 < (k.itable ip).ref ∧ (k.itable ip).locked = true :=
    Or.inr ⟨held.ref, held.locked⟩
  obtain ⟨_, t, unlocks, okt, acts, entry⟩ := (iunlock_wp ready ok).exists_ok
  have ready' : Stops (fun _ => False) ∨ t.log.committing = false :=
    Or.inr (acts.committing.trans committing)
  have one : t.log.outstanding = 1 := acts.outstanding.trans outstanding
  obtain ⟨_, u, ends, D', oku, quiet, left, idle, size, last⟩ := (endOp_wp ready' okt).exists_ok
  refine ⟨t, u, unlocks, ends, ⟨D', oku⟩, ?_, quiet.ftable.trans acts.ftable,
    quiet.sb.trans acts.sb, ?_, idle,
    last one, ?_⟩
  · rw [quiet.itable, entry]
  · rw [left, one]
    rfl
  rw [oku.logSize, ok.logSize, quiet.sb, acts.sb]

theorem round_tail {ip r : Nat} {u v : Kernel}
    (moved : t = k.setFile f { k.ftable f with off := (k.ftable f).off + r })
    (unlocks : (iunlock ip t).result = .ok ((), u)) (ends : (endOp u).result = .ok ((), v)) :
    ((do
      if 0 < (r : Int) then setFile f fun g => { g with off := g.off + (r : Int).toNat }
      iunlock ip
      endOp
      return (r : Int) : Kern Int) k).result = .ok ((r : Int), v) := by
  have rest : ((do
      iunlock ip
      endOp
      return (r : Int) : Kern Int) t).result = .ok ((r : Int), v) :=
    (Prog.result_bind unlocks).trans (Prog.result_bind ends)
  by_cases some : 0 < (r : Int)
  · rw [if_pos some]
    rw [moved] at rest
    exact rest
  rw [if_neg some]
  have none : r = 0 := by omega
  have same : t = k := by
    rw [moved, none]
    show { k with ftable := upd k.ftable f (k.ftable f) } = k
    rw [Function.update_eq_self]
  rw [same] at rest
  exact rest

theorem SharedFile.round (shared : SharedFile f i k) (src : Addr) {a n : Nat}
    (mapped : (src.from a).Mapped n) (fits : (k.ftable f).off + n ≤ MAXFILE * BSIZE)
    (most : n ≤ writeMax) :
    ∃ (r : Nat) (t : Kernel), (filewriteRound f src a n k).result = .ok ((r : Int), t) ∧
      (r = n ∨ t.fs.Full t.sb) ∧ Round f i k (src.from a) r t := by
  obtain ⟨D, E, ok⟩ := shared.fs
  obtain ⟨t₁, t₂, begins, locks, entered⟩ := shared.enter ok
  have inside := shared.inside
  have regular := shared.regular
  have live := shared.live
  rw [ok.fs_eq] at inside regular live
  have room : LogRoom t₂ MAXOPBLOCKS := by
    have size := shared.room
    have empty := shared.empty
    constructor
    · rw [entered.log]
    · rw [entered.log]
      show k.log.lh.n + MAXOPBLOCKS < LOGSIZE
      rw [empty]
      decide
    rw [entered.log]
    show k.log.lh.n + MAXOPBLOCKS + 1 < k.log.size
    rw [empty]
    omega
  obtain ⟨r, t₃, E', writes, worked, why, other, node, size⟩ :=
    entered.held.writei_chunk entered.clean regular inside fits most mapped room
  -- the offset moves while the inode is locked
  obtain ⟨t₄, eq⟩ : ∃ t₄, t₄ = t₃.setFile f { t₃.ftable f with off := (t₃.ftable f).off + r } :=
    ⟨_, rfl⟩
  have ok₄ : Clean D E' t₄ := eq ▸ worked.clean.setFile _
  have held₃ : Held t₃ (k.ftable f).ip i := entered.held.near worked.near
  have held₄ : Held t₄ (k.ftable f).ip i := by
    rw [eq]
    exact ⟨held₃.ref, held₃.valid, held₃.locked, held₃.inum⟩
  have ftable₃ : t₃.ftable = k.ftable := worked.near.ftable.trans entered.ftable
  have outstanding : t₄.log.outstanding = 1 := by
    rw [eq]
    exact worked.near.outstanding.trans (by rw [entered.log])
  have committing : t₄.log.committing = false := by
    rw [eq]
    exact worked.near.committing.trans (by rw [entered.log]; exact shared.committing)
  obtain ⟨t₅, t₆, unlocks, ends, ⟨D', ok₆⟩, entry, ftable, sb, zero, idle, empty, size'⟩ :=
    round_leave ok₄ held₄ outstanding committing
  have sb₃ : t₃.sb = k.sb := worked.near.sb.trans entered.sb
  have sb₆ : t₆.sb = k.sb := by
    rw [sb, eq]
    exact sb₃
  have ftable₆ : t₆.ftable f = { k.ftable f with off := (k.ftable f).off + r } := by
    rw [ftable, eq, Kernel.setFile_ftable, Function.update_self, ftable₃]
  have type : (E'.node i).type = (E.node i).type := by rw [node]
  have ip₆ : (t₆.ftable f).ip = (k.ftable f).ip := by rw [ftable₆]
  have off₆ : (t₆.ftable f).off = (k.ftable f).off + r := by rw [ftable₆]
  refine ⟨r, t₆, ?_, ?_, ⟨⟨D', E', ok₆⟩, ?_, ?_, ?_, ?_, ?_, ?_, zero, idle, empty, ?_⟩, ftable₆,
    ?_, ?_⟩
  · have moves := round_tail eq unlocks ends
    refine (Prog.result_bind (m := file f) (a := k.ftable f) (t := k) rfl).trans ?_
    refine (Prog.result_bind begins).trans ((Prog.result_bind locks).trans ?_)
    exact (Prog.result_bind writes).trans moves
  · rw [ok₆.fs_eq, sb₆, ← entered.sb]
    exact why
  · rw [ip₆, entry]
    exact held₄.ref
  · rw [ip₆, entry]
  · rw [ip₆, entry]
    exact held₄.inum
  · rw [ok₆.fs_eq, type]
    exact live
  · rw [ok₆.fs_eq, type]
    exact regular
  · rw [ok₆.fs_eq, off₆, node]
    exact le_max_right _ _
  · rw [size', eq]
    show _ < t₃.log.size
    rw [size, entered.log]
    exact shared.room
  · rw [ok₆.fs_eq, ok.fs_eq]
    exact node
  rw [ok₆.fs_eq, ok.fs_eq]
  exact other

end Chunks

/-! ## Runs -/

/-- The inode with `bytes` written from `off` on. -/
def Node.overwrite (n : Node) (off : Nat) (bytes : List UInt8) : Node :=
  { n with
    size := max n.size (off + bytes.length)
    byte := fun o => if off ≤ o ∧ o < off + bytes.length then bytes.getD (o - off) 0 else n.byte o }

theorem Node.overwrite_nil (n : Node) {off : Nat} (inside : off ≤ n.size) :
    n.overwrite off [] = n := by
  have size : max n.size (off + 0) = n.size := max_eq_left inside
  have byte : (fun o => if off ≤ o ∧
      o < off + 0 then ([] : List UInt8).getD (o - off) 0 else n.byte o) = n.byte := by
    funext o
    exact if_neg (by omega)
  show { n with size := max n.size (off + 0), byte := _ } = n
  rw [size]
  exact congrArg (fun byte => { n with byte }) byte

theorem Node.overwrite_append (n : Node) (off : Nat) (bytes : List UInt8) (src : Addr) (i r : Nat) :
    { n.overwrite off bytes with
      size := max (n.overwrite off bytes).size (off + bytes.length + r)
      byte := (n.overwrite off bytes).splice (src.from i) (off + bytes.length) r } =
      n.overwrite off (bytes ++ src.slice i r) := by
  have size : max (max n.size (off + bytes.length)) (off + bytes.length + r) =
      max n.size (off + (bytes ++ src.slice i r).length) := by
    rw [List.length_append, Addr.slice_length]
    omega
  have byte : (n.overwrite off bytes).splice (src.from i) (off + bytes.length) r =
      (n.overwrite off (bytes ++ src.slice i r)).byte := by
    funext o
    simp only [splice, overwrite, List.length_append, Addr.slice_length, Addr.from_byte]
    by_cases old : o < off + bytes.length
    · rw [if_neg (by omega)]
      by_cases low : off ≤ o
      · rw [if_pos ⟨low, old⟩, if_pos ⟨low, by omega⟩, List.getD_eq_getElem?_getD,
          List.getD_eq_getElem?_getD, List.getElem?_append_left (by omega)]
      rw [if_neg (by omega), if_neg (by omega)]
    by_cases new : o < off + bytes.length + r
    · rw [if_pos ⟨by omega, new⟩, if_pos ⟨by omega, by omega⟩, List.getD_eq_getElem?_getD,
        List.getElem?_append_right (by omega), Addr.slice, List.getElem?_map, List.getElem?_range (by omega)]
      show src.byte _ = src.byte _
      congr 1
      omega
    rw [if_neg (by omega), if_neg (by omega), if_neg (by omega)]
  show { n with
    size := max (max n.size (off + bytes.length)) (off + bytes.length + r)
    byte := _ } = _
  rw [size, byte]
  rfl

/-- The chunks that the call a process is in still has to write. -/
def Writing.left : Option Writing → List (List UInt8)
  | some w => w.src.chunks w.n w.i
  | none => []

/-- All chunks of the call a process is in. -/
def Writing.current : Option Writing → List (List UInt8)
  | some w => w.src.chunks w.n 0
  | none => []

/-- The bytes that the call a process is in has written. -/
def Writing.begun : Option Writing → List UInt8
  | some w => w.src.slice 0 w.i
  | none => []

/-- A process wrote the chunks `own`: those of its calls that returned, one call after the other,
and of the call it is in all but those that are left. -/
def Balanced (own : List (List UInt8)) (finished : List Returned) (writing : Option Writing) :
    Prop :=
  ∃ now, own = finished.flatMap (fun c => c.src.chunks c.n 0) ++ now ∧
    now ++ Writing.left writing = Writing.current writing

section Balance

variable {own : List (List UInt8)} {finished : List Returned} {w : Writing}

theorem Balanced.call (balanced : Balanced own finished none) (src : Addr) (n : Nat) :
    Balanced own finished (some ⟨src, n, 0⟩) := by
  obtain ⟨now, eq, whole⟩ := balanced
  rw [Writing.left, append_nil] at whole
  rw [whole] at eq
  exact ⟨[], eq, rfl⟩

theorem Balanced.chunk (balanced : Balanced own finished (some w)) (more : w.i < w.n) :
    Balanced (own ++ [w.src.slice w.i w.due]) finished (some { w with i := w.i + w.due }) := by
  obtain ⟨now, eq, whole⟩ := balanced
  rw [Writing.left, Addr.chunks, if_pos more] at whole
  refine ⟨now ++ [w.src.slice w.i w.due], ?_, ?_⟩
  · rw [eq, List.append_assoc]
  rw [List.append_assoc]
  exact whole

theorem Balanced.ret (balanced : Balanced own finished (some w)) (done : ¬w.i < w.n) (p : Nat)
    (result : Int) :
    Balanced own (finished ++ [⟨p, w.src, w.n, result⟩]) none := by
  obtain ⟨now, eq, whole⟩ := balanced
  rw [Writing.left, Addr.chunks, if_neg done, append_nil] at whole
  refine ⟨[], ?_, rfl⟩
  rw [eq, whole, List.flatMap_append, List.flatMap_singleton, append_nil]
  rfl

/-- The bytes of a process are those of its calls that returned and the first `i` of the call it is
in. -/
theorem Balanced.bytes {writing : Option Writing} (balanced : Balanced own finished writing)
    (low : ∀ w, writing = some w → w.i ≤ w.n) :
    own.flatten = (finished.flatMap fun c => c.src.slice 0 c.n) ++ Writing.begun writing := by
  obtain ⟨now, eq, whole⟩ := balanced
  have calls : (finished.flatMap fun c => c.src.chunks c.n 0).flatten =
      finished.flatMap fun c => c.src.slice 0 c.n := by
    rw [List.flatMap_def, List.flatten_flatten, List.map_map, List.flatMap_def]
    congr 1
    refine List.map_congr_left fun c _ => ?_
    exact Addr.chunks_flatten c.src c.n 0 zero_le
  rw [eq, List.flatten_append, calls]
  congr 1
  cases writing with
  | none =>
    rw [Writing.left, append_nil] at whole
    rw [whole]
    rfl
  | some w =>
    have le := low w rfl
    have flat := congrArg List.flatten whole
    rw [List.flatten_append, Writing.left, Addr.chunks_flatten _ _ _ le, Writing.current,
      Addr.chunks_flatten _ _ _ zero_le, show w.n - 0 = w.i + (w.n - w.i) by omega,
      ← Addr.slice_append, zero_add] at flat
    exact List.append_cancel_right flat

end Balance

namespace Sharing

/-- What holds throughout a run from kernel `k`: the chunks stand one behind the other from the
first offset on, the offset is behind the last, and each process wrote the chunks of its calls in
order. -/
structure Inv (f i : Nat) (k : Kernel) (s : Sharing) : Prop where
  file : SharedFile f i s.k
  entry : s.k.ftable f = { k.ftable f with off := (k.ftable f).off + s.written.length }
  node : s.k.fs.node i = (k.fs.node i).overwrite (k.ftable f).off s.written
  other : ∀ j, j ≠ i → s.k.fs.node j = k.fs.node j
  mapped : ∀ p w, s.writing p = some w → w.src.Mapped w.n ∧ w.i ≤ w.n
  ledger : ∀ p, Balanced (s.own p) (s.finished p) (s.writing p)
  whole : ∀ c ∈ s.returned, c.result = c.n

section Inv

variable {f i : Nat} {k : Kernel} {s t : Sharing}

theorem start_inv (file : SharedFile f i k) : Inv f i k (start k) := by
  refine ⟨file, rfl, ?_, fun _ _ => rfl, nofun, fun _ => ⟨[], rfl, rfl⟩, nofun⟩
  exact (Node.overwrite_nil _ file.inside).symm

theorem Inv.chunk_runs (inv : Inv f i k s) {p : Nat} {w : Writing} (inside : s.writing p = some w)
    (fits : (s.k.ftable f).off + w.due ≤ MAXFILE * BSIZE) :
    ∃ (r : Nat) (t : Kernel), (filewriteRound f w.src w.i w.due s.k).result = .ok ((r : Int), t) ∧
      (r = w.due ∨ t.fs.Full t.sb) ∧ Round f i s.k (w.src.from w.i) r t := by
  obtain ⟨mapped, low⟩ := inv.mapped p w inside
  exact inv.file.round w.src (mapped.from (Writing.due_le low)) fits (min_le_right _ _)

/-- What is recorded of the processes after a step of `p`; the others are as before. -/
theorem Inv.others (inv : Inv f i k s) (p : Nat) (w : Option Writing) (ran : List Chunk)
    (returned : List Returned) (mine : ∀ c ∈ ran, c.proc = p) (mine' : ∀ c ∈ returned, c.proc = p)
    (legal : ∀ v, w = some v → v.src.Mapped v.n ∧ v.i ≤ v.n)
    (ledger : Balanced (s.own p ++ ran.map Chunk.bytes) (s.finished p ++ returned) w) :
    (∀ q v, upd s.writing p w q = some v → v.src.Mapped v.n ∧ v.i ≤ v.n) ∧
    ∀ q, Balanced (((s.ran ++ ran).filter (·.proc = q)).map Chunk.bytes)
      ((s.returned ++ returned).filter (·.proc = q)) (upd s.writing p w q) := by
  refine ⟨fun q v => ?_, fun q => ?_⟩
  · rcases eq_or_ne q p with rfl | ne
    · rw [Function.update_self]
      exact legal v
    rw [Function.update_of_ne ne]
    exact inv.mapped q v
  rw [List.filter_append, List.filter_append, map_append]
  rcases eq_or_ne q p with rfl | ne
  · have all : ran.filter (·.proc = q) = ran :=
      List.filter_eq_self.2 fun c mem => decide_eq_true (mine c mem)
    have all' : returned.filter (·.proc = q) = returned :=
      List.filter_eq_self.2 fun c mem => decide_eq_true (mine' c mem)
    rw [Function.update_self, all, all']
    exact ledger
  have none : ran.filter (·.proc = q) = [] :=
    List.filter_eq_nil_iff.2 fun c mem eq => ne ((of_decide_eq_true eq).symm.trans (mine c mem))
  have none' : returned.filter (·.proc = q) = [] :=
    List.filter_eq_nil_iff.2 fun c mem eq => ne ((of_decide_eq_true eq).symm.trans (mine' c mem))
  rw [Function.update_of_ne ne, none, none', map_nil, append_nil, append_nil]
  exact inv.ledger q

theorem Inv.step (inv : Inv f i k s) (step : Step f s t) : Inv f i k t := by
  cases step with
  | call p src n idle mapped =>
    have ledger := (idle ▸ inv.ledger p).call src n
    obtain ⟨legal, ledgers⟩ := inv.others p (some ⟨src, n, 0⟩) [] [] nofun nofun
      (fun v eq => by cases eq; exact ⟨mapped, zero_le⟩)
      (by rw [map_nil, append_nil, append_nil]; exact ledger)
    rw [append_nil, append_nil] at ledgers
    exact ⟨inv.file, inv.entry, inv.node, inv.other, legal, ledgers, inv.whole⟩
  | chunk p w r u inside more fits runs space =>
    obtain ⟨r', u', runs', why, round⟩ := inv.chunk_runs inside fits
    rw [runs'] at runs
    cases runs
    have all : r' = w.due := by
      rcases why with all | full
      · exact all
      exact Int.ofNat.inj (space full)
    subst all
    obtain ⟨mapped, low⟩ := inv.mapped p w inside
    have ledger := (inside ▸ inv.ledger p).chunk more
    obtain ⟨legal, ledgers⟩ := inv.others p (some { w with i := w.i + w.due })
      [⟨p, w.src.slice w.i w.due⟩] [] (by simp) nofun (fun v eq => by cases eq; exact ⟨mapped, Writing.due_le low⟩)
      (by rw [append_nil]; exact ledger)
    rw [append_nil] at ledgers
    have written : ((s.ran ++ [(⟨p, w.src.slice w.i w.due⟩ : Chunk)]).map Chunk.bytes).flatten =
        s.written ++ w.src.slice w.i w.due := by
      rw [map_append, List.flatten_append]
      exact congrArg (s.written ++ ·) (append_nil _)
    have off : (s.k.ftable f).off = (k.ftable f).off + s.written.length := by rw [inv.entry]
    rw [if_pos rfl, if_pos rfl]
    refine ⟨round.file, ?_, ?_, fun j ne => (round.other j ne).trans (inv.other j ne), legal,
      ledgers, inv.whole⟩
    · show u.ftable f = { k.ftable f with off := (k.ftable f).off +
        ((s.ran ++ [(⟨p, w.src.slice w.i w.due⟩ : Chunk)]).map Chunk.bytes).flatten.length }
      rw [written, round.entry, inv.entry, List.length_append, Addr.slice_length, ← add_assoc]
    show u.fs.node i = (k.fs.node i).overwrite (k.ftable f).off
      ((s.ran ++ [(⟨p, w.src.slice w.i w.due⟩ : Chunk)]).map Chunk.bytes).flatten
    rw [written, round.node, off, inv.node]
    exact Node.overwrite_append _ _ _ _ _ _
  | ret p w inside done =>
    obtain ⟨mapped, low⟩ := inv.mapped p w inside
    have all : w.i = w.n := by omega
    have ledger := (inside ▸ inv.ledger p).ret done p w.n
    obtain ⟨legal, ledgers⟩ := inv.others p none [] [⟨p, w.src, w.n, w.n⟩] nofun (by simp) nofun
      (by rw [map_nil, append_nil]; exact ledger)
    rw [append_nil] at ledgers
    rw [if_pos all]
    refine ⟨inv.file, inv.entry, inv.node, inv.other, legal, ledgers, fun c mem => ?_⟩
    rcases List.mem_append.1 mem with old | new
    · exact inv.whole c old
    rw [List.mem_singleton.1 new]

end Inv

end Sharing

section Results

open Sharing (Runs)

variable {f i : Nat} {k : Kernel} {s : Sharing}

theorem Sharing.Runs.inv (file : SharedFile f i k) (run : Runs f (.start k) s) : s.Inv f i k := by
  induction run with
  | start => exact Sharing.start_inv file
  | step _ step ih => exact ih.step step

theorem Sharing.Inv.contiguous (inv : s.Inv f i k) {c : Returned} (mem : c ∈ s.returned)
    (most : c.n ≤ writeMax) :
    c.src.slice 0 c.n <:+: s.written := by
  rcases Nat.eq_zero_or_pos c.n with zero | some
  · rw [zero]
    exact List.nil_infix
  obtain ⟨now, eq, -⟩ := inv.ledger c.proc
  have chunk : c.src.slice 0 c.n ∈ s.own c.proc := by
    rw [eq]
    refine List.mem_append_left _ (List.mem_flatMap.2 ⟨c,
      List.mem_filter.2 ⟨mem, decide_eq_true rfl⟩, ?_⟩)
    rw [Addr.chunks_single _ some most]
    exact List.mem_singleton_self _
  obtain ⟨d, ran, bytes⟩ := List.mem_map.1 chunk
  exact List.infix_of_mem_flatten (List.mem_map.2 ⟨d, (List.mem_filter.1 ran).1, bytes⟩)

/-- Processes that share an open file do not overwrite each other. After any interleaving of their
calls the file has the chunks one behind the other from the first offset on, in the order they
ran, and the offset is behind the last. Every call that returned wrote all its bytes, in one piece
if they are at most `writeMax`; a process wrote the bytes of its calls, each once and in order,
and of the call it is in those before `i`. A chunk that is due can always run, and is written
whole unless the disk is full. -/
theorem shared_writes (file : SharedFile f i k) (run : Runs f (.start k) s) :
    (s.k.ftable f).off = (k.ftable f).off + s.written.length ∧
    s.k.fs.node i = (k.fs.node i).overwrite (k.ftable f).off s.written ∧
    (∀ c ∈ s.returned, c.result = c.n ∧ (c.n ≤ writeMax → c.src.slice 0 c.n <:+: s.written)) ∧
    (∀ p, (s.own p).flatten = ((s.finished p).flatMap fun c => c.src.slice 0 c.n) ++ Writing.begun (s.writing p)) ∧
    ∀ p w, s.writing p = some w → (s.k.ftable f).off + w.due ≤ MAXFILE * BSIZE →
      ∃ (r : Nat) (t : Kernel), (filewriteRound f w.src w.i w.due s.k).result = .ok ((r : Int), t) ∧
        (r = w.due ∨ t.fs.Full t.sb) := by
  have inv := run.inv file
  refine ⟨by rw [inv.entry], inv.node, fun c mem => ⟨inv.whole c mem, inv.contiguous mem⟩,
    fun p => ?_, ?_⟩
  · exact (inv.ledger p).bytes fun w inside => (inv.mapped p w inside).2
  intro p w inside fits
  obtain ⟨r, t, runs, why, -⟩ := inv.chunk_runs inside fits
  exact ⟨r, t, runs, why⟩

def sharedNew : List FsCall := [.beginOp, .ialloc T_FILE, .ilock 0, .iunlock 0, .endOp]

def openNew (k : Kernel) : Kernel := k.setFile 0 ⟨.inode, 2, true, true, 0, 0, 0⟩

/-- A user buffer of equal bytes. -/
def filled (c : UInt8) : Addr := .user ⟨fun _ => true, fun _ => c⟩ 0

theorem filled_mapped (c : UInt8) (n : Nat) : (filled c).Mapped n := by
  intro j m _
  show ((List.range m).find? fun i => !true).getD m = m
  rw [List.find?_eq_none.2 fun _ _ => by simp]
  rfl

def wroteTwo (c : UInt8) (k : Kernel) : Option Kernel :=
  match (filewriteRound 0 (filled c) 0 2 k).result with
  | .ok (r, t) => if r = 2 then some t else none
  | .error _ => none

theorem wroteTwo_eq {c : UInt8} {k t : Kernel} (some : wroteTwo c k = some t) :
    (filewriteRound 0 (filled c) 0 2 k).result = .ok (2, t) := by
  rw [wroteTwo] at some
  split at some
  · split at some
    · cases some
      simp_all
    cases some
  cases some

theorem twoWriters_share : ∃ k s, SharedFile 0 1 k ∧ Runs 0 (.start k) s ∧ s.ran.length = 2 ∧
    (s.k.ftable 0).off = (k.ftable 0).off + s.written.length := by
  obtain ⟨k, -, ⟨D, E, ok⟩, entry, type, log, runs⟩ := FsRuns.exists_play sharedNew (fun k =>
    ((k.itable 0).ref, (k.itable 0).inum, (k.itable 0).locked) = (1, 1, false) ∧
    (k.fs.node 1).type = T_FILE ∧
    (k.log.outstanding, k.log.committing, k.log.lh.n, k.log.size) = (0, false, 0, 30) ∧
    ((wroteTwo 65 (openNew k)).bind fun t => wroteTwo 66 t).any (fun u => (u.ftable 0).off = 4)) (by decide +kernel)
  simp only [Prod.mk.injEq] at entry log
  have file : SharedFile 0 1 (openNew k) := by
    refine ⟨⟨D, E, ok.setFile _⟩, ?_, entry.2.2, entry.2.1, ?_, ?_, Nat.zero_le _, log.1, log.2.1,
      log.2.2.1, ?_⟩
    · show 0 < (k.itable 0).ref
      rw [entry.1]
      exact Nat.one_pos
    · show (k.fs.node 1).type ≠ 0
      rw [type]
      decide
    · show (k.fs.node 1).type ≠ T_DIR
      rw [type]
      decide
    show _ < k.log.size
    rw [log.2.2.2]
    decide
  have found : ∃ t u, wroteTwo 65 (openNew k) = some t ∧ wroteTwo 66 t = some u := by
    cases first : wroteTwo 65 (openNew k) with
    | none =>
      rw [first] at runs
      cases runs
    | some t =>
      rw [first] at runs
      cases second : wroteTwo 66 t with
      | none =>
        rw [Option.bind_some, second] at runs
        cases runs
      | some u => exact ⟨t, u, rfl, second⟩
  obtain ⟨t, u, first, second⟩ := found
  -- process 0 calls, then process 1 calls and writes before process 0 does
  let s₁ : Sharing := ⟨openNew k, upd (fun _ => none) 0 (some ⟨filled 66, 2, 0⟩), [], []⟩
  have run₁ : Runs 0 (.start (openNew k)) s₁ :=
    .step .start (.call 0 (filled 66) 2 rfl (filled_mapped 66 2))
  have run₂ := run₁.step (.call 1 (filled 65) 2 rfl (filled_mapped 65 2))
  have run₃ := run₂.step (.chunk 1 ⟨filled 65, 2, 0⟩ 2 t rfl (by decide) (show 0 + 2 ≤ _ by decide)
    (wroteTwo_eq first)
    fun _ => rfl)
  have off : (t.ftable 0).off = 2 := congrArg File.off (run₃.inv file).entry
  have run₄ := run₃.step (.chunk 0 ⟨filled 66, 2, 0⟩ 2 u rfl (by decide)
    (show (t.ftable 0).off + 2 ≤ _ by rw [off]; decide) (wroteTwo_eq second) fun _ => rfl)
  exact ⟨openNew k, _, file, run₄, rfl, (shared_writes file run₄).1⟩

end Results

end Xv6
