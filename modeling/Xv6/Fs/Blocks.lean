import Xv6.Fs.Ok

/-!
# Allocation of blocks

`balloc`, `bfree`, `iupdate` and `bmap` keep the invariant, on every path on which
they return.
-/

namespace Xv6

open Function renaming update_self → upd_self, update_of_ne → upd_ne, update_eq_self → upd_eq_self
open Prog (wp wp_seq wp_pure wp_guard wp_get_bind)

set_option linter.unusedSectionVars false

/-- A store into a buffer and its `log_write`. -/
@[simps! -fullyApplied] def Kernel.store (k : Kernel) (b : Nat) (data : Block) : Kernel :=
  (k.setBuf b data).setLog { k.log with lh := k.log.lh.put b }

/-! ## Room in the log -/

/-- A transaction runs, and `c` more blocks fit into the log. An absorbed block needs the
room of one more block too, as `log_write` looks for room first. -/
structure LogRoom (k : Kernel) (c : Nat) : Prop where
  running : 1 ≤ k.log.outstanding
  few : k.log.lh.n + c < LOGSIZE
  space : k.log.lh.n + c + 1 < k.log.size

/-- A function may panic, or `c` more blocks fit into the log. -/
def Admits (err : Panic → Prop) (k : Kernel) (c : Nat) : Prop := Stops err ∨ LogRoom k c

/-- From `k` to `t` blocks were logged: where `p` blocks fit before, `q` fit now. -/
structure Logs (p q : Nat) (k t : Kernel) : Prop where
  old : ∀ b ∈ k.log.lh.entries, b ∈ t.log.lh.entries
  count : t.log.lh.n + q ≤ k.log.lh.n + p
  running : t.log.outstanding = k.log.outstanding
  size : t.log.size = k.log.size

/-- Moreover, a buffer changed only if it is logged. -/
structure Spends (p q : Nat) (k t : Kernel) : Prop extends Logs p q k t where
  changed : ∀ b, b ∉ t.log.lh.entries → t.buf b = k.buf b

section Room

variable {err : Panic → Prop} {k t u : Kernel} {p q r c : Nat}

theorem Admits.mono (admits : Admits err k p) (le : q ≤ p) : Admits err k q := by
  rcases admits with stops | ⟨running, few, space⟩
  · exact .inl stops
  exact .inr ⟨running, by omega, by omega⟩

theorem Admits.setBuf (admits : Admits err k c) (b : Nat) (data : Block) :
    Admits err (k.setBuf b data) c :=
  admits.imp_right fun room => ⟨room.running, room.few, room.space⟩

/-- The costs of two parts add up. -/
theorem Logs.trans (first : Logs p q k t) (second : Logs q r t u) : Logs p r k u where
  old b mem := second.old b (first.old b mem)
  count := second.count.trans first.count
  running := second.running.trans first.running
  size := second.size.trans first.size

theorem Logs.mono (logs : Logs p q k t) {p' q' : Nat} (more : p + q' ≤ p' + q) : Logs p' q' k t where
  old := logs.old
  count := by
    have count := logs.count
    omega
  running := logs.running
  size := logs.size

theorem Logs.admits (logs : Logs p q k t) (admits : Admits err k p) : Admits err t q := by
  rcases admits with stops | ⟨running, few, space⟩
  · exact .inl stops
  have count := logs.count
  refine .inr ⟨by rw [logs.running]; exact running, by omega, ?_⟩
  rw [logs.size]
  omega

theorem Spends.refl (k : Kernel) (p : Nat) : Spends p p k k := ⟨⟨fun _ => id, le_refl _, rfl, rfl⟩, fun _ _ => rfl⟩

theorem Spends.trans (first : Spends p q k t) (second : Spends q r t u) : Spends p r k u :=
  ⟨first.toLogs.trans second.toLogs, fun b absent => (second.changed b absent).trans
    (first.changed b fun mem => absent (second.old b mem))⟩

theorem Spends.mono (spends : Spends p q k t) {p' q' : Nat} (more : p + q' ≤ p' + q) :
    Spends p' q' k t := ⟨spends.toLogs.mono more, spends.changed⟩

/-- What is reserved beyond the need of a part is left after it. -/
theorem Spends.frame (spends : Spends p q k t) (c : Nat) : Spends (p + c) (q + c) k t := spends.mono (by omega)

/-- A store costs one entry of the header at most. -/
theorem Spends.store (k : Kernel) (b : Nat) (data : Block) : Spends 1 0 k (k.store b data) where
  old _ mem := LogHeader.mem_entries_put.mpr (.inl mem)
  count := by
    show (k.log.lh.put b).n + 0 ≤ _
    by_cases mem : b ∈ k.log.lh.entries
    · rw [LogHeader.put_of_mem mem]
      omega
    rw [LogHeader.n_put_of_not_mem mem]
  changed c absent := upd_ne (fun eq => absent (LogHeader.mem_entries_put.mpr (.inr eq))) _ _
  running := rfl
  size := rfl

/-- A block that is in the header already costs nothing. -/
theorem Spends.absorb {b : Nat} (data : Block) (mem : b ∈ k.log.lh.entries) :
    Spends 0 0 k (k.store b data) := by
  refine { Spends.store k b data with count := ?_ }
  show (k.log.lh.put b).n ≤ _
  exact (congrArg LogHeader.n (LogHeader.put_of_mem mem)).le

end Room

section Updates

variable {D : Nat → Block} {err : Panic → Prop} {dirty : Option Nat} {S S' : Set Nat} {E E' : Fs}
  {k : Kernel} {b : Nat} {data : Block}

theorem Frame.store (k : Kernel) (b : Nat) (data : Block) : Frame k (k.store b data) := ⟨rfl, rfl, rfl, rfl, rfl⟩

theorem Ok.synced (ok : Ok D dirty S E k) : Synced k := by
  intro ip ref valid unlocked
  have clean : ip ∉ dirty := by
    intro mem
    have locked := (ok.held ip mem).2
    rw [unlocked] at locked
    cases locked
  rw [ok.sync ip ref valid clean, ok.inode]
  intro ip' mem same
  have eq := ok.unique ip' ip (ok.held ip' mem).1 ref same
  exact clean (eq ▸ mem)

theorem Ok.calm (ok : Ok D dirty S E k) : Calm D k := ⟨ok.synced, ok.disk⟩

theorem Calm.setBuf (calm : Calm D k) (same : ∀ i, (k.setBuf b data).fs.inode i = k.fs.inode i) :
    Calm D (k.setBuf b data) := by
  refine ⟨fun ip ref valid unlocked => ?_, calm.disk⟩
  rw [same]
  exact calm.synced ip ref valid unlocked

theorem Calm.setLog (calm : Calm D k) (log : Log) : Calm D (k.setLog log) := ⟨calm.synced, calm.disk⟩

/-- The rule for `log_write`. -/
theorem logWrite_wp {inv : Kernel → Prop} (admits : Admits err k 0)
    (inside : inv (k.setLog { k.log with lh := k.log.lh.put b })) :
    wp inv err (logWrite b)
      (fun _ t => t = k.setLog { k.log with lh := k.log.lh.put b } ∧
        k.log.lh.n < LOGSIZE ∧ k.log.lh.n + 1 < k.log.size) k := by
  rw [logWrite, wp_get_bind]
  rcases written : k.log.logWrite b with e | ⟨fresh, log⟩
  · refine Prog.wp_fail ?_
    rcases admits with stops | ⟨running, few, space⟩
    · refine stops e ?_ ?_ <;>
        rcases Log.logWrite_error written with ⟨rfl, -⟩ | ⟨rfl, -⟩ <;> decide
    rcases Log.logWrite_error written with ⟨-, full⟩ | ⟨-, outside⟩
    · omega
    omega
  obtain ⟨few, room, -, -, rfl⟩ := Log.logWrite_ok written
  exact Prog.wp_act inside ⟨rfl, few, by omega⟩

theorem update_wp (admits : Admits err k 0) (calm : Calm D (k.setBuf b data)) :
    wp (Calm D) err (update b data)
      (fun _ t => t = k.store b data ∧ k.log.lh.n < LOGSIZE ∧ k.log.lh.n + 1 < k.log.size) k := by
  rw [update, wp_setBuf_bind]
  exact ⟨calm, logWrite_wp (admits.setBuf b data) (calm.setLog _)⟩

/-- A block of the file system may be stored, when the view of the store is good again. -/
theorem Ok.store (ok : Ok D dirty S E k) (low : k.sb.inodestart ≤ b) (high : b < k.sb.size)
    (few : k.log.lh.n < LOGSIZE) (room : k.log.lh.n + 1 < k.log.size)
    (used : (k.setBuf b data).fs.used = E'.used) (contents : (k.setBuf b data).fs.data = E'.data)
    (inode : ∀ i, (∀ ip ∈ dirty, (k.itable ip).inum ≠ i) →
      (k.setBuf b data).fs.inode i = E'.inode i)
    (good : E'.Good k.sb S')
    (loose : ∀ c, c ≠ 0 → c ≠ b → c ∉ k.log.lh.entries → E.Loose S c → E'.Loose S' c)
    (keep : ∀ ip, 0 < (k.itable ip).ref → (k.itable ip).valid = true → ip ∉ dirty →
      E'.inode (k.itable ip).inum = E.inode (k.itable ip).inum) :
    Ok D dirty S' E' (k.store b data) where
  disk := ok.disk
  wf := ok.wf
  start := ok.start
  logSize := ok.logSize
  few := by
    show (k.log.lh.put b).n ≤ LOGSIZE
    by_cases mem : b ∈ k.log.lh.entries
    · rw [LogHeader.put_of_mem mem]
      exact few.le
    rw [LogHeader.n_put_of_not_mem mem]
    exact few
  room := by
    show (k.log.lh.put b).n + 1 ≤ k.log.size
    by_cases mem : b ∈ k.log.lh.entries
    · rw [LogHeader.put_of_mem mem]
      omega
    rw [LogHeader.n_put_of_not_mem mem]
    exact room
  home := by
    intro c mem
    rcases LogHeader.mem_entries_put.mp mem with old | rfl
    · exact ok.home c old
    exact ⟨low, high⟩
  tidy := by
    intro c lowC highC absent
    have ne : c ≠ b := fun eq => absent (LogHeader.mem_entries_put.mpr (.inr eq))
    have old : c ∉ k.log.lh.entries := fun mem => absent (LogHeader.mem_entries_put.mpr (.inl mem))
    have areas := ok.wf.areas
    have positive := ok.wf.log
    show Function.update k.buf b data c = D c ∨ _
    rw [upd_ne ne]
    exact (ok.tidy c lowC highC old).imp id (loose c (by change k.sb.inodestart ≤ c at lowC; omega) ne old)
  used := used
  data := contents
  inode := inode
  good := good
  table := ok.table
  sync ip ref valid clean := (ok.sync ip ref valid clean).trans (keep ip ref valid clean).symm
  alloc ip ref valid clean := (congrArg Dinode.type (keep ip ref valid clean)).trans_ne (ok.alloc ip ref valid clean)
  unique := ok.unique
  held := ok.held

end Updates

/-! ## The allocator -/

section Allocator

variable {D : Nat → Block} {err : Panic → Prop} {dirty : Option Nat} {S : Set Nat} {E : Fs} {k : Kernel}

theorem Fs.Good.of_grows {sb : Superblock} {S S' : Set Nat} {F F' : Fs} (good : F.Good sb S)
    (grows : F.Grows F') (owned : F'.Owned sb S') (range : ∀ i, (F'.inode i).InRange) :
    F'.Good sb S' where
  owned := owned
  noHoles := grows.noHoles good.noHoles
  dirs := by
    rw [grows.node]
    exact good.dirs
  range := range

/-- The file system with block `a` marked as used and zeroed. -/
def Fs.withFresh (F : Fs) (a : Nat) : Fs := (F.setUsed a true).setData a Bytes.zero

/-- `t` is `k` with block `a` taken out of the bitmap and zeroed. -/
structure Fresh (D : Nat → Block) (dirty : Option Nat) (S : Set Nat) (E : Fs) (k : Kernel) (a : Nat)
    (t : Kernel) : Prop extends Frame k t where
  free : E.used a = false
  low : k.sb.dataStart ≤ a
  high : a < k.sb.size
  ok : Ok D dirty (insert a S) (E.withFresh a) t
  logged : a ∈ t.log.lh.entries
  itable : t.itable = k.itable
  spends : Spends 2 0 k t

/-- No block is free. -/
def Fs.Full (sb : Superblock) (F : Fs) : Prop := ∀ b < sb.size, F.used b = true

section

variable (ok : Ok D dirty S E k)
include ok

theorem Ok.calm_bitmap {a : Nat} {x : Block} {bit : Bool}
    (fs : (k.setBuf (k.sb.bblock a) x).fs = k.fs.setUsed a bit) :
    Calm D (k.setBuf (k.sb.bblock a) x) :=
  ok.calm.setBuf fun i => by rw [fs]; rfl

theorem Ok.store_bitmap {S' : Set Nat} {a : Nat} {x : Block} {bit : Bool}
    (fs : (k.setBuf (k.sb.bblock a) x).fs = k.fs.setUsed a bit) (high : a < k.sb.size)
    (few : k.log.lh.n < LOGSIZE) (room : k.log.lh.n + 1 < k.log.size)
    (owned : (E.setUsed a bit).Owned k.sb S')
    (loose : ∀ c, E.Loose S c → (E.setUsed a bit).Loose S' c) :
    Ok D dirty S' (E.setUsed a bit) (k.store (k.sb.bblock a) x) := by
  have bitmap := ok.wf.bblock_lt high
  have areas := ok.wf.areas
  have data := ok.wf.data
  refine ok.store (by omega)
    (by omega) few room ?_ ?_ ?_ ?_ (fun c _ _ _ => loose c) fun _ _ _ _ => rfl
  · rw [fs, Fs.setUsed_used, Fs.setUsed_used, ok.used]
  · rw [fs]
    exact ok.data
  · intro i clean
    rw [fs]
    exact ok.inode i clean
  exact ok.good.of_grows ⟨Fs.node_setUsed E a bit, fun _ => Fs.ref_setUsed E a bit _ _⟩ owned
    ok.good.range

theorem Ok.calm_data {a : Nat} {x : Block} (low : k.sb.dataStart ≤ a)
    (high : a < k.sb.size) : Calm D (k.setBuf a x) := by
  have fs : (k.setBuf a x).fs = k.fs.setData a x := Fs.ofBuf_setData ok.wf low high
  exact ok.calm.setBuf fun i => by rw [fs]; rfl

theorem Ok.store_data {S' : Set Nat} {a : Nat} {x : Block}
    (low : k.sb.dataStart ≤ a) (high : a < k.sb.size) (few : k.log.lh.n < LOGSIZE)
    (room : k.log.lh.n + 1 < k.log.size) (good : (E.setData a x).Good k.sb S')
    (loose : ∀ c, c ≠ 0 → c ≠ a → c ∉ k.log.lh.entries → E.Loose S c → (E.setData a x).Loose S' c) :
    Ok D dirty S' (E.setData a x) (k.store a x) := by
  have areas := ok.wf.areas
  have fs : (k.setBuf a x).fs = k.fs.setData a x := Fs.ofBuf_setData ok.wf low high
  refine ok.store (by omega) high few room ?_ ?_ ?_ good loose fun _ _ _ _ => rfl
  · rw [fs]
    exact ok.used
  · rw [fs, Fs.setData_data, Fs.setData_data, ok.data]
  intro i clean
  rw [fs]
  exact ok.inode i clean

end

/-- A free block is marked and zeroed; nothing names it yet. -/
theorem Ok.take (admits : Admits err k 2) (ok : Ok D dirty S E k) {a : Nat} (high : a < k.sb.size)
    (free : E.used a = false) :
    wp (Calm D) err (do
        update (k.sb.bblock a) ((k.buf (k.sb.bblock a)).setBit (a % BPB))
        bzero a
        return a : Kern Nat)
      (fun r t => r = a ∧ Fresh D dirty S E k a t) k := by
  obtain ⟨low, -, unnamed⟩ := ok.good.owned.not_ref high free
  have fs : (k.setBuf (k.sb.bblock a) ((k.buf (k.sb.bblock a)).setBit (a % BPB))).fs =
      k.fs.setUsed a true := Fs.ofBuf_setBit ok.wf high
  refine wp_seq _ (update_wp (admits.mono zero_le) (ok.calm_bitmap fs)) ?_
  rintro _ _ ⟨rfl, few, room⟩
  have spends := (Spends.store k (k.sb.bblock a) ((k.buf (k.sb.bblock a)).setBit (a % BPB))).frame 1
  have admits' := spends.admits admits
  have marked := ok.store_bitmap fs high few room (ok.good.owned.claim high free) <| by
    rintro c (clear | mem | ⟨i, bn, type, named⟩)
    · by_cases eq : c = a
      · exact .inr (.inl (.inl eq))
      refine .inl ?_
      rwa [Fs.setUsed_used, upd_ne eq]
    · exact .inr (.inl (.inr mem))
    exact .inr (.inr ⟨i, bn, type, (Fs.ref_setUsed E a true i _).trans named⟩)
  have unnamed' : ∀ i s, (E.setUsed a true).ref i s ≠ a := by
    intro i s
    rw [Fs.ref_setUsed]
    exact unnamed i s
  have ref := Fs.ref_setData (x := Bytes.zero) fun i _ => unnamed' i _
  refine wp_seq _ (update_wp (admits'.mono zero_le) (marked.calm_data low high)) ?_
  rintro _ _ ⟨rfl, few', room'⟩
  refine wp_pure ⟨rfl, Frame.trans (Frame.store ..) (Frame.store ..), free, low, high, ?_,
    LogHeader.mem_entries_put.mpr (.inr rfl), rfl, spends.trans (Spends.store ..)⟩
  refine marked.store_data low high few' room' ?_ ?_
  · exact marked.good.of_grows ⟨Fs.node_setData_of_unnamed unnamed', fun _ => ref _ _⟩
      (marked.good.owned.congr ref rfl) marked.good.range
  rintro c - - - (clear | mem | ⟨i, bn, type, named⟩)
  · exact .inl clear
  · exact .inr (.inl mem)
  exact .inr (.inr ⟨i, bn, type, (ref i _).trans named⟩)

/-- What `freeBit` finds is a clear bit of the file system. -/
theorem freeBit_some {bp : Block} {b size bi : Nat} (found : freeBit bp b size = some bi) :
    bi < BPB ∧ b + bi < size ∧ bp.bit bi = false := by
  have inside := List.mem_range.mp (List.mem_of_find?_eq_some found)
  have clear := List.find?_some found
  exact ⟨by omega, by omega, by simpa using clear⟩

theorem freeBit_none {bp : Block} {b size bi : Nat} (missing : freeBit bp b size = none)
    (small : bi < BPB) (high : b + bi < size) : bp.bit bi = true := by
  have set := List.find?_eq_none.mp missing bi (List.mem_range.mpr (by omega))
  simpa using set

theorem bitmap_of_aligned (sb : Superblock) {b bi : Nat} (aligned : b % BPB = 0)
    (small : bi < BPB) :
    sb.bblock (b + bi) = sb.bblock b ∧ (b + bi) % BPB = bi := by
  change b % 8192 = 0 at aligned
  change bi < 8192 at small
  constructor
  · show (b + bi) / 8192 + _ = b / 8192 + _
    omega
  show (b + bi) % 8192 = bi
  omega

theorem ballocFrom_wp (admits : Admits err k 2) (ok : Ok D dirty S E k) (n : Nat) :
    ∀ b, b % BPB = 0 → wp (Calm D) err (ballocFrom n b)
      (fun a t => (a = 0 ∧ t = k ∧ ∀ c, b ≤ c → c < b + n * BPB → c < k.sb.size → E.used c = true) ∨
        a ≠ 0 ∧ Fresh D dirty S E k a t) k := by
  induction n with
  | zero =>
    intro b _
    exact wp_pure (.inl ⟨rfl, rfl, fun c low high => by omega⟩)
  | succ n ih =>
    intro b aligned
    rw [ballocFrom, wp_get_bind, wp_bread_bind]
    rcases found : freeBit (k.buf (k.sb.bblock b)) b k.sb.size with - | bi
    · refine (ih (b + BPB) ?_).mono ?_
      · rw [Nat.add_mod_right]
        exact aligned
      rintro a t (⟨zero, same, full⟩ | fresh)
      · refine .inl ⟨zero, same, fun c low high inside => ?_⟩
        by_cases here : c < b + BPB
        · have small : c - b < BPB := by omega
          obtain ⟨block, index⟩ := bitmap_of_aligned k.sb aligned small
          rw [Nat.add_sub_cancel' low] at block index
          rw [← ok.used]
          refine (Fs.ofBuf_used inside).trans ?_
          rw [block, index]
          exact freeBit_none found (by omega) (by omega)
        exact full c (by omega) (by rw [Nat.succ_mul] at high; omega) inside
      exact .inr fresh
    obtain ⟨small, high, clear⟩ := freeBit_some found
    obtain ⟨block, index⟩ := bitmap_of_aligned k.sb aligned small
    have free : E.used (b + bi) = false := by
      rw [← ok.used]
      refine (Fs.ofBuf_used high).trans ?_
      rw [block, index, clear]
    have run := ok.take admits high free
    rw [block, index] at run
    refine run.mono ?_
    rintro _ t ⟨rfl, fresh⟩
    exact .inr ⟨by have := fresh.low; have := k.sb.dataStart_pos; omega, fresh⟩

/-- The rule for `balloc`: a zeroed block that was free, or 0. -/
theorem balloc_wp (admits : Admits err k 2) (ok : Ok D dirty S E k) :
    wp (Calm D) err balloc (fun a t => a = 0 ∧ t = k ∧ E.Full k.sb ∨ a ≠ 0 ∧ Fresh D dirty S E k a t) k := by
  rw [balloc, wp_get_bind]
  refine (ballocFrom_wp admits ok _ 0 rfl).mono ?_
  rintro a t (⟨zero, same, full⟩ | fresh)
  · refine .inl ⟨zero, same, fun b high => full b zero_le ?_ high⟩
    change b < 0 + (k.sb.size + 8192 - 1) / 8192 * 8192
    omega
  exact .inr fresh

/-- The rule for `bfree`. -/
theorem bfree_wp (stops : Stops err) (ok : Ok D dirty S E k) {b : Nat} (mem : b ∈ S) :
    wp (Calm D) err (bfree b)
      (fun _ t => Ok D dirty (S \ {b}) (E.setUsed b false) t ∧ Frame k t ∧ t.itable = k.itable ∧
        ∀ c, c ∈ k.log.lh.entries → c ∈ t.log.lh.entries) k := by
  obtain ⟨low, high, -⟩ := ok.good.owned.spare mem
  have used : E.used b = true := (ok.good.owned.used high).mpr (.inr (.inl mem))
  have bit : (k.buf (k.sb.bblock b)).bit (b % BPB) = true := by
    rw [← ok.used] at used
    exact (Fs.ofBuf_used high).symm.trans used
  have fs : (k.setBuf (k.sb.bblock b) ((k.buf (k.sb.bblock b)).clearBit (b % BPB))).fs =
      k.fs.setUsed b false := Fs.ofBuf_clearBit ok.wf high
  rw [bfree, wp_get_bind, wp_bread_bind]
  refine wp_guard (fun clear => ?_) fun _ => ?_
  · rw [bit] at clear
    cases clear
  refine (update_wp (.inl stops) (ok.calm_bitmap fs)).mono ?_
  rintro _ _ ⟨rfl, few, room⟩
  refine ⟨?_, Frame.store .., rfl, fun c old => LogHeader.mem_entries_put.mpr (.inl old)⟩
  refine ok.store_bitmap fs high few room (ok.good.owned.release mem) ?_
  intro c loose
  by_cases eq : c = b
  · exact .inl (by rw [eq, Fs.setUsed_used, upd_self])
  rcases loose with clear | other | ⟨i, bn, type, named⟩
  · exact .inl (by rwa [Fs.setUsed_used, upd_ne eq])
  · exact .inr (.inl ⟨other, eq⟩)
  exact .inr (.inr ⟨i, bn, type, (Fs.ref_setUsed E b false i _).trans named⟩)

end Allocator

/-! ## Assignments to an inode -/

section Assign

variable {D : Nat → Block} {err : Panic → Prop} {S S' : Set Nat} {E : Fs} {k : Kernel} {ip : Nat}

theorem Calm.setInode {e : Inode} (calm : Calm D k) (locked : e.locked = true) :
    Calm D (k.setInode ip e) := by
  refine ⟨fun ip' ref valid unlocked => ?_, calm.disk⟩
  by_cases eq : ip' = ip
  · rw [eq, Kernel.setInode_itable, upd_self, locked] at unlocked
    cases unlocked
  rw [Kernel.setInode_itable, upd_ne eq] at ref valid unlocked ⊢
  exact calm.synced ip' ref valid unlocked

section

variable (ok : Ok D (some ip) S E k)
include ok

/-- The fields of a locked inode may be assigned freely. -/
theorem Ok.setInode (d : Dinode) (valid : Bool) :
    Ok D (some ip) S E (k.setInode ip { k.itable ip with d, valid }) := by
  have self : (k.setInode ip { k.itable ip with d, valid }).itable ip =
      { k.itable ip with d, valid } := upd_self ..
  have other : ∀ ip', ip' ∉ some ip →
      (k.setInode ip { k.itable ip with d, valid }).itable ip' = k.itable ip' := fun ip' ne =>
    upd_ne (fun eq => ne (congrArg some eq.symm)) _ _
  have ref : ∀ ip', ((k.setInode ip { k.itable ip with d, valid }).itable ip').ref =
      (k.itable ip').ref := by
    intro ip'
    by_cases eq : ip' ∈ some ip
    · cases eq
      rw [self]
    rw [other ip' eq]
  have inum : ∀ ip', ((k.setInode ip { k.itable ip with d, valid }).itable ip').inum =
      (k.itable ip').inum := by
    intro ip'
    by_cases eq : ip' ∈ some ip
    · cases eq
      rw [self]
    rw [other ip' eq]
  refine ⟨ok.disk, ok.wf, ok.start, ok.logSize, ok.few, ok.room, ok.home, ok.tidy, ok.used, ok.data,
    ?_, ok.good, ?_, ?_, ?_, ?_, ?_⟩
  · intro i clean
    refine ok.inode i fun ip' mem => ?_
    rw [← inum]
    exact clean ip' mem
  · intro ip' used
    rw [ref] at used
    obtain ⟨index, dev, positive, bound⟩ := ok.table ip' used
    by_cases eq : ip' ∈ some ip
    · cases eq
      rw [self]
      exact ⟨index, dev, positive, bound⟩
    rw [other ip' eq]
    exact ⟨index, dev, positive, bound⟩
  · intro ip' used valid clean
    rw [other ip' clean] at used valid ⊢
    exact ok.sync ip' used valid clean
  · intro ip' used valid clean
    rw [other ip' clean] at used valid ⊢
    exact ok.alloc ip' used valid clean
  · intro ip₁ ip₂
    rw [ref, ref, inum, inum]
    exact ok.unique ip₁ ip₂
  rintro _ ⟨⟩
  rw [self]
  exact ok.held ip rfl

theorem Ok.setFs {d : Dinode} (good : (E.setInode (k.itable ip).inum d).Good k.sb S')
    (loose : ∀ b, b ≠ 0 → b ∉ k.log.lh.entries → E.Loose S b →
      (E.setInode (k.itable ip).inum d).Loose S' b) :
    Ok D (some ip) S' (E.setInode (k.itable ip).inum d) k := by
  have other : ∀ ip', 0 < (k.itable ip').ref → ip' ∉ some ip →
      (E.setInode (k.itable ip).inum d).inode (k.itable ip').inum = E.inode (k.itable ip').inum := by
    intro ip' ref clean
    refine upd_ne (fun same => clean ?_) _ _
    rw [ok.unique ip' ip ref (ok.held ip rfl).1 same]
    rfl
  refine ⟨ok.disk, ok.wf, ok.start, ok.logSize, ok.few, ok.room, ok.home, ?_, ok.used, ok.data,
    ?_, good, ok.table, ?_, ?_, ok.unique, ok.held⟩
  · intro b low high absent
    have areas := ok.wf.areas
    have positive := ok.wf.log
    exact (ok.tidy b low high absent).imp id (loose b (by omega) absent)
  · intro i clean
    rw [ok.inode i clean]
    exact (upd_ne (Ne.symm (clean ip rfl)) _ _).symm
  · intro ip' ref valid clean
    rw [other ip' ref clean]
    exact ok.sync ip' ref valid clean
  intro ip' ref valid clean
  rw [other ip' ref clean]
  exact ok.alloc ip' ref valid clean

theorem Ok.close (fs : k.fs = E) (core : (k.itable ip).valid = true →
      (k.itable ip).d = E.inode (k.itable ip).inum ∧ (E.inode (k.itable ip).inum).type ≠ 0) :
    Ok D none S E k := by
  refine ⟨ok.disk, ok.wf, ok.start, ok.logSize, ok.few, ok.room, ok.home, ok.tidy, ok.used, ok.data,
    ?_, ok.good, ok.table, ?_, ?_, ok.unique, nofun⟩
  · intro i _
    rw [fs]
  · intro ip' ref valid _
    by_cases eq : ip' ∈ some ip
    · cases eq
      exact (core valid).1
    exact ok.sync ip' ref valid eq
  intro ip' ref valid _
  by_cases eq : ip' ∈ some ip
  · cases eq
    exact (core valid).2
  exact ok.alloc ip' ref valid eq

end

theorem Ok.fs_eq (ok : Ok D none S E k) : k.fs = E := by
  ext1
  · funext i
    exact ok.inode i nofun
  · exact ok.used
  exact ok.data

/-- Start to change a locked inode. -/
theorem Ok.open (ok : Ok D none ∅ E k) (ref : 0 < (k.itable ip).ref)
    (valid : (k.itable ip).valid = true) (locked : (k.itable ip).locked =
      true) : Open D ip E k where
  disk := ok.disk
  wf := ok.wf
  start := ok.start
  logSize := ok.logSize
  few := ok.few
  room := ok.room
  home := ok.home
  tidy := ok.tidy
  used := ok.used
  data := ok.data
  inode i _ := ok.inode i nofun
  good := ok.good
  table := ok.table
  sync ip' ref valid _ := ok.sync ip' ref valid nofun
  alloc ip' ref valid _ := ok.alloc ip' ref valid nofun
  unique := ok.unique
  held := by
    rintro _ ⟨⟩
    exact ⟨ref, locked⟩
  valid := valid
  core := ok.sync ip ref valid nofun
  live := ok.alloc ip ref valid nofun

/-- The rule for `iupdate`: the entry is what the disk has again. -/
theorem iupdate_wp (admits : Admits err k 0) (ok : Ok D (some ip) S E k)
    (core : (k.itable ip).d = E.inode (k.itable ip).inum) :
    wp (Calm D) err (iupdate ip)
      (fun _ t => Ok D (some ip) S E t ∧ t.fs = E ∧ Frame k t ∧ t.itable = k.itable ∧ Spends 1 0 k t)
      k := by
  have used := (ok.held ip rfl).1
  have bound := (ok.table ip used).bound
  have block := ok.wf.iblock_lt bound
  have areas := ok.wf.areas
  have data := ok.wf.data
  have range : (k.itable ip).d.InRange := core ▸ ok.good.range _
  have fs : (k.setBuf (k.sb.iblock (k.itable ip).inum)
      ((k.itable ip).d.store (k.buf (k.sb.iblock (k.itable ip).inum)) ((k.itable ip).inum % IPB))).fs =
        k.fs.setInode (k.itable ip).inum (k.itable ip).d := Fs.ofBuf_store ok.wf bound range
  have whole : k.fs.setInode (k.itable ip).inum (k.itable ip).d = E := by
    ext1
    · funext i
      by_cases eq : i = (k.itable ip).inum
      · rw [eq, Fs.setInode_inode, upd_self, core]
      rw [Fs.setInode_inode, upd_ne eq, ok.inode i]
      rintro _ ⟨⟩
      exact Ne.symm eq
    · exact ok.used
    exact ok.data
  rw [whole] at fs
  simp only [iupdate, wp_get_bind, wp_inode_bind, wp_bread_bind]
  refine (update_wp admits ⟨fun ip' ref valid unlocked => ?_, ok.disk⟩).mono ?_
  · rw [fs]
    refine ok.sync ip' ref valid ?_
    rintro ⟨⟩
    have locked := (ok.held ip rfl).2
    rw [show (k.itable ip).locked = false from unlocked] at locked
    cases locked
  rintro _ _ ⟨rfl, few, room⟩
  refine ⟨?_, fs, Frame.store .., rfl, Spends.store ..⟩
  refine ok.store block.1 (by omega) few room ?_ ?_ ?_ ok.good (fun _ _ _ _ => id) fun _ _ _ _ => rfl
  · rw [fs]
  · rw [fs]
  intro i _
  rw [fs]

theorem Open.assign (op : Open D ip E k) {d : Dinode} (type : d.type ≠ 0)
    (good : (E.setInode (k.itable ip).inum d).Good k.sb ∅)
    (loose : ∀ b, b ≠ 0 → E.Loose ∅ b → (E.setInode (k.itable ip).inum d).Loose ∅ b) :
    Open D ip (E.setInode (k.itable ip).inum d) (k.setInode ip { k.itable ip with d }) := by
  have assigned :=
    (op.toOk.setFs good fun b positive _ => loose b positive).setInode d (k.itable ip).valid
  have self : (k.setInode ip { k.itable ip with d }).itable ip = { k.itable ip with d } :=
    upd_self ..
  refine ⟨assigned, ?_, ?_, ?_⟩
  · rw [self]
    exact op.valid
  · rw [self]
    exact (upd_self (k.itable ip).inum d E.inode).symm
  rw [self, Fs.setInode_inode, upd_self]
  exact type

end Assign

/-! ## The blocks of an inode -/

section Bmap

variable {D : Nat → Block} {err : Panic → Prop} {E : Fs} {k : Kernel} {ip : Nat}

theorem Near.setInode (k : Kernel) (ip : Nat) (d : Dinode) :
    Near ip k (k.setInode ip { k.itable ip with d }) :=
  ⟨⟨rfl, rfl, rfl, rfl, rfl⟩, d, rfl⟩

theorem Near.of_itable {t : Kernel} (frame : Frame k t) (itable : t.itable = k.itable) :
    Near ip k t :=
  ⟨frame, (k.itable ip).d, by rw [itable, upd_eq_self]⟩

/-- The blocks that may still be logged on behalf of the indirect block of inode `i`: it
and its bitmap block, until it is logged. -/
def indirectDue (E : Fs) (k : Kernel) (i : Nat) : Nat :=
  if E.ref i (.addr NDIRECT) ∈ k.log.lh.entries then 0 else 2

/-- The blocks that are logged to fill slot `s`: the new block and its bitmap block. -/
def slotDue (E : Fs) (i : Nat) (s : Slot) : Nat := if E.ref i s = 0 then 2 else 0

/-- What `bmap` and its parts leave: blocks may have been added, and if the result is
not 0 it is the block in slot `s`. -/
structure Mapped (D : Nat → Block) (ip : Nat) (E : Fs) (k : Kernel) (s : Slot) (a : Nat) (t : Kernel)
    (E' : Fs) : Prop where
  op : Open D ip E' t
  grows : E.Grows E'
  near : Near ip k t
  slot : a ≠ 0 → E'.ref (k.itable ip).inum s = a
  other : ∀ {s'}, s' ≠ s → s' ≠ .addr NDIRECT →
    E'.ref (k.itable ip).inum s' = E.ref (k.itable ip).inum s'
  full : a = 0 → E'.Full k.sb
  fresh : E.ref (k.itable ip).inum s = 0 → a ≠ 0 → a ∈ t.log.lh.entries
  spends : Spends (indirectDue E k (k.itable ip).inum + slotDue E (k.itable ip).inum s)
    (indirectDue E' t (k.itable ip).inum) k t

theorem Open.refl (op : Open D ip E k) {s : Slot} {a : Nat}
    (slot : a ≠ 0 → E.ref (k.itable ip).inum s = a) (full : a = 0 → E.Full k.sb)
    (old : E.ref (k.itable ip).inum s = 0 → a = 0) : Mapped D ip E k s a k E :=
  ⟨op, .refl E, .refl ip k, slot, fun _ _ => rfl, full, fun missing named => absurd (old missing) named,
    (Spends.refl k (indirectDue E k (k.itable ip).inum)).mono (by omega)⟩

theorem Ok.not_logged_zero {dirty : Option Nat} {S : Set Nat} (ok : Ok D dirty S E k) :
    0 ∉ k.log.lh.entries := by
  intro logged
  have low := (ok.home _ logged).1
  have areas := ok.wf.areas
  have positive := ok.wf.log
  omega

theorem Ok.indirectDue_le {dirty : Option Nat} {S : Set Nat} {E' : Fs} {t : Kernel}
    (ok : Ok D dirty S E k) (i : Nat)
    (ref : E.ref i (.addr NDIRECT) ≠ 0 → E'.ref i (.addr NDIRECT) = E.ref i (.addr NDIRECT))
    (old : ∀ b ∈ k.log.lh.entries, b ∈ t.log.lh.entries) :
    indirectDue E' t i ≤ indirectDue E k i := by
  unfold indirectDue
  by_cases logged : E.ref i (.addr NDIRECT) ∈ k.log.lh.entries
  · have named : E.ref i (.addr NDIRECT) ≠ 0 := by
      intro zero
      rw [zero] at logged
      exact ok.not_logged_zero logged
    rw [if_pos logged, ref named, if_pos (old _ logged)]
  rw [if_neg logged]
  split
  · exact Nat.zero_le 2
  exact le_refl 2

/-- The other loose blocks stay so when `a` is given to an empty slot. -/
theorem Fs.Loose.attach {F F' : Fs} {S : Set Nat} {i a c : Nat} {s : Slot}
    (loose : F.Loose (insert a S) c) (positive : c ≠ 0) (other : c ≠ a) (empty : F.ref i s = 0)
    (type : ∀ i, (F'.inode i).type = (F.inode i).type) (used : F'.used = F.used)
    (ref : ∀ i' s', F'.ref i' s' = if i' = i ∧ s' = s then a else F.ref i' s') : F'.Loose S c := by
  rcases loose with clear | (rfl | mem) | ⟨i', bn, notDir, named⟩
  · exact .inl (by rw [used, clear])
  · exact absurd rfl other
  · exact .inr (.inl mem)
  refine .inr (.inr ⟨i', bn, by rwa [type], ?_⟩)
  rw [ref, if_neg, named]
  rintro ⟨rfl, slot⟩
  rw [slot, empty] at named
  exact positive named.symm

theorem Dinode.InRange.setAddr {d : Dinode} (range : d.InRange) {j a : Nat}
    (word : a < 4294967296) :
    (d.setAddr j a).InRange := by
  refine ⟨range.type, range.major, range.minor, range.nlink, range.size, fun i => ?_⟩
  show (if i.val = j then a else d.addrs i) < 4294967296
  split
  · exact word
  exact range.addrs i

section Fresh

variable {dirty : Option Nat} {S : Set Nat} {a : Nat} {t : Kernel}

section

variable (fresh : Fresh D dirty S E k a t)
include fresh

section

variable (ok : Ok D dirty S E k)
include ok

theorem Fresh.unnamed (i : Nat) (s : Slot) : (E.setUsed a true).ref i s ≠ a := by
  rw [Fs.ref_setUsed]
  exact (ok.good.owned.not_ref fresh.high fresh.free).2.2 i s

theorem Fresh.ref (i : Nat) (s : Slot) : (E.withFresh a).ref i s = E.ref i s :=
  (Fs.ref_setData (fun i _ => fresh.unnamed ok i _) i s).trans (Fs.ref_setUsed E a true i s)

theorem Fresh.grows : E.Grows (E.withFresh a) :=
  ⟨(Fs.node_setData_of_unnamed (fresh.unnamed ok)).trans (Fs.node_setUsed E a true),
    fun _ => fresh.ref ok _ _⟩

theorem Fresh.word : a < 4294967296 := by
  have high := fresh.high
  have size := ok.wf.size
  omega

end

end

theorem Fs.withFresh_data (F : Fs) (a : Nat) : (F.withFresh a).data a = Bytes.zero := upd_self ..

theorem Fresh.attachAddr {j : Nat} (fresh : Fresh D (some ip) ∅ E k a t)
    (op : Open D ip E k) (bound : j < NDIRECT + 1)
    (empty : E.ref (k.itable ip).inum (.addr j) = 0) :
    Mapped D ip E k (.addr j) a (t.setInode ip { k.itable ip with d := (k.itable ip).d.setAddr j a })
      ((E.withFresh a).setInode (k.itable ip).inum ((k.itable ip).d.setAddr j a)) := by
  have ok := fresh.ok
  have itable := fresh.itable
  have empty' : (E.withFresh a).ref (k.itable ip).inum (.addr j) = 0 :=
    (fresh.ref op.toOk _ _).trans empty
  have ref := Fs.ref_setAddr (F := E.withFresh a) op.live bound empty' (E.withFresh_data a)
  have node := Fs.node_setAddr (F := E.withFresh a) op.live bound empty' (E.withFresh_data a)
  change ∀ i s, ((E.withFresh a).setInode _ ((E.inode _).setAddr j a)).ref i s = _ at ref
  change ((E.withFresh a).setInode _ ((E.inode _).setAddr j a)).node = _ at node
  rw [← op.core] at ref node
  have grows := Fs.Grows.of_attach node empty' ref
  have owned := ok.good.owned.attach (Set.mem_insert a ∅) empty' ref rfl
  rw [Set.insert_sdiff_self_of_notMem (Set.notMem_empty a)] at owned
  have range : ((k.itable ip).d.setAddr j a).InRange := by
    rw [op.core]
    exact (op.good.range _).setAddr (fresh.word op.toOk)
  have good := ok.good.of_grows grows owned fun i => by
    by_cases eq : i = (k.itable ip).inum
    · rw [eq, Fs.setInode_inode, upd_self]
      exact range
    rw [Fs.setInode_inode, upd_ne eq]
    exact op.good.range i
  have type : ∀ i, (((E.withFresh a).setInode (k.itable ip).inum
      ((k.itable ip).d.setAddr j a)).inode i).type = ((E.withFresh a).inode i).type := by
    intro i
    by_cases eq : i = (k.itable ip).inum
    · rw [eq, Fs.setInode_inode, upd_self, op.core]
      rfl
    rw [Fs.setInode_inode, upd_ne eq]
  rw [← itable] at good
  have assigned := (ok.setFs good fun c positive absent loose => by
    rw [itable]
    exact loose.attach positive (fun eq => absent (eq ▸ fresh.logged)) empty' type rfl ref).setInode
      ((k.itable ip).d.setAddr j a) (t.itable ip).valid
  rw [itable] at assigned
  have self : (t.setInode ip { k.itable ip with d := (k.itable ip).d.setAddr j a }).itable ip =
      { k.itable ip with d := (k.itable ip).d.setAddr j a } := upd_self ..
  have all := (fresh.grows op.toOk).trans grows
  refine ⟨⟨assigned, ?_, ?_, ?_⟩, all, ?_, fun _ => ?_, fun ne _ => ?_, fun zero => ?_,
    fun _ _ => fresh.logged, ?_⟩
  · rw [self]
    exact op.valid
  · rw [self]
    exact (upd_self (k.itable ip).inum _ (E.withFresh a).inode).symm
  · rw [self]
    exact (type _).trans_ne op.live
  · have near :=
      (Near.of_itable fresh.toFrame itable).trans (Near.setInode t ip ((k.itable ip).d.setAddr j a))
    rwa [itable] at near
  · rw [ref, if_pos ⟨rfl, rfl⟩]
  · rw [ref, if_neg fun here => ne here.2]
    exact fresh.ref op.toOk _ _
  · have low := fresh.low
    have positive := k.sb.dataStart_pos
    omega
  have spends : Spends 2 0 k (t.setInode ip { k.itable ip with d := (k.itable ip).d.setAddr j a }) :=
    { fresh.spends with }
  have less := op.toOk.indirectDue_le (k.itable ip).inum all.ref spends.old
  refine spends.mono ?_
  rw [slotDue, if_pos empty]
  omega

end Fresh

/-- The rule for an entry of `addrs`, allocated where it is 0. -/
theorem addrOrAlloc_wp (op : Open D ip E k) {j : Nat} (bound : j < NDIRECT + 1)
    (admits : Admits err k (slotDue E (k.itable ip).inum (.addr j))) :
    wp (Calm D) err (addrOrAlloc balloc ip j) (fun a t => ∃ E', Mapped D ip E k (.addr j) a t E' ∧
        Spends (slotDue E (k.itable ip).inum (.addr j)) 0 k t) k := by
  have addr : E.ref (k.itable ip).inum (.addr j) =
      (k.itable ip).d.addr j := by rw [Fs.ref_addr op.live, op.core]
  simp only [addrOrAlloc, wp_inode_bind]
  split
  swap
  · rename_i present
    exact wp_pure ⟨E, op.refl (fun _ => addr) (fun zero => absurd zero present)
      fun zero => addr.symm.trans zero, (Spends.refl k 0).mono (by omega)⟩
  rename_i missing
  rw [slotDue, if_pos (addr.trans missing)] at admits ⊢
  refine wp_seq _ (balloc_wp admits op.toOk) ?_
  rintro a t (⟨rfl, rfl, full⟩ | ⟨named, fresh⟩)
  · rw [if_pos rfl]
    exact wp_pure ⟨E, op.refl (fun h => absurd rfl h) (fun _ => full) fun _ => rfl,
      (Spends.refl _ 0).mono (by omega)⟩
  rw [if_neg named, wp_setDinode_bind, fresh.itable]
  have attached := fresh.attachAddr op bound (addr.trans missing)
  have calm : Calm D (t.setInode ip { k.itable ip with d := (k.itable ip).d.setAddr j a }) :=
    fresh.ok.calm.setInode (op.held ip rfl).2
  exact ⟨calm, wp_pure ⟨_, attached, { fresh.spends with }⟩⟩

theorem Ok.buf_eq {dirty : Option Nat} {S : Set Nat} (ok : Ok D dirty S E k) {b : Nat}
    (low : k.sb.dataStart ≤ b) (high : b < k.sb.size) : k.buf b = E.data b := by
  rw [← ok.data]
  exact (Fs.ofBuf_data low high).symm

theorem Fresh.attachEntry {a b j : Nat} {t : Kernel} (admits : Admits err t 0)
    (fresh : Fresh D (some ip) ∅ E k a t) (op : Open D ip E k)
    (indirect : E.ref (k.itable ip).inum (.addr NDIRECT) = b) (named : b ≠ 0)
    (bound : j < NINDIRECT) (empty : E.ref (k.itable ip).inum (.entry j) = 0) :
    wp (Calm D) err (update b ((t.buf b).setU32 (4 * j) a))
      (fun _ u => ∃ E', Mapped D ip E k (.entry j) a u E') t := by
  have ok := fresh.ok
  have word := fresh.word op.toOk
  have indirect' : (E.withFresh a).ref (k.itable ip).inum (.addr NDIRECT) = b :=
    (fresh.ref op.toOk _ _).trans indirect
  have empty' : (E.withFresh a).ref (k.itable ip).inum (.entry j) = 0 :=
    (fresh.ref op.toOk _ _).trans empty
  obtain ⟨low, high⟩ := ok.good.owned.area (indirect' ▸ named)
  rw [indirect'] at low high
  have apart : a ≠ b := fun eq => fresh.unnamed op.toOk _ _
    ((Fs.ref_setUsed E a true _ _).trans (indirect.trans eq.symm))
  have ref := ok.good.owned.ref_setU32 indirect' named bound word
  have node :=
    ok.good.owned.node_setU32 indirect' named bound word apart empty' (E.withFresh_data a)
  have grows := Fs.Grows.of_attach node empty' ref
  have owned := ok.good.owned.attach (Set.mem_insert a ∅) empty' ref rfl
  rw [Set.insert_sdiff_self_of_notMem (Set.notMem_empty a)] at owned
  rw [ok.buf_eq low high]
  refine (update_wp admits (ok.calm_data low high)).mono ?_
  rintro _ _ ⟨rfl, few, room⟩
  have stored := ok.store_data low high few room (ok.good.of_grows grows owned ok.good.range)
    fun c positive _ absent loose =>
      loose.attach positive (fun eq => absent (eq ▸ fresh.logged)) empty' (fun _ => rfl) rfl ref
  have itable : (t.store b (((E.withFresh a).data b).setU32 (4 * j) a)).itable = k.itable :=
    fresh.itable
  have all := (fresh.grows op.toOk).trans grows
  refine ⟨_, ⟨stored, ?_, ?_, ?_⟩, all,
    Near.of_itable (fresh.toFrame.trans (Frame.store ..)) itable, fun _ => ?_, fun ne _ => ?_,
    fun zero => ?_, fun _ _ => LogHeader.mem_entries_put.mpr (.inl fresh.logged), ?_⟩
  · rw [itable]
    exact op.valid
  · rw [itable]
    exact op.core
  · rw [itable]
    exact op.live
  · rw [ref, if_pos ⟨rfl, rfl⟩]
  · rw [ref, if_neg fun here => ne here.2]
    exact fresh.ref op.toOk _ _
  · have low := fresh.low
    have positive := k.sb.dataStart_pos
    omega
  -- the indirect block is logged now; it was due unless it had been logged before
  have named' : E.ref (k.itable ip).inum (.addr NDIRECT) ≠ 0 := indirect ▸ named
  have paid : indirectDue ((E.withFresh a).setData b (((E.withFresh a).data b).setU32 (4 * j) a))
      (t.store b (((E.withFresh a).data b).setU32 (4 * j) a)) (k.itable ip).inum = 0 := by
    rw [indirectDue, all.ref named', indirect, if_pos]
    exact LogHeader.mem_entries_put.mpr (.inr rfl)
  rw [paid, slotDue, if_pos empty, indirectDue, indirect]
  by_cases logged : b ∈ k.log.lh.entries
  · rw [if_pos logged]
    exact (fresh.spends.trans (.absorb _ (fresh.spends.old b logged))).mono (by omega)
  rw [if_neg logged]
  exact ((fresh.spends.frame 1).trans (.store ..)).mono (by omega)

/-- The rule for an entry of the indirect block. -/
theorem entryOrAlloc_wp (op : Open D ip E k) {b j : Nat}
    (indirect : E.ref (k.itable ip).inum (.addr NDIRECT) = b) (named : b ≠ 0)
    (bound : j < NINDIRECT)
    (admits : Admits err k (slotDue E (k.itable ip).inum (.entry j))) :
    wp (Calm D) err (entryOrAlloc balloc b j) (fun a t => ∃ E', Mapped D ip E k (.entry j) a t E') k := by
  obtain ⟨low, high⟩ := op.good.owned.area (indirect ▸ named)
  rw [indirect] at low high
  have addr := indirect
  rw [Fs.ref_addr op.live] at addr
  have entry : E.ref (k.itable ip).inum (.entry j) = (k.buf b).u32 (4 * j) := by
    rw [Fs.ref_entry op.live (addr ▸ named), addr, op.buf_eq low high]
  simp only [entryOrAlloc, wp_bread_bind]
  split
  swap
  · rename_i present
    exact wp_pure ⟨E, op.refl (fun _ => entry) (fun zero => absurd zero present)
      fun zero => entry.symm.trans zero⟩
  rename_i missing
  rw [slotDue, if_pos (entry.trans missing)] at admits
  refine wp_seq _ (balloc_wp admits op.toOk) ?_
  rintro a t (⟨rfl, rfl, full⟩ | ⟨positive, fresh⟩)
  · rw [if_pos rfl]
    exact wp_pure ⟨E, op.refl (fun h => absurd rfl h) (fun _ => full) fun _ => rfl⟩
  rw [if_neg positive, wp_bread_bind]
  refine wp_seq _ (fresh.attachEntry (fresh.spends.admits admits) op indirect named bound (entry.trans missing)) ?_
  exact fun _ u mapped => wp_pure mapped

/-- The rule for `bmap`: the block of the slot, which is the one it was or a new one. -/
theorem bmap_wp (op : Open D ip E k) {bn : Nat} (reach : Stops err ∨ bn < MAXFILE) (admits : Admits err k
      (indirectDue E k (k.itable ip).inum + slotDue E (k.itable ip).inum (.block bn))) :
    wp (Calm D) err (bmap ip bn) (fun a t => ∃ E', Mapped D ip E k (.block bn) a t E') k := by
  rw [bmap, bmapWith]
  split
  · rename_i direct
    have slot : Slot.block bn = .addr bn := if_pos direct
    rw [slot] at admits ⊢
    exact (addrOrAlloc_wp op (Nat.lt_succ_of_lt direct) (admits.mono (Nat.le_add_left ..))).mono
      fun _ _ ⟨E', mapped, _⟩ => ⟨E', mapped⟩
  rename_i indirect
  have slot : Slot.block bn = .entry (bn - NDIRECT) := if_neg indirect
  rw [slot] at admits ⊢
  split
  swap
  · rename_i outside
    rcases reach with stops | inside
    · exact Prog.wp_fail (stops _ (by decide) (by decide))
    simp only [MAXFILE] at inside
    omega
  rename_i inside
  have due : slotDue E (k.itable ip).inum (.addr NDIRECT) ≤ indirectDue E k (k.itable ip).inum := by
    unfold slotDue
    split
    · rename_i missing
      rw [indirectDue, if_neg]
      rw [missing]
      exact op.toOk.not_logged_zero
    exact zero_le
  refine wp_seq _ (addrOrAlloc_wp op (Nat.lt_succ_self NDIRECT) (admits.mono (by omega))) ?_
  rintro b t ⟨E₁, mapped, spent⟩
  obtain ⟨op₁, grows₁, near₁, slot₁, other₁, full₁, fresh₁, -⟩ := mapped
  have same : ∀ j, E₁.ref (k.itable ip).inum (.entry j) = E.ref (k.itable ip).inum (.entry j) :=
    fun j => other₁ nofun nofun
  have less := op.toOk.indirectDue_le (k.itable ip).inum grows₁.ref spent.old
  split
  · rename_i zero
    refine wp_pure ⟨E₁, op₁, grows₁, near₁, fun h => absurd rfl h, fun _ ne => other₁ ne ne,
      fun _ => full₁ zero, fun _ h => absurd rfl h, spent.mono ?_⟩
    by_cases missing : E.ref (k.itable ip).inum (.addr NDIRECT) = 0
    · have entry : E.ref (k.itable ip).inum (.entry (bn - NDIRECT)) = 0 := by
        rw [Fs.ref_addr op.live] at missing
        exact Fs.ref_entry_of_zero missing _
      rw [show slotDue E (k.itable ip).inum (.entry (bn - NDIRECT)) = 2 from if_pos entry]
      have most : slotDue E (k.itable ip).inum (.addr NDIRECT) ≤ 2 := by
        rw [slotDue, if_pos missing]
      omega
    rw [show slotDue E (k.itable ip).inum (.addr NDIRECT) = 0 from if_neg missing]
    omega
  rename_i named
  -- what was due for the indirect block is paid, or was due before
  have paid : Spends (indirectDue E k (k.itable ip).inum)
      (indirectDue E₁ t (k.itable ip).inum) k t := by
    by_cases missing : E.ref (k.itable ip).inum (.addr NDIRECT) = 0
    · have logged := fresh₁ missing named
      refine spent.mono ?_
      rw [show indirectDue E₁ t (k.itable ip).inum =
        0 from if_pos (by rw [slot₁ named]; exact logged)]
      omega
    refine spent.mono ?_
    rw [show slotDue E (k.itable ip).inum (.addr NDIRECT) = 0 from if_neg missing]
    omega
  have due₁ : slotDue E₁ (k.itable ip).inum (.entry (bn - NDIRECT)) =
      slotDue E (k.itable ip).inum (.entry (bn - NDIRECT)) := by
    rw [slotDue, same]
    rfl
  have admits₁ : Admits err t (slotDue E₁ (t.itable ip).inum (.entry (bn - NDIRECT))) :=
    ((paid.frame _).admits admits).mono (by rw [near₁.inum, due₁]; omega)
  refine (entryOrAlloc_wp op₁ (by rw [near₁.inum]; exact slot₁ named) named inside admits₁).mono ?_
  rintro a u ⟨E₂, op₂, grows₂, near₂, slot₂, other₂, full₂, fresh₂, spends₂⟩
  rw [near₁.inum] at slot₂ other₂ fresh₂ spends₂
  rw [due₁] at spends₂
  refine ⟨E₂, op₂, grows₁.trans grows₂, near₁.trans near₂, slot₂, fun ne ne' => ?_, fun zero => ?_,
    fun missing => fresh₂ ((same _).trans missing), (paid.frame _).trans spends₂⟩
  · exact (other₂ ne ne').trans (other₁ ne' ne')
  rw [← near₁.sb]
  exact full₂ zero

end Bmap

end Xv6
