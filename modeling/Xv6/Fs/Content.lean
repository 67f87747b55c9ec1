import Xv6.Fs.Blocks

/-!
# The contents of inodes

`readi`, `writei` and `itrunc`. Reading does not change anything: a file has no
holes, so `bmap` finds every block it is asked for. Writing and truncation keep
the invariant however far they come.
-/

namespace Xv6

open Function renaming update → upd, update_self → upd_self, update_of_ne → upd_ne,
  update_idem → upd_idem, update_eq_self → upd_eq_self
open Prog (wp wp_seq wp_pure)

set_option linter.unusedSectionVars false

/-! ## Reading -/

section Read

variable {D : Nat → Block} {E : Fs} {k : Kernel} {ip : Nat} {dirty : Option Nat} {S : Set Nat}

/-- The inode in entry `ip` is in memory, and `E` is what the kernel shows of its blocks. -/
structure Loaded (E : Fs) (k : Kernel) (ip : Nat) : Prop where
  core : (k.itable ip).d = E.inode (k.itable ip).inum
  live : (E.inode (k.itable ip).inum).type ≠ 0
  buf : ∀ {s}, E.ref (k.itable ip).inum s ≠ 0 →
    k.buf (E.ref (k.itable ip).inum s) = E.data (E.ref (k.itable ip).inum s)
  noHoles : E.NoHoles

/-- The same without the promise that no block is missing. -/
structure Shown (E : Fs) (k : Kernel) (ip : Nat) : Prop where
  core : (k.itable ip).d = E.inode (k.itable ip).inum
  live : (E.inode (k.itable ip).inum).type ≠ 0
  buf : ∀ {s}, E.ref (k.itable ip).inum s ≠ 0 →
    k.buf (E.ref (k.itable ip).inum s) = E.data (E.ref (k.itable ip).inum s)

theorem Loaded.shown (loaded : Loaded E k ip) : Shown E k ip := ⟨loaded.core, loaded.live, loaded.buf⟩

theorem Ok.loaded (ok : Ok D dirty S E k) (core : (k.itable ip).d = E.inode (k.itable ip).inum)
    (live : (E.inode (k.itable ip).inum).type ≠ 0) : Loaded E k ip :=
  ⟨core, live, fun named => ok.buf_eq (ok.good.owned.area named).1 (ok.good.owned.area named).2,
    ok.good.noHoles⟩

section

variable (shown : Shown E k ip)
include shown

/-- On a block that is there `bmap` only reads. -/
theorem Shown.bmapWith {bn : Nat} (named : E.ref (k.itable ip).inum (.block bn) ≠ 0)
    (alloc : Kern Nat) :
    Prog.Returns (bmapWith alloc ip bn) (E.ref (k.itable ip).inum (.block bn)) k := by
  have present : ∀ {j}, E.ref (k.itable ip).inum (.addr j) ≠ 0 →
      Prog.Returns (addrOrAlloc alloc ip j) (E.ref (k.itable ip).inum (.addr j)) k := by
    intro j named
    rw [Fs.ref_addr shown.live, ← shown.core] at named ⊢
    show (if (k.itable ip).d.addr j = 0 then _ else pure _ : Kern Nat) k = _
    rw [if_neg named]
    rfl
  unfold Xv6.bmapWith
  unfold Slot.block at named ⊢
  split
  · rename_i direct
    rw [if_pos direct] at named
    exact present named
  rename_i indirect
  rw [if_neg indirect] at named
  rw [if_pos (Fs.entry_lt_of_ref named)]
  have addr : E.ref (k.itable ip).inum (.addr NDIRECT) ≠ 0 := by
    intro none
    rw [Fs.ref_addr shown.live] at none
    exact named (Fs.ref_entry_of_zero none _)
  refine (present addr).seq ?_
  rw [if_neg addr]
  have entry : E.ref (k.itable ip).inum (.entry (bn - NDIRECT)) =
      (k.buf (E.ref (k.itable ip).inum (.addr NDIRECT))).u32 (4 * (bn - NDIRECT)) := by
    rw [shown.buf addr, Fs.ref_addr shown.live]
    rw [Fs.ref_addr shown.live] at addr
    exact Fs.ref_entry shown.live addr _
  show (if (k.buf (E.ref (k.itable ip).inum (.addr NDIRECT))).u32 (4 * (bn - NDIRECT)) = 0 then _
    else pure _ : Kern Nat) k = _
  rw [entry] at named ⊢
  rw [if_neg named]
  rfl

/-- The loop of `readi` copies the bytes of the file in order. -/
theorem Shown.readLoop (dst : Addr) (n : Nat) (fuel : Nat) :
    ∀ tot off out, n - tot ≤ fuel → tot ≤ n →
      (∀ o, off ≤ o → o < off + (n - tot) → E.ref (k.itable ip).inum (.block (o / BSIZE)) ≠ 0) →
      ∃ r out', (∀ alloc, Prog.Returns (readLoop alloc ip dst n fuel tot off out) (r, out') k) ∧
        ((∀ i len, i + len ≤ n → dst.copied i len = len) → r = n ∧ ∀ j < n, out' j =
          if j < tot then out j else (E.node (k.itable ip).inum).byte (off + (j - tot))) := by
  induction fuel with
  | zero =>
    intro tot off out few low _
    have done : tot = n := by omega
    refine ⟨tot, out, fun _ => rfl, fun _ => ⟨by rw [done], fun j lt => ?_⟩⟩
    rw [if_pos (by omega)]
  | succ fuel ih =>
    intro tot off out few low present
    by_cases more : tot < n
    swap
    · have done : tot = n := by omega
      refine ⟨tot, out, fun alloc => ?_, fun _ => ⟨by rw [done], fun j lt => ?_⟩⟩
      · rw [Xv6.readLoop, if_neg more]
        rfl
      rw [if_pos (by omega)]
    have named : E.ref (k.itable ip).inum (.block (off / BSIZE)) ≠ 0 := present off (le_refl _)
      (by omega)
    obtain ⟨m, round⟩ : ∃ m, m = min (n - tot) (BSIZE - off % BSIZE) := ⟨_, rfl⟩
    have inside : off % BSIZE + m ≤ BSIZE := by
      have rest : off % BSIZE < BSIZE := Nat.mod_lt _ (by decide)
      omega
    have unfolded : ∀ alloc, Xv6.readLoop alloc ip dst n (fuel + 1) tot off out k =
        (if dst.copied tot m < m then pure (-1, out)
          else Xv6.readLoop alloc ip dst n fuel (tot + m) (off + m) fun i =>
            if tot ≤ i ∧ i < tot + m then
              (k.buf (E.ref (k.itable ip).inum (.block (off / BSIZE)))).byte (off % BSIZE + (i - tot))
            else out i : Kern (Int × (Nat → UInt8))) k := by
      intro alloc
      rw [Xv6.readLoop, if_pos more, (shown.bmapWith named alloc).bind, if_neg named, round]
      rfl
    by_cases short : dst.copied tot m < m
    · refine ⟨-1, out, fun alloc => ?_, fun all => ?_⟩
      · refine (unfolded alloc).trans ?_
        rw [if_pos short]
        rfl
      rw [all tot m (by omega)] at short
      exact absurd short (lt_irrefl m)
    have progress : 0 < m := by
      have rest : off % BSIZE < BSIZE := Nat.mod_lt _ (by decide)
      omega
    obtain ⟨r, out', returns, exact⟩ := ih (tot + m) (off + m) _ (by omega) (by omega)
      fun o low' high => present o (by omega) (by omega)
    refine ⟨r, out', fun alloc => ?_, fun all => ⟨(exact all).1, fun j lt => ?_⟩⟩
    · refine (unfolded alloc).trans ?_
      rw [if_neg short]
      exact returns alloc
    rw [(exact all).2 j lt]
    by_cases before : j < tot
    · rw [if_pos (by omega), if_neg (by omega), if_pos before]
    rw [if_neg before]
    by_cases here : j < tot + m
    · rw [if_pos here, if_pos ⟨by omega, here⟩, shown.buf named, Fs.node_of_alloc shown.live]
      have block : (off + (j - tot)) / BSIZE = off / BSIZE := by
        simp only [BSIZE] at inside ⊢
        omega
      have index : (off + (j - tot)) % BSIZE = off % BSIZE + (j - tot) := by
        simp only [BSIZE] at inside ⊢
        omega
      show _ = (E.block _ ((off + (j - tot)) / BSIZE)).byte ((off + (j - tot)) % BSIZE)
      rw [block, index, Fs.block, if_neg named]
    rw [if_neg here]
    congr 1
    omega

theorem Shown.readi_clipped (size : (k.itable ip).d.size < 2 ^ 32) (dst : Addr) (off : Nat) {n : Nat}
    (word : n < 2 ^ 32) (present : ∀ o, off ≤ o → o < off + n → o < (k.itable ip).d.size →
      E.ref (k.itable ip).inum (.block (o / BSIZE)) ≠ 0) :
    ∃ r out, (∀ alloc, Prog.Returns (readiWith alloc ip dst off n) (r, out) k) ∧
      ((∀ i len, i + len ≤ n → dst.copied i len = len) → off + n < 2 ^ 32 →
        r = (min n ((k.itable ip).d.size - off) : Nat) ∧ ∀ j < min n ((k.itable ip).d.size - off),
          out j = (E.node (k.itable ip).inum).byte (off + j)) := by
  by_cases outside : off > (k.itable ip).d.size ∨ (off + n) % 2 ^ 32 < off
  · refine ⟨0, fun _ => 0, fun alloc => ?_, fun _ below => ?_⟩
    · show (if off > (k.itable ip).d.size ∨ (off + n) % 2 ^ 32 < off then _ else _ : Kern _) k = _
      rw [if_pos outside]
      rfl
    rw [Nat.mod_eq_of_lt below] at outside
    have none : min n ((k.itable ip).d.size - off) = 0 := by omega
    rw [none]
    exact ⟨rfl, fun j lt => absurd lt (Nat.not_lt_zero j)⟩
  obtain ⟨m, clipped⟩ : ∃ m, m = if (off + n) % 2 ^ 32 > (k.itable ip).d.size then
      (k.itable ip).d.size - off else n := ⟨_, rfl⟩
  have below : off + m ≤ (k.itable ip).d.size := by
    rw [clipped]
    split
    · omega
    omega
  have sum : off + n < 2 ^ 32 := by omega
  have whole : m = min n ((k.itable ip).d.size - off) := by
    rw [clipped, Nat.mod_eq_of_lt sum]
    split
    · omega
    omega
  obtain ⟨r, out, returns, exact⟩ := shown.readLoop dst m m 0 off (fun _ => 0) (by omega)
    zero_le fun o low high => present o low (by omega) (by omega)
  refine ⟨r, out, fun alloc => ?_, fun all inside => ?_⟩
  · show (if off > (k.itable ip).d.size ∨ (off + n) % 2 ^ 32 < off then _ else _ : Kern _) k = _
    rw [if_neg outside]
    show Xv6.readLoop alloc ip dst (if (off + n) % 2 ^ 32 > (k.itable ip).d.size then
      (k.itable ip).d.size - off else n) _ 0 off (fun _ => 0) k = _
    rw [← clipped]
    exact returns alloc
  rw [← whole]
  obtain ⟨count, bytes⟩ := exact fun i len fits => all i len (by omega)
  refine ⟨count, fun j lt => ?_⟩
  rw [bytes j lt, if_neg (by omega), Nat.sub_zero]

/-- `readi` of a range inside the file returns its bytes. -/
theorem Shown.readi (size : (k.itable ip).d.size < 2 ^ 32) (dst : Addr) (off : Nat) {n : Nat}
    (word : n < 2 ^ 32) (present : ∀ o, off ≤ o → o < off + n → o < (k.itable ip).d.size →
      E.ref (k.itable ip).inum (.block (o / BSIZE)) ≠ 0) :
    ∃ r out, (∀ alloc, Prog.Returns (readiWith alloc ip dst off n) (r, out) k) ∧
      ((∀ i len, dst.copied i len = len) → off + n ≤ (k.itable ip).d.size →
        r = n ∧ ∀ j < n, out j = (E.node (k.itable ip).inum).byte (off + j)) := by
  obtain ⟨r, out, returns, exact⟩ := shown.readi_clipped size dst off word present
  refine ⟨r, out, returns, fun all inside => ?_⟩
  have clipped : min n ((k.itable ip).d.size - off) = n := by omega
  rw [clipped] at exact
  exact exact (fun i len _ => all i len) (by omega)

end

theorem Loaded.size_lt (loaded : Loaded E k ip) : (k.itable ip).d.size < 2 ^ 32 := by
  have most := loaded.noHoles.size_le (k.itable ip).inum
  rw [Fs.node_of_alloc loaded.live, ← loaded.core] at most
  exact lt_of_le_of_lt most (by decide)

theorem Loaded.readi_clipped (loaded : Loaded E k ip) (dst : Addr) (off : Nat) {n : Nat}
    (word : n < 2 ^ 32) :
    ∃ r out, (∀ alloc, Prog.Returns (readiWith alloc ip dst off n) (r, out) k) ∧
      ((∀ i len, i + len ≤ n → dst.copied i len = len) → off + n < 2 ^ 32 →
        r = (min n ((k.itable ip).d.size - off) : Nat) ∧ ∀ j < min n ((k.itable ip).d.size - off),
          out j = (E.node (k.itable ip).inum).byte (off + j)) := by
  refine loaded.shown.readi_clipped loaded.size_lt dst off word fun o _ _ below => loaded.noHoles _ _ ?_
  rw [Fs.node_of_alloc loaded.live, ← loaded.core]
  exact lt_of_le_of_lt (Nat.div_mul_le_self o BSIZE) below

end Read

/-! ## Writing -/

section Write

variable {D : Nat → Block} {err : Panic → Prop} {E E' : Fs} {k : Kernel} {ip : Nat}

variable {F : Fs} {i : Nat} {sb : Superblock}

theorem Fs.Good.rewrite {S : Set Nat} {F' : Fs} (good : F.Good sb S)
    (rewrites : F.Rewrites i F') (owned : F'.Owned sb S) (range : ∀ i, (F'.inode i).InRange)
    (dir : (F'.node i).type = T_DIR → (F'.node i).DirOk sb.ninodes) : F'.Good sb S where
  owned := owned
  noHoles := rewrites.noHoles good.noHoles
  dirs := by
    intro j isDir
    by_cases eq : j = i
    · subst eq
      exact dir isDir
    rw [rewrites.other eq] at isDir ⊢
    exact good.dirs j isDir
  range := range

variable {bn : Nat} {x : Block}

theorem Fs.Good.setData {S : Set Nat} {a : Nat} (good : F.Good sb S)
    (here : F.ref i (.block bn) = a) (named : a ≠ 0)
    (dir : ((F.setData a x).node i).type = T_DIR → ((F.setData a x).node i).DirOk sb.ninodes) :
    (F.setData a x).Good sb S :=
  good.rewrite (good.owned.rewrites_setData here named)
    (good.owned.congr (Fs.ref_setData (good.owned.not_indirect here)) rfl) good.range dir

theorem Fs.Owned.loose_setData {S : Set Nat} {a c : Nat}
    (own : F.Owned sb S) (here : F.ref i (.block bn) = a) (loose : F.Loose S c) :
    (F.setData a x).Loose S c := by
  rcases loose with clear | mem | ⟨j, bn', notDir, other⟩
  · exact .inl clear
  · exact .inr (.inl mem)
  exact .inr (.inr ⟨j, bn', notDir, (Fs.ref_setData (own.not_indirect here) _ _).trans other⟩)

/-- A data block of the inode may be stored. -/
theorem Open.store (op : Open D ip E k) {a : Nat} (here : E.ref (k.itable ip).inum (.block bn) = a) (named : a ≠ 0)
    (few : k.log.lh.n < LOGSIZE) (room : k.log.lh.n + 1 < k.log.size)
    (dir : ((E.setData a x).node (k.itable ip).inum).type = T_DIR →
      ((E.setData a x).node (k.itable ip).inum).DirOk k.sb.ninodes) :
    Open D ip (E.setData a x) (k.store a x) := by
  obtain ⟨low, high⟩ := op.good.owned.area (here ▸ named)
  rw [here] at low high
  refine ⟨op.toOk.store_data low high few room (op.good.setData here named dir) ?_, op.valid,
    op.core, op.live⟩
  exact fun c _ _ _ loose => op.good.owned.loose_setData here loose

theorem Open.setBuf (op : Open D ip E k) {a : Nat}
    (here : E.ref (k.itable ip).inum (.block bn) = a) (named : a ≠ 0)
    (file : (E.inode (k.itable ip).inum).type ≠ T_DIR) :
    Open D ip (E.setData a x) (k.setBuf a x) := by
  obtain ⟨low, high⟩ := op.good.owned.area (here ▸ named)
  rw [here] at low high
  have fs : (k.setBuf a x).fs = k.fs.setData a x := Fs.ofBuf_setData op.wf low high
  have good : (E.setData a x).Good k.sb ∅ := by
    refine op.good.setData here named fun isDir => absurd isDir ?_
    rw [Fs.node_type]
    exact file
  refine ⟨⟨op.disk, op.wf, op.start, op.logSize, op.few, op.room, op.home, ?_, ?_, ?_, ?_, good,
    op.table, op.sync, op.alloc, op.unique, op.held⟩, op.valid, op.core, op.live⟩
  · intro c lowC highC absent
    by_cases eq : c = a
    · refine .inr (.inr (.inr ⟨(k.itable ip).inum, bn, file, ?_⟩))
      rw [Fs.ref_setData (op.good.owned.not_indirect here), here, eq]
    rw [Kernel.setBuf_buf, upd_ne eq]
    exact (op.tidy c lowC highC absent).imp id fun loose => op.good.owned.loose_setData here loose
  · rw [fs]
    exact op.used
  · rw [fs, Fs.setData_data, Fs.setData_data, op.data]
  intro i clean
  rw [fs]
  exact op.inode i clean

/-- What the loop of `writei` has done when it stops with the offset `off`. -/
structure Wrote (D : Nat → Block) (ip : Nat) (E : Fs) (k : Kernel) (off : Nat) (t : Kernel) (E' : Fs) :
    Prop where
  op : Open D ip E' t
  rewrites : E.Rewrites (k.itable ip).inum E'
  near : Near ip k t
  present : ∀ bn, bn * BSIZE < off → E'.ref (k.itable ip).inum (.block bn) ≠ 0

variable {off : Nat}

theorem Wrote.after {k₁ t : Kernel} {E₁ : Fs} (rewrites : E.Rewrites (k.itable ip).inum E₁)
    (near : Near ip k k₁) (wrote : Wrote D ip E₁ k₁ off t E') : Wrote D ip E k off t E' := by
  obtain ⟨op, rewrites', near', present⟩ := wrote
  rw [near.inum] at rewrites' present
  exact ⟨op, rewrites.trans rewrites', near.trans near', present⟩

/-- The blocks that are logged to write `left` bytes at `off`, apart from the indirect block
and its bitmap block: each block and its bitmap block, but a block that is written
from its middle on is there already. -/
def logNeed (off left : Nat) : Nat :=
  if left = 0 then 0
  else 2 * ((off % BSIZE + left + (BSIZE - 1)) / BSIZE) - if off % BSIZE = 0 then 0 else 1

theorem logNeed_step {left m : Nat} (more : 0 < left) (round : m = min left (BSIZE - off % BSIZE)) :
    logNeed (off + m) (left - m) + (if off % BSIZE = 0 then 2 else 1) ≤ logNeed off left := by
  unfold logNeed
  rw [if_neg more.ne']
  simp only [BSIZE] at round ⊢
  split_ifs <;> omega

/-- A copy does not take more than it is asked for. -/
theorem UserMem.copied_le (mem : UserMem) (va len : Nat) : mem.copied va len ≤ len := by
  unfold copied
  rcases found : (List.range len).find? fun i => !mem.mapped ((va + i) / PGSIZE) with - | i
  · exact le_refl len
  exact (List.mem_range.mp (List.mem_of_find?_eq_some found)).le

theorem Addr.copied_le (src : Addr) (i len : Nat) : src.copied i len ≤ len := by
  cases src with
  | kernel byte => exact le_refl len
  | user mem va => exact mem.copied_le (va + i) len

/-- Byte `j` of the range can be copied. -/
def Addr.holds : Addr → Nat → Bool
  | .kernel _, _ => true
  | .user mem va, j => mem.mapped ((va + j) / PGSIZE)

/-- A copy stops at the first byte that cannot be copied. -/
theorem Addr.copied_iff (src : Addr) {i len c : Nat} : src.copied i len = c ↔
    (∀ j < c, src.holds (i + j) = true) ∧ (c = len ∨ c < len ∧ src.holds (i + c) = false) := by
  have stops : (∀ j < src.copied i len, src.holds (i + j) = true) ∧
      (src.copied i len = len ∨ src.copied i len < len ∧ src.holds (i + src.copied i len) = false) := by
    cases src with
    | kernel byte => exact ⟨fun _ _ => rfl, .inl rfl⟩
    | user mem va =>
      simp only [copied, UserMem.copied, holds]
      rcases found : (List.range len).find? fun j => !mem.mapped ((va + i + j) / PGSIZE) with - | c
      · refine ⟨fun j low => ?_, .inl rfl⟩
        have mapped := List.find?_eq_none.mp found j (List.mem_range.mpr low)
        rw [← add_assoc]
        simpa using mapped
      · obtain ⟨missing, below, before⟩ := List.find?_range_eq_some.mp found
        simp only [← add_assoc]
        exact ⟨fun j low => by simpa using before j low,
          .inr ⟨List.mem_range.mp below, by simpa using missing⟩⟩
  constructor
  · rintro rfl
    exact stops
  rintro ⟨before, last⟩
  -- both stop at the first byte that is missing
  rcases lt_trichotomy (src.copied i len) c with less | same | more
  · rcases stops.2 with all | ⟨-, missing⟩
    · omega
    · rw [before _ less] at missing
      cases missing
  · exact same
  rcases last with rfl | ⟨-, missing⟩
  · exact absurd more (Nat.not_lt.mpr (src.copied_le i c))
  rw [stops.1 _ more] at missing
  cases missing

theorem Bytes.write_zero {size : Nat} (b : Bytes size) (off : Nat) (f : Nat → UInt8) :
    b.write off 0 f = b := by
  funext j
  refine if_neg fun inside => ?_
  omega

/-- Why the loop of `writei` stopped after `tot` bytes, at `off`; the last copy left `c` bytes
in a buffer that it did not log. -/
inductive WriteStop (src : Addr) (sb : Superblock) (i n tot off : Nat) (F : Fs) : Nat → Prop
  | done (all : tot = n) : WriteStop src sb i n tot off F 0
  | full (full : F.Full sb) (past : (F.node i).size ≤ off) : WriteStop src sb i n tot off F 0
  | fault (short : src.copied tot (min (n - tot) (BSIZE - off % BSIZE)) <
      min (n - tot) (BSIZE - off % BSIZE)) :
      WriteStop src sb i n tot off F (src.copied tot (min (n - tot) (BSIZE - off % BSIZE)))

/-- How far the loop of `writei` came from `tot` and `off`, and what it wrote. -/
structure Advanced (src : Addr) (n : Nat) (E : Fs) (k : Kernel) (i tot off : Nat) (r : Nat × Nat)
    (t : Kernel) (E' : Fs) : Prop where
  low : tot ≤ r.1
  high : r.1 ≤ n
  offset : r.2 = off + (r.1 - tot)
  logs : Logs (indirectDue E k i + logNeed off (n - tot)) 0 k t
  logged : ∀ o, off ≤ o → o < r.2 → E'.ref i (.block (o / BSIZE)) ∈ t.log.lh.entries
  read : ∀ j, tot ≤ j → j < r.1 → src.holds j = true
  start : r.1 = tot ∨ r.1 = n ∨ r.2 % BSIZE = 0
  stop : ∃ c, WriteStop src k.sb i n r.1 r.2 E' c ∧ (∀ o, (E'.node i).byte o =
      if off ≤ o ∧ o < r.2 + c then src.byte (tot + (o - off)) else (E.node i).byte o) ∧
    (c = 0 → ∀ b, b ∉ t.log.lh.entries → t.buf b = k.buf b)

theorem Advanced.stay {src : Addr} {n tot : Nat} {E₁ : Fs} {k₁ : Kernel} (low : tot ≤ n)
    (node : E₁.node = E.node) (spends : Spends (indirectDue E k i + logNeed off (n - tot)) 0 k k₁)
    (stop : WriteStop src k.sb i n tot off E₁ 0) : Advanced src n E k i tot off (tot, off) k₁ E₁ where
  low := le_refl _
  high := low
  offset := by rw [Nat.sub_self, add_zero]
  logs := spends.toLogs
  logged o lowO highO := absurd highO (Nat.not_lt.mpr lowO)
  read j lowJ highJ := absurd highJ (Nat.not_lt.mpr lowJ)
  start := .inl rfl
  stop := by
    refine ⟨0, stop, fun o => ?_, fun _ => spends.changed⟩
    rw [node, if_neg]
    rintro ⟨lowO, highO⟩
    exact absurd highO (Nat.not_lt.mpr lowO)

/-- One more round before the others. -/
theorem Advanced.before {src : Addr} {n tot m : Nat} {r : Nat × Nat} {E₂ : Fs} {k₂ t : Kernel}
    (spends : Spends (indirectDue E k i + logNeed off (n - tot))
      (indirectDue E₂ k₂ i + logNeed (off + m) (n - (tot + m))) k k₂)
    (sb : k₂.sb = k.sb) (here : E₂.ref i (.block (off / BSIZE)) ∈ k₂.log.lh.entries)
    (named : E₂.ref i (.block (off / BSIZE)) ≠ 0)
    (ref : ∀ {s}, E₂.ref i s ≠ 0 → E'.ref i s = E₂.ref i s)
    (round : m = min (n - tot) (BSIZE - off % BSIZE))
    (copied : src.copied tot m = m) (byte : ∀ o, (E₂.node i).byte o =
      if off ≤ o ∧ o < off + m then src.byte (tot + (o - off)) else (E.node i).byte o)
    (rest : Advanced src n E₂ k₂ i (tot + m) (off + m) r t E') : Advanced src n E k i tot off r t E' where
  low := by
    have low := rest.low
    omega
  high := rest.high
  offset := by
    have low := rest.low
    rw [rest.offset]
    omega
  logs := spends.toLogs.trans rest.logs
  logged o low high := by
    by_cases first : o < off + m
    · have block : o / BSIZE = off / BSIZE := by
        simp only [BSIZE] at round ⊢
        omega
      rw [block, ref named]
      exact rest.logs.old _ here
    exact rest.logged o (Nat.le_of_not_lt first) high
  read j low high := by
    by_cases first : j < tot + m
    · have held := (src.copied_iff.mp copied).1 (j - tot) (by omega)
      rwa [Nat.add_sub_cancel' low] at held
    exact rest.read j (Nat.le_of_not_lt first) high
  start := by
    have low := rest.low
    have high := rest.high
    have offset := rest.offset
    have start := rest.start
    simp only [BSIZE] at round start ⊢
    omega
  stop := by
    obtain ⟨c, stop, bytes, changed⟩ := rest.stop
    rw [sb] at stop
    refine ⟨c, stop, fun o => ?_, fun zero b absent => ?_⟩
    · have low := rest.low
      have offset := rest.offset
      rw [bytes, byte]
      by_cases before : off + m ≤ o
      · by_cases after : o < r.2 + c
        · rw [if_pos ⟨before, after⟩, if_pos ⟨by omega, after⟩]
          congr 1
          omega
        rw [if_neg fun h => after h.2, if_neg (by omega), if_neg fun h => after h.2]
      rw [if_neg fun h => before h.1]
      by_cases inner : off ≤ o
      · rw [if_pos ⟨inner, by omega⟩, if_pos ⟨inner, by omega⟩]
      rw [if_neg fun h => inner h.1, if_neg fun h => inner h.1]
    exact (changed zero b absent).trans (spends.changed b fun mem => absent (rest.logs.old b mem))

/-- `bmap` returns 0 only for a block that the inode does not have. -/
theorem Open.bmap_absent (op : Open D ip E k) {bn : Nat} (reach : Stops err ∨ bn < MAXFILE)
    (admits : Admits err k (indirectDue E k (k.itable ip).inum + slotDue E (k.itable ip).inum (.block bn))) :
    wp (Calm D) err (bmap ip bn) (fun a t => (∃ E', Mapped D ip E k (.block bn) a t E') ∧
      (a = 0 → E.ref (k.itable ip).inum (.block bn) = 0)) k := by
  have run := bmap_wp op reach admits
  by_cases missing : E.ref (k.itable ip).inum (.block bn) = 0
  · exact run.mono fun _ _ mapped => ⟨mapped, fun _ => missing⟩
  have found : Prog.Returns (bmap ip bn) _ k :=
    (op.toOk.loaded op.core op.live).shown.bmapWith missing balloc
  unfold Prog.wp at run ⊢
  rw [show bmap ip bn k = _ from found] at run ⊢
  exact ⟨run.1, run.2, fun zero => absurd zero missing⟩

/-- The rule for the loop of `writei`, by induction on the rounds that are left. -/
theorem writeLoop_wp (src : Addr) (n : Nat) (fuel : Nat) :
    ∀ {E : Fs} {k : Kernel} {tot off : Nat}, Open D ip E k →
      (E.inode (k.itable ip).inum).type ≠ T_DIR →
      (∀ bn, bn * BSIZE < off → E.ref (k.itable ip).inum (.block bn) ≠ 0) →
      tot ≤ n → n - tot ≤ fuel → (Stops err ∨ off + (n - tot) ≤ MAXFILE * BSIZE) →
      Admits err k (indirectDue E k (k.itable ip).inum + logNeed off (n - tot)) →
      wp (Calm D) err (writeLoop ip src n fuel tot off) (fun r t => ∃ E', Wrote D ip E k r.2 t E' ∧
          Advanced src n E k (k.itable ip).inum tot off r t E') k := by
  induction fuel with
  | zero =>
    intro E k tot off op _ present low enough _ _
    refine wp_pure ⟨E, ⟨op, (Fs.Grows.refl E).rewrites _, .refl ip k, present⟩, ?_⟩
    exact Advanced.stay low rfl ((Spends.refl k 0).mono zero_le) (.done (by omega))
  | succ fuel ih =>
    intro E k tot off op file present low enough reach admits
    have stay : Wrote D ip E k off k E := ⟨op, (Fs.Grows.refl E).rewrites _, .refl ip k, present⟩
    rw [writeLoop]
    split
    swap
    · rename_i last
      refine wp_pure ⟨E, stay, ?_⟩
      exact Advanced.stay low rfl ((Spends.refl k 0).mono zero_le) (.done (by omega))
    rename_i more
    obtain ⟨m, round⟩ : ∃ m, m = min (n - tot) (BSIZE - off % BSIZE) := ⟨_, rfl⟩
    have rest : off % BSIZE < BSIZE := Nat.mod_lt _ (by decide)
    have need : logNeed (off + m) (n - tot - m) + (if off % BSIZE =
        0 then 2 else 1) ≤ logNeed off (n - tot) :=
      logNeed_step (by omega) round
    -- a block that is written from its middle on is present
    have due : slotDue E (k.itable ip).inum (.block (off / BSIZE)) ≤
        if off % BSIZE = 0 then 2 else 0 := by
      unfold slotDue
      split
      · rename_i missing
        rw [if_pos]
        by_contra middle
        refine present (off / BSIZE) ?_ missing
        simp only [BSIZE] at middle ⊢
        omega
      exact zero_le
    have due' : slotDue E (k.itable ip).inum (.block (off / BSIZE)) ≤ logNeed off (n - tot) := by
      refine due.trans (le_trans ?_ need)
      split <;> omega
    refine wp_seq _ (op.bmap_absent ?_ (admits.mono (by omega))) ?_
    · refine reach.imp_right fun below => ?_
      simp only [MAXFILE, NDIRECT, NINDIRECT, BSIZE] at below ⊢
      omega
    rintro a k₁ ⟨⟨E₁, op₁, grows, near, slot, -, full, fresh, spends₁⟩, absent⟩
    have present₁ : ∀ bn, bn * BSIZE < off → E₁.ref (k.itable ip).inum (.block bn) ≠ 0 := by
      intro bn below
      have named := present bn below
      rwa [grows.ref named]
    split
    · rename_i zero
      refine wp_pure ⟨E₁, ⟨op₁, grows.rewrites _, near, present₁⟩, ?_⟩
      refine Advanced.stay low grows.node (spends₁.mono (by omega)) (.full (full zero) ?_)
      rw [grows.node]
      by_contra inside
      refine op.good.noHoles _ _ ?_ (absent zero)
      exact (Nat.div_mul_le_self off BSIZE).trans_lt (Nat.lt_of_not_le inside)
    rename_i named
    have here := slot named
    have file₁ : (E₁.inode (k₁.itable ip).inum).type ≠ T_DIR := by
      rw [near.inum, ← Fs.node_type, grows.node, Fs.node_type]
      exact file
    rw [← near.inum] at here
    obtain ⟨lowA, highA⟩ := op₁.good.owned.area (here ▸ named)
    rw [here] at lowA highA
    rw [wp_bread_bind, ← round]
    obtain ⟨x, stored⟩ : ∃ x, x = (k₁.buf a).write (off % BSIZE) (src.copied tot m)
        fun i => src.byte (tot + i) := ⟨_, rfl⟩
    have rewrites : E.Rewrites (k.itable ip).inum (E₁.setData a x) := by
      refine (grows.rewrites _).trans ?_
      rw [← near.inum]
      exact op₁.good.owned.rewrites_setData here named
    have same : ∀ s, (E₁.setData a x).ref (k.itable ip).inum s = E₁.ref (k.itable ip).inum s := by
      intro s
      exact Fs.ref_setData (op₁.good.owned.not_indirect here) _ _
    have present₂ : ∀ bn, bn * BSIZE < off + m →
        (E₁.setData a x).ref (k₁.itable ip).inum (.block bn) ≠ 0 := by
      intro bn below
      rw [near.inum, same]
      by_cases last : bn = off / BSIZE
      · rw [last, ← near.inum, here]
        exact named
      refine present₁ bn ?_
      simp only [BSIZE] at last below round ⊢
      omega
    have byte : ∀ len, len ≤ m → src.copied tot m = len →
        ∀ o, ((E₁.setData a x).node (k.itable ip).inum).byte o =
          if off ≤ o ∧ o < off + len then src.byte (tot + (o - off))
          else (E.node (k.itable ip).inum).byte o := by
      intro len most copied o
      have block : off / BSIZE * BSIZE + off % BSIZE = off := Nat.div_add_mod' _ _
      rw [stored, op₁.buf_eq lowA highA, copied, ← near.inum,
        op₁.good.owned.write_node here named (by omega), block, grows.node]
    simp only [← stored, wp_setBuf_bind]
    refine ⟨op₁.toOk.calm_data lowA highA, ?_⟩
    split
    · rename_i short
      have nearBuf : Near ip k₁ (k₁.setBuf a x) := Near.of_itable ⟨rfl, rfl, rfl, rfl, rfl⟩ rfl
      refine wp_pure ⟨E₁.setData a x, ⟨op₁.setBuf here named file₁, rewrites,
        near.trans nearBuf, fun bn below => ?_⟩, ?_⟩
      · rw [← near.inum]
        exact present₂ bn (by omega)
      have logs : Logs (indirectDue E k (k.itable ip).inum + logNeed off (n - tot)) 0 k k₁ :=
        spends₁.toLogs.mono (by omega)
      refine ⟨le_refl _, low, by rw [Nat.sub_self, add_zero], { logs with },
        fun o lowO highO => absurd highO (Nat.not_lt.mpr lowO),
        fun j lowJ highJ => absurd highJ (Nat.not_lt.mpr lowJ), .inl rfl, ?_⟩
      refine ⟨_, .fault (by rw [← round]; exact short), ?_, fun zero b absent => ?_⟩
      · rw [← round]
        exact byte _ short.le rfl
      rw [← round] at zero
      rw [zero, Bytes.write_zero] at stored
      rw [stored, Kernel.setBuf_buf, upd_eq_self]
      exact spends₁.changed b absent
    rename_i whole
    have copied : src.copied tot m = m := by
      have most := src.copied_le tot m
      omega
    have admits₁ := (spends₁.frame (logNeed off (n - tot) -
      slotDue E (k.itable ip).inum (.block (off / BSIZE)))).admits (admits.mono (by omega))
    refine wp_seq _ (logWrite_wp ((admits₁.mono zero_le).setBuf a x)
      ((op₁.toOk.calm_data lowA highA).setLog _)) ?_
    rintro _ _ ⟨rfl, few, room⟩
    have op₂ : Open D ip (E₁.setData a x) (k₁.store a x) := by
      refine op₁.store here named few room fun isDir => absurd isDir ?_
      rw [Fs.node_type]
      exact file₁
    have less := op₁.toOk.indirectDue_le (t := k₁.store a x) (k.itable ip).inum (fun _ => same _)
      (Spends.store k₁ a x).old
    -- a new block is logged already, another one is logged here
    have stores : Spends (if off % BSIZE = 0 then 2 else 1)
        (slotDue E (k.itable ip).inum (.block (off / BSIZE))) k₁ (k₁.store a x) := by
      by_cases missing : E.ref (k.itable ip).inum (.block (off / BSIZE)) = 0
      · have aligned : off % BSIZE = 0 := by
          by_contra middle
          rw [slotDue, if_pos missing, if_neg middle] at due
          omega
        refine (Spends.absorb x (fresh missing named)).mono ?_
        rw [slotDue, if_pos missing, if_pos aligned]
      refine (Spends.store k₁ a x).mono ?_
      rw [slotDue, if_neg missing]
      split <;> omega
    have spends : Spends (indirectDue E k (k.itable ip).inum + logNeed off (n - tot))
        (indirectDue (E₁.setData a x) (k₁.store a x) (k.itable ip).inum +
          logNeed (off + m) (n - (tot + m))) k (k₁.store a x) := by
      rw [Nat.sub_add_eq]
      have first := spends₁.toLogs.count
      have second := stores.toLogs.count
      exact ⟨⟨fun b mem => stores.old b (spends₁.old b mem), by omega,
        stores.running.trans spends₁.running, stores.size.trans spends₁.size⟩, fun b absent =>
          (stores.changed b absent).trans (spends₁.changed b fun mem => absent (stores.old b mem))⟩
    have near₂ : Near ip k (k₁.store a x) := near.trans (Near.of_itable (Frame.store ..) rfl)
    have inum : ((k₁.store a x).itable ip).inum = (k.itable ip).inum := near₂.inum
    refine (ih op₂ file₁ present₂ (by omega) (by omega) ?_ ?_).mono ?_
    · exact reach.imp_right fun below => by omega
    · rw [inum]
      exact spends.admits admits
    rintro r t ⟨E', wrote, advanced⟩
    rw [inum] at advanced
    refine ⟨E', wrote.after rewrites near₂,
      Advanced.before spends near₂.sb ?_ ?_ ?_ ?_ ?_ ?_ advanced⟩
    · rw [same, ← near.inum, here]
      exact LogHeader.mem_entries_put.mpr (.inr rfl)
    · rw [same, ← near.inum, here]
      exact named
    · intro s named'
      have ref := wrote.rewrites.ref (j := (k.itable ip).inum) (s := s) named'
      exact ref
    · exact round
    · exact copied
    exact byte m (le_refl m) copied

/-- Only inode `i` changed, and only in its size and contents. -/
structure Fs.Fills (i : Nat) (F F' : Fs) : Prop where
  other : ∀ {j}, j ≠ i → F'.node j = F.node j
  same : ∃ size byte, F'.node i = { F.node i with size, byte }

theorem Fs.Rewrites.fills {F' : Fs} (rewrites : F.Rewrites i F') : F.Fills i F' :=
  ⟨rewrites.other, _, _, rewrites.same⟩

theorem Fs.Loose.setInode {S : Set Nat} {b : Nat} {d : Dinode} (loose : F.Loose S b)
    (type : d.type = (F.inode i).type) (addrs : d.addrs = (F.inode i).addrs) :
    (F.setInode i d).Loose S b := by
  rcases loose with clear | mem | ⟨j, bn, notDir, named⟩
  · exact .inl clear
  · exact .inr (.inl mem)
  refine .inr (.inr ⟨j, bn, ?_, ?_⟩)
  · by_cases eq : j = i
    · subst eq
      rwa [Fs.setInode_inode, upd_self, type]
    rwa [Fs.setInode_inode, upd_ne eq]
  rw [Fs.ref_setInode (by rw [type]) addrs, named]

theorem Open.setFields (op : Open D ip E k) {d : Dinode} (type : d.type = (E.inode (k.itable ip).inum).type)
    (addrs : d.addrs = (E.inode (k.itable ip).inum).addrs) (range : d.InRange)
    (present : ∀ bn, bn * BSIZE < d.size → E.ref (k.itable ip).inum (.block bn) ≠ 0)
    (dir : d.type = T_DIR → ((E.setInode (k.itable ip).inum d).node (k.itable ip).inum).DirOk k.sb.ninodes) :
    Open D ip (E.setInode (k.itable ip).inum d) (k.setInode ip { k.itable ip with d }) := by
  have live : d.type ≠ 0 := type ▸ op.live
  have ref := Fs.ref_setInode (F := E) (i := (k.itable ip).inum) (d := d) (by rw [type]) addrs
  refine op.assign live ⟨op.good.owned.congr ref rfl, ?_, ?_,
    ?_⟩ fun b _ loose => loose.setInode type addrs
  · intro j bn below
    rw [ref]
    by_cases eq : j = (k.itable ip).inum
    · subst eq
      rw [Fs.node_setInode live op.live addrs] at below
      exact present bn below
    rw [Fs.node_setInode_of_ne eq] at below
    exact op.good.noHoles j bn below
  · intro j isDir
    by_cases eq : j = (k.itable ip).inum
    · subst eq
      rw [Fs.node_type, Fs.setInode_inode, upd_self] at isDir
      exact dir isDir
    rw [Fs.node_setInode_of_ne eq] at isDir ⊢
    exact op.good.dirs j isDir
  intro j
  by_cases eq : j = (k.itable ip).inum
  · rw [eq, Fs.setInode_inode, upd_self]
    exact range
  rw [Fs.setInode_inode, upd_ne eq]
  exact op.good.range j

theorem Open.iupdate (stops : Stops err) (op : Open D ip E k) :
    wp (Calm D) err (iupdate ip) (fun _ t => Clean D E t ∧ Frame k t ∧ t.itable = k.itable) k := by
  refine (iupdate_wp (.inl stops) op.toOk op.core).mono ?_
  rintro _ t ⟨ok, fs, frame, itable, -⟩
  refine ⟨ok.close fs fun _ => ?_, frame, itable⟩
  rw [itable]
  exact ⟨op.core, op.live⟩

theorem Open.calm_setInode (op : Open D ip E k) (d : Dinode) :
    Calm D (k.setInode ip { k.itable ip with d }) :=
  op.toOk.calm.setInode (op.held ip rfl).2

/-- What a function that works on the locked inode `ip` leaves. -/
structure Worked (D : Nat → Block) (ip : Nat) (k t : Kernel) (E' : Fs) : Prop where
  clean : Clean D E' t
  near : Near ip k t

/-- The size and the inode after the loop of `writei`. -/
theorem Wrote.finish (stops : Stops err) {t : Kernel} {tot : Nat} (wrote : Wrote D ip E k off t E')
    (dir : (E'.inode (k.itable ip).inum).size < off → (E'.inode (k.itable ip).inum).type = T_DIR →
      ((E'.setInode (k.itable ip).inum { E'.inode (k.itable ip).inum with size := off }).node
        (k.itable ip).inum).DirOk k.sb.ninodes) :
    wp (Calm D) err (do
        if off > (← inode ip).d.size then setDinode ip fun d => { d with size := off }
        iupdate ip
        return (tot : Int) : Kern Int)
      (fun r u => r = tot ∧ ∃ E'', Worked D ip k u E'' ∧ (E'' = E' ∧ off ≤ (E'.inode (k.itable ip).inum).size ∨
          (E'.inode (k.itable ip).inum).size < off ∧
            E'' = E'.setInode (k.itable ip).inum { E'.inode (k.itable ip).inum with size := off })) t := by
  obtain ⟨op, rewrites, near, present⟩ := wrote
  rw [← near.inum, ← near.sb] at dir
  rw [← near.inum] at present ⊢
  simp only [wp_inode_bind]
  have size : (t.itable ip).d.size = (E'.inode (t.itable ip).inum).size := by rw [op.core]
  split
  swap
  · rename_i shorter
    rw [size] at shorter
    refine wp_seq _ (op.iupdate stops) ?_
    rintro _ u ⟨clean, frame, itable⟩
    exact wp_pure ⟨rfl, _, ⟨clean, near.trans (Near.of_itable frame itable)⟩,
      Or.inl ⟨rfl, Nat.le_of_not_lt shorter⟩⟩
  rename_i longer
  rw [size] at longer
  have most : off ≤ MAXFILE * BSIZE := by
    by_contra long
    have named := present MAXFILE (Nat.lt_of_not_le long)
    exact absurd (Fs.entry_lt_of_ref (j := NINDIRECT) named) (lt_irrefl _)
  have range : ({ E'.inode (t.itable ip).inum with size := off } : Dinode).InRange := by
    obtain ⟨type, major, minor, nlink, -, addrs⟩ := op.good.range (t.itable ip).inum
    exact ⟨type, major, minor, nlink, lt_of_le_of_lt most (by decide), addrs⟩
  simp only [wp_setDinode_bind]
  refine ⟨op.calm_setInode _, ?_⟩
  rw [op.core]
  have op' := op.setFields (d := { E'.inode (t.itable ip).inum with size := off }) rfl rfl range
    present (dir longer)
  refine wp_seq _ (op'.iupdate stops) ?_
  rintro _ u ⟨clean, frame, itable⟩
  refine wp_pure ⟨rfl, _, ⟨clean, ?_⟩, .inr ⟨longer, rfl⟩⟩
  exact (near.trans (Near.setInode t ip _)).trans (Near.of_itable frame itable)

theorem writei_file_wp (stops : Stops err) (ok : Clean D E k) (ref : 0 < (k.itable ip).ref)
    (valid : (k.itable ip).valid = true) (locked : (k.itable ip).locked = true)
    (file : (E.inode (k.itable ip).inum).type ≠ T_DIR) (src : Addr) (off n : Nat) :
    wp (Calm D) err (writei ip src off n)
      (fun _ t => ∃ E', Worked D ip k t E' ∧ E.Fills (k.itable ip).inum E') k := by
  have op := ok.open ref valid locked
  have stay : ∃ E', Worked D ip k k E' ∧ E.Fills (k.itable ip).inum E' :=
    ⟨E, ⟨ok, .refl ip k⟩, fun _ => rfl, _, _, rfl⟩
  simp only [writei, wp_inode_bind]
  split
  · exact wp_pure stay
  rename_i inside
  split
  · exact wp_pure stay
  have present : ∀ bn, bn * BSIZE < off → E.ref (k.itable ip).inum (.block bn) ≠ 0 := by
    intro bn below
    refine op.good.noHoles _ bn ?_
    rw [Fs.node_of_alloc op.live, ← op.core]
    show bn * BSIZE < (k.itable ip).d.size
    omega
  refine wp_seq _ (writeLoop_wp src n n op file present zero_le (Nat.sub_le n 0)
    (.inl stops) (.inl stops)) ?_
  rintro ⟨tot, off'⟩ t ⟨E', wrote, -⟩
  have file' : (E'.inode (k.itable ip).inum).type ≠ T_DIR := by
    rw [← Fs.node_type, wrote.rewrites.type, Fs.node_type]
    exact file
  refine (wrote.finish stops fun _ isDir => absurd isDir file').mono ?_
  rintro _ u ⟨-, E'', worked, ⟨rfl, -⟩ | ⟨-, rfl⟩⟩
  · exact ⟨E'', worked, wrote.rewrites.fills⟩
  have fills := wrote.rewrites.fills
  have live : (E'.inode (k.itable ip).inum).type ≠ 0 := by
    rw [← Fs.node_type, wrote.rewrites.type, Fs.node_type]
    exact op.live
  refine ⟨_, worked, fun ne => ?_, ?_⟩
  · rw [Fs.node_setInode_of_ne ne]
    exact fills.other ne
  refine ⟨off', (E'.node (k.itable ip).inum).byte, ?_⟩
  rw [Fs.node_setSize live, wrote.rewrites.same]

end Write

/-! ## Truncation -/

section Truncate

variable {D : Nat → Block} {err : Panic → Prop} {E : Fs} {k : Kernel} {ip : Nat}

/-- The inode after the first `n` addresses are cleared. -/
def Dinode.clearUpto (d : Dinode) (n : Nat) : Dinode :=
  { d with addrs := fun j => if j.val < n then 0 else d.addrs j }

theorem Dinode.clearUpto_zero (d : Dinode) : d.clearUpto 0 = d := rfl

theorem Dinode.clearUpto_setAddr (d : Dinode) (n : Nat) :
    (d.clearUpto n).setAddr n 0 = d.clearUpto (n + 1) := by
  unfold clearUpto setAddr
  congr 1
  funext j
  dsimp only
  split
  · rw [if_pos (by omega)]
  by_cases lt : j.val < n
  · rw [if_pos lt, if_pos (by omega)]
  rw [if_neg lt, if_neg (by omega)]

variable {d : Dinode}

theorem Dinode.clearUpto_succ_of_zero {n : Nat} (zero : d.addr n = 0) :
    d.clearUpto (n + 1) = d.clearUpto n := by
  unfold clearUpto
  congr 1
  funext j
  by_cases eq : j.val = n
  · have here : d.addrs j = 0 := by
      rw [← zero, addr, dif_pos (eq ▸ j.isLt)]
      congr 1
      exact Fin.ext eq
    rw [if_pos (by omega), if_neg (by omega), here]
  by_cases lt : j.val < n
  · rw [if_pos lt, if_pos (by omega)]
  rw [if_neg lt, if_neg (by omega)]

theorem Dinode.addr_clearUpto (d : Dinode) {n j : Nat} (le : n ≤ j) :
    (d.clearUpto n).addr j = d.addr j := by
  unfold clearUpto addr
  split
  · exact if_neg (Nat.not_lt.mpr le)
  rfl

/-- An inode without blocks. -/
def Dinode.truncated (d : Dinode) : Dinode := { d with size := 0, addrs := fun _ => 0 }

theorem Dinode.clearUpto_all (d : Dinode) :
    ({ d.clearUpto (NDIRECT + 1) with size := 0 } : Dinode) = d.truncated := by
  ext1
  case addrs =>
    funext j
    exact if_pos j.isLt
  all_goals rfl

def Fs.blocks (F : Fs) (i : Nat) (P : Slot → Prop) : Set Nat :=
  {b | b ≠ 0 ∧ ∃ s, P s ∧ F.ref i s = b}

variable {s : Slot} {P : Slot → Prop}

theorem Fs.blocks_of_zero {F : Fs} {i : Nat} (zero : F.ref i s = 0) :
    F.blocks i (fun s' => P s' ∧ s' ≠ s) = F.blocks i P := by
  ext b
  constructor
  · rintro ⟨positive, s', ⟨sel, -⟩, named⟩
    exact ⟨positive, s', sel, named⟩
  rintro ⟨positive, s', sel, named⟩
  refine ⟨positive, s', ⟨sel, fun eq => positive ?_⟩, named⟩
  rw [← named, eq, zero]

theorem Fs.Owned.blocks_erase {F : Fs} {sb : Superblock} {S : Set Nat} (own : F.Owned sb S)
    {i : Nat} :
    F.blocks i P \ {F.ref i s} = F.blocks i (fun s' => P s' ∧ s' ≠ s) := by
  ext b
  constructor
  · rintro ⟨⟨positive, s', sel, rfl⟩, ne⟩
    exact ⟨positive, s', ⟨sel, fun eq => ne (by rw [eq]; rfl)⟩, rfl⟩
  rintro ⟨positive, s', ⟨sel, ne⟩, rfl⟩
  exact ⟨⟨positive, s', sel, rfl⟩, fun eq => ne (own.distinct positive eq).2⟩

/-- In the middle of `itrunc`: the inode is seen without its blocks, of which those in
the slots that `P` selects are still to be freed. -/
structure Freeing (D : Nat → Block) (ip : Nat) (E : Fs) (k : Kernel) (P : Slot → Prop) (d : Dinode)
    (t : Kernel) : Prop where
  ok : ∃ used, Ok D (some ip) (E.blocks (k.itable ip).inum P)
    { E.setInode (k.itable ip).inum (k.itable ip).d.truncated with used } t
  frame : Frame k t
  itable : t.itable = upd k.itable ip { k.itable ip with d }

variable {t : Kernel}

/-- Free the block in one slot, if there is one. -/
theorem Freeing.free (stops : Stops err) (op : Open D ip E k) (freeing : Freeing D ip E k P d t)
    (sel : P s) (named : E.ref (k.itable ip).inum s ≠ 0) :
    wp (Calm D) err (bfree (E.ref (k.itable ip).inum s))
      (fun _ u => Freeing D ip E k (fun s' => P s' ∧ s' ≠ s) d u) t := by
  obtain ⟨⟨used, ok⟩, frame, itable⟩ := freeing
  refine (bfree_wp stops ok ⟨named, s, sel, rfl⟩).mono ?_
  rintro _ u ⟨ok', frame', itable', -⟩
  rw [op.good.owned.blocks_erase] at ok'
  exact ⟨⟨_, ok'⟩, frame.trans frame', itable'.trans itable⟩

section

variable (freeing : Freeing D ip E k P d t)
include freeing

theorem Freeing.skip (zero : E.ref (k.itable ip).inum s = 0) :
    Freeing D ip E k (fun s' => P s' ∧ s' ≠ s) d t := by
  obtain ⟨ok, frame, itable⟩ := freeing
  refine ⟨?_, frame, itable⟩
  rwa [Fs.blocks_of_zero zero]

theorem Freeing.assign (d' : Dinode) :
    Freeing D ip E k P d' (t.setInode ip { t.itable ip with d := d' }) := by
  obtain ⟨⟨used, ok⟩, frame, itable⟩ := freeing
  have assigned := ok.setInode d' (t.itable ip).valid
  refine ⟨⟨used, assigned⟩, frame.trans ⟨rfl, rfl, rfl, rfl, rfl⟩, ?_⟩
  rw [Kernel.setInode_itable, itable, upd_self, upd_idem]

theorem Freeing.congr {P' : Slot → Prop}
    (same : ∀ s, E.ref (k.itable ip).inum s ≠ 0 → (P' s ↔ P s)) :
    Freeing D ip E k P' d t := by
  obtain ⟨ok, frame, itable⟩ := freeing
  have blocks : E.blocks (k.itable ip).inum P' = E.blocks (k.itable ip).inum P := by
    ext b
    constructor
    · rintro ⟨positive, s, sel, rfl⟩
      exact ⟨positive, s, (same s positive).mp sel, rfl⟩
    rintro ⟨positive, s, sel, rfl⟩
    exact ⟨positive, s, (same s positive).mpr sel, rfl⟩
  refine ⟨?_, frame, itable⟩
  rwa [blocks]

theorem Freeing.calm (op : Open D ip E k) (d' : Dinode) :
    Calm D (t.setInode ip { t.itable ip with d := d' }) := by
  obtain ⟨⟨used, ok⟩, frame, itable⟩ := freeing
  refine ok.calm.setInode ?_
  rw [itable, upd_self]
  exact (op.held ip rfl).2

end

theorem Fs.ref_truncated {F : Fs} {i : Nat} (d : Dinode) (i' : Nat) (s : Slot) :
    (F.setInode i d.truncated).ref i' s = if i' = i then 0 else F.ref i' s := by
  by_cases eq : i' = i
  swap
  · rw [if_neg eq, Fs.ref_setInode_of_ne eq]
  subst eq
  have inode : (F.setInode i' d.truncated).inode i' = d.truncated := upd_self ..
  have addr : ∀ j, d.truncated.addr j = 0 := by
    intro j
    unfold Dinode.addr
    split <;> rfl
  rw [if_pos rfl]
  by_cases free : ((F.setInode i' d.truncated).inode i').type = 0
  · exact Fs.ref_of_free free s
  cases s with
  | addr j => rw [Fs.ref_addr free, inode, addr]
  | entry j => exact Fs.ref_entry_of_zero (by rw [inode, addr]) j

theorem Fs.node_truncated {F : Fs} {i : Nat} (live : d.type ≠ 0) : (F.setInode i d.truncated).node i =
      { type := d.type, major := d.major, minor := d.minor, nlink := d.nlink, size := 0
        byte := fun _ => 0 } := by
  have inode : (F.setInode i d.truncated).inode i = d.truncated := upd_self ..
  have block : ∀ bn, (F.setInode i d.truncated).block i bn = Bytes.zero := by
    intro bn
    rw [Fs.block, Fs.ref_truncated, if_pos rfl, if_pos rfl]
  rw [Fs.node_of_alloc (by rw [inode]; exact live), inode]
  simp only [block, Bytes.byte_zero]
  rfl

theorem Open.freeing (op : Open D ip E k) : Freeing D ip E k (fun _ => True) (k.itable ip).d k := by
  have live : (k.itable ip).d.type ≠ 0 := op.core ▸ op.live
  have ref := Fs.ref_truncated (F := E) (i := (k.itable ip).inum) (k.itable ip).d
  have owned := op.good.owned.detach ref rfl
  have blocks : (∅ : Set Nat) ∪ {b | b ≠ 0 ∧ ∃ s, E.ref (k.itable ip).inum s = b} =
      E.blocks (k.itable ip).inum fun _ => True := by
    ext b
    simp [Fs.blocks]
  rw [blocks] at owned
  have good : (E.setInode (k.itable ip).inum (k.itable ip).d.truncated).Good k.sb
      (E.blocks (k.itable ip).inum fun _ => True) := by
    refine ⟨owned, fun j bn below => ?_, fun j isDir => ?_, fun j => ?_⟩
    · by_cases eq : j = (k.itable ip).inum
      · rw [eq, Fs.node_truncated live] at below
        exact absurd below (Nat.not_lt_zero _)
      rw [Fs.node_setInode_of_ne eq] at below
      rw [ref, if_neg eq]
      exact op.good.noHoles j bn below
    · by_cases eq : j = (k.itable ip).inum
      · rw [eq, Fs.node_truncated live]
        exact ⟨rfl, fun s below => absurd below (Nat.not_lt_zero _)⟩
      rw [Fs.node_setInode_of_ne eq] at isDir ⊢
      exact op.good.dirs j isDir
    by_cases eq : j = (k.itable ip).inum
    · rw [eq, Fs.setInode_inode, upd_self, op.core]
      obtain ⟨type, major, minor, nlink, -, -⟩ := op.good.range (k.itable ip).inum
      have zero : 0 < 4294967296 := by decide
      exact ⟨type, major, minor, nlink, zero, fun _ => zero⟩
    rw [Fs.setInode_inode, upd_ne eq]
    exact op.good.range j
  refine ⟨⟨E.used, op.toOk.setFs good fun b positive _ loose => ?_⟩, .refl k,
    (upd_eq_self ip k.itable).symm⟩
  rcases loose with clear | mem | ⟨j, bn, notDir, named⟩
  · exact .inl clear
  · exact absurd mem (Set.notMem_empty b)
  by_cases eq : j = (k.itable ip).inum
  · exact .inr (.inl ⟨positive, .block bn, trivial, eq ▸ named⟩)
  refine .inr (.inr ⟨j, bn, ?_, ?_⟩)
  · rwa [Fs.setInode_inode, upd_ne eq]
  rwa [ref, if_neg eq]

/-- The loop of `itrunc` over the indirect block. -/
theorem Freeing.freeEntries (stops : Stops err) (op : Open D ip E k)
    (sel : ∀ j, P (.entry j)) (freeing : Freeing D ip E k P d t) {a : Block}
    (entries : ∀ j, a.u32 (4 * j) = E.ref (k.itable ip).inum (.entry j)) :
    wp (Calm D) err (freeEntries a)
      (fun _ u => Freeing D ip E k (fun s => P s ∧ ∀ j < NINDIRECT, s ≠ .entry j) d u) t := by
  refine (Prog.wp_forRange (fun n u => Freeing D ip E k (fun s => P s ∧
    ∀ j < n, s ≠ .entry j) d u) ?_ ?_).mono
      fun _ u done => by rwa [zero_add] at done
  · exact freeing.congr fun s _ => ⟨fun h => h.1, fun h => ⟨h,
      fun j lt => absurd lt (Nat.not_lt_zero j)⟩⟩
  intro n u _ _ keep
  have next : ∀ s, ((P s ∧ ∀ j < n, s ≠ .entry j) ∧ s ≠ .entry n) ↔
      (P s ∧ ∀ j < n + 1, s ≠ .entry j) := by
    intro s
    rw [and_assoc, and_congr_right_iff]
    intro _
    simp only [Nat.lt_succ_iff_lt_or_eq]
    constructor
    · rintro ⟨below, here⟩ j (lt | rfl)
      · exact below j lt
      exact here
    exact fun h => ⟨fun j lt => h j (.inl lt), h n (.inr rfl)⟩
  rw [entries]
  split
  · rename_i named
    have fresh : P (.entry n) ∧ ∀ j < n, Slot.entry n ≠ .entry j :=
      ⟨sel n, fun j lt eq => absurd (Slot.entry.inj eq) (by omega)⟩
    refine (keep.free stops op fresh named).mono fun _ v freed => ?_
    exact freed.congr fun s _ => (next s).symm
  rename_i zero
  refine wp_pure ((keep.skip (not_not.mp zero)).congr fun s _ => (next s).symm)

/-- The loop of `itrunc` over the direct blocks. -/
theorem Open.freeDirect (stops : Stops err) (op : Open D ip E k) :
    wp (Calm D) err (Prog.forRange 0 NDIRECT fun i => do
        let addr := (← inode ip).d.addr i
        if addr ≠ 0 then
          bfree addr
          setDinode ip fun d => d.setAddr i 0 : Kern Unit)
      (fun _ t => Freeing D ip E k (fun s => ∀ j < NDIRECT, s ≠ .addr j)
        ((k.itable ip).d.clearUpto NDIRECT) t) k := by
  refine (Prog.wp_forRange
    (fun n t => Freeing D ip E k (fun s => ∀ j < n, s ≠ .addr j) ((k.itable ip).d.clearUpto n) t)
    ?_ ?_).mono fun _ u done => by rwa [zero_add] at done
  · rw [Dinode.clearUpto_zero]
    exact op.freeing.congr fun s _ => ⟨fun _ => trivial,
      fun _ j lt => absurd lt (Nat.not_lt_zero j)⟩
  intro n t _ _ keep
  have next : ∀ s, ((∀ j < n, s ≠ Slot.addr j) ∧ s ≠ .addr n) ↔ ∀ j < n + 1, s ≠ .addr j := by
    intro s
    simp only [Nat.lt_succ_iff_lt_or_eq]
    constructor
    · rintro ⟨below, here⟩ j (lt | rfl)
      · exact below j lt
      exact here
    exact fun h => ⟨fun j lt => h j (.inl lt), h n (.inr rfl)⟩
  have addr : (t.itable ip).d.addr n = E.ref (k.itable ip).inum (.addr n) := by
    rw [keep.itable, upd_self, Dinode.addr_clearUpto _ (le_refl n),
      Fs.ref_addr op.live, op.core]
  simp only [wp_inode_bind, addr]
  split
  · rename_i named
    have fresh : ∀ j < n, Slot.addr n ≠ .addr j := fun j lt eq => absurd (Slot.addr.inj eq)
      (by omega)
    refine wp_seq _ (keep.free stops op fresh named) fun _ u freed => ?_
    have self : (u.itable ip).d.setAddr n 0 = (k.itable ip).d.clearUpto (n + 1) := by
      rw [freed.itable, upd_self, Dinode.clearUpto_setAddr]
    refine Prog.wp_act (freed.calm op _) ?_
    rw [← self]
    exact (freed.assign _).congr fun s _ => (next s).symm
  rename_i zero
  have zero := not_not.mp zero
  rw [Fs.ref_addr op.live, ← op.core] at zero
  refine wp_pure ?_
  rw [Dinode.clearUpto_succ_of_zero zero]
  refine (keep.skip (s := .addr n) ?_).congr fun s _ => (next s).symm
  rw [Fs.ref_addr op.live, ← op.core, zero]

/-- The rule for `itrunc`: the file is empty, and its blocks are free. -/
theorem itrunc_wp (stops : Stops err) (op : Open D ip E k) :
    wp (Calm D) err (itrunc ip) (fun _ t => ∃ E', Clean D E' t ∧ Frame k t ∧
        t.itable = upd k.itable ip { k.itable ip with d := (k.itable ip).d.truncated } ∧
        E'.node = upd E.node (k.itable ip).inum
          { E.node (k.itable ip).inum with size := 0, byte := fun _ => 0 }) k := by
  -- what is left once all blocks are freed and all addresses are zero
  have rest : ∀ t, Freeing D ip E k (fun _ => False) ((k.itable ip).d.clearUpto (NDIRECT + 1)) t →
      wp (Calm D) err (do
          setDinode ip fun d => { d with size := 0 }
          iupdate ip : Kern Unit)
        (fun _ t => ∃ E', Clean D E' t ∧ Frame k t ∧
          t.itable = upd k.itable ip { k.itable ip with d := (k.itable ip).d.truncated } ∧
          E'.node = upd E.node (k.itable ip).inum
            { E.node (k.itable ip).inum with size := 0, byte := fun _ => 0 }) t := by
    intro t freeing
    rw [wp_setDinode_bind]
    refine ⟨freeing.calm op _, ?_⟩
    have cleared : ({ (t.itable ip).d with size := 0 } : Dinode) = (k.itable ip).d.truncated := by
      rw [freeing.itable, upd_self]
      exact Dinode.clearUpto_all _
    rw [cleared]
    obtain ⟨⟨used, ok⟩, frame, itable⟩ := freeing.assign (k.itable ip).d.truncated
    have none : E.blocks (k.itable ip).inum (fun _ => False) = ∅ := by
      ext b
      simp [Fs.blocks]
    rw [none] at ok
    have self := congrFun itable ip
    rw [upd_self] at self
    have live : (k.itable ip).d.type ≠ 0 := op.core ▸ op.live
    have core : ((t.setInode ip { t.itable ip with d := (k.itable ip).d.truncated }).itable ip).d =
        ({ E.setInode (k.itable ip).inum (k.itable ip).d.truncated with used } : Fs).inode
          ((t.setInode ip { t.itable ip with d := (k.itable ip).d.truncated }).itable ip).inum := by
      rw [self]
      exact (upd_self (k.itable ip).inum _ E.inode).symm
    refine (iupdate_wp (.inl stops) ok core).mono ?_
    rintro _ u ⟨ok', fs, frame', itable', -⟩
    refine ⟨_, ok'.close fs fun _ => ?_, frame.trans frame', itable'.trans itable, ?_⟩
    · rw [itable']
      refine ⟨core, ?_⟩
      rw [← core, self]
      exact live
    funext j
    show (E.setInode (k.itable ip).inum (k.itable ip).d.truncated).node j = _
    by_cases eq : j = (k.itable ip).inum
    · rw [eq, upd_self, Fs.node_truncated live, Fs.node_of_alloc op.live, op.core]
    rw [upd_ne eq, Fs.node_setInode_of_ne eq]
  rw [itrunc]
  refine wp_seq _ (op.freeDirect stops) ?_
  intro _ t direct
  have addr : (t.itable ip).d.addr NDIRECT = E.ref (k.itable ip).inum (.addr NDIRECT) := by
    rw [direct.itable, upd_self, Dinode.addr_clearUpto _ (le_refl _),
      Fs.ref_addr op.live, op.core]
  simp only [wp_inode_bind, addr]
  split
  · rename_i named
    obtain ⟨low, high⟩ := op.good.owned.area named
    have buf : t.buf (E.ref (k.itable ip).inum (.addr NDIRECT)) =
        E.data (E.ref (k.itable ip).inum (.addr NDIRECT)) := by
      obtain ⟨used, ok⟩ := direct.ok
      rw [← direct.frame.sb] at low high
      exact ok.buf_eq low high
    simp only [wp_bread_bind, buf]
    refine wp_seq _ (direct.freeEntries stops op (fun j i _ => nofun) fun j => ?_) ?_
    · rw [Fs.ref_addr op.live] at named ⊢
      exact (Fs.ref_entry op.live named j).symm
    intro _ u entries
    refine wp_seq _ (entries.free stops op (s := .addr NDIRECT) ⟨?_, fun j _ => nofun⟩ named) ?_
    · intro j lt eq
      exact absurd (Slot.addr.inj eq) (by omega)
    intro _ v freed
    rw [wp_setDinode_bind]
    refine ⟨freed.calm op _, rest _ ?_⟩
    have self : (v.itable ip).d.setAddr NDIRECT 0 = (k.itable ip).d.clearUpto (NDIRECT + 1) := by
      rw [freed.itable, upd_self, Dinode.clearUpto_setAddr]
    rw [self]
    refine (freed.assign _).congr fun s present => ⟨False.elim, ?_⟩
    rintro ⟨⟨direct, entry⟩, indirect⟩
    cases s with
    | addr j =>
      have last := Fs.addr_le_of_ref present
      by_cases lt : j < NDIRECT
      · exact direct j lt rfl
      exact indirect (congrArg Slot.addr (by omega))
    | entry j => exact entry j (Fs.entry_lt_of_ref present) rfl
  rename_i zero
  have zero := not_not.mp zero
  have none := zero
  rw [Fs.ref_addr op.live] at none
  refine rest t ?_
  rw [Dinode.clearUpto_succ_of_zero (by rw [op.core, none])]
  refine direct.congr fun s present => ⟨False.elim, fun direct => ?_⟩
  cases s with
  | addr j =>
    have last := Fs.addr_le_of_ref present
    by_cases lt : j < NDIRECT
    · exact direct j lt rfl
    have eq : j = NDIRECT := by omega
    exact present (eq ▸ zero)
  | entry j => exact present (Fs.ref_entry_of_zero none j)

end Truncate

end Xv6
