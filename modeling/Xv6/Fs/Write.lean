import Xv6.Lib.Blind
import Xv6.Fs.Runs

/-!
# Inodes as byte arrays

What `writei` and `readi` do to the contents of an inode of any type. The loop of
`writei` does not look at the type of the inode, so what is known of it for files
holds for directories, whose entries it may spoil.
-/

namespace Xv6

open Function renaming update → upd, update_self → upd_self, update_of_ne → upd_ne,
  update_idem → upd_idem, update_eq_self → upd_eq_self
open Prog (wp Blind)

/-! ## The loop does not look at the type -/

/-- Another type in the entry `ip` of the inode table. -/
def Kernel.retype (ip type : Nat) (k : Kernel) : Kernel :=
  k.setInode ip { k.itable ip with d := { (k.itable ip).d with type } }

section Types

variable {α : Type} {ip type : Nat}

theorem Kernel.retype_self (k : Kernel) :
    (k.retype ip type).itable ip = { k.itable ip with d := { (k.itable ip).d with type } } :=
  upd_self ..

theorem Kernel.retype_retype (k : Kernel) {type' : Nat} (before : (k.itable ip).d.type = type') :
    (k.retype ip type).retype ip type' = k := by
  have table : upd (upd k.itable ip
      { k.itable ip with d := { (k.itable ip).d with type } }) ip
        { k.itable ip with d := { (k.itable ip).d with type := type' } } = k.itable := by
    rw [upd_idem, ← before, upd_eq_self]
  unfold retype setInode
  simp only [upd_self, table]

theorem blind_bread (b : Nat) : Blind (Kernel.retype ip type) (bread b) := .get (fun _ => rfl) fun _ => .pure _

theorem blind_setBuf (b : Nat) (data : Block) : Blind (Kernel.retype ip type) (setBuf b data) := .act fun _ => rfl

theorem blind_logWrite (b : Nat) : Blind (Kernel.retype ip type) (logWrite b) := by
  refine .get (fun _ => rfl) fun k => ?_
  split
  · exact .fail _
  exact .act fun _ => rfl

theorem blind_update (b : Nat) (data : Block) : Blind (Kernel.retype ip type) (update b data) :=
  .bind (blind_setBuf b data) fun _ => blind_logWrite b

theorem blind_balloc : Blind (Kernel.retype ip type) balloc := by
  have loop : ∀ n b, Blind (Kernel.retype ip type) (ballocFrom n b) := by
    intro n
    induction n with
    | zero => exact fun _ => .pure _
    | succ n ih =>
      intro b
      refine .get (fun _ => rfl) fun k => .bind (blind_bread _) fun bp => ?_
      split
      · exact .bind (blind_update _ _) fun _ => .bind (blind_update _ _) fun _ => .pure _
      exact ih _
  exact .get (fun _ => rfl) fun _ => loop _ _

theorem blind_inode {next : Inode → Kern α}
    (same : ∀ k : Kernel, next ((k.retype ip type).itable ip) = next (k.itable ip))
    (rest : ∀ i, Blind (Kernel.retype ip type) (next i)) :
    Blind (Kernel.retype ip type) (inode ip >>= next) := by
  intro k
  show next ((k.retype ip type).itable ip) (k.retype ip type) =
    ⟨(next (k.itable ip) k).visited.map _, _⟩
  rw [same, rest _ k]
  rfl

theorem blind_setAddr (j a : Nat) :
    Blind (Kernel.retype ip type) (setDinode ip fun d => d.setAddr j a) := by
  refine .act fun k => ?_
  rw [Kernel.retype_self]
  unfold Kernel.retype Kernel.setInode
  simp only [upd_self, upd_idem]
  rfl

theorem blind_addrOrAlloc (j : Nat) : Blind (Kernel.retype ip type) (addrOrAlloc balloc ip j) := by
  refine blind_inode (fun k => ?_) fun i => ?_
  · rw [Kernel.retype_self]
    rfl
  dsimp only
  split
  · refine .bind blind_balloc fun a => ?_
    split
    · exact .pure _
    exact .bind (blind_setAddr j a) fun _ => .pure _
  exact .pure _

theorem blind_entryOrAlloc (b j : Nat) :
    Blind (Kernel.retype ip type) (entryOrAlloc balloc b j) := by
  refine .bind (blind_bread b) fun a => ?_
  split
  · refine .bind blind_balloc fun a => ?_
    split
    · exact .pure _
    exact .bind (blind_bread b) fun _ => .bind (blind_update b _) fun _ => .pure _
  exact .pure _

theorem blind_bmap (bn : Nat) : Blind (Kernel.retype ip type) (bmap ip bn) := by
  rw [bmap, bmapWith]
  split
  · exact blind_addrOrAlloc bn
  split
  · refine .bind (blind_addrOrAlloc NDIRECT) fun a => ?_
    split
    · exact .pure _
    exact blind_entryOrAlloc a _
  exact .fail _

theorem blind_writeLoop {t : Nat} (src : Addr) (n fuel : Nat) :
    ∀ tot off, Blind (Kernel.retype ip t) (writeLoop ip src n fuel tot off) := by
  induction fuel with
  | zero => exact fun _ _ => .pure _
  | succ fuel ih =>
    intro tot off
    rw [writeLoop]
    split
    swap
    · exact .pure _
    refine .bind (blind_bmap _) fun a => ?_
    split
    · exact .pure _
    refine .bind (blind_bread a) fun bp => .bind (blind_setBuf a _) fun _ => ?_
    split
    · exact .pure _
    exact .bind (blind_logWrite a) fun _ => ih _ _

end Types

/-! ## Writing to an inode of any type -/

section Write

variable {D : Nat → Block} {err : Panic → Prop} {E : Fs} {k : Kernel} {ip i : Nat}

theorem Open.retype (op : Open D ip E k) :
    Open D ip (E.setInode (k.itable ip).inum { (k.itable ip).d with type := T_FILE }) (k.retype ip T_FILE) := by
  have live : T_FILE ≠ 0 := by decide
  have addrs : ({ (k.itable ip).d with type := T_FILE } : Dinode).addrs =
      (E.inode (k.itable ip).inum).addrs := by rw [op.core]
  have ref := Fs.ref_setInode (F := E) (i := (k.itable ip).inum)
    (d := { (k.itable ip).d with type := T_FILE })
    ⟨fun h => absurd h live, fun h => absurd h op.live⟩ addrs
  have node := Fs.node_setInode (F := E) (i := (k.itable ip).inum)
    (d := { (k.itable ip).d with type := T_FILE }) live op.live addrs
  refine op.assign live ⟨op.good.owned.congr ref rfl, ?_, ?_, ?_⟩ fun b _ loose => ?_
  · intro j bn below
    rw [ref]
    refine op.good.noHoles j bn ?_
    by_cases eq : j = (k.itable ip).inum
    · subst eq
      rw [node] at below
      rw [Fs.node_of_alloc op.live, ← op.core]
      exact below
    rwa [Fs.node_setInode_of_ne eq] at below
  · intro j isDir
    by_cases eq : j = (k.itable ip).inum
    · rw [eq, node] at isDir
      cases isDir
    rw [Fs.node_setInode_of_ne eq] at isDir ⊢
    exact op.good.dirs j isDir
  · intro j
    by_cases eq : j = (k.itable ip).inum
    · rw [eq, Fs.setInode_inode, upd_self, op.core]
      obtain ⟨-, major, minor, nlink, size, addrs⟩ := op.good.range (k.itable ip).inum
      exact ⟨show T_FILE < 65536 by decide, major, minor, nlink, size, addrs⟩
    rw [Fs.setInode_inode, upd_ne eq]
    exact op.good.range j
  rcases loose with clear | mem | ⟨j, bn, notDir, named⟩
  · exact .inl clear
  · exact .inr (.inl mem)
  refine .inr (.inr ⟨j, bn, ?_, (ref j _).trans named⟩)
  by_cases eq : j = (k.itable ip).inum
  · rw [eq, Fs.setInode_inode, upd_self]
    show T_FILE ≠ T_DIR
    decide
  rwa [Fs.setInode_inode, upd_ne eq]

theorem iupdate_stores (admits : Admits err k 0) (wf : k.sb.Wf)
    (bound : (k.itable ip).inum < k.sb.ninodes) (range : (k.itable ip).d.InRange) :
    wp (fun _ => True) err (iupdate ip)
      (fun _ t => t.fs = k.fs.setInode (k.itable ip).inum (k.itable ip).d ∧ t.itable = k.itable ∧
        Frame k t ∧ t.disk = k.disk ∧ Spends 1 0 k t) k := by
  simp only [iupdate, Prog.wp_get_bind, wp_inode_bind, wp_bread_bind, update, wp_setBuf_bind]
  refine ⟨trivial, (logWrite_wp (admits.setBuf _ _) trivial).mono ?_⟩
  rintro _ _ ⟨rfl, -, -⟩
  exact ⟨Fs.ofBuf_store wf bound range, rfl, Frame.store .., rfl, Spends.store ..⟩

def Node.splice (n : Node) (src : Addr) (off len : Nat) : Nat → UInt8 :=
  fun o => if off ≤ o ∧ o < off + len then src.byte (o - off) else n.byte o

/-- What `writei` leaves when it wrote `r` of `n` bytes at `off`, and the last copy left `c`
more in the buffer. -/
structure Wrote.Ends (src : Addr) (off n : Nat) (E : Fs) (k : Kernel) (ip i r c : Nat) (t : Kernel) :
    Prop where
  most : r ≤ n
  read : ∀ j < r, src.holds j = true
  start : r = 0 ∨ r = n ∨ (off + r) % BSIZE = 0
  stop : WriteStop src k.sb i n r (off + r) t.fs c
  other : ∀ j, j ≠ i → t.fs.node j = E.node j
  node : t.fs.node i =
    { E.node i with size := max (E.node i).size (off + r), byte := (E.node i).splice src off (r + c) }
  core : (t.itable ip).d = t.fs.inode i
  near : Near ip k t
  disk : t.disk = k.disk
  logs : Logs (logNeed off n + 3) 0 k t
  logged : ∀ o, off ≤ o → o < off + r → t.fs.ref i (.block (o / BSIZE)) ∈ t.log.lh.entries
  changed : c = 0 → ∀ b, b ∉ t.log.lh.entries → t.buf b = k.buf b

theorem writei_tail (ok : Clean D E k) (held : Held k ip i) {src : Addr} {off n : Nat} {r : Nat × Nat}
    {u v : Kernel} {E' : Fs} {E₂ : Fs}
    (taken : E₂ = E.setInode i { (k.itable ip).d with type := T_FILE })
    (wrote : Wrote D ip E₂ (k.retype ip T_FILE) r.2 u E')
    (advanced : Advanced src n E₂ (k.retype ip T_FILE) i 0 off r u E')
    (admits : Admits err k (logNeed off n + 3))
    (d : (v.itable ip).d =
      { E'.inode i with type := (E.inode i).type, size := max (E.node i).size r.2 })
    (inum : (v.itable ip).inum = i) (buf : v.buf = u.buf) (log : v.log = u.log) (near : Near ip k v)
    (disk : v.disk = u.disk) :
    wp (fun _ => True) err (do iupdate ip; return (r.1 : Int) : Kern Int)
      (fun w t => ∃ (m : Nat) (c : Nat), w = m ∧ Wrote.Ends src off n E k ip i m c t) v := by
  have op := held.open ok
  have inumK := held.inum
  have live : (E.inode i).type ≠ 0 := inumK ▸ op.live
  have core : (k.itable ip).d = E.inode i := inumK ▸ op.core
  have self : ((k.retype ip T_FILE).itable ip).inum = i := by
    rw [Kernel.retype_self]
    exact inumK
  obtain ⟨op', rewrites, nearU, present⟩ := wrote
  rw [self] at rewrites
  have inumU : (u.itable ip).inum = i := nearU.inum.trans self
  have live' : (E'.inode i).type ≠ 0 := inumU ▸ op'.live
  have node₂ : E₂.node i = { E.node i with type := T_FILE } := by
    rw [taken, Fs.node_setInode (show T_FILE ≠ 0 by decide) live (by rw [core]),
      Fs.node_of_alloc live, core]
  have node' : E'.node i =
      { E.node i with type := T_FILE, byte := (E'.node i).byte } := by rw [rewrites.same, node₂]
  have sb : v.sb = u.sb := near.sb.trans nearU.sb.symm
  have fs : v.fs = u.fs := by
    unfold Kernel.fs
    rw [sb, buf]
  obtain ⟨c, stop, bytes, changed⟩ := advanced.stop
  obtain ⟨low, high, offset, logs, logged, read, start, -⟩ := advanced
  have due : indirectDue E₂ (k.retype ip T_FILE) i ≤ 2 := by
    unfold indirectDue
    split <;> omega
  have logs' : Logs (logNeed off n + 3) 1 k v := by
    rw [Nat.sub_zero] at logs
    have count := logs.count
    refine ⟨?_, ?_, ?_, ?_⟩
    · rw [log]
      exact logs.old
    · rw [log]
      change _ ≤ k.log.lh.n + _ at count
      omega
    · rw [log]
      exact logs.running
    rw [log]
    exact logs.size
  have bound : (v.itable ip).inum < v.sb.ninodes := by
    rw [inum, near.sb, ← inumK]
    exact (ok.table ip held.ref).bound
  have most : r.2 ≤ MAXFILE * BSIZE := by
    by_contra long
    have named := present MAXFILE (Nat.lt_of_not_le long)
    exact absurd (Fs.entry_lt_of_ref (j := NINDIRECT) named) (lt_irrefl _)
  have range : (v.itable ip).d.InRange := by
    rw [d]
    obtain ⟨-, major, minor, nlink, -, addrs⟩ := op'.good.range i
    refine ⟨(ok.good.range i).type, major, minor, nlink, ?_, addrs⟩
    refine lt_of_le_of_lt (max_le (ok.good.noHoles.size_le i) most) ?_
    decide
  refine Prog.wp_seq _ (iupdate_stores ((logs'.admits admits).mono zero_le)
    (by rw [near.sb]; exact ok.wf) bound range) ?_
  rintro _ t ⟨stored, itable, frame, disk', spends⟩
  have stored' : t.fs = E'.setInode i (v.itable ip).d := by
    rw [stored, inum, fs]
    ext1
    · funext j
      by_cases eq : j = i
      · rw [eq, Fs.setInode_inode, Fs.setInode_inode, upd_self, upd_self]
      rw [Fs.setInode_inode, Fs.setInode_inode, upd_ne eq, upd_ne eq]
      refine op'.inode j ?_
      rintro _ ⟨⟩
      rw [inumU]
      exact Ne.symm eq
    · exact op'.used
    exact op'.data
  have type : (v.itable ip).d.type ≠ 0 := by rwa [d]
  have addrs : (v.itable ip).d.addrs = (E'.inode i).addrs := by rw [d]
  have refs : ∀ s, t.fs.ref i s = E'.ref i s := by
    intro s
    rw [stored']
    exact Fs.ref_setInode ⟨fun h => absurd h type, fun h => absurd h live'⟩ addrs i s
  have end_ : r.2 = off + r.1 := by rw [offset, Nat.sub_zero]
  refine Prog.wp_pure ⟨r.1, c, rfl, high, fun j => read j zero_le, end_ ▸ start, ?_, ?_, ?_, ?_,
    ?_, ?_, ?_, ?_, ?_⟩
  · rw [stored', ← end_]
    cases stop with
    | done all => exact .done all
    | full full past =>
      refine .full full ?_
      have size : (E'.node i).size = (E.node i).size := by rw [node']
      rw [Fs.node_setInode type live' addrs, d]
      exact max_le (size ▸ past) (le_refl _)
    | fault short => exact .fault short
  · intro j ne
    rw [stored', Fs.node_setInode_of_ne ne, rewrites.other ne, taken, Fs.node_setInode_of_ne ne]
  · have byte : (E'.node i).byte = (E.node i).splice src off (r.1 + c) := by
      funext o
      rw [bytes, node₂, end_, add_assoc]
      show (if _ then src.byte (0 + (o - off)) else _) = _
      rw [zero_add]
      rfl
    rw [stored', Fs.node_setInode type live' addrs, byte, d, end_]
    have major := congrArg Node.major node'
    have minor := congrArg Node.minor node'
    have nlink := congrArg Node.nlink node'
    rw [Fs.node_of_alloc live', Fs.node_of_alloc live] at major minor nlink
    rw [Fs.node_of_alloc live]
    simp only at major minor nlink ⊢
    rw [major, minor, nlink]
  · rw [stored', itable, Fs.setInode_inode, upd_self]
  · exact near.trans (Near.of_itable frame itable)
  · rw [disk', disk, op'.disk, ok.disk]
  · exact logs'.trans spends.toLogs
  · intro o lowO highO
    rw [refs]
    refine spends.old _ ?_
    rw [log]
    exact logged o lowO (by rw [end_]; exact highO)
  intro zero b absent
  refine (spends.changed b absent).trans ?_
  have before : b ∉ u.log.lh.entries := fun mem => absent (spends.old b (by rw [log]; exact mem))
  rw [buf]
  exact changed zero b before

theorem writei_wp (ok : Clean D E k) (held : Held k ip i) (src : Addr) {off n : Nat}
    (inside : off ≤ (E.node i).size) (below : off + n ≤ MAXFILE * BSIZE)
    (admits : Admits err k (logNeed off n + 3)) :
    wp (fun _ => True) err (writei ip src off n)
      (fun r t => ∃ (w : Nat) (c : Nat), r = w ∧ Wrote.Ends src off n E k ip i w c t) k := by
  have op := held.open ok
  have inum := held.inum
  have size : (k.itable ip).d.size =
      (E.node i).size := by rw [← inum, Fs.node_of_alloc op.live, op.core]
  have word : MAXFILE * BSIZE < 2 ^ 32 := by decide
  simp only [writei, wp_inode_bind]
  rw [if_neg (by rw [Nat.mod_eq_of_lt (by omega)]; omega),
    if_neg (by rw [Nat.mod_eq_of_lt (by omega)]; omega)]
  have op' := op.retype
  have self : ((k.retype ip T_FILE).itable ip).inum = i := by
    rw [Kernel.retype_self]
    exact inum
  rw [inum] at op'
  obtain ⟨E₂, taken⟩ : ∃ E₂, E₂ = E.setInode i { (k.itable ip).d with type := T_FILE } := ⟨_, rfl⟩
  rw [← taken] at op'
  have type : (E₂.inode i).type = T_FILE := by rw [taken, Fs.setInode_inode, upd_self]
  have size₂ : (E₂.node i).size = (E.node i).size := by
    rw [Fs.node_of_alloc (by rw [type]; decide), taken, Fs.setInode_inode, upd_self]
    exact size
  have present : ∀ bn, bn * BSIZE < off →
      E₂.ref ((k.retype ip T_FILE).itable ip).inum (.block bn) ≠ 0 := by
    intro bn low
    refine op'.good.noHoles _ bn ?_
    rw [self, size₂]
    exact lt_of_lt_of_le low inside
  have due : indirectDue E₂ (k.retype ip T_FILE) i ≤ 2 := by
    unfold indirectDue
    split <;> omega
  have admits' : Admits err (k.retype ip T_FILE)
      (indirectDue E₂ (k.retype ip T_FILE) ((k.retype ip T_FILE).itable ip).inum + logNeed off (n - 0)) := by
    rw [self]
    refine Admits.mono (p := logNeed off n + 3) ?_ (by rw [Nat.sub_zero]; omega)
    exact admits.imp_right fun room => ⟨room.running, room.few, room.space⟩
  have run := writeLoop_wp src n n op' (by rw [self, type]; decide) present zero_le
    (Nat.sub_le n 0) (.inr (by omega)) admits'
  have blind := (blind_writeLoop (t := (k.itable ip).d.type) src n n 0 off).wp run
  rw [Kernel.retype_retype k rfl, self] at blind
  refine Prog.wp_seq _ blind ?_
  rintro r _ ⟨u, rfl, E', wrote, advanced⟩
  have core' : (u.itable ip).d = E'.inode i := by
    rw [← self, ← wrote.near.inum]
    exact wrote.op.core
  have sizeU : (E'.inode i).size = (E.node i).size := by
    have rewrites := wrote.rewrites
    rw [self] at rewrites
    have same := rewrites.size i
    rw [size₂, Fs.node_of_alloc] at same
    · exact same
    rw [← Fs.node_type, rewrites.type, Fs.node_type, type]
    decide
  have typeK : (k.itable ip).d.type = (E.inode i).type := by rw [← inum, op.core]
  obtain ⟨d₀, table⟩ := wrote.near.table
  -- the table of `u` with any other fields in the entry is near to that of `k`
  have nearV : ∀ d, Near ip k (u.setInode ip { u.itable ip with d }) := by
    intro d
    have frame := wrote.near.toFrame
    refine ⟨⟨frame.sb, frame.ftable, frame.proc, frame.outstanding, frame.committing⟩, d, ?_⟩
    show upd u.itable ip _ = _
    rw [table, upd_self, Kernel.retype_self]
    show upd (upd (upd k.itable ip _) ip _) ip _ = _
    rw [upd_idem, upd_idem]
  have inumU : (u.itable ip).inum = i := wrote.near.inum.trans self
  have self' : (u.retype ip (k.itable ip).d.type).itable ip =
      { u.itable ip with d := { (u.itable ip).d with type := (k.itable ip).d.type } } :=
    Kernel.retype_self u
  simp only [wp_inode_bind]
  split
  · rename_i longer
    rw [self', core', sizeU] at longer
    simp only [wp_setDinode_bind]
    rw [self']
    have twice : ∀ d, (u.retype ip (k.itable ip).d.type).setInode ip { u.itable ip with d } =
        u.setInode ip { u.itable ip with d } := by
      intro d
      unfold Kernel.retype Kernel.setInode
      simp only [upd_idem]
    refine ⟨trivial, ?_⟩
    simp only [twice]
    refine writei_tail ok held taken wrote advanced admits ?_ ?_ rfl rfl (nearV _) rfl
    · rw [Kernel.setInode_itable, upd_self, core', typeK, max_eq_right longer.le]
    rw [Kernel.setInode_itable, upd_self]
    exact inumU
  rename_i shorter
  rw [self', core', sizeU] at shorter
  refine writei_tail ok held taken wrote advanced admits ?_ ?_ rfl rfl (nearV _) rfl
  · rw [self', core', typeK, max_eq_left (Nat.le_of_not_lt shorter), ← sizeU]
  rw [self']
  exact inumU

end Write

/-! ## Byte arrays -/

section Results

variable {k t : Kernel} {ip i off n : Nat}

theorem logNeed_le (most : n ≤ writeMax) : logNeed off n + 3 ≤ MAXOPBLOCKS := by
  change n ≤ 3072 at most
  unfold logNeed
  simp only [BSIZE, MAXOPBLOCKS]
  split_ifs <;> omega

theorem Held.writei_refused (fs : Consistent k) (held : Held k ip i) (src : Addr)
    (word : n < 2 ^ 32) (outside : (k.fs.node i).size < off ∨ MAXFILE * BSIZE < off + n) :
    Prog.Returns (writei ip src off n) (-1) k := by
  obtain ⟨D, E, ok⟩ := fs
  have op := held.open ok
  have size : (k.itable ip).d.size = (k.fs.node i).size := by
    rw [ok.fs_eq, ← held.inum, Fs.node_of_alloc op.live, op.core]
  have small := ok.good.noHoles.size_le i
  rw [← ok.fs_eq] at small
  show (if off > (k.itable ip).d.size ∨ (off + n) % 2 ^ 32 < off then _ else _ : Kern Int) k = _
  by_cases first : off > (k.itable ip).d.size ∨ (off + n) % 2 ^ 32 < off
  · rw [if_pos first]
    rfl
  have sum : off + n < 2 ^ 32 := by omega
  rw [if_neg first, Nat.mod_eq_of_lt sum, if_pos (by omega)]
  rfl

/-- An inode is an array of bytes. When the log has room for what is written, `writei` inside the
inode returns: it puts the bytes it could find blocks for at `off`, which is all of them unless
the disk is full, and changes nothing else. `readi` returns the bytes up to the size. An offset
past the end and a sum that overflows or is longer than a file can be make `writei` return -1. -/
theorem inode_byte_array (fs : Consistent k) (held : Held k ip i) (src dst : Addr) (off n : Nat) (word : n < 2 ^ 32) :
    (off ≤ (k.fs.node i).size → off + n ≤ MAXFILE * BSIZE →
      (∀ j m, j + m ≤ n → src.copied j m = m) →
      LogRoom k (logNeed off n + 3) →
      ∃ (r : Nat) (t : Kernel), (writei ip src off n k).result = .ok ((r : Int), t) ∧ r ≤ n ∧
        (r = n ∨ t.fs.Full k.sb) ∧ t.fs.node i =
          { k.fs.node i with
            size := max (k.fs.node i).size (off + r)
            byte := fun o => if off ≤ o ∧ o < off + r then src.byte (o - off) else (k.fs.node i).byte o } ∧
        (∀ j, j ≠ i → t.fs.node j = k.fs.node j) ∧ (t.itable ip).d = t.fs.inode i) ∧
    ((∀ j m, j + m ≤ n → dst.copied j m = m) → off + n < 2 ^ 32 →
      ∃ out, Prog.Returns (readi ip dst off n) (((min n ((k.fs.node i).size - off) : Nat) : Int), out) k ∧
        ∀ j < min n ((k.fs.node i).size - off), out j = (k.fs.node i).byte (off + j)) ∧
    ((k.fs.node i).size < off ∨ 2 ^ 32 ≤ off + n ∨ MAXFILE * BSIZE < off + n →
      Prog.Returns (writei ip src off n) (-1) k) := by
  refine ⟨fun inside below readable room => ?_, fun writable sum => ?_, fun outside => ?_⟩
  · obtain ⟨D, E, ok⟩ := fs
    rw [ok.fs_eq] at inside ⊢
    have admits : Admits (fun _ => False) k (logNeed off n + 3) := Or.inr room
    obtain ⟨_, t, returns, r, c, rfl, ends⟩ := (writei_wp ok held src inside below admits).exists_ok
    have stopped : c = 0 ∧ (r = n ∨ t.fs.Full k.sb) := by
      cases ends.stop with
      | done all => exact ⟨rfl, Or.inl all⟩
      | full full => exact ⟨rfl, Or.inr full⟩
      | fault short =>
        rw [readable r _ (by omega)] at short
        exact absurd short (lt_irrefl _)
    obtain ⟨rfl, why⟩ := stopped
    exact ⟨r, t, returns, ends.most, why, ends.node, ends.other, ends.core⟩
  · obtain ⟨D, E, ok⟩ := fs
    obtain ⟨r, out, returns, exact⟩ := (held.loaded ok).readi_clipped dst off word
    obtain ⟨count, bytes⟩ := exact writable sum
    have size : (k.itable ip).d.size = (k.fs.node i).size := by
      rw [ok.fs_eq, (held.loaded ok).size, held.inum]
    rw [size, held.inum, ← ok.fs_eq] at bytes
    rw [size] at count
    exact ⟨out, count ▸ returns balloc, bytes⟩
  refine held.writei_refused fs src word ?_
  have most : MAXFILE * BSIZE < 2 ^ 32 := by decide
  omega

instance (k : Kernel) (c : Nat) : Decidable (LogRoom k c) :=
  decidable_of_iff (1 ≤ k.log.outstanding ∧ k.log.lh.n + c < LOGSIZE ∧ k.log.lh.n + c + 1 < k.log.size)
    ⟨fun ⟨running, few, space⟩ => ⟨running, few, space⟩, fun ⟨running, few, space⟩ => ⟨running, few, space⟩⟩

theorem newFile_byte_array : ∃ k, FsRuns blankKernel k ∧ Held k 0 1 ∧ LogRoom k (logNeed 0 10 + 3) ∧
    ∃ (r : Nat) (t : Kernel), (writei 0 (.kernel fun _ => 65) 0 10 k).result = .ok ((r : Int), t) ∧ r ≤ 10 := by
  obtain ⟨k, run, consistent, held, empty, room⟩ := FsRuns.exists_play newFile
    (fun k => Held k 0 1 ∧ (k.fs.node 1).size = 0 ∧ LogRoom k (logNeed 0 10 + 3)) (by decide +kernel)
  have array := (inode_byte_array consistent held (.kernel fun _ => 65)
    (.kernel fun _ => 0) 0 10 (by decide)).1
  obtain ⟨r, t, returns, most, -⟩ := array (Nat.zero_le _) (by decide) (fun _ _ _ => rfl) room
  exact ⟨k, run, held, room, r, t, returns, most⟩

/-- A file may have 40 blocks, but they do not fit into the log. -/
theorem bigWrite_panics : ∃ k, FsRuns blankKernel k ∧ Consistent k ∧ Held k 0 1 ∧
    0 ≤ (k.fs.node 1).size ∧ 0 + 40 * BSIZE ≤ MAXFILE * BSIZE ∧
    (writei 0 (.kernel fun _ => 65) 0 (40 * BSIZE) k).result = .error .tooBigTransaction := by
  obtain ⟨k, run, consistent, held, error⟩ := FsRuns.exists_play newFile
    (fun k => Held k 0 1 ∧ ((writei 0 (.kernel fun _ => 65) 0 (40 * BSIZE) k).result.map fun _ => ()) =
      .error .tooBigTransaction) (by decide +kernel)
  refine ⟨k, run, consistent, held, Nat.zero_le _, by decide, ?_⟩
  cases ended : (writei 0 (.kernel fun _ => 65) 0 (40 * BSIZE) k).result with
  | error e =>
    rw [ended] at error
    cases error
    rfl
  | ok r =>
    rw [ended] at error
    cases error

/-- A copy that fails after `r` bytes comes `c` bytes further. -/
theorem Wrote.Ends.copied {src : Addr} {off n : Nat} {E : Fs} {r c : Nat}
    (ends : Wrote.Ends src off n E k ip i r c t)
    (short : src.copied r (min (n - r) (BSIZE - (off + r) % BSIZE)) < min (n - r) (BSIZE - (off + r) % BSIZE))
    (rest : c = src.copied r (min (n - r) (BSIZE - (off + r) % BSIZE))) :
    src.copied 0 n = r + c := by
  obtain ⟨before, last⟩ := src.copied_iff.mp rest.symm
  rw [← rest] at short
  refine src.copied_iff.mpr ⟨fun j low => ?_, .inr ⟨by omega, ?_⟩⟩
  · rw [zero_add]
    by_cases first : j < r
    · exact ends.read j first
    have held := before (j - r) (by omega)
    rwa [Nat.add_sub_cancel' (Nat.le_of_not_lt first)] at held
  rw [zero_add]
  rcases last with all | ⟨-, missing⟩
  · omega
  exact missing

/-- What the disk holds once the transaction is committed. -/
def Kernel.committed (k : Kernel) (b : Nat) : Block := if b ∈ k.log.lh.entries then k.buf b else k.disk b

/-- A buffer of the file system that is not logged holds what the disk holds. -/
def Kernel.Settled (k : Kernel) : Prop :=
  ∀ b, k.sb.inodestart ≤ b → b < k.sb.size → b ∉ k.log.lh.entries → k.buf b = k.disk b

/-- Each call of `writei` in `filewrite` fits into the reservation of its transaction: it adds at
most `MAXOPBLOCKS` blocks to the log, however it ends. With room for so many it returns. -/
theorem write_transaction_fits (fs : Consistent k) (held : Held k ip i) (src : Addr) (off : Nat)
    (most : n ≤ writeMax) :
    (∀ r t, (writei ip src off n k).result = .ok (r, t) →
      (∀ b ∈ k.log.lh.entries, b ∈ t.log.lh.entries) ∧ t.log.lh.n ≤ k.log.lh.n + MAXOPBLOCKS) ∧
    (LogRoom k MAXOPBLOCKS → ∃ r t, (writei ip src off n k).result = .ok (r, t)) := by
  have word : n < 2 ^ 32 := lt_of_le_of_lt most (by decide)
  by_cases outside : (k.fs.node i).size < off ∨ MAXFILE * BSIZE < off + n
  · have refused := held.writei_refused fs src word outside
    rw [show writei ip src off n k = _ from refused]
    refine ⟨?_, fun _ => ⟨-1, k, rfl⟩⟩
    rintro r t ⟨⟩
    exact ⟨fun _ => id, Nat.le_add_right ..⟩
  rw [not_or, Nat.not_lt, Nat.not_lt] at outside
  obtain ⟨D, E, ok⟩ := fs
  rw [ok.fs_eq] at outside
  have need : logNeed off n + 3 ≤ MAXOPBLOCKS := logNeed_le most
  constructor
  · intro r t returns
    obtain ⟨w, c, rfl, ends⟩ :=
      (writei_wp ok held src outside.1 outside.2 (Or.inl stops_any)).post_of_ok returns
    have logs : Logs MAXOPBLOCKS 0 k t := ends.logs.mono (by omega)
    exact ⟨logs.old, logs.count⟩
  intro room
  have admits : Admits (fun _ => False) k (logNeed off n + 3) := Admits.mono (Or.inr room) need
  obtain ⟨r, t, returns, -⟩ := (writei_wp ok held src outside.1 outside.2 admits).exists_ok
  exact ⟨r, t, returns⟩

theorem newFile_fits : ∃ k, FsRuns blankKernel k ∧ Held k 0 1 ∧ LogRoom k MAXOPBLOCKS ∧
    ∃ r t, (writei 0 (.kernel fun _ => 65) 0 writeMax k).result = .ok (r, t) ∧
      t.log.lh.n ≤ k.log.lh.n + MAXOPBLOCKS := by
  obtain ⟨k, run, consistent, held, room⟩ := FsRuns.exists_play newFile
    (fun k => Held k 0 1 ∧ LogRoom k MAXOPBLOCKS) (by decide +kernel)
  obtain ⟨bound, returns⟩ :=
    write_transaction_fits consistent held (.kernel fun _ => 65) 0 (le_refl writeMax)
  obtain ⟨r, t, ended⟩ := returns room
  exact ⟨k, run, held, room, r, t, ended, (bound r t ended).2⟩

end Results

end Xv6
