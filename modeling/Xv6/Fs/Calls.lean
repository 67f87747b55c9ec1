import Xv6.Fs.Paths
import Xv6.Fs.Trans

/-!
# System calls on directories

`create`, `sys_link` and `sys_unlink`, from any consistent file system. On every path they give
back the references that they do not return, and leave a consistent file system; and the files that
the inode table refers to stay what they are, apart from their links and the entries of directories.
A call that fails has undone all that it did, if it began when no other call was under way.
-/

namespace Xv6

open Multiset (count_cons_self count_zero count_cons cons_swap)
open Function renaming update_self → upd_self, update_of_ne → upd_ne, update_idem → upd_idem,
  update_eq_self → upd_eq_self
open Prog (wp wp_seq wp_pure wp_guard wp_skip)

set_option linter.unusedSectionVars false

/-- In a call that began in `b` with the file system `E₀` and that has the references `own` to
entries of the inode table. -/
structure During (D : Nat → Block) (b : Kernel) (E₀ : Fs) (own : Multiset Nat) (k : Kernel) (E : Fs) :
    Prop where
  clean : Clean D E k
  sb : k.sb = b.sb
  ftable : k.ftable = b.ftable
  proc : k.proc = b.proc
  ref : ∀ j, (k.itable j).ref = (b.itable j).ref + own.count j
  inum : ∀ j, 0 < (b.itable j).ref → (k.itable j).inum = (b.itable j).inum
  safe : Safe b E₀.node E.node

/-- The call is over. -/
def Ended (b : Kernel) (E₀ : Fs) (t : Kernel) : Prop := ∃ D E, During D b E₀ 0 t E

theorem Node.stays_setEntry {n : Node} (isDir : n.type = T_DIR) (s : Nat) (de : Dirent) :
    n.Stays (n.setEntry s de) :=
  ⟨rfl, rfl, rfl, fun file => absurd isDir file⟩

/-- `f` assigns to the numbers of a device and to the link count. -/
structure Relabels (f : Dinode → Dinode) : Prop where
  type : ∀ d, (f d).type = d.type
  size : ∀ d, (f d).size = d.size
  addrs : ∀ d, (f d).addrs = d.addrs
  range : ∀ d, d.InRange → (f d).InRange

/-- `f` assigns to the link count. -/
structure Relinks (f : Dinode → Dinode) : Prop extends Relabels f where
  device : ∀ d, (f d).major = d.major ∧ (f d).minor = d.minor

theorem relinks_nlink (nlink : Dinode → Nat) (small : ∀ d, nlink d < 65536) :
    Relinks fun d => { d with nlink := nlink d } where
  type _ := rfl
  size _ := rfl
  addrs _ := rfl
  range d range := ⟨range.type, range.major, range.minor, small d, range.size, range.addrs⟩
  device _ := ⟨rfl, rfl⟩

theorem relinks_incLink : Relinks Dinode.incLink :=
  relinks_nlink (fun d => (d.nlink + 1) % 65536) fun _ => Nat.mod_lt _ (by omega)

theorem relinks_decLink : Relinks Dinode.decLink :=
  relinks_nlink (fun d => (d.nlink + 65535) % 65536) fun _ => Nat.mod_lt _ (by omega)

theorem Held.assigned {D : Nat → Block} {E : Fs} {k : Kernel} {ip i : Nat} {f : Dinode → Dinode}
    (held : Held k ip i) (ok : Clean D E k) (relabels : Relabels f) :
    Open D ip (E.setInode (k.itable ip).inum (f (k.itable ip).d))
      (k.setInode ip { k.itable ip with d := f (k.itable ip).d }) := by
  obtain ⟨type, size, addrs, range⟩ := relabels
  have op := held.open ok
  have live : (E.inode (k.itable ip).inum).type ≠ 0 := op.live
  have noHoles := op.good.noHoles
  have dirs := op.good.dirs
  have rangeD := op.good.range (k.itable ip).inum
  have node := Fs.node_setInode (F := E) (i := (k.itable ip).inum) (d := f (k.itable ip).d)
    (by rw [type, op.core]; exact live) live (by rw [addrs, op.core])
  have before := Fs.node_of_alloc live
  apply op.setFields
  · rw [type, op.core]
  · rw [addrs, op.core]
  · apply range
    rw [op.core]
    exact rangeD
  · intro bn below
    apply noHoles
    rw [size, op.core] at below
    rw [before]
    exact below
  intro isDir
  rw [type, op.core] at isDir
  have dirOk := dirs (k.itable ip).inum (by rw [Fs.node_type]; exact isDir)
  rw [node, size, op.core]
  refine ⟨?_, ?_⟩
  · have whole := dirOk.size
    rw [before] at whole
    exact whole
  intro s inside
  apply dirOk.inum
  rw [before]
  exact inside

/-- A held inode may be relabelled and written back. -/
theorem Held.assign {D : Nat → Block} {E : Fs} {k : Kernel} {ip i : Nat} {f : Dinode → Dinode}
    {err : Panic → Prop} {inv : Kernel → Prop} {α : Type} {post : α → Kernel → Prop}
    (stops : Stops err) (calm : ∀ k, Synced k → inv k) (held : Held k ip i) (ok : Clean D E k)
    (relabels : Relabels f) {next : Unit → Kern α}
    (rest : ∀ t, Clean D (E.setInode i (f (E.inode i))) t → Near ip k t →
      wp inv err (next ()) post t) :
    wp inv err (setDinode ip f >>= fun _ => iupdate ip >>= next) post k := by
  have op := held.open ok
  have op' := held.assigned ok relabels
  have core := op.core
  rw [held.inum] at core
  rw [held.inum, core] at op'
  rw [wp_setDinode_bind]
  refine ⟨calm _ (op.calm_setInode _).synced, ?_⟩
  rw [core]
  refine wp_seq _ ((op'.iupdate stops).weaken (fun u quiet => calm u quiet.synced) fun _ => id) ?_
  rintro _ t ⟨clean, frame, table⟩
  exact rest t clean ⟨(Frame.setInode k ip _).trans frame, _, table⟩

theorem wp_synced {D : Nat → Block} {err : Panic → Prop} {α : Type} {m : Kern α}
    {post : α → Kernel → Prop} {k : Kernel} (h : wp (Calm D) err m post k) :
    wp Synced err m post k :=
  h.weaken (fun _ calm => calm.synced) fun _ => id

namespace During

variable {D D' : Nat → Block} {E₀ E E' : Fs} {b k t : Kernel} {own : Multiset Nat} {ip i : Nat}

theorem used (during : During D b E₀ own k E) {j : Nat} (used : 0 < (b.itable j).ref) :
    0 < (k.itable j).ref := by
  rw [during.ref]
  omega

theorem mine (during : During D b E₀ (ip ::ₘ own) k E) : 0 < (k.itable ip).ref := by
  rw [during.ref, count_cons_self]
  omega

theorem safe_setEntry {s : Nat} {de : Dirent} (isDir : (E.node i).type = T_DIR)
    (node : E'.node = Function.update E.node i ((E.node i).setEntry s de)) :
    Safe b E.node E'.node := by
  rw [node]
  exact (Safe.refl b E.node).update fun _ _ _ _ => Node.stays_setEntry isDir s de

theorem safe_of_kept (during : During D b E₀ own k E) (safe : Safe k E.node E'.node) :
    Safe b E₀.node E'.node := by
  intro j used live
  have stays := during.safe j used live
  have here := safe j (during.used used)
  rw [during.inum j used] at here
  exact stays.trans (here (by rwa [stays.type]))

/-- From the state before the transaction, to the one after it. -/
theorem quiet {c u : Kernel} (during : During D b E₀ own k E) (before : Quiet c b)
    (after : Quiet k u) (clean : Clean D' E u) : During D' c E₀ own u E := by
  refine ⟨clean, after.sb.trans (during.sb.trans before.sb),
    after.ftable.trans (during.ftable.trans before.ftable),
    after.proc.trans (during.proc.trans before.proc), ?_, ?_, ?_⟩
  · rw [after.itable, ← before.itable]
    exact during.ref
  · rw [after.itable, ← before.itable]
    exact during.inum
  rw [Safe, ← before.itable]
  exact during.safe

end During

/-- The current directory of process `p` is in the table. -/
def Housed (k : Kernel) (p : Nat) : Prop := ∃ c, (k.proc p).cwd = some c ∧ 0 < (k.itable c).ref

/-- What the kernel shows of the disk is a consistent file system, and so is its inode table. -/
def Consistent (k : Kernel) : Prop := ∃ D E, Clean D E k

/-- No call is under way: no inode is locked, one without links is in the table, and the table
refers to inodes that are in use. -/
structure Settled (p : Nat) (k : Kernel) : Prop where
  consistent : Consistent k
  noOrphan : NoOrphan k k.fs.node
  unlocked : ∀ j < NINODE, (k.itable j).locked = false
  live : ∀ j, 0 < (k.itable j).ref → (k.fs.node (k.itable j).inum).type ≠ 0
  housed : Housed k p

/-- The inodes with their contents, the references to them and the locks are as they were, and no
transaction is left open. -/
structure Restored (k t : Kernel) : Prop where
  consistent : Consistent t
  nodes : t.fs.node = k.fs.node
  refs : ∀ j, (t.itable j).ref = (k.itable j).ref
  inums : ∀ j, 0 < (k.itable j).ref → (t.itable j).inum = (k.itable j).inum
  unlocked : ∀ j < NINODE, (t.itable j).locked = false
  ended : t.log.outstanding = k.log.outstanding

/-- The open files and the descriptors are as they were. -/
def SameFiles (k t : Kernel) : Prop := t.ftable = k.ftable ∧ t.proc = k.proc

/-- In a call that began in `b`: it has taken the references `own`, and of the inode table only
entries in `L` are locked. -/
structure Carries (D : Nat → Block) (b : Kernel) (own : Multiset Nat) (L : List Nat) (k : Kernel) (E : Fs) : Prop
    extends Frame b k where
  clean : Clean D E k
  ref : ∀ j, (k.itable j).ref = (b.itable j).ref + own.count j
  entry : ∀ j, 0 < (b.itable j).ref → (k.itable j).inum = (b.itable j).inum ∧
    ((b.itable j).valid = true → (k.itable j).valid = true)
  locked : ∀ j < NINODE, (k.itable j).locked = true → j ∈ L

structure Begun (p : Nat) (k b : Kernel) : Prop extends Settled p b where
  quiet : Quiet k b
  nodes : b.fs.node = k.fs.node
  outstanding : b.log.outstanding = k.log.outstanding + 1

/-- An inode without links is in the table for `b` or for one of the references `own`. -/
def Covered (b : Kernel) (own : Multiset Nat) (k : Kernel) (N : Nat → Node) : Prop :=
  ∀ i, (N i).type ≠ 0 → (N i).nlink = 0 → ∃ jp, 0 < (b.itable jp).ref + own.count jp ∧ (k.itable jp).inum = i

/-- `During` for any beginning, and `Carries` for one in which nothing was locked. -/
structure Tracks (D : Nat → Block) (b : Kernel) (E₀ : Fs) (own : Multiset Nat) (L : List Nat) (k : Kernel) (E : Fs) :
    Prop extends During D b E₀ own k E where
  origin : b.fs = E₀
  frame : Frame b k
  valid : ∀ j, 0 < (b.itable j).ref → (b.itable j).valid = true → (k.itable j).valid = true
  locked : (∀ j < NINODE, (b.itable j).locked = false) → ∀ j < NINODE, (k.itable j).locked = true →
    j ∈ L

namespace Tracks

variable {D : Nat → Block} {err : Panic → Prop} {E₀ E E' : Fs} {b k t : Kernel} {own own' : Multiset Nat}
  {L L' : List Nat} {ip i p : Nat} {N : Nat → Node} {α : Type} {post : α → Kernel → Prop}

/-- At the start of an operation nothing is referred to or locked. -/
theorem start (ok : Clean D E k) : Tracks D k E 0 [] k E := by
  refine ⟨⟨ok, rfl, rfl, rfl, fun j => ?_, fun _ _ => rfl, .refl k _⟩, ok.fs_eq, .refl k,
    fun _ _ => id, fun free j low lock => ?_⟩
  · rw [count_zero, add_zero]
  rw [free j low] at lock
  cases lock

section

variable (tracks : Tracks D b E₀ own L k E)
include tracks

/-- A step that changes the tree as it may. -/
theorem step (clean : Clean D E' t) (frame : Frame k t)
    (ref : ∀ j, (t.itable j).ref + own.count j = (k.itable j).ref + own'.count j)
    (entry : ∀ j, 0 < (k.itable j).ref → (t.itable j).inum = (k.itable j).inum ∧
      ((k.itable j).valid = true → (t.itable j).valid = true))
    (locked : (∀ j < NINODE, (b.itable j).locked = false) →
      ∀ j < NINODE, (t.itable j).locked = true → j ∈ L')
    (safe : Safe b E₀.node E'.node) : Tracks D b E₀ own' L' t E' := by
  have frame := tracks.frame.trans frame
  refine ⟨⟨clean, frame.sb, frame.ftable, frame.proc, fun j => ?_, fun j used => ?_, safe⟩,
    tracks.origin, frame,
    fun j used h => ?_, locked⟩
  · have before := tracks.ref j
    have after := ref j
    omega
  · exact (entry j (tracks.used used)).1.trans (tracks.inum j used)
  exact (entry j (tracks.used used)).2 (tracks.valid j used h)

/-- A step that takes references at most. -/
theorem kept (clean : Clean D E' t) (kept : Kept k t)
    (ref : ∀ j, (t.itable j).ref + own.count j = (k.itable j).ref + own'.count j)
    (locked : ∀ j, (t.itable j).locked = (k.itable j).locked) (safe : Safe b E₀.node E'.node) :
    Tracks D b E₀ own' L t E' := by
  refine tracks.step clean kept.toFrame ref (fun j used => ?_) (fun free j low lock => ?_) safe
  · obtain ⟨-, inum, -, valid⟩ := kept.entry j used
    exact ⟨inum, valid⟩
  rw [locked] at lock
  exact tracks.locked free j low lock

theorem acts (clean : Clean D E t) (acts : Acts ip k t)
    (self : (t.itable ip).ref = (k.itable ip).ref ∧ (t.itable ip).inum = (k.itable ip).inum ∧
      ((k.itable ip).valid = true → (t.itable ip).valid = true))
    (locked : (∀ j < NINODE, (b.itable j).locked = false) →
      ∀ j < NINODE, (t.itable j).locked = true → j ∈ L') :
    Tracks D b E₀ own L' t E := by
  obtain ⟨ref, inum, valid⟩ := self
  refine tracks.step clean acts.toFrame (fun j => ?_) (fun j _ => ?_) locked tracks.safe
  · by_cases eq : j = ip
    · rw [eq, ref]
    rw [acts.other j eq]
  by_cases eq : j = ip
  · rw [eq]
    exact ⟨inum, valid⟩
  rw [acts.other j eq]
  exact ⟨rfl, id⟩

theorem got {inum : Nat} (got : Got D E' inum k ip t)
    (safe : Safe b E₀.node E'.node) : Tracks D b E₀ (ip ::ₘ own) L t E' := by
  refine tracks.kept got.clean got.kept (fun j => ?_) got.lockeds safe
  rw [got.refs, count_cons]
  omega

end

/-- `iput` gives a reference back. -/
theorem put (tracks : Tracks D b E₀ (ip ::ₘ own) L k E) (put : Put D E ip k E' t)
    (locked : (∀ j < NINODE, (b.itable j).locked = false) →
      ∀ j < NINODE, (t.itable j).locked = true → j ∈ L') :
    Tracks D b E₀ own L' t E' := by
  have mine := tracks.ref ip
  rw [count_cons_self] at mine
  have frame := tracks.frame.trans put.toFrame
  have safe := put.safe tracks.clean (fun j used => ⟨tracks.used used, tracks.inum j used⟩)
    (by omega)
  refine ⟨⟨put.clean, frame.sb, frame.ftable, frame.proc, fun j => ?_, fun j used => ?_,
    tracks.safe.trans safe⟩,
    tracks.origin, frame, fun j used h => ?_, locked⟩
  · by_cases eq : j = ip
    · rw [eq, put.ref]
      omega
    rw [put.other j eq, tracks.ref, Multiset.count_cons_of_ne eq]
  · by_cases eq : j = ip
    · subst eq
      exact put.inum.trans (tracks.inum j used)
    rw [put.other j eq]
    exact tracks.inum j used
  by_cases eq : j = ip
  · subst eq
    rw [(put.kept fun last => by omega).2]
    exact tracks.valid j used h
  rw [put.other j eq]
  exact tracks.valid j used h

theorem unlock (tracks : Tracks D b E₀ own (ip :: L) k E) (acts : Acts ip k t)
    (free : (t.itable ip).locked = false) :
    (∀ j < NINODE, (b.itable j).locked = false) → ∀ j < NINODE, (t.itable j).locked = true →
      j ∈ L := by
  intro none j low locked
  have ne : j ≠ ip := by
    rintro rfl
    rw [free] at locked
    cases locked
  rw [acts.other j ne] at locked
  exact (List.mem_cons.1 (tracks.locked none j low locked)).resolve_left ne

theorem swap {ip dp : Nat} (tracks : Tracks D b E₀ (ip ::ₘ dp ::ₘ own) [ip, dp] k E) :
    Tracks D b E₀ (dp ::ₘ ip ::ₘ own) [dp, ip] k E := by
  rw [cons_swap]
  exact { tracks with locked := fun free j low lock => List.mem_pair.2 (List.mem_pair.1 (tracks.locked free j low lock)).symm }

theorem noOrphan (tracks : Tracks D b E₀ own L k E) (noOrphan : NoOrphan b N) : NoOrphan k N := by
  intro i live unlinked
  obtain ⟨jp, used, inum, valid⟩ := noOrphan i live unlinked
  exact ⟨jp, tracks.used used, (tracks.inum jp used).trans inum, tracks.valid jp used valid⟩

theorem covered (tracks : Tracks D b E₀ own L k E) (noOrphan : NoOrphan b N) :
    Covered b own' k N := by
  intro i live unlinked
  obtain ⟨jp, used, inum, -⟩ := noOrphan i live unlinked
  exact ⟨jp, by omega, (tracks.inum jp used).trans inum⟩

/-- `iput` frees nothing while the inodes without links are referred to from before the call. -/
theorem stays (tracks : Tracks D b E₀ (ip ::ₘ own) L k E) (put : Put D E ip k E' t)
    (covered : Covered b own k E.node) :
    E' = E := by
  refine (put.kept ?_).1
  rintro ⟨one, valid, unlinked⟩
  have used := tracks.mine
  have live : (E.node (k.itable ip).inum).type ≠ 0 := by
    rw [Fs.node_type]
    exact tracks.clean.alloc ip used valid nofun
  obtain ⟨jp, usedB, inumB⟩ := covered _ live unlinked
  have usedK : 0 < (k.itable jp).ref := by
    rw [tracks.ref, count_cons]
    omega
  have eq := tracks.clean.unique jp ip usedK used inumB
  have ref := tracks.ref ip
  rw [count_cons_self] at ref
  rw [eq] at usedB
  omega

theorem stays_same (tracks : Tracks D b E₀ (ip ::ₘ own) L k E) (put : Put D E ip k E' t)
    (settled : Settled p b) (same : E.node = E₀.node) : E'.node = E₀.node := by
  have noOrphan := settled.noOrphan
  rw [tracks.origin, ← same] at noOrphan
  rw [tracks.stays put (tracks.covered noOrphan), same]

section Functions

variable (stops : Stops err)

include stops

theorem ilock (noType : err .ilockNoType) (tracks : Tracks D b E₀ own L k E) :
    wp Synced err (ilock ip) (fun _ t => Tracks D b E₀ own (ip :: L) t E ∧ Held t ip (k.itable ip).inum ∧ Acts ip k t ∧
      (k.itable ip).locked = false) k := by
  refine (wp_synced (ilock_wp (.inl stops) tracks.clean fun _ => noType)).mono ?_
  rintro _ t ⟨clean, acts, unlocked, self, ref, -⟩
  refine ⟨tracks.acts clean acts ?_ fun free j low locked => ?_, ?_, acts, unlocked⟩
  · rw [self]
    exact ⟨rfl, rfl, fun _ => rfl⟩
  · by_cases eq : j = ip
    · exact List.mem_cons.2 (.inl eq)
    rw [acts.other j eq] at locked
    exact List.mem_cons_of_mem _ (tracks.locked free j low locked)
  constructor <;> rw [self]
  exact ref

theorem iunlock (tracks : Tracks D b E₀ own (ip :: L) k E) :
    wp Synced err (iunlock ip) (fun _ t => Tracks D b E₀ own L t E ∧
      t.itable ip = { k.itable ip with locked := false }) k := by
  refine (wp_synced (iunlock_wp (.inl stops) tracks.clean)).mono ?_
  rintro _ t ⟨clean, acts, self⟩
  refine ⟨tracks.acts clean acts ?_ (tracks.unlock acts ?_), self⟩
  · rw [self]
    exact ⟨rfl, rfl, id⟩
  rw [self]

theorem iput (tracks : Tracks D b E₀ (ip ::ₘ own) L k E) :
    wp Synced err (iput ip) (fun _ t => ∃ E', Tracks D b E₀ own L t E') k := by
  refine (wp_synced (iput_wp (.inl stops) tracks.clean tracks.mine)).mono ?_
  rintro _ t ⟨E', put, lock⟩
  refine ⟨E', tracks.put put fun free j low locked => tracks.locked free j low ?_⟩
  by_cases eq : j = ip
  · rw [eq, ← lock, ← eq]
    exact locked
  rwa [← put.other j eq]

theorem iunlockput (tracks : Tracks D b E₀ (ip ::ₘ own) (ip :: L) k E) :
    wp Synced err (iunlockput ip) (fun _ t => ∃ E', Tracks D b E₀ own L t E' ∧ Put D E ip k E' t) k := by
  refine (wp_synced (iunlockput_wp (.inl stops) tracks.clean tracks.mine)).mono ?_
  rintro _ t ⟨E', put, free⟩
  exact ⟨E', tracks.put put (tracks.unlock put.toActs free), put⟩

section

variable (tracks : Tracks D b E₀ own L k E)
include tracks

theorem dirlink {dp : Nat} (held : Held k dp i) (name : Name) {inum : Nat}
    (small : inum < k.sb.ninodes) :
    wp Synced err (dirlink dp name inum) (fun r t => ∃ E', Tracks D b E₀ own L t E' ∧ Kept k t ∧
      (r = false → E'.node = E.node) ∧ (∀ j, (E'.node j).type = (E.node j).type) ∧
      ∀ j, j ≠ i → E'.node j = E.node j) k := by
  refine (wp_synced (dirlink_wp stops tracks.clean held name small)).mono ?_
  rintro r t ⟨E', linked⟩
  have safe : Safe b E.node E'.node := by
    cases r with
    | true => exact During.safe_setEntry linked.isDir (linked.done rfl).2
    | false =>
      rw [linked.failed rfl]
      exact .refl b _
  refine ⟨E', tracks.kept linked.clean linked.kept (fun j => by rw [linked.ref]) linked.locked (tracks.safe.trans safe),
    linked.kept, linked.failed, fun j => ?_, fun j ne => ?_⟩
  all_goals cases r with
  | false => rw [linked.failed rfl]
  | true =>
    rw [(linked.done rfl).2]
    first
      | rw [upd_ne ne]
      | by_cases eq : j = i
        · rw [eq, upd_self]
          rfl
        · rw [upd_ne eq]

theorem dirlookup {dp : Nat} (held : Held k dp i) (name : Name) :
    wp Synced err (dirlookup dp name) (fun r t => (E.node i).type = T_DIR ∧
      match (E.node i).lookup name with
      | none => r = none ∧ t = k
      | some s => ∃ ip, r = some (ip, DIRENTSIZE * s) ∧ Tracks D b E₀ (ip ::ₘ own) L t E ∧ Kept k t) k := by
  refine (wp_synced (dirlookup_wp (.inl stops) tracks.clean held name)).mono ?_
  rintro r t ⟨isDir, found⟩
  refine ⟨isDir, ?_⟩
  cases hit : (E.node i).lookup name with
  | none =>
    rw [hit] at found
    exact found
  | some s =>
    rw [hit] at found
    obtain ⟨ip, eq, got⟩ := found
    exact ⟨ip, eq, tracks.got got tracks.safe, got.kept⟩

theorem ialloc {type : Nat} (live : type ≠ 0) (range : type < 65536) :
    wp Synced err (ialloc type) (fun r t => r = none ∧ t = k ∨
      ∃ ip i E', r = some ip ∧ Tracks D b E₀ (ip ::ₘ own) L t E' ∧ Kept k t ∧
        (t.itable ip).inum = i ∧
        (∀ j, 0 < (b.itable j).ref → (b.itable j).inum = i → (E₀.node i).type = 0) ∧
        (0 < i ∧ i < b.sb.ninodes ∧ E.node i = Node.free ∧ (E'.node i).type = type) ∧
        ∀ j, j ≠ i → E'.node j = E.node j) k := by
  refine (wp_synced (ialloc_wp stops tracks.clean live range)).mono ?_
  rintro r t (none | ⟨ip, i, E', rfl, made⟩)
  · exact .inl none
  have fresh : ∀ j, 0 < (b.itable j).ref → (b.itable j).inum = i → (E₀.node i).type = 0 := by
    intro j used eq
    by_contra live
    rw [← eq] at live
    have stays := tracks.safe j used live
    rw [← stays.type, eq, made.free] at live
    exact live rfl
  have safe : Safe b E.node E'.node := by
    rw [made.node]
    apply (Safe.refl b E.node).update
    intro j used eq live
    rw [made.free] at live
    exact absurd rfl live
  refine .inr ⟨ip, i, E', rfl, tracks.got made.got (tracks.safe.trans safe), made.got.kept,
    made.got.named, fresh,
    ⟨made.positive, tracks.frame.sb ▸ made.bound, made.free, ?_⟩, fun j ne => ?_⟩
  · rw [made.node, upd_self]
    rfl
  rw [made.node, upd_ne ne]

theorem assign (held : Held k ip i) {f : Dinode → Dinode} (relabels : Relabels f)
    (device : ∀ j, 0 < (b.itable j).ref → (b.itable j).inum = i → (E₀.node i).type ≠ 0 →
      ∀ d, (f d).major = d.major ∧ (f d).minor = d.minor) {next : Unit → Kern α}
    (rest : ∀ t, Tracks D b E₀ own L t (E.setInode i (f (E.inode i))) → Near ip k t →
      wp Synced err (next ()) post t) :
    wp Synced err (setDinode ip f >>= fun _ => iupdate ip >>= next) post k := by
  have live : (E.inode i).type ≠ 0 := by
    have live := (held.open tracks.clean).live
    rwa [held.inum] at live
  have node := Fs.node_setInode (F := E) (i := i) (d := f (E.inode i))
    (by rw [relabels.type]; exact live) live
    (relabels.addrs _)
  have before := Fs.node_of_alloc live
  refine held.assign stops (fun _ => id) tracks.clean relabels fun t clean near => ?_
  refine rest t (tracks.kept clean near.kept (fun j => by rw [near.ref]) near.lockeds fun j used alive => ?_) near
  have stays := tracks.safe j used alive
  by_cases eq : (b.itable j).inum = i
  · rw [eq] at alive stays ⊢
    have same := device j used eq alive (E.inode i)
    refine stays.trans ?_
    rw [node, before]
    refine ⟨relabels.type _, same.1, same.2, fun _ => ⟨relabels.size _, rfl⟩⟩
  rw [Fs.node_setInode_of_ne eq]
  exact stays

theorem relink (held : Held k ip i) {f : Dinode → Dinode} (relinks : Relinks f) {next : Unit → Kern α}
    (rest : ∀ t, Tracks D b E₀ own L t (E.setInode i (f (E.inode i))) → Near ip k t →
      (E.setInode i (f (E.inode i))).node = Function.update E.node i { E.node i with nlink := (f (E.inode i)).nlink } →
      wp Synced err (next ()) post t) :
    wp Synced err (setDinode ip f >>= fun _ => iupdate ip >>= next) post k := by
  have live : (E.inode i).type ≠ 0 := by
    have live := (held.open tracks.clean).live
    rwa [held.inum] at live
  refine tracks.assign stops held relinks.toRelabels (fun _ _ _ _ => relinks.device) fun t tracks' near =>
    rest t tracks' near ?_
  funext j
  by_cases eq : j = i
  · subst eq
    have device := relinks.device (E.inode j)
    rw [upd_self, Fs.node_setInode (by rw [relinks.type]; exact live) live (relinks.addrs _),
      Fs.node_of_alloc live, relinks.type, relinks.size, device.1, device.2]
  rw [upd_ne eq, Fs.node_setInode_of_ne eq]

end

/-- The rule for a path: one more reference, to an inode of the tree. -/
theorem namex (noType : err .ilockNoType) (tracks : Tracks D b E₀ own [] k E) (housed : Housed b p) (path : Path)
    (parent : Bool) :
    wp Synced err (namex p path parent) (fun r t => ∃ E', (NoOrphan k E.node → E'.node = E.node) ∧ Kept k t ∧
      match r with
      | none => Tracks D b E₀ own [] t E'
      | some (ip, _) => Tracks D b E₀ (ip ::ₘ own) [] t E') k := by
  obtain ⟨c, cwd, used⟩ := housed
  rw [← tracks.proc] at cwd
  have free : (∀ j < NINODE, (b.itable j).locked = false) →
      ∀ j < NINODE, (k.itable j).locked = false := by
    intro none j low
    by_contra locked
    cases tracks.locked none j low (Bool.of_not_eq_false locked)
  have same : ∀ {t : Kernel}, ((∀ j < NINODE, (k.itable j).locked = false) →
      ∀ j < NINODE, (t.itable j).locked = false) →
      (∀ j < NINODE, (b.itable j).locked = false) → ∀ j < NINODE, (t.itable j).locked = true → j ∈ ([] : List Nat) := by
    intro t unlocked none j low locked
    rw [unlocked (free none) j low] at locked
    cases locked
  refine (wp_synced (namex_wp (.inl stops) tracks.clean cwd (tracks.used used) path parent (.inl noType))).mono ?_
  intro r t walked
  cases r with
  | none =>
    obtain ⟨E', clean, kept, ref, safe, unlocked, node⟩ := walked
    refine ⟨E', fun none => (node none).1, kept,
      tracks.step clean kept.toFrame (fun j => by rw [ref]) (fun j used => ?_)
      (same unlocked) (tracks.safe_of_kept safe)⟩
    obtain ⟨-, inum, -, valid⟩ := kept.entry j used
    exact ⟨inum, valid⟩
  | some found =>
    obtain ⟨E', walking, -⟩ := walked
    refine ⟨E', walking.same, walking.kept,
      tracks.step walking.clean walking.kept.toFrame (fun j => ?_) (fun j used => ?_)
      (same walking.unlocked) (tracks.safe_of_kept walking.safe)⟩
    · rw [walking.ref, count_cons]
      omega
    obtain ⟨-, inum, -, valid⟩ := walking.kept.entry j used
    exact ⟨inum, valid⟩

/-- A walk along a path leaves the tree, in a call that started from a settled kernel. -/
theorem walk (noType : err .ilockNoType) (tracks : Tracks D b E₀ own [] k E) (housed : Housed b p)
    (same : Settled p b → E.node = E₀.node) (path : Path) (parent : Bool) :
    wp Synced err (Xv6.namex p path parent) (fun r t => ∃ E', (Settled p b → E'.node = E₀.node) ∧ match r with
      | none => Tracks D b E₀ own [] t E'
      | some (ip, _) => Tracks D b E₀ (ip ::ₘ own) [] t E') k := by
  refine (tracks.namex stops noType housed path parent).mono ?_
  rintro r t ⟨E', node, -, walked⟩
  refine ⟨E', fun settled => (node ?_).trans (same settled), walked⟩
  rw [same settled, ← tracks.origin]
  exact tracks.noOrphan settled.noOrphan

/-- What `namex` returns is what the path means to the caller. -/
theorem resolves (noType : err .ilockNoType) (tracks : Tracks D b E₀ own [] k E)
    (housed : Housed b p) (same : Settled p b → E.node = E₀.node) (path : Path) (parent : Bool) :
    wp Synced err (Xv6.namex p path parent) (fun r t => ∀ ip name, r = some (ip, name) → ∀ c,
      (b.proc p).cwd = some c → 0 < (b.itable c).ref → Settled p b →
      resolve b.fs.node (b.itable c).inum path parent = some ((t.itable ip).inum, name)) k := by
  obtain ⟨c, cwd, used⟩ := housed
  have here := cwd
  rw [← tracks.proc] at cwd
  refine (wp_synced (namex_wp (.inl stops) tracks.clean cwd (tracks.used used) path parent (.inl noType))).mono ?_
  rintro _ t walked ip name rfl c' cwd' - settled
  obtain rfl : c = c' := Option.some.inj (here.symm.trans cwd')
  obtain ⟨E', -, found⟩ := walked
  have noOrphan : NoOrphan k E.node := by
    rw [same settled, ← tracks.origin]
    exact tracks.noOrphan settled.noOrphan
  have resolved := found noOrphan
  rwa [same settled, ← tracks.origin, tracks.inum c used] at resolved

theorem namei (noType : err .ilockNoType) (tracks : Tracks D b E₀ own [] k E) (housed : Housed b p)
    (same : Settled p b → E.node = E₀.node) (path : Path) :
    wp Synced err (namei p path) (fun r t => ∃ E', (Settled p b → E'.node = E₀.node) ∧ match r with
      | none => Tracks D b E₀ own [] t E'
      | some ip => Tracks D b E₀ (ip ::ₘ own) [] t E') k := by
  refine wp_seq _ (tracks.walk stops noType housed same path false) ?_
  rintro (- | found) t walked
  · exact wp_pure walked
  exact wp_pure walked

end Functions

end Tracks

theorem Settled.restored {p : Nat} {k : Kernel} (settled : Settled p k) : Restored k k :=
  ⟨settled.consistent, rfl, fun _ => rfl, fun _ _ => rfl, settled.unlocked, rfl⟩

/-- A call that leaves a consistent file system, and everything as before if it fails. -/
def Finished (p : Nat) (k : Kernel) (E₀ : Fs) (r : Int) (u : Kernel) : Prop :=
  Ended k E₀ u ∧ (r = -1 → Settled p k → SameFiles k u ∧ Restored k u)

/-- `create` returns a locked inode with a reference, or nothing. -/
def Created (D : Nat → Block) (b : Kernel) (E₀ : Fs) (own : Multiset Nat) (r : Option Nat)
    (t : Kernel) : Prop :=
  match r with
  | none => ∃ E', During D b E₀ own t E'
  | some ip => ∃ E' i, During D b E₀ (ip ::ₘ own) t E' ∧ Held t ip i

/-- `Created`, and if it is nothing then `create` has undone everything. An inode that it returns
was there, or `new` holds and it is a new one of the type that was asked for. -/
def Makes (p : Nat) (D : Nat → Block) (b : Kernel) (E₀ : Fs) (type : Nat) (new : Prop)
    (r : Option Nat) (u : Kernel) :
    Prop :=
  match r with
  | none => ∃ E, Tracks D b E₀ 0 [] u E ∧ (Settled p b → E.node = E₀.node)
  | some ip => ∃ E i, Tracks D b E₀ (ip ::ₘ 0) [ip] u E ∧ Held u ip i ∧
      ((Settled p b → E.node = E₀.node) ∨ new ∧ (E.node i).type = type)

/-- The path leads to a directory that has no entry of its last name, and there is a free inode. -/
def Creatable (p : Nat) (path : Path) (k : Kernel) : Prop :=
  ∃ c d name, (k.proc p).cwd = some c ∧ resolve k.fs.node (k.itable c).inum path true = some (d, name) ∧
    (k.fs.node d).lookup name = none ∧ ∃ i, 0 < i ∧ i < k.sb.ninodes ∧ k.fs.node i = Node.free

/-- The inode `i` with one link more. -/
def raised (N : Nat → Node) (i : Nat) : Nat → Node :=
  Function.update N i { N i with nlink := ((N i).nlink + 1) % 65536 }

section Calls

variable {D : Nat → Block} {err : Panic → Prop} {E₀ E : Fs} {b k t : Kernel} {own : Multiset Nat} {L : List Nat}
  {p ip dp i d : Nat}

theorem Tracks.carries (tracks : Tracks D b E₀ own L t E)
    (unlocked : ∀ j < NINODE, (b.itable j).locked = false) :
    Carries D b own L t E :=
  ⟨tracks.frame, tracks.clean, tracks.ref, fun j used => ⟨tracks.inum j used, tracks.valid j used⟩, tracks.locked unlocked⟩

theorem Settled.begun (settled : Settled p k) (ok : Clean D E k) (clean : Clean D E b)
    (quiet : Quiet k b) (outstanding : b.log.outstanding = k.log.outstanding + 1) :
    Begun p k b := by
  obtain ⟨-, noOrphan, unlocked, live, c, cwd, used⟩ := settled
  have same : b.fs = k.fs := by rw [clean.fs_eq, ok.fs_eq]
  refine ⟨⟨⟨D, E, clean⟩, ?_, ?_, ?_, c, ?_, ?_⟩, quiet, by rw [same], outstanding⟩
  · rw [NoOrphan, same, quiet.itable]
    exact noOrphan
  · rw [quiet.itable]
    exact unlocked
  · rw [same, quiet.itable]
    exact live
  · rw [quiet.proc]
    exact cwd
  rw [quiet.itable]
  exact used

/-- After `end_op` the kernel is what it was at the start of the call. -/
theorem Begun.restored {D' : Nat → Block} {u : Kernel} (begun : Begun p k b)
    (carries : Carries D b 0 [] t E) (same : E.node = b.fs.node) (clean : Clean D' E u)
    (quiet : Quiet t u) (outstanding : u.log.outstanding = t.log.outstanding - 1) :
    SameFiles k u ∧ Restored k u := by
  have files : SameFiles k u := ⟨quiet.ftable.trans (carries.ftable.trans begun.quiet.ftable),
    quiet.proc.trans (carries.proc.trans begun.quiet.proc)⟩
  refine ⟨files, ⟨D', E, clean⟩, ?_, fun j => ?_, fun j used => ?_, fun j low => ?_, ?_⟩
  · rw [clean.fs_eq, same, begun.nodes]
  · rw [quiet.itable, carries.ref, begun.quiet.itable, count_zero, add_zero]
  · rw [← begun.quiet.itable] at used ⊢
    rw [quiet.itable]
    exact (carries.entry j used).1
  · rw [quiet.itable]
    by_contra locked
    cases carries.locked j low (Bool.of_not_eq_false locked)
  rw [outstanding, carries.outstanding, begun.outstanding]
  omega

variable (stops : Stops err)

include stops

theorem beginOp_tracks (ok : Clean D E k) (p : Nat) :
    wp Synced err beginOp (fun _ b => Tracks D b E 0 [] b E ∧ Quiet k b ∧ (Settled p k → Begun p k b) ∧
      (Housed k p → Housed b p)) k := by
  refine (beginOp_wp (.inl stops) ok).mono ?_
  rintro _ b ⟨clean, quiet, log⟩
  refine ⟨.start clean, quiet, fun settled => settled.begun ok clean quiet (by rw [log]), ?_⟩
  rw [Housed, Housed, quiet.proc, quiet.itable]
  exact id

variable (noType : err .ilockNoType) (before : Quiet k b) (begun : Settled p k → Begun p k b)

section Ends

include before begun

/-- The end of a call that has given back all it took. -/
theorem Tracks.finish (tracks : Tracks D b E₀ 0 [] t E) (r : Int) (same : r = -1 → Settled p b → E.node = E₀.node) :
    wp Synced err (do endOp; return r : Kern Int) (fun r' u => r' = r ∧ Finished p k E₀ r' u) t := by
  refine wp_seq _ (endOp_wp (.inl stops) tracks.clean) ?_
  rintro _ u ⟨D', clean, quiet, outstanding, -⟩
  refine wp_pure ⟨rfl, ⟨D', E, tracks.quiet before quiet clean⟩, fun fails settled => ?_⟩
  refine (begun settled).restored (tracks.carries (begun settled).unlocked) ?_ clean quiet outstanding
  rw [same fails (begun settled).toSettled, tracks.origin]

theorem Tracks.return (tracks : Tracks D b E₀ 0 [] t E) (r : Int) (same : r = -1 → Settled p b → E.node = E₀.node) :
    wp Synced err (do endOp; return r : Kern Int) (Finished p k E₀) t :=
  (tracks.finish stops before begun r same).mono fun _ _ done => done.2

theorem Tracks.refuse (tracks : Tracks D b E₀ (ip ::ₘ 0) [ip] t E) (same : Settled p b → E.node = E₀.node) :
    wp Synced err (do Xv6.iunlockput ip; endOp; return -1 : Kern Int) (Finished p k E₀) t := by
  refine wp_seq _ (tracks.iunlockput stops) ?_
  rintro _ u ⟨E', tracks', put⟩
  exact tracks'.return stops before begun _ fun _ settled => tracks.stays_same put settled (same settled)

end Ends

/-! ### `sys_link` -/

omit stops in
theorem raised_covered (settled : Settled p b) (tracks : Tracks D b E₀ own L t E)
    (inum : (t.itable ip).inum = i) :
    Covered b (ip ::ₘ 0) t (raised E₀.node i) := by
  intro j live unlinked
  by_cases eq : j = i
  · exact ⟨ip, by rw [count_cons_self]; omega, inum.trans eq.symm⟩
  rw [raised, upd_ne eq, ← tracks.origin] at live unlinked
  exact tracks.covered settled.noOrphan j live unlinked

omit stops in
theorem raised_noOrphan (settled : Settled p b) (tracks : Tracks D b E₀ own L t E)
    (used : 0 < (t.itable ip).ref) (inum : (t.itable ip).inum = i)
    (valid : (t.itable ip).valid = true) : NoOrphan t (raised E₀.node i) := by
  intro j live unlinked
  by_cases eq : j = i
  · exact ⟨ip, used, inum.trans eq.symm, valid⟩
  rw [raised, upd_ne eq, ← tracks.origin] at live unlinked
  exact tracks.noOrphan settled.noOrphan j live unlinked

include noType

section Ends

include before begun

/-- The label `bad` of `sys_link` takes the link count back. -/
theorem linkBad_wp (tracks : Tracks D b E₀ (ip ::ₘ 0) [] t E) (inum : (t.itable ip).inum = i)
    (up : Settled p b → E.node = raised E₀.node i ∧ (E₀.node i).nlink < 65536) :
    wp Synced err (linkBad ip) (Finished p k E₀) t := by
  refine wp_seq _ (tracks.ilock stops noType) ?_
  rintro _ t₁ ⟨tracks₁, held, -, -⟩
  rw [inum] at held
  have live : (E.inode i).type ≠ 0 := by
    have live := (held.open tracks₁.clean).live
    rwa [held.inum] at live
  refine tracks₁.relink stops held relinks_decLink fun t₂ tracks₂ _ down => ?_
  refine tracks₂.refuse stops before begun fun settled => ?_
  obtain ⟨node, small⟩ := up settled
  have nlink : (E.inode i).nlink = ((E₀.node i).nlink + 1) % 65536 := by
    have here := congrFun node i
    rw [raised, upd_self, Fs.node_of_alloc live] at here
    exact congrArg Node.nlink here
  have back : (Dinode.decLink (E.inode i)).nlink = (E₀.node i).nlink := by
    show ((E.inode i).nlink + 65535) % 65536 = _
    omega
  rw [down, back, node, raised, upd_self, upd_idem]
  exact upd_eq_self i _

end Ends

/-- The rule for `sys_link`. -/
theorem sysLink_wp (ok : Clean D E k) (housed : Housed k p) (old new : Option Path) :
    wp Synced err (sysLink p old new) (Finished p k E) k := by
  have nothing : ∀ r, Finished p k E r k :=
    fun _ => ⟨⟨D, E, (Tracks.start ok).toDuring⟩, fun _ settled => ⟨⟨rfl, rfl⟩, settled.restored⟩⟩
  rcases old with - | old
  · exact wp_pure (nothing _)
  rcases new with - | new
  · exact wp_pure (nothing _)
  rw [sysLink]
  refine wp_seq _ (beginOp_tracks stops ok p) ?_
  rintro _ b ⟨tracks, before, begun, there⟩
  have housed := there housed
  refine wp_seq _ (tracks.namei stops noType housed (fun _ => rfl) old) ?_
  rintro (- | ip) t₁ ⟨E₁, same₁, tracks₁⟩
  · exact tracks₁.return stops before begun _ fun _ => same₁
  refine wp_seq _ (tracks₁.ilock stops noType) ?_
  rintro _ t₂ ⟨tracks₂, held, -, -⟩
  generalize (t₁.itable ip).inum = i at held
  rw [wp_inode_bind]
  split
  · exact tracks₂.refuse stops before begun same₁
  have live : (E₁.inode i).type ≠ 0 := by
    have live := (held.open tracks₂.clean).live
    rwa [held.inum] at live
  have range := (tracks₂.clean.good.range i).nlink
  refine tracks₂.relink stops held relinks_incLink fun t₃ tracks₃ near up => ?_
  have up : Settled p b → (E₁.setInode i (Dinode.incLink (E₁.inode i))).node = raised E.node i ∧
      (E.node i).nlink < 65536 := by
    intro settled
    have nlink : (E₁.inode i).nlink =
        (E.node i).nlink := by rw [← same₁ settled, Fs.node_of_alloc live]
    have count : (Dinode.incLink (E₁.inode i)).nlink = ((E.node i).nlink + 1) % 65536 := by
      rw [← nlink]
      rfl
    rw [nlink] at range
    exact ⟨up.trans (by rw [count, same₁ settled, raised]), range⟩
  have held₃ := near.kept.held held
  refine wp_seq _ (tracks₃.iunlock stops) ?_
  rintro _ t₄ ⟨tracks₄, self⟩
  have inum₄ : (t₄.itable ip).inum = i := by
    rw [self]
    exact held₃.inum
  refine wp_seq _ (tracks₄.namex stops noType housed new true) ?_
  rintro r t₅ ⟨E₅, node₅, kept₅, walked⟩
  have inum₅ := (kept₅.entry ip tracks₄.mine).2.1.trans inum₄
  have node₅ : Settled p b → E₅.node = raised E.node i := by
    intro settled
    have noOrphan := raised_noOrphan settled tracks₄ tracks₄.mine inum₄ (by rw [self]; exact held₃.valid)
    rw [← (up settled).1] at noOrphan ⊢
    exact node₅ noOrphan
  rcases r with - | ⟨dp, name⟩
  · exact linkBad_wp stops noType before begun walked inum₅ fun settled => ⟨node₅ settled,
      (up settled).2⟩
  refine wp_seq _ (walked.ilock stops noType) ?_
  rintro _ t₆ ⟨tracks₆, heldD, acts, -⟩
  have mine : 0 < (t₆.itable ip).ref := by
    have swapped := tracks₆.toDuring
    rw [cons_swap] at swapped
    exact swapped.mine
  have inum₆ : (t₆.itable ip).inum = i := by
    by_cases eq : ip = dp
    · subst eq
      exact heldD.inum.trans inum₅
    rw [acts.other ip eq]
    exact inum₅
  have rest : ∀ (linked : Bool) t E', Tracks D b E (dp ::ₘ ip ::ₘ 0) [dp] t E' →
      (t.itable ip).inum = i →
      (linked = false → Settled p b → E'.node = raised E.node i) → wp Synced err
      (do
        Xv6.iunlockput dp
        if linked then
          Xv6.iput ip
          endOp
          return 0
        else linkBad ip : Kern Int) (Finished p k E) t := by
    intro linked t E' tracks inum node
    refine wp_seq _ (tracks.iunlockput stops) ?_
    rintro _ u ⟨E₈, tracks₈, put⟩
    cases linked with
    | true =>
      refine wp_seq _ (tracks₈.iput stops) ?_
      rintro _ v ⟨E₉, tracks₉⟩
      exact tracks₉.return stops before begun _ nofun
    | false =>
      have inum' : (u.itable ip).inum = i := by
        by_cases eq : ip = dp
        · rw [eq, put.inum, ← eq]
          exact inum
        rw [put.other ip eq]
        exact inum
      refine linkBad_wp stops noType before begun tracks₈ inum' fun settled => ⟨?_, (up settled).2⟩
      rw [tracks.stays put (by rw [node rfl settled]; exact raised_covered settled tracks inum),
        node rfl settled]
  simp only [wp_inode_bind]
  split
  · exact rest false t₆ E₅ tracks₆ inum₆ fun _ => node₅
  rw [wp_inode_bind]
  refine wp_seq _ (tracks₆.dirlink stops heldD name (tracks₆.clean.table ip mine).bound) ?_
  rintro linked t₇ ⟨E₇, tracks₇, kept₇, failed, -⟩
  refine rest linked t₇ E₇ tracks₇ ((kept₇.entry ip mine).2.1.trans inum₆) fun no settled => ?_
  rw [failed no, node₅ settled]

/-! ### `create` -/

/-- The label `fail` of `create` frees the new inode. -/
theorem createFail_wp {type : Nat} {made : Prop}
    (tracks : Tracks D b E₀ (ip ::ₘ dp ::ₘ 0) [ip, dp] t E) (held : Held t ip i) (ne : dp ≠ ip)
    (new : Settled p b → E₀.node i = Node.free ∧ ∀ j, j ≠ i → E.node j = E₀.node j) :
    wp Synced err (createFail ip dp) (Makes p D b E₀ type made) t := by
  refine tracks.relink stops held (relinks_nlink (fun _ => 0) fun _ => by omega) fun t₁ tracks₁ near node => ?_
  have held₁ := near.kept.held held
  refine wp_seq _ (tracks₁.iunlockput stops) ?_
  rintro _ t₂ ⟨E₂, tracks₂, put⟩
  have same : Settled p b → E₂.node = E₀.node := by
    intro settled
    obtain ⟨free, apart⟩ := new settled
    have unused : (b.itable ip).ref = 0 := by
      by_contra used
      have live := settled.live ip (Nat.pos_of_ne_zero used)
      rw [← tracks.inum ip (Nat.pos_of_ne_zero used), held.inum, tracks.origin, free] at live
      exact live rfl
    have one : (t₁.itable ip).ref = 1 := by
      rw [tracks₁.ref, unused, count_cons_self, Multiset.count_cons_of_ne ne.symm, count_zero]
    have freed := put.freed one held₁.valid (by rw [held₁.inum, node, upd_self])
    rw [freed, held₁.inum, node, upd_idem]
    funext j
    by_cases eq : j = i
    · rw [eq, upd_self, free]
    rw [upd_ne eq, apart j eq]
  refine wp_seq _ (tracks₂.iunlockput stops) ?_
  rintro _ t₃ ⟨E₃, tracks₃, put₃⟩
  exact wp_pure ⟨E₃, tracks₃, fun settled => tracks₂.stays_same put₃ settled (same settled)⟩

omit noType in
theorem linkDots_wp (tracks : Tracks D b E₀ own L t E) (held : Held t ip i) (heldD : Held t dp d) :
    wp Synced err (linkDots ip dp) (fun _ u => ∃ E', Tracks D b E₀ own L u E' ∧ Kept t u ∧
      (∀ j, (E'.node j).type = (E.node j).type) ∧ ∀ j, j ≠ i → E'.node j = E.node j) t := by
  have bound := (tracks.clean.table ip held.ref).bound
  simp only [linkDots, wp_inode_bind]
  refine wp_seq _ (tracks.dirlink stops held dotName bound) ?_
  rintro r t₁ ⟨E₁, tracks₁, kept₁, -, types₁, apart₁⟩
  split
  · have bound' := (tracks₁.clean.table dp (kept₁.held heldD).ref).bound
    rw [wp_inode_bind]
    refine (tracks₁.dirlink stops (kept₁.held held) dotdotName bound').mono ?_
    rintro _ u ⟨E₂, tracks₂, kept₂, -, types₂, apart₂⟩
    exact ⟨E₂, tracks₂, kept₁.trans kept₂, fun j => (types₂ j).trans (types₁ j),
      fun j ne => (apart₂ j ne).trans (apart₁ j ne)⟩
  exact wp_pure ⟨E₁, tracks₁, kept₁, types₁, apart₁⟩

theorem createEntry_wp {type : Nat} {made : Prop} {name : Name} (new' : made) (ofType : (E.node i).type = type) (tracks : Tracks D b E₀ (ip ::ₘ dp ::ₘ 0) [ip, dp] t E)
    (held : Held t ip i) (heldD : Held t dp d) (ne : dp ≠ ip)
    (new : Settled p b → E₀.node i = Node.free ∧ ∀ j, j ≠ i → E.node j = E₀.node j) (dots : Bool) :
    wp Synced err (do
        if dots then
          if ← dirlink dp name (← inode ip).inum then
            if type = T_DIR then
              setDinode dp Dinode.incLink
              iupdate dp
            iunlockput dp
            return some ip
          else createFail ip dp
        else createFail ip dp : Kern (Option Nat)) (Makes p D b E₀ type made) t := by
  split
  swap
  · exact createFail_wp stops noType tracks held ne new
  rw [wp_inode_bind]
  refine wp_seq _ (tracks.dirlink stops heldD name (tracks.clean.table ip held.ref).bound) ?_
  rintro linked t₁ ⟨E₁, tracks₁, kept₁, failed, types, -⟩
  have held₁ := kept₁.held held
  cases linked with
  | false =>
    rw [← failed rfl] at new
    exact createFail_wp stops noType tracks₁ held₁ ne new
  | true =>
    -- the new inode is in its directory; only the lock of the directory is left to give back
    have leave : ∀ u E', Tracks D b E₀ (ip ::ₘ dp ::ₘ 0) [ip, dp] u E' → Held u ip i →
        (E'.node i).type = type →
        wp Synced err (do iunlockput dp; return some ip : Kern (Option Nat)) (Makes p D b E₀ type made) u := by
      intro u E' tracks held ofType
      refine wp_seq _ (tracks.swap.iunlockput stops) ?_
      rintro _ v ⟨E'', tracks', put⟩
      have held' := held.other put.toActs ne.symm
      exact wp_pure ⟨E'', i, tracks', held', .inr ⟨new', (put.type_of_held held').trans ofType⟩⟩
    simp only [if_true]
    split
    · exact tracks₁.relink stops (kept₁.held heldD) relinks_incLink fun u tracks₂ near node =>
        leave u _ tracks₂ (near.kept.held held₁) (by
          rw [node, Function.apply_update (fun _ => Node.type), Function.update_eq_self_iff.mpr rfl]
          exact (types i).trans ofType)
    exact leave _ _ tracks₁ held₁ ((types i).trans ofType)

theorem createNew_wp {type major minor : Nat} {made : Prop} {name : Name} (new' : made)
    (ofType : (E.node i).type = type) (tracks : Tracks D b E₀ (ip ::ₘ dp ::ₘ 0) [dp] t E)
    (inum : (t.itable ip).inum = i) (heldD : Held t dp d)
    (fresh : ∀ j, 0 < (b.itable j).ref → (b.itable j).inum = i → (E₀.node i).type = 0)
    (new : Settled p b → E₀.node i = Node.free ∧ ∀ j, j ≠ i → E.node j = E₀.node j)
    (smallMajor : major < 65536) (smallMinor : minor < 65536) :
    wp Synced err (createNew dp name type major minor ip) (Makes p D b E₀ type made) t := by
  have relabels : Relabels fun d => { d with major, minor, nlink := 1 } :=
    ⟨fun _ => rfl, fun _ => rfl, fun _ => rfl, fun _ range =>
      ⟨range.type, smallMajor, smallMinor, show 1 < 65536 by decide, range.size, range.addrs⟩⟩
  refine wp_seq _ (tracks.ilock stops noType) ?_
  rintro _ t₁ ⟨tracks₁, held₁, acts, unlocked⟩
  rw [inum] at held₁
  have ne : dp ≠ ip := by
    rintro rfl
    rw [heldD.locked] at unlocked
    cases unlocked
  have heldD₁ := heldD.other acts ne
  refine tracks₁.assign stops held₁ relabels (fun j used eq live => absurd (fresh j used eq) live) ?_
  intro t₂ tracks₂ near
  have held₂ := near.kept.held held₁
  have heldD₂ := near.kept.held heldD₁
  have new₂ : Settled p b → E₀.node i = Node.free ∧
      ∀ j, j ≠ i → (E.setInode i { E.inode i with major, minor, nlink := 1 }).node j = E₀.node j := by
    intro settled
    refine ⟨(new settled).1, fun j off => ?_⟩
    rw [Fs.node_setInode_of_ne off, (new settled).2 j off]
  have ofType₂ : ((E.setInode i { E.inode i with major, minor, nlink := 1 }).node i).type =
    type := by
    rw [Fs.node_type, Fs.setInode_inode, upd_self, ← ofType, Fs.node_type]
  dsimp only
  by_cases isDir : type = T_DIR
  · rw [if_pos isDir]
    refine wp_seq _ (linkDots_wp stops tracks₂ held₂ heldD₂) ?_
    rintro dots t₃ ⟨E₃, tracks₃, kept, types, apart⟩
    exact createEntry_wp stops noType new' ((types i).trans ofType₂) tracks₃ (kept.held held₂)
      (kept.held heldD₂) ne
      (fun settled => ⟨(new₂ settled).1, fun j off => (apart j off).trans ((new₂ settled).2 j off)⟩) dots
  rw [if_neg isDir]
  exact createEntry_wp stops noType new' ofType₂ tracks₂ held₂ heldD₂ ne new₂ true

/-- The rule for `create`. -/
theorem create_makes (tracks : Tracks D b E₀ 0 [] t E) (housed : Housed b p)
    (same : Settled p b → E.node = E₀.node) (path : Path) {type major minor : Nat}
    (live : type ≠ 0) (small : type < 65536) (smallMajor : major < 65536)
    (smallMinor : minor < 65536) :
    wp Synced err (create p path type major minor) (Makes p D b E₀ type (Settled p b →
      Creatable p path b)) t := by
  rw [create]
  refine wp_seq _ ((tracks.walk stops noType housed same path true).and
    (tracks.resolves stops noType housed same path true)) ?_
  rintro (- | ⟨dp, name⟩) t₁ ⟨⟨E₁, same₁, tracks₁⟩, resolved⟩
  · exact wp_pure ⟨E₁, tracks₁, same₁⟩
  refine wp_seq _ (tracks₁.ilock stops noType) ?_
  rintro _ t₂ ⟨tracks₂, heldD, -, -⟩
  refine wp_seq _ (tracks₂.dirlookup stops heldD name) ?_
  rintro r t₃ ⟨-, found⟩
  cases hit : (E₁.node (t₁.itable dp).inum).lookup name with
  | some s =>
    rw [hit] at found
    obtain ⟨ip, rfl, tracks₃, -⟩ := found
    rw [cons_swap] at tracks₃
    refine wp_seq _ (tracks₃.iunlockput stops) ?_
    rintro _ t₄ ⟨E₄, tracks₄, put₄⟩
    refine wp_seq _ (tracks₄.ilock stops noType) ?_
    rintro _ t₅ ⟨tracks₅, held, -, -⟩
    rw [wp_inode_bind]
    dsimp only
    split
    · exact wp_pure ⟨E₄, _, tracks₅, held,
        .inl fun settled => tracks₃.stays_same put₄ settled (same₁ settled)⟩
    refine wp_seq _ (tracks₅.iunlockput stops) ?_
    rintro _ t₆ ⟨E₆, tracks₆, put₆⟩
    exact wp_pure ⟨E₆, tracks₆, fun settled => tracks₅.stays_same put₆ settled
      (tracks₃.stays_same put₄ settled (same₁ settled))⟩
  | none =>
    rw [hit] at found
    obtain ⟨rfl, rfl⟩ := found
    refine wp_seq _ (tracks₂.ialloc stops live small) ?_
    rintro r t₄ (⟨rfl, rfl⟩ | ⟨ip, i, E₄, rfl, tracks₄, kept, inum, fresh,
      ⟨positive, bound, free, ofType⟩, apart⟩)
    · refine wp_seq _ (tracks₂.iunlockput stops) ?_
      rintro _ t₅ ⟨E₅, tracks₅, put⟩
      exact wp_pure ⟨E₅, tracks₅, fun settled => tracks₂.stays_same put settled (same₁ settled)⟩
    have creatable : Settled p b → Creatable p path b := by
      intro settled
      obtain ⟨c, cwd, used⟩ := housed
      refine ⟨c, _, name, cwd, resolved dp name rfl c cwd used settled, ?_, i, positive, bound, ?_⟩
      · rw [tracks.origin, ← same₁ settled]
        exact hit
      rw [tracks.origin, ← same₁ settled]
      exact free
    refine createNew_wp stops noType creatable ofType tracks₄ inum (kept.held heldD) fresh (fun settled => ?_)
      smallMajor smallMinor
    rw [← same₁ settled]
    exact ⟨free, apart⟩

theorem create_wp (ok : Clean D E k) (housed : Housed k p) (path : Path) {type major minor : Nat}
    (live : type ≠ 0) (small : type < 65536) (smallMajor : major < 65536)
    (smallMinor : minor < 65536) :
    wp Synced err (create p path type major minor) (Created D k E 0) k := by
  refine (create_makes stops noType (.start ok) housed (fun _ => rfl) path live small smallMajor smallMinor).mono ?_
  rintro (- | ip) t makes
  · obtain ⟨E', tracks, -⟩ := makes
    exact ⟨E', tracks.toDuring⟩
  obtain ⟨E', i, tracks, held, -⟩ := makes
  exact ⟨E', i, tracks.toDuring, held⟩

/-! ### `sys_unlink` -/

section Ends

include before begun

omit noType in
theorem unlinkEnd_wp (tracks : Tracks D b E₀ (ip ::ₘ dp ::ₘ 0) [ip, dp] t E) (held : Held t ip i) (ne : dp ≠ ip) :
    wp Synced err (do
        iunlockput dp
        setDinode ip Dinode.decLink
        iupdate ip
        iunlockput ip
        endOp
        return 0 : Kern Int) (Finished p k E₀) t := by
  refine wp_seq _ (tracks.swap.iunlockput stops) ?_
  rintro _ t₁ ⟨E₁, tracks₁, put⟩
  refine tracks₁.relink stops (held.other put.toActs ne.symm) relinks_decLink fun t₂ tracks₂ _ _ => ?_
  refine wp_seq _ (tracks₂.iunlockput stops) ?_
  rintro _ t₃ ⟨E₃, tracks₃, -⟩
  exact tracks₃.return stops before begun _ nofun

omit noType in
theorem unlinkEntry_wp {s : Nat} (tracks : Tracks D b E₀ (ip ::ₘ dp ::ₘ 0) [ip, dp] t E) (heldD : Held t dp d)
    (heldI : Held t ip i) (ne : dp ≠ ip) (isDir : (E.node d).type = T_DIR)
    (low : s ≤ (E.node d).entries) :
    wp Synced err (do
        let r ← writei dp (.kernel fun _ => 0) (DIRENTSIZE * s) DIRENTSIZE
        if r ≠ DIRENTSIZE then Prog.fail .unlinkWritei
        if (← inode ip).d.type = T_DIR then
          setDinode dp Dinode.decLink
          iupdate dp
        iunlockput dp
        setDinode ip Dinode.decLink
        iupdate ip
        iunlockput ip
        endOp
        return 0 : Kern Int) (Finished p k E₀) t := by
  have positive : 0 < t.sb.ninodes := lt_of_lt_of_le Nat.one_pos tracks.clean.wf.root.le
  rw [zeroDirent_byte]
  refine wp_seq _ (wp_synced (writei_dirent_wp stops tracks.clean heldD isDir low
    (show (⟨0, fun _ => 0⟩ : Dirent).inum < t.sb.ninodes from positive))) ?_
  rintro r u ⟨E', worked, outcome⟩
  refine wp_guard (fun _ => stops _ nofun nofun) fun done => ?_
  rcases outcome with ⟨-, node⟩ | ⟨short, -⟩
  swap
  · exact absurd short done
  have near := worked.near
  have tracks' := tracks.kept worked.clean near.kept (fun j => by rw [near.ref]) near.lockeds
    (tracks.safe.trans (During.safe_setEntry isDir node))
  rw [wp_inode_bind]
  split
  · exact tracks'.relink stops (near.kept.held heldD) relinks_decLink fun v tracks₂ near₂ _ =>
      unlinkEnd_wp stops before begun tracks₂ (near₂.kept.held (near.kept.held heldI)) ne
  exact unlinkEnd_wp stops before begun tracks' (near.kept.held heldI) ne

end Ends

/-- The rule for `sys_unlink`. -/
theorem sysUnlink_wp (ok : Clean D E k) (housed : Housed k p) (path : Option Path) :
    wp Synced err (sysUnlink p path) (Finished p k E) k := by
  cases path with
  | none => exact wp_pure ⟨⟨D, E, (Tracks.start ok).toDuring⟩, fun _ settled => ⟨⟨rfl, rfl⟩, settled.restored⟩⟩
  | some path =>
    rw [sysUnlink]
    refine wp_seq _ (beginOp_tracks stops ok p) ?_
    rintro _ b ⟨tracks, before, begun, there⟩
    have housed := there housed
    refine wp_seq _ (tracks.walk stops noType housed (fun _ => rfl) path true) ?_
    rintro (- | ⟨dp, name⟩) t₁ ⟨E₁, same₁, tracks₁⟩
    · exact tracks₁.return stops before begun _ fun _ => same₁
    refine wp_seq _ (tracks₁.ilock stops noType) ?_
    rintro _ t₂ ⟨tracks₂, heldD, -, -⟩
    dsimp only
    split
    · exact tracks₂.refuse stops before begun same₁
    refine wp_seq _ (tracks₂.dirlookup stops heldD name) ?_
    rintro r t₃ ⟨isDir, found⟩
    cases hit : (E₁.node (t₁.itable dp).inum).lookup name with
    | none =>
      rw [hit] at found
      obtain ⟨rfl, rfl⟩ := found
      exact tracks₂.refuse stops before begun same₁
    | some s =>
      rw [hit] at found
      obtain ⟨ip, rfl, tracks₃, kept₃⟩ := found
      have heldD₃ := kept₃.held heldD
      dsimp only
      refine wp_seq _ (tracks₃.ilock stops noType) ?_
      rintro _ t₄ ⟨tracks₄, heldI, acts, unlocked⟩
      have ne : dp ≠ ip := by
        rintro rfl
        rw [heldD₃.locked] at unlocked
        cases unlocked
      have refuse : wp Synced err (do Xv6.iunlockput ip; unlinkBad dp : Kern Int)
          (Finished p k E) t₄ := by
        refine wp_seq _ (tracks₄.iunlockput stops) ?_
        rintro _ t₅ ⟨E₅, tracks₅, put⟩
        exact tracks₅.refuse stops before begun fun settled => tracks₄.stays_same put settled (same₁ settled)
      have clear := unlinkEntry_wp stops before begun tracks₄ (heldD₃.other acts ne) heldI ne isDir
        (Node.lookup_some hit).1.le
      rw [wp_inode_bind]
      refine wp_guard (fun _ => stops _ nofun nofun) fun _ => ?_
      split
      · rename_i dir
        have whole : (E₁.node (t₄.itable ip).inum).size % DIRENTSIZE = 0 := by
          refine (tracks₄.clean.good.dirs _ ?_).size
          rw [heldI.inum, ← heldI.type tracks₄.clean]
          exact dir
        rw [((heldI.loaded tracks₄.clean).isdirempty whole).wp_bind]
        split
        · exact refuse
        exact clear
      exact clear

end Calls

end Xv6
