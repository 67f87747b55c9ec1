import Xv6.Fs.Dirs

/-!
# Path names

`namex` follows the entries of directories: its result is that of `walk` on the
nodes. The references it takes on the way it also drops, except the one it returns;
an inode without links that nobody else refers to may be freed by that.
-/

namespace Xv6

open Prog (wp wp_seq wp_pure wp_get_bind)

set_option linter.unusedSectionVars false

/-- The steps of `namex` on nodes: the inode and the name of the last element. -/
def walk (N : Nat → Node) (parent : Bool) : Nat → Path → Nat → Name → Option (Nat × Name)
  | 0, _, i, name => if parent then none else some (i, name)
  | fuel + 1, path, i, name =>
    match skipelem path with
    | none => if parent then none else some (i, name)
    | some (name, path) =>
      if (N i).type ≠ T_DIR then none
      else if parent ∧ path = [] then some (i, name)
      else
        match (N i).lookup name with
        | none => none
        | some s => walk N parent fuel path ((N i).dirent s).inum name

/-- What `namex` finds, for a process with this current directory. -/
def resolve (N : Nat → Node) (cwd : Nat) (path : Path) (parent : Bool) : Option (Nat × Name) :=
  walk N parent path.length path (if path.head? = some slash then ROOTINO else cwd) fun _ => 0

/-- Every entry that is in use names an inode that is in use. -/
def Solid (N : Nat → Node) : Prop :=
  ∀ d s, (N d).type = T_DIR → s < (N d).entries → ((N d).dirent s).inum ≠ 0 → (N ((N d).dirent s).inum).type ≠ 0

/-- An inode without links is in the table. -/
def NoOrphan (k : Kernel) (N : Nat → Node) : Prop :=
  ∀ i, (N i).type ≠ 0 → (N i).nlink = 0 →
    ∃ ip, 0 < (k.itable ip).ref ∧ (k.itable ip).inum = i ∧ (k.itable ip).valid = true

/-- What stays of a file: only its links may have changed, and the entries of a directory. -/
structure Node.Stays (n n' : Node) : Prop where
  type : n'.type = n.type
  major : n'.major = n.major
  minor : n'.minor = n.minor
  contents : n.type ≠ T_DIR → n'.size = n.size ∧ n'.byte = n.byte

theorem Node.Stays.refl (n : Node) : n.Stays n := ⟨rfl, rfl, rfl, fun _ => ⟨rfl, rfl⟩⟩

theorem Node.Stays.trans {n n' n'' : Node} (first : n.Stays n') (second : n'.Stays n'') :
    n.Stays n'' := by
  refine ⟨second.type.trans first.type, second.major.trans first.major,
    second.minor.trans first.minor, ?_⟩
  intro file
  obtain ⟨size, byte⟩ := first.contents file
  rw [← first.type] at file
  obtain ⟨size', byte'⟩ := second.contents file
  exact ⟨size'.trans size, byte'.trans byte⟩

/-- The files that the table of `b` refers to stay. -/
def Safe (b : Kernel) (N N' : Nat → Node) : Prop :=
  ∀ j, 0 < (b.itable j).ref → (N (b.itable j).inum).type ≠ 0 → (N (b.itable j).inum).Stays (N' (b.itable j).inum)

theorem Safe.refl (b : Kernel) (N : Nat → Node) : Safe b N N := fun _ _ _ => .refl _

theorem Safe.trans {b : Kernel} {N N' N'' : Nat → Node} (first : Safe b N N')
    (second : Safe b N' N'') :
    Safe b N N'' := by
  intro j used live
  have stays := first j used live
  rw [← stays.type] at live
  exact stays.trans (second j used live)

theorem Safe.update {b : Kernel} {N N' : Nat → Node} {i : Nat} {n : Node} (safe : Safe b N N')
    (stays : ∀ j, 0 < (b.itable j).ref → (b.itable j).inum = i → (N i).type ≠ 0 → (N' i).Stays n) :
    Safe b N (Function.update N' i n) := by
  intro j used live
  by_cases eq : (b.itable j).inum = i
  · rw [eq] at live ⊢
    have before := safe j used
    rw [eq] at before
    rw [Function.update_self]
    exact (before live).trans (stays j used eq live)
  rw [Function.update_of_ne eq]
  exact safe j used live

section Walk

variable {D : Nat → Block} {err : Panic → Prop} {E₀ E : Fs} {b k : Kernel} {ip : Nat}

variable {t : Kernel}

theorem Put.safe {E' : Fs} (put : Put D E ip k E' t) (clean : Clean D E k)
    (table : ∀ j, 0 < (b.itable j).ref → 0 < (k.itable j).ref ∧
      (k.itable j).inum = (b.itable j).inum)
    (more : (b.itable ip).ref < (k.itable ip).ref) : Safe b E.node E'.node := by
  by_cases frees : (k.itable ip).ref = 1 ∧ (k.itable ip).valid = true ∧ (E.node (k.itable ip).inum).nlink = 0
  · rw [put.freed frees.1 frees.2.1 frees.2.2]
    apply (Safe.refl b E.node).update
    intro j used eq _
    have found := table j used
    have same := clean.unique j ip found.1 (by omega) (found.2.trans eq)
    rw [same] at used
    omega
  rw [(put.kept frees).1]
  exact .refl b _

/-- Since `b` a reference to entry `ip` and the references `extra` were taken, and
entry `ip` may have been locked. -/
structure Borrowed (b : Kernel) (ip : Nat) (extra : Nat → Nat) (k : Kernel) : Prop extends
    Frame b k where
  ref : ∀ j, (k.itable j).ref = (b.itable j).ref + (if j = ip then 1 else 0) + extra j
  entry : ∀ j, 0 < (b.itable j).ref → (k.itable j).inum = (b.itable j).inum ∧
    (j ≠ ip → (k.itable j).locked = (b.itable j).locked) ∧
    ((b.itable j).valid = true → (k.itable j).valid = true)
  unlocked : (∀ j < NINODE, (b.itable j).locked = false) → ∀ j < NINODE, j ≠ ip →
    (k.itable j).locked = false

variable {extra : Nat → Nat}

theorem Borrowed.kept {extra' : Nat → Nat} (borrowed : Borrowed b ip extra k)
    (kept : Kept k t) (ref : ∀ j, (t.itable j).ref = (k.itable j).ref + extra' j)
    (locked : ∀ j, (t.itable j).locked = (k.itable j).locked) :
    Borrowed b ip (fun j => extra j + extra' j) t := by
  refine ⟨borrowed.toFrame.trans kept.toFrame, fun j => ?_, fun j used => ?_,
    fun free j low ne => ?_⟩
  · rw [ref, borrowed.ref, add_assoc]
  · obtain ⟨inum, locked, valid⟩ := borrowed.entry j used
    have usedK : 0 < (k.itable j).ref := by
      rw [borrowed.ref]
      omega
    obtain ⟨-, inum', locked', valid'⟩ := kept.entry j usedK
    exact ⟨inum'.trans inum, fun ne => locked'.trans (locked ne), fun h => valid' (valid h)⟩
  exact (locked j).trans (borrowed.unlocked free j low ne)

variable {N : Nat → Node}

theorem Borrowed.keeps (borrowed : Borrowed b ip extra k) (clean : Clean D E k)
    (same : E.node = N) (noOrphan : NoOrphan b N) :
    ¬ ((k.itable ip).ref = 1 ∧ (k.itable ip).valid = true ∧
      (E.node (k.itable ip).inum).nlink = 0) := by
  rintro ⟨one, valid, unlinked⟩
  have ref : (k.itable ip).ref =
      (b.itable ip).ref + 1 + extra ip := by rw [borrowed.ref, if_pos rfl]
  have used : 0 < (k.itable ip).ref := by omega
  have live : (E.node (k.itable ip).inum).type ≠ 0 := by
    rw [Fs.node_type]
    exact clean.alloc ip used valid nofun
  rw [same] at unlinked live
  obtain ⟨jp, usedB, inumB, -⟩ := noOrphan _ live unlinked
  have usedK : 0 < (k.itable jp).ref := by
    rw [borrowed.ref]
    omega
  have eq := clean.unique jp ip usedK used ((borrowed.entry jp usedB).1.trans inumB)
  rw [eq] at usedB
  omega

/-- Give the reference back. An inode is freed by that only if it was without links
and not in the table of `b`. -/
theorem Borrowed.put {E' : Fs} (borrowed : Borrowed b ip extra k) (clean : Clean D E k)
    (same : NoOrphan b N → E.node = N) (put : Put D E ip k E' t)
    (locked : 0 < (b.itable ip).ref → (t.itable ip).locked = (b.itable ip).locked)
    (free : (∀ j < NINODE, (b.itable j).locked = false) → (t.itable ip).locked = false) :
    Clean D E' t ∧ Kept b t ∧ (∀ j, (t.itable j).ref = (b.itable j).ref + extra j) ∧
      (NoOrphan b N → E' = E) ∧ Safe b E.node E'.node ∧
      ((∀ j < NINODE, (b.itable j).locked = false) →
        ∀ j < NINODE, (t.itable j).locked = false) := by
  have ref : (k.itable ip).ref =
      (b.itable ip).ref + 1 + extra ip := by rw [borrowed.ref, if_pos rfl]
  have table : ∀ j, 0 < (b.itable j).ref → 0 < (k.itable j).ref ∧
      (k.itable j).inum = (b.itable j).inum := by
    intro j used
    refine ⟨?_, (borrowed.entry j used).1⟩
    rw [borrowed.ref]
    omega
  refine ⟨put.clean, ⟨borrowed.toFrame.trans put.toFrame, fun j used => ?_⟩, fun j => ?_,
    fun noOrphan => (put.kept (borrowed.keeps clean (same noOrphan) noOrphan)).1,
    put.safe clean table (by omega), fun unlocked j low => ?_⟩
  · obtain ⟨inum, lockedJ, valid⟩ := borrowed.entry j used
    by_cases eq : j = ip
    · subst eq
      refine ⟨?_, put.inum.trans inum, locked used, fun h => ?_⟩
      · rw [put.ref]
        omega
      rw [(put.kept fun last => by omega).2]
      exact valid h
    rw [put.other j eq]
    refine ⟨?_, inum, lockedJ eq, valid⟩
    rw [borrowed.ref]
    omega
  · by_cases eq : j = ip
    · rw [eq, put.ref]
      omega
    rw [put.other j eq, borrowed.ref, if_neg eq, add_zero]
  by_cases eq : j = ip
  · rw [eq]
    exact free unlocked
  rw [put.other j eq]
  exact borrowed.unlocked unlocked j low eq

/-- Since `b` a reference to entry `ip` was taken, and inodes were freed only if there
was one without links that nobody referred to. -/
structure Walking (D : Nat → Block) (b : Kernel) (E₀ E : Fs) (k : Kernel) (ip : Nat) : Prop where
  clean : Clean D E k
  kept : Kept b k
  ref : ∀ j, (k.itable j).ref = (b.itable j).ref + if j = ip then 1 else 0
  same : NoOrphan b E₀.node → E.node = E₀.node
  safe : Safe b E₀.node E.node
  unlocked : (∀ j < NINODE, (b.itable j).locked = false) → ∀ j < NINODE, (k.itable j).locked = false

section

variable (walking : Walking D b E₀ E k ip)
include walking

theorem Walking.borrowed : Borrowed b ip (fun _ => 0) k := by
  refine ⟨walking.kept.toFrame, walking.ref, fun j used => ?_,
    fun free j low _ => walking.unlocked free j low⟩
  obtain ⟨-, inum, locked, valid⟩ := walking.kept.entry j used
  exact ⟨inum, fun _ => locked, valid⟩

theorem Walking.used : 0 < (k.itable ip).ref := by
  rw [walking.ref, if_pos rfl]
  exact Nat.succ_pos _

theorem Walking.free (unlocked : (k.itable ip).locked = false) :
    0 < (b.itable ip).ref → (b.itable ip).locked = false :=
  fun used => (walking.kept.entry ip used).2.2.1.symm.trans unlocked

theorem Walking.lock {d : Dinode} (acts : Acts ip k t)
    (self : t.itable ip = { k.itable ip with locked := true, valid := true, d }) :
    Borrowed b ip (fun _ => 0) t ∧ Held t ip (k.itable ip).inum := by
  have borrowed := walking.borrowed
  refine ⟨⟨borrowed.toFrame.trans acts.toFrame, fun j => ?_, fun j used => ?_,
    fun free j low ne => ?_⟩, ?_⟩
  · by_cases eq : j = ip
    · rw [eq, self]
      exact borrowed.ref ip
    rw [acts.other j eq]
    exact borrowed.ref j
  · by_cases eq : j = ip
    · subst eq
      rw [self]
      exact ⟨(borrowed.entry j used).1, fun ne => (ne rfl).elim, fun _ => rfl⟩
    rw [acts.other j eq]
    exact borrowed.entry j used
  · rw [acts.other j ne]
    exact walking.unlocked free j low
  refine ⟨?_, ?_, ?_, ?_⟩ <;> rw [self]
  exact walking.used

end

theorem Borrowed.unlock (borrowed : Borrowed b ip (fun _ => 0) k)
    (free : 0 < (b.itable ip).ref → (b.itable ip).locked = false)
    (same : NoOrphan b E₀.node → E.node = E₀.node) (safe : Safe b E₀.node E.node)
    (clean : Clean D E t)
    (acts : Acts ip k t) (self : t.itable ip = { k.itable ip with locked := false }) :
    Walking D b E₀ E t ip := by
  have ref : ∀ j, (t.itable j).ref = (b.itable j).ref + if j = ip then 1 else 0 := by
    intro j
    by_cases eq : j = ip
    · rw [eq, self]
      exact borrowed.ref ip
    rw [acts.other j eq]
    exact borrowed.ref j
  refine ⟨clean, ⟨borrowed.toFrame.trans acts.toFrame, fun j used => ⟨?_, ?_⟩⟩, ref, same, safe,
    fun unlocked j low => ?_⟩
  · rw [ref]
    omega
  · obtain ⟨inum, locked, valid⟩ := borrowed.entry j used
    by_cases eq : j = ip
    · subst eq
      rw [self]
      exact ⟨inum, (free used).symm, valid⟩
    rw [acts.other j eq]
    exact ⟨inum, locked eq, valid⟩
  by_cases eq : j = ip
  · rw [eq, self]
  rw [acts.other j eq]
  exact borrowed.unlocked unlocked j low eq

/-- Nothing is in the way of a walk from `b` on: every inode without links is in the table, none is
locked, and two entries of the table are not in use. -/
structure Passable (b : Kernel) (N : Nat → Node) : Prop where
  noOrphan : NoOrphan b N
  unlocked : ∀ j < NINODE, (b.itable j).locked = false
  spare : ∃ e e', e ≠ e' ∧ (e < NINODE ∧ e' < NINODE) ∧ (b.itable e).ref = 0 ∧ (b.itable e').ref = 0

theorem Passable.spares (passable : Passable b N)
    (ref : ∀ j, (k.itable j).ref = (b.itable j).ref + if j = ip then 1 else 0) : Spare k := by
  obtain ⟨e, e', ne, ⟨low, low'⟩, zero, zero'⟩ := passable.spare
  by_cases eq : e = ip
  · refine ⟨e', low', ?_⟩
    rw [ref, zero', if_neg fun eq' => ne (eq.trans eq'.symm)]
  refine ⟨e, low, ?_⟩
  rw [ref, zero, if_neg eq]

/-- What `namex` has to return. -/
def Walked (D : Nat → Block) (b : Kernel) (E₀ : Fs) (expected : Option (Nat × Name)) :
    Option (Nat × Name) → Kernel → Prop
  | none, t => ∃ E, Clean D E t ∧ Kept b t ∧ (∀ j, (t.itable j).ref = (b.itable j).ref) ∧
      Safe b E₀.node E.node ∧ ((∀ j < NINODE, (b.itable j).locked = false) → ∀ j < NINODE, (t.itable j).locked = false) ∧
      (NoOrphan b E₀.node → E.node = E₀.node ∧ expected = none)
  | some (ip, name), t => ∃ E, Walking D b E₀ E t ip ∧
      (NoOrphan b E₀.node → expected = some ((t.itable ip).inum, name))

theorem Borrowed.iunlockput (ready : Stops err ∨ NoOrphan b N ∧ (k.itable ip).locked = true)
    (borrowed : Borrowed b ip extra k) (clean : Clean D E k) (same : NoOrphan b N → E.node = N)
    (free : 0 < (b.itable ip).ref → (b.itable ip).locked = false) :
    wp (Calm D) err (iunlockput ip) (fun _ t => ∃ E', Clean D E' t ∧ Kept b t ∧
        (∀ j, (t.itable j).ref = (b.itable j).ref + extra j) ∧
        (∀ j, (t.itable j).inum = (k.itable j).inum) ∧ Safe b E.node E'.node ∧
        ((∀ j < NINODE, (b.itable j).locked = false) → ∀ j < NINODE, (t.itable j).locked = false) ∧
        (NoOrphan b N → E'.node = N)) k := by
  have used : 0 < (k.itable ip).ref := by
    rw [borrowed.ref, if_pos rfl]
    omega
  have ready' :=
    ready.imp_right fun both => And.intro both.2 (borrowed.keeps clean (same both.1) both.1)
  refine (iunlockput_wp ready' clean used).mono ?_
  rintro _ t ⟨E', put, locked⟩
  obtain ⟨clean, kept, ref, stay, safe, unlocked⟩ := borrowed.put clean same put
    (fun usedB => locked.trans (free usedB).symm) fun _ => locked
  refine ⟨E', clean, kept, ref, fun j => ?_, safe, unlocked,
    fun noOrphan => by rw [stay noOrphan, same noOrphan]⟩
  by_cases eq : j = ip
  · rw [eq, put.inum]
  rw [put.other j eq]

variable {expected : Option (Nat × Name)}

theorem Walked.congr {expected' r : Option (Nat × Name)}
    (walked : Walked D b E₀ expected r t) (eq : NoOrphan b E₀.node → expected' = expected) :
    Walked D b E₀ expected' r t := by
  cases r with
  | none =>
    obtain ⟨E, clean, kept, ref, safe, unlocked, same⟩ := walked
    exact ⟨E, clean, kept, ref, safe, unlocked, fun noOrphan => ⟨(same noOrphan).1,
      (eq noOrphan).trans (same noOrphan).2⟩⟩
  | some found =>
    obtain ⟨E, walking, same⟩ := walked
    exact ⟨E, walking, fun noOrphan => (eq noOrphan).trans (same noOrphan)⟩

theorem Borrowed.giveUp
    (ready : Stops err ∨ NoOrphan b E₀.node ∧ (k.itable ip).locked = true) (borrowed : Borrowed b ip (fun _ => 0) k) (clean : Clean D E k)
    (same : NoOrphan b E₀.node → E.node = E₀.node) (safe : Safe b E₀.node E.node)
    (free : 0 < (b.itable ip).ref → (b.itable ip).locked = false)
    (none : NoOrphan b E₀.node → expected = Option.none) :
    wp (Calm D) err (do Xv6.iunlockput ip; return Option.none) (Walked D b E₀ expected) k := by
  refine wp_seq _ (borrowed.iunlockput ready clean same free) ?_
  rintro _ t ⟨E', clean, kept, ref, -, safe', unlocked, same⟩
  exact wp_pure ⟨E', clean, kept, ref, safe.trans safe', unlocked,
    fun noOrphan => ⟨same noOrphan, none noOrphan⟩⟩

theorem Walking.iput (ready : Stops err ∨ NoOrphan b E₀.node) (walking : Walking D b E₀ E k ip)
    (none : expected = Option.none) :
    wp (Calm D) err (iput ip) (fun _ t => Walked D b E₀ expected Option.none t) k := by
  have ready' := ready.imp_right fun noOrphan => walking.borrowed.keeps walking.clean (walking.same noOrphan) noOrphan
  refine (iput_wp ready' walking.clean walking.used).mono ?_
  rintro _ t ⟨E', put, locked⟩
  obtain ⟨clean, kept, ref, same, safe, unlocked⟩ :=
    walking.borrowed.put walking.clean walking.same put
    (fun used => locked.trans (walking.kept.entry ip used).2.2.1)
    fun free => locked.trans (walking.unlocked free ip (walking.clean.table ip walking.used).index)
  exact ⟨E', clean, kept, ref, walking.safe.trans safe, unlocked,
    fun noOrphan => ⟨by rw [same noOrphan, walking.same noOrphan], none⟩⟩

theorem namexFrom_wp (ready : Stops err ∨ Passable b E₀.node) (parent : Bool) (fuel : Nat) :
    ∀ {E : Fs} {k : Kernel} {ip : Nat} (path : Path) (name : Name), Walking D b E₀ E k ip →
      (err .ilockNoType ∨
        NoOrphan b E₀.node ∧ Solid E₀.node ∧ (E₀.node (k.itable ip).inum).type ≠ 0) →
      wp (Calm D) err (namexFrom parent fuel path ip name)
        (Walked D b E₀ (walk E₀.node parent fuel path (k.itable ip).inum name)) k := by
  have noOrphans := ready.imp_right Passable.noOrphan
  induction fuel with
  | zero =>
    intro E k ip path name walking _
    rw [namexFrom, walk]
    split
    · exact wp_seq _ (walking.iput noOrphans rfl) fun _ t done => wp_pure done
    exact wp_pure ⟨E, walking, fun _ => rfl⟩
  | succ fuel ih =>
    intro E k ip path name walking typed
    rw [namexFrom, walk]
    rcases skipelem path with - | ⟨name, path⟩
    · dsimp only
      split
      · exact wp_seq _ (walking.iput noOrphans rfl) fun _ t done => wp_pure done
      exact wp_pure ⟨E, walking, fun _ => rfl⟩
    dsimp only
    have typedE : (E.inode (k.itable ip).inum).type = 0 → err .ilockNoType := by
      intro free
      rcases typed with typed | ⟨noOrphan, -, alloc⟩
      · exact typed
      rw [← walking.same noOrphan, Fs.node_type] at alloc
      exact (alloc free).elim
    refine wp_seq _ (ilock_wp (ready.imp_right fun passable =>
      ⟨walking.used, walking.unlocked passable.unlocked ip (walking.clean.table ip walking.used).index⟩)
      walking.clean typedE) ?_
    rintro _ t ⟨clean, acts, unlocked, self, -, -⟩
    obtain ⟨borrowed, held⟩ := walking.lock acts self
    have free := walking.free unlocked
    have type : (t.itable ip).d.type = (E.node (k.itable ip).inum).type := held.type clean
    rw [wp_inode_bind, type]
    by_cases isDir : (E.node (k.itable ip).inum).type = T_DIR
    swap
    · rw [if_pos isDir]
      refine borrowed.giveUp (noOrphans.imp_right fun h => ⟨h,
        held.locked⟩) clean walking.same walking.safe free fun noOrphan => ?_
      rw [← walking.same noOrphan, if_pos isDir]
    rw [if_neg (not_not.mpr isDir)]
    by_cases last : parent = true ∧ path = []
    · rw [if_pos last]
      refine wp_seq _ (iunlock_wp (.inr ⟨held.ref, held.locked⟩) clean) ?_
      rintro _ u ⟨cleanU, actsU, selfU⟩
      refine wp_pure ⟨E, borrowed.unlock free walking.same walking.safe cleanU actsU selfU,
        fun noOrphan => ?_⟩
      rw [← walking.same noOrphan, if_neg (not_not.mpr isDir), if_pos last, selfU, self]
    rw [if_neg last]
    refine wp_seq _ (dirlookup_wp (ready.imp_right fun passable =>
      ⟨isDir, passable.spares borrowed.ref⟩) clean held name) ?_
    rintro r u ⟨-, found⟩
    cases hit : (E.node (k.itable ip).inum).lookup name with
    | none =>
      rw [hit] at found
      obtain ⟨rfl, rfl⟩ := found
      refine borrowed.giveUp (noOrphans.imp_right fun h => ⟨h,
        held.locked⟩) clean walking.same walking.safe free fun noOrphan => ?_
      rw [← walking.same noOrphan, if_neg (not_not.mpr isDir), if_neg last, hit]
    | some s =>
      rw [hit] at found
      obtain ⟨next, rfl, got⟩ := found
      obtain ⟨low, live, -⟩ := Node.lookup_some hit
      have borrowedU := borrowed.kept got.kept got.refs got.lockeds
      have lockedU : (u.itable ip).locked = true := (got.lockeds ip).trans held.locked
      refine wp_seq _ (borrowedU.iunlockput (noOrphans.imp_right fun h => ⟨h, lockedU⟩) got.clean
        walking.same free) ?_
      rintro _ v ⟨E', cleanV, keptV, refV, inumV, safeV, unlockedV, sameV⟩
      have named : (v.itable next).inum =
          ((E.node (k.itable ip).inum).dirent s).inum := by rw [inumV, got.named]
      have walkingV : Walking D b E₀ E' v next := by
        refine ⟨cleanV, keptV, fun j => ?_, sameV, walking.safe.trans safeV, unlockedV⟩
        rw [refV, zero_add]
      refine (ih path name walkingV ?_).mono fun r w done => ?_
      · refine typed.imp_right ?_
        rintro ⟨noOrphan, solid, -⟩
        rw [named, walking.same noOrphan]
        rw [walking.same noOrphan] at isDir low live
        exact ⟨noOrphan, solid, solid _ s isDir low live⟩
      refine done.congr fun noOrphan => ?_
      rw [← walking.same noOrphan, if_neg (not_not.mpr isDir), if_neg last, hit, named,
        walking.same noOrphan]

theorem namex_wp (ready : Stops err ∨ Passable k E.node) (ok : Clean D E k) {p c : Nat} (cwd : (k.proc p).cwd = some c)
    (used : 0 < (k.itable c).ref) (path : Path) (parent : Bool)
    (typed : err .ilockNoType ∨ NoOrphan k E.node ∧ Solid E.node ∧ (E.node ROOTINO).type ≠ 0 ∧
      (E.node (k.itable c).inum).type ≠ 0) :
    wp (Calm D) err (namex p path parent)
    (Walked D k E (resolve E.node (k.itable c).inum path parent)) k := by
  have start : ∀ {inum ip t}, Got D E inum k ip t → Walking D k E E t ip := fun got =>
    ⟨got.clean, got.kept, got.refs, fun _ => rfl, .refl k _, fun free j low => (got.lockeds j).trans (free j low)⟩
  rw [namex, resolve]
  by_cases root : path.head? = some slash
  · rw [if_pos root, if_pos root]
    have spare : Stops err ∨ Spare k := ready.imp_right fun passable => by
      obtain ⟨e, -, -, ⟨low, -⟩, zero, -⟩ := passable.spare
      exact ⟨e, low, zero⟩
    refine wp_seq _ (iget_wp spare ok Nat.one_pos ok.wf.root) fun ip t got => ?_
    have walks := namexFrom_wp ready parent path.length path (fun _ => 0) (start got)
    rw [got.named] at walks
    exact walks (typed.imp_right fun ⟨noOrphan, solid, live, _⟩ => ⟨noOrphan, solid, live⟩)
  rw [if_neg root, if_neg root, wp_get_bind, cwd]
  refine wp_seq _ (idup_wp ok used) ?_
  rintro _ t ⟨rfl, got⟩
  have walks := namexFrom_wp ready parent path.length path (fun _ => 0) (start got)
  rw [got.named] at walks
  exact walks (typed.imp_right fun ⟨noOrphan, solid, _, live⟩ => ⟨noOrphan, solid, live⟩)

end Walk

end Xv6
