import Xv6.Fs.Content

/-!
# The inode table

`iget`, `idup`, `ilock`, `iunlock`, `iput` and `ialloc`. Each works on one entry
of the table; `iput` of the last reference to an inode without links frees it.
-/

namespace Xv6

open Function renaming update → upd, update_self → upd_self, update_of_ne → upd_ne,
  update_idem → upd_idem
open Prog (wp wp_seq wp_pure wp_guard wp_get_bind)

section Entries

variable {D : Nat → Block} {err : Panic → Prop} {E : Fs} {k : Kernel} {ip : Nat} {e : Inode}

/-- Only entry `ip` of the inode table may have changed, and buffers. -/
structure Acts (ip : Nat) (k t : Kernel) : Prop extends Frame k t where
  other : ∀ j, j ≠ ip → t.itable j = k.itable j

theorem Acts.setInode (k : Kernel) (ip : Nat) (e : Inode) : Acts ip k (k.setInode ip e) :=
  ⟨⟨rfl, rfl, rfl, rfl, rfl⟩, fun _ ne => upd_ne ne _ _⟩

theorem Acts.trans {t u : Kernel} (first : Acts ip k t) (second : Acts ip t u) : Acts ip k u :=
  ⟨first.toFrame.trans second.toFrame, fun j ne => (second.other j ne).trans (first.other j ne)⟩

@[simp] theorem setInode_itable_self (k : Kernel) (ip : Nat) (e : Inode) :
    (k.setInode ip e).itable ip = e := upd_self ..

@[simp] theorem setInode_setInode (k : Kernel) (ip : Nat) (e e' : Inode) :
    (k.setInode ip e).setInode ip e' = k.setInode ip e' := by
  unfold Kernel.setInode
  rw [upd_idem]

theorem Ok.setEntry (ok : Clean D E k) (refers : 0 < e.ref → e.Refers k.sb ip)
    (sync : 0 < e.ref → e.valid = true → e.d = E.inode e.inum ∧ (E.inode e.inum).type ≠ 0)
    (unique : 0 < e.ref → ∀ j, j ≠ ip → 0 < (k.itable j).ref → (k.itable j).inum ≠ e.inum) :
    Clean D E (k.setInode ip e) := by
  have other : ∀ j, j ≠ ip → (k.setInode ip e).itable j = k.itable j := fun j ne => upd_ne ne _ _
  refine ⟨ok.disk, ok.wf, ok.start, ok.logSize, ok.few, ok.room, ok.home, ok.tidy, ok.used, ok.data,
    ?_, ok.good, ?_, ?_, ?_, ?_, nofun⟩
  · exact fun i _ => ok.inode i nofun
  · intro j used
    by_cases eq : j = ip
    · subst eq
      rw [setInode_itable_self] at used ⊢
      exact refers used
    rw [other j eq] at used ⊢
    exact ok.table j used
  · intro j used valid _
    by_cases eq : j = ip
    · subst eq
      rw [setInode_itable_self] at used valid ⊢
      exact (sync used valid).1
    rw [other j eq] at used valid ⊢
    exact ok.sync j used valid nofun
  · intro j used valid _
    by_cases eq : j = ip
    · subst eq
      rw [setInode_itable_self] at used valid ⊢
      exact (sync used valid).2
    rw [other j eq] at used valid ⊢
    exact ok.alloc j used valid nofun
  intro j j' used used' same
  by_cases eq : j = ip
  · by_cases eq' : j' = ip
    · rw [eq, eq']
    rw [eq, setInode_itable_self] at used same
    rw [other j' eq'] at used' same
    exact absurd same.symm (unique used j' eq' used')
  by_cases eq' : j' = ip
  · rw [eq', setInode_itable_self] at used' same
    rw [other j eq] at used same
    exact absurd same (unique used' j eq used)
  rw [other j eq] at used same
  rw [other j' eq'] at used' same
  exact ok.unique j j' used used' same

theorem Ok.setRef (ok : Clean D E k) (used : 0 < (k.itable ip).ref) (ref : Nat) (locked : Bool) :
    Clean D E (k.setInode ip { k.itable ip with ref, locked }) := by
  obtain ⟨index, dev, positive, bound⟩ := ok.table ip used
  refine ok.setEntry (fun _ => ⟨index, dev, positive, bound⟩)
    (fun _ valid => ?_) fun _ j ne used' same => ?_
  · exact ⟨ok.sync ip used valid nofun, ok.alloc ip used valid nofun⟩
  exact ne (ok.unique j ip used' used same)

/-- What `iget` returns: an entry for inode `inum` with one more reference. -/
structure Got (D : Nat → Block) (E : Fs) (inum : Nat) (k : Kernel) (ip : Nat) (t : Kernel) : Prop extends
    Acts ip k t where
  clean : Clean D E t
  named : (t.itable ip).inum = inum
  ref : (t.itable ip).ref = (k.itable ip).ref + 1
  old : 0 < (k.itable ip).ref → t.itable ip = { k.itable ip with ref := (k.itable ip).ref + 1 }
  fresh : (k.itable ip).ref = 0 → (t.itable ip).valid = false ∧ ∀ j, 0 < (k.itable j).ref →
    (k.itable j).inum ≠ inum
  locked : (t.itable ip).locked = (k.itable ip).locked

/-- An entry of the inode table is not in use. -/
def Spare (k : Kernel) : Prop := ∃ e < NINODE, (k.itable e).ref = 0

/-- The rule for `iget`: the entry of the inode, or a free one that becomes it. -/
theorem iget_wp (room : Stops err ∨ Spare k) (ok : Clean D E k) {inum : Nat} (positive : 0 < inum)
    (bound : inum < k.sb.ninodes) :
    wp (Calm D) err (iget ROOTDEV inum) (Got D E inum k) k := by
  rw [iget, wp_get_bind]
  dsimp only
  split
  · rename_i ip found
    have hit := List.find?_some found
    simp only [decide_eq_true_eq] at hit
    obtain ⟨used, -, named⟩ := hit
    have clean := ok.setRef used ((k.itable ip).ref + 1) (k.itable ip).locked
    rw [wp_setInode_bind]
    refine ⟨clean.calm, wp_pure ⟨Acts.setInode k ip _, clean, ?_, ?_, ?_, ?_, ?_⟩⟩
    · rw [setInode_itable_self]
      exact named
    · rw [setInode_itable_self]
    · intro _
      rw [setInode_itable_self]
    · intro zero
      omega
    rw [setInode_itable_self]
  rename_i absent
  have missing : ∀ j, 0 < (k.itable j).ref → (k.itable j).inum ≠ inum := by
    intro j used same
    obtain ⟨index, dev, -, -⟩ := ok.table j used
    have no := List.find?_eq_none.mp absent j (List.mem_range.mpr index)
    simp only [decide_eq_true_eq] at no
    exact no ⟨used, dev, same⟩
  split
  · rename_i ip found
    have index := List.mem_range.mp (List.mem_of_find?_eq_some found)
    have zero := List.find?_some found
    simp only [decide_eq_true_eq] at zero
    have clean : Clean D E (k.setInode ip { k.itable ip with
        dev := ROOTDEV, inum := inum, ref := 1, valid := false }) := by
      refine ok.setEntry (fun _ => ⟨index, rfl, positive, bound⟩) (fun _ valid => ?_)
        fun _ j _ used => missing j used
      cases valid
    rw [wp_setInode_bind]
    refine ⟨clean.calm, wp_pure ⟨Acts.setInode k ip _, clean, ?_, ?_, ?_, ?_, ?_⟩⟩
    · rw [setInode_itable_self]
    · rw [setInode_itable_self, zero]
    · intro used
      omega
    · intro _
      rw [setInode_itable_self]
      exact ⟨rfl, missing⟩
    rw [setInode_itable_self]
  rename_i full
  refine Prog.wp_fail ?_
  rcases room with stops | ⟨e, index, zero⟩
  · exact stops _ (by decide) (by decide)
  have used := List.find?_eq_none.mp full e (List.mem_range.mpr index)
  rw [zero] at used
  exact absurd (decide_eq_true rfl) used

/-- The rule for `idup`. -/
theorem idup_wp (ok : Clean D E k) (used : 0 < (k.itable ip).ref) :
    wp (Calm D) err (idup ip) (fun r t => r = ip ∧ Got D E (k.itable ip).inum k ip t) k := by
  have clean := ok.setRef used ((k.itable ip).ref + 1) (k.itable ip).locked
  rw [idup, wp_setInode_bind]
  refine ⟨clean.calm, wp_pure ⟨rfl, Acts.setInode k ip _, clean, ?_, ?_, ?_, ?_, ?_⟩⟩
  · rw [setInode_itable_self]
  · rw [setInode_itable_self]
  · intro _
    rw [setInode_itable_self]
  · intro zero
    omega
  rw [setInode_itable_self]

/-- The inode in entry `ip` is inode `i` of the disk, in memory and locked. -/
structure Held (k : Kernel) (ip i : Nat) : Prop where
  ref : 0 < (k.itable ip).ref
  valid : (k.itable ip).valid = true
  locked : (k.itable ip).locked = true
  inum : (k.itable ip).inum = i

theorem Held.open {i : Nat} (held : Held k ip i) (ok : Clean D E k) : Open D ip E k :=
  ok.open held.ref held.valid held.locked

theorem Held.other {i j : Nat} {t : Kernel} (held : Held k j i) (acts : Acts ip k t) (ne : j ≠ ip) :
    Held t j i := by
  obtain ⟨ref, valid, locked, inum⟩ := held
  rw [← acts.other j ne] at ref valid locked inum
  exact ⟨ref, valid, locked, inum⟩

theorem Held.near {i : Nat} {t : Kernel} (held : Held k ip i) (near : Near ip k t) :
    Held t ip i := by
  obtain ⟨d, table⟩ := near.table
  refine ⟨?_, ?_, ?_, ?_⟩ <;> rw [table, upd_self]
  · exact held.ref
  · exact held.valid
  · exact held.locked
  exact held.inum

/-- The rule for `ilock`: the entry holds what the disk has. -/
theorem ilock_wp (ready : Stops err ∨ 0 < (k.itable ip).ref ∧ (k.itable ip).locked = false) (ok : Clean D E k)
    (typed : (E.inode (k.itable ip).inum).type = 0 → err .ilockNoType) :
    wp (Calm D) err (ilock ip) (fun _ t => Clean D E t ∧ Acts ip k t ∧ (k.itable ip).locked = false ∧
        t.itable ip = { k.itable ip with
          locked := true, valid := true, d := E.inode (k.itable ip).inum } ∧
        0 < (k.itable ip).ref ∧ (E.inode (k.itable ip).inum).type ≠ 0) k := by
  simp only [ilock, wp_inode_bind]
  refine wp_guard (fun unused => ?_) fun used => ?_
  · rcases ready with stops | ⟨used, -⟩
    · exact stops _ (by decide) (by decide)
    omega
  refine wp_guard (fun locked => ?_) fun free => ?_
  · rcases ready with stops | ⟨-, free⟩
    · exact stops _ (by decide) (by decide)
    rw [free] at locked
    cases locked
  have used : 0 < (k.itable ip).ref := by omega
  have free : (k.itable ip).locked = false := by simpa using free
  have clean := ok.setRef used (k.itable ip).ref true
  rw [wp_setInode_bind]
  refine ⟨clean.calm, ?_⟩
  split
  swap
  · rename_i present
    have present : (k.itable ip).valid = true := by simpa using present
    refine wp_pure ⟨clean, Acts.setInode k ip _, free, ?_, used, ok.alloc ip used present nofun⟩
    rw [setInode_itable_self, ← ok.sync ip used present nofun, ← present]
  rename_i absent
  have bound := (ok.table ip used).bound
  have loaded : Dinode.ofBlock (k.buf (k.sb.iblock (k.itable ip).inum)) ((k.itable ip).inum % IPB) =
      E.inode (k.itable ip).inum := by
    rw [← ok.fs_eq]
    exact (Fs.ofBuf_inode bound).symm
  simp only [wp_get_bind, wp_bread_bind, wp_setDinode_bind, wp_setInode_bind, wp_inode_bind,
    setInode_itable_self, setInode_setInode, Kernel.setInode_buf, Kernel.setInode_sb, loaded]
  refine ⟨ok.calm.setInode rfl, ok.calm.setInode rfl, ?_⟩
  split
  · rename_i free
    exact Prog.wp_fail (typed free)
  rename_i live
  refine wp_pure ⟨?_, Acts.setInode k ip _, free, setInode_itable_self .., used, live⟩
  obtain ⟨index, dev, positive, bound⟩ := ok.table ip used
  refine ok.setEntry (fun _ => ⟨index, dev, positive, bound⟩) (fun _ _ => ⟨rfl, live⟩)
    fun _ j ne used' same => ?_
  exact ne (ok.unique j ip used' used same)

/-- The rule for `iunlock`. -/
theorem iunlock_wp (ready : Stops err ∨ 0 < (k.itable ip).ref ∧ (k.itable ip).locked = true)
    (ok : Clean D E k) :
    wp (Calm D) err (iunlock ip)
      (fun _ t => Clean D E t ∧ Acts ip k t ∧ t.itable ip = { k.itable ip with locked := false }) k := by
  simp only [iunlock, wp_inode_bind]
  refine wp_guard (fun free => ?_) fun held => ?_
  · rcases ready with stops | ⟨used, locked⟩
    · exact stops _ (by decide) (by decide)
    rw [locked] at free
    simp only [Bool.not_true, Bool.false_eq_true, false_or] at free
    omega
  have used : 0 < (k.itable ip).ref := by
    simp only [not_or] at held
    omega
  have clean := ok.setRef used (k.itable ip).ref false
  exact Prog.wp_act clean.calm ⟨clean, Acts.setInode k ip _, setInode_itable_self ..⟩

/-- What `iput` leaves: one reference less, or the inode freed. -/
structure Put (D : Nat → Block) (E : Fs) (ip : Nat) (k : Kernel) (E' : Fs) (t : Kernel) : Prop extends
    Acts ip k t where
  clean : Clean D E' t
  ref : (t.itable ip).ref = (k.itable ip).ref - 1
  inum : (t.itable ip).inum = (k.itable ip).inum
  kept : ¬ ((k.itable ip).ref = 1 ∧ (k.itable ip).valid = true ∧
    (E.node (k.itable ip).inum).nlink = 0) →
    E' = E ∧ (t.itable ip).valid = (k.itable ip).valid
  freed : (k.itable ip).ref = 1 → (k.itable ip).valid = true →
    (E.node (k.itable ip).inum).nlink = 0 →
    E'.node = upd E.node (k.itable ip).inum Node.free

/-- An inode that another reference holds has its type still. -/
theorem Put.type_of_held {E' : Fs} {jp i : Nat} (put : Put D E ip k E' t) (held : Held t jp i) :
    (E'.node i).type = (E.node i).type := by
  by_cases freed : (k.itable ip).ref = 1 ∧ (k.itable ip).valid = true ∧ (E.node (k.itable ip).inum).nlink = 0
  · have node := put.freed freed.1 freed.2.1 freed.2.2
    have live := (held.open put.clean).live
    rw [held.inum, ← Fs.node_type, node] at live
    rw [node]
    by_cases eq : i = (k.itable ip).inum
    · rw [eq, upd_self] at live
      exact absurd rfl live
    rw [upd_ne eq]
  rw [(put.kept freed).1]

theorem Fs.Good.replaced {sb : Superblock} {F : Fs} {i : Nat} {d : Dinode} {n : Node}
    (good : F.Good sb ∅) (none : ∀ s, F.ref i s = 0) (ref : ∀ s, (F.setInode i d).ref i s = 0)
    (node : (F.setInode i d).node i = n) (empty : n.size = 0) (range : d.InRange) :
    (F.setInode i d).Good sb ∅ ∧ (F.setInode i d).node = upd F.node i n ∧
      ∀ b, b ≠ 0 → F.Loose ∅ b → (F.setInode i d).Loose ∅ b := by
  have inode : (F.setInode i d).inode i = d := upd_self ..
  have ref : ∀ j s, (F.setInode i d).ref j s = F.ref j s := by
    intro j s
    by_cases eq : j = i
    · rw [eq, none, ref]
    exact Fs.ref_setInode_of_ne eq s
  have node : (F.setInode i d).node = upd F.node i n := by
    funext j
    by_cases eq : j = i
    · rw [eq, upd_self, node]
    rw [upd_ne eq, Fs.node_setInode_of_ne eq]
  refine ⟨⟨good.owned.congr ref rfl, fun j bn below => ?_, fun j isDir => ?_, fun j => ?_⟩, node,
    ?_⟩
  · rw [ref]
    rw [node] at below
    by_cases eq : j = i
    · rw [eq, upd_self, empty] at below
      exact absurd below (Nat.not_lt_zero _)
    rw [upd_ne eq] at below
    exact good.noHoles j bn below
  · rw [node] at isDir ⊢
    by_cases eq : j = i
    · rw [eq, upd_self]
      refine ⟨by rw [empty]; rfl, fun s below => ?_⟩
      rw [empty] at below
      exact absurd below (Nat.not_lt_zero _)
    rw [upd_ne eq] at isDir ⊢
    exact good.dirs j isDir
  · by_cases eq : j = i
    · rw [eq, inode]
      exact range
    rw [Fs.setInode_inode, upd_ne eq]
    exact good.range j
  rintro b positive (clear | mem | ⟨j, bn, notDir, named⟩)
  · exact .inl clear
  · exact .inr (.inl mem)
  have ne : j ≠ i := by
    rintro rfl
    rw [none] at named
    exact positive named.symm
  refine .inr (.inr ⟨j, bn, ?_, (ref j _).trans named⟩)
  rwa [Fs.setInode_inode, upd_ne ne]

theorem Fs.Good.setFree {sb : Superblock} {F : Fs} {i : Nat} {d : Dinode} (good : F.Good sb ∅)
    (none : ∀ s, F.ref i s = 0) (free : d.type = 0) (range : d.InRange) :
    (F.setInode i d).Good sb ∅ ∧ (F.setInode i d).node = upd F.node i Node.free ∧
      ∀ b, b ≠ 0 → F.Loose ∅ b → (F.setInode i d).Loose ∅ b := by
  have inode : (F.setInode i d).inode i = d := upd_self ..
  exact good.replaced none (Fs.ref_of_free (by rwa [inode]))
    (Fs.node_of_free (by rwa [inode])) rfl range

theorem free_wp (stops : Stops err) (op : Open D ip E k) : wp (Calm D) err (do
        itrunc ip
        setDinode ip fun d => { d with type := 0 }
        iupdate ip
        setInode ip fun i => { i with valid := false } : Kern Unit)
      (fun _ t => ∃ E', Clean D E' t ∧ Acts ip k t ∧ E'.node = upd E.node (k.itable ip).inum Node.free ∧
        ∃ d, t.itable ip = { k.itable ip with d, valid := false }) k := by
  refine wp_seq _ (itrunc_wp stops op) ?_
  rintro _ t ⟨E₁, clean₁, frame₁, itable₁, node₁⟩
  have self : t.itable ip =
      { k.itable ip with d := (k.itable ip).d.truncated } := by rw [itable₁, upd_self]
  have held : Held t ip (k.itable ip).inum := by
    refine ⟨?_, ?_, ?_, ?_⟩ <;> rw [self]
    · exact (op.held ip rfl).1
    · exact op.valid
    exact (op.held ip rfl).2
  have op₁ := held.open clean₁
  have inode : E₁.inode (t.itable ip).inum = (k.itable ip).d.truncated := by rw [← op₁.core, self]
  have none : ∀ s, E₁.ref (t.itable ip).inum s = 0 := by
    intro s
    have addr : ∀ j, (E₁.inode (t.itable ip).inum).addr j = 0 := by
      intro j
      rw [inode]
      unfold Dinode.addr
      split <;> rfl
    cases s with
    | addr j => rw [Fs.ref_addr op₁.live, addr]
    | entry j => exact Fs.ref_entry_of_zero (addr _) j
  have range : ({ (t.itable ip).d with type := 0 } : Dinode).InRange := by
    rw [op₁.core]
    obtain ⟨-, major, minor, nlink, size, addrs⟩ := op₁.good.range (t.itable ip).inum
    have zero : 0 < 65536 := by decide
    exact ⟨zero, major, minor, nlink, size, addrs⟩
  obtain ⟨good₂, node₂, loose₂⟩ :=
    op₁.good.setFree none (d := { (t.itable ip).d with type := 0 }) rfl range
  have ok₂ := (op₁.toOk.setFs good₂ fun b positive _ => loose₂ b positive).setInode
    { (t.itable ip).d with type := 0 } (t.itable ip).valid
  rw [wp_setDinode_bind]
  refine ⟨op₁.calm_setInode _, ?_⟩
  have core₂ : ((t.setInode ip { t.itable ip with d := { (t.itable ip).d with type := 0 } }).itable ip).d =
      (E₁.setInode (t.itable ip).inum { (t.itable ip).d with type := 0 }).inode
        ((t.setInode ip { t.itable ip with d := { (t.itable ip).d with type := 0 } }).itable ip).inum := by
    rw [setInode_itable_self]
    exact (upd_self (t.itable ip).inum _ E₁.inode).symm
  refine wp_seq _ (iupdate_wp (.inl stops) ok₂ core₂) ?_
  rintro _ u ⟨ok₃, fs, frame₃, itable₃, -⟩
  have ok₄ := ok₃.setInode (u.itable ip).d false
  have clean₄ : Clean D (E₁.setInode (t.itable ip).inum { (t.itable ip).d with type := 0 })
      (u.setInode ip { u.itable ip with valid := false }) := by
    refine ok₄.close fs fun valid => ?_
    rw [setInode_itable_self] at valid
    cases valid
  refine Prog.wp_act clean₄.calm ⟨_, clean₄, ?_, ?_, (u.itable ip).d, ?_⟩
  · refine ⟨?_, fun j ne => ?_⟩
    · exact frame₁.trans ((Frame.setInode t ip _).trans (frame₃.trans (Frame.setInode u ip _)))
    rw [(Acts.setInode u ip _).other j ne, itable₃, (Acts.setInode t ip _).other j ne, itable₁,
      upd_ne ne]
  · rw [node₂, held.inum, node₁, upd_idem]
  rw [setInode_itable_self, itable₃, setInode_itable_self, self]

/-- The rule for `iput`: the last reference to an inode without links frees it. -/
theorem iput_wp (ready : Stops err ∨ ¬ ((k.itable ip).ref = 1 ∧ (k.itable ip).valid = true ∧
      (E.node (k.itable ip).inum).nlink = 0)) (ok : Clean D E k) (used : 0 < (k.itable ip).ref) :
    wp (Calm D) err (iput ip)
      (fun _ t => ∃ E', Put D E ip k E' t ∧ (t.itable ip).locked = (k.itable ip).locked) k := by
  have nlink : (k.itable ip).valid = true → (E.node (k.itable ip).inum).nlink =
      (k.itable ip).d.nlink := by
    intro valid
    rw [Fs.node_of_alloc (ok.alloc ip used valid nofun), ok.sync ip used valid nofun]
  simp only [iput, wp_inode_bind]
  split
  swap
  · rename_i keep
    have clean := ok.setRef used ((k.itable ip).ref - 1) (k.itable ip).locked
    refine Prog.wp_act clean.calm ⟨E, ⟨Acts.setInode k ip _, clean, ?_, ?_, ?_, ?_⟩, ?_⟩
    · rw [setInode_itable_self]
    · rw [setInode_itable_self]
    · intro _
      rw [setInode_itable_self]
      exact ⟨rfl, rfl⟩
    · intro one valid unlinked
      exact absurd ⟨one, valid, (nlink valid).symm.trans unlinked⟩ keep
    rw [setInode_itable_self]
  rename_i last
  obtain ⟨one, valid, unlinked⟩ := last
  have stops : Stops err := by
    rcases ready with stops | keeps
    · exact stops
    exact absurd ⟨one, valid, (nlink valid).trans unlinked⟩ keeps
  refine wp_guard (fun _ => stops _ (by decide) (by decide)) fun free => ?_
  have clean := ok.setRef used (k.itable ip).ref true
  rw [wp_setInode_bind]
  refine ⟨clean.calm, ?_⟩
  have held : Held (k.setInode ip { k.itable ip with ref := (k.itable ip).ref, locked := true }) ip
      (k.itable ip).inum := by
    refine ⟨?_, ?_, ?_, ?_⟩ <;> rw [setInode_itable_self]
    · exact used
    exact valid
  -- the steps that free the inode as one program
  suffices run : wp (Calm D) err ((do
        itrunc ip
        setDinode ip fun d => { d with type := 0 }
        iupdate ip
        setInode ip fun i => { i with valid := false } : Kern Unit) >>= fun _ => do
          setInode ip fun i => { i with locked := false }
          setInode ip fun i => { i with ref := i.ref - 1 })
      (fun _ t => ∃ E', Put D E ip k E' t ∧ (t.itable ip).locked = (k.itable ip).locked)
      (k.setInode ip { k.itable ip with ref := (k.itable ip).ref, locked := true }) by
    simpa only [Prog.bind_assoc] using run
  refine (free_wp stops (held.open clean)).bind ?_
  rintro _ t ⟨E', clean', acts, node, d, self⟩
  rw [setInode_itable_self] at node self
  have dropped : Clean D E' (t.setInode ip { t.itable ip with locked := false }) ∧
      Clean D E' (t.setInode ip { t.itable ip with ref := 0, locked := false }) := by
    have ref : 0 < (t.itable ip).ref := by
      rw [self]
      exact used
    exact ⟨clean'.setRef ref (t.itable ip).ref false, clean'.setRef ref 0 false⟩
  rw [wp_setInode_bind]
  refine ⟨dropped.1.calm, ?_⟩
  have zero : (t.itable ip).ref - 1 = 0 := by
    rw [self]
    show (k.itable ip).ref - 1 = 0
    omega
  have last : (t.setInode ip { t.itable ip with locked := false }).setInode ip
      { (t.setInode ip { t.itable ip with locked := false }).itable ip with
        ref := ((t.setInode ip { t.itable ip with locked := false }).itable ip).ref - 1 } =
      t.setInode ip { t.itable ip with ref := 0, locked := false } := by
    rw [setInode_setInode, setInode_itable_self]
    simp only [zero]
  refine Prog.wp_act ?_ ⟨E', ⟨?_, ?_, ?_, ?_, ?_, fun _ _ _ => node⟩, ?_⟩
  · rw [last]
    exact dropped.2.calm
  all_goals rw [last]
  · exact ((Acts.setInode k ip _).trans acts).trans (Acts.setInode t ip _)
  · exact dropped.2
  · rw [setInode_itable_self, one]
  · rw [setInode_itable_self, self]
  · intro kept
    exact absurd ⟨one, valid, (nlink valid).trans unlinked⟩ kept
  rw [setInode_itable_self]
  simpa using (Eq.symm (Bool.eq_false_of_not_eq_true free))

theorem iunlockput_wp (ready : Stops err ∨ (k.itable ip).locked = true ∧ ¬ ((k.itable ip).ref = 1 ∧
      (k.itable ip).valid = true ∧ (E.node (k.itable ip).inum).nlink = 0)) (ok : Clean D E k)
    (used : 0 < (k.itable ip).ref) :
    wp (Calm D) err (iunlockput ip) (fun _ t => ∃ E', Put D E ip k E' t ∧ (t.itable ip).locked = false) k := by
  refine wp_seq _ (iunlock_wp (ready.imp_right fun both => ⟨used, both.1⟩) ok) ?_
  rintro _ t ⟨clean, acts, self⟩
  have used' : 0 < (t.itable ip).ref := by
    rw [self]
    exact used
  have ready' : Stops err ∨ ¬ ((t.itable ip).ref = 1 ∧ (t.itable ip).valid = true ∧
      (E.node (t.itable ip).inum).nlink = 0) := by
    rw [self]
    exact ready.imp_right And.right
  refine (iput_wp ready' clean used').mono ?_
  rintro _ u ⟨E', ⟨acts', clean', ref, inum, kept, freed⟩, locked⟩
  rw [self] at ref inum locked kept freed
  exact ⟨E', ⟨acts.trans acts', clean', ref, inum, kept, freed⟩, locked⟩

/-- A new inode. -/
def Node.empty (type : Nat) : Node := ⟨type, 0, 0, 0, 0, fun _ => 0⟩

theorem Fs.Good.setEmpty {sb : Superblock} {F : Fs} {i type : Nat} (good : F.Good sb ∅)
    (free : (F.inode i).type = 0) (live : type ≠ 0) (range : type < 65536) :
    (F.setInode i { Dinode.zero with type }).Good sb ∅ ∧
      (F.setInode i { Dinode.zero with type }).node = upd F.node i (Node.empty type) ∧
      ∀ b, b ≠ 0 → F.Loose ∅ b → (F.setInode i { Dinode.zero with type }).Loose ∅ b := by
  have zero : ({ Dinode.zero with type } : Dinode) =
      ({ Dinode.zero with type } : Dinode).truncated := rfl
  refine good.replaced (Fs.ref_of_free free) (fun s => ?_) ?_ rfl ?_
  · rw [zero, Fs.ref_truncated, if_pos rfl]
  · rw [zero, Fs.node_truncated]
    · rfl
    exact live
  obtain ⟨-, major, minor, nlink, size, addrs⟩ := Dinode.zero_inRange
  exact ⟨range, major, minor, nlink, size, addrs⟩

/-- What `ialloc` returns: an entry for an inode that was free and is now empty. -/
structure Made (D : Nat → Block) (E : Fs) (type : Nat) (k : Kernel) (ip : Nat) (i : Nat) (E' : Fs)
    (t : Kernel) : Prop where
  positive : 0 < i
  bound : i < k.sb.ninodes
  free : E.node i = Node.free
  node : E'.node = upd E.node i (Node.empty type)
  got : Got D E' i k ip t

theorem iallocFrom_wp (stops : Stops err) (ok : Clean D E k) {type : Nat} (live : type ≠ 0)
    (range : type < 65536) (n : Nat) :
    ∀ inum, 0 < inum → inum + n ≤ k.sb.ninodes → wp (Calm D) err (iallocFrom type n inum)
      (fun r t => r = none ∧ t = k ∨ ∃ ip i E', r = some ip ∧ Made D E type k ip i E' t) k := by
  induction n with
  | zero =>
    intro inum _ _
    exact wp_pure (.inl ⟨rfl, rfl⟩)
  | succ n ih =>
    intro inum positive below
    have bound : inum < k.sb.ninodes := by omega
    have inode : Dinode.ofBlock (k.buf (k.sb.iblock inum)) (inum % IPB) = E.inode inum := by
      rw [← ok.fs_eq]
      exact (Fs.ofBuf_inode bound).symm
    rw [iallocFrom, wp_get_bind, wp_bread_bind, inode]
    split
    swap
    · exact ih (inum + 1) (by omega) (by omega)
    rename_i free
    obtain ⟨good, node, loose⟩ := ok.good.setEmpty free live range
    have small : ({ Dinode.zero with type } : Dinode).InRange := by
      obtain ⟨-, major, minor, nlink, size, addrs⟩ := Dinode.zero_inRange
      exact ⟨range, major, minor, nlink, size, addrs⟩
    have fs : (k.setBuf (k.sb.iblock inum) (({ Dinode.zero with type } : Dinode).store
        (k.buf (k.sb.iblock inum)) (inum % IPB))).fs = E.setInode inum { Dinode.zero with type } := by
      rw [← ok.fs_eq]
      exact Fs.ofBuf_store ok.wf bound small
    -- no entry of the table that is valid is for a free inode
    have keep : ∀ ip, 0 < (k.itable ip).ref → (k.itable ip).valid = true →
        (E.setInode inum { Dinode.zero with type }).inode (k.itable ip).inum = E.inode (k.itable ip).inum := by
      intro ip used valid
      refine upd_ne (fun same => ?_) _ _
      exact ok.alloc ip used valid nofun (by rw [same]; exact free)
    have block := ok.wf.iblock_lt bound
    have areas := ok.wf.areas
    have data := ok.wf.data
    refine wp_seq _ (update_wp (.inl stops) ⟨fun ip used valid _ => ?_, ok.disk⟩) ?_
    · rw [fs]
      exact (ok.sync ip used valid nofun).trans (keep ip used valid).symm
    rintro _ _ ⟨rfl, few, room⟩
    have clean := ok.store block.1 (by omega) few room (by rw [fs]) (by rw [fs])
      (fun i _ => by rw [fs]) good (fun b positive _ _ => loose b positive)
      fun ip used valid _ => keep ip used valid
    refine wp_seq _ (iget_wp (.inl stops) clean positive bound) ?_
    intro ip t got
    refine wp_pure (.inr ⟨ip, inum, _, rfl, positive, bound, Fs.node_of_free free, node, ?_⟩)
    obtain ⟨acts, clean', named, ref, old, fresh, locked⟩ := got
    exact ⟨⟨(Frame.store ..).trans acts.toFrame, acts.other⟩, clean', named, ref, old, fresh,
      locked⟩

/-- The rule for `ialloc`: a free inode is given the type. -/
theorem ialloc_wp (stops : Stops err) (ok : Clean D E k) {type : Nat} (live : type ≠ 0)
    (range : type < 65536) : wp (Calm D) err (ialloc type)
      (fun r t => r = none ∧ t = k ∨ ∃ ip i E', r = some ip ∧ Made D E type k ip i E' t) k := by
  rw [ialloc, wp_get_bind]
  have root : 1 < k.sb.ninodes := ok.wf.root
  exact iallocFrom_wp stops ok live range _ 1 (by decide) (by omega)

end Entries

end Xv6
