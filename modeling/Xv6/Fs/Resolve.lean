import Xv6.Fs.Write

/-!
# What a path names

The meaning of a path is a fold over its components: each one is looked up in the
directory that the ones before it lead to. `skipelem` cuts a path into just these
components, and `namei` and `nameiparent` compute the fold.
-/

namespace Xv6

open Prog (wp)

/-! ## Components -/

/-- The bytes of a component that a directory entry has room for. -/
def cut (s : List UInt8) : Name := fun j => if j < DIRSIZ then s.getD j 0 else 0

/-- The components of a path: what stands between slashes and is not empty. -/
def components (path : Path) : List Name :=
  ((path.splitOnP (· = slash)).filter (· ≠ [])).map cut

theorem components_dropWhile (path : Path) :
    components (path.dropWhile (· = slash)) = components path := by
  induction path with
  | nil => rfl
  | cons c path ih =>
    by_cases eq : c = slash
    · rw [List.dropWhile_cons_of_pos (by simpa using eq), ih]
      unfold components
      rw [List.splitOnP_cons_eq_if_modifyHead, if_pos (by simpa using eq)]
      simp
    rw [List.dropWhile_cons_of_neg (by simpa using eq)]

theorem components_append {s rest : Path} (full : s ≠ []) (inside : ∀ c ∈ s, c ≠ slash)
    (after : ∀ c ∈ rest.head?, c = slash) : components (s ++ rest) = cut s :: components rest := by
  have plain : ∀ c ∈ s, decide (c = slash) = false := fun c mem => decide_eq_false (inside c mem)
  unfold components
  cases rest with
  | nil =>
    rw [List.append_nil, List.splitOnP_eq_singleton plain, List.splitOnP_nil]
    simp [full]
  | cons c rest =>
    have sep : decide (c = slash) = true := decide_eq_true (after c rfl)
    rw [List.splitOnP_append_cons_of_forall_mem plain c sep, List.splitOnP_cons_eq_if_modifyHead,
      if_pos sep]
    simp [full]

theorem components_of_head {path : Path} (full : path ≠ []) (head : path.head? ≠ some slash) :
    components path = cut (path.takeWhile (· ≠ slash)) :: components (path.dropWhile (· ≠ slash)) ∧
      (path.dropWhile (· ≠ slash)).length < path.length := by
  cases path with
  | nil => exact absurd rfl full
  | cons c tail =>
    have other : c ≠ slash := fun eq => head (by rw [List.head?_cons, eq])
    have whole := List.takeWhile_append_dropWhile (p := (decide <| · ≠ slash)) (l := c :: tail)
    constructor
    · conv_lhs => rw [← whole]
      refine components_append ?_ ?_ ?_
      · rw [List.takeWhile_cons_of_pos (by simpa using other)]
        nofun
      · intro d mem
        have kept := List.all_takeWhile (p := (decide <| · ≠ slash)) (l := c :: tail)
        simpa using List.all_eq_true.mp kept d mem
      intro d mem
      have stops := List.head?_dropWhile_not (p := (decide <| · ≠ slash)) (c :: tail)
      rw [Option.mem_def.mp mem] at stops
      simpa using stops
    rw [List.dropWhile_cons_of_pos (by simpa using other), List.length_cons]
    exact Nat.lt_succ_of_le (List.dropWhile_sublist _).length_le

theorem head_dropWhile (path : Path) : (path.dropWhile (· = slash)).head? ≠ some slash := by
  have head := List.head?_dropWhile_not (p := (decide <| · = slash)) path
  intro eq
  rw [eq] at head
  simp at head

theorem skipelem_components (path : Path) :
    match skipelem path with
    | none => components path = []
    | some (name, rest) => components path = name :: components rest ∧ rest.length < path.length ∧
        (components rest = [] → rest = []) := by
  unfold skipelem
  dsimp only
  rw [← components_dropWhile path]
  have first : (path.dropWhile (· = slash)).length ≤ path.length :=
    (List.dropWhile_sublist _).length_le
  have head := head_dropWhile path
  generalize path.dropWhile (· = slash) = path' at first head ⊢
  split
  · rename_i empty
    split at empty
    · rename_i nil
      rw [nil]
      rfl
    cases empty
  rename_i name rest found
  split at found
  · cases found
  rename_i full
  cases found
  obtain ⟨parts, shorter⟩ := components_of_head full head
  have last : ((path'.dropWhile (· ≠ slash)).dropWhile (· = slash)).length ≤
      (path'.dropWhile (· ≠ slash)).length := (List.dropWhile_sublist _).length_le
  refine ⟨?_, by omega, fun none => ?_⟩
  · rw [components_dropWhile, parts]
    rfl
  by_contra some
  rw [(components_of_head some (head_dropWhile _)).1] at none
  cases none

/-- What repeated `skipelem` yields. -/
def elements (path : Path) : List Name :=
  match found : skipelem path with
  | none => []
  | some (name, rest) =>
    have : rest.length < path.length := by
      have spec := skipelem_components path
      rw [found] at spec
      exact spec.2.1
    name :: elements rest
termination_by path.length

theorem elements_eq_components (path : Path) : elements path = components path := by
  induction path using elements.induct with
  | case1 path none =>
    have spec := skipelem_components path
    rw [none] at spec
    rw [elements, spec]
    split
    · rfl
    rename_i found
    rw [none] at found
    cases found
  | case2 path name rest some _ ih =>
    have spec := skipelem_components path
    rw [some] at spec
    rw [elements, spec.1, ← ih]
    split
    · rename_i found
      rw [some] at found
      cases found
    rename_i found
    rw [some] at found
    cases found
    rfl

/-! ## The fold -/

/-- The inode that a name leads to from inode `i`: none if it is not a directory or has no such
entry. -/
def follow (N : Nat → Node) (i : Nat) (name : Name) : Option Nat :=
  if (N i).type = T_DIR then ((N i).lookup name).map fun s => ((N i).dirent s).inum else none

def startOf (cwd : Nat) (path : Path) : Nat := if path.head? = some slash then ROOTINO else cwd

def named (N : Nat → Node) (cwd : Nat) (path : Path) : Option Nat :=
  (components path).foldlM (follow N) (startOf cwd path)

/-- The directory that the components but the last lead to, and the last one. -/
def parentOf (N : Nat → Node) (i : Nat) (names : List Name) : Option (Nat × Name) :=
  match names.getLast? with
  | none => none
  | some last => do
    let d ← names.dropLast.foldlM (follow N) i
    if (N d).type = T_DIR then some (d, last) else none

section Fold

variable {N : Nat → Node}

theorem walk_some {path rest : Path} {name : Name} (found : skipelem path = some (name, rest)) (parent : Bool)
    (fuel i : Nat) (last : Name) (more : ¬(parent = true ∧ rest = [])) :
    walk N parent (fuel + 1) path i last = (follow N i name).bind fun d => walk N parent fuel rest d name := by
  rw [walk, found, follow]
  dsimp only
  by_cases isDir : (N i).type = T_DIR
  · rw [if_neg (not_not.mpr isDir), if_neg more, if_pos isDir]
    cases (N i).lookup name <;> rfl
  rw [if_pos isDir, if_neg isDir]
  rfl

theorem parentOf_cons (i : Nat) (name : Name) {names : List Name} (more : names ≠ []) :
    parentOf N i (name :: names) = (follow N i name).bind fun d => parentOf N d names := by
  cases names with
  | nil => exact absurd rfl more
  | cons next names =>
    unfold parentOf
    rw [List.getLast?_cons_cons, List.dropLast_cons_cons, List.foldlM_cons]
    cases (next :: names).getLast? with
    | none | some last =>
      cases follow N i name with
      | none => rfl
      | some d => rfl

theorem walk_eq (fuel : Nat) : ∀ (path : Path) (i : Nat) (name : Name), path.length ≤ fuel →
    (walk N false fuel path i name).map Prod.fst = (components path).foldlM (follow N) i ∧
      walk N true fuel path i name = parentOf N i (components path) := by
  induction fuel with
  | zero =>
    intro path i name short
    rw [List.length_eq_zero_iff.mp (Nat.le_zero.mp short)]
    exact ⟨rfl, rfl⟩
  | succ fuel ih =>
    intro path i name short
    have spec := skipelem_components path
    cases found : skipelem path with
    | none =>
      rw [found] at spec
      rw [walk, walk, found, show components path = [] from spec]
      exact ⟨rfl, rfl⟩
    | some next =>
      obtain ⟨name, rest⟩ := next
      rw [found] at spec
      obtain ⟨parts, shorter, empty⟩ := spec
      have onward := fun d => ih rest d name (by omega)
      rw [parts, List.foldlM_cons, walk_some found false fuel i _ (by simp)]
      constructor
      · cases follow N i name with
        | none => rfl
        | some d => exact (onward d).1
      by_cases last : rest = []
      · rw [walk, found, last]
        dsimp only
        show _ = (if (N i).type = T_DIR then some (i, name) else none)
        by_cases isDir : (N i).type = T_DIR
        · rw [if_neg (not_not.mpr isDir), if_pos ⟨rfl, rfl⟩, if_pos isDir]
        rw [if_pos isDir, if_neg isDir]
      rw [walk_some found true fuel i _ fun both => last both.2,
        parentOf_cons i name fun none => last (empty none)]
      exact congrArg _ (funext fun d => (onward d).2)

end Fold

/-! ## `namei` and `nameiparent` -/

section Names

variable {k : Kernel} {p c : Nat}

/-- What `namei` and `nameiparent` leave: the inodes are as before, one more reference is to the
inode that is returned, and none is locked. -/
structure Named (k : Kernel) (r : Option Nat) (t : Kernel) : Prop where
  node : t.fs.node = k.fs.node
  ref : ∀ j, (t.itable j).ref = (k.itable j).ref + if r = some j then 1 else 0
  unlocked : ∀ j < NINODE, (t.itable j).locked = false

theorem namex_returns (fs : Consistent k) (cwd : (k.proc p).cwd = some c) (used : 0 < (k.itable c).ref)
    (passable : Passable k k.fs.node) (solid : Solid k.fs.node)
    (root : (k.fs.node ROOTINO).type ≠ 0)
    (live : (k.fs.node (k.itable c).inum).type ≠ 0) (path : Path) (parent : Bool) :
    ∃ r t, (namex p path parent k).result = .ok (r, t) ∧ Named k (r.map Prod.fst) t ∧
      r.map (fun found => ((t.itable found.1).inum, found.2)) = resolve k.fs.node (k.itable c).inum path parent := by
  obtain ⟨D, E, ok⟩ := fs
  rw [ok.fs_eq] at *
  have run : wp (Calm D) (fun _ => False) (namex p path parent)
      (Walked D k E (resolve E.node (k.itable c).inum path parent)) k :=
    namex_wp (.inr passable) ok cwd used path parent (.inr ⟨passable.noOrphan, solid, root, live⟩)
  obtain ⟨r, t, returns, walked⟩ := run.exists_ok
  refine ⟨r, t, returns, ?_⟩
  cases r with
  | none =>
    obtain ⟨E', clean, -, ref, -, unlocked, same⟩ := walked
    obtain ⟨node, none⟩ := same passable.noOrphan
    refine ⟨⟨?_, fun j => ?_, unlocked passable.unlocked⟩, none.symm⟩
    · rw [clean.fs_eq, node, ok.fs_eq]
    rw [ref]
    rfl
  | some found =>
    obtain ⟨ip, name⟩ := found
    obtain ⟨E', walking, same⟩ := walked
    refine ⟨⟨?_, fun j => ?_, walking.unlocked passable.unlocked⟩, (same passable.noOrphan).symm⟩
    · rw [walking.clean.fs_eq, walking.same passable.noOrphan, ok.fs_eq]
    rw [walking.ref]
    simp only [Option.map_some, Option.some.injEq, eq_comm]

/-- Paths mean what their components say. `skipelem` yields the components; `namei` returns the
inode that looking them up one after the other leads to, `nameiparent` the directory before the
last one and the last one, and both return nothing as soon as there is no directory or no entry.
The inode that is returned has one more reference, all others have as many as before, and no inode
is left locked. -/
theorem path_resolution (fs : Consistent k) (cwd : (k.proc p).cwd = some c)
    (used : 0 < (k.itable c).ref) (passable : Passable k k.fs.node) (solid : Solid k.fs.node)
    (root : (k.fs.node ROOTINO).type ≠ 0) (live : (k.fs.node (k.itable c).inum).type ≠ 0)
    (path : Path) :
    elements path = components path ∧
    (∃ r t, (namei p path k).result = .ok (r, t) ∧ Named k r t ∧
      r.map (fun ip => (t.itable ip).inum) = named k.fs.node (k.itable c).inum path) ∧
    ∃ r t, (nameiparent p path k).result = .ok (r, t) ∧ Named k (r.map Prod.fst) t ∧
      r.map (fun found => ((t.itable found.1).inum, found.2)) =
        parentOf k.fs.node (startOf (k.itable c).inum path) (components path) := by
  refine ⟨elements_eq_components path, ?_, ?_⟩
  · obtain ⟨r, t, returns, after, found⟩ :=
      namex_returns fs cwd used passable solid root live path false
    refine ⟨r.map Prod.fst, t, ?_, after, ?_⟩
    · exact Prog.result_bind returns
    rw [named, ← (walk_eq path.length path _ (fun _ => 0) (le_refl _)).1]
    have first := congrArg (Option.map Prod.fst) found
    rw [Option.map_map] at first ⊢
    exact first
  obtain ⟨r, t, returns, after, found⟩ :=
    namex_returns fs cwd used passable solid root live path true
  refine ⟨r, t, returns, after, found.trans ?_⟩
  exact (walk_eq path.length path _ _ (le_refl _)).2

/-- A disk with a root directory, in entry 0 of the inode table. -/
def rootDir : List FsCall := [.beginOp, .ialloc T_DIR, .ilock 0, .assign 0 1 0 0, .iunlock 0]

theorem Ok.setProc {D : Nat → Block} {E : Fs} (ok : Clean D E k) (q : Proc) :
    Clean D E (k.setProc p q) :=
  ⟨ok.disk, ok.wf, ok.start, ok.logSize, ok.few, ok.room, ok.home, ok.tidy, ok.used, ok.data, ok.inode, ok.good,
    ok.table, ok.sync, ok.alloc, ok.unique, ok.held⟩

/-- The root directory with its own two entries and a file `a`, inode 2. -/
def rootFile : List FsCall :=
  rootDir ++ [.ilock 0, .dirlink 0 dotName 1, .dirlink 0 dotdotName 1, .ialloc T_FILE, .ilock 1, .assign 1 1 0 0,
    .iunlock 1, .dirlink 0 (fun j => if j = 0 then 97 else 0) 2, .iput 1, .iunlock 0]

/-- The entries of a directory name inodes that are in use. -/
def EntriesLive (k : Kernel) (d : Nat) : Prop := ∀ s < (k.fs.node d).entries,
  ((k.fs.node d).dirent s).inum = 0 ∨ (k.fs.node ((k.fs.node d).dirent s).inum).type ≠ 0

instance (k : Kernel) (d : Nat) : Decidable (EntriesLive k d) := inferInstanceAs (Decidable (∀ s < _, _ ∨ _))

/-- Entry 0 of the table is the root directory, and no other entry is in use. Every inode has
links, and every entry of a directory an inode. -/
def Orderly (k : Kernel) : Prop :=
  ((k.itable 0).ref, (k.itable 0).inum) = (1, 1) ∧ (k.fs.node 1).type = T_DIR ∧
  (∀ i < k.sb.ninodes, (k.fs.node i).type = 0 ∨
    0 < (k.fs.node i).nlink ∧ ((k.fs.node i).type = T_DIR → EntriesLive k i)) ∧
  ∀ j < NINODE, (k.itable j).locked = false ∧ (j = 0 ∨ (k.itable j).ref = 0)

instance (k : Kernel) : Decidable (Orderly k) := inferInstanceAs (Decidable (_ ∧ _))

/-- Process 0 is in the directory of entry 0. -/
def seated (k : Kernel) : Kernel := k.setProc 0 ⟨fun _ => none, some 0⟩

theorem Orderly.linked {i : Nat} (orderly : Orderly k) (live : (k.fs.node i).type ≠ 0) :
    0 < (k.fs.node i).nlink ∧ ((k.fs.node i).type = T_DIR → EntriesLive k i) := by
  refine (orderly.2.2.1 i ?_).resolve_left live
  by_contra high
  refine live ?_
  have outside : (Fs.ofBuf k.sb k.buf).inode i = Dinode.zero := if_neg high
  rw [Fs.node_type, Kernel.fs, outside]
  rfl

theorem Orderly.noOrphan (orderly : Orderly k) : NoOrphan (seated k) k.fs.node := by
  intro i live unlinked
  have linked := (orderly.linked live).1
  omega

theorem Orderly.solid (orderly : Orderly k) : Solid k.fs.node := by
  intro d s isDir low named
  have live : (k.fs.node d).type ≠ 0 := by
    rw [isDir]
    decide
  exact ((orderly.linked live).2 isDir s low).resolve_left named

theorem Orderly.live (orderly : Orderly k) : (k.fs.node 1).type ≠ 0 := by
  rw [orderly.2.1]
  decide

/-- `namei` finds inode 2 under the path `/a`. -/
theorem rootFile_resolves :
    ∃ k c, Consistent k ∧ (k.proc 0).cwd = some c ∧ Passable k k.fs.node ∧ Solid k.fs.node ∧
    ∃ ip t, (namei 0 [slash, 97] k).result = .ok (some ip, t) ∧ Named k (some ip) t ∧
      (t.itable ip).inum = 2 := by
  obtain ⟨k, -, ⟨D, E, ok⟩, orderly, is⟩ := FsRuns.exists_play rootFile
    (fun k => Orderly k ∧ named k.fs.node 1 [slash, 97] = some 2) (by decide +kernel)
  obtain ⟨entry, -, -, table⟩ := id orderly
  simp only [Prod.mk.injEq] at entry
  obtain ⟨used, inum⟩ := entry
  have consistent : Consistent (seated k) := ⟨D, E, ok.setProc _⟩
  have passable : Passable (seated k) k.fs.node :=
    ⟨orderly.noOrphan, fun j low => (table j low).1, 1, 2, by decide, ⟨by decide, by decide⟩,
      (table 1 (by decide)).2.resolve_left (by decide), (table 2 (by decide)).2.resolve_left (by decide)⟩
  refine ⟨seated k, 0, consistent, rfl, passable, orderly.solid, ?_⟩
  obtain ⟨r, t, returns, after, found⟩ :=
    (path_resolution (p := 0) consistent rfl (used.symm ▸ Nat.one_pos) passable
    orderly.solid orderly.live (by
    show (k.fs.node (k.itable 0).inum).type ≠ 0
    rw [inum]
    exact orderly.live) [slash, 97]).2.1
  have two : r.map (fun ip => (t.itable ip).inum) = some 2 := by
    rw [found, ← is, ← inum]
    rfl
  obtain ⟨ip, rfl, number⟩ := Option.map_eq_some_iff.mp two
  exact ⟨ip, t, returns, after, number⟩

/-- The root directory is not in the table any more, and each of its entries is in use. -/
def fullTable : List FsCall := rootDir ++ [.iput 0] ++ List.replicate NINODE (.ialloc T_FILE)

theorem fullTable_panics :
    ∃ k, FsRuns blankKernel k ∧ Consistent k ∧ (k.fs.node ROOTINO).type = T_DIR ∧
    (∀ j < NINODE, (k.itable j).locked = false) ∧
      (namei 0 [slash] k).result = .error .igetNoInodes := by
  obtain ⟨k, run, consistent, type, unlocked, error⟩ := FsRuns.exists_play fullTable
    (fun k => (k.fs.node ROOTINO).type = T_DIR ∧ (∀ j < NINODE, (k.itable j).locked = false) ∧
      ((namei 0 [slash] k).result.map fun _ => ()) = .error .igetNoInodes) (by decide +kernel)
  refine ⟨k, run, consistent, type, unlocked, ?_⟩
  cases ended : (namei 0 [slash] k).result with
  | error e =>
    rw [ended] at error
    cases error
    rfl
  | ok r =>
    rw [ended] at error
    cases error

end Names

end Xv6
