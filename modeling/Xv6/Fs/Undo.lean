import Xv6.Fs.Read

/-!
# Failing calls on directories

A call of `create`, `sys_link` or `sys_unlink` that fails has undone all that it did: the inodes with
their contents, the references and the locks are as before. A `sys_open` that fails leaves the file that
`create` has made for it.
-/

namespace Xv6

open Function (update_self update_of_ne update_idem update_eq_self)
open Prog (wp wp_seq wp_pure wp_guard wp_skip wp_get_bind wp_act_bind)

abbrev After {α : Type} (m : Kern α) (post : α → Kernel → Prop) (k : Kernel) : Prop :=
  wp (fun _ => True) (fun _ => True) m post k

theorem After.of {α : Type} {inv : Kernel → Prop} {m : Kern α} {post : α → Kernel → Prop}
    {k : Kernel} (h : wp inv (fun _ => True) m post k) : After m post k :=
  h.weaken (fun _ _ => trivial) fun _ => id

section Calls

variable {D : Nat → Block} {E₀ E : Fs} {b k t : Kernel} {p ip : Nat}

section

variable (settled : Settled p k)
include settled

theorem Settled.begin :
    After beginOp (fun _ b => ∃ D E, Tracks D b E 0 [] b E ∧ Begun p k b) k := by
  obtain ⟨D, E, clean⟩ := settled.consistent
  refine (After.of (beginOp_tracks stops_any clean p)).mono ?_
  rintro _ b ⟨tracks, -, begun, -⟩
  exact ⟨D, E, tracks, begun settled⟩

theorem Settled.finish (begun : Begun p k b) (tracks : Tracks D b E₀ 0 [] t E)
    (same : Settled p b → E.node = E₀.node) :
    After (do endOp; return -1 : Kern Int) (fun r u => r = -1 ∧ SameFiles k u ∧ Restored k u) t := by
  refine (After.of (tracks.finish stops_any begun.quiet (fun _ => begun) _ fun _ => same)).mono ?_
  rintro _ u ⟨rfl, -, restored⟩
  exact ⟨rfl, restored rfl settled⟩

theorem sysLink_restores (old new : Option Path) :
    After (sysLink p old new) (fun r t => r = -1 → Restored k t) k := by
  obtain ⟨D, E, clean⟩ := settled.consistent
  exact (After.of (sysLink_wp stops_any trivial clean settled.housed old new)).mono fun _ _ done fails =>
    (done.2 fails settled).2

theorem sysUnlink_restores (path : Option Path) :
    After (sysUnlink p path) (fun r t => r = -1 → Restored k t) k := by
  obtain ⟨D, E, clean⟩ := settled.consistent
  exact (After.of (sysUnlink_wp stops_any trivial clean settled.housed path)).mono fun _ _ done fails =>
    (done.2 fails settled).2

theorem sysCreate_restores (path : Option Path) {type major minor : Nat} (live : type ≠ 0)
    (small : type < 65536) (smallMajor : major < 65536) (smallMinor : minor < 65536) :
    After (sysCreate p path type major minor) (fun r t => r = -1 → Restored k t) k := by
  cases path with
  | none =>
    rw [sysCreate]
    refine wp_seq _ settled.begin ?_
    rintro _ b ⟨D, E, tracks, begun⟩
    exact (settled.finish begun tracks fun _ => rfl).mono fun _ _ done _ => done.2.2
  | some path =>
    rw [sysCreate]
    refine wp_seq _ settled.begin ?_
    rintro _ b ⟨D, E, tracks, begun⟩
    refine wp_seq _ (After.of (create_makes stops_any trivial tracks begun.housed (fun _ => rfl) path live small
      smallMajor smallMinor)) ?_
    rintro (- | ip) t makes
    · obtain ⟨E', tracks', same⟩ := makes
      exact (settled.finish begun tracks' same).mono fun _ _ done _ => done.2.2
    refine wp_skip fun _ _ => ?_
    exact wp_skip fun _ _ => wp_pure nofun

/-! ### `sys_open` -/

end

/-- There are a free slot in the table of open files and a free descriptor. -/
def Room (p : Nat) (k : Kernel) : Prop :=
  (∃ f < NFILE, (k.ftable f).ref = 0) ∧ ∃ fd < NOFILE, (k.proc p).ofile fd = none

theorem sysOpen_restores (settled : Settled p k) {path : Path} {omode : Nat}
    (creates : omode &&& O_CREATE ≠ 0) {t₁ t₂ t : Kernel} {r : Int}
    (begins : (beginOp k).result = .ok ((), t₁))
    (fails : (create p path T_FILE 0 0 t₁).result = .ok (none, t₂))
    (returns : (sysOpen p (some path) omode k).result = .ok (r, t)) : r = -1 ∧ Restored k t := by
  obtain ⟨D, E, tracks, begun⟩ := settled.begin.post_of_ok begins
  obtain ⟨E', tracks', same⟩ :=
    (After.of (create_makes stops_any trivial tracks begun.housed (fun _ => rfl) path
    (by decide) (by decide) (by decide) (by decide))).post_of_ok fails
  have eq : (sysOpen p (some path) omode k).result =
      ((do endOp; return -1 : Kern Int) t₂).result := by
    rw [sysOpen, Prog.result_bind begins, if_pos creates, Prog.result_bind fails]
  rw [eq] at returns
  obtain ⟨fails, -, restored⟩ := (settled.finish begun tracks' same).post_of_ok returns
  exact ⟨fails, restored⟩

end Calls

/-- A call on names that fails changes nothing: whenever `create` returns 0 in `sys_mkdir`,
`sys_mknod` or `sys_open`, or `sys_link` or `sys_unlink` return -1, every inode has the type, link
count, size and contents that it had, so the same entries are in the same directories; all
references are given back, no inode is locked and the transaction has ended. -/
theorem failed_call_restores {k : Kernel} {p : Nat} (settled : Settled p k) :
    (∀ path t, (sysMkdir p path k).result = .ok (-1, t) → Restored k t) ∧
    (∀ path major minor t, (sysMknod p path major minor k).result = .ok (-1, t) → Restored k t) ∧
    (∀ path omode t₁ t₂ r t, omode &&& O_CREATE ≠ 0 → (beginOp k).result = .ok ((), t₁) →
      (create p path T_FILE 0 0 t₁).result = .ok (none, t₂) →
      (sysOpen p (some path) omode k).result = .ok (r, t) → r = -1 ∧ Restored k t) ∧
    (∀ old new t, (sysLink p old new k).result = .ok (-1, t) → Restored k t) ∧
    ∀ path t, (sysUnlink p path k).result = .ok (-1, t) → Restored k t := by
  refine ⟨fun path t returns => ?_, fun path major minor t returns => ?_,
    fun path omode t₁ t₂ r t => ?_,
    fun old new t returns => ?_, fun path t returns => ?_⟩
  · exact (sysCreate_restores settled path (by decide) (by decide) (by decide)
      (by decide)).post_of_ok returns rfl
  · exact (sysCreate_restores settled path (by decide) (by decide) (Nat.mod_lt _ (by decide))
      (Nat.mod_lt _ (by decide))).post_of_ok returns rfl
  · exact fun creates begins fails returns => sysOpen_restores settled creates begins fails returns
  · exact (sysLink_restores settled old new).post_of_ok returns rfl
  exact (sysUnlink_restores settled path).post_of_ok returns rfl

/-- Process 0 in the root directory. -/
theorem Orderly.settled {D : Nat → Block} {E : Fs} {k : Kernel} (ok : Clean D E k)
    (orderly : Orderly k) {q : Proc} (cwd : q.cwd = some 0) : Settled 0 (k.setProc 0 q) := by
  obtain ⟨entry, -, -, table⟩ := id orderly
  simp only [Prod.mk.injEq] at entry
  refine ⟨⟨D, E, ok.setProc _⟩, orderly.noOrphan, fun j low => (table j low).1, fun j used => ?_,
    0, ?_, ?_⟩
  · have low := (ok.table j used).index
    have first : j = 0 := (table j low).2.resolve_right (Nat.ne_of_gt used)
    show (k.fs.node (k.itable j).inum).type ≠ 0
    rw [first, entry.2]
    exact orderly.live
  · show (Function.update k.proc 0 q 0).cwd = some 0
    rwa [update_self]
  show 0 < (k.itable 0).ref
  rw [entry.1]
  exact Nat.one_pos

theorem ok_of_any {ε α : Type} {r : Except ε α} {check : α → Bool}
    (h : r.toOption.any check = true) :
    ∃ a, r = .ok a ∧ check a = true := by
  cases r with
  | error e => cases h
  | ok a => exact ⟨a, rfl, h⟩

/-- `link("a", "x/b")` has added a link to `a` when it finds no directory `x`, and takes it back. -/
theorem rootFile_restores : ∃ k t, Settled 0 k ∧
    (sysLink 0 (some [97]) (some [120, slash, 98]) k).result = .ok (-1, t) ∧ Restored k t := by
  obtain ⟨k, -, ⟨D, E, ok⟩, orderly, fails⟩ := FsRuns.exists_play rootFile (fun k => Orderly k ∧
    (sysLink 0 (some [97]) (some [120, slash, 98]) (seated k)).result.toOption.any (fun r => r.1 == -1) = true)
    (by decide +kernel)
  obtain ⟨⟨r, t⟩, returns, eq⟩ := ok_of_any fails
  obtain rfl : r = -1 := eq_of_beq eq
  have settled : Settled 0 (seated k) := orderly.settled ok rfl
  exact ⟨seated k, t, settled, returns, (failed_call_restores settled).2.2.2.1 _ _ _ returns⟩

end Xv6
