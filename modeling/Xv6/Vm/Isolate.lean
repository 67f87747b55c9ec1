import Xv6.Vm.Copy
import Xv6.Vm.Files

/-!
# Isolation of processes

What the kernel stores through the page table of one process, no other process sees.
-/

namespace Xv6.Vm

open Copy (phys load Phys copyin copyinstr)
open Xv6.Task (Valid)

theorem Copy.load_congr {pt : Pagetable} {mem mem' : Phys} (ends : UInt8 → Bool) (n : Nat) :
    ∀ {va : Nat},
    (∀ va a, phys pt va = some a → mem' a = mem a) →
      load ends pt mem' va n = load ends pt mem va n := by
  induction n with
  | zero => exact fun _ => rfl
  | succ n ih =>
    intro va same
    rw [load, load]
    cases here : phys pt va with
    | none => rfl
    | some pa => simp only [same va pa here, ih same]

/-- The kernel reads and writes user memory in pages of the process only. -/
theorem Mem.Shaped.phys_mem {L : Layout} {m : Mem} (shaped : m.Shaped L)
    (frames : ∀ page ∈ m.pages, L.Frame page) {va a : Nat} (here : phys m.pagetable va = some a) :
    pgRoundDown a ∈ m.pages := by
  obtain ⟨pte, look, user, low, high⟩ := Copy.phys_holds here
  have inside : va / PGSIZE < pgs m.sz := by
    by_contra outside
    by_cases tf : va / PGSIZE = TRAPFRAME / PGSIZE
    · rw [tf, shaped.trapframe] at look
      cases look
      cases user
    by_cases tr : va / PGSIZE = TRAMPOLINE / PGSIZE
    · rw [tr, shaped.trampoline] at look
      cases look
      cases user
    rw [shaped.other _ (not_lt.mp outside) tf tr] at look
    cases look
  have mem := Mem.userPage_mem inside
  rw [Mem.userPage, look] at mem
  have aligned : pte.pa % PGSIZE = 0 := (frames _ mem).1
  have page : pgRoundDown a = pte.pa := by
    rw [pgRoundDown]
    rw [PGSIZE] at *
    omega
  rwa [page]

/-- In every state of every run, what `copyout` stores in the memory of one process changes
nothing that `copyin` or `copyinstr` reads from the memory of another. -/
theorem processes_isolated {P : Type} [DecidableEq P] [Fintype P] {L : Layout} {initproc : P} {root : Fin NINODE}
    {free : List Nat} {w : World P} (nodup : free.Nodup) (frames : ∀ page ∈ free, L.Frame page)
    (run : World.Runs L initproc root free w) {x y : P} (ne : x ≠ y) {m m' : Mem}
    (atx : w.sys.slot x = .user m)
    (aty : w.sys.slot y = .user m') (mem : Phys) (va va' n : Nat) (src : List UInt8) :
    let mem' := (Copy.copyout m.pagetable mem va src).1
    copyin m'.pagetable mem' va' n = copyin m'.pagetable mem va' n ∧
      copyinstr m'.pagetable mem' va' n = copyinstr m'.pagetable mem va' n := by
  have valid : Valid L.Frame (↑free + 0) := by
    rw [add_zero]
    exact ⟨Multiset.coe_nodup.mpr nodup, frames⟩
  have inv := (run.good valid).inv.sys
  have pair := Finset.sum_le_sum_of_subset (f := fun y => (w.sys.slot y).pages)
    (Finset.subset_univ {x, y})
  rw [Finset.sum_pair ne, atx, aty] at pair
  have both : Valid L.Frame (m.pages + m'.pages) := by
    rw [← inv.pages] at valid
    exact valid.of_le (pair.trans ((Multiset.le_add_left _ _).trans (Multiset.le_add_right _ _)))
  have shaped := inv.slots x
  have shaped' := inv.slots y
  rw [atx] at shaped
  rw [aty] at shaped'
  have same : ∀ va' a, phys m'.pagetable va' = some a →
      (Copy.copyout m.pagetable mem va src).1 a = mem a := by
    intro va' a here
    by_contra changed
    rw [Copy.copyout_eq_store] at changed
    obtain ⟨i, -, there⟩ := Copy.store_frame changed
    have mine :=
      Mem.Shaped.phys_mem shaped (fun _ mem => both.ok _ (Multiset.mem_add.mpr (.inl mem))) there
    have yours :=
      Mem.Shaped.phys_mem shaped' (fun _ mem => both.ok _ (Multiset.mem_add.mpr (.inr mem))) here
    exact Multiset.disjoint_left.mp (Multiset.nodup_add.mp both.nodup).2.2 mine yours
  simp only [copyin, copyinstr, Copy.copyFrom_eq_load, Copy.load_congr _ n same, and_self]

theorem forked_isolated :
    ∃ (w : World (Fin 2)) (m m' : Mem), World.Runs smallLayout 0 0 sixteenPages w ∧
    w.sys.slot 0 = .user m ∧ w.sys.slot 1 = .user m' ∧ ∀ mem va src va' n,
      copyin m'.pagetable (Copy.copyout m.pagetable mem va src).1 va' n =
        copyin m'.pagetable mem va' n := by
  have played : ((World.boot smallLayout 0 0 sixteenPages).bind fun w : World (Fin 2) =>
      w.play smallLayout (forkOnce.map .sys)).any bothRun = true := by
    decide +kernel
  obtain ⟨w, run, both⟩ := World.Runs.of_play played
  obtain ⟨m, m', atx, aty, -⟩ := exists_of_bothRun both
  refine ⟨w, m, m', run, atx, aty, fun mem va src va' n => ?_⟩
  exact (processes_isolated (by decide) (by decide) run (by decide) atx aty mem va va' n src).1

end Xv6.Vm
