import Xv6.Vm.Calls

/-!
# Processes that share the free pages

Any number of processes make calls at the same time. A call runs from one page it takes or
frees to the next, and between two of these the other processes may do the same. The slot of
a child that `fork` builds or that `wait` frees is reserved: the source holds its lock.
-/

namespace Xv6.Vm

open Multiset (cons_coe cons_add add_cons erase_cons_head)
open Xv6.Task
open Function renaming update → upd

/-- What is left when a call ends: the memory of the caller and, after `fork`, of the child. -/
structure End where
  mem : Mem
  child : Option Mem

/-- `call child held task` is a process in a call; `child` is the slot it has reserved, and `held`
records the pages that it has. -/
inductive Slot (P : Type)
  | unused
  | used
  | user (m : Mem)
  | call (child : Option P) (held : Multiset Nat) (task : VmM End)
  | zombie (m : Mem)

structure Sys (P : Type) where
  freelist : List Nat
  slot : P → Slot P
  parent : P → Option P
  initproc : P

/-- A process starts a call, or goes on with it (and may then be refused a page). -/
inductive Action (P : Type)
  | sbrk (x : P) (n : Int)
  | exec (x : P) (image : Image) (uargv : Nat → Arg)
  | fork (x c : P)
  | exit (x : P)
  | wait (x c : P) (addr : Nat)
  | run (x : P) (fails : Bool)

/-- The panics of the machine. -/
inductive Fault
  | initExiting
  | panic (e : Panic)

namespace Sys

variable {P : Type} [DecidableEq P]

def set (s : Sys P) (x : P) (v : Slot P) : Sys P := { s with slot := upd s.slot x v }

/-- The end of a call. -/
def finish (s : Sys P) (x : P) (child : Option P) (e : End) : Sys P :=
  match child with
  | none => s.set x (.user e.mem)
  | some c =>
    match e.child with
    | none => (s.set c .unused).set x (.user e.mem)
    | some np => { (s.set c (.user np)).set x (.user e.mem) with parent := upd s.parent c (some x) }

/-- The next page that a call takes or frees. -/
def go (s : Sys P) (x : P) (child : Option P) (held : Multiset Nat) (fails : Bool) :
    VmM End → Except Fault (Sys P)
  | .fail e => .error (.panic e)
  | .done e => .ok (s.finish x child e)
  | .take next =>
    match fails, s.freelist with
    | false, page :: rest => .ok { s.set x (.call child (page ::ₘ held) (next (some page))) with freelist := rest }
    | _, _ => .ok (s.set x (.call child held (next none)))
  | .give page next => .ok { s.set x (.call child (held.erase page) next) with freelist := page :: s.freelist }

def step (L : Layout) (s : Sys P) : Action P → Option (Except Fault (Sys P))
  | .sbrk x n =>
    match s.slot x with
    | .user m => some (.ok (s.set x (.call none m.pages do
      let r ← growproc L m n
      pure ⟨r.1, none⟩)))
    | _ => none
  | .exec x image uargv =>
    match s.slot x with
    | .user m => some (.ok (s.set x (.call none m.pages do
      let r ← sysExec L m image uargv
      pure ⟨r.1, none⟩)))
    | _ => none
  | .fork x c =>
    match s.slot x, s.slot c with
    | .user m, .unused => some (.ok ((s.set c .used).set x (.call (some c) m.pages do
      let np ← fork L m
      pure ⟨m, np⟩)))
    | _, _ => none
  | .exit x =>
    match s.slot x with
    | .user m =>
      if x = s.initproc then some (.error .initExiting)
      else some (.ok { s.set x (.zombie m) with
        parent := fun y => if s.parent y = some x then some s.initproc else s.parent y })
    | _ => none
  | .wait x c addr =>
    match s.slot x, s.slot c with
    | .user m, .zombie np =>
      if s.parent c = some x then
        if addr ≠ 0 ∧ copyout m.pagetable addr 4 = false then some (.ok s)
        else some (.ok ((s.set c .used).set x (.call (some c) (np.pages + m.pages) do
          freeproc L (some np.trapframe) (some np.pagetable) np.sz
          pure ⟨m, none⟩)))
      else none
    | _, _ => none
  | .run x fails =>
    match s.slot x with
    | .call child held task => some (s.go x child held fails task)
    | _ => none

/-- The first process, on the pages that the kernel has left. -/
def boot (L : Layout) (initproc : P) (free : List Nat) : Option (Sys P) :=
  match (userinit L).run free with
  | some (some m, rest) => some ⟨rest, upd (fun _ => .unused) initproc (.user m), fun _ => none, initproc⟩
  | _ => none

def play (L : Layout) (s : Sys P) : List (Action P) → Option (Sys P)
  | [] => some s
  | a :: rest =>
    match s.step L a with
    | some (.ok s') => s'.play L rest
    | _ => none

/-- The states of the runs that begin with the free pages `free`. -/
inductive Runs (L : Layout) (initproc : P) (free : List Nat) : Sys P → Prop
  | boot {s : Sys P} : boot L initproc free = some s → Runs L initproc free s
  | step {s s' : Sys P} {a : Action P} :
      Runs L initproc free s → s.step L a = some (.ok s') → Runs L initproc free s'

end Sys

/-! ## The invariant -/

def Slot.pages {P : Type} : Slot P → Multiset Nat
  | .unused | .used => 0
  | .user m | .zombie m => m.pages
  | .call _ held _ => held

/-- What a call ends with. -/
structure End.Ok (L : Layout) {P : Type} (child : Option P) (e : End) (held : Multiset Nat) : Prop where
  shaped : e.mem.Shaped L
  np : ∀ m, e.child = some m → m.Shaped L ∧ child ≠ none
  held : held = e.child.elim 0 Mem.pages + e.mem.pages

/-- What a slot is in every state. -/
def Slot.Ok (L : Layout) {P : Type} : Slot P → Prop
  | .unused | .used => True
  | .user m | .zombie m => m.Shaped L
  | .call child held task => task.wp L.Frame (fun e g => e.Ok L child g) held

/-- Every page is free, or in one slot, or one of the pages that others have; and every slot is as
it should be. -/
structure Sys.Inv {P : Type} [Fintype P] (L : Layout) (all others : Multiset Nat) (s : Sys P) : Prop where
  pages : ↑s.freelist + ∑ x, (s.slot x).pages + others = all
  valid : Valid L.Frame all
  slots : ∀ x, (s.slot x).Ok L
  reserved : ∀ x c held task, s.slot x = .call (some c) held task → s.slot c = .used
  apart : ∀ x y c held held' task task', s.slot x = .call (some c) held task →
    s.slot y = .call (some c) held' task' → x = y

namespace Sys

variable {P : Type} [DecidableEq P] {L : Layout} {all others : Multiset Nat} {s s' : Sys P} {x c : P}
  {v : Slot P} {m : Mem} {held : Multiset Nat} {task : VmM End}

theorem slot_set_self : (s.set x v).slot x = v := Function.update_self ..

theorem slot_set_of_ne {y : P} (ne : y ≠ x) : (s.set x v).slot y = s.slot y := Function.update_of_ne ne ..

variable [Fintype P]

theorem pages_set (s : Sys P) (x : P) (v : Slot P) :
    ∑ y, ((s.set x v).slot y).pages + (s.slot x).pages = ∑ y, (s.slot y).pages + v.pages := by
  have same : ∑ y ∈ {x}ᶜ, ((s.set x v).slot y).pages = ∑ y ∈ {x}ᶜ, (s.slot y).pages := by
    apply Finset.sum_congr rfl
    intro y mem
    rw [slot_set_of_ne (by simpa using mem)]
  rw [Fintype.sum_eq_add_sum_compl x fun y => ((s.set x v).slot y).pages,
    Fintype.sum_eq_add_sum_compl x fun y => (s.slot y).pages, same, slot_set_self]
  simp only [add_comm, add_left_comm]

variable {free : List Nat} {parent : P → Option P}

section

variable (inv : Inv L all others s)
include inv

/-- One slot changes, and reserves nothing new. -/
theorem Inv.put {others' : Multiset Nat} (mine : s.slot x ≠ .used) (ok : v.Ok L)
    (child : ∀ c held task, v = .call (some c) held task →
      ∃ held' task', s.slot x = .call (some c) held' task')
    (pages : ↑free + ∑ y, ((s.set x v).slot y).pages + others' = all) :
    Inv L all others' { s.set x v with freelist := free, parent } := by
  -- A call of the new state with a child was one of the old state.
  have old : ∀ {y c held task}, (s.set x v).slot y = .call (some c) held task →
      ∃ held' task', s.slot y = .call (some c) held' task' := by
    intro y c held task at'
    by_cases eq : y = x
    · rw [eq, slot_set_self] at at'
      rw [eq]
      exact child c held task at'
    rw [slot_set_of_ne eq] at at'
    exact ⟨held, task, at'⟩
  constructor
  · exact pages
  · exact inv.valid
  · intro y
    by_cases eq : y = x
    · show ((s.set x v).slot y).Ok L
      rw [eq, slot_set_self]
      exact ok
    show ((s.set x v).slot y).Ok L
    rw [slot_set_of_ne eq]
    exact inv.slots y
  · intro y c held task at'
    obtain ⟨held', task', at'⟩ := old at'
    have used := inv.reserved y c held' task' at'
    have ne : c ≠ x := by
      rintro rfl
      exact mine used
    show (s.set x v).slot c = .used
    rw [slot_set_of_ne ne]
    exact used
  intro y z c held held' task task' aty atz
  obtain ⟨_, _, aty⟩ := old aty
  obtain ⟨_, _, atz⟩ := old atz
  exact inv.apart y z c _ _ _ _ aty atz

theorem Inv.reserve (ne : c ≠ x) (mine : s.slot x = .user m) (free : s.slot c ≠ .used)
    (idle : ∀ child held task, s.slot c ≠ .call child held task)
    (ok : (Slot.call (some c) held task).Ok L) (pages : held = (s.slot c).pages + m.pages) :
    Inv L all others ((s.set c .used).set x (.call (some c) held task)) := by
  have elsewhere : ∀ {y}, y ≠ x → y ≠ c →
      ((s.set c .used).set x (.call (some c) held task)).slot y = s.slot y := by
    intro y nx nc
    rw [slot_set_of_ne nx, slot_set_of_ne nc]
  have child : ((s.set c .used).set x (.call (some c) held task)).slot c = .used := by
    rw [slot_set_of_ne ne, slot_set_self]
  -- The other calls with a child have another one.
  have old : ∀ {y d held' task'}, y ≠ x →
      ((s.set c .used).set x (.call (some c) held task)).slot y = .call (some d) held' task' →
      s.slot y = .call (some d) held' task' ∧ s.slot d = .used := by
    intro y d held' task' nx at'
    have nc : y ≠ c := by
      rintro rfl
      rw [child] at at'
      cases at'
    rw [elsewhere nx nc] at at'
    exact ⟨at', inv.reserved y d _ _ at'⟩
  constructor
  · have first := pages_set s c .used
    have second := pages_set (s.set c .used) x (.call (some c) held task)
    rw [slot_set_of_ne ne.symm, mine] at second
    have same : ∑ y, (((s.set c .used).set x (.call (some c) held task)).slot y).pages =
        ∑ y, (s.slot y).pages := by
      apply add_right_cancel (b := m.pages)
      rw [show (Slot.user m : Slot P).pages = m.pages from rfl] at second
      rw [second, show (Slot.call (some c) held task).pages = held from rfl, pages, ← add_assoc,
        first]
      exact congrArg (· + m.pages) (add_zero _)
    rw [same]
    exact inv.pages
  · exact inv.valid
  · intro y
    by_cases nx : y = x
    · rw [nx, slot_set_self]
      exact ok
    by_cases nc : y = c
    · rw [nc, child]
      exact trivial
    rw [elsewhere nx nc]
    exact inv.slots y
  · intro y d held' task' at'
    by_cases nx : y = x
    · rw [nx, slot_set_self] at at'
      cases at'
      exact child
    obtain ⟨-, used⟩ := old nx at'
    have dx : d ≠ x := by
      rintro rfl
      rw [mine] at used
      cases used
    have dc : d ≠ c := by
      rintro rfl
      exact free used
    rw [elsewhere dx dc]
    exact used
  intro y z d held₁ held₂ task₁ task₂ aty atz
  by_cases yx : y = x
  · by_cases zx : z = x
    · rw [yx, zx]
    obtain ⟨-, used⟩ := old zx atz
    rw [yx, slot_set_self] at aty
    cases aty
    exact absurd used free
  obtain ⟨aty, used⟩ := old yx aty
  by_cases zx : z = x
  · rw [zx, slot_set_self] at atz
    cases atz
    exact absurd used free
  exact inv.apart y z d _ _ _ _ aty (old zx atz).1

/-- A call ends and gives up the slot of the child. -/
theorem Inv.release {w : Slot P} (mine : s.slot x = .call (some c) held task) (ok : v.Ok L)
    (ok' : w.Ok L) (vcall : ∀ child held task, v ≠ .call child held task)
    (wcall : ∀ child held task, w ≠ .call child held task) (pages : held = w.pages + v.pages) :
    Inv L all others { (s.set c w).set x v with parent } := by
  have used := inv.reserved x c held task mine
  have ne : c ≠ x := by
    rintro rfl
    rw [mine] at used
    cases used
  have elsewhere : ∀ {y}, y ≠ x → y ≠ c → ((s.set c w).set x v).slot y = s.slot y := by
    intro y nx nc
    rw [slot_set_of_ne nx, slot_set_of_ne nc]
  have child : ((s.set c w).set x v).slot c = w := by rw [slot_set_of_ne ne, slot_set_self]
  have old : ∀ {y d held' task'}, ((s.set c w).set x v).slot y = .call (some d) held' task' →
      y ≠ x ∧ s.slot y = .call (some d) held' task' := by
    intro y d held' task' at'
    have nx : y ≠ x := by
      rintro rfl
      rw [slot_set_self] at at'
      exact vcall _ _ _ at'
    have nc : y ≠ c := by
      rintro rfl
      rw [child] at at'
      exact wcall _ _ _ at'
    rw [elsewhere nx nc] at at'
    exact ⟨nx, at'⟩
  constructor
  · have first := pages_set s c w
    have second := pages_set (s.set c w) x v
    rw [used] at first
    rw [slot_set_of_ne ne.symm, mine, show (Slot.call (some c) held task).pages = held from rfl,
      pages] at second
    have same : ∑ y, (((s.set c w).set x v).slot y).pages = ∑ y, (s.slot y).pages := by
      apply add_right_cancel (b := w.pages + v.pages)
      rw [second, ← add_assoc, ← first]
      exact congrArg (· + v.pages) (add_zero _).symm
    show ↑s.freelist + ∑ y, (((s.set c w).set x v).slot y).pages + others = all
    rw [same]
    exact inv.pages
  · exact inv.valid
  · intro y
    show (((s.set c w).set x v).slot y).Ok L
    by_cases nx : y = x
    · rw [nx, slot_set_self]
      exact ok
    by_cases nc : y = c
    · rw [nc, child]
      exact ok'
    rw [elsewhere nx nc]
    exact inv.slots y
  · intro y d held' task' at'
    obtain ⟨nx, before⟩ := old at'
    have used' := inv.reserved y d _ _ before
    have dx : d ≠ x := by
      rintro rfl
      rw [mine] at used'
      cases used'
    have dc : d ≠ c := by
      intro eq
      rw [eq] at before
      exact nx (inv.apart y x c _ _ _ _ before mine)
    show ((s.set c w).set x v).slot d = .used
    rw [elsewhere dx dc]
    exact used'
  intro y z d _ _ _ _ aty atz
  exact inv.apart y z d _ _ _ _ (old aty).2 (old atz).2

theorem Inv.replace (mine : s.slot x ≠ .used) (ok : v.Ok L)
    (child : ∀ c held task, v = .call (some c) held task →
      ∃ held' task', s.slot x = .call (some c) held' task')
    (pages : v.pages = (s.slot x).pages) : Inv L all others { s.set x v with parent } := by
  show Inv L all others { s.set x v with freelist := s.freelist, parent }
  apply inv.put mine ok child
  have sum := pages_set s x v
  rw [pages] at sum
  rw [add_right_cancel sum]
  exact inv.pages

end

variable {child : Option P}

theorem Inv.finish {e : End} (inv : Inv L all others s) (mine : s.slot x = .call child held task)
    (ends : e.Ok L child held) : Inv L all others (s.finish x child e) := by
  cases child with
  | none =>
    have alone : e.child = none := by
      cases np : e.child with
      | none => rfl
      | some m => exact absurd rfl (ends.np m np).2
    have pages := ends.held
    rw [alone, Option.elim_none, zero_add] at pages
    show Inv L all others { s.set x (.user e.mem) with parent := s.parent }
    apply inv.replace
    · rw [mine]
      nofun
    · exact ends.shaped
    · nofun
    rw [mine]
    exact pages.symm
  | some c =>
    have pages := ends.held
    cases np : e.child with
    | none =>
      rw [np] at pages
      simp only [Sys.finish, np]
      exact inv.release mine ends.shaped trivial nofun nofun pages
    | some m =>
      rw [np] at pages
      simp only [Sys.finish, np]
      exact inv.release mine ends.shaped (ends.np m np).1 nofun nofun pages

theorem Inv.go {fails : Bool} (inv : Inv L all others s) (mine : s.slot x = .call child held task)
    (step : s.go x child held fails task = .ok s') : Inv L all others s' := by
  have wp := inv.slots x
  rw [mine] at wp
  have used : s.slot x ≠ .used := by
    rw [mine]
    nofun
  cases task with
  | fail e => exact wp.elim
  | done e =>
    cases step
    exact inv.finish mine wp
  | take next =>
    simp only [Sys.go] at step
    split at step
    swap
    · cases step
      show Inv L all others { s.set x _ with parent := s.parent }
      apply inv.replace used
      · exact wp.1
      · intro c held' task' eq
        cases eq
        exact ⟨_, _, mine⟩
      rw [mine]
      rfl
    rename_i page rest free
    cases step
    have split : ∑ y, (s.slot y).pages = held + ∑ y ∈ {x}ᶜ, (s.slot y).pages := by
      rw [Fintype.sum_eq_add_sum_compl x, mine]
      rfl
    have pages := inv.pages
    rw [free, ← cons_coe, cons_add, cons_add] at pages
    have nodup := inv.valid.nodup
    rw [← pages, Multiset.nodup_cons, split] at nodup
    have new : page ∉ held := by
      intro mem
      apply nodup.1
      simp only [Multiset.mem_add]
      exact .inl (.inr (.inl mem))
    have frame : L.Frame page := by
      apply inv.valid.ok
      rw [← pages]
      exact Multiset.mem_cons_self page _
    apply inv.put used
    · exact wp.2 page frame new
    · intro c held' task' eq
      cases eq
      exact ⟨_, _, mine⟩
    have sum := pages_set s x (.call child (page ::ₘ held) (next (some page)))
    rw [mine, show (Slot.call child held (take next)).pages = held from rfl,
      show (Slot.call child (page ::ₘ held) (next (some page))).pages = page ::ₘ held from rfl,
      add_cons, ← cons_add] at sum
    rw [add_right_cancel sum, add_cons, cons_add]
    exact pages
  | give page next =>
    rw [Sys.go] at step
    cases step
    obtain ⟨rest, rfl, wp⟩ := wp
    apply inv.put used
    · rw [erase_cons_head]
      exact wp
    · intro c held' task' eq
      cases eq
      exact ⟨_, _, mine⟩
    have sum := pages_set s x (.call child ((page ::ₘ rest).erase page) next)
    rw [mine, show (Slot.call child (page ::ₘ rest) (give page next)).pages =
      page ::ₘ rest from rfl,
      show (Slot.call child ((page ::ₘ rest).erase page) next).pages =
        (page ::ₘ rest).erase page from rfl,
      erase_cons_head, add_cons, ← cons_add] at sum
    rw [erase_cons_head, ← cons_coe, cons_add, ← add_cons]
    rw [add_right_cancel sum]
    exact inv.pages

theorem Inv.go_ok {fails : Bool} {e : Fault} (inv : Inv L all others s)
    (mine : s.slot x = .call child held task) : s.go x child held fails task ≠ .error e := by
  have wp := inv.slots x
  rw [mine] at wp
  cases task with
  | fail e => exact wp.elim
  | done e => nofun
  | take next =>
    simp only [Sys.go]
    split <;> nofun
  | give page next => nofun

omit [DecidableEq P] in
theorem Inv.call_ok (inv : Inv L all others s) (held : Multiset Nat)
    (le : held ≤ ∑ y, (s.slot y).pages)
    (runs : Task.Runs L.Frame task (fun e g => e.Ok L child g) held) :
    (Slot.call child held task).Ok L := by
  apply runs.wp
  apply inv.valid.of_le
  rw [← inv.pages]
  exact le.trans ((Multiset.le_add_left _ _).trans (Multiset.le_add_right _ _))

omit [DecidableEq P] in
theorem Inv.slot_le (x : P) : (s.slot x).pages ≤ ∑ y, (s.slot y).pages :=
  Finset.single_le_sum (f := fun y => (s.slot y).pages) (fun _ _ => Multiset.zero_le _) (Finset.mem_univ x)

theorem Inv.outcome {a : Action P} {r : Except Fault (Sys P)} (inv : Inv L all others s) (step : s.step L a = some r) :
    match r with
    | .ok s' => Inv L all others s'
    | .error e => e = .initExiting := by
  -- A call without a child.
  have plain : ∀ {x m} {task : VmM End}, s.slot x = .user m →
      Task.Runs L.Frame task (fun e g => e.Ok L (none : Option P) g) (m.pages + 0) →
      Inv L all others (s.set x (.call none m.pages task)) := by
    intro x m task mine runs
    rw [add_zero] at runs
    have le : m.pages ≤ ∑ y, (s.slot y).pages := by
      have le := Inv.slot_le (s := s) x
      rwa [mine] at le
    show Inv L all others { s.set x _ with parent := s.parent }
    apply inv.replace
    · rw [mine]
      nofun
    · exact inv.call_ok m.pages le runs
    · nofun
    rw [mine]
    rfl
  have shaped : ∀ {x m}, s.slot x = .user m → m.Shaped L := by
    intro x m mine
    have ok := inv.slots x
    rwa [mine] at ok
  cases a with
  | sbrk x n =>
    simp only [Sys.step] at step
    split at step
    · rename_i m mine
      cases step
      apply plain mine
      apply runs_bind
      apply runs_growproc (shaped mine)
      intro m' ok shaped'
      exact runs_pure ⟨shaped', nofun, by rw [add_zero, Option.elim_none, zero_add]⟩
    cases step
  | exec x image uargv =>
    simp only [Sys.step] at step
    split at step
    · rename_i m mine
      cases step
      apply plain mine
      apply runs_bind
      apply runs_sysExec (shaped mine)
      intro m' r shaped'
      exact runs_pure ⟨shaped', nofun, by rw [add_zero, Option.elim_none, zero_add]⟩
    cases step
  | fork x c =>
    simp only [Sys.step] at step
    split at step
    swap
    · cases step
    rename_i m mine unused
    cases step
    have ne : c ≠ x := by
      rintro rfl
      rw [mine] at unused
      cases unused
    have le : m.pages ≤ ∑ y, (s.slot y).pages := by
      have le := Inv.slot_le (s := s) x
      rwa [mine] at le
    apply inv.reserve ne mine
    · rw [unused]
      nofun
    · rw [unused]
      nofun
    · apply inv.call_ok m.pages le
      rw [← add_zero m.pages]
      apply runs_bind
      apply runs_fork (shaped mine)
      · exact runs_pure ⟨shaped mine, nofun, by rw [add_zero, Option.elim_none, zero_add]⟩
      intro np shaped'
      refine runs_pure ⟨shaped mine, ?_, by rw [add_zero, Option.elim_some]⟩
      intro m' eq
      cases eq
      exact ⟨shaped', nofun⟩
    rw [unused]
    exact (zero_add _).symm
  | exit x =>
    simp only [Sys.step] at step
    split at step
    swap
    · cases step
    rename_i m mine
    split at step
    · cases step
      rfl
    cases step
    apply inv.replace
    · rw [mine]
      nofun
    · exact shaped mine
    · nofun
    rw [mine]
    rfl
  | wait x c addr =>
    simp only [Sys.step] at step
    split at step
    swap
    · cases step
    rename_i m np mine zombie
    split at step
    swap
    · cases step
    split at step
    · cases step
      exact inv
    cases step
    have ne : c ≠ x := by
      rintro rfl
      rw [mine] at zombie
      cases zombie
    have dead := inv.slots c
    rw [zombie] at dead
    have le : np.pages + m.pages ≤ ∑ y, (s.slot y).pages := by
      have pair := Finset.sum_le_sum_of_subset (f := fun y => (s.slot y).pages)
        (Finset.subset_univ {c, x})
      rw [Finset.sum_pair ne, zombie, mine] at pair
      exact pair
    apply inv.reserve ne mine
    · rw [zombie]
      nofun
    · rw [zombie]
      nofun
    · apply inv.call_ok _ le
      apply runs_bind
      apply runs_freeproc dead
      exact runs_pure ⟨shaped mine, nofun, by rw [Option.elim_none, zero_add]⟩
    rw [zombie]
    rfl
  | run x fails =>
    simp only [Sys.step] at step
    split at step
    · rename_i child held task mine
      cases r with
      | ok s' => exact inv.go mine (Option.some.inj step)
      | error e => exact absurd (Option.some.inj step) (inv.go_ok mine)
    cases step

theorem Inv.step {a : Action P} (inv : Inv L all others s) (step : s.step L a = some (.ok s')) :
    Inv L all others s' :=
  inv.outcome step

theorem Inv.step_error {a : Action P} {e : Fault} (inv : Inv L all others s) (step : s.step L a = some (.error e)) :
    e = .initExiting := inv.outcome step

variable {initproc : P}

theorem Inv.boot (valid : Valid L.Frame (↑free + others))
    (boots : boot L initproc free = some s) : Inv L (↑free + others) others s := by
  rw [Sys.boot] at boots
  split at boots
  swap
  · cases boots
  rename_i m rest ran
  cases boots
  have first : Task.Runs L.Frame (userinit L) (fun r g => ∀ m, r = some m → m.Shaped L ∧
      g = m.pages) 0 := by
    apply runs_userinit
    · nofun
    intro m shaped m' eq
    cases eq
    exact ⟨shaped, add_zero _⟩
  have alone : Valid L.Frame (↑free + 0) := by
    rw [add_zero]
    exact valid.of_le (Multiset.le_add_right _ _)
  obtain ⟨held, ends, pages⟩ := (first.wp (valid.of_le (Multiset.zero_le _))).run alone ran
  obtain ⟨shaped, rfl⟩ := ends m rfl
  have slots : ∀ y, y ≠ initproc → upd (fun _ => Slot.unused) initproc (Slot.user m : Slot P) y =
      .unused := by
    intro y ne
    exact Function.update_of_ne ne _ _
  have idle : ∀ {y child held task},
      upd (fun _ => Slot.unused) initproc (Slot.user m : Slot P) y ≠ .call child held task := by
    intro y child held task at'
    by_cases eq : y = initproc
    · rw [eq, Function.update_self] at at'
      cases at'
    rw [slots y eq] at at'
    cases at'
  constructor
  · have sum : ∑ y, (upd (fun _ => Slot.unused) initproc (Slot.user m : Slot P) y).pages =
        m.pages := by
      rw [Fintype.sum_eq_single initproc, Function.update_self]
      · rfl
      intro y ne
      rw [slots y ne]
      rfl
    rw [add_zero] at pages
    rw [sum, pages]
  · exact valid
  · intro y
    by_cases eq : y = initproc
    · show (upd (fun _ => Slot.unused) initproc (Slot.user m : Slot P) y).Ok L
      rw [eq, Function.update_self]
      exact shaped
    show (upd (fun _ => Slot.unused) initproc (Slot.user m : Slot P) y).Ok L
    rw [slots y eq]
    exact trivial
  · intro y c held task at'
    exact absurd at' idle
  intro y z c held held' task task' at'
  exact absurd at' idle

theorem Runs.inv (valid : Valid L.Frame (↑free + others))
    (run : Runs L initproc free s) : Inv L (↑free + others) others s := by
  induction run with
  | boot boots => exact .boot valid boots
  | step _ step ih => exact ih.step step

omit [Fintype P] in
theorem Runs.play {actions : List (Action P)} : ∀ {s s' : Sys P},
    Runs L initproc free s → s.play L actions = some s' → Runs L initproc free s' := by
  induction actions with
  | nil =>
    intro s s' run played
    cases played
    exact run
  | cons a rest ih =>
    intro s s' run played
    simp only [Sys.play] at played
    split at played
    · rename_i next stepped
      exact ih (run.step stepped) played
    cases played

omit [Fintype P] in
theorem Runs.of_play {actions : List (Action P)} {check : Sys P → Bool}
    (played : ((Sys.boot L initproc free).bind fun s => s.play L actions).any check = true) :
    ∃ s, Runs L initproc free s ∧ check s = true := by
  obtain ⟨s, h, played⟩ := (Option.any_eq_true _ _).1 played
  obtain ⟨first, boots, ran⟩ := Option.bind_eq_some_iff.mp h
  exact ⟨s, (Runs.boot boots).play ran, played⟩

end Sys

/-- In every state of every run a process that is not in a call has its user pages mapped from
address 0 up to its size, the trapframe and the trampoline, both closed to user mode, and
nothing else; and no call panics. -/
theorem addressSpace_shape {P : Type} [DecidableEq P] [Fintype P] {L : Layout} {initproc : P}
    {free : List Nat} {s : Sys P} (nodup : free.Nodup) (frames : ∀ page ∈ free, L.Frame page)
    (run : Sys.Runs L initproc free s) :
    (∀ x m, s.slot x = .user m ∨ s.slot x = .zombie m → (∀ v, m.pagetable.look v ≠ none ↔
        v * PGSIZE < pgRoundUp m.sz ∨ v = TRAPFRAME / PGSIZE ∨ v = TRAMPOLINE / PGSIZE) ∧
      (∃ pte, m.pagetable.look (TRAPFRAME / PGSIZE) = some pte ∧ pte.pa = m.trapframe ∧
        pte.perm.u = false) ∧
      ∃ pte, m.pagetable.look (TRAMPOLINE / PGSIZE) = some pte ∧ pte.pa = L.trampoline ∧
        pte.perm.u = false) ∧
    ∀ a e, s.step L a = some (.error e) → e = .initExiting := by
  have valid : Valid L.Frame (↑free + 0) := by
    rw [add_zero]
    exact ⟨Multiset.coe_nodup.mpr nodup, frames⟩
  have inv := run.inv valid
  refine ⟨?_, fun a e => inv.step_error⟩
  intro x m at'
  have ok : m.Shaped L ∧ (s.slot x).pages = m.pages := by
    have ok := inv.slots x
    rcases at' with at' | at' <;> rw [at'] at ok ⊢ <;> exact ⟨ok, rfl⟩
  obtain ⟨shaped, pages⟩ := ok
  have small : pgs m.sz < 2 ^ 21 := by
    have le := Sys.Inv.slot_le (s := s) x
    rw [pages, ← add_zero m.pages, Mem.pages_add] at le
    have part : Valid L.Frame (m.pagetable.own (pgs m.sz) + (m.trapframe ::ₘ 0)) := by
      apply valid.of_le
      rw [← inv.pages]
      exact le.trans ((Multiset.le_add_left _ _).trans (Multiset.le_add_right _ _))
    exact Pagetable.own_lt part
  refine ⟨?_, ⟨_, shaped.trapframe, rfl, rfl⟩, ⟨_, shaped.trampoline, rfl, rfl⟩⟩
  intro v
  rw [pgRoundUp_eq small, Nat.mul_lt_mul_right (by decide)]
  constructor
  · intro mapped
    by_contra outside
    push Not at outside
    exact mapped (shaped.other v outside.1 outside.2.1 outside.2.2)
  rintro (user | rfl | rfl)
  · obtain ⟨pte, look, -⟩ := shaped.user v user
    rw [look]
    nofun
  · rw [shaped.trapframe]
    nofun
  rw [shaped.trampoline]
  nofun

def sixteenPages : List Nat := (List.range 16).map fun i => 0x87000000 + i * 4096

def smallLayout : Layout := ⟨0x80022000, 0x80007000⟩

theorem userinit_shaped {pages pool : List Nat} {m : Mem} (nodup : pages.Nodup)
    (frames : ∀ page ∈ pages, smallLayout.Frame page)
    (ran : (userinit smallLayout).run pages = some (some m, pool)) :
    m.Shaped smallLayout ∧ Valid smallLayout.Frame (↑pool + m.pages) := by
  have valid : Valid smallLayout.Frame (↑pages + 0) := by
    rw [add_zero]
    exact ⟨nodup, frames⟩
  have runs : Runs smallLayout.Frame (userinit smallLayout)
      (fun r held => ∀ m, r = some m → m.Shaped smallLayout ∧ held = m.pages + 0) 0 :=
    runs_userinit (fun _ => nofun) fun m shaped m' eq => by
      cases eq
      exact ⟨shaped, rfl⟩
  obtain ⟨held, ends, total⟩ := (runs.wp (valid.of_le (Multiset.zero_le _))).run valid ran
  obtain ⟨shaped, rfl⟩ := ends m rfl
  rw [add_zero] at total
  exact ⟨shaped, total ▸ valid⟩

local instance two : NeZero 2 := ⟨by decide⟩

/-- The first process forks. -/
def forkOnce : List (Action (Fin 2)) :=
  [.fork 0 1, .run 0 false, .run 0 false, .run 0 false, .run 0 false, .run 0 false, .run 0 false, .run 0 false,
    .run 0 false]

theorem forkOnce_shape : ∃ s : Sys (Fin 2), Sys.Runs smallLayout 0 sixteenPages s ∧
    ∃ m, s.slot 1 = .user m ∧ m.sz = 4096 ∧ m.pagetable.look 0 ≠ none ∧
      m.pagetable.look 1 = none := by
  have played : ((Sys.boot smallLayout 0 sixteenPages).bind fun s : Sys (Fin 2) => s.play smallLayout forkOnce).any
      (fun s => match s.slot 1 with
        | .user m => m.sz == 4096
        | _ => false) = true := by
    decide +kernel
  obtain ⟨s, run, check⟩ := Sys.Runs.of_play played
  have frames : ∀ page ∈ sixteenPages, smallLayout.Frame page := by decide
  obtain ⟨shape, -⟩ := addressSpace_shape (by decide) frames run
  split at check
  · rename_i m at'
    have size : m.sz = 4096 := by simpa using check
    obtain ⟨mapped, -, -⟩ := shape 1 m (Or.inl at')
    refine ⟨s, run, m, at', size, ?_, ?_⟩
    · rw [mapped, size]
      exact Or.inl (by decide)
    by_contra other
    rw [← ne_eq, mapped, size] at other
    exact absurd other (by decide)
  cases check

end Xv6.Vm
