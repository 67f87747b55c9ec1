import Xv6.Umalloc
import Xv6.Vm.Grow

/-!
# `malloc` and the size of the process

`morecore` passes `nu * sizeof(Header)` to `sbrk`, whose parameter is an `int`, and `growproc` adds it to the
size of the process. Units are counted from `gap` bytes before address 0, so that the memory that `sbrk` adds
begins with a unit.
-/

namespace Xv6.Umalloc

open Xv6.Task (Valid)

/-- `nu * sizeof(Header)` as an `int`. -/
def sbrkArg (nu : Nat) : Int := (BitVec.ofNat 32 (nu * 16)).toInt

/-- A call of `growproc` that returns 0 can take a process from size `sz` to `sz'`. -/
def Grows (sz : Nat) (n : Int) (sz' : Nat) : Prop :=
  ∃ (L : Vm.Layout) (m m' : Vm.Mem) (pool pool' : List Nat), m.Shaped L ∧ Valid L.Frame (↑pool + m.pages) ∧
    m.sz = sz ∧ (Vm.growproc L m n).run pool = some ((m', true), pool') ∧ m'.sz = sz'

/-- A call of `malloc` in a process of size `sz`, which is `sz'` afterwards. -/
structure Call (base gap : Nat) (s : State) (sz nbytes : Nat) (sbrk : Nat → Option Nat) (out : Malloc) (sz' : Nat) :
    Prop where
  returns : Returns (fun rounds => malloc base rounds sbrk s.heap nbytes) out
  addr : ∀ r, sbrk 0 = some r → 16 * r = sz + gap
  size : if out.calls = 0 ∨ sbrk 0 = none then sz' = sz else Grows sz (sbrkArg (coreUnits (nunits nbytes))) sz'

/-- What is asked for does not change when it becomes an `int`. -/
def Fits (nbytes : Nat) : Prop := 16 * coreUnits (nunits nbytes) < 2 ^ 31

/-- The calls of a program, none of which gets more than fits. The heap is above `base`. -/
inductive Session (base gap : Nat) : State → Nat → Prop
  | start (mem : Nat → Header) (sz : Nat)
      (low : 16 * base < sz + gap) : Session base gap ⟨⟨mem, 0⟩, [], []⟩ sz
  | malloc {s : State} {sz sz' nbytes : Nat} {sbrk : Nat → Option Nat} {out : Malloc}
      (session : Session base gap s sz)
      (fits : out.calls ≠ 0 → sbrk 0 ≠ none → Fits nbytes) (call : Call base gap s sz nbytes sbrk out sz') :
      Session base gap ⟨out.heap, allotted (nunits nbytes) out.result ++ s.live,
        regions (nunits nbytes) sbrk out.calls ++ s.obtained⟩ sz'
  | other {s t : State} {sz : Nat} (session : Session base gap s sz) (step : Step base s t)
      (same : t.obtained = s.obtained) : Session base gap t sz

/-- What a successful `growproc` adds: `n`, if it is positive, and never more. -/
theorem Grows.size {sz sz' : Nat} {n : Int} (int : -2 ^ 31 ≤ n ∧ n < 2 ^ 31)
    (grows : Grows sz n sz') :
    (0 < n → (sz' : Int) = sz + n) ∧ sz' ≤ sz + n.toNat := by
  obtain ⟨L, m, m', pool, pool', shaped, valid, rfl, ran, rfl⟩ := grows
  have runs : Task.Runs L.Frame (Vm.growproc L m n)
      (fun r _ => r.2 = true → (0 < n → (r.1.sz : Int) = m.sz + n) ∧ r.1.sz ≤ m.sz + n.toNat) (m.pages + 0) := by
    apply Task.runs_of_valid
    rw [Vm.Mem.pages_add]
    intro valid
    have few : Vm.pgs m.sz < 2 ^ 20 := Vm.Pagetable.above_lt valid
    apply Vm.runs_growproc_above shaped few rfl zero_le
    simp only [Vm.pgs, Vm.PGSIZE] at few
    rintro m' - grown rfl
    rw [grown.size, if_pos rfl]
    split
    · omega
    split <;> omega
  rw [← add_zero m.pages] at valid
  obtain ⟨-, size, -⟩ := (runs.wp (valid.of_le (Multiset.le_add_left _ _))).run valid ran
  exact size rfl

/-- The process grows by what `morecore` records if and only if that fits in an `int`. -/
theorem Grows.exact_iff {sz sz' nu : Nat} (positive : 0 < nu) (grows : Grows sz (sbrkArg nu) sz') :
    sz' = sz + 16 * nu ↔ 16 * nu < 2 ^ 31 := by
  have arg : sbrkArg nu = if 2 * (nu * 16 % 2 ^ 32) < 2 ^ 32 then ((nu * 16 % 2 ^ 32 : Nat) : Int)
      else (nu * 16 % 2 ^ 32 : Nat) - (2 ^ 32 : Nat) := by
    rw [sbrkArg, BitVec.toInt_eq_toNat_cond, BitVec.toNat_ofNat]
  have int : -2 ^ 31 ≤ sbrkArg nu ∧ sbrkArg nu < 2 ^ 31 := by
    rw [arg]
    split <;> omega
  obtain ⟨exact', most⟩ := grows.size int
  constructor
  · intro eq
    omega
  intro small
  have same : sbrkArg nu = 16 * nu := by
    rw [arg]
    split <;> omega
  have sum := exact' (by omega)
  omega

variable {base gap : Nat} {s : State} {sz : Nat}

/-- All that was obtained is memory of the process. -/
structure Inside (base gap : Nat) (s : State) (sz : Nat) : Prop where
  run : Runs base s
  low : 16 * base < sz + gap
  regions : ∀ x ∈ s.obtained, 16 * (x.addr + x.size) ≤ sz + gap

theorem coreUnits_pos (nu : Nat) : 0 < coreUnits nu := by
  rw [coreUnits]
  split <;> omega

section

variable {nbytes sz' : Nat} {sbrk : Nat → Option Nat} {out : Malloc}
  (call : Call base gap s sz nbytes sbrk out sz')
include call

theorem Call.grows_iff (calls : out.calls ≠ 0) (answer : sbrk 0 ≠ none) :
    sz' = sz + 16 * coreUnits (nunits nbytes) ↔ Fits nbytes := by
  have size := call.size
  rw [if_neg (by tauto)] at size
  exact size.exact_iff (coreUnits_pos _)

theorem Call.fresh (inside : Inside base gap s sz) (r : Nat) (answer : sbrk 0 = some r) :
    Fresh base s r := by
  have addr := call.addr r answer
  have low := inside.low
  refine ⟨by omega, fun x member => ?_⟩
  have below := inside.regions x member
  omega

/-- `malloc` calls `sbrk` if no free block is large enough. -/
theorem Call.asks (null : 0 < base) (inside : Inside base gap s sz) {blocks : List Block}
    (free : Inv base s blocks) :
    out.calls ≠ 0 ↔ ∀ x ∈ blocks, x.size < nunits nbytes := by
  obtain ⟨out', blocks', returns, served⟩ := free.malloc_returns null nbytes (call.fresh inside)
  obtain rfl := returns.unique (malloc_mono ..) call.returns
  exact served.asks

theorem Call.inside (fits : out.calls ≠ 0 → sbrk 0 ≠ none → Fits nbytes) (null : 0 < base)
    (inside : Inside base gap s sz) :
    Inside base gap ⟨out.heap, allotted (nunits nbytes) out.result ++ s.live,
      regions (nunits nbytes) sbrk out.calls ++ s.obtained⟩ sz' := by
  have fresh := call.fresh inside
  obtain ⟨blocks, inv⟩ := inside.run.inv null
  obtain ⟨out', blocks', returns, served⟩ := inv.malloc_returns null nbytes fresh
  obtain rfl := returns.unique (malloc_mono ..) call.returns
  have most := served.calls
  have low := inside.low
  by_cases quiet : out'.calls = 0 ∨ sbrk 0 = none
  · have size := call.size
    rw [if_pos quiet] at size
    have none : regions (nunits nbytes) sbrk out'.calls = [] := by
      rcases quiet with zero | failed
      · rw [zero]
        rfl
      interval_cases out'.calls <;> simp [regions, failed]
    refine ⟨.step inside.run (.malloc sbrk nbytes out' fresh call.returns), by omega, ?_⟩
    rw [none, size]
    exact inside.regions
  obtain ⟨calls, answer⟩ := not_or.mp quiet
  have size := (call.grows_iff calls answer).mpr (fits calls answer)
  refine ⟨.step inside.run (.malloc sbrk nbytes out' fresh call.returns), by omega, ?_⟩
  obtain ⟨r, answer⟩ := Option.ne_none_iff_exists'.mp answer
  have addr := call.addr r answer
  have one : regions (nunits nbytes) sbrk out'.calls = [⟨r, coreUnits (nunits nbytes)⟩] := by
    rw [show out'.calls = 1 by omega]
    simp [regions, answer]
  rw [one, List.singleton_append, List.forall_mem_cons]
  refine ⟨by dsimp only; omega, fun x member => ?_⟩
  have below := inside.regions x member
  omega

end

theorem Session.inside (null : 0 < base) (session : Session base gap s sz) :
    Inside base gap s sz := by
  induction session with
  | start mem sz low => exact ⟨.start mem, low, nofun⟩
  | malloc _ fits call ih => exact call.inside fits null ih
  | other _ step same ih => exact ⟨.step ih.run step, ih.low, same ▸ ih.regions⟩

/-- In a program all of whose calls before were given what they asked for: a successful `sbrk`
adds what `morecore` records, and the bytes behind the result of `malloc` are memory of the
process, if and only if the bytes that `morecore` asks for fit in an `int`, a free block is large
enough, or `sbrk` fails. -/
theorem malloc_inside {nbytes sz' : Nat} {sbrk : Nat → Option Nat} {out : Malloc}
    {free : List Block} (null : 0 < base) (session : Session base gap s sz)
    (blocks : Inv base s free) (call : Call base gap s sz nbytes sbrk out sz') :
    ((out.calls ≠ 0 → sbrk 0 ≠ none → sz' = sz + 16 * coreUnits (nunits nbytes)) ∧
      (out.result ≠ 0 → 16 * out.result + nbytes ≤ sz' + gap)) ↔
    ((∀ x ∈ free, x.size < nunits nbytes) → sbrk 0 ≠ none → Fits nbytes) := by
  rw [← call.asks null (session.inside null) blocks]
  refine ⟨fun good calls answer => (call.grows_iff calls answer).mp (good.1 calls answer),
    fun fits => ?_⟩
  refine ⟨fun calls answer => (call.grows_iff calls answer).mpr (fits calls answer), fun some => ?_⟩
  have inside := call.inside fits null (session.inside null)
  obtain ⟨blocks, inv⟩ := inside.run.inv null
  have enough := nunits_enough nbytes
  have positive : 0 < nunits nbytes := Nat.succ_pos _
  -- the last unit of the block was obtained
  have last : 0 < cover (allotted (nunits nbytes) out.result ++ s.live)
      (out.result - 1 + nunits nbytes - 1) := by
    refine cover_pos (x := ⟨out.result - 1,
      nunits nbytes⟩) ?_ ⟨by dsimp only; omega, by dsimp only; omega⟩
    rw [allotted, if_neg some]
    exact List.mem_cons_self
  have covers := inv.covers (out.result - 1 + nunits nbytes - 1)
  dsimp only at covers
  have taken : 0 < cover (regions (nunits nbytes) sbrk out.calls ++ s.obtained)
      (out.result - 1 + nunits nbytes - 1) := by
    omega
  obtain ⟨x, member, has⟩ := List.countP_pos_iff.mp taken
  have below := inside.regions x member
  have upper := (of_decide_eq_true has).2
  omega

def fortyPages : List Nat := (List.range 40).map fun i => 0x87000000 + i * 4096

/-- The first call of a program of one page: `sbrk` adds sixteen pages. -/
theorem firstCall_inside : ∃ out : Malloc,
    Call 1 0 ⟨⟨fun _ => ⟨0, 0⟩, 0⟩, [], []⟩ 4096 40 (fun _ => some 256) out (4096 + 16 * 4096) ∧ out.calls = 1 ∧
    out.result ≠ 0 ∧ 16 * out.result + 40 ≤ 4096 + 16 * 4096 := by
  have called : (malloc 1 10 (fun _ => some 256) ⟨fun _ => ⟨0, 0⟩, 0⟩ 40).any (fun out =>
      out.calls == 1 && out.result != 0) = true := by decide +kernel
  obtain ⟨out, returns, check⟩ := (Option.any_eq_true _ _).1 called
  obtain ⟨calls, result⟩ : out.calls = 1 ∧ out.result ≠ 0 := by simpa using check
  have grown : ((Vm.userinit Vm.smallLayout).run fortyPages).any (fun r => r.1.any fun m => m.sz == 4096 &&
      ((Vm.growproc Vm.smallLayout m 65536).run r.2).any fun g => g.1.2 && g.1.1.sz == 69632) = true := by
    decide +kernel
  obtain ⟨⟨r, pool⟩, ran, check⟩ := (Option.any_eq_true _ _).1 grown
  obtain ⟨m, rfl, check⟩ := (Option.any_eq_true _ _).1 check
  obtain ⟨size, grown⟩ := (Bool.and_eq_true _ _).mp check
  obtain ⟨⟨⟨m', ok⟩, pool'⟩, grows, check⟩ := (Option.any_eq_true _ _).1 grown
  obtain ⟨rfl, size'⟩ := (Bool.and_eq_true _ _).mp check
  obtain ⟨shaped, valid⟩ := Vm.userinit_shaped (by decide) (by decide) ran
  have first : Call 1 0 ⟨⟨fun _ => ⟨0, 0⟩, 0⟩, [], []⟩ 4096 40 (fun _ => some 256) out 69632 := by
    refine ⟨⟨10, returns⟩, fun r eq => by cases eq; rfl, ?_⟩
    rw [if_neg (by simp [calls]), show sbrkArg (coreUnits (nunits 40)) = 65536 by decide]
    exact ⟨_, m, m', pool, pool', shaped, valid, eq_of_beq size, grows, eq_of_beq size'⟩
  have fits : Fits 40 := by
    rw [Fits]
    decide
  have session : Session 1 0 ⟨⟨fun _ => ⟨0, 0⟩, 0⟩, [], []⟩ 4096 := .start _ 4096 (by decide)
  obtain ⟨free, blocks⟩ := (session.inside (by decide)).run.inv (by decide)
  exact ⟨out, first, calls, result,
    ((malloc_inside (by decide) session blocks first).mpr fun _ _ => fits).2 result⟩

/-- For 32 bytes less than 4 GiB `morecore` calls `sbrk(-16)`. It succeeds, the process is smaller
than before, and the bytes behind the result are not its memory. -/
theorem malloc_shrinks : ∃ out : Malloc, 2 ^ 32 - 32 < 2 ^ 32 ∧
    Call 1 0 ⟨⟨fun _ => ⟨0, 0⟩, 0⟩, [], []⟩ 4096 (2 ^ 32 - 32) (fun _ => some 256) out 4080 ∧ out.calls = 1 ∧
    out.result ≠ 0 ∧ ¬ 16 * out.result + (2 ^ 32 - 32) ≤ 4080 := by
  have called : (malloc 1 10 (fun _ => some 256) ⟨fun _ => ⟨0, 0⟩, 0⟩ (2 ^ 32 - 32)).any (fun out =>
      out.calls == 1 && out.result != 0) = true := by decide +kernel
  obtain ⟨out, returns, check⟩ := (Option.any_eq_true _ _).1 called
  obtain ⟨calls, result⟩ : out.calls = 1 ∧ out.result ≠ 0 := by simpa using check
  refine ⟨out, by decide, ⟨⟨10, returns⟩, fun r eq => by cases eq; rfl, ?_⟩, calls,
    result, by omega⟩
  rw [if_neg (by simp [calls]), show sbrkArg (coreUnits (nunits (2 ^ 32 - 32))) = -16 by decide]
  obtain ⟨⟨trapframe, pagetable, sz⟩, pool, shaped, valid, size⟩ := Vm.first_process
  cases size
  refine ⟨_, _, ⟨trapframe, pagetable, 4080⟩, pool, pool, shaped, valid, rfl, ?_, rfl⟩
  have size : (((4096 : Nat) + -16 : Int) % 2 ^ 64).toNat = 4080 := by decide
  have kept : Vm.uvmdealloc Vm.smallLayout pagetable 4096 4080 = pure (pagetable, 4080) := by
    rw [Vm.uvmdealloc, if_neg (by decide), if_neg (by decide)]
  rw [Vm.growproc, if_neg (by decide), if_pos (by decide), size, kept]
  rfl

end Xv6.Umalloc
