import Xv6.Virtio.Safe

/-!
# Runs of the disk driver

What every step of the threads and of the device keeps, and from it what holds in
every run: who has the descriptors, which slots of the rings are in use, and which
requests have been handled.
-/

namespace Xv6.Virtio

open Function (update_of_ne update_self)

section Steps

variable {P Buf : Type} [DecidableEq P] [DecidableEq Buf] {s t : Sys P Buf} {x : P} {p : Pc Buf}

omit [DecidableEq P] [DecidableEq Buf] in
theorem inv_start (blockno : Buf → Nat) : Inv (Sys.start blockno : Sys P Buf) := by
  refine ⟨⟨nofun, nofun, nofun, nofun, nofun, fun {i} low used => ?_⟩,
    ⟨nofun, nofun, nofun, nofun, nofun, nofun⟩,
    ⟨rfl, rfl, rfl, rfl, le_refl _, le_refl _, List.Perm.refl _, ?_, nofun, nofun, nofun⟩⟩
  · have free : decide (i < NUM) = false := used
    rw [decide_eq_true low] at free
    cases free
  rintro j (mem | mem) <;> cases mem

/-- One step of a thread. -/
theorem Inv.run (inv : Inv s) (step : s.run x = some (.ok t)) : Inv t := by
  rcases at_ : s.pc x with - | ⟨b, write⟩ | ⟨b, write⟩ | ⟨b, write, c⟩ | ⟨b, c⟩ | ⟨b, c, no⟩ | ⟨b,
    c, no⟩ | ⟨b, c, no⟩ |
    - | - | - | -
  case alloc => exact inv.alloc at_ step
  case fill => exact inv.fill at_ step
  case publish => exact inv.publish at_ step
  case finish => exact inv.finish at_ step
  case intrBody => exact inv.handle at_ step
  case idle =>
    simp only [Sys.run, at_] at step
    cases step
  case enter | waiting | intrEnter =>
    simp only [Sys.run, at_] at step
    refine inv.acquire ?_ ?_ ?_ ?_ rfl step <;> rw [at_] <;> rfl
  case leave =>
    simp only [Sys.run, at_] at step
    refine inv.release ?_ (.inr rfl) ?_ ?_ ?_ rfl rfl step <;> rw [at_] <;> rfl
  case wait =>
    simp only [Sys.run, at_] at step
    have request : (s.pc x).request = some (no, c, b) := by rw [at_]; rfl
    split at step
    · refine inv.release ?_ (.inl ?_) ?_ ?_ ?_ rfl rfl step <;> rw [at_] <;> rfl
    rename_i idle
    cases step
    refine inv.stay ?_ ?_ ?_ ?_ ?_ (by simp) (fun b' c' n eq => ?_) (by simp)
    case refine_6 =>
      cases eq
      by_contra unhandled
      exact idle ((inv.calls.number request).2.mpr unhandled)
    all_goals
      rw [at_]
      rfl
  case intrLoop =>
    simp only [Sys.run, at_] at step
    cases step
    have more : s.disk.usedIdx ≠ s.disk.used.idx → s.hist.handled < s.hist.posted.length := by
      intro ne
      rcases Nat.lt_or_eq_of_le inv.flow.handledLe with lt | eq
      · exact lt
      rw [inv.flow.looked, inv.flow.usedIdx, eq] at ne
      exact absurd rfl ne
    split
    · refine inv.stay ?_ ?_ ?_ ?_ ?_ (by simp) (by simp) (by simp) <;> rw [at_] <;> rfl
    rename_i ne
    refine inv.stay ?_ ?_ ?_ ?_ ?_ (by simp) (by simp) (fun _ => more ne) <;> rw [at_] <;> rfl

theorem Sys.run_pc (step : s.run x = some (.ok t)) :
    t.owner = s.owner ∧ ∃ p, t.pc = Function.update s.pc x p ∧
      (p.buf = (s.pc x).buf ∨ p.buf = none) := by
  unfold Sys.run at step
  split at step
  case h_1 => cases step
  case h_3 at_ | h_6 at_ =>
    split at step <;> cases step
    · exact ⟨rfl, _, rfl, .inl (by rw [at_]; rfl)⟩
    exact ⟨rfl, _, rfl, .inl (by rw [at_]; rfl)⟩
  case h_8 at_ | h_12 at_ =>
    split at step <;> cases step
    exact ⟨rfl, _, rfl, .inr rfl⟩
  case h_11 at_ =>
    cases step
    refine ⟨rfl, _, rfl, .inr ?_⟩
    split <;> rfl
  case h_4 at_ | h_5 at_ | h_9 at_ =>
    cases step
    exact ⟨rfl, _, rfl, .inl (by rw [at_]; rfl)⟩
  case h_2 at_ | h_7 at_ | h_10 at_ =>
    unfold Sys.acquire at step
    split at step <;> cases step
    exact ⟨rfl, _, rfl, .inl (by rw [at_]; rfl)⟩

/-- A call has the lock of its buffer. -/
def Sys.Owned (s : Sys P Buf) : Prop := ∀ x b, (s.pc x).buf = some b → s.owner b = some x

theorem Sys.Owned.step (owned : s.Owned) {a : Action P Buf} (step : s.step a = some (.ok t)) :
    t.Owned := by
  cases a with
  | bget x b =>
    simp only [Sys.step] at step
    split at step
    · rename_i unlocked
      cases step
      intro y b' has
      have other := owned y b' has
      rcases eq_or_ne b' b with rfl | ne
      · rw [unlocked] at other
        cases other
      exact (update_of_ne ne _ _).trans other
    cases step
  | brelse x b =>
    simp only [Sys.step] at step
    split at step
    swap
    · cases step
    rename_i at_
    split at step
    · rename_i mine
      cases step
      intro y b' has
      have other := owned y b' has
      rcases eq_or_ne b' b with rfl | ne
      · rw [mine] at other
        cases other
        rw [at_] at has
        cases has
      exact (update_of_ne ne _ _).trans other
    cases step
  | call x b write =>
    simp only [Sys.step] at step
    split at step
    swap
    · cases step
    split at step
    · rename_i mine
      cases step
      intro y b' has
      change (Function.update s.pc x (.enter b write) y).buf = some b' at has
      rcases eq_or_ne y x with rfl | ne
      · rw [update_self] at has
        cases has
        exact mine
      rw [update_of_ne ne] at has
      exact owned y b' has
    cases step
  | interrupt x =>
    simp only [Sys.step] at step
    split at step
    · cases step
      intro y b has
      change (Function.update s.pc x .intrEnter y).buf = some b at has
      rcases eq_or_ne y x with rfl | ne
      · rw [update_self] at has
        cases has
      rw [update_of_ne ne] at has
      exact owned y b has
    cases step
  | run x =>
    obtain ⟨owner, p, pc, buf⟩ := Sys.run_pc step
    intro y b has
    rw [owner]
    rw [pc] at has
    rcases eq_or_ne y x with rfl | ne
    · rw [update_self] at has
      rcases buf with buf | none
      · exact owned y b (buf ▸ has)
      rw [none] at has
      cases has
    rw [update_of_ne ne] at has
    exact owned y b has
  | fetch | complete j | post j =>
    simp only [Sys.step] at step
    split at step <;> cases step
    exact owned

/-- A step keeps the invariant. -/
theorem Inv.step (inv : Inv s) (owned : s.Owned) {a : Action P Buf}
    (step : s.step a = some (.ok t)) : Inv t := by
  cases a with
  | bget x b =>
    simp only [Sys.step] at step
    split at step <;> cases step
    exact ⟨inv.hold, inv.calls, inv.flow⟩
  | brelse x b =>
    simp only [Sys.step] at step
    split at step
    · split at step <;> cases step
      exact ⟨inv.hold, inv.calls, inv.flow⟩
    cases step
  | call x b write =>
    simp only [Sys.step] at step
    split at step
    swap
    · cases step
    rename_i at_
    split at step
    · rename_i mine
      cases step
      refine Inv.move inv (fun b' eq y other => ?_) ?_ ?_ ?_ rfl (by intros; contradiction) fun y _ inside => inv.hold.holder inside
      · -- the caller has the lock of the buffer, and so would the other call
        cases eq
        exact Option.some.inj ((owned y b other).symm.trans mine)
      all_goals
        rw [at_]
        rfl
    cases step
  | interrupt x =>
    simp only [Sys.step] at step
    split at step
    · rename_i at_
      cases step
      refine Inv.move inv (by intros; contradiction) ?_ ?_ ?_ rfl (by intros; contradiction) fun y _ inside => inv.hold.holder inside
      all_goals
        rw [at_]
        rfl
    cases step
  | run x => exact inv.run step
  | fetch => exact inv.fetch step
  | complete j => exact inv.complete step
  | post j => exact inv.post step

/-- Every run keeps the invariant. -/
theorem Sys.Reachable.inv {blockno : Buf → Nat} (run : Sys.Reachable blockno s) :
    s.Owned ∧ Inv s := by
  induction run with
  | start => exact ⟨nofun, inv_start blockno⟩
  | step _ step ih => exact ⟨ih.1.step step, ih.2.step ih.1 step⟩

theorem Inv.no_fault (inv : Inv s) (a : Action P Buf) (e : Fault) : s.step a ≠ some (.error e) := by
  intro step
  cases a with
  | bget x b | interrupt x | fetch | complete j | post j =>
    simp only [Sys.step] at step
    split at step <;> cases step
  | brelse x b | call x b write =>
    simp only [Sys.step] at step
    split at step
    · split at step <;> cases step
    cases step
  | run x =>
    change s.run x = some (.error e) at step
    rcases at_ : s.pc x with - | ⟨b, write⟩ | ⟨b, write⟩ | ⟨b, write, c⟩ | ⟨b, c⟩ | ⟨b, c,
      no⟩ | ⟨b, c, no⟩ |
      ⟨b, c, no⟩ | - | - | - | -
    case alloc =>
      obtain ⟨r, d, run, -⟩ := alloc3Desc_spec s.disk
      simp only [Sys.run, at_, run] at step
      rcases r with - | c <;> cases step
    case finish =>
      have has : (s.pc x).chain = some c := by rw [at_]; rfl
      obtain ⟨d, run, -⟩ := finish_spec (inv.calls.made (by rw [at_]; rfl))
        (inv.hold.ok has) fun i => inv.hold.taken has
      simp only [Sys.run, at_, run] at step
      cases step
    case intrBody =>
      obtain ⟨n, z, c, b, -, -, -, -, ring, status, owner⟩ := inv.entry (inv.calls.loop at_)
      have run : ∃ d, s.disk.handle = .ok d := by
        unfold Disk.handle
        simp only [ring, status, owner, ne_eq, not_true_eq_false, if_false]
        exact ⟨_, rfl⟩
      obtain ⟨d, run⟩ := run
      simp only [Sys.run, at_, run] at step
      cases step
    all_goals
      simp only [Sys.run, at_, Sys.acquire, Sys.release] at step
      first
        | cases step
        | (split at step <;> cases step)

end Steps

/-- In every run of the driver and a device that completes each chain once:

the descriptors that are not free are those of the chains of the requests in progress, three to
each and each in one of them;

what was put into the `avail` ring stays there until the device takes it, and the slot that is
written next is none of these;

`virtio_disk_intr` handles the entries of the `used` ring one after the other, each once, up to
the last one that is there, also when the 16-bit indices wrap;

when it handles an entry, that is the head of a request in progress with status 0, and `info` has
the buffer of the request;

a request has been handled when `virtio_disk_rw` leaves its loop;

nothing panics. -/
theorem disk_requests_served {P Buf : Type} [DecidableEq P] [DecidableEq Buf]
    {blockno : Buf → Nat} {s : Sys P Buf} (run : Sys.Reachable blockno s) :
    ((∀ x c, (s.pc x).chain = some c → c.list.Nodup ∧ ∀ i ∈ c.list, i < NUM ∧
      s.disk.free i = false) ∧
      (∀ x y c c', (s.pc x).chain = some c → (s.pc y).chain = some c' → x ≠ y →
        ∀ i ∈ c.list, i ∉ c'.list) ∧
      (∀ i < NUM, s.disk.free i = false → ∃ x c, (s.pc x).chain = some c ∧ i ∈ c.list)) ∧
    ((∀ k o, s.hist.fetched ≤ k → s.hist.offers[k]? = some o →
      s.disk.avail.ring (k % NUM) = o.chain.i0) ∧
      (∀ x b write c, s.pc x = .fill b write c → ∀ k, s.hist.fetched ≤ k →
        k < s.hist.offers.length →
        k % NUM ≠ s.disk.avail.idx % NUM)) ∧
    (s.hist.posted.Nodup ∧ (∀ k n, s.hist.handled ≤ k → s.hist.posted[k]? = some n →
        ∃ o, s.hist.offers[n]? = some o ∧ s.disk.used.ring (k % NUM) = o.chain.i0) ∧
      (∀ x, s.pc x = .intrLoop → (s.disk.usedIdx = s.disk.used.idx ↔
        s.hist.handled = s.hist.posted.length))) ∧
    (∀ x, s.pc x = .intrBody → ∃ n y c b, s.hist.posted[s.hist.handled]? = some n ∧
      (s.pc y).request = some (n, c, b) ∧ s.disk.used.ring (s.disk.usedIdx % NUM) = c.i0 ∧
      (s.disk.info c.i0).status = 0 ∧ (s.disk.info c.i0).b = some b) ∧
    (∀ x b c n, s.pc x = .finish b c n → s.hist.offers[n]? = some ⟨c, b⟩ ∧
      n ∈ s.hist.posted.take s.hist.handled) ∧
    ∀ a e, s.step a ≠ some (.error e) := by
  obtain ⟨-, inv⟩ := run.inv
  have few := backlog inv.hold inv.calls
  have posted := inv.flow.posted_le
  have fetched := inv.flow.fetchedLe
  have handled := inv.flow.handledLe
  refine ⟨⟨fun x c has => ⟨(inv.hold.ok has).nodup, fun i mem => ⟨(inv.hold.ok has).low i mem,
    inv.hold.taken has mem⟩⟩,
    fun x y c c' has has' ne i mem mem' => ne (inv.hold.apart has has' mem mem'), fun i low used => inv.hold.cover low used⟩,
    ⟨fun k o => inv.flow.availRing, ?_⟩, ⟨(List.nodup_append.mp inv.flow.nodup).1, fun k n => inv.flow.usedRing, ?_⟩, ?_, ?_,
    inv.no_fault⟩
  · intro x b write c _ k unread low
    rw [inv.flow.availIdx]
    simp only [NUM]
    omega
  · intro x _
    rw [inv.flow.looked, inv.flow.usedIdx]
    omega
  · intro x at_
    obtain ⟨n, y, c, b, next, -, request, -, ring, status, owner⟩ := inv.entry (inv.calls.loop at_)
    exact ⟨n, y, c, b, next, request, ring, status, owner⟩
  intro x b c n at_
  exact ⟨(inv.calls.number (by rw [at_]; rfl)).1, inv.calls.done at_⟩

/-! ## A run -/

section Play

variable {P Buf : Type} [DecidableEq P] [DecidableEq Buf]

def Sys.play (s : Sys P Buf) : List (Action P Buf) → Option (Sys P Buf)
  | [] => some s
  | a :: rest =>
    match s.step a with
    | some (.ok t) => t.play rest
    | _ => none

theorem Sys.Reachable.play {blockno : Buf → Nat} {s t : Sys P Buf} (run : Sys.Reachable blockno s)
    {actions : List (Action P Buf)} (played : s.play actions = some t) :
    Sys.Reachable blockno t := by
  induction actions generalizing s with
  | nil =>
    cases played
    exact run
  | cons a rest ih =>
    simp only [Sys.play] at played
    split at played
    · rename_i u step
      exact ih (run.step step) played
    cases played

end Play

/-- One read, up to the entry in the `used` ring that the interrupt finds. -/
def oneRead : List (Action Nat Nat) :=
  [.bget 0 5, .call 0 5 false, .run 0, .run 0, .run 0, .run 0, .run 0, .fetch, .complete ⟨0, 0⟩, .post ⟨0, 0⟩,
    .interrupt 1, .run 1, .run 1]

theorem oneRead_served :
    ∃ s : Sys Nat Nat, Sys.Reachable id s ∧ s.pc 1 = .intrBody ∧ (s.disk.info 0).b = some 5 ∧
    ∀ a e, s.step a ≠ some (.error e) := by
  obtain ⟨s, played⟩ : ∃ s, (Sys.start id : Sys Nat Nat).play oneRead = some s := ⟨_, rfl⟩
  have run := Sys.Reachable.start.play played
  refine ⟨s, run, ?_, ?_, (disk_requests_served run).2.2.2.2.2⟩
  · cases played
    rfl
  cases played
  rfl

end Xv6.Virtio
