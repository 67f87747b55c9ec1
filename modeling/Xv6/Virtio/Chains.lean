import Xv6.Virtio

/-!
# Descriptors

What `alloc3_desc` and `free_chain` do to the descriptors, and who has them: every descriptor that
is not free is in the chain of one thread.
-/

namespace Xv6.Virtio

open List (mem_cons not_mem_nil)
open Function renaming update → upd, update_self → upd_self, update_of_ne → upd_ne,
  update_idem → upd_idem, update_eq_self → upd_eq_self

set_option linter.unusedSectionVars false

/-- Three descriptors. -/
structure Chain.Ok (c : Chain) : Prop where
  nodup : c.list.Nodup
  low : ∀ i ∈ c.list, i < NUM

theorem Chain.i0_mem (c : Chain) : c.i0 ∈ c.list := by simp [Chain.list]

theorem Chain.i1_mem (c : Chain) : c.i1 ∈ c.list := by simp [Chain.list]

theorem Chain.i2_mem (c : Chain) : c.i2 ∈ c.list := by simp [Chain.list]

section Disk

variable {Buf : Type} {d d' : Disk Buf} {c : Chain} {b : Buf} {i : Nat}

/-- The descriptors are linked, the last one points to the status of the first, and `info` has the
buffer. -/
structure Formatted (d : Disk Buf) (c : Chain) (b : Buf) : Prop where
  first : (d.desc c.i0).flags &&& VRING_DESC_F_NEXT ≠ 0 ∧ (d.desc c.i0).next = c.i1
  second : (d.desc c.i1).flags &&& VRING_DESC_F_NEXT ≠ 0 ∧ (d.desc c.i1).next = c.i2
  third : (d.desc c.i2).flags &&& VRING_DESC_F_NEXT = 0 ∧ (d.desc c.i2).addr = .status c.i0
  owner : (d.info c.i0).b = some b

theorem Formatted.congr (made : Formatted d c b) (desc : ∀ i ∈ c.list, d'.desc i = d.desc i)
    (info : (d'.info c.i0).b = (d.info c.i0).b) : Formatted d' c b where
  first := by
    rw [desc _ c.i0_mem]
    exact made.first
  second := by
    rw [desc _ c.i1_mem]
    exact made.second
  third := by
    rw [desc _ c.i2_mem]
    exact made.third
  owner := info.trans made.owner

theorem format_formatted [DecidableEq Buf] (ok : c.Ok) (write : Bool) :
    Formatted (d.format b write c) c b := by
  have distinct := ok.nodup
  simp only [Chain.list, List.nodup_cons, mem_cons, not_mem_nil, or_false, not_or] at distinct
  obtain ⟨⟨ne01, ne02⟩, ne12, -⟩ := distinct
  refine ⟨?_, ?_, ?_, ?_⟩ <;> simp only [Disk.format]
  · rw [upd_ne ne02, upd_ne ne01, upd_self]
    exact ⟨show VRING_DESC_F_NEXT &&& VRING_DESC_F_NEXT ≠ 0 by decide, rfl⟩
  · rw [upd_ne ne12, upd_self]
    have linked : ((if write then 0 else VRING_DESC_F_WRITE) ||| VRING_DESC_F_NEXT) &&& VRING_DESC_F_NEXT ≠ 0 := by
      cases write <;> decide
    exact ⟨linked, rfl⟩
  · rw [upd_self]
    exact ⟨show VRING_DESC_F_WRITE &&& VRING_DESC_F_NEXT = 0 by decide, rfl⟩
  rw [upd_self]

theorem Formatted.format [DecidableEq Buf] {c' : Chain} {b' : Buf} {write : Bool}
    (made : Formatted d c' b') (apart : ∀ i ∈ c'.list, i ∉ c.list) :
    Formatted (d.format b write c) c' b' := by
  refine made.congr (fun i mem => ?_) ?_
  · have far := apart i mem
    simp only [Chain.list, mem_cons, not_mem_nil, or_false, not_or] at far
    simp only [Disk.format]
    rw [upd_ne far.2.2, upd_ne far.2.1, upd_ne far.1]
  have far : c'.i0 ≠ c.i0 := fun same => apart _ c'.i0_mem (same ▸ c.i0_mem)
  simp only [Disk.format]
  rw [upd_ne far]

/-! ## Allocation -/

theorem allocDesc_some (taken : d.allocDesc = some (i, d')) :
    i < NUM ∧ d.free i = true ∧ d' = { d with free := upd d.free i false } := by
  obtain ⟨j, found, eq⟩ := Option.map_eq_some_iff.mp taken
  cases eq
  have mem := List.mem_of_find?_eq_some found
  have hit := List.find?_some found
  exact ⟨List.mem_range.mp mem, hit, rfl⟩

/-- Descriptor `i` given back. -/
def Disk.freed (d : Disk Buf) (i : Nat) : Disk Buf :=
  { d with
    desc := upd d.desc i ⟨.null, 0, 0, 0⟩
    free := upd d.free i true }

theorem freeDesc_eq (low : i < NUM) (taken : d.free i = false) :
    d.freeDesc i = .ok (d.freed i) := by
  unfold Disk.freeDesc
  rw [if_neg (Nat.not_le.mpr low), if_neg (by rw [taken]; decide)]
  rfl

/-- A change to the descriptors that are free, and to which are. -/
structure Quiet (d d' : Disk Buf) : Prop where
  avail : d'.avail = d.avail
  used : d'.used = d.used
  usedIdx : d'.usedIdx = d.usedIdx
  info : d'.info = d.info
  busy : d'.busy = d.busy
  desc : ∀ i, d.free i = false → d'.desc i = d.desc i

theorem alloc3Desc_spec (d : Disk Buf) : ∃ r d', d.alloc3Desc = .ok (r, d') ∧ Quiet d d' ∧
    match r with
    | none => d'.free = d.free
    | some c => c.Ok ∧ (∀ i ∈ c.list, d.free i = true) ∧ ∀ i, d'.free i = if i ∈ c.list then false else d.free i := by
  unfold Disk.alloc3Desc
  rcases first : d.allocDesc with - | ⟨i0, d0⟩
  · exact ⟨none, d, rfl, ⟨rfl, rfl, rfl, rfl, rfl, fun _ _ => rfl⟩, rfl⟩
  obtain ⟨low0, free0, rfl⟩ := allocDesc_some first
  dsimp only
  rcases second : Disk.allocDesc { d with free := upd d.free i0 false } with - | ⟨i1, d1⟩
  · have back := freeDesc_eq (d := { d with free := upd d.free i0 false }) low0 (upd_self ..)
    refine ⟨none, Disk.freed { d with free := upd d.free i0 false } i0, by dsimp only; rw [back]; rfl,
      ⟨rfl, rfl, rfl, rfl, rfl, fun i taken => ?_⟩, ?_⟩
    · refine upd_ne (fun eq => ?_) _ _
      rw [eq, free0] at taken
      cases taken
    show upd (upd d.free i0 false) i0 true = d.free
    rw [upd_idem, ← free0, upd_eq_self]
  obtain ⟨low1, free1, rfl⟩ := allocDesc_some second
  dsimp only at free1 ⊢
  have ne : i1 ≠ i0 := by
    rintro rfl
    rw [upd_self] at free1
    cases free1
  rw [upd_ne ne] at free1
  rcases third : Disk.allocDesc { d with free := upd (upd d.free i0 false) i1 false } with
    - | ⟨i2, d2⟩
  · have back0 := freeDesc_eq (d := { d with free := upd (upd d.free i0 false) i1 false }) low0
      (by dsimp only; rw [upd_ne ne.symm, upd_self])
    have back1 := freeDesc_eq (d := Disk.freed { d with free := upd (upd d.free i0 false) i1 false } i0)
      low1 (by
        show upd (upd (upd d.free i0 false) i1 false) i0 true i1 = false
        rw [upd_ne ne, upd_self])
    refine ⟨none, (Disk.freed { d with free := upd (upd d.free i0 false) i1 false } i0).freed i1,
      by dsimp only; rw [back0]; dsimp only [bind, Except.bind]; rw [back1]; rfl,
      ⟨rfl, rfl, rfl, rfl, rfl, fun i taken => ?_⟩, ?_⟩
    · show upd (upd d.desc i0 _) i1 _ i = d.desc i
      rw [upd_ne, upd_ne]
      · rintro rfl
        rw [free0] at taken
        cases taken
      rintro rfl
      rw [free1] at taken
      cases taken
    show upd (upd (upd (upd d.free i0 false) i1 false) i0 true) i1 true = d.free
    funext i
    by_cases eq1 : i = i1
    · rw [eq1, upd_self, free1]
    rw [upd_ne eq1]
    by_cases eq0 : i = i0
    · rw [eq0, upd_self, free0]
    rw [upd_ne eq0, upd_ne eq1, upd_ne eq0]
  obtain ⟨low2, free2, rfl⟩ := allocDesc_some third
  dsimp only at free2 ⊢
  have ne1 : i2 ≠ i1 := by
    rintro rfl
    rw [upd_self] at free2
    cases free2
  rw [upd_ne ne1] at free2
  have ne0 : i2 ≠ i0 := by
    rintro rfl
    rw [upd_self] at free2
    cases free2
  rw [upd_ne ne0] at free2
  refine ⟨some ⟨i0, i1, i2⟩, _, rfl, ⟨rfl, rfl, rfl, rfl, rfl, fun _ _ => rfl⟩, ⟨?_, ?_⟩, ?_,
    fun i => ?_⟩
  · simp [Chain.list, ne.symm, ne0.symm, ne1.symm]
  · simp [Chain.list, low0, low1, low2]
  · simp [Chain.list, free0, free1, free2]
  simp only [Chain.list, mem_cons, not_mem_nil, or_false, Function.update_apply]
  by_cases eq0 : i = i0
  · simp [eq0]
  by_cases eq1 : i = i1
  · simp [eq1]
  by_cases eq2 : i = i2 <;> simp [eq0, eq1, eq2]

/-! ## Freeing -/

theorem freeChain_succ (fuel : Nat) (low : i < NUM) (taken : d.free i = false) :
    Disk.freeChain (fuel + 1) d i = if (d.desc i).flags &&& VRING_DESC_F_NEXT ≠ 0 then
      Disk.freeChain fuel (d.freed i) (d.desc i).next else .ok (d.freed i) := by
  rw [Disk.freeChain, freeDesc_eq low taken]
  rfl

theorem finish_spec (made : Formatted d c b) (ok : c.Ok) (taken : ∀ i ∈ c.list, d.free i = false) :
    ∃ d', d.finish c = .ok d' ∧ d'.avail = d.avail ∧ d'.used = d.used ∧ d'.usedIdx = d.usedIdx ∧
      d'.busy = d.busy ∧
      (∀ i, i ∉ c.list → d'.desc i = d.desc i) ∧
        (∀ i, d'.free i = if i ∈ c.list then true else d.free i) ∧
      (∀ i, (d'.info i).status = (d.info i).status) ∧ ∀ i, i ≠ c.i0 →
        (d'.info i).b = (d.info i).b := by
  obtain ⟨e, unlinked⟩ : ∃ e : Disk Buf, e = { d with
    info := upd d.info c.i0 { d.info c.i0 with b := none } } := ⟨_, rfl⟩
  have desc : e.desc = d.desc := by rw [unlinked]
  have free : e.free = d.free := by rw [unlinked]
  have distinct := ok.nodup
  simp only [Chain.list, List.nodup_cons, mem_cons, not_mem_nil, or_false, not_or] at distinct
  obtain ⟨⟨ne01, ne02⟩, ne12, -⟩ := distinct
  have run : d.finish c = .ok (((e.freed c.i0).freed c.i1).freed c.i2) := by
    unfold Disk.finish
    rw [← unlinked, freeChain_succ _ (ok.low _ c.i0_mem) (by rw [free]; exact taken _ c.i0_mem),
      desc,
      if_pos made.first.1, made.first.2]
    have desc1 : (e.freed c.i0).desc c.i1 = d.desc c.i1 := by
      show upd e.desc c.i0 _ c.i1 = _
      rw [upd_ne (Ne.symm ne01), desc]
    have free1 : (e.freed c.i0).free c.i1 = false := by
      show upd e.free c.i0 true c.i1 = false
      rw [upd_ne (Ne.symm ne01), free]
      exact taken _ c.i1_mem
    rw [freeChain_succ _ (ok.low _ c.i1_mem) free1, desc1, if_pos made.second.1, made.second.2]
    have desc2 : ((e.freed c.i0).freed c.i1).desc c.i2 = d.desc c.i2 := by
      show upd (upd e.desc c.i0 _) c.i1 _ c.i2 = _
      rw [upd_ne (Ne.symm ne12), upd_ne (Ne.symm ne02), desc]
    have free2 : ((e.freed c.i0).freed c.i1).free c.i2 = false := by
      show upd (upd e.free c.i0 true) c.i1 true c.i2 = false
      rw [upd_ne (Ne.symm ne12), upd_ne (Ne.symm ne02), free]
      exact taken _ c.i2_mem
    rw [freeChain_succ _ (ok.low _ c.i2_mem) free2, desc2, if_neg (not_not.mpr made.third.1)]
  refine ⟨_, run, by rw [unlinked]; rfl, by rw [unlinked]; rfl, by rw [unlinked]; rfl, by rw [unlinked]; rfl, fun i out => ?_,
    fun i => ?_, fun i => ?_, fun i ne => ?_⟩
  · simp only [Chain.list, mem_cons, not_mem_nil, or_false, not_or] at out
    show upd (upd (upd e.desc c.i0 _) c.i1 _) c.i2 _ i = _
    rw [upd_ne out.2.2, upd_ne out.2.1, upd_ne out.1, desc]
  · show upd (upd (upd e.free c.i0 true) c.i1 true) c.i2 true i = _
    simp only [Chain.list, mem_cons, not_mem_nil, or_false, Function.update_apply, free]
    by_cases eq0 : i = c.i0
    · simp [eq0]
    by_cases eq1 : i = c.i1
    · simp [eq1]
    by_cases eq2 : i = c.i2 <;> simp [eq0, eq1, eq2]
  · show (e.info i).status = _
    rw [unlinked]
    dsimp only
    by_cases eq : i = c.i0
    · rw [eq, upd_self]
    rw [upd_ne eq]
  show (e.info i).b = _
  rw [unlinked]
  dsimp only
  rw [upd_ne ne]

end Disk

/-! ## Who has which descriptors -/

section Holding

variable {P Buf : Type} [DecidableEq P] {lock lock' : Option P} {pc : P → Pc Buf} {free free' : Nat → Bool} {x : P}
  {p : Pc Buf} {c : Chain}

/-- One thread at a time has the lock, no two threads have the same buffer, and the descriptors
that are not free are those of the chains of the requests in progress, each in one of them. -/
structure Holding (lock : Option P) (pc : P → Pc Buf) (free : Nat → Bool) : Prop where
  holder : ∀ {x}, (pc x).inside = true → lock = some x
  bufs : ∀ {x y b}, (pc x).buf = some b → (pc y).buf = some b → x = y
  ok : ∀ {x c}, (pc x).chain = some c → c.Ok
  taken : ∀ {x c i}, (pc x).chain = some c → i ∈ c.list → free i = false
  apart : ∀ {x y c c' i}, (pc x).chain = some c → (pc y).chain = some c' → i ∈ c.list →
    i ∈ c'.list → x = y
  cover : ∀ {i}, i < NUM → free i = false → ∃ x c, (pc x).chain = some c ∧ i ∈ c.list

section

variable (hold : Holding lock pc free)
include hold

theorem Holding.alone {y : P} (one : (pc x).inside = true) (two : (pc y).inside = true) :
    y = x := by
  have eq := (hold.holder one).symm.trans (hold.holder two)
  exact (Option.some.inj eq).symm

theorem Holding.move (buf : ∀ b, p.buf = some b → ∀ y, (pc y).buf = some b → y = x)
    (chain : p.chain = (pc x).chain) (self : p.inside = true → lock' = some x)
    (others : ∀ y, y ≠ x → (pc y).inside = true → lock' = some y) :
    Holding lock' (upd pc x p) free := by
  have chains : ∀ y, (upd pc x p y).chain = (pc y).chain := by
    intro y
    by_cases eq : y = x
    · rw [eq, upd_self, chain]
    rw [upd_ne eq]
  refine ⟨?_, ?_, ?_, ?_, ?_, ?_⟩
  · intro y inside
    by_cases eq : y = x
    · rw [eq, upd_self] at inside
      rw [eq]
      exact self inside
    rw [upd_ne eq] at inside
    exact others y eq inside
  · intro y z b first second
    by_cases eqY : y = x
    · by_cases eqZ : z = x
      · rw [eqY, eqZ]
      rw [eqY, upd_self] at first
      rw [upd_ne eqZ] at second
      exact absurd (buf b first z second) eqZ
    rw [upd_ne eqY] at first
    by_cases eqZ : z = x
    · rw [eqZ, upd_self] at second
      exact absurd (buf b second y first) eqY
    rw [upd_ne eqZ] at second
    exact hold.bufs first second
  · intro y c has
    rw [chains] at has
    exact hold.ok has
  · intro y c i has
    rw [chains] at has
    exact hold.taken has
  · intro y z c c' i first second
    rw [chains] at first second
    exact hold.apart first second
  intro i low used
  obtain ⟨y, c, has, mem⟩ := hold.cover low used
  exact ⟨y, c, (chains y).trans has, mem⟩

theorem Holding.take (none : (pc x).chain = none) (chain : p.chain = some c)
    (buf : p.buf = (pc x).buf) (was : (pc x).inside = true) (ok : c.Ok)
    (unused : ∀ i ∈ c.list, free i = true)
    (now : ∀ i, free' i = if i ∈ c.list then false else free i) :
    Holding lock (upd pc x p) free' := by
  have other : ∀ {y c'}, (upd pc x p y).chain = some c' → y ≠ x → (pc y).chain = some c' := by
    intro y c' has ne
    rwa [upd_ne ne] at has
  have mine : ∀ {c'}, (upd pc x p x).chain = some c' → c' = c := by
    intro c' has
    rw [upd_self, chain] at has
    exact (Option.some.inj has).symm
  have bufs : ∀ y, (upd pc x p y).buf = (pc y).buf := by
    intro y
    by_cases eq : y = x
    · rw [eq, upd_self, buf]
    rw [upd_ne eq]
  refine ⟨?_, ?_, ?_, ?_, ?_, ?_⟩
  · intro y inside
    by_cases eq : y = x
    · rw [eq]
      exact hold.holder was
    rw [upd_ne eq] at inside
    exact hold.holder inside
  · intro y z b first second
    rw [bufs] at first second
    exact hold.bufs first second
  · intro y c' has
    by_cases eq : y = x
    · subst eq
      rw [mine has]
      exact ok
    exact hold.ok (other has eq)
  · intro y c' i has mem
    rw [now]
    split
    · rfl
    by_cases eq : y = x
    · subst eq
      rw [mine has] at mem
      contradiction
    exact hold.taken (other has eq) mem
  · intro y z c₁ c₂ i first second mem₁ mem₂
    by_cases eqY : y = x
    · by_cases eqZ : z = x
      · rw [eqY, eqZ]
      subst eqY
      rw [mine first] at mem₁
      have used := hold.taken (other second eqZ) mem₂
      rw [unused i mem₁] at used
      cases used
    by_cases eqZ : z = x
    · subst eqZ
      rw [mine second] at mem₂
      have used := hold.taken (other first eqY) mem₁
      rw [unused i mem₂] at used
      cases used
    exact hold.apart (other first eqY) (other second eqZ) mem₁ mem₂
  intro i low used
  rw [now] at used
  split at used
  · rename_i mem
    exact ⟨x, c, by rw [upd_self, chain], mem⟩
  obtain ⟨y, c', has, mem⟩ := hold.cover low used
  have ne : y ≠ x := by
    rintro rfl
    rw [none] at has
    cases has
  exact ⟨y, c', by rw [upd_ne ne]; exact has, mem⟩

theorem Holding.drop (has : (pc x).chain = some c) (chain : p.chain = none) (buf : p.buf = none)
    (was : (pc x).inside = true) (now : ∀ i, free' i = if i ∈ c.list then true else free i) :
    Holding lock (upd pc x p) free' := by
  have other : ∀ {y c'}, (upd pc x p y).chain = some c' → y ≠ x ∧ (pc y).chain = some c' := by
    intro y c' has'
    by_cases eq : y = x
    · rw [eq, upd_self, chain] at has'
      cases has'
    rw [upd_ne eq] at has'
    exact ⟨eq, has'⟩
  have bufs : ∀ {y b}, (upd pc x p y).buf = some b → (pc y).buf = some b := by
    intro y b has'
    by_cases eq : y = x
    · rw [eq, upd_self, buf] at has'
      cases has'
    rwa [upd_ne eq] at has'
  refine ⟨?_, fun first second => hold.bufs (bufs first) (bufs second),
    fun has' => hold.ok (other has').2, ?_,
    fun first second => hold.apart (other first).2 (other second).2, ?_⟩
  · intro y inside
    by_cases eq : y = x
    · rw [eq]
      exact hold.holder was
    rw [upd_ne eq] at inside
    exact hold.holder inside
  · intro y c' i has' mem
    obtain ⟨ne, old⟩ := other has'
    rw [now, if_neg fun both => ne (hold.apart old has mem both)]
    exact hold.taken old mem
  intro i low used
  rw [now] at used
  split at used
  · cases used
  rename_i out
  obtain ⟨y, c', has', mem⟩ := hold.cover low used
  have ne : y ≠ x := by
    rintro rfl
    rw [has] at has'
    cases has'
    exact out mem
  exact ⟨y, c', by rw [upd_ne ne]; exact has', mem⟩

end

end Holding

end Xv6.Virtio
