import Xv6.Virtio.Chains

/-!
# Requests and completions

`Flow` ties the two rings and their 16-bit indices to the history of requests, and `Filled` says what is known of
each request in progress. There are at most two of them, since each has three of the eight descriptors, so the
indices of a ring never drift apart by more than two and no slot is used again too early.
-/

namespace Xv6.Virtio

open List (mem_append_left length_append length_singleton map_append append_assoc mem_append mem_singleton mem_map_of_mem mem_toFinset)
open Function renaming update → upd, update_self → upd_self, update_of_ne → upd_ne

set_option linter.unusedSectionVars false

/-- The rings hold what is under way between driver and device. -/
structure Flow {Buf : Type} (d : Disk Buf) (v : Device) (h : Hist Buf) : Prop where
  availIdx : d.avail.idx = h.offers.length % 2 ^ 16
  seen : v.seen = h.fetched % 2 ^ 16
  usedIdx : d.used.idx = h.posted.length % 2 ^ 16
  looked : d.usedIdx = h.handled % 2 ^ 16
  fetchedLe : h.fetched ≤ h.offers.length
  handledLe : h.handled ≤ h.posted.length
  perm : (h.posted ++ (v.finished.map Job.no ++ v.pending.map Job.no)).Perm (List.range h.fetched)
  heads : ∀ {j}, j ∈ v.finished ∨ j ∈ v.pending → ∃ o, h.offers[j.no]? = some o ∧
    o.chain.i0 = j.head
  availRing : ∀ {k o}, h.fetched ≤ k → h.offers[k]? = some o → d.avail.ring (k % NUM) = o.chain.i0
  usedRing : ∀ {k n}, h.handled ≤ k → h.posted[k]? = some n →
    ∃ o, h.offers[n]? = some o ∧ d.used.ring (k % NUM) = o.chain.i0
  status : ∀ {n o}, n ∈ h.posted ∨ n ∈ v.finished.map Job.no → n ∉ h.processed →
    h.offers[n]? = some o →
    (d.info o.chain.i0).status = 0

/-- The requests in progress: those that are set up, those that were offered and not yet handled. -/
structure Filled {P Buf : Type} (pc : P → Pc Buf) (d : Disk Buf) (h : Hist Buf) : Prop where
  made : ∀ {x c b}, (pc x).filled = some (c, b) → Formatted d c b
  number : ∀ {x n c b}, (pc x).request = some (n, c, b) →
    h.offers[n]? = some ⟨c, b⟩ ∧ (d.busy b = true ↔ n ∉ h.processed)
  owner : ∀ {n}, n < h.offers.length → n ∉ h.processed → ∃ x c b, (pc x).request = some (n, c, b)
  fresh : ∀ {x b c}, pc x = .publish b c → d.busy b = true ∧
    d.avail.ring (h.offers.length % NUM) = c.i0
  done : ∀ {x b c n}, pc x = .finish b c n → n ∈ h.processed
  loop : ∀ {x}, pc x = .intrBody → h.handled < h.posted.length

section Facts

variable {P Buf : Type} [DecidableEq P] {lock : Option P} {pc : P → Pc Buf} {d d' : Disk Buf} {v : Device} {h : Hist Buf}
  {x : P} {p : Pc Buf}

theorem Flow.congr (flow : Flow d v h) (avail : d'.avail = d.avail) (used : d'.used = d.used)
    (usedIdx : d'.usedIdx = d.usedIdx) (status : ∀ i, (d'.info i).status =
      (d.info i).status) : Flow d' v h where
  availIdx := by
    rw [avail]
    exact flow.availIdx
  seen := flow.seen
  usedIdx := by
    rw [used]
    exact flow.usedIdx
  looked := usedIdx.trans flow.looked
  fetchedLe := flow.fetchedLe
  handledLe := flow.handledLe
  perm := flow.perm
  heads := flow.heads
  availRing := by
    rw [avail]
    exact flow.availRing
  usedRing := by
    rw [used]
    exact flow.usedRing
  status := by
    intro n o done unhandled found
    rw [status]
    exact flow.status done unhandled found

theorem Flow.nodup (flow : Flow d v h) :
    (h.posted ++ (v.finished.map Job.no ++ v.pending.map Job.no)).Nodup :=
  flow.perm.nodup_iff.mpr List.nodup_range

variable {n : Nat}

section

variable (flow : Flow d v h)
include flow

theorem Flow.lt_fetched (mem : n ∈ h.posted ++ (v.finished.map Job.no ++ v.pending.map Job.no)) :
    n < h.fetched :=
  List.mem_range.mp (flow.perm.mem_iff.mp mem)

theorem Flow.posted_lt (mem : n ∈ h.posted) : n < h.fetched := flow.lt_fetched (mem_append_left _ mem)

theorem Flow.processed_lt (mem : n ∈ h.processed) : n < h.fetched := flow.posted_lt (List.mem_of_mem_take mem)

theorem Flow.posted_le : h.posted.length ≤ h.fetched := by
  have length := flow.perm.length_eq
  rw [length_append, List.length_range] at length
  omega

end

theorem slot_of {i : Nat} (index : i = n % 2 ^ 16) : i % NUM = n % NUM := by
  simp only [NUM]
  omega

theorem Hist.processed_succ (h : Hist Buf) (mem : n ∈ h.processed) :
    n ∈ { h with handled := h.handled + 1 }.processed := by
  have next : h.posted.take (h.handled + 1) = h.processed ++ h.posted[h.handled]?.toList :=
    List.take_add_one
  show n ∈ h.posted.take (h.handled + 1)
  rw [next]
  exact mem_append_left _ mem

/-! What each step does to the rings. -/

variable {b : Buf} {c : Chain}

section

variable (flow : Flow d v h)
include flow

theorem Flow.fill [DecidableEq Buf] {write : Bool} (few : h.offers.length ≤ h.handled + 2)
    (apart : ∀ {n o}, n ∉ h.processed → h.offers[n]? = some o → o.chain.i0 ≠ c.i0) :
    Flow (d.format b write c) v h := by
  refine ⟨flow.availIdx, flow.seen, flow.usedIdx, flow.looked, flow.fetchedLe, flow.handledLe,
    flow.perm, flow.heads, ?_,
    flow.usedRing, ?_⟩
  · intro k o unread found
    have low := (List.getElem?_eq_some_iff.mp found).1
    have posted := flow.posted_le
    have handled := flow.handledLe
    have ne : k % NUM ≠ d.avail.idx % NUM := by
      rw [slot_of flow.availIdx]
      simp only [NUM]
      omega
    show upd d.avail.ring (d.avail.idx % NUM) c.i0 (k % NUM) = _
    rw [upd_ne ne]
    exact flow.availRing unread found
  intro n o completed unhandled found
  simp only [Disk.format]
  rw [upd_ne (apart unhandled found)]
  exact flow.status completed unhandled found

theorem Flow.publish (head : d.avail.ring (h.offers.length % NUM) = c.i0) :
    Flow d.publish v { h with offers := h.offers ++ [⟨c, b⟩] } := by
  have old : ∀ {n o}, h.offers[n]? = some o → (h.offers ++ [⟨c, b⟩])[n]? = some o := fun found =>
    (List.getElem?_append_left (List.getElem?_eq_some_iff.mp found).1).trans found
  have fetched := flow.fetchedLe
  refine ⟨?_, flow.seen, flow.usedIdx, flow.looked, ?_, flow.handledLe, flow.perm, ?_, ?_, ?_, ?_⟩
  · show (d.avail.idx + 1) % 2 ^ 16 = (h.offers ++ [Offer.mk c b]).length % 2 ^ 16
    rw [flow.availIdx, length_append, length_singleton]
    omega
  · show h.fetched ≤ (h.offers ++ [Offer.mk c b]).length
    rw [length_append]
    omega
  · intro j mem
    obtain ⟨o, found, eq⟩ := flow.heads mem
    exact ⟨o, old found, eq⟩
  · intro k o unread found
    change (h.offers ++ [Offer.mk c b])[k]? = some o at found
    by_cases last : k = h.offers.length
    · subst last
      have offer : (⟨c, b⟩ : Offer Buf) = o := by simpa using found
      rw [← offer]
      exact head
    have total := (List.getElem?_eq_some_iff.mp found).1
    rw [length_append, length_singleton] at total
    exact flow.availRing unread ((List.getElem?_append_left (by omega)).symm.trans found)
  · intro k n unhandled found
    obtain ⟨o, offer, eq⟩ := flow.usedRing unhandled found
    exact ⟨o, old offer, eq⟩
  intro n o completed unhandled found
  have low : n < h.fetched := by
    refine flow.lt_fetched ?_
    rcases completed with mem | mem
    · exact mem_append_left _ mem
    exact List.mem_append_right _ (mem_append_left _ mem)
  exact flow.status completed unhandled ((List.getElem?_append_left (by omega)).symm.trans found)

theorem Flow.handle (busy : Buf → Bool) (more : h.handled < h.posted.length) :
    Flow { d with busy := busy, usedIdx := (d.usedIdx + 1) % 2 ^ 16 } v { h with handled := h.handled + 1 } := by
  refine ⟨flow.availIdx, flow.seen, flow.usedIdx, ?_, flow.fetchedLe, more, flow.perm, flow.heads,
    flow.availRing, ?_, ?_⟩
  · show (d.usedIdx + 1) % 2 ^ 16 = (h.handled + 1) % 2 ^ 16
    rw [flow.looked]
    omega
  · intro k n after found
    exact flow.usedRing (Nat.le_of_succ_le after) found
  intro n o completed unhandled found
  exact flow.status completed (fun mem => unhandled (h.processed_succ mem)) found

theorem Flow.fetch (low : h.fetched < h.offers.length) : Flow d { v with
      seen := (v.seen + 1) % 2 ^ 16
      pending := v.pending ++ [Job.mk (d.avail.ring (v.seen % NUM)) h.fetched] } { h with fetched := h.fetched + 1 } := by
  have offer := List.getElem?_eq_getElem low
  refine ⟨flow.availIdx, ?_, flow.usedIdx, flow.looked, low, flow.handledLe, ?_, ?_, ?_,
    flow.usedRing, flow.status⟩
  · show (v.seen + 1) % 2 ^ 16 = (h.fetched + 1) % 2 ^ 16
    rw [flow.seen]
    omega
  · show (h.posted ++ (v.finished.map Job.no ++ List.map Job.no (v.pending ++ [⟨_,
      h.fetched⟩]))).Perm
      (List.range (h.fetched + 1))
    rw [List.range_succ, map_append, ← append_assoc, ← append_assoc]
    refine List.Perm.append_right _ ?_
    rw [append_assoc]
    exact flow.perm
  · rintro j (mem | mem)
    · exact flow.heads (.inl mem)
    rcases mem_append.mp mem with old | new
    · exact flow.heads (.inr old)
    rw [mem_singleton.mp new]
    exact ⟨_, offer, by rw [slot_of flow.seen]; exact (flow.availRing (le_refl _) offer).symm⟩
  intro k o unread found
  exact flow.availRing (Nat.le_of_succ_le unread) found

theorem Flow.complete {j : Job} (mem : j ∈ v.pending) (offer : h.offers[j.no]? = some ⟨c, b⟩) :
    Flow { d with info := upd d.info c.i0 { d.info c.i0 with status := 0 } }
      { v with pending := v.pending.erase j, finished := v.finished ++ [j] } h := by
  refine ⟨flow.availIdx, flow.seen, flow.usedIdx, flow.looked, flow.fetchedLe, flow.handledLe, ?_,
    ?_, flow.availRing,
    flow.usedRing, ?_⟩
  · refine List.Perm.trans (List.Perm.append_left _ ?_) flow.perm
    show (List.map Job.no (v.finished ++ [j]) ++ (v.pending.erase j).map Job.no).Perm _
    rw [map_append, append_assoc]
    exact List.Perm.append_left _ ((List.perm_cons_erase mem).map Job.no).symm
  · rintro j' (mem' | mem')
    · rcases mem_append.mp mem' with old | new
      · exact flow.heads (.inl old)
      rw [mem_singleton.mp new]
      exact flow.heads (.inr mem)
    exact flow.heads (.inr (List.mem_of_mem_erase mem'))
  intro n o completed unhandled found
  show (upd d.info c.i0 { d.info c.i0 with status := 0 } o.chain.i0).status = 0
  by_cases eq : o.chain.i0 = c.i0
  · rw [eq, upd_self]
  rw [upd_ne eq]
  refine flow.status ?_ unhandled found
  rcases completed with posted | finished
  · exact .inl posted
  change n ∈ List.map Job.no (v.finished ++ [j]) at finished
  rw [map_append, mem_append] at finished
  rcases finished with old | new
  · exact .inr old
  have last : n = j.no := by simpa using new
  rw [last, offer] at found
  cases found
  exact absurd rfl eq

/-- The slot that is written is none of those `virtio_disk_intr` has yet to look at. -/
theorem Flow.post {j : Job} {o : Offer Buf} (few : h.offers.length ≤ h.handled + 2)
    (mem : j ∈ v.finished) (offer : h.offers[j.no]? = some o) (head : o.chain.i0 = j.head) :
    Flow (d.post j.head) { v with finished := v.finished.erase j } { h with posted := h.posted ++ [j.no] } := by
  have posted := flow.posted_le
  have fetched := flow.fetchedLe
  have handled := flow.handledLe
  refine ⟨flow.availIdx, flow.seen, ?_, flow.looked, fetched, ?_, ?_, ?_, flow.availRing, ?_, ?_⟩
  · show (d.used.idx + 1) % 2 ^ 16 = (h.posted ++ [j.no]).length % 2 ^ 16
    rw [flow.usedIdx, length_append, length_singleton]
    omega
  · show h.handled ≤ (h.posted ++ [j.no]).length
    rw [length_append]
    omega
  · refine List.Perm.trans ?_ flow.perm
    show (h.posted ++ [j.no] ++ ((v.finished.erase j).map Job.no ++ v.pending.map Job.no)).Perm _
    rw [append_assoc, ← append_assoc [j.no]]
    refine List.Perm.append_left _ (List.Perm.append_right _ ?_)
    exact ((List.perm_cons_erase mem).map Job.no).symm
  · rintro j' (mem' | mem')
    · exact flow.heads (.inl (List.mem_of_mem_erase mem'))
    exact flow.heads (.inr mem')
  · intro k n unhandled found
    change (h.posted ++ [j.no])[k]? = some n at found
    change h.handled ≤ k at unhandled
    show ∃ o, h.offers[n]? = some o ∧ upd d.used.ring (d.used.idx % NUM) j.head (k % NUM) =
      o.chain.i0
    rw [slot_of flow.usedIdx]
    by_cases last : k = h.posted.length
    · subst last
      have number : j.no = n := by simpa using found
      rw [← number, upd_self]
      exact ⟨o, offer, head.symm⟩
    have total := (List.getElem?_eq_some_iff.mp found).1
    rw [length_append, length_singleton] at total
    rw [upd_ne (by simp only [NUM]; omega)]
    exact flow.usedRing unhandled ((List.getElem?_append_left (by omega)).symm.trans found)
  intro n o' completed unhandled found
  change n ∉ (h.posted ++ [j.no]).take h.handled at unhandled
  rw [List.take_append_of_le_length handled] at unhandled
  refine flow.status ?_ unhandled found
  rcases completed with posted' | finished
  · rcases mem_append.mp posted' with old | new
    · exact .inl old
    rw [mem_singleton.mp new]
    exact .inr (mem_map_of_mem mem)
  obtain ⟨j', mem', eq⟩ := List.mem_map.mp finished
  exact .inr (eq ▸ mem_map_of_mem (List.mem_of_mem_erase mem'))

end

/-! What a thread has after one has moved. -/

theorem was_at {y : P} {q : Pc Buf} (now : upd pc x p y = q) (ne : p ≠ q) : y ≠ x ∧ pc y = q := by
  by_cases eq : y = x
  · rw [eq, upd_self] at now
    exact absurd now ne
  rw [upd_ne eq] at now
  exact ⟨eq, now⟩

theorem had_before {α : Type} {f : Pc Buf → Option α} {a : α} {y : P} (none : f p = none)
    (now : f (upd pc x p y) = some a) : y ≠ x ∧ f (pc y) = some a := by
  by_cases eq : y = x
  · rw [eq, upd_self, none] at now
    cases now
  rw [upd_ne eq] at now
  exact ⟨eq, now⟩

theorem has_still {α : Type} {f : Pc Buf → Option α} {a : α} {y : P} (none : f (pc x) = none)
    (had : f (pc y) = some a) :
    f (upd pc x p y) = some a := by
  have ne : y ≠ x := by
    rintro rfl
    rw [none] at had
    cases had
  rw [upd_ne ne]
  exact had

theorem chain_of_request (request : p.request = some (n, c, b)) :
    p.chain = some c ∧ p.buf = some b ∧ p.filled = some (c, b) := by
  cases p <;> cases request <;> exact ⟨rfl, rfl, rfl⟩

theorem chain_of_filled (filled : p.filled = some (c, b)) : p.chain = some c ∧ p.buf = some b := by
  cases p <;> cases filled <;> exact ⟨rfl, rfl⟩

/-- The three descriptors of each request that is not handled. -/
def descriptors (h : Hist Buf) (n : Nat) : Finset Nat := ((h.offers[n]?).map fun o => o.chain.list.toFinset).getD ∅

theorem backlog (hold : Holding lock pc d.free) (calls : Filled pc d h) :
    h.offers.length ≤ h.handled + 2 := by
  obtain ⟨open_, unhandled⟩ : ∃ U, U = Finset.range h.offers.length \ h.processed.toFinset :=
    ⟨_, rfl⟩
  have owner : ∀ n ∈ open_, ∃ x c b, (pc x).request = some (n, c, b) ∧ (pc x).chain = some c ∧
      descriptors h n = c.list.toFinset := by
    intro n mem
    rw [unhandled, Finset.mem_sdiff, Finset.mem_range, mem_toFinset] at mem
    obtain ⟨x, c, b, request⟩ := calls.owner mem.1 mem.2
    refine ⟨x, c, b, request, (chain_of_request request).1, ?_⟩
    rw [descriptors, (calls.number request).1]
    rfl
  have three : ∀ n ∈ open_, (descriptors h n).card = 3 := by
    intro n mem
    obtain ⟨x, c, b, -, has, eq⟩ := owner n mem
    rw [eq, List.toFinset_card_of_nodup (hold.ok has).nodup]
    rfl
  have disjoint : (open_ : Set Nat).PairwiseDisjoint (descriptors h) := by
    intro n memN m memM ne
    obtain ⟨x, c, b, request, has, eq⟩ := owner n memN
    obtain ⟨y, c', b', request', has', eq'⟩ := owner m memM
    show Disjoint (descriptors h n) (descriptors h m)
    rw [eq, eq', Finset.disjoint_left]
    intro i mem mem'
    have same := hold.apart has has' (mem_toFinset.mp mem) (mem_toFinset.mp mem')
    rw [same, request'] at request
    cases request
    exact ne rfl
  have inside : open_.biUnion (descriptors h) ⊆ Finset.range NUM := by
    intro i mem
    obtain ⟨n, memN, memI⟩ := Finset.mem_biUnion.mp mem
    obtain ⟨x, c, b, -, has, eq⟩ := owner n memN
    rw [eq, mem_toFinset] at memI
    exact Finset.mem_range.mpr ((hold.ok has).low i memI)
  have count := Finset.card_le_card inside
  rw [Finset.card_biUnion disjoint, Finset.sum_const_nat three, Finset.card_range] at count
  have many : h.offers.length - h.processed.toFinset.card ≤ open_.card := by
    rw [unhandled]
    have least := Finset.le_card_sdiff h.processed.toFinset (Finset.range h.offers.length)
    rwa [Finset.card_range] at least
  have few : h.processed.toFinset.card ≤ h.handled :=
    (List.toFinset_card_le _).trans (List.length_take_le _ _)
  simp only [NUM] at count
  omega

theorem Filled.move (calls : Filled pc d h) (filled : p.filled = (pc x).filled)
    (request : p.request = (pc x).request) (fresh : ∀ b c, p ≠ .publish b c)
    (done : ∀ b c n, p = .finish b c n → n ∈ h.processed)
    (loop : p = .intrBody → h.handled < h.posted.length) : Filled (upd pc x p) d h := by
  have filleds : ∀ y, (upd pc x p y).filled = (pc y).filled := by
    intro y
    by_cases eq : y = x
    · rw [eq, upd_self, filled]
    rw [upd_ne eq]
  have requests : ∀ y, (upd pc x p y).request = (pc y).request := by
    intro y
    by_cases eq : y = x
    · rw [eq, upd_self, request]
    rw [upd_ne eq]
  have cases_ : ∀ y, (y = x ∧ upd pc x p y = p) ∨ upd pc x p y = pc y := by
    intro y
    by_cases eq : y = x
    · exact .inl ⟨eq, by rw [eq, upd_self]⟩
    exact .inr (upd_ne eq _ _)
  refine ⟨?_, ?_, ?_, ?_, ?_, ?_⟩
  · intro y c b has
    rw [filleds] at has
    exact calls.made has
  · intro y n c b has
    rw [requests] at has
    exact calls.number has
  · intro n low unhandled
    obtain ⟨y, c, b, has⟩ := calls.owner low unhandled
    exact ⟨y, c, b, (requests y).trans has⟩
  · intro y b c at_
    rcases cases_ y with ⟨-, eq⟩ | eq <;> rw [eq] at at_
    · exact absurd at_ (fresh b c)
    exact calls.fresh at_
  · intro y b c n at_
    rcases cases_ y with ⟨-, eq⟩ | eq <;> rw [eq] at at_
    · exact done b c n at_
    exact calls.done at_
  intro y at_
  rcases cases_ y with ⟨-, eq⟩ | eq <;> rw [eq] at at_
  · exact loop at_
  exact calls.loop at_

/-- The disk changed where no request in progress looks. -/
theorem Filled.disk (calls : Filled pc d h) (busy : d'.busy = d.busy) (avail : d'.avail = d.avail)
    (made : ∀ {x c b}, (pc x).filled = some (c, b) → Formatted d' c b) : Filled pc d' h where
  made := made
  number := by
    rw [busy]
    exact calls.number
  owner := calls.owner
  fresh := by
    rw [busy, avail]
    exact calls.fresh
  done := calls.done
  loop := calls.loop

end Facts

/-! ## The steps -/

section Steps

variable {P Buf : Type} [DecidableEq P] [DecidableEq Buf] {s t : Sys P Buf} {x : P} {p : Pc Buf}

structure Inv (s : Sys P Buf) : Prop where
  hold : Holding s.lock s.pc s.disk.free
  calls : Filled s.pc s.disk s.hist
  flow : Flow s.disk s.dev s.hist

/-- The places that need more than what a thread brings with it. -/
def Pc.plain : Pc Buf → Bool
  | .publish .. | .finish .. | .intrBody => false
  | _ => true

section

variable (inv : Inv s)
include inv

theorem Inv.move {lock : Option P}
    (buf : ∀ b, p.buf = some b → ∀ y, (s.pc y).buf = some b → y = x)
    (chain : p.chain = (s.pc x).chain) (filled : p.filled = (s.pc x).filled)
    (request : p.request = (s.pc x).request) (plain : p.plain = true)
    (self : p.inside = true → lock = some x)
    (others : ∀ y, y ≠ x → (s.pc y).inside = true → lock = some y) :
    Inv ({ s with lock := lock }.goto x p) := by
  refine ⟨inv.hold.move buf chain self others, inv.calls.move filled request ?_ ?_ ?_, inv.flow⟩
  · rintro b c rfl
    cases plain
  · rintro b c n rfl
    cases plain
  rintro rfl
  cases plain

theorem Inv.same_buf (buf : p.buf = (s.pc x).buf) (b : Buf) (has : p.buf = some b) (y : P)
    (other : (s.pc y).buf = some b) : y = x := inv.hold.bufs other (buf ▸ has)

theorem Inv.acquire (buf : p.buf = (s.pc x).buf) (chain : p.chain = (s.pc x).chain)
    (filled : p.filled = (s.pc x).filled) (request : p.request = (s.pc x).request)
    (plain : p.plain = true) (step : s.acquire x p = some (.ok t)) : Inv t := by
  unfold Sys.acquire at step
  split at step
  · rename_i unlocked
    cases step
    refine inv.move (inv.same_buf buf) chain filled request plain (fun _ => rfl) fun y _ inside => ?_
    have locked := inv.hold.holder inside
    rw [unlocked] at locked
    cases locked
  cases step

theorem Inv.release (was : (s.pc x).inside = true) (buf : p.buf = (s.pc x).buf ∨ p.buf = none)
    (chain : p.chain = (s.pc x).chain) (filled : p.filled = (s.pc x).filled)
    (request : p.request = (s.pc x).request) (plain : p.plain = true) (outside : p.inside = false)
    (step : s.release x p = some (.ok t)) : Inv t := by
  cases step
  refine inv.move (fun b has y other => ?_) chain filled request plain (fun inside => ?_) fun y ne inside => ?_
  · rcases buf with buf | none
    · exact inv.same_buf buf b has y other
    rw [none] at has
    cases has
  · rw [outside] at inside
    cases inside
  exact absurd (inv.hold.alone was inside) ne

theorem Inv.stay (was : (s.pc x).inside = true) (buf : p.buf = (s.pc x).buf)
    (chain : p.chain = (s.pc x).chain) (filled : p.filled = (s.pc x).filled)
    (request : p.request = (s.pc x).request) (fresh : ∀ b c, p ≠ .publish b c)
    (done : ∀ b c n, p = .finish b c n → n ∈ s.hist.processed)
    (loop : p = .intrBody → s.hist.handled < s.hist.posted.length) : Inv (s.goto x p) :=
  ⟨inv.hold.move (inv.same_buf buf) chain (fun _ => inv.hold.holder was) fun _ _ inside => inv.hold.holder inside,
    inv.calls.move filled request fresh done loop, inv.flow⟩

/-- `alloc3_desc` does not touch the requests in progress. -/
theorem Inv.quiet {d : Disk Buf} (quiet : Quiet s.disk d) :
    Filled s.pc d s.hist ∧ Flow d s.dev s.hist := by
  refine ⟨inv.calls.disk quiet.busy quiet.avail fun {y c b} filled => ?_,
    inv.flow.congr quiet.avail quiet.used quiet.usedIdx fun i => by rw [quiet.info]⟩
  refine (inv.calls.made filled).congr (fun i mem => ?_) (by rw [quiet.info])
  exact quiet.desc i (inv.hold.taken (chain_of_filled filled).1 mem)

theorem Inv.alloc {b : Buf} {write : Bool} (at_ : s.pc x = .alloc b write)
    (step : s.run x = some (.ok t)) : Inv t := by
  obtain ⟨r, d, run, quiet, spec⟩ := alloc3Desc_spec s.disk
  obtain ⟨calls, flow⟩ := inv.quiet quiet
  simp only [Sys.run, at_, run] at step
  rcases r with - | c
  · have free : d.free = s.disk.free := spec
    have mid : Inv { s with disk := d } := ⟨by rw [free]; exact inv.hold, calls, flow⟩
    refine mid.release ?_ ?_ ?_ ?_ ?_ rfl rfl step <;> simp only [at_] <;> first | rfl | exact .inl rfl
  obtain ⟨ok, unused, now⟩ := spec
  cases step
  refine ⟨inv.hold.take (c := c) ?_ rfl ?_ ?_ ok unused now, calls.move ?_ ?_ nofun nofun nofun,
    flow⟩ <;> rw [at_] <;> rfl

theorem Inv.fill {b : Buf} {write : Bool} {c : Chain} (at_ : s.pc x = .fill b write c)
    (step : s.run x = some (.ok t)) : Inv t := by
  have was : (s.pc x).inside = true := by rw [at_]; rfl
  have has : (s.pc x).chain = some c := by rw [at_]; rfl
  have mine : (s.pc x).buf = some b := by rw [at_]; rfl
  have unoffered : (s.pc x).request = none := by rw [at_]; rfl
  have few := backlog inv.hold inv.calls
  have apart : ∀ {y c'}, (s.pc y).chain = some c' → y ≠ x → ∀ i ∈ c'.list, i ∉ c.list :=
    fun other ne i mem mem' => ne (inv.hold.apart other has mem mem')
  simp only [Sys.run, at_] at step
  cases step
  have hold : Holding s.lock (upd s.pc x (.publish b c)) s.disk.free :=
    inv.hold.move (inv.same_buf mine.symm) has.symm (fun _ => inv.hold.holder was) fun _ _ inside => inv.hold.holder inside
  suffices rest : Filled (upd s.pc x (.publish b c)) (s.disk.format b write c) s.hist ∧
      Flow (s.disk.format b write c) s.dev s.hist from ⟨hold, rest.1, rest.2⟩
  refine ⟨⟨?_, ?_, ?_, ?_, ?_, ?_⟩, inv.flow.fill few ?_⟩
  · intro y c' b' filled
    by_cases eq : y = x
    · rw [eq, upd_self] at filled
      cases filled
      exact format_formatted (inv.hold.ok has) write
    rw [upd_ne eq] at filled
    exact (inv.calls.made filled).format (apart (chain_of_filled filled).1 eq)
  · intro y n c' b' now
    obtain ⟨other, request⟩ := had_before (f := Pc.request) rfl now
    have ne : b' ≠ b := fun same => other (inv.hold.bufs (chain_of_request request).2.1 (same ▸ mine))
    simp only [Disk.format]
    rw [upd_ne ne]
    exact inv.calls.number request
  · intro n low unhandled
    obtain ⟨y, c', b', request⟩ := inv.calls.owner low unhandled
    exact ⟨y, c', b', has_still (f := Pc.request) unoffered request⟩
  · intro y b' c' now
    have eq : y = x := by
      by_contra ne
      rw [upd_ne ne] at now
      exact ne (inv.hold.alone was (by rw [now]; rfl))
    rw [eq, upd_self] at now
    cases now
    simp only [Disk.format]
    rw [upd_self, slot_of inv.flow.availIdx, upd_self]
    exact ⟨rfl, rfl⟩
  · intro y b' c' n now
    exact inv.calls.done (was_at now (by simp)).2
  · intro y now
    exact inv.calls.loop (was_at now (by simp)).2
  -- a request that is not handled has its own descriptors
  intro n o unhandled found
  obtain ⟨y, c', b', request⟩ := inv.calls.owner (List.getElem?_eq_some_iff.mp found).1 unhandled
  have same := (inv.calls.number request).1
  rw [found] at same
  cases same
  have ne : y ≠ x := by
    rintro rfl
    rw [unoffered] at request
    cases request
  exact fun eq => apart (chain_of_request request).1 ne _ c'.i0_mem (eq ▸ c.i0_mem)

theorem Inv.publish {b : Buf} {c : Chain} (at_ : s.pc x = .publish b c)
    (step : s.run x = some (.ok t)) : Inv t := by
  have was : (s.pc x).inside = true := by rw [at_]; rfl
  have mine : (s.pc x).buf = some b := by rw [at_]; rfl
  have unoffered : (s.pc x).request = none := by rw [at_]; rfl
  obtain ⟨busy, head⟩ := inv.calls.fresh at_
  have new : s.hist.offers.length ∉ s.hist.processed := fun mem => by
    have low := inv.flow.processed_lt mem
    have fetched := inv.flow.fetchedLe
    omega
  simp only [Sys.run, at_] at step
  cases step
  have hold : Holding s.lock (upd s.pc x (.wait b c s.hist.offers.length)) s.disk.free :=
    inv.hold.move (inv.same_buf mine.symm) (by rw [at_]; rfl) (fun _ => inv.hold.holder was)
      fun _ _ inside => inv.hold.holder inside
  suffices rest : Filled (upd s.pc x (.wait b c s.hist.offers.length)) s.disk.publish
      { s.hist with offers := s.hist.offers ++ [⟨c, b⟩] } from ⟨hold, rest, inv.flow.publish head⟩
  refine ⟨?_, ?_, ?_, ?_, ?_, ?_⟩
  · intro y c' b' filled
    have eq : (upd s.pc x (.wait b c s.hist.offers.length) y).filled = (s.pc y).filled := by
      by_cases eq : y = x
      · rw [eq, upd_self, at_]
        rfl
      rw [upd_ne eq]
    rw [eq] at filled
    exact (inv.calls.made filled).congr (fun _ _ => rfl) rfl
  · intro y n c' b' request
    by_cases eq : y = x
    · rw [eq, upd_self] at request
      cases request
      refine ⟨by simp, ?_⟩
      show s.disk.busy b = true ↔ s.hist.offers.length ∉ s.hist.processed
      exact ⟨fun _ => new, fun _ => busy⟩
    rw [upd_ne eq] at request
    obtain ⟨found, iff⟩ := inv.calls.number request
    exact ⟨(List.getElem?_append_left (List.getElem?_eq_some_iff.mp found).1).trans found, iff⟩
  · intro n low unhandled
    by_cases last : n = s.hist.offers.length
    · exact ⟨x, c, b, by rw [upd_self, last]; rfl⟩
    have total : n < (s.hist.offers ++ [Offer.mk c b]).length := low
    rw [length_append, length_singleton] at total
    obtain ⟨y, c', b', request⟩ := inv.calls.owner (by omega) unhandled
    exact ⟨y, c', b', has_still (f := Pc.request) unoffered request⟩
  · intro y b' c' now
    obtain ⟨ne, old⟩ := was_at now nofun
    exact absurd (inv.hold.alone was (by rw [old]; rfl)) ne
  · intro y b' c' n now
    exact inv.calls.done (was_at now nofun).2
  intro y now
  exact inv.calls.loop (was_at now nofun).2

theorem Inv.finish {b : Buf} {c : Chain} {no : Nat} (at_ : s.pc x = .finish b c no)
    (step : s.run x = some (.ok t)) : Inv t := by
  have was : (s.pc x).inside = true := by rw [at_]; rfl
  have has : (s.pc x).chain = some c := by rw [at_]; rfl
  have filled : (s.pc x).filled = some (c, b) := by rw [at_]; rfl
  obtain ⟨d, run, avail, used, usedIdx, busy, desc, free, status, owner⟩ :=
    finish_spec (inv.calls.made filled) (inv.hold.ok has) fun i => inv.hold.taken has
  simp only [Sys.run, at_, run] at step
  cases step
  have hold : Holding s.lock (upd s.pc x .leave) d.free := inv.hold.drop has rfl rfl was free
  suffices rest : Filled (upd s.pc x .leave) d s.hist from ⟨hold, rest, inv.flow.congr avail used usedIdx status⟩
  refine ⟨?_, ?_, ?_, ?_, ?_, ?_⟩
  · intro y c' b' now
    obtain ⟨ne, old⟩ := had_before (f := Pc.filled) rfl now
    have out : ∀ i ∈ c'.list, i ∉ c.list :=
      fun i mem mem' => ne (inv.hold.apart (chain_of_filled old).1 has mem mem')
    refine (inv.calls.made old).congr (fun i mem => desc i (out i mem)) (owner _ fun same => ?_)
    exact out _ c'.i0_mem (same ▸ c.i0_mem)
  · intro y n c' b' now
    rw [busy]
    exact inv.calls.number (had_before (f := Pc.request) rfl now).2
  · intro n low unhandled
    obtain ⟨y, c', b', request⟩ := inv.calls.owner low unhandled
    have ne : y ≠ x := by
      rintro rfl
      rw [at_] at request
      cases request
      exact unhandled (inv.calls.done at_)
    exact ⟨y, c', b', by rw [upd_ne ne]; exact request⟩
  · intro y b' c' now
    rw [busy, avail]
    exact inv.calls.fresh (was_at now nofun).2
  · intro y b' c' n now
    exact inv.calls.done (was_at now nofun).2
  intro y now
  exact inv.calls.loop (was_at now nofun).2

/-- The entry of the `used` ring that `virtio_disk_intr` looks at: it is the head of the next
request to be handled, its status is 0, and `info` has its buffer. -/
theorem Inv.entry (more : s.hist.handled < s.hist.posted.length) :
    ∃ n y c b, s.hist.posted[s.hist.handled]? = some n ∧ n ∉ s.hist.processed ∧
      (s.pc y).request = some (n, c, b) ∧
      s.hist.offers[n]? = some ⟨c, b⟩ ∧ s.disk.used.ring (s.disk.usedIdx % NUM) = c.i0 ∧
      (s.disk.info c.i0).status = 0 ∧ (s.disk.info c.i0).b = some b := by
  have next := List.getElem?_eq_getElem more
  have posted : s.hist.posted.Nodup := (List.nodup_append.mp inv.flow.nodup).1
  have unhandled : s.hist.posted[s.hist.handled] ∉ s.hist.processed := by
    intro mem
    obtain ⟨k, low, eq⟩ := List.mem_take_iff_getElem.mp mem
    have same := (List.Nodup.getElem_inj_iff posted).mp eq
    omega
  obtain ⟨o, found, ring⟩ := inv.flow.usedRing (le_refl _) next
  have low := (List.getElem?_eq_some_iff.mp found).1
  obtain ⟨y, c, b, request⟩ := inv.calls.owner low unhandled
  obtain ⟨offer, -⟩ := inv.calls.number request
  have same := found
  rw [offer] at same
  cases same
  refine ⟨_, y, c, b, next, unhandled, request, offer, by rw [slot_of inv.flow.looked]; exact ring,
    ?_, ?_⟩
  · exact inv.flow.status (.inl (List.getElem_mem more)) unhandled found
  exact (inv.calls.made (chain_of_request request).2.2).owner

theorem Inv.handle (at_ : s.pc x = .intrBody) (step : s.run x = some (.ok t)) : Inv t := by
  have was : (s.pc x).inside = true := by rw [at_]; rfl
  have unoffered : (s.pc x).request = none := by rw [at_]; rfl
  have more := inv.calls.loop at_
  obtain ⟨n, z, c, b, next, unhandled, request, offer, ring, status, owner⟩ := inv.entry more
  have run : s.disk.handle = .ok { s.disk with
      busy := upd s.disk.busy b false, usedIdx := (s.disk.usedIdx + 1) % 2 ^ 16 } := by
    unfold Disk.handle
    simp only [ring, status, owner, ne_eq, not_true_eq_false, if_false]
  simp only [Sys.run, at_, run] at step
  cases step
  have hold : Holding s.lock (upd s.pc x .intrLoop) s.disk.free :=
    inv.hold.move nofun (by rw [at_]; rfl) (fun _ => inv.hold.holder was) fun _ _ inside => inv.hold.holder inside
  -- whoever else is at a place inside the lock would be this thread
  have alone : ∀ {y q}, upd s.pc x .intrLoop y = q → .intrLoop ≠ q → q.inside = false := by
    intro y q now other
    obtain ⟨ne, old⟩ := was_at now other
    by_contra inside
    exact ne (inv.hold.alone was (by rw [old]; simpa using inside))
  suffices rest : Filled (upd s.pc x .intrLoop) { s.disk with
      busy := upd s.disk.busy b false, usedIdx := (s.disk.usedIdx + 1) % 2 ^ 16 }
      { s.hist with handled := s.hist.handled + 1 } from ⟨hold, rest, inv.flow.handle _ more⟩
  refine ⟨?_, ?_, ?_, ?_, ?_, ?_⟩
  · intro y c' b' now
    exact (inv.calls.made (had_before (f := Pc.filled) rfl now).2).congr (fun _ _ => rfl) rfl
  · intro y n' c' b' now
    obtain ⟨-, old⟩ := had_before (f := Pc.request) rfl now
    obtain ⟨found, iff⟩ := inv.calls.number old
    refine ⟨found, ?_⟩
    have processed : s.hist.posted.take (s.hist.handled + 1) = s.hist.processed ++ [n] := by
      rw [List.take_add_one, next]
      rfl
    show upd s.disk.busy b false b' = true ↔ n' ∉ s.hist.posted.take (s.hist.handled + 1)
    rw [processed, mem_append, mem_singleton]
    by_cases eq : b' = b
    · -- this thread has the request that was handled
      have same : y = z :=
        inv.hold.bufs (chain_of_request old).2.1 (eq ▸ (chain_of_request request).2.1)
      rw [same, request] at old
      cases old
      rw [upd_self]
      simp
    have ne : n' ≠ n := by
      rintro rfl
      rw [offer] at found
      cases found
      exact eq rfl
    rw [upd_ne eq, iff]
    simp [ne]
  · intro n' low unhandled'
    obtain ⟨y, c', b', request'⟩ :=
      inv.calls.owner low fun mem => unhandled' (s.hist.processed_succ mem)
    exact ⟨y, c', b', has_still (f := Pc.request) unoffered request'⟩
  · intro y b' c' now
    cases alone now nofun
  · intro y b' c' n' now
    cases alone now nofun
  intro y now
  cases alone now nofun

/-! ## The device -/

theorem Inv.fetch (step : s.step .fetch = some (.ok t)) : Inv t := by
  simp only [Sys.step] at step
  split at step
  · cases step
  rename_i more
  cases step
  have low : s.hist.fetched < s.hist.offers.length := by
    rcases Nat.lt_or_eq_of_le inv.flow.fetchedLe with lt | eq
    · exact lt
    rw [inv.flow.seen, inv.flow.availIdx, eq] at more
    exact absurd rfl more
  exact ⟨inv.hold, ⟨inv.calls.made, inv.calls.number, inv.calls.owner, inv.calls.fresh,
    inv.calls.done, inv.calls.loop⟩,
    inv.flow.fetch low⟩

theorem Inv.working {j : Job} (mem : j ∈ s.dev.finished ∨ j ∈ s.dev.pending) :
    ∃ y c b, (s.pc y).request = some (j.no, c, b) ∧ s.hist.offers[j.no]? = some ⟨c, b⟩ ∧
      c.i0 = j.head := by
  have here : j.no ∈ s.dev.finished.map Job.no ++ s.dev.pending.map Job.no := by
    rcases mem with mem | mem
    · exact mem_append_left _ (mem_map_of_mem mem)
    exact List.mem_append_right _ (mem_map_of_mem mem)
  have out : j.no ∉ s.hist.posted :=
    fun posted => (List.nodup_append.mp inv.flow.nodup).2.2 _ posted _ here rfl
  obtain ⟨o, found, head⟩ := inv.flow.heads mem
  obtain ⟨y, c, b, request⟩ := inv.calls.owner (List.getElem?_eq_some_iff.mp found).1
    fun processed => out (List.mem_of_mem_take processed)
  have offer := (inv.calls.number request).1
  have same := found
  rw [offer] at same
  cases same
  exact ⟨y, c, b, request, offer, head⟩

theorem Inv.complete {j : Job} (step : s.step (.complete j) = some (.ok t)) : Inv t := by
  simp only [Sys.step] at step
  split at step
  swap
  · cases step
  rename_i mem
  cases step
  obtain ⟨y, c, b, request, offer, head⟩ := inv.working (.inr mem)
  have made := inv.calls.made (chain_of_request request).2.2
  have wrote : s.disk.complete j.head = { s.disk with
      info := upd s.disk.info c.i0 { s.disk.info c.i0 with status := 0 } } := by
    unfold Disk.complete
    rw [← head, made.first.2, made.second.2, made.third.2]
  rw [wrote]
  refine ⟨inv.hold, inv.calls.disk rfl rfl fun {z c' b'} filled => ?_, inv.flow.complete mem offer⟩
  refine (inv.calls.made filled).congr (fun _ _ => rfl) ?_
  by_cases eq : c'.i0 = c.i0
  · simp [eq]
  simp [upd_ne eq]

theorem Inv.post {j : Job} (step : s.step (.post j) = some (.ok t)) : Inv t := by
  simp only [Sys.step] at step
  split at step
  swap
  · cases step
  rename_i mem
  cases step
  obtain ⟨y, c, b, -, offer, head⟩ := inv.working (.inl mem)
  have processed : (s.hist.posted ++ [j.no]).take s.hist.handled = s.hist.processed :=
    List.take_append_of_le_length inv.flow.handledLe
  refine ⟨inv.hold, ⟨fun filled => (inv.calls.made filled).congr (fun _ _ => rfl) rfl, ?_, ?_,
    inv.calls.fresh, ?_, ?_⟩,
    inv.flow.post (backlog inv.hold inv.calls) mem offer head⟩
  · intro z n c' b' request
    show _ ∧ (_ ↔ n ∉ (s.hist.posted ++ [j.no]).take s.hist.handled)
    rw [processed]
    exact inv.calls.number request
  · intro n low unhandled
    change n ∉ (s.hist.posted ++ [j.no]).take s.hist.handled at unhandled
    rw [processed] at unhandled
    exact inv.calls.owner low unhandled
  · intro z b' c' n now
    show n ∈ (s.hist.posted ++ [j.no]).take s.hist.handled
    rw [processed]
    exact inv.calls.done now
  intro z now
  have more := inv.calls.loop now
  show s.hist.handled < (s.hist.posted ++ [j.no]).length
  rw [length_append]
  omega

end

end Steps

end Xv6.Virtio
