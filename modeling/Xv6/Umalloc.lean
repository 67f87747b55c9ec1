import Mathlib.Tactic
import Xv6.Lib.Segment

/-!
# The allocator of user programs

`malloc`, `free` and `morecore` of `user/umalloc.c`. Memory is seen in units of
`sizeof(Header)`, 16 bytes: an address is the number of a unit, `mem a` is unit `a`
read as a header, and address 0 is the null pointer. The code only compares
addresses and steps by whole units, so memory that begins between two multiples of
16, as `base` may, is numbered with the gap before it rounded up. Sizes are below
2^32 units, more than memory has. A loop has a number of rounds it may take and has
no result if it takes more. What `sbrk` answers is an argument.
-/

namespace Xv6.Umalloc

open List (mem_cons_self append_of_mem pairwise_append pairwise_cons length_nil length_cons mem_cons_of_mem length_append mem_append mem_cons mem_append_right mem_append_left mem_singleton pairwise_singleton)
open Function renaming update → upd, update_self → upd_self, update_of_ne → upd_ne,
  update_idem → upd_idem

/-! ## The code -/

structure Header where
  ptr : Nat
  size : Nat

/-- The memory of the process and `freep`. -/
structure Heap where
  mem : Nat → Header
  freep : Nat

namespace Heap

/-- `p->s.ptr = v` -/
def setPtr (h : Heap) (p v : Nat) : Heap := { h with mem := upd h.mem p { h.mem p with ptr := v } }

/-- `p->s.size = v` -/
def setSize (h : Heap) (p v : Nat) : Heap := { h with mem := upd h.mem p { h.mem p with size := v } }

end Heap

/-- The loop of `free`: the block after which `bp` belongs. -/
def place (mem : Nat → Header) (bp : Nat) : Nat → Nat → Option Nat
  | 0, _ => none
  | rounds + 1, p =>
    if bp > p ∧ bp < (mem p).ptr then some p
    else if p ≥ (mem p).ptr ∧ (bp > p ∨ bp < (mem p).ptr) then some p
    else place mem bp rounds (mem p).ptr

def joinRight (h : Heap) (bp p : Nat) : Heap :=
  if bp + (h.mem bp).size = (h.mem p).ptr then
    let next := (h.mem p).ptr
    (h.setSize bp ((h.mem bp).size + (h.mem next).size)).setPtr bp (h.mem next).ptr
  else h.setPtr bp (h.mem p).ptr

def joinLeft (h : Heap) (bp p : Nat) : Heap :=
  if p + (h.mem p).size = bp then
    (h.setSize p ((h.mem p).size + (h.mem bp).size)).setPtr p (h.mem bp).ptr
  else h.setPtr p bp

def free (rounds : Nat) (h : Heap) (ap : Nat) : Option Heap := do
  let bp := ap - 1
  let p ← place h.mem bp rounds h.freep
  return { joinLeft (joinRight h bp p) bp p with freep := p }

/-- The units that `morecore` asks for. -/
def coreUnits (nu : Nat) : Nat := if nu < 4096 then 4096 else nu

/-- `morecore`; `sbrk` is where the memory that it got begins. -/
def morecore (rounds : Nat) (h : Heap) (nu : Nat) (sbrk : Option Nat) : Option (Heap × Nat) :=
  match sbrk with
  | none => some (h, 0)
  | some p => do
    let h ← free rounds (h.setSize p (coreUnits nu)) (p + 1)
    return (h, h.freep)

/-- The units for `nbytes` bytes and a header. -/
def nunits (nbytes : Nat) : Nat := (nbytes + 16 - 1) / 16 + 1

/-- What `malloc` leaves and returns, and how often it called `morecore`. -/
structure Malloc where
  heap : Heap
  result : Nat
  calls : Nat

/-- Take `n` units from block `p`, which is large enough and comes after `prevp`. -/
def take (h : Heap) (n prevp p : Nat) : Heap × Nat :=
  if (h.mem p).size = n then ({ h.setPtr prevp (h.mem p).ptr with freep := prevp }, p + 1)
  else
    let h := h.setSize p ((h.mem p).size - n)
    let q := p + (h.mem p).size
    ({ h.setSize q n with freep := prevp }, q + 1)

/-- The loop of `malloc`; `sbrk c` is the answer to call `c` of `morecore`. -/
def mallocLoop (rounds : Nat) (sbrk : Nat → Option Nat) (n : Nat) : Nat → Heap → Nat → Nat → Nat → Option Malloc
  | 0, _, _, _, _ => none
  | k + 1, h, prevp, p, calls =>
    if n ≤ (h.mem p).size then some ⟨(take h n prevp p).1, (take h n prevp p).2, calls⟩
    else if p = h.freep then
      match morecore rounds h n (sbrk calls) with
      | none => none
      | some (h, q) =>
        if q = 0 then some ⟨h, 0, calls + 1⟩ else mallocLoop rounds sbrk n k h q (h.mem q).ptr (calls + 1)
    else mallocLoop rounds sbrk n k h p (h.mem p).ptr calls

/-- The beginning of `malloc`: the first call makes the list that has only `base`. -/
def setup (base : Nat) (h : Heap) : Heap :=
  if h.freep = 0 then ({ h with freep := base }.setPtr base base).setSize base 0 else h

def malloc (base rounds : Nat) (sbrk : Nat → Option Nat) (h : Heap) (nbytes : Nat) :
    Option Malloc :=
  let h := setup base h
  mallocLoop rounds sbrk (nunits nbytes) rounds h h.freep (h.mem h.freep).ptr 0

/-! ## Blocks -/

structure Block where
  addr : Nat
  size : Nat

namespace Block

def Has (x : Block) (u : Nat) : Prop := x.addr ≤ u ∧ u < x.addr + x.size

instance (x : Block) (u : Nat) : Decidable (x.Has u) := inferInstanceAs (Decidable (_ ∧ _))

end Block

/-- How many of the blocks have unit `u`. -/
def cover (l : List Block) (u : Nat) : Nat := l.countP fun x => x.Has u

@[simp] theorem cover_nil (u : Nat) : cover [] u = 0 := rfl

@[simp] theorem cover_cons (x : Block) (l : List Block) (u : Nat) :
    cover (x :: l) u = cover l u + if x.Has u then 1 else 0 := by
  rw [cover, List.countP_cons]
  simp only [decide_eq_true_eq, cover]

@[simp] theorem cover_append (l l' : List Block) (u : Nat) :
    cover (l ++ l') u = cover l u + cover l' u :=
  List.countP_append

theorem cover_perm {l l' : List Block} (perm : l.Perm l') (u : Nat) : cover l u = cover l' u := perm.countP_eq _

theorem cover_pos {l : List Block} {x : Block} {u : Nat} (mem : x ∈ l) (has : x.Has u) :
    0 < cover l u :=
  List.countP_pos_iff.2 ⟨x, mem, decide_eq_true has⟩

theorem has_join (a s t u : Nat) : (if (⟨a, s + t⟩ : Block).Has u then 1 else 0) =
    (if (⟨a, s⟩ : Block).Has u then 1 else 0) + if (⟨a + s, t⟩ : Block).Has u then 1 else 0 := by
  split_ifs <;> simp only [Block.Has] at * <;> omega

/-! ## The circular list -/

/-- The blocks lie in a circular list that begins at `base`, with ascending addresses and gaps
between them; `base` itself has no units. -/
structure Ring (mem : Nat → Header) (base : Nat) (blocks : List Block) : Prop where
  links : Segment Block.addr (fun a => (mem a).ptr) base (⟨base, 0⟩ :: blocks) base
  sizes : ∀ x ∈ (⟨base, 0⟩ : Block) :: blocks, (mem x.addr).size = x.size
  sorted : ((⟨base, 0⟩ : Block) :: blocks).Pairwise fun x y => x.addr + x.size < y.addr

structure Cut (base bp : Nat) (blocks pre : List Block) (p : Block) (post : List Block) : Prop where
  split : (⟨base, 0⟩ : Block) :: blocks = pre ++ p :: post
  below : ∀ x ∈ pre, x.addr < p.addr
  here : p.addr < bp
  above : ∀ x ∈ post, bp < x.addr

section Place

variable {mem : Nat → Header} {base bp : Nat} {blocks pre post : List Block} {p : Block}

theorem Ring.segments (ring : Ring mem base blocks) (cut : Cut base bp blocks pre p post) :
    Segment Block.addr (fun a => (mem a).ptr) base pre p.addr ∧
      Segment Block.addr (fun a => (mem a).ptr) (mem p.addr).ptr post base := by
  have links := ring.links
  rw [cut.split] at links
  exact Segment.split_iff.1 links

theorem Ring.ascending (ring : Ring mem base blocks) (cut : Cut base bp blocks pre p post) :
    (pre ++ p :: post).Pairwise fun x y => x.addr + x.size < y.addr := by
  rw [← cut.split]
  exact ring.sorted

theorem Cut.base_le (cut : Cut base bp blocks pre p post) : base ≤ p.addr := by
  cases pre with
  | nil =>
    have eq := (List.cons.inj cut.split).1
    exact Nat.le_of_eq (congrArg Block.addr eq)
  | cons x pre =>
    have eq := (List.cons.inj cut.split).1
    have lt := cut.below x mem_cons_self
    rw [← eq] at lt
    exact lt.le

section

variable (ring : Ring mem base blocks)
include ring

section

variable (cut : Cut base bp blocks pre p post)
include cut

/-- The test of the first loop of `free` succeeds at the block the freed one is cut in behind. -/
theorem Ring.place_here (rounds : Nat) : place mem bp (rounds + 1) p.addr = some p.addr := by
  have rest := (ring.segments cut).2
  have here := cut.here
  have low := cut.base_le
  rw [place]
  cases post with
  | nil =>
    have next : (mem p.addr).ptr = base := rest
    rw [next, if_neg (by omega), if_pos (by omega)]
  | cons y post =>
    have next : y.addr = (mem p.addr).ptr := rest.1
    have above := cut.above y mem_cons_self
    rw [← next, if_pos ⟨here, above⟩]

/-- It fails at every other block of the ring. -/
theorem Ring.place_on {x : Block} (other : x ∈ pre ∨ x ∈ post) (rounds : Nat) :
    place mem bp (rounds + 1) x.addr = place mem bp rounds (mem x.addr).ptr := by
  obtain ⟨first, rest⟩ := ring.segments cut
  have order := ring.ascending cut
  have here := cut.here
  have low := cut.base_le
  rcases other with mem' | mem'
  · obtain ⟨u, v, rfl⟩ := append_of_mem mem'
    have next := (Segment.split_iff.1 first).2
    have lt : x.addr < (mem x.addr).ptr ∧ (mem x.addr).ptr < bp := by
      cases v with
      | nil =>
        have eq : (mem x.addr).ptr = p.addr := next
        rw [eq]
        exact ⟨cut.below x mem', here⟩
      | cons y v =>
        have eq : y.addr = (mem x.addr).ptr := next.1
        rw [← eq]
        have up := (pairwise_append.1 order).1
        have up := List.rel_of_pairwise_cons (pairwise_append.1 up).2.1 (mem_cons_self (a := y)
          (l := v))
        have below := cut.below y (by simp)
        omega
    rw [place, if_neg (by omega), if_neg (by omega)]
  obtain ⟨u, v, rfl⟩ := append_of_mem mem'
  have next := (Segment.split_iff.1 rest).2
  have above := cut.above x mem'
  have lt : (mem x.addr).ptr = base ∨ x.addr < (mem x.addr).ptr := by
    cases v with
    | nil => exact .inl next
    | cons y v =>
      have eq : y.addr = (mem x.addr).ptr := next.1
      rw [← eq]
      have up := (pairwise_cons.1 (pairwise_append.1 order).2.1).2
      have up := List.rel_of_pairwise_cons (pairwise_append.1 up).2.1 (mem_cons_self (a := y)
        (l := v))
      exact .inr (by omega)
  rw [place, if_neg (by omega), if_neg (by omega)]

theorem Ring.place_walk (rounds : Nat)
    {l : List Block} : ∀ {a : Nat}, Segment Block.addr (fun a => (mem a).ptr) a l p.addr →
      (∀ x ∈ l, x ∈ pre ∨ x ∈ post) → place mem bp (l.length + (rounds + 1)) a = some p.addr := by
  induction l with
  | nil =>
    rintro a rfl -
    rw [length_nil, zero_add]
    exact ring.place_here cut rounds
  | cons x l ih =>
    rintro a ⟨rfl, seg⟩ others
    rw [length_cons, show l.length + 1 + (rounds + 1) = l.length + (rounds + 1) + 1 by omega,
      ring.place_on cut (others x mem_cons_self)]
    exact ih seg fun y mem => others y (mem_cons_of_mem x mem)

/-- From any block of the ring, `free` finds the place after at most one round. -/
theorem Ring.place {f : Nat} (start : ∃ x ∈ (⟨base, 0⟩ : Block) :: blocks, x.addr = f)
    {rounds : Nat} (enough : blocks.length < rounds) :
    place mem bp rounds f = some p.addr := by
  obtain ⟨x, mem', rfl⟩ := start
  have length := congrArg List.length cut.split
  simp only [length_cons, length_append] at length
  obtain ⟨first, rest⟩ := ring.segments cut
  have walk : ∃ l, Segment Block.addr (fun a => (mem a).ptr) x.addr l p.addr ∧
      (∀ y ∈ l, y ∈ pre ∨ y ∈ post) ∧
      l.length ≤ pre.length + post.length := by
    rw [cut.split] at mem'
    rcases mem_append.1 mem' with inPre | inPost
    · obtain ⟨u, v, rfl⟩ := append_of_mem inPre
      refine ⟨x :: v, ⟨rfl, (Segment.split_iff.1 first).2⟩, fun y mem => .inl (by simp_all), ?_⟩
      simp
      omega
    rcases mem_cons.1 inPost with rfl | inPost
    · exact ⟨[], rfl, nofun, zero_le⟩
    obtain ⟨u, v, rfl⟩ := append_of_mem inPost
    refine ⟨x :: v ++ pre, Segment.append_iff.2 ⟨base, ⟨rfl, (Segment.split_iff.1 rest).2⟩, first⟩,
      ?_, ?_⟩
    · intro y mem
      rcases mem_append.1 mem with hi | lo
      · exact .inr (mem_append_right u hi)
      exact .inl lo
    simp
    omega
  obtain ⟨l, seg, others, short⟩ := walk
  have found := ring.place_walk cut (rounds - l.length - 1) seg others
  rwa [show l.length + (rounds - l.length - 1 + 1) = rounds by omega] at found

end

end

end Place

/-! ## `free` -/

section Free

variable {h : Heap} {base bp s : Nat} {blocks pre post : List Block} {p : Block}

theorem joinRight_mem (h : Heap) (bp p : Nat) : (joinRight h bp p).mem = upd h.mem bp
    (if bp + (h.mem bp).size = (h.mem p).ptr then
      ⟨(h.mem (h.mem p).ptr).ptr, (h.mem bp).size + (h.mem (h.mem p).ptr).size⟩
    else ⟨(h.mem p).ptr, (h.mem bp).size⟩) := by
  rw [joinRight]
  split
  · simp only [Heap.setPtr, Heap.setSize, upd_idem, upd_self]
  rfl

theorem joinLeft_mem (h : Heap) (bp p : Nat) : (joinLeft h bp p).mem = upd h.mem p
    (if p + (h.mem p).size = bp then ⟨(h.mem bp).ptr, (h.mem p).size + (h.mem bp).size⟩
    else ⟨bp, (h.mem p).size⟩) := by
  rw [joinLeft]
  split
  · simp only [Heap.setPtr, Heap.setSize, upd_idem, upd_self]
  rfl

theorem exists_cut :
    ∀ {x : Block} {l : List Block}, (x :: l).Pairwise (fun x y => x.addr + x.size < y.addr) →
    x.addr < bp → (∀ y ∈ l, y.addr ≠ bp) → ∃ pre p post, x :: l = pre ++ p :: post ∧
      (∀ y ∈ pre, y.addr < p.addr) ∧
      p.addr < bp ∧ ∀ y ∈ post, bp < y.addr := by
  intro x l
  induction l generalizing x with
  | nil => exact fun _ low _ => ⟨[], x, [], rfl, nofun, low, nofun⟩
  | cons y l ih =>
    intro sorted low other
    obtain ⟨first, rest⟩ := pairwise_cons.1 sorted
    by_cases up : y.addr < bp
    · obtain ⟨pre, p, post, split, below, here, above⟩ :=
        ih rest up fun z mem => other z (mem_cons_of_mem y mem)
      refine ⟨x :: pre, p, post, by rw [split]; rfl, ?_, here, above⟩
      intro z mem
      rcases mem_cons.1 mem with rfl | mem
      · have mem' : p ∈ y :: l := by
          rw [split]
          simp
        have lt := first p mem'
        omega
      exact below z mem
    have ne := other y mem_cons_self
    refine ⟨[], x, y :: l, rfl, nofun, low, fun z mem => ?_⟩
    rcases mem_cons.1 mem with rfl | mem
    · omega
    have lt := (pairwise_cons.1 rest).1 z mem
    omega

theorem Ring.exists_cut (ring : Ring h.mem base blocks) (low : base < bp)
    (other : ∀ y ∈ blocks, y.addr ≠ bp) :
    ∃ pre p post, Cut base bp blocks pre p post := by
  obtain ⟨pre, p, post, split, below, here, above⟩ := Umalloc.exists_cut ring.sorted low other
  exact ⟨pre, p, post, split, below, here, above⟩

/-- What `free` makes of the blocks behind the new one: its size, and those that stay. -/
structure Joined (bp s : Nat) (post : List Block) (s' : Nat) (post' : List Block) : Prop where
  gap : ∀ y ∈ post', bp + s' < y.addr
  sub : ∀ y ∈ post', y ∈ post
  order : post'.Pairwise fun x y => x.addr + x.size < y.addr
  covers : ∀ u, cover post u + (if (⟨bp, s⟩ : Block).Has u then 1 else 0) =
    cover post' u + if (⟨bp, s'⟩ : Block).Has u then 1 else 0
  grows : s ≤ s'
  short : post'.length ≤ post.length

/-- The ring after the upper half of the join in `free`. -/
theorem Ring.joinRight (ring : Ring h.mem base blocks) (cut : Cut base bp blocks pre p post)
    (size : (h.mem bp).size = s) (clear : ∀ y ∈ post, bp + s ≤ y.addr) :
    ∃ s' post' q, (Umalloc.joinRight h bp p.addr).mem = upd h.mem bp ⟨q, s'⟩ ∧
      Segment Block.addr (fun a => (h.mem a).ptr) q post' base ∧ Joined bp s post s' post' := by
  obtain ⟨-, rest⟩ := ring.segments cut
  have order := (pairwise_cons.1 (pairwise_append.1 (ring.ascending cut)).2.1).2
  have here := cut.here
  have low := cut.base_le
  rw [joinRight_mem, size]
  cases post with
  | nil =>
    have next : (h.mem p.addr).ptr = base := rest
    rw [next, if_neg (by omega)]
    exact ⟨s, [], base, rfl, rfl, nofun, nofun, .nil, fun _ => rfl, le_rfl, le_rfl⟩
  | cons y post =>
    obtain ⟨next, rest⟩ := rest
    have above := clear y mem_cons_self
    have ysize : (h.mem y.addr).size = y.size := ring.sizes y (by rw [cut.split]; simp)
    obtain ⟨first, order'⟩ := pairwise_cons.1 order
    rw [← next] at rest ⊢
    by_cases touch : bp + s = y.addr
    · rw [if_pos touch, ysize]
      refine ⟨s + y.size, post, _, rfl, rest, ?_, fun z mem => mem_cons_of_mem y mem, order', ?_,
        Nat.le_add_right .., Nat.le_succ _⟩
      · intro z mem
        have lt := first z mem
        omega
      intro u
      have eta : (⟨y.addr, y.size⟩ : Block) = y := rfl
      rw [has_join, touch, cover_cons, eta]
      omega
    rw [if_neg touch]
    refine ⟨s, y :: post, y.addr, rfl, ⟨rfl, rest⟩, ?_, fun z mem => mem, order, fun _ => rfl,
      le_rfl,
      le_rfl⟩
    intro z mem
    rcases mem_cons.1 mem with rfl | mem
    · omega
    have lt := first z mem
    omega

theorem cover_base (base : Nat) (l : List Block) (u : Nat) :
    cover ((⟨base, 0⟩ : Block) :: l) u = cover l u := by
  rw [cover_cons, if_neg, add_zero]
  rintro ⟨low, high⟩
  exact absurd high (Nat.not_lt.2 low)

theorem Ring.of_list {mem : Nat → Header} (p : Block) (rest : List Block)
    (first : pre = [] → p = ⟨base, 0⟩) (head : ∀ x l, pre = x :: l → x = ⟨base, 0⟩)
    (links : Segment Block.addr (fun a => (mem a).ptr) base (pre ++ p :: rest) base)
    (sizes : ∀ x ∈ pre ++ p :: rest, (mem x.addr).size = x.size)
    (sorted : (pre ++ p :: rest).Pairwise fun x y => x.addr + x.size < y.addr) :
    ∃ blocks', pre ++ p :: rest = ⟨base, 0⟩ :: blocks' ∧ Ring mem base blocks' := by
  have begins : ∃ blocks', pre ++ p :: rest = ⟨base, 0⟩ :: blocks' := by
    cases pre with
    | nil => exact ⟨rest, by rw [first rfl]; rfl⟩
    | cons x l => exact ⟨l ++ p :: rest, by rw [head x l rfl]; rfl⟩
  obtain ⟨blocks', eq⟩ := begins
  rw [eq] at links sizes sorted
  exact ⟨blocks', eq, links, sizes, sorted⟩

variable {x : Block}

section

variable (split : (⟨base, 0⟩ : Block) :: blocks = pre ++ p :: post)
include split

theorem head_of_split {l : List Block} (eq : pre = x :: l) : x = ⟨base, 0⟩ := by
  rw [eq] at split
  exact (List.cons.inj split).1.symm

theorem first_of_split (none : pre = []) : p = ⟨base, 0⟩ := by
  rw [none] at split
  exact (List.cons.inj split).1.symm

end

theorem Ring.base_lt {mem : Nat → Header} (ring : Ring mem base blocks) (member : x ∈ blocks) :
    base < x.addr := by
  have lt := (pairwise_cons.1 ring.sorted).1 x member
  change base + 0 < x.addr at lt
  omega

theorem Ring.splice {mem mem' : Nat → Header} (ring : Ring mem base blocks)
    (split : (⟨base, 0⟩ : Block) :: blocks = pre ++ p :: post) (p' : Block) (m : List Block)
    {post' : List Block} {e : Nat} (addr : p'.addr = p.addr) (first : pre = [] → p' = ⟨base, 0⟩)
    (same : ∀ x, x ∈ pre ∨ x ∈ post' → mem' x.addr = mem x.addr) (sub : ∀ x ∈ post', x ∈ post)
    (order : post'.Pairwise fun x y => x.addr + x.size < y.addr)
    (rest : Segment Block.addr (fun a => (mem a).ptr) e post' base)
    (links : Segment Block.addr (fun a => (mem' a).ptr) p.addr (p' :: m) e)
    (sizes : ∀ x ∈ p' :: m, (mem' x.addr).size = x.size)
    (sorted : (p' :: m).Pairwise fun x y => x.addr + x.size < y.addr)
    (gap : ∀ x ∈ p' :: m, ∀ y ∈ post', x.addr + x.size < y.addr) :
    ∃ blocks', pre ++ p' :: (m ++ post') = ⟨base, 0⟩ :: blocks' ∧ Ring mem' base blocks' ∧
      ∀ x ∈ blocks', x ∈ p' :: m ∨ x ∈ blocks := by
  have links₀ := ring.links
  have sizes₀ := ring.sizes
  have sorted₀ := ring.sorted
  rw [split] at links₀ sizes₀ sorted₀
  obtain ⟨below, -, across⟩ := pairwise_append.1 sorted₀
  have inPost : ∀ x ∈ post', x ∈ pre ++ p :: post :=
    fun x mem => mem_append_right _ (mem_cons_of_mem p (sub x mem))
  obtain ⟨blocks', eq, ring'⟩ := Ring.of_list p' (m ++ post') first (fun x l => head_of_split split)
    (Segment.append_iff.2 ⟨p.addr, (Segment.split_iff.1 links₀).1.congr fun x mem => congrArg Header.ptr (same x (.inl mem)),
      Segment.append_iff.2 ⟨e, links, rest.congr fun x mem => congrArg Header.ptr (same x (.inr mem))⟩⟩)
    (fun x mem => by
      rcases mem_append.1 mem with inPre | mem
      · rw [same x (.inl inPre)]
        exact sizes₀ x (mem_append_left _ inPre)
      rcases mem_append.1 (show x ∈ (p' :: m) ++ post' from mem) with new | old
      · exact sizes x new
      rw [same x (.inr old)]
      exact sizes₀ x (inPost x old))
    (pairwise_append.2 ⟨below, pairwise_append.2 ⟨sorted, order, gap⟩, fun x inPre y mem => by
      rcases mem_append.1 (show y ∈ (p' :: m) ++ post' from mem) with new | old
      · have lt := across x inPre p mem_cons_self
        rcases mem_cons.1 new with rfl | new
        · rw [addr]
          exact lt
        have up := (pairwise_cons.1 sorted).1 y new
        omega
      exact across x inPre y (mem_cons_of_mem p (sub y old))⟩)
  refine ⟨blocks', eq, ring', fun x member => ?_⟩
  have high := ring'.base_lt member
  have inside : x ∈ pre ++ ((p' :: m) ++ post') := by
    show x ∈ pre ++ p' :: (m ++ post')
    rw [eq]
    exact mem_cons_of_mem _ member
  have stays : x ∈ pre ++ p :: post → x ∈ blocks := by
    intro old
    rw [← split] at old
    rcases mem_cons.1 old with rfl | old
    · exact absurd high (lt_irrefl base)
    exact old
  rcases mem_append.1 inside with inPre | inside
  · exact .inr (stays (mem_append_left _ inPre))
  rcases mem_append.1 inside with new | old
  · exact .inl new
  exact .inr (stays (inPost x old))

section

variable (cut : Cut base bp blocks pre p post)
include cut

theorem Cut.mem_of (member : x ∈ pre ++ p :: post) (high : base < x.addr) : x ∈ blocks := by
  rw [← cut.split] at member
  rcases mem_cons.1 member with rfl | member
  · exact absurd high (lt_irrefl base)
  exact member

theorem Cut.of_here (high : base < p.addr) : p ∈ blocks :=
  cut.mem_of (mem_append_right _ mem_cons_self) high

theorem Cut.of_post (member : x ∈ post) : x ∈ blocks := by
  refine cut.mem_of (mem_append_right _ (mem_cons_of_mem p member)) ?_
  have low := cut.base_le
  have here := cut.here
  have above := cut.above x member
  omega

end

structure Freed (base bp s : Nat) (h : Heap) (blocks : List Block) (h' : Heap) (blocks' : List Block) : Prop where
  ring : Ring h'.mem base blocks'
  covers : ∀ u, cover blocks' u = cover blocks u + if (⟨bp, s⟩ : Block).Has u then 1 else 0
  start : ∃ x ∈ (⟨base, 0⟩ : Block) :: blocks', x.addr = h'.freep
  frame : ∀ a, a ≠ bp → (∀ x ∈ (⟨base, 0⟩ : Block) :: blocks, x.addr ≠ a) → h'.mem a = h.mem a
  positive : (∀ x ∈ blocks, 0 < x.size) → 0 < s → ∀ x ∈ blocks', 0 < x.size
  length : blocks'.length ≤ blocks.length + 1
  /-- the block is found behind `freep`, or `freep` has become it -/
  found : ∃ x ∈ blocks', s ≤ x.size ∧ (x.addr = h'.freep ∨ x.addr = (h'.mem h'.freep).ptr)

/-- `free` puts a block between its neighbours in the ring, and joins it with those it touches. -/
theorem Ring.free (ring : Ring h.mem base blocks) (cut : Cut base bp blocks pre p post)
    (start : ∃ x ∈ (⟨base, 0⟩ : Block) :: blocks, x.addr = h.freep) (size : (h.mem bp).size = s)
    (clear : p.addr + p.size ≤ bp) (clear' : ∀ y ∈ post, bp + s ≤ y.addr) {rounds : Nat}
    (enough : blocks.length < rounds) :
    ∃ h' blocks', Umalloc.free rounds h (bp + 1) = some h' ∧
      Freed base bp s h blocks h' blocks' := by
  have placed := ring.place cut start enough
  obtain ⟨s', post', q, mem₁, rest, joined⟩ := ring.joinRight cut size clear'
  have here := cut.here
  have ne : p.addr ≠ bp := by omega
  have psize : (h.mem p.addr).size = p.size := ring.sizes p (by rw [cut.split]; simp)
  -- the two headers that change
  obtain ⟨mem', mem_eq⟩ : ∃ m, m = (joinLeft (Umalloc.joinRight h bp p.addr) bp p.addr).mem :=
    ⟨_, rfl⟩
  have atP : mem' p.addr = if p.addr + p.size = bp then ⟨q, p.size + s'⟩ else ⟨bp, p.size⟩ := by
    rw [mem_eq, joinLeft_mem, upd_self, mem₁, upd_ne ne, upd_self, psize]
  have atBp : mem' bp = ⟨q, s'⟩ := by rw [mem_eq, joinLeft_mem, upd_ne ne.symm, mem₁, upd_self]
  have other : ∀ a, a ≠ bp → a ≠ p.addr → mem' a = h.mem a := by
    intro a neB neP
    rw [mem_eq, joinLeft_mem, upd_ne neP, mem₁, upd_ne neB]
  have same : ∀ x, x ∈ pre ∨ x ∈ post' → mem' x.addr = h.mem x.addr := by
    rintro x (inPre | inPost)
    · have lt := cut.below x inPre
      exact other _ (by omega) (by omega)
    have lt := joined.gap x inPost
    exact other _ (by omega) (by omega)
  have runs : Umalloc.free rounds h (bp + 1) = some ⟨mem', p.addr⟩ := by
    rw [Umalloc.free, Nat.add_sub_cancel, placed, mem_eq]
    rfl
  have frame : ∀ a, a ≠ bp → (∀ x ∈ (⟨base, 0⟩ : Block) :: blocks, x.addr ≠ a) →
      mem' a = h.mem a := by
    intro a neB outside
    exact other a neB (outside p (by rw [cut.split]; simp)).symm
  have whole : ∀ u, cover blocks u = cover pre u + cover post u + if p.Has u then 1 else 0 := by
    intro u
    rw [← cover_base base, cut.split, cover_append, cover_cons, add_assoc]
  have length := congrArg List.length cut.split
  have short := joined.short
  have low := cut.base_le
  by_cases touch : p.addr + p.size = bp
  · rw [if_pos touch] at atP
    obtain ⟨blocks', eq, ring', members⟩ := ring.splice cut.split ⟨p.addr,
      p.size + s'⟩ [] rfl (fun none => by
        have base' := first_of_split cut.split none
        rw [base'] at touch here
        change base + 0 = bp at touch
        change base < bp at here
        omega)
      same joined.sub joined.order rest ⟨rfl, by show (mem' p.addr).ptr = q; rw [atP]⟩
      (fun x mem => by rw [mem_singleton.1 mem, atP]) (pairwise_singleton _ _)
      (fun x mem y inPost => by
        have gap := joined.gap y inPost
        rw [mem_singleton.1 mem]
        show p.addr + (p.size + s') < y.addr
        omega)
    have member : (⟨p.addr, p.size + s'⟩ : Block) ∈ (⟨base, 0⟩ : Block) :: blocks' := by
      rw [← eq]
      simp
    have large : s ≤ p.size + s' := Nat.le_trans joined.grows (Nat.le_add_left ..)
    refine ⟨_, blocks', runs, ring', fun u => ?_, ⟨_, member, rfl⟩, frame,
      fun positive some x mem => ?_, ?_, ?_⟩
    · have count := joined.covers u
      have eta : (⟨p.addr, p.size⟩ : Block) = p := rfl
      rw [whole, ← cover_base base blocks', ← eq, cover_append, List.nil_append, cover_cons,
        has_join, touch, eta]
      omega
    · rcases members x mem with new | old
      · rw [mem_singleton.1 new]
        exact lt_of_lt_of_le some large
      exact positive x old
    · have length' := congrArg List.length eq
      simp only [length_cons, length_append, length_nil] at length length'
      omega
    refine ⟨_, (mem_cons.1 member).resolve_left fun same => ?_, large, .inl rfl⟩
    have zero : p.size + s' = 0 := congrArg Block.size same
    omega
  rw [if_neg touch] at atP
  obtain ⟨blocks', eq, ring', members⟩ := ring.splice cut.split p [⟨bp,
    s'⟩] rfl (first_of_split cut.split)
    same joined.sub joined.order rest
    ⟨rfl, by show bp = (mem' p.addr).ptr; rw [atP], by show (mem' (mem' p.addr).ptr).ptr = q; rw [atP, atBp]⟩
    (fun x mem => by
      rcases mem_cons.1 mem with rfl | mem
      · rw [atP]
      rw [mem_singleton.1 mem, atBp])
    (pairwise_cons.2 ⟨fun y mem => by
      rw [mem_singleton.1 mem]
      show p.addr + p.size < bp
      omega, pairwise_singleton _ _⟩)
    (fun x mem y inPost => by
      have gap := joined.gap y inPost
      rcases mem_cons.1 mem with rfl | mem
      · omega
      rw [mem_singleton.1 mem]
      exact gap)
  have memberP : p ∈ (⟨base, 0⟩ : Block) :: blocks' := by
    rw [← eq]
    simp
  have member : (⟨bp, s'⟩ : Block) ∈ (⟨base, 0⟩ : Block) :: blocks' := by
    rw [← eq]
    simp
  refine ⟨_, blocks', runs, ring', fun u => ?_, ⟨p, memberP, rfl⟩, frame,
    fun positive some x mem => ?_, ?_, ?_⟩
  · have count := joined.covers u
    rw [whole, ← cover_base base blocks', ← eq, cover_append, cover_cons, List.singleton_append,
      cover_cons]
    omega
  · rcases members x mem with new | old
    · rcases mem_cons.1 new with rfl | new
      · exact positive x (cut.of_here (ring'.base_lt mem))
      rw [mem_singleton.1 new]
      exact lt_of_lt_of_le some joined.grows
    exact positive x old
  · have length' := congrArg List.length eq
    simp only [length_cons, length_append, length_nil] at length length'
    omega
  refine ⟨_, (mem_cons.1 member).resolve_left fun same => ?_, joined.grows, .inr ?_⟩
  · have eq : bp = base := congrArg Block.addr same
    omega
  show bp = (mem' p.addr).ptr
  rw [atP]

/-- `Ring.free` for a block that no free block overlaps. -/
theorem Ring.free_of_clear (ring : Ring h.mem base blocks)
    (start : ∃ x ∈ (⟨base, 0⟩ : Block) :: blocks, x.addr = h.freep)
    (positive : ∀ x ∈ blocks, 0 < x.size) (size : (h.mem bp).size = s) (units : 0 < s)
    (low : base < bp) (clear : ∀ u, (⟨bp, s⟩ : Block).Has u → cover blocks u = 0) {rounds : Nat}
    (enough : blocks.length < rounds) :
    ∃ h' blocks', Umalloc.free rounds h (bp + 1) = some h' ∧
      Freed base bp s h blocks h' blocks' := by
  have apart : ∀ {x u}, x ∈ blocks → x.Has u → ¬(⟨bp, s⟩ : Block).Has u := by
    intro x u member has mine
    have pos := cover_pos member has
    rw [clear u mine] at pos
    exact absurd pos (lt_irrefl 0)
  have other : ∀ y ∈ blocks, y.addr ≠ bp := by
    rintro y member rfl
    have pos := positive y member
    exact apart member ⟨le_rfl, by omega⟩ ⟨le_rfl, show y.addr < y.addr + s by omega⟩
  obtain ⟨pre, p, post, cut⟩ := ring.exists_cut low other
  have here := cut.here
  refine ring.free cut start size ?_ ?_ enough
  · by_contra inside
    have high : base < p.addr := by
      by_contra ground
      have member : p ∈ (⟨base, 0⟩ : Block) :: blocks := by
        rw [cut.split]
        simp
      rcases mem_cons.1 member with rfl | member
      · change ¬base + 0 ≤ bp at inside
        omega
      exact ground (ring.base_lt member)
    exact apart (u := bp) (cut.of_here high) ⟨here.le, by omega⟩ ⟨le_rfl, show bp < bp + s by omega⟩
  intro y member
  have above := cut.above y member
  have pos := positive y (cut.of_post member)
  by_contra inside
  exact apart (cut.of_post member) ⟨le_rfl, by omega⟩ ⟨above.le, show y.addr < bp + s by omega⟩

end Free

/-! ## `malloc` -/

section Take

variable {h : Heap} {base n : Nat} {blocks : List Block}

/-- What taking `n` units leaves: `r` is what `malloc` returns. -/
structure Took (base n : Nat) (h : Heap) (blocks : List Block) (h' : Heap) (r : Nat) (blocks' : List Block) : Prop where
  ring : Ring h'.mem base blocks'
  covers : ∀ u, cover blocks' u + (if (⟨r - 1, n⟩ : Block).Has u then 1 else 0) = cover blocks u
  start : ∃ x ∈ (⟨base, 0⟩ : Block) :: blocks', x.addr = h'.freep
  positive : ∀ x ∈ blocks', 0 < x.size
  size : (h'.mem (r - 1)).size = n
  high : base < r - 1
  frame : ∀ a, a ≠ r - 1 → (∀ x ∈ (⟨base, 0⟩ : Block) :: blocks, x.addr ≠ a) → h'.mem a = h.mem a

/-- Two blocks of the ring, one behind the other, and what is before and after them. -/
structure Around (blocks : List Block) (h : Heap) (base : Nat) (u : List Block) (q x : Block) (v : List Block) : Prop where
  sizeQ : (h.mem q.addr).size = q.size
  sizeX : (h.mem x.addr).size = x.size
  next : (h.mem q.addr).ptr = x.addr
  rest : Segment Block.addr (fun a => (h.mem a).ptr) (h.mem x.addr).ptr v base
  order : v.Pairwise fun x y => x.addr + x.size < y.addr
  gap : q.addr + q.size < x.addr
  before : ∀ y ∈ u, y.addr < q.addr ∧ y.addr < x.addr
  after : ∀ y ∈ v, q.addr + q.size < y.addr ∧ x.addr + x.size < y.addr
  covers : ∀ w, cover blocks w = cover u w + cover v w + (if q.Has w then 1 else 0) + if x.Has w then 1 else 0

variable {q x : Block} {u v : List Block}

theorem Ring.around (ring : Ring h.mem base blocks)
    (split : (⟨base, 0⟩ : Block) :: blocks = u ++ q :: x :: v) : Around blocks h base u q x v := by
  have links := ring.links
  have sizes := ring.sizes
  have order := ring.sorted
  rw [split] at links sizes order
  obtain ⟨-, next, rest⟩ := Segment.split_iff.1 links
  obtain ⟨-, orderQ, across⟩ := pairwise_append.1 order
  obtain ⟨afterQ, orderX⟩ := pairwise_cons.1 orderQ
  obtain ⟨afterX, order⟩ := pairwise_cons.1 orderX
  have gap := afterQ x mem_cons_self
  refine ⟨sizes q (by simp), sizes x (by simp), next.symm, ?_, order, gap, fun y mem => ?_,
    fun y mem => ?_, fun w => ?_⟩
  · rw [next]
    exact rest
  · have lt := across y mem q mem_cons_self
    exact ⟨by omega, by omega⟩
  · exact ⟨afterQ y (mem_cons_of_mem x mem), afterX y mem⟩
  rw [← cover_base base, split, cover_append, cover_cons, cover_cons]
  omega

theorem Ring.behind (ring : Ring h.mem base blocks) (prev : q ∈ (⟨base, 0⟩ : Block) :: blocks)
    (member : x ∈ blocks) (next : (h.mem q.addr).ptr = x.addr) :
    ∃ u v, (⟨base, 0⟩ : Block) :: blocks = u ++ q :: x :: v := by
  have high := ring.base_lt member
  have xsize : (h.mem x.addr).size = x.size := ring.sizes x (mem_cons_of_mem _ member)
  obtain ⟨u, v, split⟩ := append_of_mem prev
  have links := ring.links
  rw [split] at links
  obtain ⟨-, rest⟩ := Segment.split_iff.1 links
  rw [next] at rest
  cases v with
  | nil =>
    have eq : x.addr = base := rest
    omega
  | cons y v =>
    have eq : y.addr = x.addr := rest.1
    have ysize : (h.mem y.addr).size = y.size := ring.sizes y (by rw [split]; simp)
    rw [eq, xsize] at ysize
    obtain ⟨ya, ys⟩ := y
    obtain ⟨xa, xs⟩ := x
    cases eq
    cases ysize
    exact ⟨u, v, split⟩

theorem Ring.positive_of_high (prev : q ∈ (⟨base, 0⟩ : Block) :: blocks)
    (positive : ∀ x ∈ blocks, 0 < x.size) (up : base < q.addr) : 0 < q.size := by
  rcases mem_cons.1 prev with rfl | member
  · exact absurd up (lt_irrefl base)
  exact positive q member

section

variable (ring : Ring h.mem base blocks)
include ring

section

variable (positive : ∀ x ∈ blocks, 0 < x.size)
include positive

/-- `malloc` takes a block of exactly the size out of the ring. -/
theorem Ring.take_all
    (split : (⟨base, 0⟩ : Block) :: blocks = u ++ q :: x :: v) (high : base < x.addr)
    (all : x.size = n) :
    ∃ blocks', Took base n h blocks (Umalloc.take h n q.addr x.addr).1 (Umalloc.take h n q.addr x.addr).2 blocks' := by
  have around := ring.around split
  have gap := around.gap
  have prev : q ∈ (⟨base, 0⟩ : Block) :: blocks := by
    rw [split]
    simp
  obtain ⟨mem', mem_eq⟩ : ∃ m, m =
    upd h.mem q.addr { h.mem q.addr with ptr := (h.mem x.addr).ptr } := ⟨_, rfl⟩
  have took : Umalloc.take h n q.addr x.addr = (⟨mem', q.addr⟩, x.addr + 1) := by
    rw [Umalloc.take, if_pos (around.sizeX.trans all), mem_eq]
    rfl
  have other : ∀ a, a ≠ q.addr → mem' a = h.mem a := fun a ne => by rw [mem_eq, upd_ne ne]
  have atQ : mem' q.addr =
      { h.mem q.addr with ptr := (h.mem x.addr).ptr } := by rw [mem_eq, upd_self]
  have same : ∀ y, y ∈ u ∨ y ∈ v → mem' y.addr = h.mem y.addr := by
    rintro y (inU | inV)
    · exact other _ (Nat.ne_of_lt (around.before y inU).1)
    have lt := (around.after y inV).1
    exact other _ (by omega)
  obtain ⟨blocks', eq, ring', members⟩ := ring.splice split q [] rfl (first_of_split split) same
    (fun y mem => mem_cons_of_mem x mem) around.order around.rest
    ⟨rfl, by show (mem' q.addr).ptr = _; rw [atQ]⟩
    (fun y mem => by
      rw [mem_singleton.1 mem, atQ]
      exact around.sizeQ)
    (pairwise_singleton _ _)
    (fun y mem z inV => by
      rw [mem_singleton.1 mem]
      exact (around.after z inV).1)
  rw [took]
  refine ⟨blocks', ring', fun w => ?_, ⟨q, by rw [← eq]; simp, rfl⟩, fun y mem => ?_, ?_, high,
    fun a _ outside => ?_⟩
  · have mine : (⟨x.addr + 1 - 1, n⟩ : Block) = x := by rw [Nat.add_sub_cancel, ← all]
    rw [around.covers, ← cover_base base blocks', ← eq, cover_append, List.nil_append, cover_cons,
      mine]
    omega
  · rcases members y mem with new | old
    · have up := ring'.base_lt mem
      rw [mem_singleton.1 new] at up ⊢
      exact Ring.positive_of_high prev positive up
    exact positive y old
  · show (mem' x.addr).size = n
    rw [other x.addr (by omega), around.sizeX, all]
  exact other a (outside q prev).symm

/-- Of a larger block it takes the end. -/
theorem Ring.take_end
    (split : (⟨base, 0⟩ : Block) :: blocks = u ++ q :: x :: v) (high : base < x.addr)
    (more : n < x.size) (units : 0 < n) :
    ∃ blocks', Took base n h blocks (Umalloc.take h n q.addr x.addr).1 (Umalloc.take h n q.addr x.addr).2 blocks' := by
  have around := ring.around split
  have gap := around.gap
  have prev : q ∈ (⟨base, 0⟩ : Block) :: blocks := by
    rw [split]
    simp
  obtain ⟨e, end_eq⟩ : ∃ e, e = x.addr + (x.size - n) := ⟨_, rfl⟩
  have inX : x.addr < e ∧ e + n = x.addr + x.size := by omega
  obtain ⟨mem', mem_eq⟩ : ∃ m, m = upd
      (upd h.mem x.addr { h.mem x.addr with size := x.size - n }) e { h.mem e with size := n } := ⟨_, rfl⟩
  have took : Umalloc.take h n q.addr x.addr = (⟨mem', q.addr⟩, e + 1) := by
    have ne : e ≠ x.addr := by omega
    rw [Umalloc.take, if_neg (by rw [around.sizeX]; omega), mem_eq]
    simp only [Heap.setSize, upd_self, around.sizeX, ← end_eq, upd_ne ne]
  have other : ∀ a, a ≠ x.addr → a ≠ e → mem' a = h.mem a :=
    fun a ne ne' => by rw [mem_eq, upd_ne ne', upd_ne ne]
  have atX : mem' x.addr =
      { h.mem x.addr with size := x.size - n } := by rw [mem_eq, upd_ne (by omega), upd_self]
  have atQ : mem' q.addr = h.mem q.addr := other _ (by omega) (by omega)
  have same : ∀ y, y ∈ u ∨ y ∈ v → mem' y.addr = h.mem y.addr := by
    rintro y (inU | inV)
    · have lt := (around.before y inU).2
      exact other _ (by omega) (by omega)
    have lt := (around.after y inV).2
    exact other _ (by omega) (by omega)
  obtain ⟨blocks', eq, ring', members⟩ := ring.splice split q [⟨x.addr,
    x.size - n⟩] rfl (first_of_split split) same
    (fun y mem => mem_cons_of_mem x mem) around.order around.rest
    ⟨rfl, by show x.addr = (mem' q.addr).ptr; rw [atQ, around.next], by
      show (mem' (mem' q.addr).ptr).ptr = _
      rw [atQ, around.next, atX]⟩
    (fun y mem => by
      rcases mem_cons.1 mem with rfl | mem
      · rw [atQ]
        exact around.sizeQ
      rw [mem_singleton.1 mem, atX])
    (pairwise_cons.2 ⟨fun y mem => by rw [mem_singleton.1 mem]; exact gap, pairwise_singleton _ _⟩)
    (fun y mem z inV => by
      obtain ⟨afterQ, afterX⟩ := around.after z inV
      rcases mem_cons.1 mem with rfl | mem
      · exact afterQ
      rw [mem_singleton.1 mem]
      show x.addr + (x.size - n) < z.addr
      omega)
  rw [took]
  refine ⟨blocks', ring', fun w => ?_, ⟨q, by rw [← eq]; simp, rfl⟩, fun y mem => ?_, ?_, ?_,
    fun a ne outside => ?_⟩
  · have mine : x.Has w ↔ (⟨x.addr,
        x.size - n + n⟩ : Block).Has w := by rw [Nat.sub_add_cancel (more.le)]
    have count := has_join x.addr (x.size - n) n w
    rw [if_congr mine.symm rfl rfl, ← end_eq] at count
    rw [around.covers, ← cover_base base blocks', ← eq, cover_append, cover_cons,
      List.singleton_append, cover_cons,
      count, Nat.add_sub_cancel]
    omega
  · rcases members y mem with new | old
    · rcases mem_cons.1 new with rfl | new
      · exact Ring.positive_of_high prev positive (ring'.base_lt mem)
      rw [mem_singleton.1 new]
      show 0 < x.size - n
      omega
    exact positive y old
  · show (mem' e).size = n
    rw [mem_eq, upd_self]
  · show base < e
    omega
  exact other a (outside x (by rw [split]; simp)).symm ne

theorem Ring.take
    (prev : q ∈ (⟨base, 0⟩ : Block) :: blocks) (member : x ∈ blocks)
    (next : (h.mem q.addr).ptr = x.addr)
    (fits : n ≤ x.size) (units : 0 < n) :
    ∃ blocks', Took base n h blocks (Umalloc.take h n q.addr x.addr).1 (Umalloc.take h n q.addr x.addr).2 blocks' := by
  obtain ⟨u, v, split⟩ := ring.behind prev member next
  by_cases all : x.size = n
  · exact ring.take_all positive split (ring.base_lt member) all
  exact ring.take_end positive split (ring.base_lt member) (by omega) units

end

end

end Take

section Scan

variable {h : Heap} {base n : Nat} {blocks : List Block} (rounds : Nat) (sbrk : Nat → Option Nat)

variable {l : List Block}

theorem mallocLoop_pass (k calls : Nat) : ∀ {q : Block} {a e : Nat},
    Segment Block.addr (fun a => (h.mem a).ptr) a l e → (h.mem q.addr).ptr = a →
    (∀ y ∈ l, (h.mem y.addr).size < n ∧ y.addr ≠ h.freep) →
    ∃ q', (q' = q ∨ q' ∈ l) ∧ (h.mem q'.addr).ptr = e ∧
      mallocLoop rounds sbrk n (l.length + k) h q.addr a calls =
        mallocLoop rounds sbrk n k h q'.addr e calls := by
  induction l with
  | nil =>
    rintro q a e rfl next -
    exact ⟨q, .inl rfl, next, by rw [length_nil, zero_add]⟩
  | cons y l ih =>
    rintro q a e ⟨rfl, seg⟩ next small
    obtain ⟨short, other⟩ := small y mem_cons_self
    obtain ⟨q', from', next', eq⟩ :=
      ih (q := y) seg rfl fun z mem => small z (mem_cons_of_mem y mem)
    refine ⟨q', ?_, next', ?_⟩
    · rcases from' with rfl | mem
      · exact .inr mem_cons_self
      exact .inr (mem_cons_of_mem y mem)
    rw [length_cons, show l.length + 1 + k = l.length + k + 1 by omega, mallocLoop,
      if_neg (not_le.2 short), if_neg other]
    exact eq

theorem Ring.congr {mem mem' : Nat → Header} (ring : Ring mem base blocks)
    (same : ∀ x ∈ (⟨base, 0⟩ : Block) :: blocks, mem' x.addr = mem x.addr) :
    Ring mem' base blocks := by
  refine ⟨ring.links.congr fun x mem => congrArg Header.ptr (same x mem), fun x mem => ?_,
    ring.sorted⟩
  rw [same x mem]
  exact ring.sizes x mem

section

variable (ring : Ring h.mem base blocks)
include ring

/-- The ring, read from the block at `freep`. -/
theorem Ring.rotate (start : ∃ x ∈ (⟨base, 0⟩ : Block) :: blocks, x.addr = h.freep) :
    ∃ f l, f.addr = h.freep ∧ f ∈ (⟨base, 0⟩ : Block) :: blocks ∧
      Segment Block.addr (fun a => (h.mem a).ptr) (h.mem f.addr).ptr l f.addr ∧ (∀ y ∈ l, y.addr ≠ h.freep) ∧
      (∀ y, y ∈ (⟨base, 0⟩ : Block) :: blocks ↔ y ∈ l ∨ y = f) ∧ l.length = blocks.length := by
  obtain ⟨f, member, eq⟩ := start
  obtain ⟨u, v, split⟩ := append_of_mem member
  have links := ring.links
  have order := ring.sorted
  have length := congrArg List.length split
  rw [split] at links order
  simp only [length_cons, length_append] at length
  obtain ⟨front, rest⟩ := Segment.split_iff.1 links
  obtain ⟨-, orderV, across⟩ := pairwise_append.1 order
  refine ⟨f, v ++ u, eq, member, Segment.append_iff.2 ⟨base, rest, front⟩, fun y mem => ?_,
    fun y => ?_, ?_⟩
  · rw [← eq]
    rcases mem_append.1 mem with inV | inU
    · have lt := (pairwise_cons.1 orderV).1 y inV
      omega
    have lt := across y inU f mem_cons_self
    omega
  · rw [split]
    simp only [mem_append, mem_cons]
    constructor
    · rintro (inU | rfl | inV)
      · exact .inl (.inr inU)
      · exact .inr rfl
      exact .inl (.inl inV)
    rintro ((inV | inU) | rfl)
    · exact .inr (.inr inV)
    · exact .inl inU
    exact .inr (.inl rfl)
  rw [length_append]
  omega

/-- The loop of `malloc` takes units of a block of the ring, when one is large enough. -/
theorem Ring.loop_takes (positive : ∀ x ∈ blocks, 0 < x.size)
    (start : ∃ x ∈ (⟨base, 0⟩ : Block) :: blocks, x.addr = h.freep) (units : 0 < n)
    (large : ∃ x ∈ blocks, n ≤ x.size) {k : Nat} (enough : blocks.length < k) (calls : Nat) :
    ∃ h' r blocks', mallocLoop rounds sbrk n k h h.freep (h.mem h.freep).ptr calls =
      some ⟨h', r, calls⟩ ∧
      Took base n h blocks h' r blocks' := by
  obtain ⟨f, l, eq, member, seg, others, all, length⟩ := ring.rotate start
  obtain ⟨x, inBlocks, fits⟩ := large
  have circle : Segment Block.addr (fun a => (h.mem a).ptr) (h.mem f.addr).ptr (l ++ [f])
      (h.mem f.addr).ptr :=
    Segment.split_iff.2 ⟨seg, rfl⟩
  have visited : x ∈ l ++ [f] := by
    rcases (all x).1 (mem_cons_of_mem _ inBlocks) with mem | rfl
    · exact mem_append_left _ mem
    exact mem_append_right _ (List.mem_singleton_self x)
  -- the first block that is large enough
  obtain ⟨y, found⟩ : ∃ y, (l ++ [f]).find? (fun y => n ≤ y.size) = some y := by
    cases found : (l ++ [f]).find? (fun y => n ≤ y.size) with
    | none => exact absurd (decide_eq_true fits) (List.find?_eq_none.1 found x visited)
    | some y => exact ⟨y, rfl⟩
  obtain ⟨large, pre, post, split, small⟩ := List.find?_eq_some_iff_append.1 found
  have fitsY : n ≤ y.size := of_decide_eq_true large
  have inRing : y ∈ (⟨base, 0⟩ : Block) :: blocks := by
    have mem : y ∈ l ++ [f] := by
      rw [split]
      simp
    rcases mem_append.1 mem with inL | inF
    · exact (all y).2 (.inl inL)
    exact (all y).2 (.inr (mem_singleton.1 inF))
  have inBlocksY : y ∈ blocks := by
    rcases mem_cons.1 inRing with rfl | mem
    · change n ≤ 0 at fitsY
      omega
    exact mem
  have sub : ∀ z ∈ pre, z ∈ l := by
    intro z mem
    have cut := congrArg List.dropLast split
    rw [List.dropLast_concat, List.dropLast_append_of_ne_nil (List.cons_ne_nil y post)] at cut
    rw [cut]
    exact mem_append_left _ mem
  rw [split] at circle
  have path := (Segment.split_iff.1 circle).1
  have passes : ∀ z ∈ pre, (h.mem z.addr).size < n ∧ z.addr ≠ h.freep := by
    intro z mem
    refine ⟨?_, others z (sub z mem)⟩
    rw [ring.sizes z ((all z).2 (.inl (sub z mem)))]
    have no := small z mem
    simpa using no
  have short : pre.length + 1 ≤ k := by
    have total := congrArg List.length split
    simp only [length_append, length_cons, length_nil] at total
    omega
  obtain ⟨q, from', next, run⟩ :=
    mallocLoop_pass rounds sbrk (k - pre.length - 1 + 1) calls (q := f) path rfl passes
  have prev : q ∈ (⟨base, 0⟩ : Block) :: blocks := by
    rcases from' with rfl | mem
    · exact member
    exact (all q).2 (.inl (sub q mem))
  obtain ⟨blocks', took⟩ := ring.take positive prev inBlocksY next fitsY units
  refine ⟨_, _, blocks', ?_, took⟩
  rw [← eq]
  rw [show pre.length + (k - pre.length - 1 + 1) = k by omega] at run
  rw [run, mallocLoop, if_pos (by rw [ring.sizes y inRing]; exact fitsY)]

/-- When none is, it comes back to `freep` and asks `morecore`. -/
theorem Ring.loop_asks (start : ∃ x ∈ (⟨base, 0⟩ : Block) :: blocks, x.addr = h.freep) (units : 0 < n)
    (small : ∀ x ∈ blocks, x.size < n) (k calls : Nat) :
    mallocLoop rounds sbrk n (blocks.length + (k + 1)) h h.freep (h.mem h.freep).ptr calls =
      match morecore rounds h n (sbrk calls) with
      | none => none
      | some (h, q) =>
        if q = 0 then some ⟨h, 0, calls + 1⟩ else mallocLoop rounds sbrk n k h q (h.mem q).ptr (calls + 1) := by
  obtain ⟨f, l, eq, member, seg, others, all, length⟩ := ring.rotate start
  have short : ∀ y ∈ (⟨base, 0⟩ : Block) :: blocks, (h.mem y.addr).size < n := by
    intro y mem
    rw [ring.sizes y mem]
    rcases mem_cons.1 mem with rfl | mem
    · exact units
    exact small y mem
  obtain ⟨q, -, -, run⟩ := mallocLoop_pass rounds sbrk (k + 1) calls (q := f) seg rfl
    fun y mem => ⟨short y ((all y).2 (.inl mem)), others y mem⟩
  rw [length, eq] at run
  rw [run, mallocLoop, if_neg (not_le.2 (eq ▸ short f member)), if_pos rfl]

end

/-- The regions that `malloc` got from `sbrk`. -/
def regions (n : Nat) (sbrk : Nat → Option Nat) (calls : Nat) : List Block :=
  (List.range calls).filterMap fun c => (sbrk c).map fun r => ⟨r, coreUnits n⟩

/-- The block behind what `malloc` returned. -/
def allotted (n result : Nat) : List Block := if result = 0 then [] else [⟨result - 1, n⟩]

/-- What `malloc` leaves. -/
structure Served (base n : Nat) (sbrk : Nat → Option Nat) (h : Heap) (blocks : List Block) (out : Malloc)
    (blocks' : List Block) : Prop where
  calls : out.calls ≤ 1
  asks : out.calls ≠ 0 ↔ ∀ x ∈ blocks, x.size < n
  ring : Ring out.heap.mem base blocks'
  start : ∃ x ∈ (⟨base, 0⟩ : Block) :: blocks', x.addr = out.heap.freep
  positive : ∀ x ∈ blocks', 0 < x.size
  covers : ∀ u, cover blocks' u + cover (allotted n out.result) u =
    cover blocks u + cover (regions n sbrk out.calls) u
  size : ∀ x ∈ allotted n out.result, (out.heap.mem x.addr).size = n
  frame : ∀ a, a ≠ base → cover blocks a = 0 → cover (regions n sbrk out.calls) a = 0 →
    out.heap.mem a = h.mem a

theorem cover_of_addr {x : Block} (positive : ∀ x ∈ l, 0 < x.size) (member : x ∈ l) :
    0 < cover l x.addr := by
  have pos := positive x member
  exact cover_pos member ⟨le_rfl, by omega⟩

theorem not_header (positive : ∀ x ∈ l, 0 < x.size) {a : Nat} (ne : a ≠ base)
    (clear : cover l a = 0) :
    ∀ x ∈ (⟨base, 0⟩ : Block) :: l, x.addr ≠ a := by
  rintro x mem rfl
  rcases mem_cons.1 mem with rfl | mem
  · exact ne rfl
  have pos := cover_of_addr positive mem
  omega

theorem Took.frame_of_clear {h' : Heap} {r : Nat} {blocks' : List Block}
    (took : Took base n h blocks h' r blocks') (positive : ∀ x ∈ blocks, 0 < x.size)
    (units : 0 < n) {a : Nat} (ne : a ≠ base) (clear : cover blocks a = 0) :
    h'.mem a = h.mem a := by
  refine took.frame a ?_ (not_header positive ne clear)
  rintro rfl
  have count := took.covers (r - 1)
  rw [clear, if_pos ⟨le_rfl, show r - 1 < r - 1 + n by omega⟩] at count
  omega

/-- What the loop of `malloc` returns, with at most one call of `sbrk`. -/
theorem Ring.loop_serves (ring : Ring h.mem base blocks) (positive : ∀ x ∈ blocks, 0 < x.size)
    (start : ∃ x ∈ (⟨base, 0⟩ : Block) :: blocks, x.addr = h.freep) (units : 0 < n)
    (null : 0 < base) (fresh : ∀ r, sbrk 0 = some r → base < r ∧ ∀ u, r ≤ u → cover blocks u = 0)
    (enough : 2 * blocks.length + 4 < rounds) :
    ∃ out blocks', mallocLoop rounds sbrk n rounds h h.freep (h.mem h.freep).ptr 0 = some out ∧
      Served base n sbrk h blocks out blocks' := by
  by_cases large : ∃ x ∈ blocks, n ≤ x.size
  · obtain ⟨h', r, blocks', run, took⟩ := ring.loop_takes rounds sbrk positive start units large
      (show blocks.length < rounds by omega) 0
    have given : allotted n r = [⟨r - 1, n⟩] := if_neg (by have := took.high; omega)
    have found : ¬∀ x ∈ blocks, x.size < n := by
      obtain ⟨x, mem, fits⟩ := large
      exact fun small => absurd (small x mem) (Nat.not_lt.mpr fits)
    refine ⟨_, blocks', run, Nat.zero_le 1, iff_of_false (fun asked => asked rfl) found, took.ring,
      took.start,
      took.positive, fun u => ?_, ?_, ?_⟩
    · show cover blocks' u + cover (allotted n r) u = cover blocks u + cover [] u
      rw [given, cover_cons, cover_nil, zero_add]
      exact took.covers u
    · show ∀ x ∈ allotted n r, (h'.mem x.addr).size = n
      rw [given]
      intro x mem
      rw [mem_singleton.1 mem]
      exact took.size
    exact fun a ne clear _ => took.frame_of_clear positive units ne clear
  have small : ∀ x ∈ blocks, x.size < n := by
    intro x mem
    by_contra fits
    exact large ⟨x, mem, by omega⟩
  have asks := ring.loop_asks rounds sbrk start units small (rounds - blocks.length - 1) 0
  rw [show blocks.length + (rounds - blocks.length - 1 + 1) = rounds by omega] at asks
  rw [asks]
  cases answer : sbrk 0 with
  | none =>
    have none' : regions n sbrk 1 = [] := by
      rw [regions, List.range_one, List.filterMap_cons, answer]
      rfl
    refine ⟨⟨h, 0, 1⟩, blocks, rfl, le_rfl, iff_of_true Nat.one_ne_zero small, ring, start,
      positive, fun u => ?_, nofun,
      fun a _ _ _ => rfl⟩
    show cover blocks u + cover [] u = cover blocks u + cover (regions n sbrk 1) u
    rw [none']
  | some r =>
    obtain ⟨low, clear⟩ := fresh r answer
    have core : n ≤ coreUnits n ∧ 0 < coreUnits n := by
      rw [coreUnits]
      split <;> omega
    have one : regions n sbrk 1 = [⟨r, coreUnits n⟩] := by
      rw [regions, List.range_one, List.filterMap_cons, answer]
      rfl
    -- `free` of the new region
    have outside := not_header positive (Nat.ne_of_gt low) (clear r le_rfl)
    have other : ∀ a, a ≠ r → (h.setSize r (coreUnits n)).mem a = h.mem a :=
      fun a ne => upd_ne ne _ _
    have ring₁ : Ring (h.setSize r (coreUnits n)).mem base blocks :=
      ring.congr fun x mem => other _ (outside x mem)
    obtain ⟨h₂, blocks₂, frees, freed⟩ := ring₁.free_of_clear start positive
      (congrArg Header.size (upd_self ..)) core.2 low (fun u has => clear u has.1)
      (show blocks.length < rounds by omega)
    have more : morecore rounds h n (some r) = some (h₂, h₂.freep) := by
      rw [morecore, frees]
      rfl
    have notNull : h₂.freep ≠ 0 := by
      obtain ⟨x, mem, eq⟩ := freed.start
      rw [← eq]
      rcases mem_cons.1 mem with rfl | mem
      · exact Nat.ne_of_gt null
      have lt := freed.ring.base_lt mem
      omega
    rw [more]
    dsimp only
    rw [if_neg notNull]
    have positive₂ := freed.positive positive core.2
    obtain ⟨x, mem, fits, -⟩ := freed.found
    have length := freed.length
    obtain ⟨h₃, r₃, blocks₃, run, took⟩ :=
      freed.ring.loop_takes rounds sbrk positive₂ freed.start units
      ⟨x, mem, Nat.le_trans core.1 fits⟩ (show blocks₂.length < rounds - blocks.length - 1 by omega) 1
    have given : allotted n r₃ = [⟨r₃ - 1, n⟩] := if_neg (by have := took.high; omega)
    refine ⟨_, blocks₃, run, le_rfl, iff_of_true Nat.one_ne_zero small, took.ring, took.start,
      took.positive,
      fun u => ?_, ?_, ?_⟩
    · show cover blocks₃ u + cover (allotted n r₃) u = cover blocks u + cover (regions n sbrk 1) u
      rw [given, one, cover_cons, cover_nil, zero_add, took.covers u, freed.covers u, cover_cons,
        cover_nil,
        zero_add]
    · show ∀ x ∈ allotted n r₃, (h₃.mem x.addr).size = n
      rw [given]
      intro x mem
      rw [mem_singleton.1 mem]
      exact took.size
    intro a ne clear' new
    change cover (regions n sbrk 1) a = 0 at new
    rw [one, cover_cons, cover_nil, zero_add] at new
    have no : ¬(⟨r, coreUnits n⟩ : Block).Has a := fun has => by
      rw [if_pos has] at new
      cases new
    have ne' : a ≠ r := by
      rintro rfl
      exact no ⟨le_rfl, show a < a + coreUnits n by omega⟩
    have clear₂ : cover blocks₂ a = 0 := by rw [freed.covers a, clear', if_neg no]
    calc h₃.mem a = h₂.mem a := took.frame_of_clear positive₂ units ne clear₂
      _ = (h.setSize r (coreUnits n)).mem a := freed.frame a ne' (not_header positive ne clear')
      _ = h.mem a := other a ne'

end Scan

/-! ## Runs -/

/-- A call returns `a`: with enough rounds for its loops it has this result. -/
def Returns {α : Type} (call : Nat → Option α) (a : α) : Prop := ∃ rounds, call rounds = some a

/-- More rounds do not change a result. -/
def Steady {α : Type} (call : Nat → Option α) : Prop :=
  ∀ ⦃rounds more : Nat⦄ ⦃a : α⦄, rounds ≤ more → call rounds = some a → call more = some a

theorem Returns.unique {α : Type} {call : Nat → Option α} (mono : Steady call) {a b : α}
    (first : Returns call a) (second : Returns call b) : a = b := by
  obtain ⟨m, first⟩ := first
  obtain ⟨n, second⟩ := second
  have eq := (mono (Nat.le_max_left m n) first).symm.trans (mono (Nat.le_max_right m n) second)
  exact Option.some.inj eq

theorem place_mono (mem : Nat → Header) (bp : Nat) :
    ∀ p, Steady fun rounds => place mem bp rounds p := by
  intro p rounds
  induction rounds generalizing p with
  | zero => nofun
  | succ rounds ih =>
    rintro (_ | more) a le found
    · omega
    dsimp only at found ⊢
    rw [place] at found ⊢
    split at found
    · rename_i here
      rw [if_pos here]
      exact found
    rename_i on
    rw [if_neg on]
    split at found
    · rename_i here
      rw [if_pos here]
      exact found
    rename_i on
    rw [if_neg on]
    exact ih _ (by omega) found

theorem free_mono (h : Heap) (ap : Nat) : Steady fun rounds => free rounds h ap := by
  intro rounds more a le found
  dsimp only at found ⊢
  rw [free] at found ⊢
  obtain ⟨p, placed, eq⟩ := Option.bind_eq_some_iff.1 found
  exact Option.bind_eq_some_iff.2 ⟨p, place_mono _ _ _ le placed, eq⟩

theorem morecore_mono (h : Heap) (nu : Nat) (sbrk : Option Nat) :
    Steady fun rounds => morecore rounds h nu sbrk := by
  intro rounds more a le found
  cases sbrk with
  | none => exact found
  | some p =>
    obtain ⟨h', frees, eq⟩ := Option.bind_eq_some_iff.1 found
    exact Option.bind_eq_some_iff.2 ⟨h', free_mono _ _ le frees, eq⟩

theorem mallocLoop_mono (sbrk : Nat → Option Nat) (n : Nat) {rounds more : Nat}
    (le : rounds ≤ more) {out : Malloc} :
    ∀ (k k' : Nat) (h : Heap) (prevp p calls : Nat), k ≤ k' →
      mallocLoop rounds sbrk n k h prevp p calls = some out →
      mallocLoop more sbrk n k' h prevp p calls = some out := by
  intro k
  induction k with
  | zero => nofun
  | succ k ih =>
    rintro (_ | k') h prevp p calls up found
    · omega
    rw [mallocLoop] at found ⊢
    split at found
    · rename_i fits
      rw [if_pos fits]
      exact found
    rename_i small
    rw [if_neg small]
    split at found
    swap
    · rename_i on
      rw [if_neg on]
      exact ih k' _ _ _ _ (by omega) found
    rename_i last
    rw [if_pos last]
    cases asked : morecore rounds h n (sbrk calls) with
    | none =>
      rw [asked] at found
      cases found
    | some r =>
      obtain ⟨h', q⟩ := r
      have asked' : morecore more h n (sbrk calls) = some (h', q) := morecore_mono h n _ le asked
      rw [asked] at found
      rw [asked']
      dsimp only at found ⊢
      split at found
      · rename_i zero
        rw [if_pos zero]
        exact found
      rename_i some'
      rw [if_neg some']
      exact ih k' _ _ _ _ (by omega) found

theorem malloc_mono (base : Nat) (sbrk : Nat → Option Nat) (h : Heap) (nbytes : Nat) :
    Steady fun rounds => malloc base rounds sbrk h nbytes :=
  fun _ _ _ le found => mallocLoop_mono sbrk _ le _ _ _ _ _ _ le found

/-- The heap, the blocks that the program has, and the memory obtained from `sbrk`. -/
structure State where
  heap : Heap
  live : List Block
  obtained : List Block

/-- Memory at `r` is above all that was obtained before. -/
def Fresh (base : Nat) (s : State) (r : Nat) : Prop := base < r ∧ ∀ x ∈ s.obtained, x.addr + x.size ≤ r

/-- `malloc`, `free` of a block that the program has, and stores of the program into its blocks. -/
inductive Step (base : Nat) (s : State) : State → Prop
  | malloc (sbrk : Nat → Option Nat) (nbytes : Nat) (out : Malloc)
      (fresh : ∀ r, sbrk 0 = some r → Fresh base s r)
      (returns : Returns (fun rounds => malloc base rounds sbrk s.heap nbytes) out) :
      Step base s ⟨out.heap, allotted (nunits nbytes) out.result ++ s.live,
        regions (nunits nbytes) sbrk out.calls ++ s.obtained⟩
  | free (x : Block) (live : List Block) (h : Heap) (owned : s.live.Perm (x :: live))
      (returns : Returns (fun rounds => free rounds s.heap (x.addr + 1)) h) : Step base s ⟨h, live, s.obtained⟩
  | store (mem : Nat → Header)
      (inside : ∀ a, (∀ x ∈ s.live, ¬(x.addr < a ∧ a < x.addr + x.size)) → mem a = s.heap.mem a) :
      Step base s ⟨⟨mem, s.heap.freep⟩, s.live, s.obtained⟩

/-- A program starts without a heap; `freep` is null. -/
inductive Runs (base : Nat) : State → Prop
  | start (mem : Nat → Header) : Runs base ⟨⟨mem, 0⟩, [], []⟩
  | step {s t : State} (run : Runs base s) (step : Step base s t) : Runs base t

/-- What holds in every state, with `blocks` the free ones. -/
structure Inv (base : Nat) (s : State) (blocks : List Block) : Prop where
  ring : Ring (setup base s.heap).mem base blocks
  start : ∃ x ∈ (⟨base, 0⟩ : Block) :: blocks, x.addr = (setup base s.heap).freep
  none : s.heap.freep = 0 → s.live = [] ∧ s.obtained = []
  positive : ∀ x ∈ blocks, 0 < x.size
  sizes : ∀ x ∈ s.live, (s.heap.mem x.addr).size = x.size ∧ 0 < x.size
  covers : ∀ u, cover blocks u + cover s.live u = cover s.obtained u
  once : ∀ u, cover s.obtained u ≤ 1
  above : ∀ x ∈ s.obtained, base < x.addr

section Runs

variable {base : Nat} {s t : State} {blocks : List Block}

theorem setup_of_ne {h : Heap} (ne : h.freep ≠ 0) : setup base h = h := if_neg ne

theorem setup_mem {h : Heap} {a : Nat} (ne : a ≠ base) : (setup base h).mem a = h.mem a := by
  rw [setup]
  split
  · simp only [Heap.setPtr, Heap.setSize, upd_ne ne]
  rfl

theorem setup_ring (mem : Nat → Header) : Ring (setup base ⟨mem, 0⟩).mem base [] := by
  have here : (setup base ⟨mem, 0⟩).mem base = ⟨base, 0⟩ := by
    rw [setup, if_pos rfl]
    simp only [Heap.setPtr, Heap.setSize, upd_self]
  refine ⟨⟨rfl, ?_⟩, fun x member => ?_, pairwise_singleton _ _⟩
  · show ((setup base ⟨mem, 0⟩).mem base).ptr = base
    rw [here]
  rw [mem_singleton.1 member, here]

theorem cover_two {l : List Block} {x y : Block} (inL : x ∈ l) (inL' : y ∈ l) (ne : y ≠ x)
    {u : Nat} (has : x.Has u) (has' : y.Has u) : 2 ≤ cover l u := by
  obtain ⟨a, b, rfl⟩ := append_of_mem inL
  rw [cover_append, cover_cons, if_pos has]
  have where' : y ∈ a ∨ y ∈ b := by simpa [ne] using inL'
  rcases where' with inA | inB
  · have pos := cover_pos inA has'
    omega
  have pos := cover_pos inB has'
  omega

namespace Inv

theorem live_le (inv : Inv base s blocks) (u : Nat) : cover blocks u + cover s.live u ≤ 1 := by
  rw [inv.covers u]
  exact inv.once u

variable {x : Block}

theorem clear (inv : Inv base s blocks) (member : x ∈ s.live) {u : Nat} (has : x.Has u) :
    cover blocks u = 0 := by
  have most := inv.live_le u
  have pos := cover_pos member has
  omega

theorem base_lt (inv : Inv base s blocks) (member : x ∈ s.live) {u : Nat} (has : x.Has u) :
    base < u := by
  have pos := cover_pos member has
  have count := inv.covers u
  obtain ⟨y, inY, hasY⟩ := List.countP_pos_iff.1 (show 0 < cover s.obtained u by omega)
  have low := inv.above y inY
  have hasY := of_decide_eq_true hasY
  exact lt_of_lt_of_le low hasY.1

theorem fresh (inv : Inv base s blocks) {r : Nat} (fresh : Fresh base s r) :
    base < r ∧ ∀ u, r ≤ u → cover s.obtained u = 0 ∧ cover blocks u = 0 := by
  refine ⟨fresh.1, fun u le => ?_⟩
  have zero : cover s.obtained u = 0 := by
    refine List.countP_eq_zero.2 fun x mem has => ?_
    have most := fresh.2 x mem
    have has := (of_decide_eq_true has).2
    omega
  have count := inv.covers u
  omega

theorem start_inv (mem : Nat → Header) : Inv base ⟨⟨mem, 0⟩, [], []⟩ [] :=
  ⟨setup_ring mem, ⟨⟨base, 0⟩, List.mem_singleton_self _, rfl⟩, fun _ => ⟨rfl, rfl⟩, nofun, nofun, fun _ => rfl,
    fun _ => Nat.zero_le 1, nofun⟩

/-- `malloc` returns. -/
theorem malloc_returns (inv : Inv base s blocks) (null : 0 < base) {sbrk : Nat → Option Nat}
    (nbytes : Nat) (answer : ∀ r, sbrk 0 = some r → Fresh base s r) :
    ∃ out blocks', Returns (fun rounds => malloc base rounds sbrk s.heap nbytes) out ∧
      Served base (nunits nbytes) sbrk (setup base s.heap) blocks out blocks' := by
  have units : 0 < nunits nbytes := Nat.succ_pos _
  obtain ⟨out, blocks', run, served⟩ :=
    inv.ring.loop_serves (2 * blocks.length + 5) sbrk inv.positive inv.start units null
      (fun r eq => ⟨(inv.fresh (answer r eq)).1, fun u le => ((inv.fresh (answer r eq)).2 u le).2⟩) (by omega)
  exact ⟨out, blocks', ⟨2 * blocks.length + 5, run⟩, served⟩

theorem freep_ne (null : 0 < base) {h : Heap} {blocks : List Block} (ring : Ring h.mem base blocks)
    (start : ∃ x ∈ (⟨base, 0⟩ : Block) :: blocks, x.addr = h.freep) : h.freep ≠ 0 := by
  obtain ⟨x, member, eq⟩ := start
  rw [← eq]
  rcases mem_cons.1 member with rfl | member
  · exact Nat.ne_of_gt null
  have lt := ring.base_lt member
  omega

theorem region {n : Nat} {sbrk : Nat → Option Nat} {calls : Nat} (most : calls ≤ 1)
    (member : x ∈ regions n sbrk calls) : sbrk 0 = some x.addr ∧ regions n sbrk calls = [x] := by
  obtain rfl | rfl : calls = 0 ∨ calls = 1 := by omega
  · cases member
  cases got : sbrk 0 with
  | none => simp [regions, got] at member
  | some r =>
    have eq : regions n sbrk 1 = [⟨r, coreUnits n⟩] := by simp [regions, got]
    rw [eq] at member ⊢
    obtain rfl := mem_singleton.1 member
    exact ⟨rfl, rfl⟩

theorem regions_apart (inv : Inv base s blocks) {n : Nat} {sbrk : Nat → Option Nat} {calls : Nat}
    (answer : ∀ r, sbrk 0 = some r → Fresh base s r) (most : calls ≤ 1) (u : Nat) :
    cover (regions n sbrk calls) u = 0 ∨ cover (regions n sbrk calls) u = 1 ∧
      cover s.obtained u = 0 := by
  rcases Nat.eq_zero_or_pos (cover (regions n sbrk calls) u) with zero | pos
  · exact .inl zero
  obtain ⟨x, member, has⟩ := List.countP_pos_iff.1 pos
  obtain ⟨got, eq⟩ := region most member
  have has := of_decide_eq_true has
  refine .inr ⟨?_, ((inv.fresh (answer _ got)).2 u has.1).1⟩
  rw [eq, cover_cons, if_pos has, cover_nil]

variable {blocks' : List Block}

section

variable (inv : Inv base s blocks)
include inv

theorem malloc_frame {sbrk : Nat → Option Nat} {nbytes : Nat} {out : Malloc}
    (answer : ∀ r, sbrk 0 = some r → Fresh base s r)
    (served : Served base (nunits nbytes) sbrk (setup base s.heap) blocks out blocks')
    (member : x ∈ s.live) {a : Nat} (has : x.Has a) : out.heap.mem a = s.heap.mem a := by
  have high := inv.base_lt member has
  have count := inv.covers a
  have pos := cover_pos member has
  have apart := inv.regions_apart (n := nunits nbytes) answer served.calls a
  rw [served.frame a (Nat.ne_of_gt high) (inv.clear member has) (by omega)]
  exact setup_mem (Nat.ne_of_gt high)

/-- The invariant after `malloc`. -/
theorem malloc_step (null : 0 < base) {sbrk : Nat → Option Nat} {nbytes : Nat} {out : Malloc}
    (answer : ∀ r, sbrk 0 = some r → Fresh base s r)
    (served : Served base (nunits nbytes) sbrk (setup base s.heap) blocks out blocks') :
    Inv base ⟨out.heap, allotted (nunits nbytes) out.result ++ s.live,
      regions (nunits nbytes) sbrk out.calls ++ s.obtained⟩ blocks' := by
  have ne := freep_ne null served.ring served.start
  refine ⟨?_, ?_, fun eq => absurd eq ne, served.positive, fun x member => ?_, fun u => ?_,
    fun u => ?_, fun x member => ?_⟩
  · rw [setup_of_ne ne]
    exact served.ring
  · rw [setup_of_ne ne]
    exact served.start
  · rcases mem_append.1 member with new | old
    · have size := served.size x new
      rw [allotted] at new
      split at new
      · cases new
      obtain rfl := mem_singleton.1 new
      exact ⟨size, Nat.succ_pos _⟩
    obtain ⟨size, pos⟩ := inv.sizes x old
    rw [inv.malloc_frame answer served old ⟨le_rfl, by omega⟩]
    exact ⟨size, pos⟩
  · have new := served.covers u
    have old := inv.covers u
    simp only [cover_append]
    omega
  · have apart := inv.regions_apart (n := nunits nbytes) answer served.calls u
    have once := inv.once u
    simp only [cover_append]
    omega
  rcases mem_append.1 member with new | old
  · exact (answer _ (region served.calls new).1).1
  exact inv.above x old

/-- `free` of a live block returns. -/
theorem free_returns (member : x ∈ s.live) :
    ∃ h blocks', Returns (fun rounds => Umalloc.free rounds s.heap (x.addr + 1)) h ∧
      Freed base x.addr x.size s.heap blocks h blocks' := by
  obtain ⟨size, pos⟩ := inv.sizes x member
  have has : x.Has x.addr := ⟨le_rfl, by omega⟩
  have ne : s.heap.freep ≠ 0 := by
    intro zero
    rw [(inv.none zero).1] at member
    cases member
  have ring := inv.ring
  have start := inv.start
  rw [setup_of_ne ne] at ring start
  obtain ⟨h, blocks', run, freed⟩ :=
    ring.free_of_clear start inv.positive size pos (inv.base_lt member has)
    (fun u has => inv.clear member has) (Nat.lt_succ_self _)
  exact ⟨h, blocks', ⟨_, run⟩, freed⟩

theorem free_frame {y : Block} {live : List Block} {h : Heap} (owned : s.live.Perm (x :: live))
    (freed : Freed base x.addr x.size s.heap blocks h blocks') (member : y ∈ live) {a : Nat}
    (has : y.Has a) : h.mem a = s.heap.mem a := by
  have inY : y ∈ s.live := owned.mem_iff.2 (mem_cons_of_mem _ member)
  have inX : x ∈ s.live := owned.mem_iff.2 mem_cons_self
  have most := inv.live_le a
  have pos := cover_pos member has
  rw [cover_perm owned, cover_cons] at most
  refine freed.frame a ?_ fun z inZ eq => ?_
  · rintro rfl
    have mine : x.Has x.addr := ⟨le_rfl, by have := (inv.sizes x inX).2; omega⟩
    rw [if_pos mine] at most
    omega
  have high := inv.base_lt inY has
  rcases mem_cons.1 inZ with rfl | inZ
  · exact Nat.ne_of_lt high eq
  have free := cover_of_addr inv.positive inZ
  rw [eq] at free
  omega

/-- The invariant after `free`. -/
theorem free_step (null : 0 < base) {live : List Block} {h : Heap}
    (owned : s.live.Perm (x :: live)) (freed : Freed base x.addr x.size s.heap blocks h blocks') :
    Inv base ⟨h, live, s.obtained⟩ blocks' := by
  have ne := freep_ne null freed.ring freed.start
  have member : x ∈ s.live := owned.mem_iff.2 mem_cons_self
  refine ⟨?_, ?_, fun eq => absurd eq ne, freed.positive inv.positive (inv.sizes x member).2,
    fun y inY => ?_,
    fun u => ?_, inv.once, inv.above⟩
  · rw [setup_of_ne ne]
    exact freed.ring
  · rw [setup_of_ne ne]
    exact freed.start
  · obtain ⟨size, pos⟩ := inv.sizes y (owned.mem_iff.2 (mem_cons_of_mem _ inY))
    rw [inv.free_frame owned freed inY ⟨le_rfl, by omega⟩]
    exact ⟨size, pos⟩
  have new := freed.covers u
  have old := inv.covers u
  rw [cover_perm owned, cover_cons] at old
  change cover blocks' u = cover blocks u + if x.Has u then 1 else 0 at new
  show cover blocks' u + cover live u = cover s.obtained u
  omega

theorem store_frame {mem : Nat → Header}
    (inside : ∀ a, (∀ x ∈ s.live, ¬(x.addr < a ∧ a < x.addr + x.size)) → mem a = s.heap.mem a) :
    mem base = s.heap.mem base ∧ ∀ x ∈ blocks ++ s.live, mem x.addr = s.heap.mem x.addr := by
  refine ⟨inside _ fun y inY within => ?_, fun x member => inside _ fun y inY within => ?_⟩
  · exact lt_irrefl _ (inv.base_lt inY ⟨within.1.le, within.2⟩)
  have hasY : y.Has x.addr := ⟨within.1.le, within.2⟩
  have most := inv.live_le x.addr
  rcases mem_append.1 member with inX | inX
  · have free := cover_of_addr inv.positive inX
    have pos := cover_pos inY hasY
    omega
  have ne : y ≠ x := by
    rintro rfl
    exact lt_irrefl _ within.1
  have two := cover_two inX inY ne ⟨le_rfl, by have := (inv.sizes x inX).2; omega⟩ hasY
  omega

/-- The invariant after the program has stored into its live blocks. -/
theorem store_step {mem : Nat → Header}
    (inside : ∀ a, (∀ x ∈ s.live, ¬(x.addr < a ∧ a < x.addr + x.size)) → mem a = s.heap.mem a) :
    Inv base ⟨⟨mem, s.heap.freep⟩, s.live, s.obtained⟩ blocks := by
  obtain ⟨ground, others⟩ := inv.store_frame inside
  have same : ∀ x ∈ (⟨base, 0⟩ : Block) :: blocks,
      (setup base ⟨mem, s.heap.freep⟩).mem x.addr = (setup base s.heap).mem x.addr := by
    intro x member
    by_cases zero : s.heap.freep = 0
    · have eq : mem = s.heap.mem := by
        funext a
        refine inside a fun y inY => ?_
        rw [(inv.none zero).1] at inY
        cases inY
      rw [eq]
    rw [show setup base s.heap = s.heap from setup_of_ne zero,
      show setup base ⟨mem, s.heap.freep⟩ = ⟨mem, s.heap.freep⟩ from setup_of_ne zero]
    rcases mem_cons.1 member with rfl | member
    · exact ground
    exact others x (mem_append_left _ member)
  have start : (setup base ⟨mem, s.heap.freep⟩).freep = (setup base s.heap).freep := by
    simp only [setup, Heap.setPtr, Heap.setSize]
    split <;> rfl
  refine ⟨inv.ring.congr same, ?_, inv.none, inv.positive, fun x member => ?_, inv.covers,
    inv.once, inv.above⟩
  · rw [start]
    exact inv.start
  show (mem x.addr).size = x.size ∧ 0 < x.size
  rw [others x (mem_append_right _ member)]
  exact inv.sizes x member

end

end Inv

/-- Every step keeps the invariant. -/
theorem Step.inv (null : 0 < base) (inv : Inv base s blocks) (step : Step base s t) :
    ∃ blocks', Inv base t blocks' := by
  cases step with
  | malloc sbrk nbytes out fresh returns =>
    obtain ⟨out', blocks', returns', served⟩ := inv.malloc_returns null nbytes fresh
    obtain rfl := returns'.unique (malloc_mono ..) returns
    exact ⟨blocks', inv.malloc_step null fresh served⟩
  | free x live h owned returns =>
    obtain ⟨h', blocks', returns', freed⟩ := inv.free_returns (owned.mem_iff.2 mem_cons_self)
    obtain rfl := returns'.unique (free_mono ..) returns
    exact ⟨blocks', inv.free_step null owned freed⟩
  | store mem inside => exact ⟨blocks, inv.store_step inside⟩

/-- The invariant holds along every run. -/
theorem Runs.inv (null : 0 < base) (run : Runs base s) : ∃ blocks, Inv base s blocks := by
  induction run with
  | start mem => exact ⟨[], Inv.start_inv mem⟩
  | step _ step ih =>
    obtain ⟨blocks, inv⟩ := ih
    exact step.inv null inv

theorem nunits_enough (nbytes : Nat) : nbytes ≤ 16 * (nunits nbytes - 1) := by
  rw [nunits]
  omega

end Runs

/-- The user heap, after any sequence of `malloc`, `free` of live blocks and stores into them: the
free blocks are a circular list through `base` in ascending order with gaps between them, free and
live blocks together cover each unit that was obtained once and no other; and from there `malloc`
and `free` return and leave the contents of the live blocks. -/
theorem heap_discipline {base : Nat} (null : 0 < base) {s : State} (run : Runs base s) :
    (s.heap.freep = 0 → s.live = [] ∧ s.obtained = []) ∧
    (∃ blocks : List Block,
      (s.heap.freep ≠ 0 → Ring s.heap.mem base blocks ∧
        ∃ x ∈ (⟨base, 0⟩ : Block) :: blocks, x.addr = s.heap.freep) ∧
      (∀ x ∈ blocks ++ s.live, 0 < x.size) ∧
      (∀ u, cover blocks u + cover s.live u = cover s.obtained u ∧ cover s.obtained u ≤ 1)) ∧
    (∀ (sbrk : Nat → Option Nat) (nbytes : Nat), (∀ r, sbrk 0 = some r → Fresh base s r) →
      ∃ out, Returns (fun rounds => malloc base rounds sbrk s.heap nbytes) out ∧ out.calls ≤ 1 ∧
        (∀ x ∈ allotted (nunits nbytes) out.result,
          (out.heap.mem x.addr).size = x.size ∧ nbytes ≤ 16 * (x.size - 1) ∧ ∀ u, x.Has u →
            cover s.live u = 0) ∧
        ∀ y ∈ s.live, ∀ a, y.Has a → out.heap.mem a = s.heap.mem a) ∧
    ∀ x ∈ s.live, ∃ h, Returns (fun rounds => free rounds s.heap (x.addr + 1)) h ∧
      ∀ y ∈ s.live, y ≠ x → ∀ a, y.Has a → h.mem a = s.heap.mem a := by
  obtain ⟨blocks, inv⟩ := run.inv null
  refine ⟨inv.none, ⟨blocks, fun ne => ?_, fun x member => ?_, fun u => ⟨inv.covers u, inv.once u⟩⟩,
    fun sbrk nbytes fresh => ?_, fun x member => ?_⟩
  · have ring := inv.ring
    have start := inv.start
    rw [setup_of_ne ne] at ring start
    exact ⟨ring, start⟩
  · rcases List.mem_append.1 member with free | live
    · exact inv.positive x free
    exact (inv.sizes x live).2
  · obtain ⟨out, blocks', returns, served⟩ := inv.malloc_returns null nbytes fresh
    refine ⟨out, returns, served.calls, fun x member => ?_,
      fun y inY a has => inv.malloc_frame fresh served inY has⟩
    have next := inv.malloc_step null fresh served
    have size := (next.sizes x (List.mem_append_left _ member)).1
    refine ⟨size, ?_, fun u has => ?_⟩
    · rw [← size, served.size x member]
      exact nunits_enough nbytes
    have most := next.live_le u
    have pos := cover_pos member has
    simp only [cover_append] at most
    omega
  obtain ⟨h, blocks', returns, freed⟩ := inv.free_returns member
  obtain ⟨before, after, eq⟩ := List.append_of_mem member
  have owned : s.live.Perm (x :: (before ++ after)) := by
    rw [eq]
    exact List.perm_middle
  refine ⟨h, returns, fun y inY ne a has => inv.free_frame owned freed ?_ has⟩
  exact (List.mem_cons.1 (owned.mem_iff.1 inY)).resolve_left ne

/-- A program that asks for 40 bytes and gets 4096 units from `sbrk`: the block is the end of them.
-/
theorem firstBlock_discipline : ∃ s : State, s.live = [⟨4192, 4⟩] ∧ s.obtained = [⟨100, 4096⟩] ∧
    ∃ blocks : List Block, ∀ u, cover blocks u + cover s.live u = cover s.obtained u ∧
      cover s.obtained u ≤ 1 := by
  have call : (malloc 1 10 (fun _ => some 100) ⟨fun _ => ⟨0, 0⟩,
      0⟩ 40).map (fun out => (out.result, out.calls)) =
      some (4193, 1) := by decide +kernel
  obtain ⟨out, returns, eq⟩ := Option.map_eq_some_iff.1 call
  obtain ⟨result, calls⟩ := Prod.mk.inj eq
  have run : Runs 1 _ := .step (.start fun _ => ⟨0, 0⟩)
    (.malloc (fun _ => some 100) 40 out (fun r eq => ⟨by cases eq; decide, nofun⟩) ⟨10, returns⟩)
  have held := (heap_discipline (by decide) run).2.1
  obtain ⟨blocks, -, -, covers⟩ := held
  refine ⟨_, ?_, ?_, blocks, covers⟩
  · rw [result]
    rfl
  rw [calls]
  rfl

end Xv6.Umalloc
