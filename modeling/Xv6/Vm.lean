import Xv6.Lib.Linear

/-!
# Page tables and the memory of processes

`vm.c`, and what `proc.c`, `exec.c` and `sysfile.c` do with pages. The functions take and
free physical pages one at a time, and other processes may do so in between; a page table
is the tree of its pages, which belongs to one process. The contents of user pages are left
out. A page table is three levels deep by its type, so the lookups in `walk` always find a
page-table page where the source follows a valid entry.
-/

namespace Xv6.Vm

def PGSIZE : Nat := 4096

def MAXVA : Nat := 2 ^ 38

def TRAMPOLINE : Nat := MAXVA - PGSIZE

def TRAPFRAME : Nat := TRAMPOLINE - PGSIZE

def PHYSTOP : Nat := 0x88000000

def MAXARG : Nat := 32

def ELF_MAGIC : Nat := 0x464C457F

def ELF_PROG_LOAD : Nat := 1

/-- On 64 bits, where the sum may wrap around. -/
def pgRoundUp (sz : Nat) : Nat := (sz + PGSIZE - 1) % 2 ^ 64 / PGSIZE * PGSIZE

def pgRoundDown (a : Nat) : Nat := a / PGSIZE * PGSIZE

/-- The index of a virtual address in a page-table page. -/
def px (level va : Nat) : Fin 512 := ⟨va / PGSIZE / 512 ^ level % 512, Nat.mod_lt _ (by decide)⟩

/-- What the linker decides: where the kernel ends and where `trampoline.S` is. -/
structure Layout where
  kend : Nat
  trampoline : Nat

/-- The pages that the allocator hands out. -/
def Layout.Frame (L : Layout) (pa : Nat) : Prop := pa % PGSIZE = 0 ∧ L.kend ≤ pa ∧ pa < PHYSTOP

instance (L : Layout) : DecidablePred L.Frame := fun _ => inferInstanceAs (Decidable (_ ∧ _ ∧ _))

/-- The flags of an entry, `PTE_V` apart. -/
structure Perm where
  r : Bool
  w : Bool
  x : Bool
  u : Bool
  deriving DecidableEq

/-- A valid entry of the lowest level. -/
structure Pte where
  pa : Nat
  perm : Perm
  deriving DecidableEq

/-- A page-table page of a level, with everything below it. -/
abbrev Node : Nat → Type
  | 0 => Fin 512 → Option Pte
  | n + 1 => Fin 512 → Option (Nat × Node n)

structure Pagetable where
  page : Nat
  root : Node 2

inductive Panic
  | walk
  | mappagesSize
  | remap
  | uvmunmapNotAligned
  | uvmunmapWalk
  | uvmunmapNotMapped
  | uvmunmapNotALeaf
  | freewalkLeaf
  | wildTable
  | uvmcopyPteShouldExist
  | uvmcopyPageNotPresent
  | uvmclear
  | loadsegAddressShouldExist
  | kfree
  deriving DecidableEq

abbrev VmM := Task Nat Panic

/-! ## kalloc.c -/

def kalloc : VmM (Option Nat) := .take pure

def kfree (L : Layout) (pa : Nat) : VmM Unit :=
  if L.Frame pa then .give pa (pure ()) else .fail .kfree

/-! ## vm.c -/

def Node.empty : (n : Nat) → Node n
  | 0 => fun _ => none
  | _ + 1 => fun _ => none

/-- The entry for an address, if `walk` gets that far without allocating. -/
def Node.get : (n : Nat) → Node n → Nat → Option (Option Pte)
  | 0, t, va => some (t (px 0 va))
  | n + 1, t, va => (t (px (n + 1) va)).bind fun e => Node.get n e.2 va

/-- Assign to the entry for an address. -/
def Node.set : (n : Nat) → Node n → Nat → Option Pte → Node n
  | 0, t, va, pte => Function.update t (px 0 va) pte
  | n + 1, t, va, pte =>
    match t (px (n + 1) va) with
    | none => t
    | some (page, sub) => Function.update t (px (n + 1) va) (some (page, Node.set n sub va pte))

/-- `walk` with `alloc`: the table, and whether it got to the lowest level. -/
def Node.walk : (n : Nat) → Node n → Nat → VmM (Node n × Bool)
  | 0, t, _ => pure (t, true)
  | n + 1, t, va =>
    match t (px (n + 1) va) with
    | some (page, sub) => do
      let r ← Node.walk n sub va
      pure (Function.update t (px (n + 1) va) (some (page, r.1)), r.2)
    | none => do
      match ← kalloc with
      | none => pure (t, false)
      | some page => do
        let r ← Node.walk n (Node.empty n) va
        pure (Function.update t (px (n + 1) va) (some (page, r.1)), r.2)

def walk (pt : Pagetable) (va : Nat) : VmM (Pagetable × Bool) :=
  if MAXVA ≤ va then .fail .walk
  else do
    let r ← Node.walk 2 pt.root va
    pure ({ pt with root := r.1 }, r.2)

/-- `walk` without `alloc`, and the entry it returns. -/
def lookup (pt : Pagetable) (va : Nat) : VmM (Option (Option Pte)) :=
  if MAXVA ≤ va then .fail .walk else pure (Node.get 2 pt.root va)

def Pagetable.set (pt : Pagetable) (va : Nat) (pte : Option Pte) : Pagetable :=
  { pt with root := Node.set 2 pt.root va pte }

def walkaddr (pt : Pagetable) (va : Nat) : Option Nat :=
  if MAXVA ≤ va then none
  else
    match Node.get 2 pt.root va with
    | some (some pte) => if pte.perm.u then some pte.pa else none
    | _ => none

/-- The loop of `mappages`, up to the last of `n + 1` pages. -/
def mapLoop (perm : Perm) : Nat → Pagetable → Nat → Nat → VmM (Pagetable × Bool)
  | n, pt, a, pa => do
    let r ← walk pt a
    if r.2 then
      match (Node.get 2 r.1.root a).join with
      | some _ => .fail .remap
      | none =>
        let pt := r.1.set a (some ⟨pa, perm⟩)
        match n with
        | 0 => pure (pt, true)
        | n + 1 => mapLoop perm n pt (a + PGSIZE) (pa + PGSIZE)
    else pure (r.1, false)

def mappages (pt : Pagetable) (va size pa : Nat) (perm : Perm) : VmM (Pagetable × Bool) :=
  if size = 0 then .fail .mappagesSize
  else mapLoop perm ((pgRoundDown (va + size - 1) - pgRoundDown va) / PGSIZE) pt (pgRoundDown va) pa

def unmapLoop (L : Layout) (doFree : Bool) : Nat → Pagetable → Nat → VmM Pagetable
  | 0, pt, _ => pure pt
  | n + 1, pt, a => do
    match ← lookup pt a with
    | none => .fail .uvmunmapWalk
    | some none => .fail .uvmunmapNotMapped
    | some (some pte) =>
      if pte.perm = ⟨false, false, false, false⟩ then .fail .uvmunmapNotALeaf
      else do
        if doFree then kfree L pte.pa else pure ()
        unmapLoop L doFree n (pt.set a none) (a + PGSIZE)

def uvmunmap (L : Layout) (pt : Pagetable) (va npages : Nat) (doFree : Bool) : VmM Pagetable :=
  if va % PGSIZE ≠ 0 then .fail .uvmunmapNotAligned else unmapLoop L doFree npages pt va

def uvmcreate : VmM (Option Pagetable) := do
  match ← kalloc with
  | none => pure none
  | some page => pure (some ⟨page, Node.empty 2⟩)

/-- A number kept in an `int` and used as a `uint64`. -/
def asInt (n : Nat) : Nat := if n % 2 ^ 32 < 2 ^ 31 then n % 2 ^ 32 else n % 2 ^ 32 + (2 ^ 64 - 2 ^ 32)

def uvmdealloc (L : Layout) (pt : Pagetable) (oldsz newsz : Nat) : VmM (Pagetable × Nat) :=
  if oldsz ≤ newsz then pure (pt, oldsz)
  else if pgRoundUp newsz < pgRoundUp oldsz then do
    let pt ← uvmunmap L pt (pgRoundUp newsz) (asInt ((pgRoundUp oldsz - pgRoundUp newsz) / PGSIZE)) true
    pure (pt, newsz)
  else pure (pt, newsz)

/-- The loop of `uvmalloc`, with `n` pages to go. -/
def allocLoop (L : Layout) (oldsz newsz : Nat) (perm : Perm) : Nat → Pagetable → Nat → VmM (Pagetable × Nat)
  | 0, pt, _ => pure (pt, newsz)
  | n + 1, pt, a => do
    match ← kalloc with
    | none => do
      let r ← uvmdealloc L pt a oldsz
      pure (r.1, 0)
    | some mem => do
      let r ← mappages pt a PGSIZE mem perm
      if r.2 then allocLoop L oldsz newsz perm n r.1 (a + PGSIZE)
      else do
        kfree L mem
        let r ← uvmdealloc L r.1 a oldsz
        pure (r.1, 0)

/-- `xperm` is `(w, x)`. -/
def uvmalloc (L : Layout) (pt : Pagetable) (oldsz newsz : Nat) (xperm : Bool × Bool) :
    VmM (Pagetable × Nat) :=
  if newsz < oldsz then pure (pt, oldsz)
  else
    let oldsz := pgRoundUp oldsz
    allocLoop L oldsz newsz ⟨true, xperm.1, xperm.2, true⟩ ((newsz - oldsz + PGSIZE - 1) / PGSIZE) pt oldsz

/-- The loop over the entries of a page-table page. -/
def forEntries (body : Fin 512 → VmM PUnit) : VmM PUnit := (List.finRange 512).forM body

def freewalk (L : Layout) : (n : Nat) → Nat → Node n → VmM PUnit
  | 0, page, t => do
    forEntries fun i =>
      match t i with
      | none => pure ⟨⟩
      | some pte =>
        if pte.perm.r ∨ pte.perm.w ∨ pte.perm.x then .fail .freewalkLeaf else .fail .wildTable
    kfree L page
  | n + 1, page, t => do
    forEntries fun i =>
      match t i with
      | none => pure ⟨⟩
      | some e => freewalk L n e.1 e.2
    kfree L page

def uvmfree (L : Layout) (pt : Pagetable) (sz : Nat) : VmM Unit := do
  let pt ← if 0 < sz then uvmunmap L pt 0 (pgRoundUp sz / PGSIZE) true else pure pt
  freewalk L 2 pt.page pt.root

/-- The loop of `uvmcopy`, with `n` pages to go. -/
def copyLoop (L : Layout) (old : Pagetable) : Nat → Pagetable → Nat → VmM (Pagetable × Bool)
  | 0, new, _ => pure (new, true)
  | n + 1, new, i => do
    match ← lookup old i with
    | none => .fail .uvmcopyPteShouldExist
    | some none => .fail .uvmcopyPageNotPresent
    | some (some pte) => do
      match ← kalloc with
      | none => do
        let new ← uvmunmap L new 0 (i / PGSIZE) true
        pure (new, false)
      | some mem => do
        let r ← mappages new i PGSIZE mem pte.perm
        if r.2 then copyLoop L old n r.1 (i + PGSIZE)
        else do
          kfree L mem
          let new ← uvmunmap L r.1 0 (i / PGSIZE) true
          pure (new, false)

def uvmcopy (L : Layout) (old new : Pagetable) (sz : Nat) : VmM (Pagetable × Bool) :=
  copyLoop L old ((sz + PGSIZE - 1) / PGSIZE) new 0

def uvmclear (pt : Pagetable) (va : Nat) : VmM Pagetable := do
  match ← lookup pt va with
  | none => .fail .uvmclear
  | some none => pure pt
  | some (some pte) => pure (pt.set va (some { pte with perm.u := false }))

/-- Whether `copyout` finds all the pages of the range. Every round copies at least one byte. -/
def copyout (pt : Pagetable) (dstva len : Nat) : Bool := go len dstva len
where
  go : Nat → Nat → Nat → Bool
    | 0, _, _ => true
    | fuel + 1, dstva, len =>
      if len = 0 then true
      else
        match walkaddr pt (pgRoundDown dstva) with
        | none => false
        | some _ => go fuel (pgRoundDown dstva + PGSIZE) (len - min (PGSIZE - (dstva - pgRoundDown dstva)) len)

/-! ## proc.c -/

/-- The memory of a process. -/
structure Mem where
  trapframe : Nat
  pagetable : Pagetable
  sz : Nat

def procPagetable (L : Layout) (trapframe : Nat) : VmM (Option Pagetable) := do
  match ← uvmcreate with
  | none => pure none
  | some pt => do
    let r ← mappages pt TRAMPOLINE PGSIZE L.trampoline ⟨true, false, true, false⟩
    if r.2 then do
      let r ← mappages r.1 TRAPFRAME PGSIZE trapframe ⟨true, true, false, false⟩
      if r.2 then pure (some r.1)
      else do
        let pt ← uvmunmap L r.1 TRAMPOLINE 1 false
        uvmfree L pt 0
        pure none
    else do
      uvmfree L r.1 0
      pure none

def procFreepagetable (L : Layout) (pt : Pagetable) (sz : Nat) : VmM Unit := do
  let pt ← uvmunmap L pt TRAMPOLINE 1 false
  let pt ← uvmunmap L pt TRAPFRAME 1 false
  uvmfree L pt sz

/-- As far as it frees pages. -/
def freeproc (L : Layout) (trapframe : Option Nat) (pagetable : Option Pagetable) (sz : Nat) : VmM Unit := do
  match trapframe with
  | none => pure ()
  | some tf => kfree L tf
  match pagetable with
  | none => pure ()
  | some pt => procFreepagetable L pt sz

/-- From the moment an unused slot was found. Its `sz` is 0. -/
def allocproc (L : Layout) : VmM (Option Mem) := do
  match ← kalloc with
  | none => do
    freeproc L none none 0
    pure none
  | some trapframe => do
    match ← procPagetable L trapframe with
    | none => do
      freeproc L (some trapframe) none 0
      pure none
    | some pt => pure (some ⟨trapframe, pt, 0⟩)

/-- The memory and whether the call succeeded. `n` is an `int`, added on 64 bits. -/
def growproc (L : Layout) (m : Mem) (n : Int) : VmM (Mem × Bool) :=
  let newsz := ((m.sz + n) % 2 ^ 64).toNat
  if 0 < n then do
    let r ← uvmalloc L m.pagetable m.sz newsz (true, false)
    if r.2 = 0 then pure ({ m with pagetable := r.1 }, false)
    else pure ({ m with pagetable := r.1, sz := r.2 }, true)
  else if n < 0 then do
    let r ← uvmdealloc L m.pagetable m.sz newsz
    pure ({ m with pagetable := r.1, sz := r.2 }, true)
  else pure (m, true)

/-- The memory of the child. -/
def fork (L : Layout) (m : Mem) : VmM (Option Mem) := do
  match ← allocproc L with
  | none => pure none
  | some np => do
    let r ← uvmcopy L m.pagetable np.pagetable m.sz
    if r.2 then pure (some { np with pagetable := r.1, sz := m.sz })
    else do
      freeproc L (some np.trapframe) (some r.1) np.sz
      pure none

/-! ## exec.c -/

structure ProgHdr where
  type : Nat
  flags : Nat
  vaddr : Nat
  filesz : Nat
  memsz : Nat
  vaddr_lt : vaddr < 2 ^ 64
  memsz_lt : memsz < 2 ^ 64

/-- What `exec` finds in the file system: whether there is a file; the `magic` and `phnum` of
its header and its program headers, where they can be read; and whether the page at an offset
of a segment can be read. -/
structure Image where
  found : Bool
  header : Option (Nat × Nat)
  progHdr : Nat → Option ProgHdr
  page : Nat → Nat → Bool

/-- As `(w, x)`. -/
def flags2perm (flags : Nat) : Bool × Bool := (flags.testBit 1, flags.testBit 0)

/-- The loop of `loadseg`, with `n` pages to go. -/
def loadseg (reads : Nat → Bool) (pt : Pagetable) (va : Nat) : Nat → Nat → VmM Bool
  | 0, _ => pure true
  | n + 1, i =>
    match walkaddr pt (va + i) with
    | none => .fail .loadsegAddressShouldExist
    | some _ => if reads i then loadseg reads pt va n (i + PGSIZE) else pure false

/-- The loop over the program headers, with `n` to go: the table, its size, and whether the
loop got to the end. -/
def loadProgram (L : Layout) (image : Image) : Nat → Nat → Pagetable → Nat → VmM (Pagetable × Nat × Bool)
  | 0, _, pt, sz => pure (pt, sz, true)
  | n + 1, i, pt, sz =>
    match image.progHdr i with
    | none => pure (pt, sz, false)
    | some ph =>
      if ph.type ≠ ELF_PROG_LOAD then loadProgram L image n (i + 1) pt sz
      else if ph.memsz < ph.filesz then pure (pt, sz, false)
      else if (ph.vaddr + ph.memsz) % 2 ^ 64 < ph.vaddr then pure (pt, sz, false)
      else if ph.vaddr % PGSIZE ≠ 0 then pure (pt, sz, false)
      else do
        let r ← uvmalloc L pt sz ((ph.vaddr + ph.memsz) % 2 ^ 64) (flags2perm ph.flags)
        if r.2 = 0 then pure (r.1, sz, false)
        else do
          let ok ← loadseg (image.page i) r.1 ph.vaddr ((ph.filesz % 2 ^ 32 + PGSIZE - 1) / PGSIZE) 0
          if ok then loadProgram L image n (i + 1) r.1 r.2 else pure (r.1, r.2, false)

/-- Move a stack pointer down on 64 bits, to a multiple of 16. -/
def down (sp n : Nat) : Nat := (sp + 2 ^ 64 - n % 2 ^ 64) % 2 ^ 64 / 16 * 16

/-- Push strings of the given lengths. -/
def pushArgs (pt : Pagetable) (stackbase : Nat) : List Nat → Nat → Nat → Option (Nat × Nat)
  | [], argc, sp => some (argc, sp)
  | len :: rest, argc, sp =>
    if MAXARG ≤ argc then none
    else if down sp (len + 1) < stackbase then none
    else if copyout pt (down sp (len + 1)) (len + 1) then
      pushArgs pt stackbase rest (argc + 1) (down sp (len + 1))
    else none

/-- Push the strings and the array of pointers to them; the number of arguments. -/
def pushStack (pt : Pagetable) (sz : Nat) (argv : List Nat) : Option Nat := do
  let (argc, sp) ← pushArgs pt (sz - PGSIZE) argv 0 sz
  let sp := down sp ((argc + 1) * 8)
  if sp < sz - PGSIZE then none
  else if copyout pt sp ((argc + 1) * 8) then some argc
  else none

/-- The memory, and `argc` if the call succeeded. -/
def exec (L : Layout) (m : Mem) (image : Image) (argv : List Nat) : VmM (Mem × Option Nat) :=
  if image.found then
    match image.header with
    | none => pure (m, none)
    | some (magic, phnum) =>
      if magic ≠ ELF_MAGIC then pure (m, none)
      else do
        match ← procPagetable L m.trapframe with
        | none => pure (m, none)
        | some pt => do
          let (pt, sz, ok) ← loadProgram L image phnum 0 pt 0
          if ok then do
            let sz := pgRoundUp sz
            let r ← uvmalloc L pt sz (sz + 2 * PGSIZE) (true, false)
            if r.2 = 0 then do
              procFreepagetable L r.1 sz
              pure (m, none)
            else do
              let pt ← uvmclear r.1 (r.2 - 2 * PGSIZE)
              match pushStack pt r.2 argv with
              | none => do
                procFreepagetable L pt r.2
                pure (m, none)
              | some argc => do
                procFreepagetable L m.pagetable m.sz
                pure ({ m with pagetable := pt, sz := r.2 }, some argc)
          else do
            procFreepagetable L pt sz
            pure (m, none)
  else pure (m, none)

/-! ## The first process -/

/-- As far as it takes pages. A boot that runs out of them is left out. -/
def uvmfirst (pt : Pagetable) : VmM (Option Pagetable) := do
  match ← kalloc with
  | none => pure none
  | some mem => do
    let r ← mappages pt 0 PGSIZE mem ⟨true, true, true, true⟩
    pure (if r.2 then some r.1 else none)

def userinit (L : Layout) : VmM (Option Mem) := do
  match ← allocproc L with
  | none => pure none
  | some p => do
    match ← uvmfirst p.pagetable with
    | none => pure none
    | some pt => pure (some { p with pagetable := pt, sz := PGSIZE })

/-! ## sys_exec -/

/-- What `sys_exec` finds in the user's array of arguments. -/
inductive Arg
  | fault
  | null
  | unterminated
  | string (len : Nat)

/-- The loop of `sys_exec`, with `n` entries to go: the pages it has got, and the lengths of the
arguments if it saw the end of the array. -/
def fetchArgs (uargv : Nat → Arg) : Nat → Nat → List Nat → List Nat → VmM (List Nat × Option (List Nat))
  | 0, _, pages, _ => pure (pages, none)
  | n + 1, i, pages, lens =>
    match uargv i with
    | .fault => pure (pages, none)
    | .null => pure (pages, some lens)
    | .unterminated => do
      match ← kalloc with
      | none => pure (pages, none)
      | some page => pure (pages ++ [page], none)
    | .string len => do
      match ← kalloc with
      | none => pure (pages, none)
      | some page => fetchArgs uargv n (i + 1) (pages ++ [page]) (lens ++ [len])

def sysExec (L : Layout) (m : Mem) (image : Image) (uargv : Nat → Arg) : VmM (Mem × Option Nat) := do
  let (pages, argv) ← fetchArgs uargv MAXARG 0 [] []
  match argv with
  | none => do
    pages.forM fun page => kfree L page
    pure (m, none)
  | some argv => do
    let r ← exec L m image argv
    pages.forM fun page => kfree L page
    pure r

end Xv6.Vm
