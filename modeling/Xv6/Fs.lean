import Xv6.Log.Commit

/-!
# The file system

`kernel/fs.c` function by function, from the block allocator to path names, with
`begin_op`, `end_op` and `log_write` as the code that runs alone sees them. A
pointer to an entry of the inode table is the index of the entry, and a null
pointer is `none`. An assignment to a field and each store into a buffer is one
action. Printing is left out.
-/

namespace Xv6

open Prog (get fail)

/-! ## Transactions -/

/-- `begin_op`; with nothing else running, a wait would last for ever. -/
def beginOp : Kern Unit := do
  match (← get).log.beginOp with
  | none => fail .blocked
  | some log => setLog fun _ => log

def endOp : Kern Unit := do
  match (← get).log.endOp with
  | .error e => fail e
  | .ok (doCommit, log) => do
    setLog fun _ => log
    if doCommit then
      commit
      setLog Log.endCommit

def logWrite (b : Nat) : Kern Unit := do
  match (← get).log.logWrite b with
  | .error e => fail e
  | .ok (_, log) => setLog fun _ => log

/-- A store into a buffer followed by `log_write`. -/
def update (b : Nat) (data : Block) : Kern Unit := do
  setBuf b data
  logWrite b

/-! ## Blocks -/

def bzero (b : Nat) : Kern Unit := update b Bytes.zero

/-- The inner loop of `balloc`: the first clear bit of a bitmap block, among the
bits of the blocks from `b` on. -/
def freeBit (bp : Block) (b size : Nat) : Option Nat :=
  (List.range (min BPB (size - b))).find? fun bi => !bp.bit bi

/-- The outer loop of `balloc` over `n` bitmap blocks, from the one of block `b` on. -/
def ballocFrom : Nat → Nat → Kern Nat
  | 0, _ => return 0
  | n + 1, b => do
    let sb := (← get).sb
    let bp ← bread (sb.bblock b)
    match freeBit bp b sb.size with
    | some bi => do
      update (sb.bblock b) (bp.setBit bi)
      bzero (b + bi)
      return b + bi
    | none => ballocFrom n (b + BPB)

/-- `balloc`: the number of a zeroed block, or 0 when there is none. -/
def balloc : Kern Nat := do
  let sb := (← get).sb
  ballocFrom ((sb.size + BPB - 1) / BPB) 0

def bfree (b : Nat) : Kern Unit := do
  let sb := (← get).sb
  let bp ← bread (sb.bblock b)
  if bp.bit (b % BPB) = false then fail .freeingFreeBlock
  update (sb.bblock b) (bp.clearBit (b % BPB))

/-! ## Inodes -/

/-- The entry `ip` points to. -/
def inode (ip : Nat) : Kern Inode := do
  return (← get).itable ip

/-- Assign to fields of `*ip`. -/
def setInode (ip : Nat) (f : Inode → Inode) : Kern Unit :=
  Prog.act fun k => k.setInode ip (f (k.itable ip))

/-- Assign to fields of `*ip` that live on disk. -/
def setDinode (ip : Nat) (f : Dinode → Dinode) : Kern Unit :=
  setInode ip fun i => { i with d := f i.d }

section Rules

variable {α : Type} {inv : Kernel → Prop} {err : Panic → Prop} {post : α → Kernel → Prop} {k : Kernel} {ip : Nat}

theorem wp_inode_bind {next : Inode → Kern α} :
    Prog.wp inv err (inode ip >>= next) post k ↔ Prog.wp inv err (next (k.itable ip)) post k := Iff.rfl

theorem wp_setInode_bind {f : Inode → Inode} {next : Unit → Kern α} :
    Prog.wp inv err (setInode ip f >>= next) post k ↔ inv (k.setInode ip (f (k.itable ip))) ∧
        Prog.wp inv err (next ()) post (k.setInode ip (f (k.itable ip))) :=
  Prog.wp_act_bind

theorem wp_setDinode_bind {f : Dinode → Dinode} {next : Unit → Kern α} :
    Prog.wp inv err (setDinode ip f >>= next) post k ↔
      inv (k.setInode ip { k.itable ip with d := f (k.itable ip).d }) ∧
        Prog.wp inv err (next ()) post (k.setInode ip { k.itable ip with d := f (k.itable ip).d }) :=
  Prog.wp_act_bind

end Rules

def iget (dev inum : Nat) : Kern Nat := do
  let itable := (← get).itable
  match (List.range NINODE).find? fun i =>
      0 < (itable i).ref ∧ (itable i).dev = dev ∧ (itable i).inum = inum with
  | some ip => do
    setInode ip fun i => { i with ref := i.ref + 1 }
    return ip
  | none =>
    match (List.range NINODE).find? fun i => (itable i).ref = 0 with
    | some ip => do
      setInode ip fun i => { i with dev, inum, ref := 1, valid := false }
      return ip
    | none => fail .igetNoInodes

/-- The loop of `ialloc` over `n` inodes from `inum` on. -/
def iallocFrom (type : Nat) : Nat → Nat → Kern (Option Nat)
  | 0, _ => return none
  | n + 1, inum => do
    let sb := (← get).sb
    let bp ← bread (sb.iblock inum)
    if (Dinode.ofBlock bp (inum % IPB)).type = 0 then
      update (sb.iblock inum) ({ Dinode.zero with type }.store bp (inum % IPB))
      return some (← iget ROOTDEV inum)
    else iallocFrom type n (inum + 1)

def ialloc (type : Nat) : Kern (Option Nat) := do
  iallocFrom type ((← get).sb.ninodes - 1) 1

def iupdate (ip : Nat) : Kern Unit := do
  let sb := (← get).sb
  let i ← inode ip
  let bp ← bread (sb.iblock i.inum)
  update (sb.iblock i.inum) (i.d.store bp (i.inum % IPB))

def idup (ip : Nat) : Kern Nat := do
  setInode ip fun i => { i with ref := i.ref + 1 }
  return ip

def ilock (ip : Nat) : Kern Unit := do
  let i ← inode ip
  if i.ref < 1 then fail .ilock
  if i.locked then fail .blocked
  setInode ip fun i => { i with locked := true }
  if !i.valid then
    let sb := (← get).sb
    let bp ← bread (sb.iblock i.inum)
    setDinode ip fun _ => Dinode.ofBlock bp (i.inum % IPB)
    setInode ip fun i => { i with valid := true }
    if (← inode ip).d.type = 0 then fail .ilockNoType

def iunlock (ip : Nat) : Kern Unit := do
  let i ← inode ip
  if !i.locked ∨ i.ref < 1 then fail .iunlock
  setInode ip fun i => { i with locked := false }

/-- The second loop of `itrunc`, over the entries of the indirect block. -/
def freeEntries (a : Block) : Kern Unit :=
  Prog.forRange 0 NINDIRECT fun j => do
    if a.u32 (4 * j) ≠ 0 then bfree (a.u32 (4 * j))

def itrunc (ip : Nat) : Kern Unit := do
  Prog.forRange 0 NDIRECT fun i => do
    let addr := (← inode ip).d.addr i
    if addr ≠ 0 then
      bfree addr
      setDinode ip fun d => d.setAddr i 0
  let addr := (← inode ip).d.addr NDIRECT
  if addr ≠ 0 then
    freeEntries (← bread addr)
    bfree addr
    setDinode ip fun d => d.setAddr NDIRECT 0
  setDinode ip fun d => { d with size := 0 }
  iupdate ip

def iput (ip : Nat) : Kern Unit := do
  let i ← inode ip
  if i.ref = 1 ∧ i.valid ∧ i.d.nlink = 0 then
    if i.locked then fail .blocked
    setInode ip fun i => { i with locked := true }
    itrunc ip
    setDinode ip fun d => { d with type := 0 }
    iupdate ip
    setInode ip fun i => { i with valid := false }
    setInode ip fun i => { i with locked := false }
  setInode ip fun i => { i with ref := i.ref - 1 }

def iunlockput (ip : Nat) : Kern Unit := do
  iunlock ip
  iput ip

/-! ## Inode content -/

/-- The block number in `ip->addrs[i]`; a missing block is allocated. -/
def addrOrAlloc (alloc : Kern Nat) (ip i : Nat) : Kern Nat := do
  let addr := (← inode ip).d.addr i
  if addr = 0 then
    let addr ← alloc
    if addr = 0 then return 0
    else
      setDinode ip fun d => d.setAddr i addr
      return addr
  else return addr

/-- The block number in `a[j]` of the indirect block `b`; a missing block is allocated. -/
def entryOrAlloc (alloc : Kern Nat) (b j : Nat) : Kern Nat := do
  let a ← bread b
  if a.u32 (4 * j) = 0 then
    let addr ← alloc
    if addr = 0 then return 0
    else
      update b ((← bread b).setU32 (4 * j) addr)
      return addr
  else return a.u32 (4 * j)

def bmapWith (alloc : Kern Nat) (ip bn : Nat) : Kern Nat := do
  if bn < NDIRECT then addrOrAlloc alloc ip bn
  else if bn - NDIRECT < NINDIRECT then
    let addr ← addrOrAlloc alloc ip NDIRECT
    if addr = 0 then return 0 else entryOrAlloc alloc addr (bn - NDIRECT)
  else fail .bmapOutOfRange

def bmap : Nat → Nat → Kern Nat := bmapWith balloc

structure UserMem where
  mapped : Nat → Bool
  byte : Nat → UInt8

abbrev PGSIZE : Nat := 4096

/-- How many of `len` bytes from `va` on `copyin` or `copyout` copies before it
meets a page that is not mapped. -/
def UserMem.copied (mem : UserMem) (va len : Nat) : Nat :=
  ((List.range len).find? fun i => !mem.mapped ((va + i) / PGSIZE)).getD len

/-- A kernel or a user address that `either_copyin` and `either_copyout` take. -/
inductive Addr
  | kernel (byte : Nat → UInt8)
  | user (mem : UserMem) (va : Nat)

def Addr.byte : Addr → Nat → UInt8
  | .kernel byte, i => byte i
  | .user mem va, i => mem.byte (va + i)

/-- How many of `len` bytes from `addr + i` on can be copied. -/
def Addr.copied : Addr → Nat → Nat → Nat
  | .kernel _, _, len => len
  | .user mem va, i, len => mem.copied (va + i) len

/-- The loop of `readi`: `tot` bytes of `n` are read, the next is at `off`. The
bytes read so far are `out 0`, …, `out (tot - 1)`; the fuel bounds the bytes that
are left. -/
def readLoop (alloc : Kern Nat) (ip : Nat) (dst : Addr) (n : Nat) :
    Nat → Nat → Nat → (Nat → UInt8) → Kern (Int × (Nat → UInt8))
  | 0, tot, _, out => return (tot, out)
  | fuel + 1, tot, off, out => do
    if tot < n then
      let addr ← bmapWith alloc ip (off / BSIZE)
      if addr = 0 then return (tot, out)
      else
        let bp ← bread addr
        let m := min (n - tot) (BSIZE - off % BSIZE)
        if dst.copied tot m < m then return (-1, out)
        else
          readLoop alloc ip dst n fuel (tot + m) (off + m) fun i =>
            if tot ≤ i ∧ i < tot + m then bp.byte (off % BSIZE + (i - tot)) else out i
    else return (tot, out)

/-- `readi` with the allocator of `bmap` as a parameter. Sums are of `uint`. -/
def readiWith (alloc : Kern Nat) (ip : Nat) (dst : Addr) (off n : Nat) :
    Kern (Int × (Nat → UInt8)) := do
  let size := (← inode ip).d.size
  if off > size ∨ (off + n) % 2 ^ 32 < off then return (0, fun _ => 0)
  else
    let n := if (off + n) % 2 ^ 32 > size then size - off else n
    readLoop alloc ip dst n n 0 off fun _ => 0

def readi : Nat → Addr → Nat → Nat → Kern (Int × (Nat → UInt8)) := readiWith balloc

/-- The loop of `writei`; it returns the offset and the number of bytes reached. -/
def writeLoop (ip : Nat) (src : Addr) (n : Nat) : Nat → Nat → Nat → Kern (Nat × Nat)
  | 0, tot, off => return (tot, off)
  | fuel + 1, tot, off => do
    if tot < n then
      let addr ← bmap ip (off / BSIZE)
      if addr = 0 then return (tot, off)
      else
        let bp ← bread addr
        let m := min (n - tot) (BSIZE - off % BSIZE)
        -- a failing copy leaves the bytes before the fault in the buffer
        setBuf addr (bp.write (off % BSIZE) (src.copied tot m) fun i => src.byte (tot + i))
        if src.copied tot m < m then return (tot, off)
        else
          logWrite addr
          writeLoop ip src n fuel (tot + m) (off + m)
    else return (tot, off)

def writei (ip : Nat) (src : Addr) (off n : Nat) : Kern Int := do
  let size := (← inode ip).d.size
  if off > size ∨ (off + n) % 2 ^ 32 < off then return -1
  else if (off + n) % 2 ^ 32 > MAXFILE * BSIZE then return -1
  else
    let (tot, off) ← writeLoop ip src n n 0 off
    if off > (← inode ip).d.size then setDinode ip fun d => { d with size := off }
    iupdate ip
    return tot

/-! ## Directories -/

/-- A file name: `DIRSIZ` bytes, with a zero byte after a shorter name. -/
abbrev Name : Type := Nat → UInt8

/-- `namecmp(s, t) == 0`, from byte `i` on with `n` bytes left. -/
def sameName (s t : Name) : Nat → Nat → Bool
  | 0, _ => true
  | n + 1, i => if s i = 0 then t i = 0 else if s i = t i then sameName s t n (i + 1) else false

def namecmp (s t : Name) : Bool := sameName s t DIRSIZ 0

def strncpy (name : Name) : Name := fun j =>
  if (List.range (j + 1)).all fun i => name i ≠ 0 then name j else 0

def readDirent (dp off : Nat) (short : Panic) : Kern Dirent := do
  let (r, bytes) ← readi dp (.kernel fun _ => 0) off DIRENTSIZE
  if r ≠ DIRENTSIZE then fail short
  return Dirent.ofBytes bytes

/-- The loop of `dirlookup` over `n` entries from `off` on; it returns the number
and the offset of the entry. -/
def lookupFrom (dp : Nat) (name : Name) : Nat → Nat → Kern (Option (Nat × Nat))
  | 0, _ => return none
  | n + 1, off => do
    let de ← readDirent dp off .dirlookupRead
    if de.inum ≠ 0 ∧ namecmp name de.name then return some (de.inum, off)
    else lookupFrom dp name n (off + DIRENTSIZE)

/-- The number of rounds of a loop over the entries of a directory of `size` bytes. -/
def slots (size : Nat) : Nat := (size + DIRENTSIZE - 1) / DIRENTSIZE

/-- `dirlookup`; the second number is `*poff`. -/
def dirlookup (dp : Nat) (name : Name) : Kern (Option (Nat × Nat)) := do
  let i ← inode dp
  if i.d.type ≠ T_DIR then fail .dirlookupNotDir
  match ← lookupFrom dp name (slots i.d.size) 0 with
  | none => return none
  | some (inum, off) => do
    let ip ← iget i.dev inum
    return some (ip, off)

/-- The search of `dirlink` for an entry that is not in use. -/
def emptySlotFrom (dp : Nat) : Nat → Nat → Kern Nat
  | 0, off => return off
  | n + 1, off => do
    let de ← readDirent dp off .dirlinkRead
    if de.inum = 0 then return off else emptySlotFrom dp n (off + DIRENTSIZE)

def dirlink (dp : Nat) (name : Name) (inum : Nat) : Kern Bool := do
  match ← dirlookup dp name with
  | some (ip, _) => do
    iput ip
    return false
  | none => do
    let off ← emptySlotFrom dp (slots (← inode dp).d.size) 0
    -- `de.inum` is a `ushort`
    let de : Dirent := ⟨inum % 65536, strncpy name⟩
    let r ← writei dp (.kernel de.byte) off DIRENTSIZE
    return r = DIRENTSIZE

/-! ## Paths -/

/-- A path without its terminating zero byte. -/
abbrev Path : Type := List UInt8

abbrev slash : UInt8 := 47

/-- The next element of a path and what follows it. -/
def skipelem (path : Path) : Option (Name × Path) :=
  let path := path.dropWhile (· = slash)
  if path = [] then none
  else
    let s := path.takeWhile (· ≠ slash)
    some (fun j => if j < DIRSIZ then s.getD j 0 else 0, (path.dropWhile (· ≠ slash)).dropWhile (· = slash))

/-- The loop of `namex`; every element shortens the path. -/
def namexFrom (parent : Bool) : Nat → Path → Nat → Name → Kern (Option (Nat × Name))
  | 0, _, ip, name =>
    if parent then do
      iput ip
      return none
    else return some (ip, name)
  | fuel + 1, path, ip, name =>
    match skipelem path with
    | none =>
      if parent then do
        iput ip
        return none
      else return some (ip, name)
    | some (name, path) => do
      ilock ip
      if (← inode ip).d.type ≠ T_DIR then
        iunlockput ip
        return none
      else if parent ∧ path = [] then
        iunlock ip
        return some (ip, name)
      else
        match ← dirlookup ip name with
        | none => do
          iunlockput ip
          return none
        | some (next, _) => do
          iunlockput ip
          namexFrom parent fuel path next name

def namex (p : Nat) (path : Path) (parent : Bool) : Kern (Option (Nat × Name)) := do
  let start ←
    if path.head? = some slash then iget ROOTDEV ROOTINO
    else
      match ((← get).proc p).cwd with
      | none => fail .ilock
      | some cwd => idup cwd
  namexFrom parent path.length path start fun _ => 0

def namei (p : Nat) (path : Path) : Kern (Option Nat) := do
  return (← namex p path false).map Prod.fst

def nameiparent (p : Nat) (path : Path) : Kern (Option (Nat × Name)) := namex p path true

end Xv6
