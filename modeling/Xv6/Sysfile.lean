import Xv6.Fs

/-!
# System calls on files

`kernel/file.c` and `kernel/sysfile.c`; of `filewrite` one round of the loop. `dup`, `close`, `chdir` and
what `fork`, `exec` and `exit` do to files are in `Vm.Pipes`. A system call is a program that runs for process `p`; its arguments are those
that `argint`, `argaddr` and `argstr` have fetched, and a path that `argstr` could not fetch is `none`.
Pipes are left out, and the answer of a device is an argument.
-/

namespace Xv6

open Prog (get fail)

/-! ## Open files -/

def file (f : Nat) : Kern File := do
  return (← get).ftable f

/-- Assign to fields of `*f`. -/
def setFile (f : Nat) (g : File → File) : Kern Unit :=
  Prog.act fun k => k.setFile f (g (k.ftable f))

/-- Assign to fields of the process. -/
def setProc (p : Nat) (g : Proc → Proc) : Kern Unit :=
  Prog.act fun k => k.setProc p (g (k.proc p))

def filealloc : Kern (Option Nat) := do
  let ftable := (← get).ftable
  match (List.range NFILE).find? fun f => (ftable f).ref = 0 with
  | some f => do
    setFile f fun g => { g with ref := 1 }
    return some f
  | none => return none

def fileclose (f : Nat) : Kern Unit := do
  let ff ← file f
  if ff.ref < 1 then fail .fileclose
  if 0 < ff.ref - 1 then setFile f fun g => { g with ref := g.ref - 1 }
  else
    setFile f fun g => { g with ref := 0, type := .none }
    if ff.type = .inode ∨ ff.type = .device then
      beginOp
      iput ff.ip
      endOp

abbrev CONSOLE : Nat := 1

/-- `pipe` and `console` are what `piperead` and `consoleread` return. -/
def fileread (f : Nat) (dst : Addr) (n : Nat) (pipe console : Int) : Kern Int := do
  let ff ← file f
  if ff.readable = false then return -1
  else
    match ff.type with
    | .pipe => return pipe
    | .device =>
      -- `consoleinit` sets the one entry of `devsw`
      if ff.major = CONSOLE then return console else return -1
    | .inode => do
      ilock ff.ip
      let (r, _) ← readi ff.ip dst ff.off n
      if 0 < r then setFile f fun g => { g with off := g.off + r.toNat }
      iunlock ff.ip
      return r
    | .none => fail .fileread

/-- The most bytes that one transaction of `filewrite` writes. -/
abbrev writeMax : Nat := (MAXOPBLOCKS - 1 - 1 - 2) / 2 * BSIZE

def filewriteRound (f : Nat) (src : Addr) (i n1 : Nat) : Kern Int := do
  let ff ← file f
  beginOp
  ilock ff.ip
  let r ← writei ff.ip (match src with
      | .kernel byte => .kernel fun j => byte (i + j)
      | .user mem va => .user mem (va + i)) ff.off n1
  if 0 < r then setFile f fun g => { g with off := g.off + r.toNat }
  iunlock ff.ip
  endOp
  return r

/-! ## System calls -/

/-- `argfd`: the open file of a descriptor. -/
def argfd (p fd : Nat) : Kern (Option Nat) := do
  if fd < NOFILE then return ((← get).proc p).ofile fd else return none

def setOfile (p fd : Nat) (f : Option Nat) : Kern Unit :=
  setProc p fun q => { q with ofile := Function.update q.ofile fd f }

def fdalloc (p f : Nat) : Kern (Option Nat) := do
  let ofile := ((← get).proc p).ofile
  match (List.range NOFILE).find? fun fd => ofile fd = none with
  | some fd => do
    setOfile p fd (some f)
    return some fd
  | none => return none

def sysRead (p fd : Nat) (dst : Addr) (n : Nat) (pipe console : Int) : Kern Int := do
  match ← argfd p fd with
  | none => return -1
  | some f => fileread f dst n pipe console

/-- `nlink++` of a `short`. -/
def Dinode.incLink (d : Dinode) : Dinode := { d with nlink := (d.nlink + 1) % 65536 }

/-- `nlink--` of a `short`. -/
def Dinode.decLink (d : Dinode) : Dinode := { d with nlink := (d.nlink + 65535) % 65536 }

/-- The label `bad` of `sys_link`. -/
def linkBad (ip : Nat) : Kern Int := do
  ilock ip
  setDinode ip Dinode.decLink
  iupdate ip
  iunlockput ip
  endOp
  return -1

def sysLink (p : Nat) (old new : Option Path) : Kern Int := do
  match old, new with
  | some old, some new => do
    beginOp
    match ← namei p old with
    | none => do
      endOp
      return -1
    | some ip => do
      ilock ip
      if (← inode ip).d.type = T_DIR then
        iunlockput ip
        endOp
        return -1
      else
        setDinode ip Dinode.incLink
        iupdate ip
        iunlock ip
        match ← nameiparent p new with
        | none => linkBad ip
        | some (dp, name) => do
          ilock dp
          let linked ←
            if (← inode dp).dev ≠ (← inode ip).dev then pure false
            else dirlink dp name (← inode ip).inum
          iunlockput dp
          if linked then
            iput ip
            endOp
            return 0
          else linkBad ip
  | _, _ => return -1

/-- The loop of `isdirempty` over `n` entries from `off` on. -/
def emptyFrom (dp : Nat) : Nat → Nat → Kern Bool
  | 0, _ => return true
  | n + 1, off => do
    let de ← readDirent dp off .isdiremptyReadi
    if de.inum ≠ 0 then return false else emptyFrom dp n (off + DIRENTSIZE)

def isdirempty (dp : Nat) : Kern Bool := do
  let size := (← inode dp).d.size
  emptyFrom dp (slots (size - 2 * DIRENTSIZE)) (2 * DIRENTSIZE)

/-- The name of a string literal. -/
def dotName : Name := fun j => if j = 0 then 46 else 0

def dotdotName : Name := fun j => if j < 2 then 46 else 0

/-- The label `bad` of `sys_unlink`. -/
def unlinkBad (dp : Nat) : Kern Int := do
  iunlockput dp
  endOp
  return -1

def sysUnlink (p : Nat) (path : Option Path) : Kern Int := do
  match path with
  | none => return -1
  | some path => do
    beginOp
    match ← nameiparent p path with
    | none => do
      endOp
      return -1
    | some (dp, name) => do
      ilock dp
      if namecmp name dotName ∨ namecmp name dotdotName then unlinkBad dp
      else
        match ← dirlookup dp name with
        | none => unlinkBad dp
        | some (ip, off) => do
          ilock ip
          let d := (← inode ip).d
          -- `nlink` is a `short`
          if d.nlink = 0 ∨ d.nlink ≥ 32768 then fail .unlinkNlink
          let empty ← if d.type = T_DIR then isdirempty ip else pure true
          if !empty then
            iunlockput ip
            unlinkBad dp
          else
            let r ← writei dp (.kernel fun _ => 0) off DIRENTSIZE
            if r ≠ DIRENTSIZE then fail .unlinkWritei
            if (← inode ip).d.type = T_DIR then
              setDinode dp Dinode.decLink
              iupdate dp
            iunlockput dp
            setDinode ip Dinode.decLink
            iupdate ip
            iunlockput ip
            endOp
            return 0

def createFail (ip dp : Nat) : Kern (Option Nat) := do
  setDinode ip fun d => { d with nlink := 0 }
  iupdate ip
  iunlockput ip
  iunlockput dp
  return none

/-- The entries `.` and `..` of a new directory. -/
def linkDots (ip dp : Nat) : Kern Bool := do
  if ← dirlink ip dotName (← inode ip).inum then dirlink ip dotdotName (← inode dp).inum
  else return false

/-- The end of `create`: fill the new inode and enter it in the directory `dp`. -/
def createNew (dp : Nat) (name : Name) (type major minor ip : Nat) : Kern (Option Nat) := do
  ilock ip
  setDinode ip fun d => { d with major, minor, nlink := 1 }
  iupdate ip
  let dots ← if type = T_DIR then linkDots ip dp else pure true
  if dots then
    if ← dirlink dp name (← inode ip).inum then
      if type = T_DIR then
        setDinode dp Dinode.incLink
        iupdate dp
      iunlockput dp
      return some ip
    else createFail ip dp
  else createFail ip dp

def create (p : Nat) (path : Path) (type major minor : Nat) : Kern (Option Nat) := do
  match ← nameiparent p path with
  | none => return none
  | some (dp, name) => do
    ilock dp
    match ← dirlookup dp name with
    | some (ip, _) => do
      iunlockput dp
      ilock ip
      let t := (← inode ip).d.type
      if type = T_FILE ∧ (t = T_FILE ∨ t = T_DEVICE) then return some ip
      else
        iunlockput ip
        return none
    | none =>
      match ← ialloc type with
      | none => do
        iunlockput dp
        return none
      | some ip => createNew dp name type major minor ip

/-- A failing end of `sys_open`. -/
def openBad (ip : Nat) : Kern Int := do
  iunlockput ip
  endOp
  return -1

/-- `sys_open` once it has the inode, which is locked. -/
def openInode (p ip omode : Nat) : Kern Int := do
  let d := (← inode ip).d
  -- `major` is a `short`: a negative one is above `NDEV` here
  if d.type = T_DEVICE ∧ d.major ≥ NDEV then openBad ip
  else
    match ← filealloc with
    | none => openBad ip
    | some f =>
      match ← fdalloc p f with
      | none => do
        fileclose f
        openBad ip
      | some fd => do
        if d.type = T_DEVICE then setFile f fun g => { g with type := .device, major := d.major }
        else setFile f fun g => { g with type := .inode, off := 0 }
        setFile f fun g => { g with
          ip
          readable := omode &&& O_WRONLY = 0
          writable := omode &&& O_WRONLY ≠ 0 ∨ omode &&& O_RDWR ≠ 0 }
        if omode &&& O_TRUNC ≠ 0 ∧ d.type = T_FILE then itrunc ip
        iunlock ip
        endOp
        return fd

def sysOpen (p : Nat) (path : Option Path) (omode : Nat) : Kern Int := do
  match path with
  | none => return -1
  | some path => do
    beginOp
    if omode &&& O_CREATE ≠ 0 then
      match ← create p path T_FILE 0 0 with
      | none => do
        endOp
        return -1
      | some ip => openInode p ip omode
    else
      match ← namei p path with
      | none => do
        endOp
        return -1
      | some ip => do
        ilock ip
        if (← inode ip).d.type = T_DIR ∧ omode ≠ O_RDONLY then openBad ip
        else openInode p ip omode

/-- `sys_mkdir` and `sys_mknod`: create an inode and drop the reference to it. -/
def sysCreate (p : Nat) (path : Option Path) (type major minor : Nat) : Kern Int := do
  beginOp
  match path with
  | none => do
    endOp
    return -1
  | some path =>
    match ← create p path type major minor with
    | none => do
      endOp
      return -1
    | some ip => do
      iunlockput ip
      endOp
      return 0

def sysMkdir (p : Nat) (path : Option Path) : Kern Int := sysCreate p path T_DIR 0 0

def sysMknod (p : Nat) (path : Option Path) (major minor : Nat) : Kern Int :=
  sysCreate p path T_DEVICE (major % 65536) (minor % 65536)

end Xv6
