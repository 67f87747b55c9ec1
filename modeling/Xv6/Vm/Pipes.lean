import Xv6.Lib.Pointers
import Xv6.Param
import Xv6.Vm.Procs

/-!
# Files and pipes, and every page of the machine

`file.c`, `pipe.c` and the calls of `sysfile.c` on file descriptors. Each of these calls is one
step; `fork` copies the open files when its child is ready, and `exit` closes them. A pipe lives
in a page of its own. Of the inode table only the reference counts are here: which inodes `namex` and
`create` come to on the disk is left open.
-/

namespace Xv6.Vm

open Multiset (add_cons cons_coe cons_add mem_add count_cons count_cons_self count_cons_of_ne cons_swap)
open Function renaming update → upd, update_self → upd_self, update_of_ne → upd_ne,
  update_eq_self → upd_eq_self
open Xv6.Task

/-- What a file is: nothing yet, an end of a pipe (the page of the pipe, and whether it is the end
that is written to), or an inode, of a device or not. -/
inductive Obj
  | none
  | pipe (pi : Nat) (writable : Bool)
  | inode (ip : Fin NINODE)

structure File where
  ref : Nat
  obj : Obj

def File.pipe (f : File) : Option (Nat × Bool) :=
  match f.obj with
  | .pipe pi writable => some (pi, writable)
  | _ => none

def File.ip (f : File) : Option (Fin NINODE) :=
  match f.obj with
  | .inode ip => some ip
  | _ => none

/-- `opened` is `readopen` and `writeopen` in the page of a pipe; `pipes` records which pages
are pipes. -/
structure World (P : Type) where
  sys : Sys P
  ftable : Fin NFILE → File
  ofile : P × Fin NOFILE → Option (Fin NFILE)
  opened : Nat × Bool → Bool
  pipes : Finset Nat
  iref : Fin NINODE → Nat
  cwd : P → Option (Fin NINODE)

inductive FileFault
  | filedup
  | fileclose
  | kfree
  | nullCwd
  | sys (e : Fault)

/-- How `namex` goes: the root directory, where the path begins with a slash; the inodes that
`dirlookup` finds, one after the other; and whether the last one is returned or the walk fails
there. -/
structure Path where
  root : Option (Fin NINODE)
  found : List (Fin NINODE)
  returns : Bool

/-- What `create` does in the directory: the name is `present`, and may be opened or not; `ialloc`
finds no inode; or there is a new inode, for which `dirlink` succeeds or not. -/
inductive Creation
  | present (ip : Fin NINODE) (opens : Bool)
  | full
  | fresh (ip : Fin NINODE) (links : Bool)

/-- The inode that `open` is for, by `namei` or by `create`. -/
inductive Target
  | name (path : Path)
  | create (path : Path) (creation : Creation)

/-- The calls on processes, and the calls on files. `open` refuses a directory that is to be written
and a device that there is not. -/
inductive Call (P : Type)
  | sys (a : Action P)
  | exec (x : P) (image : Image) (uargv : Nat → Arg) (path : Path)
  | pipe (x : P) (fdarray : Nat)
  | close (x : P) (fd : Fin NOFILE)
  | dup (x : P) (fd : Fin NOFILE)
  | open (x : P) (target : Target) (refused : Bool)
  | chdir (x : P) (path : Path) (isDir : Bool)

namespace World

variable {P : Type} [DecidableEq P]

def setFile (w : World P) (f : Fin NFILE) (file : File) : World P :=
  { w with ftable := upd w.ftable f file }

def setOfile (w : World P) (x : P) (fd : Fin NOFILE) (f : Option (Fin NFILE)) : World P :=
  { w with ofile := upd w.ofile (x, fd) f }

/-- As far as it changes the count. -/
def iput (w : World P) (ip : Fin NINODE) : World P :=
  { w with iref := upd w.iref ip (w.iref ip - 1) }

/-- A new reference to an inode, also by `iget`. -/
def idup (w : World P) (ip : Fin NINODE) : World P :=
  { w with iref := upd w.iref ip (w.iref ip + 1) }

def filealloc (w : World P) : Option (Fin NFILE × World P) :=
  ((List.finRange NFILE).find? fun f => (w.ftable f).ref = 0).map fun f =>
    (f, w.setFile f { w.ftable f with ref := 1 })

def filedup (w : World P) (f : Fin NFILE) : Except FileFault (World P) :=
  if (w.ftable f).ref < 1 then .error .filedup
  else .ok (w.setFile f { w.ftable f with ref := (w.ftable f).ref + 1 })

def pipeclose (L : Layout) (w : World P) (pi : Nat) (writable : Bool) :
    Except FileFault (World P) :=
  let w := { w with opened := upd w.opened (pi, writable) false }
  if w.opened (pi, false) = false ∧ w.opened (pi, true) = false then
    if L.Frame pi then
      .ok { w with pipes := w.pipes.erase pi, sys := { w.sys with freelist := pi :: w.sys.freelist } }
    else .error .kfree
  else .ok w

def fileclose (L : Layout) (w : World P) (f : Fin NFILE) : Except FileFault (World P) :=
  if (w.ftable f).ref < 1 then .error .fileclose
  else if 0 < (w.ftable f).ref - 1 then .ok (w.setFile f { w.ftable f with ref := (w.ftable f).ref - 1 })
  else
    match (w.ftable f).obj with
    | .none => .ok (w.setFile f ⟨0, .none⟩)
    | .pipe pi writable => (w.setFile f ⟨0, .none⟩).pipeclose L pi writable
    | .inode ip => .ok ((w.setFile f ⟨0, .none⟩).iput ip)

def fdalloc (w : World P) (x : P) (f : Fin NFILE) : Option (Fin NOFILE × World P) :=
  ((List.finRange NOFILE).find? fun fd => w.ofile (x, fd) = none).map fun fd => (fd, w.setOfile x fd (some f))

def closeBoth (L : Layout) (w : World P) (f₀ f₁ : Fin NFILE) : Except FileFault (World P) := do
  let w ← w.fileclose L f₀
  w.fileclose L f₁

/-- The two files of a new pipe, if there are two files and a page. -/
def pipealloc (L : Layout) (w : World P) :
    Except FileFault (Option (Fin NFILE × Fin NFILE) × World P) :=
  match w.filealloc with
  | none => .ok (none, w)
  | some (f₀, w) =>
    match w.filealloc with
    | none => do
      let w ← w.fileclose L f₀
      pure (none, w)
    | some (f₁, w) =>
      match w.sys.freelist with
      | [] => do
        let w ← w.closeBoth L f₀ f₁
        pure (none, w)
      | pi :: rest =>
        let w := { w with
          sys := { w.sys with freelist := rest }
          opened := upd (upd w.opened (pi, false) true) (pi, true) true
          pipes := insert pi w.pipes }
        let w := w.setFile f₀ { w.ftable f₀ with obj := .pipe pi false }
        .ok (some (f₀, f₁), w.setFile f₁ { w.ftable f₁ with obj := .pipe pi true })

def sysPipe (L : Layout) (w : World P) (x : P) (m : Mem) (fdarray : Nat) : Except FileFault (World P) := do
  match ← w.pipealloc L with
  | (none, w) => pure w
  | (some (rf, wf), w) =>
    match w.fdalloc x rf with
    | none => w.closeBoth L rf wf
    | some (fd₀, w) =>
      match w.fdalloc x wf with
      | none => (w.setOfile x fd₀ none).closeBoth L rf wf
      | some (fd₁, w) =>
        if copyout m.pagetable fdarray 4 ∧ copyout m.pagetable (fdarray + 4) 4 then pure w
        else ((w.setOfile x fd₀ none).setOfile x fd₁ none).closeBoth L rf wf

def sysClose (L : Layout) (w : World P) (x : P) (fd : Fin NOFILE) : Except FileFault (World P) :=
  match w.ofile (x, fd) with
  | none => .ok w
  | some f => (w.setOfile x fd none).fileclose L f

def sysDup (w : World P) (x : P) (fd : Fin NOFILE) : Except FileFault (World P) :=
  match w.ofile (x, fd) with
  | none => .ok w
  | some f =>
    match w.fdalloc x f with
    | none => .ok w
    | some (_, w) => w.filedup f

/-- The loop of `namex`, with a reference to `ip`. -/
def walkPath (w : World P) (ip : Fin NINODE) : List (Fin NINODE) → Fin NINODE × World P
  | [] => (ip, w)
  | next :: rest => ((w.idup next).iput ip).walkPath next rest

def namex (w : World P) (x : P) (path : Path) : Except FileFault (Option (Fin NINODE) × World P) :=
  match path.root.or (w.cwd x) with
  | none => .error .nullCwd
  | some ip =>
    match (w.idup ip).walkPath ip path.found with
    | (ip, w) => if path.returns then .ok (some ip, w) else .ok (none, w.iput ip)

/-- What `create` does with a reference to the directory `dp`. -/
def createIn (w : World P) (dp : Fin NINODE) : Creation → Option (Fin NINODE) × World P
  | .present ip opens =>
    let w := (w.idup ip).iput dp
    if opens then (some ip, w) else (none, w.iput ip)
  | .full => (none, w.iput dp)
  | .fresh ip links =>
    let w := w.idup ip
    if links then (some ip, w.iput dp) else (none, (w.iput ip).iput dp)

def find (w : World P) (x : P) : Target → Except FileFault (Option (Fin NINODE) × World P)
  | .name path => w.namex x path
  | .create path creation => do
    match ← w.namex x path with
    | (none, w) => pure (none, w)
    | (some dp, w) => pure (w.createIn dp creation)

def sysOpen (L : Layout) (w : World P) (x : P) (target : Target) (refused : Bool) : Except FileFault (World P) := do
  match ← w.find x target with
  | (none, w) => pure w
  | (some ip, w) =>
    if refused then pure (w.iput ip)
    else
      match w.filealloc with
      | none => pure (w.iput ip)
      | some (f, w) =>
        match w.fdalloc x f with
        | none => do
          let w ← w.fileclose L f
          pure (w.iput ip)
        | some (_, w) => pure (w.setFile f { w.ftable f with obj := .inode ip })

def sysChdir (w : World P) (x : P) (path : Path) (isDir : Bool) : Except FileFault (World P) := do
  match ← w.namex x path with
  | (none, w) => pure w
  | (some ip, w) =>
    if isDir then
      match w.cwd x with
      | none => .error .nullCwd
      | some old => pure { w.iput old with cwd := upd w.cwd x (some ip) }
    else pure (w.iput ip)

/-- The inode of the file that `exec` reads: it is put when the file is read, or at `bad`. The
result says whether there is one. -/
def execInode (w : World P) (x : P) (path : Path) : Except FileFault (Bool × World P) := do
  match ← w.namex x path with
  | (none, w) => pure (false, w)
  | (some ip, w) => pure (true, w.iput ip)

/-- The loop of `exit`. -/
def closeAll (L : Layout) (x : P) : List (Fin NOFILE) → World P → Except FileFault (World P)
  | [], w => .ok w
  | fd :: rest, w => do
    let w ← w.sysClose L x fd
    closeAll L x rest w

/-- The loop of `fork`. -/
def dupAll (x c : P) : List (Fin NOFILE) → World P → Except FileFault (World P)
  | [], w => .ok w
  | fd :: rest, w =>
    match w.ofile (x, fd) with
    | none => dupAll x c rest w
    | some f => do
      let w ← w.filedup f
      dupAll x c rest (w.setOfile c fd (some f))

/-- What `fork` does with the files and the directory of the parent. -/
def inherit (w : World P) (x c : P) : Except FileFault (World P) := do
  let w ← dupAll x c (List.finRange NOFILE) w
  match w.cwd x with
  | none => .error .nullCwd
  | some ip => pure { w.idup ip with cwd := upd w.cwd c (some ip) }

/-- What `exit` does with them. -/
def giveUp (L : Layout) (w : World P) (x : P) : Except FileFault (World P) := do
  let w ← closeAll L x (List.finRange NOFILE) w
  match w.cwd x with
  | none => .error .nullCwd
  | some ip => pure { w.iput ip with cwd := upd w.cwd x none }

/-- The parent and the child, where a step ends a `fork` that has made one. -/
def forked (s : Sys P) : Action P → Option (P × P)
  | .run x _ =>
    match s.slot x with
    | .call (some c) _ (.done ⟨_, some _⟩) => some (x, c)
    | _ => none
  | _ => none

def act (L : Layout) (w : World P) (a : Action P) : Option (Except FileFault (World P)) :=
  match w.sys.step L a with
  | none => none
  | some (.error e) => some (.error (.sys e))
  | some (.ok sys) => some (.ok { w with sys })

def step (L : Layout) (w : World P) : Call P → Option (Except FileFault (World P))
  | .sys (.exit x) =>
    match w.sys.slot x with
    | .user _ =>
      if x = w.sys.initproc then some (.error (.sys .initExiting))
      else
        match w.giveUp L x with
        | .error e => some (.error e)
        | .ok w => w.act L (.exit x)
    | _ => none
  | .sys (.exec _ _ _) => none
  | .sys a =>
    match w.act L a, forked w.sys a with
    | some (.ok w), some (x, c) => some (w.inherit x c)
    | r, _ => r
  | .exec x image uargv path =>
    match w.sys.slot x with
    | .user _ =>
      match w.execInode x path with
      | .error e => some (.error e)
      | .ok (found, w) => w.act L (.exec x { image with found } uargv)
    | _ => none
  | .pipe x fdarray =>
    match w.sys.slot x with
    | .user m => some (w.sysPipe L x m fdarray)
    | _ => none
  | .close x fd =>
    match w.sys.slot x with
    | .user _ => some (w.sysClose L x fd)
    | _ => none
  | .dup x fd =>
    match w.sys.slot x with
    | .user _ => some (w.sysDup x fd)
    | _ => none
  | .open x target refused =>
    match w.sys.slot x with
    | .user _ => some (w.sysOpen L x target refused)
    | _ => none
  | .chdir x path isDir =>
    match w.sys.slot x with
    | .user _ => some (w.sysChdir x path isDir)
    | _ => none

/-- The first process is in the directory `root`. -/
def boot (L : Layout) (initproc : P) (root : Fin NINODE) (free : List Nat) : Option (World P) :=
  (Sys.boot L initproc free).map fun sys => {
    sys
    ftable := fun _ => ⟨0, .none⟩
    ofile := fun _ => none
    opened := fun _ => false
    pipes := ∅
    iref := upd (fun _ => 0) root 1
    cwd := upd (fun _ => none) initproc (some root) }

def play (L : Layout) (w : World P) : List (Call P) → Option (World P)
  | [] => some w
  | a :: rest =>
    match w.step L a with
    | some (.ok w') => w'.play L rest
    | _ => none

/-- The states of the runs that begin with the free pages `free`. -/
inductive Runs (L : Layout) (initproc : P) (root : Fin NINODE) (free : List Nat) : World P → Prop
  | boot {w : World P} : boot L initproc root free = some w → Runs L initproc root free w
  | step {w w' : World P} {a : Call P} :
      Runs L initproc root free w → w.step L a = some (.ok w') → Runs L initproc root free w'

end World

/-! ## The invariant -/

/-- A process that may have open files. -/
def Slot.Active {P : Type} : Slot P → Prop
  | .user _ | .call _ _ _ => True
  | _ => False

/-- References to files are counted, with `extra` for those that a call has not stored yet or not
closed yet; and the ends of pipes are open exactly as long as there is a file for them. -/
structure World.Inv {P : Type} [DecidableEq P] [Fintype P] (L : Layout) (all others : Multiset Nat)
    (extra : Multiset (Fin NFILE)) (w : World P) : Prop where
  sys : w.sys.Inv L all (w.pipes.val + others)
  refs : ∀ f, (w.ftable f).ref = (pointers w.ofile id f).card + extra.count f
  closed : ∀ f, (w.ftable f).ref = 0 → (w.ftable f).obj = .none
  ends : ∀ f pi writable, (w.ftable f).pipe = some (pi, writable) → pi ∈ w.pipes ∧
    w.opened (pi, writable) = true
  sole : ∀ f g e, (w.ftable f).pipe = some e → (w.ftable g).pipe = some e → f = g
  used : ∀ pi ∈ w.pipes, ∀ writable, w.opened (pi, writable) = true →
    ∃ f, (w.ftable f).pipe = some (pi, writable)
  live : ∀ pi ∈ w.pipes, ∃ writable, w.opened (pi, writable) = true
  idle : ∀ x fd, w.ofile (x, fd) ≠ none → (w.sys.slot x).Active

def World.held (inodes : Multiset (Fin NINODE)) : Option (Fin NINODE) → Multiset (Fin NINODE)
  | none => inodes
  | some ip => ip ::ₘ inodes

def World.Irefs {P : Type} [DecidableEq P] [Fintype P] (inodes : Multiset (Fin NINODE))
    (w : World P) : Prop :=
  ∀ i, w.iref i = (pointers (fun f => (w.ftable f).ip) id i).card + (pointers w.cwd id i).card + inodes.count i

section Pages

variable {P : Type} [Fintype P] {L : Layout} {all others : Multiset Nat} {s : Sys P} {page : Nat}

theorem Sys.Inv.give (inv : Sys.Inv L all (page ::ₘ others) s) :
    Sys.Inv L all others { s with freelist := page :: s.freelist } := by
  refine ⟨?_, inv.valid, inv.slots, inv.reserved, inv.apart⟩
  have pages := inv.pages
  rw [add_cons] at pages
  rw [← cons_coe, cons_add, cons_add]
  exact pages

theorem Sys.Inv.take {rest : List Nat} (inv : Sys.Inv L all others s)
    (free : s.freelist = page :: rest) :
    Sys.Inv L all (page ::ₘ others) { s with freelist := rest } := by
  refine ⟨?_, inv.valid, inv.slots, inv.reserved, inv.apart⟩
  have pages := inv.pages
  rw [free, ← cons_coe, cons_add, cons_add] at pages
  rw [add_cons]
  exact pages

theorem Sys.Inv.not_mem {rest : List Nat} (inv : Sys.Inv L all others s)
    (free : s.freelist = page :: rest) :
    page ∉ others := by
  intro mem
  have nodup := inv.valid.nodup
  rw [← inv.pages, free, ← cons_coe, cons_add, cons_add, Multiset.nodup_cons] at nodup
  exact nodup.1 (mem_add.mpr (.inr mem))

end Pages

namespace World

variable {P : Type} [DecidableEq P] [Fintype P] {L : Layout} {all others : Multiset Nat}
  {extra extra' : Multiset (Fin NFILE)} {w w' : World P} {f g : Fin NFILE} {x c : P} {fd : Fin NOFILE}

omit [DecidableEq P] [Fintype P] in
theorem ftable_self {file : File} : (w.setFile f file).ftable f = file := upd_self ..

omit [DecidableEq P] [Fintype P] in
theorem ftable_of_ne {file : File} (ne : g ≠ f) : (w.setFile f file).ftable g = w.ftable g := upd_ne ne ..

omit [Fintype P] in
theorem ofile_self {r : Option (Fin NFILE)} : (w.setOfile x fd r).ofile (x, fd) = r := upd_self ..

omit [Fintype P] in
theorem ofile_of_ne {r : Option (Fin NFILE)} {e : P × Fin NOFILE} (ne : e ≠ (x, fd)) :
    (w.setOfile x fd r).ofile e = w.ofile e :=
  upd_ne ne ..

theorem Inv.recount {r : Nat} (inv : Inv L all others extra w)
    (mine : r = (pointers w.ofile id f).card + extra'.count f)
    (same : ∀ g, g ≠ f → extra'.count g = extra.count g)
    (closed : r = 0 → (w.ftable f).obj = .none) :
    Inv L all others extra' (w.setFile f { w.ftable f with ref := r }) := by
  have obj : ∀ g, ((w.setFile f { w.ftable f with ref := r }).ftable g).obj = (w.ftable g).obj := by
    intro g
    by_cases eq : g = f
    · rw [eq, ftable_self]
    rw [ftable_of_ne eq]
  have pipe : ∀ g, ((w.setFile f { w.ftable f with ref := r }).ftable g).pipe =
    (w.ftable g).pipe := by
    intro g
    rw [File.pipe, obj]
    rfl
  constructor
  · exact inv.sys
  · intro g
    by_cases eq : g = f
    · rw [eq, ftable_self]
      exact mine
    rw [ftable_of_ne eq, same g eq]
    exact inv.refs g
  · intro g none
    rw [obj]
    by_cases eq : g = f
    · rw [eq, ftable_self] at none
      rw [eq]
      exact closed none
    rw [ftable_of_ne eq] at none
    exact inv.closed g none
  · intro g pi writable at'
    rw [pipe] at at'
    exact inv.ends g pi writable at'
  · intro g h e atg ath
    rw [pipe] at atg ath
    exact inv.sole g h e atg ath
  · intro pi mem writable opened
    obtain ⟨g, at'⟩ := inv.used pi mem writable opened
    exact ⟨g, (pipe g).trans at'⟩
  · exact inv.live
  exact inv.idle

theorem Inv.point (inv : Inv L all others (f ::ₘ extra) w) (free : w.ofile (x, fd) = none)
    (active : (w.sys.slot x).Active) : Inv L all others extra (w.setOfile x fd (some f)) := by
  refine ⟨inv.sys, ?_, inv.closed, inv.ends, inv.sole, inv.used, inv.live, ?_⟩
  · intro g
    have count := card_pointers_update w.ofile id g (x, fd) (some f)
    have refs := inv.refs g
    rw [free] at count
    rw [count_cons] at refs
    simp only [points, Option.map_some, Option.map_none, id_eq, Option.some.injEq, reduceCtorEq,
      if_false] at count
    show (w.ftable g).ref = (pointers (upd w.ofile (x, fd) (some f)) id g).card + extra.count g
    by_cases eq : g = f
    · rw [if_pos eq] at refs
      rw [if_pos eq.symm] at count
      omega
    rw [if_neg eq] at refs
    rw [if_neg (fun h => eq h.symm)] at count
    omega
  intro y fd' at'
  by_cases eq : (y, fd') = (x, fd)
  · rw [(Prod.mk.inj eq).1]
    exact active
  rw [ofile_of_ne eq] at at'
  exact inv.idle y fd' at'

theorem Inv.unpoint (inv : Inv L all others extra w) (at' : w.ofile (x, fd) = some f) :
    Inv L all others (f ::ₘ extra) (w.setOfile x fd none) := by
  refine ⟨inv.sys, ?_, inv.closed, inv.ends, inv.sole, inv.used, inv.live, ?_⟩
  · intro g
    have count := card_pointers_update w.ofile id g (x, fd) none
    have refs := inv.refs g
    rw [at'] at count
    simp only [points, Option.map_some, Option.map_none, id_eq, Option.some.injEq, reduceCtorEq,
      if_false] at count
    show (w.ftable g).ref = (pointers (upd w.ofile (x, fd) none) id g).card + (f ::ₘ extra).count g
    rw [count_cons]
    by_cases eq : g = f
    · rw [if_pos eq]
      rw [if_pos eq.symm] at count
      omega
    rw [if_neg eq]
    rw [if_neg (fun h => eq h.symm)] at count
    omega
  intro y fd' at''
  by_cases eq : (y, fd') = (x, fd)
  · rw [eq, ofile_self] at at''
    exact absurd rfl at''
  rw [ofile_of_ne eq] at at''
  exact inv.idle y fd' at''

/-- Nothing but files, pipes and free pages changed, and the inodes of files are counted. -/
structure Same (w w' : World P) : Prop where
  ofile : w'.ofile = w.ofile
  slot : w'.sys.slot = w.sys.slot
  initproc : w'.sys.initproc = w.sys.initproc
  cwd : w'.cwd = w.cwd
  irefs : ∀ inodes, w.Irefs inodes → w'.Irefs inodes

theorem Same.trans {w'' : World P} (first : Same w w') (second : Same w' w'') : Same w w'' :=
  ⟨second.ofile.trans first.ofile, second.slot.trans first.slot, second.initproc.trans first.initproc,
    second.cwd.trans first.cwd, fun inodes counted => second.irefs inodes (first.irefs inodes counted)⟩

/-- The same without the open files of processes. -/
structure Kept (w w' : World P) : Prop where
  slot : w'.sys.slot = w.sys.slot
  initproc : w'.sys.initproc = w.sys.initproc
  cwd : w'.cwd = w.cwd
  irefs : ∀ inodes, w.Irefs inodes → w'.Irefs inodes

theorem Kept.refl : Kept w w := ⟨rfl, rfl, rfl, fun _ counted => counted⟩

theorem Kept.trans {w'' : World P} (first : Kept w w') (second : Kept w' w'') : Kept w w'' :=
  ⟨second.slot.trans first.slot, second.initproc.trans first.initproc, second.cwd.trans first.cwd,
    fun inodes counted => second.irefs inodes (first.irefs inodes counted)⟩

theorem Same.kept (same : Same w w') : Kept w w' := ⟨same.slot, same.initproc, same.cwd, same.irefs⟩

theorem kept_setOfile {r : Option (Fin NFILE)} : Kept w (w.setOfile x fd r) := ⟨rfl, rfl, rfl, fun _ counted => counted⟩

theorem Irefs.of_ip {inodes : Multiset (Fin NINODE)} (counted : w.Irefs inodes)
    (iref : w'.iref = w.iref) (cwd : w'.cwd = w.cwd)
    (ip : ∀ g, (w'.ftable g).ip = (w.ftable g).ip) : w'.Irefs inodes := by
  intro i
  have same : (fun f => (w'.ftable f).ip) = fun f => (w.ftable f).ip := funext ip
  rw [iref, cwd, same]
  exact counted i

omit [DecidableEq P] [Fintype P] in
theorem ip_setFile {file : File} (same : file.ip = (w.ftable f).ip) (g : Fin NFILE) :
    ((w.setFile f file).ftable g).ip = (w.ftable g).ip := by
  by_cases eq : g = f
  · rw [eq, ftable_self]
    exact same
  rw [ftable_of_ne eq]

section

variable (inv : Inv L all others (f ::ₘ extra) w)
include inv

theorem Inv.pipeclose {pi : Nat} {writable : Bool} (last : (w.ftable f).ref = 1)
    (at' : (w.ftable f).pipe = some (pi, writable)) :
    ∃ w', (w.setFile f ⟨0, .none⟩).pipeclose L pi writable = .ok w' ∧ Inv L all others extra w' ∧
      Same w w' := by
  obtain ⟨mem, opened⟩ := inv.ends f pi writable at'
  have refs : ∀ g, (upd w.ftable f ⟨0, .none⟩ g).ref =
      (pointers w.ofile id g).card + extra.count g := by
    intro g
    have old := inv.refs g
    rw [count_cons] at old
    by_cases eq : g = f
    · rw [eq, upd_self]
      rw [if_pos eq, eq, last] at old
      show 0 = _
      omega
    rw [upd_ne eq, old, if_neg eq, add_zero]
  have closed : ∀ g, (upd w.ftable f ⟨0, .none⟩ g).ref = 0 →
      (upd w.ftable f ⟨0, .none⟩ g).obj = .none := by
    intro g none
    by_cases eq : g = f
    · rw [eq, upd_self]
    rw [upd_ne eq] at none ⊢
    exact inv.closed g none
  -- The files that are left are for other ends.
  have left : ∀ {g e}, (upd w.ftable f ⟨0, .none⟩ g).pipe = some e →
      (w.ftable g).pipe = some e ∧ e ≠ (pi, writable) := by
    intro g e atg
    by_cases eq : g = f
    · rw [eq, upd_self] at atg
      cases atg
    rw [upd_ne eq] at atg
    refine ⟨atg, ?_⟩
    rintro rfl
    exact eq (inv.sole g f _ atg at')
  have sole : ∀ g h e, (upd w.ftable f ⟨0, .none⟩ g).pipe = some e →
      (upd w.ftable f ⟨0, .none⟩ h).pipe = some e → g = h := by
    intro g h e atg ath
    exact inv.sole g h e (left atg).1 (left ath).1
  have used : ∀ pi' ∈ w.pipes, ∀ writable', upd w.opened (pi, writable) false (pi', writable') =
      true →
      ∃ g, (upd w.ftable f ⟨0, .none⟩ g).pipe = some (pi', writable') := by
    intro pi' mem' writable' opened'
    have ne : (pi', writable') ≠ (pi, writable) := by
      intro eq
      rw [eq, upd_self] at opened'
      cases opened'
    rw [upd_ne ne] at opened'
    obtain ⟨g, atg⟩ := inv.used pi' mem' writable' opened'
    refine ⟨g, ?_⟩
    rw [upd_ne]
    · exact atg
    rintro rfl
    exact ne (Option.some.inj (atg.symm.trans at'))
  have both : (upd w.opened (pi, writable) false (pi, false) = false ∧
      upd w.opened (pi, writable) false (pi, true) = false) ↔ w.opened (pi, !writable) = false := by
    cases writable <;> simp
  have ip : ∀ g, (upd w.ftable f ⟨0, .none⟩ g).ip = (w.ftable g).ip := by
    intro g
    apply ip_setFile
    have obj : (w.ftable f).obj = .pipe pi writable := by
      rw [File.pipe] at at'
      split at at'
      · rename_i eq
        rw [eq]
        cases at'
        rfl
      cases at'
    rw [File.ip, File.ip, obj]
  rw [World.pipeclose]
  by_cases other : w.opened (pi, !writable) = false
  · have frame : L.Frame pi := by
      apply inv.sys.valid.ok
      rw [← inv.sys.pages]
      exact mem_add.mpr (.inr (mem_add.mpr (.inl mem)))
    have cond := both.mpr other
    simp only [setFile, cond, and_self, if_true, if_pos frame]
    refine ⟨_, rfl, ?_, ⟨rfl, rfl, rfl, rfl, fun inodes counted => counted.of_ip rfl rfl ip⟩⟩
    have elsewhere : ∀ {g pi' writable'}, (upd w.ftable f ⟨0, .none⟩ g).pipe =
        some (pi', writable') → pi' ≠ pi := by
      rintro g pi' writable' atg rfl
      obtain ⟨old, ne⟩ := left atg
      have flipped : writable' = !writable := by
        cases writable <;> cases writable' <;> first | rfl | exact absurd rfl ne
      have open' := (inv.ends g pi' writable' old).2
      rw [flipped, other] at open'
      cases open'
    constructor
    · have pages : w.pipes.val + others = pi ::ₘ ((w.pipes.erase pi).val + others) := by
        rw [← cons_add, Finset.erase_val, Multiset.cons_erase mem]
      have sys := inv.sys
      rw [pages] at sys
      exact sys.give
    · exact refs
    · exact closed
    · intro g pi' writable' atg
      have ne := elsewhere atg
      obtain ⟨mem', opened'⟩ := inv.ends g pi' writable' (left atg).1
      refine ⟨Finset.mem_erase.mpr ⟨ne, mem'⟩, ?_⟩
      show upd w.opened (pi, writable) false (pi', writable') = true
      rw [upd_ne (fun eq => ne (Prod.mk.inj eq).1)]
      exact opened'
    · exact sole
    · intro pi' mem' writable' opened'
      exact used pi' (Finset.mem_of_mem_erase mem') writable' opened'
    · intro pi' mem'
      obtain ⟨ne, mem'⟩ := Finset.mem_erase.mp mem'
      obtain ⟨writable', opened'⟩ := inv.live pi' mem'
      refine ⟨writable', ?_⟩
      show upd w.opened (pi, writable) false (pi', writable') = true
      rw [upd_ne (fun eq => ne (Prod.mk.inj eq).1)]
      exact opened'
    exact inv.idle
  have cond : ¬(upd w.opened (pi, writable) false (pi, false) = false ∧
      upd w.opened (pi, writable) false (pi, true) = false) := fun h => other (both.mp h)
  refine ⟨_, if_neg cond, ?_, ⟨rfl, rfl, rfl, rfl, fun inodes counted => counted.of_ip rfl rfl ip⟩⟩
  constructor
  · exact inv.sys
  · exact refs
  · exact closed
  · intro g pi' writable' atg
    obtain ⟨old, ne⟩ := left atg
    obtain ⟨mem', opened'⟩ := inv.ends g pi' writable' old
    refine ⟨mem', ?_⟩
    show upd w.opened (pi, writable) false (pi', writable') = true
    rw [upd_ne ne]
    exact opened'
  · exact sole
  · exact used
  · intro pi' mem'
    by_cases eq : pi' = pi
    · refine ⟨!writable, ?_⟩
      show upd w.opened (pi, writable) false (pi', !writable) = true
      rw [eq, upd_ne (by cases writable <;> simp)]
      simpa using other
    obtain ⟨writable', opened'⟩ := inv.live pi' mem'
    refine ⟨writable', ?_⟩
    show upd w.opened (pi, writable) false (pi', writable') = true
    rw [upd_ne (fun h => eq (Prod.mk.inj h).1)]
    exact opened'
  exact inv.idle

theorem Inv.putInode {ip : Fin NINODE} (last : (w.ftable f).ref = 1)
    (obj : (w.ftable f).obj = .inode ip) :
    ∃ w', (Except.ok ((w.setFile f ⟨0, .none⟩).iput ip) : Except FileFault (World P)) = .ok w' ∧
      Inv L all others extra w' ∧ Same w w' := by
  have at' : (w.ftable f).ip = some ip := by rw [File.ip, obj]
  have pipe : ∀ g, ((w.setFile f ⟨0, .none⟩).ftable g).pipe = (w.ftable g).pipe := by
    intro g
    by_cases eq : g = f
    · rw [eq, ftable_self, File.pipe, File.pipe, obj]
    rw [ftable_of_ne eq]
  refine ⟨_, rfl, ?_, ⟨rfl, rfl, rfl, rfl, ?_⟩⟩
  · constructor
    · exact inv.sys
    · intro g
      have old := inv.refs g
      rw [count_cons] at old
      show ((w.setFile f ⟨0, .none⟩).ftable g).ref = (pointers w.ofile id g).card + extra.count g
      by_cases eq : g = f
      · rw [eq, ftable_self]
        rw [if_pos eq, eq, last] at old
        show 0 = _
        omega
      rw [ftable_of_ne eq, old, if_neg eq, add_zero]
    · intro g none
      show ((w.setFile f ⟨0, .none⟩).ftable g).obj = .none
      by_cases eq : g = f
      · rw [eq, ftable_self]
      rw [ftable_of_ne eq]
      apply inv.closed
      rw [← none]
      exact congrArg File.ref (ftable_of_ne eq).symm
    · intro g pi writable atg
      exact inv.ends g pi writable ((pipe g).symm.trans atg)
    · intro g h e atg ath
      exact inv.sole g h e ((pipe g).symm.trans atg) ((pipe h).symm.trans ath)
    · intro pi mem writable opened
      obtain ⟨g, atg⟩ := inv.used pi mem writable opened
      exact ⟨g, (pipe g).trans atg⟩
    · exact inv.live
    exact inv.idle
  intro inodes counted i
  have ips : (fun g => ((w.setFile f ⟨0, .none⟩).ftable g).ip) =
      upd (fun g => (w.ftable g).ip) f none := by
    funext g
    by_cases eq : g = f
    · rw [eq, ftable_self, upd_self]
      rfl
    rw [ftable_of_ne eq, upd_ne eq]
  have card := card_pointers_update (fun g => (w.ftable g).ip) id i f none
  have old := counted i
  show upd w.iref ip (w.iref ip - 1) i =
    (pointers (fun g => ((w.setFile f ⟨0, .none⟩).ftable g).ip) id i).card + (pointers w.cwd id i).card + inodes.count i
  rw [ips]
  simp only [points, at', Option.map_some, Option.map_none, id_eq, Option.some.injEq, reduceCtorEq,
    if_false] at card
  by_cases eq : i = ip
  · rw [eq, upd_self]
    rw [if_pos eq.symm] at card
    rw [eq] at card old
    omega
  rw [upd_ne eq]
  rw [if_neg (fun h => eq h.symm)] at card
  omega

theorem Inv.fileclose : ∃ w', w.fileclose L f = .ok w' ∧ Inv L all others extra w' ∧ Same w w' := by
  have refs := inv.refs f
  rw [count_cons_self] at refs
  have same : ∀ g, g ≠ f → extra.count g = (f ::ₘ extra).count g := by
    intro g ne
    rw [count_cons_of_ne ne]
  rw [World.fileclose, if_neg (by omega)]
  by_cases more : 0 < (w.ftable f).ref - 1
  · rw [if_pos more]
    refine ⟨_, rfl, ?_, ⟨rfl, rfl, rfl, rfl,
      fun inodes counted => counted.of_ip rfl rfl (ip_setFile rfl)⟩⟩
    apply inv.recount _ same
    · omega
    omega
  rw [if_neg more]
  cases obj : (w.ftable f).obj with
  | none =>
    have eq : ({ w.ftable f with ref := 0 } : File) = ⟨0, .none⟩ := by rw [← obj]
    have zero : Inv L all others extra (w.setFile f { w.ftable f with ref := 0 }) := by
      apply inv.recount _ same
      · intro _
        exact obj
      omega
    rw [eq] at zero
    refine ⟨_, rfl, zero, ⟨rfl, rfl, rfl, rfl,
      fun inodes counted => counted.of_ip rfl rfl (ip_setFile ?_)⟩⟩
    rw [File.ip, File.ip, obj]
  | pipe pi writable =>
    have at' : (w.ftable f).pipe = some (pi, writable) := by rw [File.pipe, obj]
    exact inv.pipeclose (by omega) at'
  | inode ip => exact inv.putInode (by omega) obj

end

theorem Inv.closeBoth {f₀ f₁ : Fin NFILE} (inv : Inv L all others (f₀ ::ₘ f₁ ::ₘ extra) w) :
    ∃ w', w.closeBoth L f₀ f₁ = .ok w' ∧ Inv L all others extra w' ∧ Same w w' := by
  obtain ⟨w₁, closes, inv₁, same₁⟩ := inv.fileclose
  obtain ⟨w₂, closes', inv₂, same₂⟩ := inv₁.fileclose
  refine ⟨w₂, ?_, inv₂, same₁.trans same₂⟩
  rw [World.closeBoth, closes]
  exact closes'

theorem Inv.filealloc (inv : Inv L all others extra w) (allocates : w.filealloc = some (f, w')) :
    Inv L all others (f ::ₘ extra) w' ∧ Same w w' ∧ (w.ftable f).ref = 0 ∧
      (w'.ftable f).obj = .none ∧
      (w'.ftable f).ref = 1 ∧ ∀ g, g ≠ f → w'.ftable g = w.ftable g := by
  obtain ⟨f', found, eq⟩ := Option.map_eq_some_iff.mp allocates
  cases eq
  have passed := List.find?_some found
  have zero : (w.ftable f).ref = 0 := of_decide_eq_true passed
  have obj := inv.closed f zero
  have refs := inv.refs f
  refine ⟨?_, ⟨rfl, rfl, rfl, rfl, fun inodes counted => counted.of_ip rfl rfl (ip_setFile rfl)⟩,
    zero, ?_, ?_, ?_⟩
  · apply inv.recount
    · rw [count_cons_self]
      omega
    · intro g ne
      rw [count_cons_of_ne ne]
    omega
  · rw [ftable_self]
    exact obj
  · rw [ftable_self]
  intro g ne
  exact upd_ne ne ..

theorem Inv.makePipe {f₀ f₁ : Fin NFILE} {pi : Nat} {rest : List Nat}
    (inv : Inv L all others (f₀ ::ₘ f₁ ::ₘ extra) w) (ne : f₀ ≠ f₁)
    (free : w.sys.freelist = pi :: rest)
    (none₀ : (w.ftable f₀).obj = .none) (none₁ : (w.ftable f₁).obj = .none) :
    Inv L all others (f₀ ::ₘ f₁ ::ₘ extra)
      { w with
        sys := { w.sys with freelist := rest }
        opened := upd (upd w.opened (pi, false) true) (pi, true) true
        pipes := insert pi w.pipes
        ftable := upd (upd w.ftable f₀ { w.ftable f₀ with obj := .pipe pi false }) f₁
          { w.ftable f₁ with obj := .pipe pi true } } := by
  have new : pi ∉ w.pipes := by
    intro mem
    exact inv.sys.not_mem free (mem_add.mpr (.inl mem))
  generalize hf : upd (upd w.ftable f₀ { w.ftable f₀ with obj := .pipe pi false }) f₁
    { w.ftable f₁ with obj := .pipe pi true } = ftable
  generalize ho : upd (upd w.opened (pi, false) true) (pi, true) true = opened
  have at₀ : ftable f₀ = { w.ftable f₀ with obj := .pipe pi false } := by
    rw [← hf, upd_ne ne, upd_self]
  have at₁ : ftable f₁ = { w.ftable f₁ with obj := .pipe pi true } := by rw [← hf, upd_self]
  have others' : ∀ {g}, g ≠ f₀ → g ≠ f₁ → ftable g = w.ftable g := by
    intro g n₀ n₁
    rw [← hf, upd_ne n₁, upd_ne n₀]
  have ref : ∀ g, (ftable g).ref = (w.ftable g).ref := by
    intro g
    by_cases e₀ : g = f₀
    · rw [e₀, at₀]
    by_cases e₁ : g = f₁
    · rw [e₁, at₁]
    rw [others' e₀ e₁]
  have mine : ∀ writable, opened (pi, writable) = true := by
    intro writable
    rw [← ho]
    cases writable with
    | true => rw [upd_self]
    | false => rw [upd_ne (by simp), upd_self]
  have elsewhere : ∀ {pi' writable}, pi' ≠ pi → opened (pi', writable) =
      w.opened (pi', writable) := by
    intro pi' writable ne'
    rw [← ho, upd_ne (fun h => ne' (Prod.mk.inj h).1),
      upd_ne (fun h => ne' (Prod.mk.inj h).1)]
  -- A file is one of the two, or what it was.
  have cases' : ∀ {g pi' writable}, (ftable g).pipe = some (pi', writable) →
      (g = f₀ ∧ pi' = pi ∧ writable = false) ∨ (g = f₁ ∧ pi' = pi ∧ writable = true) ∨
        (w.ftable g).pipe = some (pi', writable) ∧ pi' ≠ pi := by
    intro g pi' writable atg
    by_cases e₀ : g = f₀
    · rw [e₀, at₀] at atg
      cases atg
      exact .inl ⟨e₀, rfl, rfl⟩
    by_cases e₁ : g = f₁
    · rw [e₁, at₁] at atg
      cases atg
      exact .inr (.inl ⟨e₁, rfl, rfl⟩)
    rw [others' e₀ e₁] at atg
    refine .inr (.inr ⟨atg, ?_⟩)
    rintro rfl
    exact new (inv.ends g _ _ atg).1
  constructor
  · have pages : (insert pi w.pipes).val + others = pi ::ₘ (w.pipes.val + others) := by
      rw [Finset.insert_val_of_notMem new, cons_add]
    rw [pages]
    exact inv.sys.take free
  · intro g
    rw [ref]
    exact inv.refs g
  · intro g none
    rw [ref] at none
    have n₀ : g ≠ f₀ := by
      rintro rfl
      have refs := inv.refs g
      rw [count_cons_self] at refs
      omega
    have n₁ : g ≠ f₁ := by
      rintro rfl
      have refs := inv.refs g
      rw [count_cons_of_ne ne.symm, count_cons_self] at refs
      omega
    show (ftable g).obj = .none
    rw [others' n₀ n₁]
    exact inv.closed g none
  · intro g pi' writable atg
    rcases cases' atg with ⟨-, rfl, -⟩ | ⟨-, rfl, -⟩ | ⟨old, ne'⟩
    · exact ⟨Finset.mem_insert_self _ _, mine _⟩
    · exact ⟨Finset.mem_insert_self _ _, mine _⟩
    obtain ⟨mem, open'⟩ := inv.ends g pi' writable old
    exact ⟨Finset.mem_insert_of_mem mem, (elsewhere ne').trans open'⟩
  · rintro g h ⟨pi', writable⟩ atg ath
    rcases cases' atg with ⟨rfl, rfl, rfl⟩ | ⟨rfl, rfl, rfl⟩ | ⟨old, ne'⟩
    · rcases cases' ath with ⟨rfl, -, -⟩ | ⟨-, -, bad⟩ | ⟨-, bad⟩
      · rfl
      · cases bad
      exact absurd rfl bad
    · rcases cases' ath with ⟨-, -, bad⟩ | ⟨rfl, -, -⟩ | ⟨-, bad⟩
      · cases bad
      · rfl
      exact absurd rfl bad
    rcases cases' ath with ⟨-, bad, -⟩ | ⟨-, bad, -⟩ | ⟨old', -⟩
    · exact absurd bad ne'
    · exact absurd bad ne'
    exact inv.sole g h _ old old'
  · intro pi' mem writable open'
    by_cases eq : pi' = pi
    · cases writable with
      | false => exact ⟨f₀, by rw [eq]; exact congrArg File.pipe at₀⟩
      | true => exact ⟨f₁, by rw [eq]; exact congrArg File.pipe at₁⟩
    have open'' : w.opened (pi', writable) = true := (elsewhere eq).symm.trans open'
    obtain ⟨g, atg⟩ := inv.used pi' (Finset.mem_of_mem_insert_of_ne mem eq) writable open''
    have n₀ : g ≠ f₀ := by
      rintro rfl
      rw [File.pipe, none₀] at atg
      cases atg
    have n₁ : g ≠ f₁ := by
      rintro rfl
      rw [File.pipe, none₁] at atg
      cases atg
    exact ⟨g, (congrArg File.pipe (others' n₀ n₁)).trans atg⟩
  · intro pi' mem
    by_cases eq : pi' = pi
    · exact ⟨true, by rw [eq]; exact mine true⟩
    obtain ⟨writable, open'⟩ := inv.live pi' (Finset.mem_of_mem_insert_of_ne mem eq)
    exact ⟨writable, (elsewhere eq).trans open'⟩
  exact inv.idle

theorem Inv.pipealloc (inv : Inv L all others extra w) :
    ∃ r w', w.pipealloc L = .ok (r, w') ∧ Same w w' ∧ (r = none ∧ Inv L all others extra w' ∨
        ∃ f₀ f₁, r = some (f₀, f₁) ∧ Inv L all others (f₀ ::ₘ f₁ ::ₘ extra) w') := by
  rw [World.pipealloc]
  cases first : w.filealloc with
  | none => exact ⟨none, w, rfl, ⟨rfl, rfl, rfl, rfl, fun _ counted => counted⟩, .inl ⟨rfl, inv⟩⟩
  | some r =>
    obtain ⟨f₀, w₁⟩ := r
    obtain ⟨inv₁, same₁, -, pipe₀, one₀, -⟩ := inv.filealloc first
    cases second : w₁.filealloc with
    | none =>
      obtain ⟨w₂, closes, inv₂, same₂⟩ := inv₁.fileclose
      refine ⟨none, w₂, ?_, same₁.trans same₂, .inl ⟨rfl, inv₂⟩⟩
      simp only [second, closes]
      rfl
    | some r =>
      obtain ⟨f₁, w₂⟩ := r
      obtain ⟨inv₂, same₂, zero, pipe₁, -, kept⟩ := inv₁.filealloc second
      have ne : f₀ ≠ f₁ := by
        rintro rfl
        rw [one₀] at zero
        cases zero
      rw [cons_swap] at inv₂
      cases free : w₂.sys.freelist with
      | nil =>
        obtain ⟨w₃, closes, inv₃, same₃⟩ := inv₂.closeBoth
        refine ⟨none, w₃, ?_, (same₁.trans same₂).trans same₃, .inl ⟨rfl, inv₃⟩⟩
        simp only [second, free, closes]
        rfl
      | cons pi rest =>
        have none₀ : (w₂.ftable f₀).obj = .none := by
          rw [kept f₀ ne]
          exact pipe₀
        have made := inv₂.makePipe ne free none₀ pipe₁
        refine ⟨some (f₀, f₁), _, ?_, ?_, .inr ⟨f₀, f₁, rfl, made⟩⟩
        · simp only [second, free, setFile, upd_ne ne.symm]
        have ip : ∀ g, (upd (upd w₂.ftable f₀ { w₂.ftable f₀ with obj := .pipe pi false })
            f₁ { w₂.ftable f₁ with obj := .pipe pi true } g).ip = (w₂.ftable g).ip := by
          intro g
          by_cases e₁ : g = f₁
          · rw [e₁, upd_self, File.ip, File.ip, pipe₁]
          rw [upd_ne e₁]
          by_cases e₀ : g = f₀
          · rw [e₀, upd_self, File.ip, File.ip, none₀]
          rw [upd_ne e₀]
        exact (same₁.trans same₂).trans ⟨rfl, rfl, rfl, rfl,
          fun inodes counted => counted.of_ip rfl rfl ip⟩

theorem Inv.fdalloc (inv : Inv L all others (f ::ₘ extra) w) (active : (w.sys.slot x).Active)
    (allocates : w.fdalloc x f = some (fd, w')) :
    Inv L all others extra w' ∧ w.ofile (x, fd) = none ∧ w' = w.setOfile x fd (some f) := by
  obtain ⟨fd', found, eq⟩ := Option.map_eq_some_iff.mp allocates
  cases eq
  have passed := List.find?_some found
  have free : w.ofile (x, fd) = none := of_decide_eq_true passed
  exact ⟨inv.point free active, free, rfl⟩

theorem Inv.sysPipe {m : Mem} {fdarray : Nat} (inv : Inv L all others 0 w)
    (active : (w.sys.slot x).Active) :
    ∃ w', w.sysPipe L x m fdarray = .ok w' ∧ Inv L all others 0 w' ∧ Kept w w' := by
  obtain ⟨r, w₁, allocates, same, result⟩ := inv.pipealloc
  have kept := same.kept
  rw [← same.slot] at active
  rw [World.sysPipe, allocates]
  rcases result with ⟨rfl, inv₁⟩ | ⟨rf, wf, rfl, inv₁⟩
  · exact ⟨w₁, rfl, inv₁, kept⟩
  cases first : w₁.fdalloc x rf with
  | none =>
    obtain ⟨w₂, closes, inv₂, same₂⟩ := inv₁.closeBoth
    refine ⟨w₂, ?_, inv₂, kept.trans same₂.kept⟩
    simp only [bind, Except.bind, first]
    exact closes
  | some r =>
    obtain ⟨fd₀, w₂⟩ := r
    obtain ⟨inv₂, free₀, eq₂⟩ := inv₁.fdalloc active first
    have kept₂ : Kept w w₂ := by
      rw [eq₂]
      exact kept.trans kept_setOfile
    have at₀ : w₂.ofile (x, fd₀) = some rf := by
      rw [eq₂]
      exact upd_self ..
    rw [kept.slot, ← kept₂.slot] at active
    cases second : w₂.fdalloc x wf with
    | none =>
      obtain ⟨w₃, closes, inv₃, same₃⟩ := (inv₂.unpoint at₀).closeBoth
      refine ⟨w₃, ?_, inv₃, (kept₂.trans kept_setOfile).trans same₃.kept⟩
      simp only [bind, Except.bind, first, second]
      exact closes
    | some r =>
      obtain ⟨fd₁, w₃⟩ := r
      obtain ⟨inv₃, free₁, eq₃⟩ := inv₂.fdalloc active second
      have kept₃ : Kept w w₃ := by
        rw [eq₃]
        exact kept₂.trans kept_setOfile
      have ne : (x, fd₀) ≠ (x, fd₁) := by
        intro eq
        rw [← eq, at₀] at free₁
        cases free₁
      have at₀' : w₃.ofile (x, fd₀) = some rf := by
        rw [eq₃]
        exact (upd_ne ne ..).trans at₀
      have at₁ : (w₃.setOfile x fd₀ none).ofile (x, fd₁) = some wf := by
        rw [eq₃]
        exact (upd_ne ne.symm ..).trans (upd_self ..)
      by_cases copied : copyout m.pagetable fdarray 4 ∧ copyout m.pagetable (fdarray + 4) 4
      · refine ⟨w₃, ?_, inv₃, kept₃⟩
        simp only [bind, Except.bind, first, second, if_pos copied]
        rfl
      have both := (inv₃.unpoint at₀').unpoint at₁
      rw [cons_swap] at both
      obtain ⟨w₄, closes, inv₄, same₄⟩ := both.closeBoth
      refine ⟨w₄, ?_, inv₄, ((kept₃.trans kept_setOfile).trans kept_setOfile).trans same₄.kept⟩
      simp only [bind, Except.bind, first, second, if_neg copied]
      exact closes

theorem Inv.sysClose (inv : Inv L all others 0 w) :
    ∃ w', w.sysClose L x fd = .ok w' ∧ Inv L all others 0 w' ∧
      w'.ofile = upd w.ofile (x, fd) none ∧ Kept w w' := by
  rw [World.sysClose]
  cases at' : w.ofile (x, fd) with
  | none =>
    refine ⟨w, rfl, inv, ?_, .refl⟩
    rw [← at', upd_eq_self]
  | some f =>
    obtain ⟨w', closes, inv', same⟩ := (inv.unpoint at').fileclose
    exact ⟨w', closes, inv', same.ofile, kept_setOfile.trans same.kept⟩

theorem Inv.closeAll : ∀ (fds : List (Fin NOFILE)) {w : World P}, Inv L all others 0 w →
    ∃ w', World.closeAll L x fds w = .ok w' ∧ Inv L all others 0 w' ∧
      (∀ fd ∈ fds, w'.ofile (x, fd) = none) ∧
      (∀ fd, w.ofile (x, fd) = none → w'.ofile (x, fd) = none) ∧ Kept w w' := by
  intro fds
  induction fds with
  | nil =>
    intro w inv
    exact ⟨w, rfl, inv, nofun, fun _ h => h, .refl⟩
  | cons fd fds ih =>
    intro w inv
    obtain ⟨w₁, closes, inv₁, ofile, kept₁⟩ := inv.sysClose
    obtain ⟨w₂, rest, inv₂, closed, kept, kept₂⟩ := ih inv₁
    have now : w₁.ofile (x, fd) = none := by
      rw [ofile]
      exact upd_self ..
    refine ⟨w₂, ?_, inv₂, ?_, ?_, kept₁.trans kept₂⟩
    · rw [World.closeAll, closes]
      exact rest
    · intro fd' mem
      rcases List.mem_cons.mp mem with rfl | mem
      · exact kept _ now
      exact closed fd' mem
    intro fd' free
    apply kept
    rw [ofile]
    by_cases eq : (x, fd') = (x, fd)
    · rw [eq, upd_self]
    rw [upd_ne eq]
    exact free

theorem Inv.dupAll : ∀ {fds : List (Fin NOFILE)} {w : World P}, fds.Nodup → Inv L all others 0 w →
    (w.sys.slot c).Active → (∀ fd ∈ fds, w.ofile (c, fd) = none) →
    ∃ w', World.dupAll x c fds w = .ok w' ∧ Inv L all others 0 w' ∧ Kept w w' := by
  intro fds
  induction fds with
  | nil =>
    intro w _ inv _ _
    exact ⟨w, rfl, inv, .refl⟩
  | cons fd fds ih =>
    intro w nodup inv active free
    obtain ⟨head, tail⟩ := List.nodup_cons.mp nodup
    cases at' : w.ofile (x, fd) with
    | none =>
      obtain ⟨w', rest, inv', kept⟩ :=
        ih tail inv active fun fd' mem => free fd' (List.mem_cons_of_mem _ mem)
      refine ⟨w', ?_, inv', kept⟩
      simp only [World.dupAll, at']
      exact rest
    | some f =>
      have pos := card_pointers_pos (f := id) at'
      have refs := inv.refs f
      have dup : Inv L all others (f ::ₘ 0)
          (w.setFile f { w.ftable f with ref := (w.ftable f).ref + 1 }) := by
        apply inv.recount
        · rw [refs, count_cons_self]
          rfl
        · intro g other
          rw [count_cons_of_ne other]
        omega
      have stored := dup.point (free fd (List.mem_cons_self ..)) active
      have dups : w.filedup f =
          .ok (w.setFile f { w.ftable f with ref := (w.ftable f).ref + 1 }) := by
        simp only [id_eq] at pos
        rw [World.filedup, if_neg (by omega)]
      have next : ∀ fd' ∈ fds, ((w.setFile f { w.ftable f with ref := (w.ftable f).ref + 1 }).setOfile c fd
          (some f)).ofile (c, fd') = none := by
        intro fd' mem
        rw [ofile_of_ne]
        · exact free fd' (List.mem_cons_of_mem _ mem)
        intro eq
        rw [← (Prod.mk.inj eq).2] at head
        exact head mem
      obtain ⟨w', rest, inv', kept⟩ := ih tail stored active next
      have dup' : Kept w ((w.setFile f { w.ftable f with ref := (w.ftable f).ref + 1 }).setOfile c fd (some f)) :=
        ⟨rfl, rfl, rfl, fun inodes counted => counted.of_ip rfl rfl (ip_setFile rfl)⟩
      refine ⟨w', ?_, inv', dup'.trans kept⟩
      simp only [World.dupAll, at', dups]
      exact rest

end World

end Xv6.Vm
