import Xv6.Console
import Xv6.Fs.Shared
import Xv6.Pipe

/-!
# How much a read transfers

`sys_read` takes a signed count. `piperead` and `consoleread` keep it signed;
`readi` takes it as `uint`. The programs here are those of `Xv6.Sysfile` with a
counter of the bytes that were stored in user memory, which no program looks at.
-/

/-! ## Where the threads of a monitor can be -/

namespace Xv6.Monitor

variable {P σ Chan L W K : Type} [DecidableEq P] [DecidableEq Chan] {code : Code P σ Chan L W K} {table : List P}

theorem State.Reachable.locations {w : P → W} {data : σ}
    {allow : State P σ Chan L W → Action P K → Prop} {s : State P σ Chan L W} (Q : Loc L W → Prop)
    (init : ∀ x, Q (.out (w x)))
    (enter : ∀ {x w f l}, Q (.out w) → code.entry x w f = some l → Q (.at l))
    (next : ∀ {l d}, Q (.at l) → (code.body l d).leads d fun loc _ => Q loc)
    (run : Reachable code table w data allow s) (x : P) : Q (s.loc x) := by
  refine State.Reachable.rule (fun loc _ => ∀ x, Q (loc x)) init ?_ ?_ run x
  · intro s x w f l all _ out entered y
    rcases eq_or_ne y x with rfl | ne
    · rw [Function.update_self]
      exact enter (out ▸ all y) entered
    rw [Function.update_of_ne ne]
    exact all y
  intro loc d x l loc' d' all here step y
  rcases eq_or_ne y x with rfl | ne
  · rw [Function.update_self]
    exact step.leads (next (here ▸ all y))
  rw [Function.update_of_ne ne]
  exact all y

end Xv6.Monitor

/-! ## Pipes -/

namespace Xv6.Pipe

open Monitor

variable {P : Type}

/-- A read returned no more than it was asked for. -/
def Done.Within (done : Done) : Prop :=
  match done.call with
  | .read _ n => done.result ≤ max n 0
  | _ => True

/-- A read has copied `i` bytes, no more than it was asked for, and so have the calls before it. -/
def Within : Loc (At P) (List Done) → Prop
  | .out past => ∀ done ∈ past, done.Within
  | .at l => (∀ done ∈ l.frame.past, done.Within) ∧
      match l with
      | .read _ _ n _ i => (i : Int) ≤ max n 0
      | _ => True

theorem Within.ret {l : At P} {result : Int} (within : Within (.at l))
    (done : Done.Within ⟨l.call, result⟩) :
    Within (P := P) (.out (l.frame.past ++ [⟨l.call, result⟩])) := by
  intro d mem
  rcases List.mem_append.1 mem with old | new
  · exact within.1 d old
  rw [List.mem_singleton.1 new]
  exact done

theorem Within.copy {f : Activation P Done} {dst : Nat → Bool} {n : Int} {pc : ReadAt} {i : Nat}
    {d : Ring P} (within : Within (.at (.read f dst n pc i))) :
    (pipecopy f dst n i d).leads d fun loc _ => Within loc := by
  obtain ⟨past, bound⟩ := within
  rw [pipecopy]
  split
  · rename_i more
    split
    · refine ⟨past, ?_⟩
      show ((i + 1 : Nat) : Int) ≤ max n 0
      omega
    exact ⟨past, bound⟩
  exact ⟨past, bound⟩

theorem Within.step {l : At P} {d : Ring P} (within : Within (.at l)) :
    (code.body l d).leads d fun loc _ => Within loc := by
  cases l with
  | write f src n pc i told =>
    have stay : ∀ pc i told, Within (.at (At.write f src n pc i told)) :=
      fun _ _ _ => ⟨within.1, trivial⟩
    have back : ∀ result, Within (P := P) (.out (f.past ++ [⟨.write src n, result⟩])) :=
      fun _ => within.ret trivial
    show (pipewrite f src n i told d pc).leads d fun loc _ => Within loc
    cases pc with
    | loop =>
      rw [pipewrite]
      split
      · split
        · exact back _
        exact ⟨stay _ _ _, stay _ _ _⟩
      exact stay _ _ _
    | test =>
      rw [pipewrite]
      split
      · exact stay _ _ _
      split
      · exact stay _ _ _
      exact stay _ _ _
    | sleep => exact stay _ _ _
    | done => exact back _
    | quit => exact back _
  | read f dst n pc i =>
    have stay : ∀ pc, Within (.at (At.read f dst n pc i)) := fun _ => within
    show (piperead f dst n i d pc).leads d fun loc _ => Within loc
    cases pc with
    | loop =>
      rw [piperead]
      split
      · exact ⟨stay _, stay _⟩
      exact within.copy
    | sleep => exact stay _
    | copy => exact within.copy
    | wake => exact stay _
    | done => exact within.ret within.2
    | quit =>
      refine within.ret ?_
      show (-1 : Int) ≤ max n 0
      omega
  | close f writable pc =>
    have stay : ∀ pc, Within (.at (At.close f writable pc)) := fun _ => ⟨within.1, trivial⟩
    cases pc with
    | clear => exact stay _
    | wake => exact stay _
    | done => exact within.ret trivial

theorem Reachable.within [DecidableEq P] {table : List P} {page : Nat → UInt8}
    {allow : State P (Ring P) Chan (At P) (List Done) → Action P Call → Prop}
    {s : State P (Ring P) Chan (At P) (List Done)} (run : Reachable table page allow s) (p : P) :
    Within (s.loc p) := by
  refine State.Reachable.locations Within (fun _ _ none => absurd none List.not_mem_nil) ?_ (fun within => within.step) run p
  intro x past f l out entered
  cases f with
  | write src n | close writable =>
    cases entered
    exact ⟨out, trivial⟩
  | read dst n =>
    cases entered
    exact ⟨out, le_max_right n 0⟩

/-- In some run of a pipe a `piperead` of `n` bytes returns `answer.1`, having stored `answer.2`
bytes. -/
def Answers (n : Int) (answer : Int × Nat) : Prop :=
  ∃ (table : List Nat) (page : Nat → UInt8) (allow : _) (s : State Nat (Ring Nat) Chan (At Nat) (List Done))
    (p : Nat) (f : Activation Nat Done) (dst : Nat → Bool) (pc : ReadAt), Reachable table page allow s ∧
      s.loc p = .at (.read f dst n pc answer.2) ∧
      piperead f dst n answer.2 s.data pc = .release (f.past ++ [⟨.read dst n, answer.1⟩])

theorem Answers.within {n : Int} {answer : Int × Nat} (answers : Answers n answer) :
    answer.1 ≤ max n 0 ∧ (answer.2 : Int) ≤ max n 0 := by
  obtain ⟨table, page, allow, s, p, f, dst, pc, run, here, returns⟩ := answers
  have within := run.within p
  rw [here] at within
  have last : Within (P := Nat) (.out (f.past ++ [⟨.read dst n, answer.1⟩])) :=
    (congrArg (fun act => act.leads s.data fun loc _ => Within loc) returns).mp within.step
  exact ⟨last _ (List.mem_append_right _ (List.mem_singleton_self _)), within.2⟩

end Xv6.Pipe

/-! ## The console -/

namespace Xv6.Console

open Monitor

variable {P : Type}

/-- A read returned no more than it was asked for. -/
def Done.Within (done : Done) : Prop :=
  match done.call with
  | .read _ n => done.result ≤ max n 0
  | _ => True

/-- A read has copied `target - n` bytes, no more than it was asked for, and so have the calls
before it. -/
def Within : Loc (At P) (List Done) → Prop
  | .out past => ∀ done ∈ past, done.Within
  | .at l => (∀ done ∈ l.frame.past, done.Within) ∧
      match l with
      | .read _ _ target n _ => target - n ≤ max target 0
      | _ => True

theorem Within.ret {l : At P} {done : Done} (within : Within (.at l)) (last : done.Within) :
    Within (P := P) (.out (l.frame.past ++ [done])) := by
  intro d mem
  rcases List.mem_append.1 mem with old | new
  · exact within.1 d old
  rw [List.mem_singleton.1 new]
  exact last

theorem Within.step {l : At P} {d : Cons P} (within : Within (.at l)) :
    (code.body l d).leads d fun loc _ => Within loc := by
  cases l with
  | read f dst target n pc =>
    have stay : ∀ pc, Within (.at (At.read f dst target n pc)) := fun _ => within
    have back : ∀ eof, Within (P := P) (.out (f.past ++ [⟨.read dst target, target - n, eof⟩])) :=
      fun _ =>
      within.ret within.2
    show (consoleread f dst target n d pc).leads d fun loc _ => Within loc
    cases pc with
    | loop =>
      rw [consoleread]
      split
      swap
      · exact back _
      rename_i more
      have next : ∀ pc, Within (.at (At.read f dst target (n - 1) pc)) := by
        refine fun _ => ⟨within.1, ?_⟩
        show target - (n - 1) ≤ max target 0
        omega
      split
      · exact ⟨stay _, stay _⟩
      split
      · split
        · exact stay _
        exact stay _
      split
      · exact next _
      exact stay _
    | sleep => exact stay _
    | done eof => exact back _
    | quit =>
      refine within.ret ?_
      show (-1 : Int) ≤ max target 0
      omega
  | intr f c pc =>
    have stay : ∀ pc, Within (.at (At.intr f c pc)) := fun _ => ⟨within.1, trivial⟩
    cases pc with
    | switch => exact stay _
    | wake => exact stay _
    | done => exact within.ret trivial

theorem Reachable.within [DecidableEq P] {table : List P} {buf : Nat → UInt8}
    {allow : State P (Cons P) Unit (At P) (List Done) → Action P Call → Prop}
    {s : State P (Cons P) Unit (At P) (List Done)} (run : Reachable table buf allow s) (p : P) :
    Within (s.loc p) := by
  refine State.Reachable.locations Within (fun _ _ none => absurd none List.not_mem_nil) ?_
    (fun within => within.step) run p
  intro x past f l out entered
  cases f with
  | read dst n =>
    cases entered
    refine ⟨out, ?_⟩
    show n - n ≤ max n 0
    omega
  | intr c =>
    cases entered
    exact ⟨out, trivial⟩

/-- In some run of the console a `consoleread` of `n` bytes returns `answer.1`, having stored
`answer.2` bytes. -/
def Answers (n : Int) (answer : Int × Nat) : Prop :=
  ∃ (table : List Nat) (buf : Nat → UInt8) (allow : _) (s : State Nat (Cons Nat) Unit (At Nat) (List Done))
    (p : Nat) (f : Activation Nat Done) (dst : Nat → Bool) (left : Int) (pc : ReadAt) (eof : Option Nat),
      Reachable table buf allow s ∧ s.loc p = .at (.read f dst n left pc) ∧ n - left = answer.2 ∧
      consoleread f dst n left s.data pc = .release (f.past ++ [⟨.read dst n, answer.1, eof⟩])

theorem Answers.within {n : Int} {answer : Int × Nat} (answers : Answers n answer) :
    answer.1 ≤ max n 0 ∧ (answer.2 : Int) ≤ max n 0 := by
  obtain ⟨table, buf, allow, s, p, f, dst, left, pc, eof, run, here, count, returns⟩ := answers
  have within := run.within p
  rw [here] at within
  have last : Within (P := Nat) (.out (f.past ++ [⟨.read dst n, answer.1, eof⟩])) :=
    (congrArg (fun act => act.leads s.data fun loc _ => Within loc) returns).mp within.step
  exact ⟨last _ (List.mem_append_right _ (List.mem_singleton_self _)), count ▸ within.2⟩

end Xv6.Console

/-! ## Inodes -/

namespace Xv6

open Prog (wp wp_seq wp_pure wp_skip)

def uint (n : Int) : Nat := (n % 2 ^ 32).toNat

/-- `readLoop`, with the number of bytes stored. -/
def readLoopCount (alloc : Kern Nat) (ip : Nat) (dst : Addr) (n : Nat) :
    Nat → Nat → Nat → (Nat → UInt8) → Kern ((Int × (Nat → UInt8)) × Nat)
  | 0, tot, _, out => return ((tot, out), tot)
  | fuel + 1, tot, off, out => do
    if tot < n then
      let addr ← bmapWith alloc ip (off / BSIZE)
      if addr = 0 then return ((tot, out), tot)
      else
        let bp ← bread addr
        let m := min (n - tot) (BSIZE - off % BSIZE)
        -- a failing copy stores the bytes before the fault
        if dst.copied tot m < m then return ((-1, out), tot + dst.copied tot m)
        else
          readLoopCount alloc ip dst n fuel (tot + m) (off + m) fun i =>
            if tot ≤ i ∧ i < tot + m then bp.byte (off % BSIZE + (i - tot)) else out i
    else return ((tot, out), tot)

/-- `readi`, with the number of bytes stored. -/
def readiCount (ip : Nat) (dst : Addr) (off n : Nat) : Kern ((Int × (Nat → UInt8)) × Nat) := do
  let size := (← inode ip).d.size
  if off > size ∨ (off + n) % 2 ^ 32 < off then return ((0, fun _ => 0), 0)
  else
    let n := if (off + n) % 2 ^ 32 > size then size - off else n
    readLoopCount balloc ip dst n n 0 off fun _ => 0

/-- `fileread`, with the number of bytes stored; `pipe` and `console` are what `piperead` and
`consoleread` return and store. -/
def filereadCount (f : Nat) (dst : Addr) (n : Int) (pipe console : Int × Nat) : Kern (Int × Nat) := do
  let ff ← file f
  if ff.readable = false then return (-1, 0)
  else
    match ff.type with
    | .pipe => return pipe
    | .device => if ff.major = CONSOLE then return console else return (-1, 0)
    | .inode => do
      ilock ff.ip
      let ((r, _), stored) ← readiCount ff.ip dst ff.off (uint n)
      if 0 < r then setFile f fun g => { g with off := g.off + r.toNat }
      iunlock ff.ip
      return (r, stored)
    | .none => Prog.fail .fileread

/-- `sys_read`, with the number of bytes stored. -/
def sysReadCount (p fd : Nat) (dst : Addr) (n : Int) (pipe console : Int × Nat) : Kern (Int × Nat) := do
  match ← argfd p fd with
  | none => return (-1, 0)
  | some f => filereadCount f dst n pipe console

section Count

variable {alloc : Kern Nat} {ip f n : Nat} {dst : Addr}

/-- Programs that return a pair, without its second component. -/
def uncounted {α β : Type} (m : Kern (α × β)) : Kern α := m >>= fun r => pure r.1

theorem uncounted_bind {α β γ : Type} (m : Kern γ) (next : γ → Kern (α × β)) :
    uncounted (m >>= next) = m >>= fun a => uncounted (next a) := Prog.bind_assoc _ _ _

theorem readLoop_uncounted (fuel : Nat) : ∀ tot off out,
    uncounted (readLoopCount alloc ip dst n fuel tot off out) =
      readLoop alloc ip dst n fuel tot off out := by
  induction fuel with
  | zero => exact fun _ _ _ => rfl
  | succ fuel ih =>
    intro tot off out
    rw [readLoopCount, readLoop]
    split
    swap
    · rfl
    rw [uncounted_bind]
    congr 1
    funext addr
    split
    · rfl
    rw [uncounted_bind]
    congr 1
    funext bp
    dsimp only
    split
    · rfl
    exact ih _ _ _

theorem readi_uncounted (off : Nat) : uncounted (readiCount ip dst off n) = readi ip dst off n := by
  rw [readiCount, readi, readiWith, uncounted_bind]
  congr 1
  funext i
  dsimp only
  split
  · rfl
  exact readLoop_uncounted _ _ _ _

theorem fileread_uncounted (n : Int) (pipe console : Int × Nat) :
    uncounted (filereadCount f dst n pipe console) = fileread f dst (uint n) pipe.1 console.1 := by
  rw [filereadCount, fileread, uncounted_bind]
  congr 1
  funext ff
  split
  · rfl
  cases ff.type with
  | inode =>
    dsimp only
    rw [uncounted_bind]
    congr 1
    funext _
    rw [uncounted_bind, ← readi_uncounted, uncounted, Prog.bind_assoc]
    congr 1
    funext ⟨⟨r, _⟩, stored⟩
    have rest : uncounted (do
        iunlock ff.ip
        return (r, stored)) = (do
        iunlock ff.ip
        return r : Kern Int) := uncounted_bind _ _
    show uncounted (if 0 < r then _ else _) = (if 0 < r then _ else _ : Kern Int)
    split
    · rw [uncounted_bind]
      exact congrArg _ (funext fun _ => rest)
    exact rest
  | none => rfl
  | pipe => rfl
  | device =>
    dsimp only
    split <;> rfl

theorem sysRead_uncounted (p fd : Nat) (n : Int) (pipe console : Int × Nat) :
    uncounted (sysReadCount p fd dst n pipe console) =
      sysRead p fd dst (uint n) pipe.1 console.1 := by
  rw [sysReadCount, sysRead, uncounted_bind]
  congr 1
  funext r
  cases r with
  | none => rfl
  | some f => exact fileread_uncounted n pipe console

theorem readLoopCount_wp (fuel : Nat) :
    ∀ (tot off : Nat) (out : Nat → UInt8) (k : Kernel), tot ≤ n →
    wp (fun _ => True) (fun _ => True) (readLoopCount alloc ip dst n fuel tot off out)
      (fun r _ => r.1.1 ≤ n ∧ tot ≤ r.2 ∧ r.2 ≤ n) k := by
  induction fuel with
  | zero => exact fun tot _ _ _ low => wp_pure ⟨Int.ofNat_le.2 low, le_refl tot, low⟩
  | succ fuel ih =>
    intro tot off out k low
    have stop : wp (fun _ => True) (fun _ => True) (pure (((tot : Int), out), tot) : Kern _)
        (fun r _ => r.1.1 ≤ (n : Int) ∧ tot ≤ r.2 ∧ r.2 ≤ n) k := wp_pure ⟨Int.ofNat_le.2 low, le_refl tot, low⟩
    rw [readLoopCount]
    split
    swap
    · exact stop
    rename_i more
    refine wp_skip fun addr t => ?_
    split
    · exact stop
    rw [wp_bread_bind]
    dsimp only
    have most : min (n - tot) (BSIZE - off % BSIZE) ≤ n - tot := min_le_left _ _
    split
    · refine wp_pure ⟨?_, ?_⟩
      · show (-1 : Int) ≤ n
        omega
      dsimp only
      omega
    refine (ih _ _ _ _ (by omega)).mono ?_
    rintro r _ ⟨result, least, stored⟩
    exact ⟨result, by omega, stored⟩

/-- Nothing is stored if the first byte has no place. -/
theorem readLoopCount_unmapped (missing : dst.holds 0 = false) (fuel off : Nat)
    (out : Nat → UInt8) (k : Kernel) :
    wp (fun _ => True) (fun _ => True) (readLoopCount alloc ip dst n fuel 0 off out)
      (fun r _ => r.1.1 ≤ 0 ∧ r.2 = 0) k := by
  cases fuel with
  | zero => exact wp_pure ⟨le_refl _, rfl⟩
  | succ fuel =>
    rw [readLoopCount]
    split
    swap
    · exact wp_pure ⟨le_refl _, rfl⟩
    rename_i more
    have rest : off % BSIZE < BSIZE := Nat.mod_lt _ (by decide)
    have none : dst.copied 0 (min (n - 0) (BSIZE - off % BSIZE)) = 0 :=
      dst.copied_iff.mpr ⟨fun _ low => absurd low (Nat.not_lt_zero _), .inr ⟨by omega, missing⟩⟩
    refine wp_skip fun addr t => ?_
    split
    · exact wp_pure ⟨le_refl _, rfl⟩
    rw [wp_bread_bind]
    dsimp only
    rw [none, if_pos (by omega)]
    exact wp_pure ⟨show (-1 : Int) ≤ 0 by decide, rfl⟩

/-- The first byte is stored if it has a place and the file has a block for it. -/
theorem readLoopCount_mapped {E : Fs} {k : Kernel} (shown : Shown E k ip) (held : dst.holds 0 = true) (more : 0 < n)
    {fuel off : Nat} (named : E.ref (k.itable ip).inum (.block (off / BSIZE)) ≠ 0)
    (out : Nat → UInt8) :
    wp (fun _ => True) (fun _ => True) (readLoopCount alloc ip dst n (fuel + 1) 0 off out) (fun r _ => 0 < r.2) k := by
  have rest : off % BSIZE < BSIZE := Nat.mod_lt _ (by decide)
  obtain ⟨m, round⟩ : ∃ m, m = min (n - 0) (BSIZE - off % BSIZE) := ⟨_, rfl⟩
  have some : 0 < dst.copied 0 m := by
    by_contra zero
    have stops := (dst.copied_iff.mp (Nat.eq_zero_of_not_pos zero)).2
    rw [held] at stops
    rcases stops with short | ⟨-, missing⟩
    · omega
    cases missing
  rw [readLoopCount, if_pos more, (shown.bmapWith named alloc).wp_bind, if_neg named, wp_bread_bind]
  dsimp only
  rw [← round]
  split
  · refine wp_pure ?_
    dsimp only
    omega
  refine (readLoopCount_wp fuel _ _ _ _ (by omega)).mono ?_
  rintro r _ ⟨-, least, -⟩
  omega

/-- What `readi` reads of `n` bytes at `off`, as it computes it. -/
def clip (size off n : Nat) : Nat :=
  if off > size ∨ (off + n) % 2 ^ 32 < off then 0
  else if (off + n) % 2 ^ 32 > size then size - off else n

theorem readiCount_wp (off : Nat) (k : Kernel) :
    wp (fun _ => True) (fun _ => True) (readiCount ip dst off n)
      (fun r _ => r.1.1 ≤ clip (k.itable ip).d.size off n ∧ r.2 ≤ clip (k.itable ip).d.size off n) k := by
  rw [readiCount, wp_inode_bind, clip]
  dsimp only
  split
  · exact wp_pure ⟨le_refl _, le_refl _⟩
  exact (readLoopCount_wp _ _ _ _ _ zero_le).mono fun _ _ within => ⟨within.1, within.2.2⟩

theorem readiCount_unmapped (missing : dst.holds 0 = false) (off : Nat) (k : Kernel) :
    wp (fun _ => True) (fun _ => True) (readiCount ip dst off n) (fun r _ => r.1.1 ≤ 0 ∧ r.2 = 0) k := by
  rw [readiCount, wp_inode_bind]
  dsimp only
  split
  · exact wp_pure ⟨le_refl _, rfl⟩
  exact readLoopCount_unmapped missing _ _ _ _

theorem readiCount_mapped {E : Fs} {k : Kernel} (shown : Shown E k ip) (held : dst.holds 0 = true)
    {off : Nat} (more : 0 < clip (k.itable ip).d.size off n)
    (named : E.ref (k.itable ip).inum (.block (off / BSIZE)) ≠ 0) :
    wp (fun _ => True) (fun _ => True) (readiCount ip dst off n) (fun r _ => 0 < r.2) k := by
  rw [readiCount, wp_inode_bind]
  unfold clip at more
  dsimp only
  split
  · rename_i refused
    rw [if_pos refused] at more
    exact absurd more (lt_irrefl _)
  rename_i inside
  rw [if_neg inside] at more
  obtain ⟨c, count⟩ : ∃ c, c + 1 =
    if (off + n) % 2 ^ 32 > (k.itable ip).d.size then (k.itable ip).d.size - off else n :=
    ⟨_, Nat.succ_pred_eq_of_pos more⟩
  rw [← count]
  exact readLoopCount_mapped shown held (Nat.succ_pos c) named _

theorem clip_le {size off : Nat} {n : Int} (word : -2 ^ 31 ≤ n ∧ n < 2 ^ 31) (fits : size < 2 ^ 32)
    (fine : 0 ≤ n ∨ -n ≤ off ∨ size ≤ off) : (clip size off (uint n) : Int) ≤ max n 0 := by
  have count : (uint n : Int) = n % 2 ^ 32 := Int.toNat_of_nonneg (Int.emod_nonneg _ (by decide))
  rw [clip]
  split
  · omega
  split
  · omega
  omega

theorem clip_pos {size off : Nat} {n : Int} (low : -2 ^ 31 ≤ n) (fits : size < 2 ^ 31)
    (negative : n < 0) (wraps : (off : Int) < -n) (inside : off < size) :
    0 < clip size off (uint n) := by
  have count : (uint n : Int) = n % 2 ^ 32 := Int.toNat_of_nonneg (Int.emod_nonneg _ (by decide))
  rw [clip, if_neg (by omega)]
  split <;> omega

/-- `readi` can take the count, or has nothing to read, or no place for the first byte. -/
def Countable (k : Kernel) (f : Nat) (dst : Addr) (n : Int) : Prop :=
  0 ≤ n ∨ -n ≤ (k.ftable f).off ∨ (k.fs.node (k.itable (k.ftable f).ip).inum).size ≤ (k.ftable f).off ∨
    dst.holds 0 = false

/-- A read from an inode stores and returns at most what it was asked for if it is `Countable`, and
only then. -/
theorem readInode_wp {k : Kernel} (fs : Consistent k) {n : Int} (word : -2 ^ 31 ≤ n ∧ n < 2 ^ 31) :
    wp (fun _ => True) (fun _ => True) (do
      ilock (k.ftable f).ip
      let ((r, _), stored) ← readiCount (k.ftable f).ip dst (k.ftable f).off (uint n)
      if 0 < r then setFile f fun g => { g with off := g.off + r.toNat }
      iunlock (k.ftable f).ip
      return (r, stored) : Kern (Int × Nat))
      (fun r _ => (r.1 ≤ max n 0 ∧ (r.2 : Int) ≤ max n 0) ↔ Countable k f dst n) k := by
  obtain ⟨D, E, ok⟩ := fs
  unfold Countable
  rw [ok.fs_eq]
  refine wp_seq _ ((ilock_wp (.inl stops_any) ok fun _ => trivial).weaken (fun _ _ => trivial) fun _ _ => trivial) ?_
  rintro _ t ⟨clean, -, -, entry, -, live⟩
  have inum : (t.itable (k.ftable f).ip).inum = (k.itable (k.ftable f).ip).inum := by rw [entry]
  have core : (t.itable (k.ftable f).ip).d =
      E.inode (t.itable (k.ftable f).ip).inum := by rw [entry]
  have size : (t.itable (k.ftable f).ip).d.size =
      (E.node (k.itable (k.ftable f).ip).inum).size := by
    rw [entry, Fs.node_of_alloc live]
  have small := ok.good.noHoles.size_le (k.itable (k.ftable f).ip).inum
  have fits : (E.node (k.itable (k.ftable f).ip).inum).size < 2 ^ 31 := small.trans_lt (by decide)
  have shown : Shown E t (k.ftable f).ip := (clean.loaded core (by rw [inum]; exact live)).shown
  have read : wp (fun _ => True) (fun _ => True)
      (readiCount (k.ftable f).ip dst (k.ftable f).off (uint n))
      (fun r _ => (r.1.1 ≤ max n 0 ∧ (r.2 : Int) ≤ max n 0) ↔ 0 ≤ n ∨ -n ≤ (k.ftable f).off ∨
        (E.node (k.itable (k.ftable f).ip).inum).size ≤ (k.ftable f).off ∨ dst.holds 0 = false) t := by
    by_cases fine : 0 ≤ n ∨ -n ≤ (k.ftable f).off ∨ (E.node (k.itable (k.ftable f).ip).inum).size ≤ (k.ftable f).off
    · have bound := clip_le word (fits.trans (by decide)) fine
      rw [← size] at bound
      refine (readiCount_wp _ t).mono ?_
      rintro r _ ⟨most, most'⟩
      refine iff_of_true ⟨most.trans bound, (Int.ofNat_le.2 most').trans bound⟩ ?_
      rw [← or_assoc, ← or_assoc, or_assoc (a := 0 ≤ n)]
      exact .inl fine
    obtain ⟨negative, wraps, inside⟩ : n < 0 ∧ ((k.ftable f).off : Int) < -n ∧
        (k.ftable f).off < (E.node (k.itable (k.ftable f).ip).inum).size := by omega
    cases first : dst.holds 0 with
    | false =>
      refine (readiCount_unmapped first _ t).mono ?_
      rintro r _ ⟨result, stored⟩
      exact iff_of_true ⟨by omega, by omega⟩ (.inr (.inr (.inr rfl)))
    | true =>
      refine (readiCount_mapped shown first ?_ ?_).mono ?_
      · rw [size]
        exact clip_pos word.1 fits negative wraps inside
      · rw [inum]
        refine ok.good.noHoles _ _ ?_
        exact (Nat.div_mul_le_self _ BSIZE).trans_lt inside
      rintro r _ stored
      exact iff_of_false (fun within => by omega)
        (by simp only [Bool.true_eq_false, or_false]; omega)
  refine wp_seq _ read ?_
  rintro ⟨⟨r, _⟩, stored⟩ u within
  have done : ∀ v, wp (fun _ => True) (fun _ => True) (do
      iunlock (k.ftable f).ip
      return (r, stored)) (fun r _ => (r.1 ≤ max n 0 ∧ (r.2 : Int) ≤ max n 0) ↔ _) v :=
    fun v => wp_skip fun _ _ => wp_pure within
  show wp _ _ (if 0 < r then _ else _ : Kern (Int × Nat)) _ u
  split
  · exact wp_skip fun _ v => done v
  exact done u

end Count

/-- `read` does not transfer more than it was asked for, in what it returns and in what it stores
in user memory, if the descriptor is not one of an inode that may be read, and for an inode if the
count is not negative, if its sum with the offset wraps around, if the offset is at the end or if
there is no place for the first byte; in all other cases it does. A pipe and the console answer
what some run of `piperead` or `consoleread` answers. -/
theorem read_at_most {n r : Int} (word : -2 ^ 31 ≤ n ∧ n < 2 ^ 31) {k t : Kernel}
    {p fd stored : Nat} {dst : Addr} {pipe console : Int × Nat} (fs : Consistent k)
    (piped : ∀ f, (k.proc p).ofile fd = some f → (k.ftable f).type = .pipe → Pipe.Answers n pipe)
    (typed : ∀ f, (k.proc p).ofile fd = some f → (k.ftable f).type = .device →
      Console.Answers n console)
    (returns : (sysReadCount p fd dst n pipe console k).result = .ok ((r, stored), t)) :
    (r ≤ max n 0 ∧ (stored : Int) ≤ max n 0) ↔
      ∀ f, fd < NOFILE → (k.proc p).ofile fd = some f → (k.ftable f).readable = true →
        (k.ftable f).type = .inode →
        Countable k f dst n := by
  have run : wp (fun _ => True) (fun _ => True) (sysReadCount p fd dst n pipe console)
      (fun r _ => (r.1 ≤ max n 0 ∧ (r.2 : Int) ≤ max n 0) ↔
        ∀ f, fd < NOFILE → (k.proc p).ofile fd = some f → (k.ftable f).readable = true → (k.ftable f).type = .inode →
          Countable k f dst n) k := by
    have refused : (-1 : Int) ≤ max n 0 ∧ ((0 : Nat) : Int) ≤ max n 0 := by omega
    rw [sysReadCount, argfd]
    by_cases low : fd < NOFILE
    swap
    · rw [if_neg low]
      exact wp_pure (iff_of_true refused fun _ low' => absurd low' low)
    rw [if_pos low]
    show wp _ _ (match (k.proc p).ofile fd with | none => _ | some f => _) _ k
    cases opened : (k.proc p).ofile fd with
    | none => exact wp_pure (iff_of_true refused nofun)
    | some f =>
      have only : ∀ {P : Nat → Prop}, (∀ g, fd < NOFILE → some f = some g → P g) ↔ P f :=
        ⟨fun all => all f low rfl, fun here g _ eq => Option.some.inj eq ▸ here⟩
      simp only [only]
      show wp _ _ (if (k.ftable f).readable = false then _ else _ : Kern (Int × Nat)) _ k
      cases readable : (k.ftable f).readable with
      | false => exact wp_pure (iff_of_true refused nofun)
      | true =>
        rw [if_neg (by decide)]
        cases type : (k.ftable f).type with
        | none => exact Prog.wp_fail trivial
        | pipe => exact wp_pure (iff_of_true (piped f opened type).within nofun)
        | device =>
          show wp _ _ (if (k.ftable f).major = CONSOLE then _ else _ : Kern (Int × Nat)) _ k
          split
          · exact wp_pure (iff_of_true (typed f opened type).within nofun)
          exact wp_pure (iff_of_true refused nofun)
        | inode => exact (readInode_wp fs word).mono fun _ _ exact => exact.trans ⟨fun c _ _ => c, fun c => c rfl rfl⟩
  exact run.post_of_ok returns

def tenWritten : List FsCall := tenBytes ++ [.iunlock 0, .endOp]

def openRead (k : Kernel) : Kernel :=
  (k.setFile 0 ⟨.inode, 1, true, true, 0, 0, 0⟩).setProc 0 ⟨fun fd => if fd = 0 then some 0 else none, none⟩

theorem fiveOfTen_read : ∃ k t, Consistent k ∧ (k.ftable 0).type = .inode ∧
    (sysReadCount 0 0 (filled 0) 5 (0, 0) (0, 0) k).result = .ok ((5, 5), t) ∧
      (5 : Int) ≤ max 5 0 := by
  obtain ⟨k, -, ⟨D, E, ok⟩, runs⟩ := FsRuns.exists_play tenWritten (fun k =>
    ((sysReadCount 0 0 (filled 0) 5 (0, 0) (0, 0) (openRead k)).result.toOption.map Prod.fst) = some (5, 5)) (by decide +kernel)
  have consistent : Consistent (openRead k) := ⟨D, E, (ok.setFile _).setProc _⟩
  cases ended : (sysReadCount 0 0 (filled 0) 5 (0, 0) (0, 0) (openRead k)).result with
  | error e =>
    rw [ended] at runs
    cases runs
  | ok r =>
    obtain ⟨r, t⟩ := r
    rw [ended] at runs
    cases runs
    have file : ∀ f, ((openRead k).proc 0).ofile 0 = some f →
        ((openRead k).ftable f).type = .inode := by
      rintro _ ⟨⟩
      rfl
    have most := (read_at_most (n := 5) (by decide) consistent
      (fun f opened pipe => by rw [file f opened] at pipe; cases pipe)
      (fun f opened device => by rw [file f opened] at device; cases device) ended).mpr
        fun _ _ _ _ _ => .inl (by decide)
    exact ⟨openRead k, t, consistent, rfl, ended, most.1⟩

/-- `read(fd, buf, -1)` at the start of the file reads it whole. -/
theorem minusOne_reads_all : ∃ k t, FsRuns blankKernel k ∧ Consistent (openRead k) ∧
    (sysReadCount 0 0 (filled 0) (-1) (0, 0) (0, 0) (openRead k)).result = .ok ((10, 10), t) ∧
      ¬(10 : Int) ≤ max (-1) 0 := by
  obtain ⟨k, run, ⟨D, E, ok⟩, runs⟩ := FsRuns.exists_play tenWritten (fun k =>
    ((sysReadCount 0 0 (filled 0) (-1) (0, 0) (0, 0) (openRead k)).result.toOption.map Prod.fst) = some (10, 10))
    (by decide +kernel)
  have consistent : Consistent (openRead k) := ⟨D, E, (ok.setFile _).setProc _⟩
  cases ended : (sysReadCount 0 0 (filled 0) (-1) (0, 0) (0, 0) (openRead k)).result with
  | error e =>
    rw [ended] at runs
    cases runs
  | ok r =>
    obtain ⟨r, t⟩ := r
    rw [ended] at runs
    cases runs
    exact ⟨k, t, run, consistent, ended, by decide⟩

end Xv6
