import Xv6.Vm.Pipes

/-!
# Every call on files, and every run

Which slots are those of processes with open files; the calls of `sysfile.c` that take or put inodes;
and what holds in every state of every run: no page is lost or used twice, and every count of
references is exact.
-/

namespace Xv6.Vm

open Finset (univ)
open Option (map_some map_none map_id)
open Multiset (count_cons cons_swap nodup_add coe_nodup nodup_of_le count_zero)
open Function renaming update → upd, update_self → upd_self, update_of_ne → upd_ne,
  update_apply → upd_apply
open Xv6.Task

section Active

variable {P : Type} [DecidableEq P] {L : Layout} {all others : Multiset Nat} {s s' : Sys P} {x y : P} {v : Slot P}

variable [Fintype P]

section

variable (inv : Sys.Inv L all others s)
include inv

theorem Sys.Inv.moves {a : Action P} (step : s.step L a = some (.ok s')) : s'.slot = s.slot ∨
    (∃ x v, s'.slot = upd s.slot x v ∧ (s.slot x).Active ∧ (v.Active ∨ a = .exit x)) ∨
    ∃ x c u v, s'.slot = upd (upd s.slot c u) x v ∧ (s.slot x).Active ∧ v.Active ∧
      ¬(s.slot c).Active ∧ (u.Active → World.forked s a = some (x, c)) := by
  have is : ∀ {z v}, s.slot z = v → ((s.slot z).Active ↔ v.Active) := fun eq => by rw [eq]
  cases a with
  | sbrk x n | exec x image uargv =>
    simp only [Sys.step] at step
    split at step
    · rename_i mine
      cases step
      exact .inr (.inl ⟨x, _, rfl, (is mine).2 trivial, .inl trivial⟩)
    cases step
  | fork x c =>
    simp only [Sys.step] at step
    split at step
    · rename_i mine unused
      cases step
      exact .inr (.inr ⟨x, c, _, _, rfl, (is mine).2 trivial, trivial, (is unused).1, False.elim⟩)
    cases step
  | exit x =>
    simp only [Sys.step] at step
    split at step
    · rename_i mine
      split at step
      · cases step
      cases step
      exact .inr (.inl ⟨x, _, rfl, (is mine).2 trivial, .inr rfl⟩)
    cases step
  | wait x c addr =>
    simp only [Sys.step] at step
    split at step
    · rename_i mine zombie
      split at step
      · split at step
        · cases step
          exact .inl rfl
        cases step
        exact .inr (.inr ⟨x, c, _, _, rfl, (is mine).2 trivial, trivial, (is zombie).1, False.elim⟩)
      cases step
    cases step
  | run x fails =>
    simp only [Sys.step] at step
    split at step
    swap
    · cases step
    rename_i child held task mine
    have step := Option.some.inj step
    have self := (is mine).2 trivial
    cases task with
    | fail e => cases step
    | take next =>
      simp only [Sys.go] at step
      split at step <;> cases step <;> exact .inr (.inl ⟨x, _, rfl, self, .inl trivial⟩)
    | give page next =>
      cases step
      exact .inr (.inl ⟨x, _, rfl, self, .inl trivial⟩)
    | done e =>
      cases step
      cases child with
      | none => exact .inr (.inl ⟨x, _, rfl, self, .inl trivial⟩)
      | some c =>
        have reserved := (is (inv.reserved x c held _ mine)).1
        obtain ⟨m, - | np⟩ := e
        · exact .inr (.inr ⟨x, c, _, _, rfl, self, trivial, reserved, False.elim⟩)
        exact .inr (.inr ⟨x, c, _, _, rfl, self, trivial, reserved,
          fun _ => by rw [World.forked, mine]⟩)

theorem Sys.Inv.active {a : Action P} (step : s.step L a = some (.ok s'))
    (stays : ∀ x, a = .exit x → y ≠ x) (active : (s.slot y).Active) : (s'.slot y).Active := by
  rcases inv.moves step with same | ⟨x, v, slots, -, kept⟩ | ⟨x, c, u, v, slots, -, kept, fresh, -⟩
  · rwa [same]
  · rw [slots, upd_apply]
    split
    · rename_i eq
      exact kept.resolve_right fun exits => stays x exits eq
    exact active
  rw [slots, upd_apply]
  split
  · exact kept
  rwa [upd_ne]
  rintro rfl
  exact fresh active

theorem Sys.Inv.was_active {a : Action P} (step : s.step L a = some (.ok s'))
    (active : (s'.slot y).Active) : (s.slot y).Active ∨ ∃ x, World.forked s a = some (x, y) := by
  rcases inv.moves step with same | ⟨x, v, slots, mine, -⟩ | ⟨x, c, u, v, slots, mine, -, -, forks⟩
  · rw [same] at active
    exact .inl active
  · rw [slots, upd_apply] at active
    split at active
    · rename_i eq
      exact .inl (eq ▸ mine)
    exact .inl active
  rw [slots, upd_apply, upd_apply] at active
  split at active
  · rename_i eq
    exact .inl (eq ▸ mine)
  split at active
  · rename_i eq
    exact .inr ⟨x, eq ▸ forks active⟩
  exact .inl active

end

end Active

namespace World

variable {P : Type} [DecidableEq P] {L : Layout} {all others : Multiset Nat} {w w' w₁ : World P} {x c : P}
  {extra : Multiset (Fin NFILE)} {f : Fin NFILE} {fd : Fin NOFILE}

variable {a : Action P}

omit [DecidableEq P] in
theorem forked_some {s : Sys P} (forks : forked s a = some (x, c)) :
    ∃ fails held m np, a = .run x fails ∧ s.slot x = .call (some c) held (.done ⟨m, some np⟩) := by
  unfold forked at forks
  split at forks
  · split at forks
    · rename_i mine
      cases forks
      exact ⟨_, _, _, _, rfl, mine⟩
    cases forks
  cases forks

theorem step_sys (other : ∀ x, a ≠ .exit x) (other' : ∀ x image uargv, a ≠ .exec x image uargv) :
    w.step L (.sys a) = match w.act L a, forked w.sys a with
      | some (.ok w), some (x, c) => some (w.inherit x c)
      | r, _ => r := by
  cases a with
  | exit x => exact absurd rfl (other x)
  | exec x image uargv => exact absurd rfl (other' x image uargv)
  | _ => rfl

theorem act_ok (step : w.act L a = some (.ok w')) :
    ∃ sys, w.sys.step L a = some (.ok sys) ∧ w' = { w with sys } := by
  unfold act at step
  split at step
  · cases step
  · cases step
  rename_i sys stepped
  cases step
  exact ⟨sys, stepped, rfl⟩

variable [Fintype P]

theorem Inv.act (inv : Inv L all others 0 w)
    (stays : ∀ x, a = .exit x → ∀ fd, w.ofile (x, fd) = none) (step : w.act L a = some (.ok w')) :
    Inv L all others 0 w' := by
  obtain ⟨sys, stepped, rfl⟩ := act_ok step
  refine ⟨inv.sys.step stepped, inv.refs, inv.closed, inv.ends, inv.sole, inv.used, inv.live, ?_⟩
  intro y fd at'
  apply inv.sys.active stepped _ (inv.idle y fd at')
  rintro x exits rfl
  exact at' (stays y exits fd)

theorem Inv.act_error {e : FileFault} (inv : Inv L all others 0 w)
    (step : w.act L a = some (.error e)) : e = .sys .initExiting := by
  unfold World.act at step
  split at step
  · cases step
  · rename_i e' stepped
    cases step
    rw [inv.sys.step_error stepped]
  cases step

theorem Inv.inodes {iref : Fin NINODE → Nat} {cwd : P → Option (Fin NINODE)}
    (inv : Inv L all others extra w) :
    Inv L all others extra { w with iref, cwd } :=
  ⟨inv.sys, inv.refs, inv.closed, inv.ends, inv.sole, inv.used, inv.live, inv.idle⟩

section Irefs

variable {inodes inodes' : Multiset (Fin NINODE)} {ip : Fin NINODE}

theorem Irefs.idup (counted : w.Irefs inodes) (ip : Fin NINODE) :
    (w.idup ip).Irefs (ip ::ₘ inodes) := by
  intro i
  have old := counted i
  show upd w.iref ip (w.iref ip + 1) i =
    (pointers (fun f => (w.ftable f).ip) id i).card + (pointers w.cwd id i).card + (ip ::ₘ inodes).count i
  rw [count_cons]
  by_cases eq : i = ip
  · rw [eq, upd_self, if_pos rfl]
    rw [eq] at old
    omega
  rw [upd_ne eq, if_neg eq]
  omega

theorem Irefs.iput (counted : w.Irefs (ip ::ₘ inodes)) : (w.iput ip).Irefs inodes := by
  intro i
  have old := counted i
  rw [count_cons] at old
  show upd w.iref ip (w.iref ip - 1) i =
    (pointers (fun f => (w.ftable f).ip) id i).card + (pointers w.cwd id i).card + inodes.count i
  by_cases eq : i = ip
  · rw [eq, upd_self]
    rw [eq, if_pos rfl] at old
    omega
  rw [upd_ne eq]
  rw [if_neg eq] at old
  omega

theorem walkPath_spec (found : List (Fin NINODE)) :
    ∀ {w : World P} {ip : Fin NINODE}, w.Irefs (ip ::ₘ inodes) →
    (w.walkPath ip found).2.Irefs ((w.walkPath ip found).1 ::ₘ inodes) ∧
      ∃ iref, (w.walkPath ip found).2 = { w with iref } := by
  induction found with
  | nil =>
    intro w ip counted
    exact ⟨counted, w.iref, rfl⟩
  | cons next rest ih =>
    intro w ip counted
    have both := counted.idup next
    rw [cons_swap] at both
    obtain ⟨counted', iref, eq⟩ := ih both.iput
    exact ⟨counted', iref, eq⟩

theorem namex_spec (path : Path) (counted : w.Irefs inodes) (here : w.cwd x ≠ none) :
    ∃ r w', w.namex x path = .ok (r, w') ∧ w'.Irefs (held inodes r) ∧
      ∃ iref, w' = { w with iref } := by
  cases start : path.root.or (w.cwd x) with
  | none => exact absurd (Option.or_eq_none_iff.mp start).2 here
  | some ip =>
    obtain ⟨counted', iref, eq⟩ := walkPath_spec path.found (counted.idup ip)
    cases returns : path.returns with
    | true =>
      refine ⟨some _, _, ?_, counted', iref, eq⟩
      simp only [namex, start, returns]
      rfl
    | false =>
      have put : ∃ iref, ((w.idup ip).walkPath ip path.found).2.iput ((w.idup ip).walkPath ip path.found).1 =
          { w with iref } := by
        rw [eq]
        exact ⟨_, rfl⟩
      refine ⟨none, _, ?_, counted'.iput, put⟩
      simp only [namex, start, returns]
      rfl

theorem createIn_spec {dp : Fin NINODE} (creation : Creation) (counted : w.Irefs (dp ::ₘ inodes)) :
    (w.createIn dp creation).2.Irefs (held inodes (w.createIn dp creation).1) ∧
      ∃ iref, (w.createIn dp creation).2 = { w with iref } := by
  cases creation with
  | present ip opens =>
    have both := counted.idup ip
    rw [cons_swap] at both
    cases opens with
    | true => exact ⟨both.iput, _, rfl⟩
    | false => exact ⟨both.iput.iput, _, rfl⟩
  | full => exact ⟨counted.iput, _, rfl⟩
  | fresh ip links =>
    have both := counted.idup ip
    cases links with
    | true =>
      rw [cons_swap] at both
      exact ⟨both.iput, _, rfl⟩
    | false => exact ⟨both.iput.iput, _, rfl⟩

theorem find_spec (target : Target) (counted : w.Irefs inodes) (here : w.cwd x ≠ none) :
    ∃ r w', w.find x target = .ok (r, w') ∧ w'.Irefs (held inodes r) ∧
      ∃ iref, w' = { w with iref } := by
  cases target with
  | name path => exact namex_spec path counted here
  | create path creation =>
    obtain ⟨r, w₁, walks, counted₁, iref, eq⟩ := namex_spec path counted here
    cases r with
    | none =>
      refine ⟨none, w₁, ?_, counted₁, iref, eq⟩
      simp only [find, walks, bind, Except.bind]
      rfl
    | some dp =>
      obtain ⟨counted₂, iref₂, eq₂⟩ := createIn_spec creation counted₁
      refine ⟨_, _, ?_, counted₂, iref₂, ?_⟩
      · simp only [find, walks, bind, Except.bind]
        rfl
      rw [eq₂, eq]

theorem Irefs.setCwd {new : Option (Fin NINODE)} (counted : w.Irefs inodes)
    (moves : ∀ i, inodes'.count i + points id i new = inodes.count i + points id i (w.cwd x)) :
    Irefs inodes' { w with cwd := upd w.cwd x new } := by
  intro i
  have old := counted i
  have card := card_pointers_update w.cwd id i x new
  have move := moves i
  show w.iref i = (pointers (fun f => (w.ftable f).ip) id i).card +
    (pointers (upd w.cwd x new) id i).card + inodes'.count i
  omega

theorem Irefs.setIp (counted : w.Irefs (ip ::ₘ inodes)) (obj : (w.ftable f).obj = .none) :
    Irefs inodes (w.setFile f { w.ftable f with obj := .inode ip }) := by
  intro i
  have old := counted i
  have card := card_pointers_update (fun g => (w.ftable g).ip) id i f (some ip)
  have ips : (fun g => ((w.setFile f { w.ftable f with obj := .inode ip }).ftable g).ip) =
      upd (fun g => (w.ftable g).ip) f (some ip) := by
    funext g
    by_cases eq : g = f
    · rw [eq, ftable_self, upd_self]
      rfl
    rw [ftable_of_ne eq, upd_ne eq]
  have none : (w.ftable f).ip = none := by rw [File.ip, obj]
  rw [count_cons] at old
  simp only [points, none, map_some, map_none, id_eq, Option.some.injEq, reduceCtorEq,
    if_false] at card
  show w.iref i = (pointers (fun g => ((w.setFile f { w.ftable f with obj := .inode ip }).ftable g).ip) id i).card +
    (pointers w.cwd id i).card + inodes.count i
  rw [ips]
  by_cases eq : i = ip
  · rw [if_pos eq] at old
    rw [if_pos eq.symm] at card
    omega
  rw [if_neg eq] at old
  rw [if_neg (fun h => eq h.symm)] at card
  omega

end Irefs

theorem Inv.setIp {ip : Fin NINODE} (inv : Inv L all others extra w)
    (obj : (w.ftable f).obj = .none) (used : (w.ftable f).ref ≠ 0) :
    Inv L all others extra (w.setFile f { w.ftable f with obj := .inode ip }) := by
  have pipe : ∀ g, ((w.setFile f { w.ftable f with obj := .inode ip }).ftable g).pipe =
    (w.ftable g).pipe := by
    intro g
    by_cases eq : g = f
    · rw [eq, ftable_self, File.pipe, File.pipe, obj]
    rw [ftable_of_ne eq]
  constructor
  · exact inv.sys
  · intro g
    by_cases eq : g = f
    · rw [eq, ftable_self]
      exact inv.refs f
    rw [ftable_of_ne eq]
    exact inv.refs g
  · intro g none
    by_cases eq : g = f
    · rw [eq, ftable_self] at none
      exact absurd none used
    rw [ftable_of_ne eq] at none ⊢
    exact inv.closed g none
  · intro g pi writable atg
    exact inv.ends g pi writable ((pipe g).symm.trans atg)
  · intro g h e atg ath
    exact inv.sole g h e ((pipe g).symm.trans atg) ((pipe h).symm.trans ath)
  · intro pi mem writable opened
    obtain ⟨g, atg⟩ := inv.used pi mem writable opened
    exact ⟨g, (pipe g).trans atg⟩
  · exact inv.live
  exact inv.idle

/-- Between the calls on files: no reference is in the hands of a call, and exactly the processes
that may have open files have a directory. -/
structure Good (L : Layout) (all others : Multiset Nat) (w : World P) : Prop where
  inv : Inv L all others 0 w
  irefs : w.Irefs 0
  dir : ∀ x, (w.sys.slot x).Active ↔ w.cwd x ≠ none

section

variable (good : Good L all others w)
include good

theorem Good.of_kept (inv : Inv L all others 0 w') (kept : Kept w w') : Good L all others w' := by
  refine ⟨inv, kept.irefs 0 good.irefs, ?_⟩
  intro x
  rw [kept.slot, kept.cwd]
  exact good.dir x

theorem Good.sysDup (active : (w.sys.slot x).Active) :
    ∃ w', w.sysDup x fd = .ok w' ∧ Good L all others w' := by
  cases at' : w.ofile (x, fd) with
  | none =>
    refine ⟨w, ?_, good⟩
    rw [World.sysDup, at']
  | some f =>
    cases first : w.fdalloc x f with
    | none =>
      refine ⟨w, ?_, good⟩
      simp only [World.sysDup, at', first]
    | some r =>
      obtain ⟨fd', w₁⟩ := r
      have passes := first
      obtain ⟨fd'', found, eq⟩ := Option.map_eq_some_iff.mp first
      cases eq
      have passed := List.find?_some found
      have free : w.ofile (x, fd') = none := of_decide_eq_true passed
      have pos := card_pointers_pos (f := id) at'
      have refs := good.inv.refs f
      have dup : Inv L all others (f ::ₘ 0)
          (w.setFile f { w.ftable f with ref := (w.ftable f).ref + 1 }) := by
        apply good.inv.recount
        · rw [refs, Multiset.count_cons_self]
          rfl
        · intro g other
          rw [Multiset.count_cons_of_ne other]
        omega
      have stored := dup.point free active
      have dups : (w.setOfile x fd' (some f)).filedup f =
          .ok ((w.setFile f { w.ftable f with ref := (w.ftable f).ref + 1 }).setOfile x fd' (some f)) := by
        simp only [id_eq] at pos
        apply if_neg
        show ¬(w.ftable f).ref < 1
        omega
      refine ⟨_, ?_, good.of_kept stored ?_⟩
      · simp only [World.sysDup, at', passes]
        exact dups
      exact ⟨rfl, rfl, rfl, fun inodes counted => counted.of_ip rfl rfl (ip_setFile rfl)⟩

theorem Good.putBack {ip : Fin NINODE} {iref : Fin NINODE → Nat}
    (counted : Irefs (ip ::ₘ 0) { w with iref }) :
    Good L all others (World.iput { w with iref } ip) :=
  ⟨good.inv.inodes, counted.iput, good.dir⟩

section

variable (active : (w.sys.slot x).Active)
include active

theorem Good.sysOpen {target : Target} {refused : Bool}
    : ∃ w', w.sysOpen L x target refused = .ok w' ∧ Good L all others w' := by
  obtain ⟨r, w₀, finds, counted, iref, rfl⟩ := find_spec target good.irefs ((good.dir x).mp active)
  cases r with
  | none =>
    refine ⟨_, ?_, good.inv.inodes, counted, good.dir⟩
    simp only [World.sysOpen, finds, bind, Except.bind]
    rfl
  | some ip =>
    have inv : Inv L all others 0 { w with iref } := good.inv.inodes
    have undone := good.putBack counted
    cases refused with
    | true =>
      refine ⟨_, ?_, undone⟩
      simp only [World.sysOpen, finds, bind, Except.bind]
      rfl
    | false =>
      cases first : World.filealloc { w with iref } with
      | none =>
        refine ⟨_, ?_, undone⟩
        simp only [World.sysOpen, finds, bind, Except.bind, first]
        rfl
      | some r =>
        obtain ⟨f, w₁⟩ := r
        obtain ⟨inv₁, same₁, -, obj, ref, -⟩ := inv.filealloc first
        have counted₁ : w₁.Irefs (ip ::ₘ 0) := same₁.irefs _ counted
        have slot : w₁.sys.slot = w.sys.slot := same₁.slot
        have cwd : w₁.cwd = w.cwd := same₁.cwd
        cases second : w₁.fdalloc x f with
        | none =>
          obtain ⟨w₂, closes, inv₂, same₂⟩ := inv₁.fileclose
          refine ⟨w₂.iput ip, ?_, inv₂.inodes, (same₂.irefs _ counted₁).iput, ?_⟩
          · simp only [World.sysOpen, finds, bind, Except.bind, first, second, closes]
            rfl
          intro y
          show (w₂.sys.slot y).Active ↔ w₂.cwd y ≠ none
          rw [same₂.slot, same₂.cwd, slot, cwd]
          exact good.dir y
        | some r =>
          obtain ⟨fd, w₂⟩ := r
          rw [← slot] at active
          obtain ⟨inv₂, -, eq⟩ := inv₁.fdalloc active second
          refine ⟨w₂.setFile f { w₂.ftable f with obj := .inode ip }, ?_, ?_, ?_, ?_⟩
          · simp only [World.sysOpen, finds, bind, Except.bind, first, second]
            rfl
          · rw [eq] at inv₂ ⊢
            apply inv₂.setIp obj
            show (w₁.ftable f).ref ≠ 0
            rw [ref]
            exact Nat.one_ne_zero
          · rw [eq]
            exact (kept_setOfile.irefs _ counted₁).setIp obj
          intro y
          rw [eq]
          show (w₁.sys.slot y).Active ↔ w₁.cwd y ≠ none
          rw [slot, cwd]
          exact good.dir y

theorem Good.sysChdir {path : Path} {isDir : Bool} :
    ∃ w', w.sysChdir x path isDir = .ok w' ∧ Good L all others w' := by
  obtain ⟨r, w₀, finds, counted, iref, rfl⟩ := namex_spec path good.irefs ((good.dir x).mp active)
  cases r with
  | none =>
    refine ⟨_, ?_, good.inv.inodes, counted, good.dir⟩
    simp only [World.sysChdir, finds, bind, Except.bind]
    rfl
  | some ip =>
    cases isDir with
    | false =>
      refine ⟨_, ?_, good.putBack counted⟩
      simp only [World.sysChdir, finds, bind, Except.bind]
      rfl
    | true =>
      cases old : w.cwd x with
      | none => exact absurd old ((good.dir x).mp active)
      | some o =>
        refine ⟨{ World.iput { w with iref } o with cwd := upd w.cwd x (some ip) }, ?_,
          good.inv.inodes, ?_, ?_⟩
        · simp only [World.sysChdir, finds, bind, Except.bind, old]
          rfl
        · have moved : Irefs (o ::ₘ 0) { w with iref, cwd := upd w.cwd x (some ip) } := by
            apply counted.setCwd
            intro i
            show _ = _ + points id i (w.cwd x)
            rw [old]
            simp only [points, held, count_cons, map_some, id_eq, Option.some.injEq, eq_comm]
            omega
          exact moved.iput
        intro y
        show (w.sys.slot y).Active ↔ upd w.cwd x (some ip) y ≠ none
        by_cases eq : y = x
        · rw [eq, upd_self]
          exact ⟨fun _ => Option.some_ne_none _, fun _ => active⟩
        rw [upd_ne eq]
        exact good.dir y

theorem Good.giveUp :
    ∃ w₁, w.giveUp L x = .ok w₁ ∧ Inv L all others 0 w₁ ∧ w₁.Irefs 0 ∧
      (∀ fd, w₁.ofile (x, fd) = none) ∧
      w₁.cwd = upd w.cwd x none ∧ w₁.sys.slot = w.sys.slot := by
  obtain ⟨w₁, closes, inv₁, closed, -, kept⟩ := Inv.closeAll (x := x)
    (List.finRange NOFILE) good.inv
  have here := (good.dir x).mp active
  cases old : w.cwd x with
  | none => exact absurd old here
  | some o =>
    have there : w₁.cwd x = some o := by
      rw [kept.cwd]
      exact old
    refine ⟨{ w₁.iput o with cwd := upd w₁.cwd x none }, ?_, inv₁.inodes, ?_, ?_, ?_, kept.slot⟩
    · rw [World.giveUp, closes]
      simp only [bind, Except.bind, there]
      rfl
    · have left : Irefs (o ::ₘ 0) { w₁ with cwd := upd w₁.cwd x none } := by
        apply (kept.irefs 0 good.irefs).setCwd
        intro i
        rw [there]
        simp only [points, count_cons, map_some, map_none, id_eq, Option.some.injEq,
          reduceCtorEq, if_false, eq_comm]
        omega
      exact left.iput
    · intro fd
      exact closed fd (List.mem_finRange fd)
    show upd w₁.cwd x none = upd w.cwd x none
    rw [kept.cwd]

end

theorem Good.inherit (step : w.act L a = some (.ok w')) (forks : forked w.sys a = some (x, c)) :
    ∃ w₁, w'.inherit x c = .ok w₁ ∧ Good L all others w₁ := by
  obtain ⟨fails, held, m, np, rfl, mine⟩ := forked_some forks
  have inv' : Inv L all others 0 w' := by
    apply good.inv.act _ step
    intro y exits
    cases exits
  obtain ⟨sys, stepped, rfl⟩ := act_ok step
  have used := good.inv.sys.reserved x c held _ mine
  have ne : c ≠ x := by
    rintro rfl
    rw [mine] at used
    cases used
  have was : ∀ y, (sys.slot y).Active → (w.sys.slot y).Active ∨ y = c := by
    intro y active
    rcases good.inv.sys.was_active stepped active with active | ⟨z, forks'⟩
    · exact .inl active
    rw [forks] at forks'
    cases forks'
    exact .inr rfl
  have stays : ∀ y, (w.sys.slot y).Active → (sys.slot y).Active := by
    intro y active
    apply good.inv.sys.active stepped _ active
    intro z exits
    cases exits
  have child : (sys.slot c).Active := by
    simp only [Sys.step, mine, Sys.go, Sys.finish] at stepped
    cases stepped
    show Slot.Active (((w.sys.set c (.user np)).set x (.user m)).slot c)
    rw [Sys.slot_set_of_ne ne, Sys.slot_set_self]
    exact trivial
  have dead : ¬(w.sys.slot c).Active := by
    rw [used]
    exact id
  have free : ∀ fd ∈ List.finRange NOFILE, w.ofile (c, fd) = none := by
    intro fd _
    by_contra at'
    exact dead (good.inv.idle c fd at')
  obtain ⟨w₁, dups, inv₁, kept⟩ := Inv.dupAll (x := x) (List.nodup_finRange NOFILE) inv' child free
  have parent : (w.sys.slot x).Active := by
    rw [mine]
    exact trivial
  cases dir : w.cwd x with
  | none => exact absurd dir ((good.dir x).mp parent)
  | some ip =>
    have here : w₁.cwd x = some ip := by
      rw [kept.cwd]
      exact dir
    have none : w₁.cwd c = none := by
      rw [kept.cwd]
      by_contra at'
      exact dead ((good.dir c).mpr at')
    have counted : w₁.Irefs 0 := kept.irefs 0 good.irefs
    refine ⟨{ w₁.idup ip with cwd := upd w₁.cwd c (some ip) }, ?_, inv₁.inodes, ?_, ?_⟩
    · rw [World.inherit, dups]
      simp only [bind, Except.bind, here]
      rfl
    · apply (counted.idup ip).setCwd
      intro i
      have none' : (w₁.idup ip).cwd c = .none := none
      rw [none']
      simp only [points, count_cons, map_some, map_none, id_eq, Option.some.injEq,
        reduceCtorEq, if_false, eq_comm]
      omega
    intro y
    show (w₁.sys.slot y).Active ↔ upd w₁.cwd c (some ip) y ≠ .none
    rw [kept.slot, kept.cwd]
    by_cases eq : y = c
    · rw [eq, upd_self]
      exact ⟨fun _ => Option.some_ne_none _, fun _ => child⟩
    rw [upd_ne eq]
    constructor
    · intro active
      rcases was y active with active | same
      · exact (good.dir y).mp active
      exact absurd same eq
    intro at'
    exact stays y ((good.dir y).mpr at')

/-- The step of a process that is neither the end of a `fork` nor `exit`. -/
theorem Good.act (other : ∀ x, a ≠ .exit x) (alone : forked w.sys a = none)
    (step : w.act L a = some (.ok w')) : Good L all others w' := by
  have inv' : Inv L all others 0 w' := by
    apply good.inv.act _ step
    intro x exits
    exact absurd exits (other x)
  obtain ⟨sys, stepped, rfl⟩ := act_ok step
  refine ⟨inv', good.irefs, ?_⟩
  intro y
  constructor
  · intro active
    rcases good.inv.sys.was_active stepped active with active | ⟨z, forks⟩
    · exact (good.dir y).mp active
    rw [alone] at forks
    cases forks
  intro at'
  apply good.inv.sys.active stepped _ ((good.dir y).mpr at')
  intro x exits
  exact absurd exits (other x)

theorem Good.execInode (path : Path) (active : (w.sys.slot x).Active) :
    ∃ found w', w.execInode x path = .ok (found, w') ∧ Good L all others w' := by
  obtain ⟨r, w₀, finds, counted, iref, rfl⟩ := namex_spec path good.irefs ((good.dir x).mp active)
  cases r with
  | none =>
    refine ⟨false, _, ?_, good.inv.inodes, counted, good.dir⟩
    simp only [World.execInode, finds, bind, Except.bind]
    rfl
  | some ip =>
    refine ⟨true, _, ?_, good.putBack counted⟩
    simp only [World.execInode, finds, bind, Except.bind]
    rfl

theorem Good.exit (mine : (w.sys.slot x).Active) (given : w.giveUp L x = .ok w₁)
    (step : w₁.act L (.exit x) = some (.ok w')) : Good L all others w' := by
  obtain ⟨w₂, gives, inv₁, counted, closed, cwd, slot⟩ := good.giveUp mine
  rw [given] at gives
  cases gives
  have inv' : Inv L all others 0 w' := by
    apply inv₁.act _ step
    intro y exits
    cases exits
    exact closed
  obtain ⟨sys, stepped, rfl⟩ := act_ok step
  refine ⟨inv', counted, ?_⟩
  intro y
  show (sys.slot y).Active ↔ w₁.cwd y ≠ none
  rw [cwd]
  by_cases eq : y = x
  · rw [eq, upd_self]
    constructor
    · intro active
      simp only [Sys.step] at stepped
      split at stepped
      · split at stepped
        · cases stepped
        cases stepped
        exact absurd active (by
          show ¬Slot.Active ((w₁.sys.set x _).slot x)
          rw [Sys.slot_set_self]
          exact id)
      cases stepped
    intro none
    exact absurd rfl none
  rw [upd_ne eq, ← good.dir y, ← slot]
  constructor
  · intro active
    rcases inv₁.sys.was_active stepped active with active | ⟨z, forks⟩
    · exact active
    cases forks
  intro active
  apply inv₁.sys.active stepped _ active
  intro z exits
  cases exits
  exact eq

theorem Good.outcome {a : Call P} {r : Except FileFault (World P)} (step : w.step L a = some r) :
    match r with
    | .ok w' => Good L all others w'
    | .error e => e = .sys .initExiting := by
  have active : ∀ {x m}, w.sys.slot x = .user m → (w.sys.slot x).Active := by
    intro x m user
    rw [user]
    exact trivial
  cases a with
  | sys a =>
    by_cases exits : ∃ x, a = .exit x
    · obtain ⟨x, rfl⟩ := exits
      simp only [World.step] at step
      split at step
      · rename_i user
        split at step
        · cases step
          rfl
        obtain ⟨w₁, gives, inv₁, -⟩ := good.giveUp (active user)
        rw [gives] at step
        cases r with
        | ok w' => exact good.exit (active user) gives step
        | error e => exact inv₁.act_error step
      cases step
    push Not at exits
    by_cases execs : ∃ x image uargv, a = .exec x image uargv
    · obtain ⟨x, image, uargv, rfl⟩ := execs
      cases step
    push Not at execs
    rw [step_sys exits execs] at step
    split at step
    · rename_i w₁ x c acts forks
      obtain ⟨w₂, inherits, good₂⟩ := good.inherit acts forks
      rw [inherits] at step
      cases step
      exact good₂
    rename_i forks alone
    cases r with
    | ok w' =>
      cases forked' : forked w.sys a with
      | none => exact good.act exits forked' step
      | some xc => exact absurd forked' (alone w' xc.1 xc.2 step)
    | error e => exact good.inv.act_error step
  | exec x image uargv path =>
    simp only [World.step] at step
    split at step
    · rename_i user
      obtain ⟨found, w₁, reads, good₁⟩ := good.execInode path (active user)
      rw [reads] at step
      cases r with
      | ok w' => exact good₁.act (fun y exits => by cases exits) rfl step
      | error e => exact good₁.inv.act_error step
    cases step
  | pipe x fdarray =>
    simp only [World.step] at step
    split at step
    · rename_i m user
      obtain ⟨w₁, pipes, inv₁, kept⟩ := good.inv.sysPipe (m := m) (active user)
      rw [pipes] at step
      cases step
      exact good.of_kept inv₁ kept
    cases step
  | close x fd =>
    simp only [World.step] at step
    split at step
    · obtain ⟨w₁, closes, inv₁, -, kept⟩ := good.inv.sysClose (x := x)
      rw [closes] at step
      cases step
      exact good.of_kept inv₁ kept
    cases step
  | dup x fd =>
    simp only [World.step] at step
    split at step
    · rename_i user
      obtain ⟨w₁, dups, good₁⟩ := good.sysDup (active user)
      rw [dups] at step
      cases step
      exact good₁
    cases step
  | «open» x target refused =>
    simp only [World.step] at step
    split at step
    · rename_i user
      obtain ⟨w₁, opens, good₁⟩ := good.sysOpen (active user)
      rw [opens] at step
      cases step
      exact good₁
    cases step
  | chdir x path isDir =>
    simp only [World.step] at step
    split at step
    · rename_i user
      obtain ⟨w₁, moves, good₁⟩ := good.sysChdir (active user)
      rw [moves] at step
      cases step
      exact good₁
    cases step

theorem Good.step {a : Call P} (step : w.step L a = some (.ok w')) : Good L all others w' := good.outcome step

theorem Good.step_error {a : Call P} {e : FileFault}
    (step : w.step L a = some (.error e)) : e = .sys .initExiting := good.outcome step

end

variable {initproc : P} {free : List Nat} {root : Fin NINODE}

theorem Good.boot (valid : Valid L.Frame (↑free + others))
    (boots : boot L initproc root free = some w) : Good L (↑free + others) others w := by
  obtain ⟨sys, first, rfl⟩ := Option.map_eq_some_iff.mp boots
  have empty : ∀ f : Fin NFILE,
      pointers (fun _ : P × Fin NOFILE => (none : Option (Fin NFILE))) id f = ∅ := by
    intro f
    ext e
    simp
  have slots : ∀ y, (sys.slot y).Active ↔ y = initproc := by
    intro y
    rw [Sys.boot] at first
    split at first
    · cases first
      by_cases eq : y = initproc
      · simp [eq, Slot.Active]
      simp [eq, Slot.Active]
    cases first
  refine ⟨⟨?_, ?_, fun _ _ => rfl, (by intros; contradiction), (by intros; contradiction),
    (by simp), (by simp), ?_⟩, ?_, ?_⟩
  · have inv := Sys.Inv.boot valid first
    have none : (∅ : Finset Nat).val + others = others := zero_add others
    show sys.Inv L (↑free + others) ((∅ : Finset Nat).val + others)
    rw [none]
    exact inv
  · intro f
    show 0 = _
    rw [empty]
    rfl
  · intro x fd at'
    exact absurd rfl at'
  · intro i
    have files : pointers (fun _ : Fin NFILE => (none : Option (Fin NINODE))) id i = ∅ := by
      ext e
      simp
    have dirs : pointers (fun _ : P => (none : Option (Fin NINODE))) id i = ∅ := by
      ext e
      simp
    have card :=
      card_pointers_update (fun _ : P => (none : Option (Fin NINODE))) id i initproc (some root)
    show upd (fun _ => 0) root 1 i =
      (pointers (fun _ : Fin NFILE => (none : Option (Fin NINODE))) id i).card +
      (pointers (upd (fun _ => none) initproc (some root)) id i).card + 0
    rw [dirs] at card
    rw [files]
    simp only [points, map_some, map_none, id_eq, Option.some.injEq, reduceCtorEq, if_false,
      Finset.card_empty] at card ⊢
    by_cases eq : i = root
    · rw [eq, upd_self]
      rw [eq, if_pos rfl] at card
      omega
    rw [upd_ne eq]
    rw [if_neg (fun h => eq h.symm)] at card
    omega
  intro y
  rw [slots]
  show y = initproc ↔ upd (fun _ => none) initproc (some root) y ≠ none
  by_cases eq : y = initproc
  · simp [eq]
  simp [eq]

theorem Runs.good (valid : Valid L.Frame (↑free + others))
    (run : Runs L initproc root free w) : Good L (↑free + others) others w := by
  induction run with
  | boot boots => exact .boot valid boots
  | step _ step ih => exact ih.step step

omit [Fintype P] in
theorem Runs.play {calls : List (Call P)} : ∀ {w w' : World P},
    Runs L initproc root free w → w.play L calls = some w' → Runs L initproc root free w' := by
  induction calls with
  | nil =>
    intro w w' run played
    cases played
    exact run
  | cons a rest ih =>
    intro w w' run played
    simp only [World.play] at played
    split at played
    · rename_i next stepped
      exact ih (run.step stepped) played
    cases played

omit [Fintype P] in
theorem Runs.of_play {calls : List (Call P)} {check : World P → Bool}
    (played : ((World.boot L initproc root free).bind fun w => w.play L calls).any check = true) :
    ∃ w, Runs L initproc root free w ∧ check w = true := by
  obtain ⟨w, h, played⟩ := (Option.any_eq_true _ _).1 played
  obtain ⟨first, boots, ran⟩ := Option.bind_eq_some_iff.mp h
  exact ⟨w, (Runs.boot boots).play ran, played⟩

end World

/-- The page that a process has at a virtual page. -/
def Mem.userPage (m : Mem) (v : Nat) : Nat := (m.pagetable.look v).elim 0 Pte.pa

theorem frames_eq_map {f : Nat → Option Pte} : ∀ {n v : Nat},
    frames f v n = ↑((List.range' v n).map fun w => (f w).elim 0 Pte.pa)
  | 0, _ => rfl
  | n + 1, v => by rw [frames, frames_eq_map, List.range'_succ, List.map_cons, Multiset.cons_coe]

theorem Mem.userPage_mem {m : Mem} {v : Nat} (lt : v < pgs m.sz) : m.userPage v ∈ m.pages := by
  rw [Mem.pages, Pagetable.own, frames_eq_map]
  apply Multiset.mem_cons_of_mem
  apply Multiset.mem_add.mpr
  refine .inr (Multiset.mem_coe.mpr (List.mem_map.mpr ⟨v, ?_, rfl⟩))
  exact List.mem_range'_1.mpr ⟨zero_le, by omega⟩

theorem Mem.userPage_inj {m : Mem} {v v' : Nat} (nodup : m.pages.Nodup) (lt : v < pgs m.sz)
    (lt' : v' < pgs m.sz) (same : m.userPage v = m.userPage v') : v = v' := by
  rw [Mem.pages, Pagetable.own, Multiset.nodup_cons, nodup_add, frames_eq_map, coe_nodup] at nodup
  apply List.inj_on_of_nodup_map nodup.2.2.1
  · exact List.mem_range'_1.mpr ⟨zero_le, by omega⟩
  · exact List.mem_range'_1.mpr ⟨zero_le, by omega⟩
  exact same

/-- In every state of every run the free pages, the pages of the slots (of a process that is not
in a call: its trapframe, its page-table pages and its user pages), the pages of pipes and the
pages that the kernel has kept are together the pages there were at the beginning, each of them
once. So no two processes have a user page in common; a page is a pipe exactly as long as a file
is an end of it; and nothing panics. -/
theorem pages_conserved {P : Type} [DecidableEq P] [Fintype P] {L : Layout} {initproc : P}
    {root : Fin NINODE} {free : List Nat} {kernel : Multiset Nat} {w : World P}
    (nodup : (↑free + kernel).Nodup)
    (good : ∀ page ∈ (↑free + kernel : Multiset Nat), L.Frame page)
    (run : World.Runs L initproc root free w) :
    (↑w.sys.freelist + ∑ x, (w.sys.slot x).pages + (w.pipes.val + kernel) = ↑free + kernel ∧
      (↑w.sys.freelist + ∑ x, (w.sys.slot x).pages + (w.pipes.val + kernel)).Nodup) ∧
    (∀ x y m m' v v', w.sys.slot x = .user m ∨ w.sys.slot x = .zombie m →
      w.sys.slot y = .user m' ∨ w.sys.slot y = .zombie m' → v < pgs m.sz → v' < pgs m'.sz →
      m.userPage v = m'.userPage v' → x = y ∧ v = v') ∧
    (∀ pi, pi ∈ w.pipes ↔ ∃ f writable, (w.ftable f).pipe = some (pi, writable)) ∧
    ∀ a e, w.step L a = some (.error e) → e = .sys .initExiting := by
  have good' := run.good ⟨nodup, good⟩
  have inv := good'.inv
  have slots : (∑ x, (w.sys.slot x).pages).Nodup := by
    rw [← inv.sys.pages] at nodup
    exact Multiset.nodup_of_le ((Multiset.le_add_left _ _).trans (Multiset.le_add_right _ _)) nodup
  have pages : ∀ {x m}, w.sys.slot x = .user m ∨ w.sys.slot x = .zombie m →
      (w.sys.slot x).pages = m.pages := by
    rintro x m (at' | at') <;> rw [at'] <;> rfl
  refine ⟨⟨inv.sys.pages, ?_⟩, ?_, ?_, fun a e => good'.step_error⟩
  · rw [inv.sys.pages]
    exact nodup
  · intro x y m m' v v' atx aty lt lt' same
    by_cases eq : x = y
    · obtain rfl : m = m' := by
        rw [eq] at atx
        rcases atx with atx | atx <;> rcases aty with aty | aty <;> rw [atx] at aty <;> cases aty <;> rfl
      have mine := Multiset.nodup_of_le (Sys.Inv.slot_le x) slots
      rw [pages atx] at mine
      exact ⟨eq, Mem.userPage_inj mine lt lt' same⟩
    have pair := Finset.sum_le_sum_of_subset (f := fun y => (w.sys.slot y).pages)
      (Finset.subset_univ {x, y})
    rw [Finset.sum_pair eq, pages atx, pages aty] at pair
    have apart := (Multiset.nodup_add.mp (Multiset.nodup_of_le pair slots)).2.2
    have shared := Mem.userPage_mem lt'
    rw [← same] at shared
    exact absurd shared (Multiset.disjoint_left.mp apart (Mem.userPage_mem lt))
  intro pi
  constructor
  · intro mem
    obtain ⟨writable, opened⟩ := inv.live pi mem
    obtain ⟨f, at'⟩ := inv.used pi mem writable opened
    exact ⟨f, writable, at'⟩
  rintro ⟨f, writable, at'⟩
  exact (inv.ends f pi writable at').1

local instance pair : NeZero 2 := ⟨by decide⟩

/-- The first process makes a pipe and forks. -/
def pipeFork : List (Call (Fin 2)) := .pipe 0 0 :: forkOnce.map .sys

def bothRun (w : World (Fin 2)) : Bool :=
  match w.sys.slot 0, w.sys.slot 1 with
  | .user m, .user m' => m.sz == 4096 && m'.sz == 4096
  | _, _ => false

theorem exists_of_bothRun {w : World (Fin 2)} (both : bothRun w = true) :
    ∃ m m', w.sys.slot 0 = .user m ∧ w.sys.slot 1 = .user m' ∧ m.sz = 4096 ∧ m'.sz = 4096 := by
  rw [bothRun] at both
  split at both
  · rename_i m m' at₀ at₁
    rw [Bool.and_eq_true, beq_iff_eq, beq_iff_eq] at both
    exact ⟨m, m', at₀, at₁, both⟩
  cases both

theorem pipeFork_apart :
    ∃ w : World (Fin 2), World.Runs smallLayout 0 0 sixteenPages w ∧ w.pipes ≠ ∅ ∧
    ∃ m m', w.sys.slot 0 = .user m ∧ w.sys.slot 1 = .user m' ∧ m.userPage 0 ≠ m'.userPage 0 := by
  have played : ((World.boot smallLayout 0 0 sixteenPages).bind fun w : World (Fin 2) =>
      w.play smallLayout pipeFork).any (fun w => bothRun w && decide (w.pipes ≠ ∅)) = true := by
    decide +kernel
  obtain ⟨w, run, check⟩ := World.Runs.of_play played
  have nodup : (↑sixteenPages + {0x87010000} : Multiset Nat).Nodup := by decide
  have good : ∀ page ∈ (↑sixteenPages + {0x87010000} : Multiset Nat), smallLayout.Frame page := by
    decide
  obtain ⟨-, apart, -, -⟩ := pages_conserved nodup good run
  rw [Bool.and_eq_true, decide_eq_true_eq] at check
  obtain ⟨both, some⟩ := check
  obtain ⟨m, m', at₀, at₁, size, size'⟩ := exists_of_bothRun both
  refine ⟨w, run, some, m, m', at₀, at₁, ?_⟩
  intro same
  have one : 0 < pgs m.sz := by rw [size]; decide
  have one' : 0 < pgs m'.sz := by rw [size']; decide
  have eq := (apart 0 1 m m' 0 0 (Or.inl at₀) (Or.inl at₁) one one' same).1
  exact absurd eq (by decide)

/-- In every state of every run the count of a file is the number of entries of `ofile` that point
to it; the count of an inode is the number of files that are open on it and of the processes whose
directory it is; an end of a pipe is open exactly when there is a file for it; and the page of a
pipe is kept exactly as long as there is a file for one of its ends. Nothing panics. -/
theorem references_exact {P : Type} [DecidableEq P] [Fintype P] {L : Layout} {initproc : P}
    {root : Fin NINODE} {free : List Nat} {w : World P} (nodup : free.Nodup)
    (frames : ∀ page ∈ free, L.Frame page) (run : World.Runs L initproc root free w) :
    (∀ f, (w.ftable f).ref = (Finset.univ.filter fun e => w.ofile e = some f).card) ∧
    (∀ i, w.iref i = (Finset.univ.filter fun f => 0 < (w.ftable f).ref ∧ (w.ftable f).ip = some i).card +
      (Finset.univ.filter fun x => w.cwd x = some i).card) ∧
    (∀ pi ∈ w.pipes, ∀ writable, w.opened (pi, writable) = true ↔
      ∃ f, 0 < (w.ftable f).ref ∧ (w.ftable f).pipe = some (pi, writable)) ∧
    (∀ pi, pi ∈ w.pipes ↔ ∃ f writable, 0 < (w.ftable f).ref ∧
      (w.ftable f).pipe = some (pi, writable)) ∧
    ∀ a e, w.step L a = some (.error e) → e = .sys .initExiting := by
  have valid : Valid L.Frame (↑free + 0) := by
    rw [add_zero]
    exact ⟨Multiset.coe_nodup.mpr nodup, frames⟩
  have good := run.good valid
  have inv := good.inv
  have used : ∀ f, (w.ftable f).obj ≠ .none → 0 < (w.ftable f).ref := by
    intro f obj
    by_contra none
    exact obj (inv.closed f (by omega))
  have piped : ∀ {f e}, (w.ftable f).pipe = some e → 0 < (w.ftable f).ref := by
    intro f e at'
    apply used
    intro none
    rw [File.pipe, none] at at'
    cases at'
  refine ⟨?_, ?_, ?_, ?_, fun a e => good.step_error⟩
  · intro f
    have refs := inv.refs f
    rw [Multiset.count_zero, Nat.add_zero] at refs
    rw [refs, pointers]
    simp only [Option.map_id, id_eq]
  · intro i
    have refs := good.irefs i
    rw [Multiset.count_zero, Nat.add_zero] at refs
    have open' : ∀ f, (w.ftable f).ip = some i ↔ 0 < (w.ftable f).ref ∧
        (w.ftable f).ip = some i := by
      intro f
      refine ⟨fun at' => ⟨used f ?_, at'⟩, fun at' => at'.2⟩
      intro none
      rw [File.ip, none] at at'
      cases at'
    rw [refs, pointers, pointers]
    simp only [Option.map_id, id_eq, ← open']
  · intro pi mem writable
    constructor
    · intro opened
      obtain ⟨f, at'⟩ := inv.used pi mem writable opened
      exact ⟨f, piped at', at'⟩
    rintro ⟨f, -, at'⟩
    exact (inv.ends f pi writable at').2
  intro pi
  constructor
  · intro mem
    obtain ⟨writable, opened⟩ := inv.live pi mem
    obtain ⟨f, at'⟩ := inv.used pi mem writable opened
    exact ⟨f, writable, piped at', at'⟩
  rintro ⟨f, writable, -, at'⟩
  exact (inv.ends f pi writable at').1

/-- The first process opens a file, makes a pipe, forks, and closes the file. -/
def openPipeFork : List (Call (Fin 2)) :=
  [.open 0 (.create ⟨none, [], true⟩ (.fresh 3 true)) false, .pipe 0 0] ++ forkOnce.map .sys ++ [.close 0 0]

theorem openPipeFork_references : ∃ w : World (Fin 2), World.Runs smallLayout 0 0 sixteenPages w ∧
    (∃ f, (w.ftable f).ref = 1 ∧ (w.ftable f).ip = some 3 ∧
      (Finset.univ.filter fun e => w.ofile e = some f).card = 1) ∧ w.iref 0 = 2 ∧
    (Finset.univ.filter fun x => w.cwd x = some 0).card = 2 := by
  have played : ((World.boot smallLayout 0 0 sixteenPages).bind fun w : World (Fin 2) =>
      w.play smallLayout openPipeFork).any
      (fun w => decide ((w.ftable 0).ref = 1 ∧ (w.ftable 0).ip = some 3 ∧ w.iref 0 = 2 ∧ ∀ f, (w.ftable f).ip ≠ some 0)) =
      true := by
    decide +kernel
  obtain ⟨w, run, check⟩ := World.Runs.of_play played
  have pages : ∀ page ∈ sixteenPages, smallLayout.Frame page := by decide
  obtain ⟨refs, irefs, -⟩ := references_exact (by decide) pages run
  obtain ⟨ref, ip, root, others⟩ := of_decide_eq_true check
  refine ⟨w, run, ⟨0, ref, ip, (refs 0).symm.trans ref⟩, root, ?_⟩
  have count := irefs 0
  have none : (Finset.univ.filter fun f => 0 < (w.ftable f).ref ∧ (w.ftable f).ip = some 0) =
      ∅ := by
    apply Finset.filter_eq_empty_iff.mpr
    intro f _ both
    exact others f both.2
  rw [none, root] at count
  simpa using count.symm

end Xv6.Vm
