import Mathlib.Computability.Language

/-!
# `grep`

The matcher of `grep.c` searches every split of the text; a pattern stands for a language. The loop around
it collects lines in a buffer from reads of any size.
-/

namespace Xv6.Grep

open Computability

/-- `here` is `matchhere` for the pattern after the `*`. -/
def matchstar (here : List Char → Bool) (c : Char) : List Char → Bool
  | [] => here []
  | t :: text => here (t :: text) || ((t = c || c = '.') && matchstar here c text)

def matchhere : List Char → List Char → Bool
  | [], _ => true
  | c :: '*' :: re, text => matchstar (matchhere re) c text
  | ['$'], text => text.isEmpty
  | _ :: _, [] => false
  | c :: re, t :: text => (c = '.' || c = t) && matchhere re text

/-- The loop of `match`. -/
def matchAny (re : List Char) : List Char → Bool
  | [] => matchhere re []
  | t :: text => matchhere re (t :: text) || matchAny re text

/-- `match` of `grep.c`. The two strings are without the NUL that ends them. -/
def matchText : List Char → List Char → Bool
  | '^' :: re, text => matchhere re text
  | re, text => matchAny re text

/-! ## The language of a pattern -/

/-- The pattern behind the anchor at its start. -/
def body : List Char → List Char
  | '^' :: re => re
  | re => re

def letter (c : Char) : Language Char := {w | ∃ t, (c = '.' ∨ c = t) ∧ w = [t]}

/-- What the rest of a pattern stands for, from left to right. -/
def lang : List Char → Language Char
  | [] => 1
  | c :: '*' :: re => (letter c)∗ * lang re
  | ['$'] => 1
  | c :: re => letter c * lang re

/-- The `$` at the end is the anchor. -/
def anchored : List Char → Bool
  | [] => false
  | _ :: '*' :: re => anchored re
  | ['$'] => true
  | _ :: re => anchored re

def Begins (re text : List Char) : Prop :=
  ∃ mid ∈ lang re, ∃ post, mid ++ post = text ∧ (anchored re = true → post = [])

theorem mem_kstar_iff {l : Language Char} {w : List Char} :
    w ∈ l∗ ↔ w = [] ∨ ∃ a ∈ l, ∃ b ∈ l∗, a ++ b = w := by
  rw [← Language.one_add_self_mul_kstar_eq_kstar, Language.mem_add, Language.mem_one,
    Language.mem_mul,
    Language.one_add_self_mul_kstar_eq_kstar]

theorem matchstar_iff {here : List Char → Bool} {c : Char} {text : List Char} :
    matchstar here c text = true ↔ ∃ a ∈ (letter c)∗, ∃ b, a ++ b = text ∧ here b = true := by
  induction text with
  | nil =>
    refine ⟨fun found => ⟨[], Language.nil_mem_kstar _, [], rfl, found⟩,
      fun ⟨a, _, b, eq, found⟩ => ?_⟩
    rwa [(List.append_eq_nil_iff.mp eq).2] at found
  | cons t text ih =>
    rw [matchstar, Bool.or_eq_true, Bool.and_eq_true, Bool.or_eq_true, decide_eq_true_eq,
      decide_eq_true_eq, ih]
    constructor
    · rintro (found | ⟨fits, a, star, b, rfl, found⟩)
      · exact ⟨[], Language.nil_mem_kstar _, _, rfl, found⟩
      refine ⟨t :: a, mem_kstar_iff.mpr (.inr ⟨[t], ⟨t, ?_, rfl⟩, a, star, rfl⟩), b, rfl, found⟩
      exact fits.symm.imp_right Eq.symm
    rintro ⟨a, star, b, eq, found⟩
    rcases mem_kstar_iff.mp star with rfl | ⟨-, ⟨u, fits, rfl⟩, a', star', rfl⟩
    · rw [← eq]
      exact .inl found
    cases eq
    exact .inr ⟨fits.symm.imp_left Eq.symm, a', star', b, rfl, found⟩

theorem matchhere_iff {re text : List Char} : matchhere re text = true ↔ Begins re text := by
  fun_induction lang re generalizing text with
  | case1 => simp [matchhere, Begins, lang, anchored, Language.mem_one]
  | case2 c re ih =>
    simp only [matchhere, matchstar_iff, ih, Begins, lang, anchored, Language.mem_mul]
    constructor
    · rintro ⟨a, star, -, rfl, mid, word, post, rfl, last⟩
      exact ⟨_, ⟨a, star, mid, word, rfl⟩, post, List.append_assoc .., last⟩
    rintro ⟨-, ⟨a, star, mid, word, rfl⟩, post, rfl, last⟩
    exact ⟨a, star, _, (List.append_assoc ..).symm, mid, word, post, rfl, last⟩
  | case3 => simp [matchhere, Begins, lang, anchored, Language.mem_one]
  | case4 c re notStar notEnd ih =>
    rw [Begins, lang.eq_4 c re notStar notEnd, anchored.eq_4 c re notStar notEnd]
    cases text with
    | nil =>
      rw [matchhere.eq_4 c re notStar notEnd]
      refine ⟨nofun, ?_⟩
      rintro ⟨-, ⟨-, ⟨u, -, rfl⟩, w, -, rfl⟩, post, eq, -⟩
      cases eq
    | cons t text =>
      rw [matchhere.eq_5 c re t text notStar notEnd, Bool.and_eq_true, ih, Bool.or_eq_true,
        decide_eq_true_eq, decide_eq_true_eq]
      constructor
      · rintro ⟨fits, mid, word, post, rfl, last⟩
        exact ⟨t :: mid, ⟨[t], ⟨t, fits, rfl⟩, mid, word, rfl⟩, post, rfl, last⟩
      rintro ⟨-, ⟨-, ⟨u, fits, rfl⟩, mid, word, rfl⟩, post, eq, last⟩
      cases eq
      exact ⟨fits, mid, word, post, rfl, last⟩

theorem matchAny_iff {re text : List Char} :
    matchAny re text = true ↔ ∃ pre rest, text = pre ++ rest ∧ Begins re rest := by
  induction text with
  | nil => simp [matchAny, matchhere_iff]
  | cons t text ih =>
    rw [matchAny, Bool.or_eq_true, matchhere_iff, ih]
    constructor
    · rintro (here | ⟨pre, rest, rfl, later⟩)
      · exact ⟨[], _, rfl, here⟩
      exact ⟨t :: pre, rest, rfl, later⟩
    rintro ⟨pre, rest, eq, found⟩
    cases pre with
    | nil => exact .inl (eq ▸ found)
    | cons u pre =>
      cases eq
      exact .inr ⟨pre, rest, rfl, found⟩

/-- Some part of the text is in the language of the pattern: at the start of the text where the
pattern begins with `^`, at its end where it ends in `$`. -/
theorem match_exact (re text : List Char) : matchText re text = true ↔
    ∃ pre, ∃ mid ∈ lang (body re), ∃ post, text = pre ++ mid ++ post ∧
      (re.head? = some '^' → pre = []) ∧ (anchored (body re) = true → post = []) := by
  unfold matchText
  split
  · next re =>
    simp only [matchhere_iff, Begins, body, List.head?_cons, forall_const]
    constructor
    · rintro ⟨mid, word, post, rfl, last⟩
      exact ⟨[], mid, word, post, rfl, rfl, last⟩
    rintro ⟨-, mid, word, post, eq, rfl, last⟩
    exact ⟨mid, word, post, eq.symm, last⟩
  next notStart =>
  have plain : body re = re := body.eq_2 re notStart
  have free : re.head? ≠ some '^' := fun eq => by
    cases re with
    | nil => cases eq
    | cons c re =>
      cases eq
      exact notStart re rfl
  rw [matchAny_iff, plain]
  constructor
  · rintro ⟨pre, -, rfl, mid, word, post, rfl, last⟩
    exact ⟨pre, mid, word, post, (List.append_assoc ..).symm, fun eq => absurd eq free, last⟩
  rintro ⟨pre, mid, word, post, eq, -, last⟩
  exact ⟨pre, _, eq.trans (List.append_assoc ..), mid, word, post, rfl, last⟩

example : matchText ['a', '*', '$', '$'] ['b', 'a', 'a', '$'] = true := by decide

/-! ## Lines -/

def BUFSIZE : Nat := 1024

def NUL : Char := Char.ofNat 0

/-- The inner loop. `strchr` has passed `line` since `p`; what is left for the next read comes
second. -/
def scan (re : List Char) : List Char → List Char → List Char × List Char
  | line, [] => ([], line)
  | line, c :: text =>
    if c = '\n' then
      let r := scan re [] text
      ((if matchText re line then line ++ ['\n'] else []) ++ r.1, r.2)
    else if c = NUL then ([], line ++ c :: text)
    else scan re (line ++ [c]) text

/-- What `grep` writes, with `buf` the first `m` bytes of its buffer. Call `t` of `read` returns
no more than `size t + 1` bytes of the input, but at least one if it is asked for any and there
are any. -/
def grep (re : List Char) (size : Nat → Nat) (t : Nat) (buf input : List Char) : List Char :=
  let n := min (size t + 1) (min (BUFSIZE - buf.length - 1) input.length)
  if n = 0 then []
  else
    let r := scan re [] (buf ++ input.take n)
    r.1 ++ grep re size (t + 1) r.2 (input.drop n)
termination_by input.length
decreasing_by
  rw [List.length_drop]
  omega

def unlines (lines : List (List Char)) : List Char := lines.flatMap (· ++ ['\n'])

abbrev Plain (line : List Char) : Prop := ∀ c ∈ line, c ≠ '\n' ∧ c ≠ NUL

variable (re : List Char) {l : List Char}

theorem scan_append (plain : Plain l) (line text : List Char) :
    scan re line (l ++ text) = scan re (line ++ l) text := by
  induction l generalizing line with
  | nil => rw [List.append_nil, List.nil_append]
  | cons c l ih =>
    obtain ⟨here, later⟩ := List.forall_mem_cons.mp plain
    rw [List.cons_append, scan, if_neg here.1, if_neg here.2, ih later, List.append_assoc]
    rfl

theorem scan_unlines {text more : List Char} {lines : List (List Char)}
    (plain : ∀ l ∈ lines, Plain l) (split : text ++ more = unlines lines) :
    ∃ done rest, lines = done ++ rest ∧
      (scan re [] text).1 = unlines (done.filter (matchText re)) ∧ Plain (scan re [] text).2 ∧
      (scan re [] text).2 ++ more = unlines rest := by
  induction lines generalizing text with
  | nil =>
    obtain ⟨rfl, rfl⟩ := List.append_eq_nil_iff.mp split
    exact ⟨[], [], rfl, rfl, nofun, rfl⟩
  | cons l lines ih =>
    obtain ⟨here, later⟩ := List.forall_mem_cons.mp plain
    have first : text ++ more = l ++ '\n' :: unlines lines := by rw [split]; simp [unlines]
    have partly : ∀ tail, l = text ++ tail → scan re [] text = ([], text) := by
      rintro tail rfl
      have passed := scan_append re (l := text)
        (fun c at' => here c (List.mem_append_left _ at')) [] []
      rwa [List.append_nil] at passed
    have start : ∀ tail, l = text ++ tail → ∃ done rest, l :: lines = done ++ rest ∧
        (scan re [] text).1 = unlines (done.filter (matchText re)) ∧ Plain (scan re [] text).2 ∧
        (scan re [] text).2 ++ more = unlines rest := fun tail eq => by
      rw [partly tail eq]
      exact ⟨[], l :: lines, rfl, rfl, fun c at' => here c (eq ▸ List.mem_append_left _ at'), split⟩
    rcases List.append_eq_append_iff.mp first with ⟨tail, eq, -⟩ | ⟨tail, rfl, eq⟩
    · exact start tail eq
    cases tail with
    | nil => exact start [] (by simp)
    | cons c tail =>
      obtain ⟨rfl, beyond⟩ := List.cons.inj eq
      obtain ⟨done, rest, rfl, out, left, after⟩ := ih later beyond.symm
      rw [scan_append re here, List.nil_append, scan, if_pos rfl]
      refine ⟨l :: done, rest, rfl, ?_, left, after⟩
      dsimp only
      rw [out, List.filter_cons]
      split <;> simp [unlines]

theorem unlines_append (a b : List (List Char)) : unlines (a ++ b) = unlines a ++ unlines b := List.flatMap_append

/-- The line fits in the buffer with its newline and the NUL. -/
def fits (l : List Char) : Bool := l.length < BUFSIZE - 1

/-- The lines that the buffer held whole do fit. -/
theorem fits_of_unlines {text rest : List Char} {lines : List (List Char)}
    (held : text = unlines lines ++ rest) (room : text.length < BUFSIZE) :
    ∀ l ∈ lines, fits l = true := by
  intro l mem
  obtain ⟨pre, post, rfl⟩ := List.append_of_mem mem
  rw [held, unlines_append, unlines, unlines] at room
  simp only [List.flatMap_cons, List.length_append, List.length_singleton] at room
  rw [fits, decide_eq_true_iff]
  omega

/-- `grep` looks at the lines before the first one that does not fit, and ends there. -/
theorem grep_lines {size : Nat → Nat} {t : Nat} {buf input : List Char} {lines : List (List Char)}
    (plain : ∀ l ∈ lines, Plain l) (start : Plain buf) (split : buf ++ input = unlines lines) :
    grep re size t buf input = unlines ((lines.takeWhile fits).filter (matchText re)) := by
  fun_induction grep re size t buf input generalizing lines with
  | case1 t buf input n =>
    rename_i zero
    cases lines with
    | nil => rfl
    | cons l lines =>
      -- the buffer holds a part of the first line, which leaves room for a byte if the line fits
      have first : buf ++ input = l ++ '\n' :: unlines lines := by rw [split]; simp [unlines]
      have part : buf.length ≤ l.length := by
        by_contra longer
        have at' := congrArg (·[l.length]?) first
        simp only [List.getElem?_append_left (not_le.mp longer), List.getElem?_append_right le_rfl,
          Nat.sub_self,
          List.getElem?_cons_zero] at at'
        exact (start _ (List.mem_of_getElem? at')).1 rfl
      have total := congrArg List.length first
      rw [List.length_append, List.length_append, List.length_cons] at total
      have long : ¬ fits l = true := by
        rw [fits, decide_eq_true_iff]
        omega
      rw [List.takeWhile_cons_of_neg long]
      rfl
  | case2 t buf input n some r =>
    rename_i ih
    have whole : (buf ++ input.take n) ++ input.drop n = unlines lines := by
      rw [List.append_assoc, List.take_append_drop, split]
    obtain ⟨done, rest, rfl, out, left, after⟩ := scan_unlines re plain whole
    have held : buf ++ input.take n = unlines done ++ r.2 := by
      rw [unlines_append, ← after, ← List.append_assoc] at whole
      exact List.append_cancel_right whole
    have short := fits_of_unlines held (by rw [List.length_append, List.length_take]; omega)
    rw [ih (fun l at' => plain l (List.mem_append_right _ at')) left after, out,
      List.takeWhile_append_of_pos short, List.filter_append, unlines_append]

/-- However its reads split the input, `grep` writes exactly the lines that match if and only if
none of those from the first one on that does not fit in the buffer matches. -/
theorem grep_writes_matching (re : List Char) (size : Nat → Nat) (lines : List (List Char))
    (plain : ∀ l ∈ lines, Plain l) :
    grep re size 0 [] (unlines lines) = unlines (lines.filter (matchText re)) ↔
      ∀ l ∈ lines.dropWhile fits, matchText re l = false := by
  rw [grep_lines re plain (List.forall_mem_nil _) (List.nil_append _)]
  nth_rewrite 2 [← List.takeWhile_append_dropWhile (p := fits) (l := lines)]
  rw [List.filter_append, unlines_append, List.self_eq_append_right]
  have none : ∀ ls, unlines ls = [] ↔ ls = [] := by
    intro ls
    cases ls <;> simp [unlines]
  rw [none, List.filter_eq_nil_iff]
  exact forall₂_congr fun l _ => Bool.not_eq_true _ ▸ Iff.rfl

theorem grep_two_lines :
    ∃ lines : List (List Char), (∀ l ∈ lines, Plain l) ∧ (∀ l ∈ lines, fits l = true) ∧
    grep ['b'] (fun _ => 1) 0 [] (unlines lines) = ['b', '\n'] :=
  ⟨[['a'], ['b']], by simp [Plain, NUL], by decide,
    (grep_writes_matching _ _ [['a'], ['b']] (by simp [Plain, NUL])).mpr (by decide)⟩

/-- A line of 1023 characters fills the buffer. The next `read` is asked for 0 bytes and `grep`
ends. -/
theorem grep_long_line :
    ∃ (re : List Char) (size : Nat → Nat) (lines : List (List Char)), (∀ l ∈ lines, Plain l) ∧
    grep re size 0 [] (unlines lines) = [] ∧ unlines (lines.filter (matchText re)) ≠ [] := by
  generalize long : List.replicate (BUFSIZE - 1) 'a' = l
  have length : l.length = BUFSIZE - 1 := by rw [← long, List.length_replicate]
  have plain : ∀ l' ∈ [l], Plain l' := by
    rw [List.forall_mem_singleton]
    intro c at'
    rw [← long] at at'
    rw [List.eq_of_mem_replicate at']
    decide
  refine ⟨[], fun _ => BUFSIZE, [l], plain, ?_, ?_⟩
  · rw [grep_lines [] plain (List.forall_mem_nil _) (List.nil_append _),
      List.takeWhile_cons_of_neg (by simp [fits, length])]
    rfl
  cases l <;> simp [unlines, matchText, matchAny, matchhere]

end Xv6.Grep
