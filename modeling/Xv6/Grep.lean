import Mathlib.Computability.Language
import Mathlib.Data.UInt

/-!
# grep

`grep.c`. A C string is the list of its bytes, with none of them 0.

`match` reads a pattern as it goes. `pieces` reads it once and for all, as a list of characters and
repetitions with or without the end of the line after them, and `lang` is the language of such a
list. `match_iff` says that `match` decides whether the line has a part in this language.

`grep` works on a buffer that `read` fills and from which the complete lines are taken. A buffer
without a newline is thrown away. `grep_lines_iff` says for which reads the output is that of the
lines that match.
-/

namespace Xv6.Grep

open Computability List

/-! ## The matcher -/

variable {re carry piece : List UInt8}

/-- The character `'^'`. -/
def caret : UInt8 := 94

/-- The character `'$'`. -/
def dollar : UInt8 := 36

/-- The character `'*'`. -/
def star : UInt8 := 42

/-- The character `'.'`. -/
def dot : UInt8 := 46

/-- The character `'\n'`. -/
def newline : UInt8 := 10

/-- `matchstar`, with `here` for the calls of `matchhere` with the rest of the pattern. -/
def matchstar (here : List UInt8 → Bool) (c : UInt8) : List UInt8 → Bool
  | [] => here []
  | t :: text =>
    if here (t :: text) then true
    else if t = c ∨ c = dot then matchstar here c text
    else false

/-- `matchhere` : search for `re` at the beginning of `text`. -/
def matchhere : List UInt8 → List UInt8 → Bool
  | [], _ => true
  | [c], text =>
    if c = dollar then text = []
    else
      match text with
      | t :: text => if c = dot ∨ c = t then matchhere [] text else false
      | [] => false
  | c :: d :: re, text =>
    if d = star then matchstar (matchhere re) c text
    else
      match text with
      | t :: text => if c = dot ∨ c = t then matchhere (d :: re) text else false
      | [] => false

/-- The loop of `match`. -/
def matchFrom (re : List UInt8) : List UInt8 → Bool
  | [] => matchhere re []
  | t :: text => if matchhere re (t :: text) then true else matchFrom re text

/-- `match`. -/
def match_ (re text : List UInt8) : Bool :=
  if re.headD 0 = caret then matchhere re.tail text else matchFrom re text

/-! ## The language of a pattern -/

/-- A character of the text is one that the character of the pattern stands for. -/
def Accepts (c t : UInt8) : Prop := c = dot ∨ c = t

/-- A piece of a pattern. -/
inductive Piece where
  | one (c : UInt8)
  | many (c : UInt8)

/-- What a piece stands for. -/
def Piece.lang : Piece → Language UInt8
  | one c => {w | ∃ t, Accepts c t ∧ w = [t]}
  | many c => ({w | ∃ t, Accepts c t ∧ w = [t]} : Language UInt8)∗

/-- The pieces of a pattern, and whether the end of the text follows them. -/
def pieces : List UInt8 → List Piece × Bool
  | [] => ([], false)
  | [c] => if c = dollar then ([], true) else ([.one c], false)
  | c :: d :: re =>
    if d = star then (.many c :: (pieces re).1, (pieces re).2)
    else (.one c :: (pieces (d :: re)).1, (pieces (d :: re)).2)

/-- The language of a pattern. -/
def lang (re : List UInt8) : Language UInt8 := ((pieces re).1.map Piece.lang).prod

theorem mem_lang_many (c : UInt8) (w : List UInt8) :
    w ∈ (Piece.many c).lang ↔ ∀ t ∈ w, Accepts c t := by
  refine Language.mem_kstar.trans ⟨?_, fun h => ⟨w.map fun t => [t], ?_, ?_⟩⟩
  · rintro ⟨L, rfl, hL⟩ t ht
    obtain ⟨v, hv, htv⟩ := mem_flatten.1 ht
    obtain ⟨u, hu, rfl⟩ := hL v hv
    rwa [mem_singleton.1 htv]
  · rw [← flatMap_def, flatMap_singleton']
  · intro v hv
    obtain ⟨t, ht, rfl⟩ := mem_map.1 hv
    exact ⟨t, h t ht, rfl⟩

/-- A match at the beginning of the text. -/
def Here (re text : List UInt8) : Prop :=
  ∃ w rest, text = w ++ rest ∧ w ∈ lang re ∧ ((pieces re).2 = true → rest = [])

theorem here_nil (text : List UInt8) : Here [] text :=
  ⟨[], text, rfl, (Language.mem_one []).2 rfl, fun h => by cases h⟩

theorem here_dollar (text : List UInt8) : Here [dollar] text ↔ text = [] := by
  constructor
  · rintro ⟨w, rest, rfl, hw, hrest⟩
    rw [hrest rfl, (Language.mem_one w).1 hw, append_nil]
  · rintro rfl
    exact ⟨[], [], rfl, (Language.mem_one []).2 rfl, fun _ => rfl⟩

/-- A pattern that begins with a character. -/
theorem here_one {c : UInt8} {text : List UInt8}
    (hre : pieces (c :: re) = (.one c :: (pieces re).1, (pieces re).2)) :
    Here (c :: re) text ↔ ∃ t rest, text = t :: rest ∧ Accepts c t ∧ Here re rest := by
  have hlang : lang (c :: re) = (Piece.one c).lang * lang re := by
    rw [lang, hre, map_cons, prod_cons, lang]
  unfold Here
  rw [hlang, hre]
  constructor
  · rintro ⟨_, rest, rfl, ⟨_, ⟨t, ht, rfl⟩, w, hw, rfl⟩, hrest⟩
    exact ⟨t, w ++ rest, rfl, ht, w, rest, rfl, hw, hrest⟩
  · rintro ⟨t, _, rfl, ht, w, rest, rfl, hw, hrest⟩
    exact ⟨t :: w, rest, rfl, ⟨[t], ⟨t, ht, rfl⟩, w, hw, rfl⟩, hrest⟩

/-- A pattern that begins with a repetition. -/
theorem here_many (c : UInt8) (re text : List UInt8) : Here (c :: star :: re) text ↔
    ∃ u rest, text = u ++ rest ∧ (∀ t ∈ u, Accepts c t) ∧ Here re rest := by
  have hre : pieces (c :: star :: re) = (.many c :: (pieces re).1, (pieces re).2) := by
    rw [pieces, if_pos rfl]
  have hlang : lang (c :: star :: re) = (Piece.many c).lang * lang re := by
    rw [lang, hre, map_cons, prod_cons, lang]
  unfold Here
  rw [hlang, hre]
  constructor
  · rintro ⟨_, rest, rfl, ⟨u, hu, w, hw, rfl⟩, hrest⟩
    exact ⟨u, w ++ rest, append_assoc .., (mem_lang_many c u).1 hu, w, rest, rfl, hw, hrest⟩
  · rintro ⟨u, _, rfl, hu, w, rest, rfl, hw, hrest⟩
    exact ⟨u ++ w, rest, (append_assoc ..).symm,
      ⟨u, (mem_lang_many c u).2 hu, w, hw, rfl⟩, hrest⟩

/-- `matchstar` looks for a number of repetitions with a match of the rest after them. -/
theorem matchstar_iff (here : List UInt8 → Bool) (c : UInt8) : ∀ text : List UInt8,
    matchstar here c text = true ↔
      ∃ u rest, text = u ++ rest ∧ (∀ t ∈ u, Accepts c t) ∧ here rest = true
  | [] => by
    constructor
    · exact fun h => ⟨[], [], rfl, fun t ht => absurd ht not_mem_nil, h⟩
    · rintro ⟨u, rest, he, -, h⟩
      obtain ⟨rfl, rfl⟩ := nil_eq_append_iff.1 he
      exact h
  | t :: text => by
    rw [matchstar]
    split_ifs with hhere hc
    · exact ⟨fun _ => ⟨[], _, rfl, fun t ht => absurd ht not_mem_nil, hhere⟩, fun _ => rfl⟩
    · rw [matchstar_iff here c text]
      have hacc : Accepts c t := hc.symm.imp_right Eq.symm
      constructor
      · rintro ⟨u, rest, rfl, hu, h⟩
        exact ⟨t :: u, rest, rfl, forall_mem_cons.2 ⟨hacc, hu⟩, h⟩
      · rintro ⟨u, rest, he, hu, h⟩
        cases u with
        | nil =>
          rw [nil_append] at he
          exact absurd (he ▸ h) hhere
        | cons a u =>
          obtain ⟨rfl, rfl⟩ := cons.inj he
          exact ⟨u, rest, rfl, (forall_mem_cons.1 hu).2, h⟩
    · refine ⟨False.elim, ?_⟩
      rintro ⟨u, rest, he, hu, h⟩
      cases u with
      | nil =>
        rw [nil_append] at he
        exact absurd (he ▸ h) hhere
      | cons a u =>
        obtain ⟨rfl, rfl⟩ := cons.inj he
        exact absurd ((hu _ mem_cons_self).symm.imp_left Eq.symm) hc

/-- A character of the pattern against the first one of the text. -/
theorem here_cons_iff {c : UInt8}
    (hre : pieces (c :: re) = (.one c :: (pieces re).1, (pieces re).2))
    (ih : ∀ text, matchhere re text = true ↔ Here re text) (text : List UInt8) :
    (match text with
      | t :: text => if c = dot ∨ c = t then matchhere re text else false
      | [] => false) = true ↔ Here (c :: re) text := by
  rw [here_one hre]
  cases text with
  | nil => simp
  | cons t text =>
    simp only
    split_ifs with hc
    · rw [ih]
      constructor
      · exact fun h => ⟨t, text, rfl, hc, h⟩
      · rintro ⟨_, _, he, -, h⟩
        obtain ⟨rfl, rfl⟩ := cons.inj he
        exact h
    · refine ⟨False.elim, ?_⟩
      rintro ⟨_, _, he, h, -⟩
      obtain ⟨rfl, rfl⟩ := cons.inj he
      exact absurd h hc

/-- `matchhere` decides whether the pattern matches at the beginning. By induction on the
pattern. -/
theorem matchhere_iff : ∀ re text : List UInt8, matchhere re text = true ↔ Here re text
  | [], text => ⟨fun _ => here_nil text, fun _ => rfl⟩
  | [c], text => by
    unfold matchhere
    by_cases hc : c = dollar
    · rw [if_pos hc, hc, here_dollar, decide_eq_true_iff]
    · rw [if_neg hc]
      refine here_cons_iff ?_ (fun text => matchhere_iff [] text) text
      change (if c = dollar then ([], true) else ([Piece.one c], false)) = _
      rw [if_neg hc]
      rfl
  | c :: d :: re, text => by
    unfold matchhere
    by_cases hd : d = star
    · rw [if_pos hd, hd, matchstar_iff, here_many]
      simp only [matchhere_iff re]
    · rw [if_neg hd]
      refine here_cons_iff ?_ (fun text => matchhere_iff (d :: re) text) text
      rw [pieces, if_neg hd]

theorem matchFrom_iff (re : List UInt8) : ∀ text : List UInt8,
    matchFrom re text = true ↔ ∃ before after, text = before ++ after ∧ Here re after
  | [] => by
    rw [matchFrom, matchhere_iff]
    constructor
    · exact fun h => ⟨[], [], rfl, h⟩
    · rintro ⟨before, after, he, h⟩
      obtain ⟨rfl, rfl⟩ := nil_eq_append_iff.1 he
      exact h
  | t :: text => by
    rw [matchFrom]
    split_ifs with hhere
    · exact ⟨fun _ => ⟨[], _, rfl, (matchhere_iff ..).1 hhere⟩, fun _ => rfl⟩
    · rw [matchFrom_iff re text]
      constructor
      · rintro ⟨before, after, rfl, h⟩
        exact ⟨t :: before, after, rfl, h⟩
      · rintro ⟨before, after, he, h⟩
        cases before with
        | nil =>
          rw [nil_append] at he
          exact absurd ((matchhere_iff ..).2 (he ▸ h)) hhere
        | cons a before =>
          obtain ⟨rfl, rfl⟩ := cons.inj he
          exact ⟨before, after, rfl, h⟩

/-- The pattern without the `'^'` at its beginning. -/
def body (re : List UInt8) : List UInt8 := if re.headD 0 = caret then re.tail else re

/-- The matcher decides its pattern language. `match` returns 1 if and only if some part of the
text is in the language of the pattern, a part at the beginning if the pattern starts with `'^'`,
and at the end if it ends with a `'$'` that is not repeated. `matchstar` returns 1 if and only if
some number of repetitions is followed by a match of the rest. -/
theorem match_iff (re text : List UInt8) :
    (match_ re text = true ↔ ∃ before w after, text = before ++ w ++ after ∧ w ∈ lang (body re) ∧
      (re.headD 0 = caret → before = []) ∧ ((pieces (body re)).2 = true → after = [])) ∧
    ∀ c, matchstar (matchhere re) c text = true ↔ ∃ u rest, text = u ++ rest ∧
      (∀ t ∈ u, Accepts c t) ∧ matchhere re rest = true := by
  refine ⟨?_, fun c => matchstar_iff _ c text⟩
  unfold match_ body
  by_cases hre : re.headD 0 = caret
  · rw [if_pos hre, if_pos hre, matchhere_iff]
    constructor
    · rintro ⟨w, after, rfl, hw, hafter⟩
      exact ⟨[], w, after, rfl, hw, fun _ => rfl, hafter⟩
    · rintro ⟨before, w, after, rfl, hw, hbefore, hafter⟩
      rw [hbefore hre]
      exact ⟨w, after, rfl, hw, hafter⟩
  · rw [if_neg hre, if_neg hre, matchFrom_iff]
    constructor
    · rintro ⟨before, _, rfl, w, after, rfl, hw, hafter⟩
      exact ⟨before, w, after, (append_assoc ..).symm, hw, fun h => absurd h hre, hafter⟩
    · rintro ⟨before, w, after, rfl, hw, -, hafter⟩
      exact ⟨before, w ++ after, append_assoc .., w, after, rfl, hw, hafter⟩

example : match_ [94, 97, 42, 98, 36] [97, 97, 98] = true := by decide

/-! ## The buffer -/

/-- The size of `buf`. -/
def BUFSIZE : ℕ := 1024

/-- `strchr(p, '\n')`, with the string cut at the newline. -/
def splitLine : List UInt8 → Option (List UInt8 × List UInt8)
  | [] => none
  | c :: p =>
    if c = 0 then none
    else if c = newline then some ([], p)
    else (splitLine p).map fun r => (c :: r.1, r.2)

/-- The inner loop of `grep`, with a bound on its passes : what it writes, and the string that is
left at `p`. -/
def lineLoop (re : List UInt8) : ℕ → List UInt8 → List UInt8 × List UInt8
  | 0, p => ([], p)
  | n + 1, p =>
    match splitLine p with
    | none => ([], p)
    | some (line, q) =>
      let r := lineLoop re n q
      ((if match_ re line then line ++ [newline] else []) ++ r.1, r.2)

/-- One pass of `grep`, with the bytes that are in the buffer and those that `read` puts after
them : what it writes, and what it leaves in the buffer. -/
def fill (re carry piece : List UInt8) : List UInt8 × List UInt8 :=
  let buf := carry ++ piece
  let r := lineLoop re (buf.length + 1) buf
  -- `p == buf` : no newline was found, and `m` is set to 0
  if r.2.length = buf.length then (r.1, []) else (r.1, r.2)

/-- `grep`, for the pieces that the calls of `read` return before the end of the file. -/
def grep (re : List UInt8) : List UInt8 → List (List UInt8) → List UInt8
  | _, [] => []
  | carry, piece :: reads => (fill re carry piece).1 ++ grep re (fill re carry piece).2 reads

theorem lineLoop_snd (re re' : List UInt8) : ∀ (n : ℕ) (p : List UInt8),
    (lineLoop re n p).2 = (lineLoop re' n p).2
  | 0, _ => rfl
  | n + 1, p => by
    unfold lineLoop
    cases splitLine p with
    | none => rfl
    | some r => exact lineLoop_snd re re' n r.2

/-- What is left in the buffer does not depend on the pattern. -/
theorem fill_snd (re re' carry piece : List UInt8) :
    (fill re carry piece).2 = (fill re' carry piece).2 := by
  unfold fill
  simp only [lineLoop_snd re re']
  split_ifs <;> rfl

/-- Every `read` returns something, and not more than `grep` asks for. -/
def Fits (re : List UInt8) : List UInt8 → List (List UInt8) → Prop
  | _, [] => True
  | carry, piece :: reads => piece ≠ [] ∧ piece.length ≤ BUFSIZE - carry.length - 1 ∧
    Fits re (fill re carry piece).2 reads

theorem Fits.congr : ∀ {reads : List (List UInt8)} {carry : List UInt8},
    Fits re carry reads → ∀ re', Fits re' carry reads
  | [], _, _, _ => trivial
  | _ :: _, _, ⟨hne, hlen, h⟩, re' => ⟨hne, hlen, by rw [fill_snd re' re]; exact h.congr re'⟩

theorem Fits.ne_nil : ∀ {reads : List (List UInt8)} {carry : List UInt8},
    Fits re carry reads → ∀ piece ∈ reads, piece ≠ []
  | [], _, _ => fun _ h => absurd h not_mem_nil
  | _ :: _, _, ⟨hne, _, h⟩ => forall_mem_cons.2 ⟨hne, h.ne_nil⟩

/-! ## Lines -/

/-- The lines, each with its newline. -/
def unlines (lines : List (List UInt8)) : List UInt8 := lines.flatMap (· ++ [newline])

/-- A line without its newline. -/
def Line (line : List UInt8) : Prop := newline ∉ line ∧ 0 ∉ line

theorem unlines_cons (line : List UInt8) (lines : List (List UInt8)) :
    unlines (line :: lines) = line ++ newline :: unlines lines := by
  simp [unlines]

theorem length_le_unlines : ∀ lines : List (List UInt8), lines.length ≤ (unlines lines).length
  | [] => le_refl _
  | line :: lines => by
    have := length_le_unlines lines
    rw [unlines_cons, length_append, length_cons, length_cons]
    omega

theorem not_mem_cons {a c : UInt8} {l : List UInt8} : a ∉ c :: l ↔ a ≠ c ∧ a ∉ l :=
  mem_cons.not.trans not_or

/-- A text is complete lines and the beginning of one. -/
theorem exists_lines : ∀ text : List UInt8, ∃ lines rest, text = unlines lines ++ rest ∧
    (∀ line ∈ lines, newline ∉ line) ∧ newline ∉ rest
  | [] => ⟨[], [], rfl, fun _ h => absurd h not_mem_nil, not_mem_nil⟩
  | c :: text => by
    obtain ⟨lines, rest, rfl, hlines, hrest⟩ := exists_lines text
    by_cases hc : c = newline
    · refine ⟨[] :: lines, rest, ?_, forall_mem_cons.2 ⟨not_mem_nil, hlines⟩, hrest⟩
      rw [unlines_cons, hc]
      rfl
    · cases lines with
      | nil =>
        exact ⟨[], c :: rest, rfl, hlines, not_mem_cons.2 ⟨Ne.symm hc, hrest⟩⟩
      | cons line lines =>
        obtain ⟨hline, hlines⟩ := forall_mem_cons.1 hlines
        refine ⟨(c :: line) :: lines, rest, ?_, forall_mem_cons.2
          ⟨not_mem_cons.2 ⟨Ne.symm hc, hline⟩, hlines⟩, hrest⟩
        rw [unlines_cons, unlines_cons]
        rfl

/-- Two texts that begin with a line. -/
theorem append_newline_inj : ∀ {a b : List UInt8} {s t : List UInt8}, newline ∉ a → newline ∉ b →
    a ++ newline :: s = b ++ newline :: t → a = b ∧ s = t
  | [], [], _, _, _, _, h => ⟨rfl, (cons.inj h).2⟩
  | [], c :: b, _, _, _, hb, h => absurd (cons.inj h).1 (not_mem_cons.1 hb).1
  | c :: a, [], _, _, ha, _, h => absurd (cons.inj h).1.symm (not_mem_cons.1 ha).1
  | c :: a, d :: b, _, _, ha, hb, h => by
    obtain ⟨rfl, htail⟩ := cons.inj h
    obtain ⟨rfl, hrest⟩ := append_newline_inj (not_mem_cons.1 ha).2 (not_mem_cons.1 hb).2 htail
    exact ⟨rfl, hrest⟩

/-- The lines at the beginning of a text are the first of its lines. -/
theorem lines_of_append : ∀ {first lines : List (List UInt8)} {rest : List UInt8},
    (∀ line ∈ first, newline ∉ line) → (∀ line ∈ lines, newline ∉ line) →
    unlines lines = unlines first ++ rest → ∃ more, lines = first ++ more ∧ unlines more = rest
  | [], lines, _, _, _, h => ⟨lines, rfl, h⟩
  | line :: first, [], _, _, _, h => by
    rw [unlines_cons, append_assoc] at h
    exact absurd (append_eq_nil_iff.1 h.symm).2 (cons_ne_nil _ _)
  | line :: first, line' :: lines, _, hfirst, hlines, h => by
    obtain ⟨hline, hfirst'⟩ := forall_mem_cons.1 hfirst
    obtain ⟨hline', hlines'⟩ := forall_mem_cons.1 hlines
    rw [unlines_cons, unlines_cons, append_assoc, cons_append] at h
    obtain ⟨rfl, htail⟩ := append_newline_inj hline' hline h
    obtain ⟨more, rfl, hmore⟩ := lines_of_append hfirst' hlines' htail
    exact ⟨more, rfl, hmore⟩

theorem splitLine_line : ∀ {line : List UInt8} (rest : List UInt8), Line line →
    splitLine (line ++ newline :: rest) = some (line, rest)
  | [], _, _ => rfl
  | c :: line, rest, ⟨h1, h0⟩ => by
    obtain ⟨hc, h1⟩ := not_mem_cons.1 h1
    obtain ⟨hc0, h0⟩ := not_mem_cons.1 h0
    rw [cons_append, splitLine, if_neg (Ne.symm hc0), if_neg (Ne.symm hc),
      splitLine_line rest ⟨h1, h0⟩]
    rfl

theorem splitLine_none : ∀ {rest : List UInt8}, newline ∉ rest → splitLine rest = none
  | [], _ => rfl
  | c :: rest, h => by
    obtain ⟨hc, h⟩ := not_mem_cons.1 h
    rw [splitLine, if_neg (Ne.symm hc), splitLine_none h]
    split_ifs <;> rfl

/-- The inner loop writes the lines that match, and leaves the beginning of the next one. -/
theorem lineLoop_eq (re : List UInt8) : ∀ {n : ℕ} {lines : List (List UInt8)} {rest : List UInt8},
    lines.length < n → (∀ line ∈ lines, Line line) → newline ∉ rest →
    lineLoop re n (unlines lines ++ rest) = (unlines (lines.filter (match_ re)), rest)
  | 0, _, _, hn, _, _ => absurd hn (Nat.not_lt_zero _)
  | n + 1, [], rest, _, _, hrest => by
    change lineLoop re (n + 1) rest = _
    rw [lineLoop, splitLine_none hrest]
    rfl
  | n + 1, line :: lines, rest, hn, hlines, hrest => by
    obtain ⟨hline, hlines⟩ := forall_mem_cons.1 hlines
    rw [unlines_cons, append_assoc, cons_append, lineLoop, splitLine_line _ hline]
    simp only [lineLoop_eq re (Nat.lt_of_succ_lt_succ hn) hlines hrest, filter_cons]
    split_ifs with hm
    · rw [unlines_cons, append_assoc]
      rfl
    · rfl

/-- A pass with a newline in the buffer. -/
theorem fill_lines (re : List UInt8) {rest : List UInt8} {lines : List (List UInt8)}
    (h : carry ++ piece = unlines lines ++ rest) (hne : lines ≠ [])
    (hlines : ∀ line ∈ lines, Line line) (hrest : newline ∉ rest) :
    fill re carry piece = (unlines (lines.filter (match_ re)), rest) := by
  have hpos := length_pos_iff.2 hne
  have hlen := length_le_unlines lines
  have hloop : lineLoop re ((carry ++ piece).length + 1) (unlines lines ++ rest) = _ :=
    lineLoop_eq re (by rw [h, length_append]; omega) hlines hrest
  unfold fill
  simp only
  rw [h] at hloop ⊢
  rw [hloop, if_neg (by rw [length_append]; simp only; omega)]

/-- A pass without a newline in the buffer throws the buffer away. -/
theorem fill_none (re : List UInt8) (h : newline ∉ carry ++ piece) :
    fill re carry piece = ([], []) := by
  have hloop : lineLoop re ((carry ++ piece).length + 1) (carry ++ piece) =
      ([], carry ++ piece) := by
    rw [lineLoop, splitLine_none h]
  unfold fill
  simp only
  rw [hloop, if_pos rfl]

theorem lines_ne_nil {rest : List UInt8} {lines : List (List UInt8)}
    (h : carry ++ piece = unlines lines ++ rest) (hpiece : newline ∈ piece)
    (hrest : newline ∉ rest) :
    lines ≠ [] := by
  rintro rfl
  have hmem : newline ∈ unlines [] ++ rest := h ▸ mem_append_right carry hpiece
  exact hrest hmem

/-- With a newline in every piece, `grep` writes the lines that match. By induction on the reads :
the buffer holds the beginning of the next line. -/
theorem grep_eq (re : List UInt8) : ∀ {reads : List (List UInt8)} {carry : List UInt8}
    {lines : List (List UInt8)}, (∀ line ∈ lines, Line line) → newline ∉ carry →
    carry ++ reads.flatten = unlines lines → (∀ piece ∈ reads, newline ∈ piece) →
    grep re carry reads = unlines (lines.filter (match_ re))
  | [], carry, lines, _, hcarry, h, _ => by
    cases lines with
    | nil => rfl
    | cons line lines =>
      rw [flatten_nil, append_nil, unlines_cons] at h
      exact absurd (h ▸ mem_append_right line mem_cons_self) hcarry
  | piece :: reads, carry, lines, hlines, hcarry, h, hreads => by
    obtain ⟨hpiece, hreads⟩ := forall_mem_cons.1 hreads
    obtain ⟨first, rest, hbuf, hfirst, hrest⟩ := exists_lines (carry ++ piece)
    rw [flatten_cons, ← append_assoc, hbuf, append_assoc] at h
    obtain ⟨more, rfl, hmore⟩ := lines_of_append hfirst (fun l hl => (hlines l hl).1) h.symm
    have hne := lines_ne_nil hbuf hpiece hrest
    rw [grep, fill_lines re hbuf hne (fun l hl => hlines l (mem_append_left _ hl)) hrest,
      grep_eq re (fun l hl => hlines l (mem_append_right _ hl)) hrest hmore.symm hreads,
      filter_append]
    simp [unlines]

/-- What the empty pattern writes. Every piece without a newline is lost. -/
theorem length_grep_nil : ∀ (reads : List (List UInt8)) (carry : List UInt8), 0 ∉ carry →
    newline ∉ carry → (∀ piece ∈ reads, piece ≠ [] ∧ 0 ∉ piece) →
    (grep [] carry reads).length ≤ carry.length + reads.flatten.length ∧
      ((∃ piece ∈ reads, newline ∉ piece) →
        (grep [] carry reads).length < carry.length + reads.flatten.length)
  | [], carry, _, _, _ => by simp [grep]
  | piece :: reads, carry, h0, hcarry, hreads => by
    obtain ⟨⟨hne, hp0⟩, hreads⟩ := forall_mem_cons.1 hreads
    have hpos := length_pos_iff.2 hne
    rw [grep, length_append, flatten_cons, length_append]
    by_cases hpiece : newline ∈ piece
    · obtain ⟨first, rest, hbuf, hfirst, hrest⟩ := exists_lines (carry ++ piece)
      have hzero : 0 ∉ unlines first ++ rest := by
        rw [← hbuf]
        simpa using ⟨h0, hp0⟩
      have hclean : ∀ line ∈ first, Line line := fun line hline =>
        ⟨hfirst line hline, fun hm => hzero (mem_append_left _ (mem_flatMap.2
          ⟨line, hline, mem_append_left _ hm⟩))⟩
      have hfne := lines_ne_nil hbuf hpiece hrest
      have hall : first.filter (match_ []) = first := filter_eq_self.2 fun line _ => by
        cases line <;> rfl
      have hlen : carry.length + piece.length = (unlines first).length + rest.length := by
        rw [← length_append, hbuf, length_append]
      rw [fill_lines [] hbuf hfne hclean hrest, hall]
      obtain ⟨hle, hlt⟩ := length_grep_nil reads rest
        (fun hm => hzero (mem_append_right _ hm)) hrest hreads
      refine ⟨by simp only; omega, ?_⟩
      rintro ⟨q, hq, hqn⟩
      rcases mem_cons.1 hq with rfl | hq
      · exact absurd hpiece hqn
      · have := hlt ⟨q, hq, hqn⟩
        simp only
        omega
    · rw [fill_none [] (by simpa using ⟨hcarry, hpiece⟩)]
      obtain ⟨hle, -⟩ := length_grep_nil reads [] not_mem_nil not_mem_nil hreads
      simp only [length_nil, zero_add] at hle ⊢
      exact ⟨by omega, fun _ => by omega⟩

/-- A line that fits into the buffer with its newline. -/
def Short (line : List UInt8) : Prop := line.length + 1 < BUFSIZE

/-- When the output of `grep` does not depend on how the input arrives. For an input of complete
lines without a 0, and calls of `read` that return it piece by piece, `grep` writes the lines that
match, for every pattern, if and only if every piece has a newline. -/
theorem grep_lines_iff {lines reads : List (List UInt8)}
    (hlines : ∀ line ∈ lines, Line line ∧ Short line) (hinput : reads.flatten = unlines lines)
    (hfits : ∀ re, Fits re [] reads) :
    (∀ re, grep re [] reads = unlines (lines.filter (match_ re))) ↔
      ∀ piece ∈ reads, newline ∈ piece := by
  refine ⟨fun h piece hpiece => by_contra fun hno => ?_, fun h re => ?_⟩
  · have hzero : 0 ∉ reads.flatten := by
      rw [hinput]
      intro hm
      obtain ⟨line, hline, hm⟩ := mem_flatMap.1 hm
      rcases mem_append.1 hm with hm | hm
      · exact (hlines line hline).1.2 hm
      · cases mem_singleton.1 hm
    have hall : lines.filter (match_ []) = lines := filter_eq_self.2 fun line _ => by
      cases line <;> rfl
    have hlt := (length_grep_nil reads [] not_mem_nil not_mem_nil
      fun q hq => ⟨(hfits []).ne_nil q hq, fun hm => hzero (mem_flatten_of_mem hq hm)⟩).2
        ⟨piece, hpiece, hno⟩
    rw [h [], hall, ← hinput, length_nil, zero_add] at hlt
    exact absurd hlt (lt_irrefl _)
  · exact grep_eq re (fun line hline => (hlines line hline).1) not_mem_nil hinput h

/-- The line `"abc"`. -/
def abc : List (List UInt8) := [[97, 98, 99]]

theorem line_abc : ∀ line ∈ abc, Line line ∧ Short line := by
  rintro line (_ | ⟨_, h⟩)
  · exact ⟨⟨by decide, by decide⟩, by unfold Short BUFSIZE; decide⟩
  · cases h

/-- The line `"abc"` arrives in two pieces, and a line with `"a"` is not found. -/
theorem grep_loses_piece : (∀ line ∈ abc, Line line ∧ Short line) ∧
    [[97, 98], [99, 10]].flatten = unlines abc ∧ (∀ re, Fits re [] [[97, 98], [99, 10]]) ∧
    grep [97] [] [[97, 98], [99, 10]] = [] ∧
    unlines (abc.filter (match_ [97])) = [97, 98, 99, 10] := by
  have hfits : Fits [] [] [[97, 98], [99, 10]] := ⟨by simp, by decide, by simp, by decide, trivial⟩
  exact ⟨line_abc, rfl, hfits.congr, rfl, rfl⟩

/-- The lines `"abc"`, `"xd"` and `"ae"`. -/
def threeLines : List (List UInt8) := [[97, 98, 99], [120, 100], [97, 101]]

/-- They arrive in three pieces, of which the first two end in the middle of a line. -/
def threeReads : List (List UInt8) := [[97, 98, 99, 10, 120], [100, 10, 97], [101, 10]]

/-- The beginnings of lines are carried over, and the two lines with `"a"` are found. -/
theorem grep_lines_iff_carried : (∀ re, Fits re [] threeReads) ∧
    grep [97] [] threeReads = unlines (threeLines.filter (match_ [97])) ∧
    grep [97] [] threeReads = [97, 98, 99, 10, 97, 101, 10] := by
  have hlines : ∀ line ∈ threeLines, Line line ∧ Short line := by
    simp only [threeLines, forall_mem_cons, Short, BUFSIZE, Line]
    decide
  have hinput : threeReads.flatten = unlines threeLines := rfl
  have hfits : Fits [] [] threeReads :=
    ⟨by simp, by decide, by simp, by decide, by simp, by decide, trivial⟩
  have hall : ∀ piece ∈ threeReads, newline ∈ piece := by decide
  exact ⟨hfits.congr, (grep_lines_iff hlines hinput hfits.congr).2 hall [97], rfl⟩

end Xv6.Grep
