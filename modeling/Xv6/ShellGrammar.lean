import Xv6.ShellParser

/-!
# Command lines

What `parsecmd` does on a line as a whole : the zeros of `nulterminate` end every word and
overwrite none (`string_nulterminate`), so that `parsecmd` returns the command of the
derivation when the line has one, and panics otherwise (`outcome_parsecmd`,
`parsecmd_of_derives`).

`Cmd.print` writes a command with the parentheses it needs, and parsing gives the command
back (`parsecmd_print`). `words_survive` says what the pointers of the parsed tree address
once `nulterminate` has run.
-/

namespace Xv6.Shell

open List Function

variable {s t : List Char} {α β : Type}

/-! ## The strings of a command -/

theorem Cmd.map_congr {f g : α → β} {cmd : Cmd α} (h : ∀ w ∈ cmd.words, f w = g w) :
    cmd.map f = cmd.map g := by
  induction cmd with
  | exec argv => exact congrArg Cmd.exec (map_congr_left h)
  | redir cmd file mode fd ih =>
    rw [Cmd.map, Cmd.map, ih fun w hw => h w (mem_append_left _ hw),
      h file (mem_append_right _ mem_cons_self)]
  | pipe left right ih ih' | list left right ih ih' =>
    rw [Cmd.map, Cmd.map, ih fun w hw => h w (mem_append_left _ hw),
      ih' fun w hw => h w (mem_append_right _ hw)]
  | back cmd ih => rw [Cmd.map, Cmd.map, ih h]

/-- `nulterminate` ends every word of the command. -/
theorem nulterminate_eq (s : List Char) (cmd : Cmd Span) (buf : List Char) :
    nulterminate s cmd buf = cmd.words.foldl (fun buf w => terminate s buf w.eq) buf := by
  induction cmd generalizing buf with
  | exec argv => rfl
  | redir cmd file mode fd ih => rw [nulterminate, ih, Cmd.words, foldl_append]; rfl
  | pipe left right ih ih' | list left right ih ih' =>
    rw [nulterminate, ih, ih', Cmd.words, foldl_append]
  | back cmd ih => exact ih buf

/-- The places that `nulterminate` writes. -/
def ends (s : List Char) (ws : List Span) : List ℕ := ws.map fun w => s.length - w.eq.length

theorem getElem?_terminated (ws : List Span) (buf : List Char) (i : ℕ) :
    (ws.foldl (fun buf w => terminate s buf w.eq) buf)[i]? =
      if i ∈ ends s ws then buf[i]?.map fun _ => '\x00' else buf[i]? := by
  induction ws generalizing buf with
  | nil => rfl
  | cons w ws ih =>
    rw [foldl_cons, ih]
    simp only [ends, map_cons, mem_cons, terminate, List.getElem?_set]
    by_cases hi : s.length - w.eq.length = i
    · subst hi
      by_cases hlt : s.length - w.eq.length < buf.length
      · simp [hlt]
      · simp [hlt]
    · simp [hi, Ne.symm hi]

namespace Span.Good

variable {w w' : Span}

theorem length_q (h : w.Good s) : w.q.length = w.text.length + w.eq.length := by
  have := congrArg List.length h.append
  rwa [length_append] at this

theorem eq_suffix (h : w.Good s) : w.eq <:+ s :=
  List.IsSuffix.trans ⟨w.text, h.append.symm⟩ h.suffix

/-- The line from a suffix on. -/
theorem getElem?_suffix (h : t <:+ s) (i : ℕ) : s[s.length - t.length + i]? = t[i]? := by
  obtain ⟨u, rfl⟩ := h
  rw [length_append, Nat.add_sub_cancel, List.getElem?_append_right (Nat.le_add_right _ _),
    Nat.add_sub_cancel_left]

theorem getElem?_text (h : w.Good s) {i : ℕ} (hi : i < w.text.length) :
    s[s.length - w.q.length + i]? = w.text[i]? := by
  rw [getElem?_suffix h.suffix, h.append, List.getElem?_append_left hi]

/-- The ends of words are not in words. -/
theorem not_end (h : w.Good s) (h' : w'.Good s) {i : ℕ} (hi : i < w.text.length) :
    s.length - w'.eq.length ≠ s.length - w.q.length + i := by
  intro heq
  have hc := h.getElem?_text hi
  rw [← heq, ← add_zero (s.length - w'.eq.length), getElem?_suffix h'.eq_suffix,
    List.getElem?_eq_getElem hi] at hc
  have hend := h'.ends w.text[i] (by rw [← List.head?_eq_getElem?] at hc; exact hc)
  rw [h.chars _ (getElem_mem hi)] at hend
  cases hend

end Span.Good

/-- After `nulterminate` the pointers of a command address its words. -/
theorem string_nulterminate {ws : List Span} (hs : '\x00' ∉ s) (hgood : ∀ w ∈ ws, w.Good s)
    {w : Span} (hw : w ∈ ws) :
    string s (ws.foldl (fun buf w => terminate s buf w.eq) s) w.q = w.text := by
  have h := hgood w hw
  have hle := h.suffix.length_le
  have hlen := h.length_q
  generalize hbuf : ws.foldl (fun buf w => terminate s buf w.eq) s = buf
  have hget := getElem?_terminated (s := s) ws s
  rw [hbuf] at hget
  have hsplit : buf.drop (s.length - w.q.length) =
      w.text ++ buf.drop (s.length - w.eq.length) := by
    refine ext_getElem? fun i => ?_
    rw [List.getElem?_drop]
    by_cases hi : i < w.text.length
    · have hnot : s.length - w.q.length + i ∉ ends s ws := by
        intro hmem
        obtain ⟨w', hw', heq⟩ := mem_map.1 hmem
        exact h.not_end (hgood w' hw') hi heq
      rw [hget, if_neg hnot, h.getElem?_text hi, List.getElem?_append_left hi]
    · rw [List.getElem?_append_right (by omega), List.getElem?_drop]
      congr 1
      omega
  have hstop : (buf.drop (s.length - w.eq.length)).takeWhile (· ≠ '\x00') = [] := by
    have hhead : (buf.drop (s.length - w.eq.length)).head? =
        s[s.length - w.eq.length]?.map fun _ => '\x00' := by
      have hmem : s.length - w.eq.length ∈ ends s ws := mem_map.2 ⟨w, hw, rfl⟩
      rw [List.head?_drop, hget, if_pos hmem]
    cases hd : buf.drop (s.length - w.eq.length) with
    | nil => rfl
    | cons c t =>
      rw [hd, List.head?_cons] at hhead
      obtain ⟨-, -, rfl⟩ := Option.map_eq_some_iff.1 hhead.symm
      rfl
  have htext : ∀ c ∈ w.text, (decide (c ≠ '\x00')) = true := by
    intro c hc
    rw [decide_eq_true_eq]
    rintro rfl
    exact hs (h.suffix.subset (by rw [h.append]; exact mem_append_left _ hc))
  rw [string, hsplit, takeWhile_append_of_pos htext, hstop, append_nil]

/-! ## What parsecmd returns -/

/-- `parsecmd` once the line has been parsed. -/
theorem parsecmd_eq (hs : '\x00' ∉ s) {cmd : Cmd Span} {rest : List Char}
    (hline : parseline (4 * s.length + 4) s = .ok (cmd, rest))
    (hgood : ∀ w ∈ cmd.words, w.Good s) :
    parsecmd s = if skip rest = [] then .ok (cmd.map Span.text) else .error (.panic "syntax") := by
  have hmap : (cmd.map fun w => string s (nulterminate s cmd s) w.q) = cmd.map Span.text := by
    refine Cmd.map_congr fun w hw => ?_
    rw [nulterminate_eq]
    exact string_nulterminate hs hgood hw
  rw [parsecmd, hline, ok_bind]
  simp only [peek, hmap]
  by_cases hskip : skip rest = []
  · rw [if_neg (not_not.2 hskip), if_pos hskip]
    rfl
  · rw [if_pos hskip, if_neg hskip]
    rfl

theorem skip_eq_nil_iff (hs : '\x00' ∉ s) : skip s = [] ↔ tokens s = [] := by
  rcases next_cases hs with ⟨hnil, -, hskip⟩ | ⟨tok, eq, hn⟩
  · exact iff_of_true hskip hnil
  · refine iff_of_false (fun h => ?_) fun h => ?_
    · have := hn.tokens
      rw [← tokens_skip s, h] at this
      cases this
    · rw [hn.tokens] at h
      cases h

/-- `parsecmd` finds a derivation of the line or panics. -/
theorem outcome_parsecmd (hs : '\x00' ∉ s) :
    Outcome (parsecmd s) IsPanic (Derives .line (tokens s)) := by
  have hline := (sound (4 * s.length + 4)).line s hs le_rfl
  cases hp : parseline (4 * s.length + 4) s with
  | error e =>
    rw [hp, outcome_error_iff] at hline
    rw [parsecmd, hp]
    exact outcome_error hline
  | ok r =>
    rw [hp, outcome_ok_iff] at hline
    obtain ⟨us, hd, hr⟩ := hline.reads
    rw [parsecmd_eq hs hp hline.good]
    split_ifs with hskip
    · rw [skip_eq_nil_iff (hr.clean hs)] at hskip
      rw [hr.tokens, hskip, append_nil]
      exact outcome_ok hd
    · exact outcome_error ⟨_, rfl⟩

/-- `parsecmd` finds the derivation of the line. -/
theorem parsecmd_of_derives (hs : '\x00' ∉ s) {c : Cmd (List Char)}
    (h : Derives .line (tokens s) c) : parsecmd s = .ok c := by
  obtain ⟨cmd, t, hp, rfl, hr⟩ := h.parses (n := 4 * s.length + 4) hs le_rfl
    (append_nil _).symm (Or.inr rfl)
  have hline := ((sound (4 * s.length + 4)).line s hs le_rfl).of_ok hp
  have ht : tokens t = [] := hr.rest (append_nil _).symm
  rw [parsecmd_eq hs hp hline.good, if_pos ((skip_eq_nil_iff (hr.clean hs)).2 ht)]

/-! ## Printing -/

/-- The words of lines. -/
structure IsWord (w : List Char) : Prop where
  ne : w ≠ []
  chars : ∀ c ∈ w, isWord c = true
  clean : '\x00' ∉ w

def Token.text : Token → List Char
  | .bar => ['|']
  | .lparen => ['(']
  | .rparen => [')']
  | .semi => [';']
  | .amp => ['&']
  | .lt => ['<']
  | .gt => ['>']
  | .append => ['>', '>']
  | .word w => w

/-- The tokens, each with a blank after it. -/
def render (ts : List Token) : List Char := ts.flatMap fun t => t.text ++ [' ']

theorem tokens_blank (s : List Char) : tokens (' ' :: s) = tokens s :=
  tokens_cons_of_white rfl

theorem tokens_text {tok : Token} (h : ∀ w, tok = .word w → IsWord w) (s : List Char) :
    tokens (tok.text ++ ' ' :: s) = tok :: tokens s := by
  cases tok with
  | word w =>
    have hw := h w rfl
    obtain ⟨c, w, rfl⟩ := exists_cons_of_ne_nil hw.ne
    have hchars : ∀ d ∈ w, isWord d = true := fun d hd => hw.chars d (mem_cons_of_mem _ hd)
    have hblank : isWord ' ' = false := by decide
    rw [Token.text, cons_append, tokens_word (hw.chars c mem_cons_self),
      takeWhile_append_of_pos hchars, dropWhile_append_of_pos hchars,
      takeWhile_cons_of_neg (by simp [hblank]), dropWhile_cons_of_neg (by simp [hblank]),
      append_nil, tokens_blank]
  | _ =>
    rw [Token.text, cons_append, tokens.eq_def]
    simp [strchr, whitespace, symbol, tokens_blank]

/-- A line is read back as the tokens it was made of. -/
theorem tokens_render {ts : List Token} (h : ∀ w, .word w ∈ ts → IsWord w) :
    tokens (render ts) = ts := by
  induction ts with
  | nil => rfl
  | cons t ts ih =>
    rw [render, flatMap_cons, append_assoc, singleton_append,
      tokens_text fun w hw => h w (hw ▸ mem_cons_self)]
    exact congrArg (t :: ·) (ih fun w hw => h w (mem_cons_of_mem _ hw))

theorem render_clean {ts : List Token} (h : ∀ w, .word w ∈ ts → IsWord w) :
    '\x00' ∉ render ts := by
  rw [render, mem_flatMap]
  rintro ⟨t, ht, hmem⟩
  cases t with
  | word w =>
    rcases mem_append.1 hmem with hw | hblank
    · exact (h w ht).clean hw
    · revert hblank
      decide
  | _ =>
    revert hmem
    decide

namespace Cmd

/-- How loosely the parts of a command are joined. -/
def rank : Cmd α → ℕ
  | exec _ => 0
  | redir _ _ _ _ => 0
  | pipe _ _ => 1
  | back _ => 2
  | list _ _ => 3

/-- A part of a command, in parentheses where it is joined too loosely. -/
def wrap (n rank : ℕ) (ts : List Token) : List Token :=
  if rank ≤ n then ts else .lparen :: ts ++ [.rparen]

/-- The tokens of a command. -/
def toTokens : Cmd (List Char) → List Token
  | exec argv => argv.map .word
  | redir cmd file _ fd =>
    wrap 0 cmd.rank cmd.toTokens ++ [if fd = 0 then .lt else .gt, .word file]
  | pipe left right =>
    wrap 0 left.rank left.toTokens ++ .bar :: wrap 1 right.rank right.toTokens
  | back cmd => wrap 2 cmd.rank cmd.toTokens ++ [.amp]
  | list left right => wrap 2 left.rank left.toTokens ++ .semi :: right.toTokens

/-- Print a command. -/
def print (cmd : Cmd (List Char)) : List Char := render cmd.toTokens

end Cmd

example : String.ofList (Cmd.print (.back (.list (.exec ["a".toList]) (.exec ["b".toList])))) =
    "( a ; b ) & " := by
  decide +kernel

variable {ts us : List Token} {c d : Cmd (List Char)} {n m : ℕ}

theorem Cmd.addRedirs_concat (cmd : Cmd α) (rs : List (Redir α)) (r : Redir α) :
    cmd.addRedirs (rs ++ [r]) = .redir (cmd.addRedirs rs) r.file r.op.mode r.op.fd :=
  cmd.addRedirs_append rs [r]

/-- A redirection can be put after any command of the grammar. -/
theorem Derives.addRedir (h : Derives .exec ts c) (op : Op) (file : List Char) :
    Derives .exec (ts ++ [op.tok, .word file]) (.redir c file op.mode op.fd) := by
  cases h with
  | @block ts c rs hline =>
    have := Derives.block (rs ++ [⟨op, file⟩]) hline
    rw [Cmd.addRedirs_concat] at this
    simpa [redirTokens] using this
  | simple rs args hlen =>
    -- the redirection belongs to the last argument, if there is one
    rcases eq_nil_or_concat args with rfl | ⟨args, a, rfl⟩
    · have := Derives.simple (rs ++ [⟨op, file⟩]) [] hlen
      rw [flatMap_nil, append_nil, Cmd.addRedirs_concat] at this
      simpa [redirTokens, argTokens] using this
    · have := Derives.simple rs (args ++ [⟨a.word, a.redirs ++ [⟨op, file⟩]⟩])
        (by simpa using hlen)
      rw [flatMap_append, flatMap_singleton, ← append_assoc, ← append_assoc,
        Cmd.addRedirs_concat] at this
      simpa [redirTokens, argTokens] using this

/-- The commands that are joined as closely as the rank says. -/
def Level : ℕ → List Token → Cmd (List Char) → Prop
  | 0, ts, c => Derives .exec ts c
  | 1, ts, c => Derives .pipe ts c
  | 2, ts, c => ∃ (n : ℕ) (us : List Token) (d : Cmd (List Char)),
      Derives .pipe us d ∧ ts = us ++ List.replicate n .amp ∧ c = Cmd.back^[n] d
  | _ + 3, ts, c => Derives .line ts c

theorem Level.succ : ∀ {n : ℕ}, Level n ts c → Level (n + 1) ts c
  | 0, h => Derives.exec h
  | 1, h => ⟨0, ts, c, h, (append_nil ts).symm, rfl⟩
  | 2, ⟨n, us, d, h, hts, hc⟩ => by
    rw [hts, hc]
    exact Derives.line n h
  | _ + 3, h => h

theorem Level.mono (h : Level n ts c) (hnm : n ≤ m) : Level m ts c :=
  Nat.le_induction h (fun _ _ => Level.succ) m hnm

theorem Level.line (h : Level n ts c) : Derives .line ts c := h.mono (Nat.le_add_right n 3)

theorem Level.wrap (h : Level n ts c) (m : ℕ) : Level m (Cmd.wrap m n ts) c := by
  rw [Cmd.wrap]
  split_ifs with hnm
  · exact h.mono hnm
  · have hblock : Level 0 (.lparen :: ts ++ .rparen :: redirTokens []) (c.addRedirs []) :=
      Derives.block [] h.line
    exact hblock.mono (Nat.zero_le m)

/-- The commands that the grammar can have, but for their words. -/
def Cmd.Formed : Cmd α → Prop
  | exec argv => argv.length ≤ MAXARGS - 1
  | redir cmd _ mode fd => cmd.Formed ∧ ∃ op : Op, mode = op.mode ∧ fd = op.fd
  | pipe left right => left.Formed ∧ right.Formed
  | list left right => left.Formed ∧ right.Formed
  | back cmd => cmd.Formed

theorem argTokens_words (argv : List (List Char)) :
    argTokens (argv.map fun w => ⟨w, []⟩) = argv.map .word := by
  induction argv with
  | nil => rfl
  | cons w argv ih => exact congrArg (.word w :: ·) ih

/-- What is printed derives the command. -/
theorem level_toTokens (h : c.Formed) : Level c.rank c.toTokens c := by
  induction c with
  | exec argv =>
    have hwords : (argv.map fun w => (⟨w, []⟩ : Arg (List Char))).map Arg.word = argv := by
      simp [comp_def]
    have hredirs : (argv.map fun w => (⟨w, []⟩ : Arg (List Char))).flatMap Arg.redirs = [] := by
      simp
    have := Derives.simple [] (argv.map fun w => ⟨w, []⟩) (by rw [length_map]; exact h)
    rw [argTokens_words, hwords, hredirs] at this
    exact this
  | redir cmd file mode fd ih =>
    obtain ⟨hcmd, op, rfl, rfl⟩ := h
    have hexec : Derives .exec _ cmd := (ih hcmd).wrap 0
    cases op with
    | lt => exact hexec.addRedir .lt file
    | gt => exact hexec.addRedir .gt file
    | append => exact hexec.addRedir .gt file
  | pipe left right ih ih' => exact Derives.pipe ((ih h.1).wrap 0) ((ih' h.2).wrap 1)
  | list left right ih ih' =>
    obtain ⟨n, us, d, hd, hts, hc⟩ := (ih h.1).wrap 2
    have := Derives.seq n hd (ih' h.2).line
    rw [← hts, ← hc] at this
    exact this
  | back cmd ih =>
    obtain ⟨n, us, d, hd, hts, hc⟩ := (ih h).wrap 2
    refine ⟨n + 1, us, d, hd, ?_, ?_⟩
    · rw [Cmd.toTokens, hts, replicate_succ', append_assoc]
    · rw [iterate_succ_apply', ← hc]

theorem mem_wrap {w : List Char} (h : .word w ∈ Cmd.wrap n m ts) : .word w ∈ ts := by
  rw [Cmd.wrap] at h
  split_ifs at h with hnm
  · exact h
  · simpa using h

theorem mem_words_of_toTokens {w : List Char} (h : .word w ∈ c.toTokens) : w ∈ c.words := by
  induction c with
  | exec argv => simpa [Cmd.toTokens, Cmd.words] using h
  | redir cmd file mode fd ih =>
    rcases mem_append.1 h with h | h
    · exact mem_append_left _ (ih (mem_wrap h))
    · refine mem_append_right _ ?_
      split_ifs at h <;> simpa using h
  | pipe left right ih ih' =>
    rcases mem_append.1 h with h | h
    · exact mem_append_left _ (ih (mem_wrap h))
    · exact mem_append_right _ (ih' (mem_wrap (by simpa using h)))
  | list left right ih ih' =>
    rcases mem_append.1 h with h | h
    · exact mem_append_left _ (ih (mem_wrap h))
    · exact mem_append_right _ (ih' (by simpa using h))
  | back cmd ih =>
    rcases mem_append.1 h with h | h
    · exact ih (mem_wrap h)
    · simp at h

/-! ## The commands of the grammar -/

theorem Cmd.formed_addRedirs {cmd : Cmd α} (h : cmd.Formed) (rs : List (Redir α)) :
    (cmd.addRedirs rs).Formed := by
  induction rs generalizing cmd with
  | nil => exact h
  | cons r rs ih => exact ih ⟨h, r.op, rfl, rfl⟩

theorem Cmd.formed_back {cmd : Cmd α} (h : cmd.Formed) (n : ℕ) : (Cmd.back^[n] cmd).Formed := by
  induction n generalizing cmd with
  | zero => exact h
  | succ n ih => exact ih h

/-- What the grammar derives is well formed. -/
theorem Derives.formed {k : Kind} (h : Derives k ts c) : c.Formed := by
  induction h with
  | line n _ ih => exact Cmd.formed_back ih n
  | seq n _ _ ih ih' => exact ⟨Cmd.formed_back ih n, ih'⟩
  | exec _ ih => exact ih
  | pipe _ _ ih ih' => exact ⟨ih, ih'⟩
  | block rs _ ih => exact Cmd.formed_addRedirs ih rs
  | simple rs args hlen =>
    refine Cmd.formed_addRedirs ?_ _
    rw [Cmd.Formed, length_map]
    exact hlen

theorem mem_redirTokens {rs : List (Redir (List Char))} {w : List Char}
    (h : w ∈ rs.map Redir.file) : .word w ∈ redirTokens rs := by
  obtain ⟨r, hr, rfl⟩ := mem_map.1 h
  exact mem_flatMap.2 ⟨r, hr, by simp⟩

/-- The words of a command are words of the line. -/
theorem Derives.mem_words {k : Kind} (h : Derives k ts c) {w : List Char} (hw : w ∈ c.words) :
    .word w ∈ ts := by
  induction h with
  | line n _ ih =>
    rw [Cmd.words_back] at hw
    exact mem_append_left _ (ih hw)
  | seq n _ _ ih ih' =>
    rw [Cmd.words, Cmd.words_back, mem_append] at hw
    rcases hw with hw | hw
    · exact mem_append_left _ (mem_append_left _ (ih hw))
    · exact mem_append_right _ (mem_cons_of_mem _ (ih' hw))
  | exec _ ih => exact ih hw
  | pipe _ _ ih ih' =>
    rcases mem_append.1 hw with hw | hw
    · exact mem_append_left _ (ih hw)
    · exact mem_append_right _ (mem_cons_of_mem _ (ih' hw))
  | block rs _ ih =>
    rw [Cmd.words_addRedirs, mem_append] at hw
    rcases hw with hw | hw
    · exact mem_append_left _ (mem_cons_of_mem _ (ih hw))
    · exact mem_append_right _ (mem_cons_of_mem _ (mem_redirTokens hw))
  | simple rs args hlen =>
    rw [Cmd.words_addRedirs, Cmd.words, mem_append, map_append, mem_append] at hw
    rcases hw with hw | hw | hw
    · obtain ⟨a, ha, rfl⟩ := mem_map.1 hw
      exact mem_append_right _ (mem_flatMap.2 ⟨a, ha, mem_cons_self⟩)
    · exact mem_append_left _ (mem_redirTokens hw)
    · obtain ⟨r, hr, rfl⟩ := mem_map.1 hw
      obtain ⟨a, ha, hr⟩ := mem_flatMap.1 hr
      exact mem_append_right _ (mem_flatMap.2 ⟨a, ha,
        mem_cons_of_mem _ (mem_redirTokens (mem_map_of_mem hr))⟩)

/-- Parsing gives back what was printed. -/
theorem parsecmd_print (h : Derives .line ts c) (hts : ∀ w, .word w ∈ ts → IsWord w) :
    parsecmd c.print = .ok c := by
  have hwords : ∀ w, .word w ∈ c.toTokens → IsWord w := fun w hw =>
    hts w (h.mem_words (mem_words_of_toTokens hw))
  refine parsecmd_of_derives (render_clean hwords) ?_
  rw [tokens_render hwords]
  exact (level_toTokens h.formed).line

/-- What is no command is a panic. -/
theorem parsecmd_panics (hs : '\x00' ∉ s) (h : ¬ ∃ c, Derives .line (tokens s) c) :
    ∃ msg, parsecmd s = .error (.panic msg) := by
  have hout := outcome_parsecmd hs
  cases hp : parsecmd s with
  | ok c =>
    rw [hp, outcome_ok_iff] at hout
    exact absurd ⟨c, hout⟩ h
  | error e =>
    rw [hp, outcome_error_iff] at hout
    obtain ⟨msg, rfl⟩ := hout
    exact ⟨msg, rfl⟩

/-- The parser terminates. -/
theorem parsecmd_ne_fuel (hs : '\x00' ∉ s) : parsecmd s ≠ .error .fuel := by
  intro hp
  have hout := outcome_parsecmd hs
  rw [hp, outcome_error_iff] at hout
  obtain ⟨msg, hmsg⟩ := hout
  cases hmsg

/-- The shell parser stops on every line. It accepts exactly the lines of its grammar, with
the tree of the derivation, and panics on every other line. Printing a tree of the grammar and
parsing it gives the tree back. -/
theorem parsecmd_grammar :
    (∀ s, '\x00' ∉ s → parsecmd s ≠ .error .fuel ∧
      (∀ c, parsecmd s = .ok c ↔ Derives .line (tokens s) c) ∧
      ((¬ ∃ c, Derives .line (tokens s) c) → ∃ msg, parsecmd s = .error (.panic msg))) ∧
    ∀ ts c, Derives .line ts c → (∀ w, .word w ∈ ts → IsWord w) → parsecmd c.print = .ok c :=
  ⟨fun _ hs => ⟨parsecmd_ne_fuel hs,
    fun _ => ⟨(outcome_parsecmd hs).of_ok, parsecmd_of_derives hs⟩, parsecmd_panics hs⟩,
    fun _ _ => parsecmd_print⟩

/-- The grammar at a line with a pipe to the background. -/
theorem parsecmd_grammar_pipe :
    '\x00' ∉ "ls|wc>n&".toList ∧
      Derives .line (tokens "ls|wc>n&".toList)
        (.back (.pipe (.exec ["ls".toList])
          (.redir (.exec ["wc".toList]) "n".toList (O_WRONLY ||| O_CREATE) 1))) :=
  ⟨by decide, ((parsecmd_grammar.1 "ls|wc>n&".toList (by decide)).2.1 _).1 (by decide +kernel)⟩

/-! ## The words after nulterminate -/

/-- The arguments of every simple command. -/
def Cmd.argvs : Cmd α → List (List α)
  | exec argv => [argv]
  | redir cmd _ _ _ => cmd.argvs
  | pipe left right => left.argvs ++ right.argvs
  | list left right => left.argvs ++ right.argvs
  | back cmd => cmd.argvs

/-- The stores of `parseexec` in the array `argv`, from `argv[argc]` on. -/
def storeArgs : ℕ → List α → List (Option α) → List (Option α)
  | argc, [], cells => cells.set argc none
  | argc, w :: argv, cells => storeArgs (argc + 1) argv (cells.set argc (some w))

/-- The loop of `parseexec` fills `argv` from the front. -/
theorem storeArgs_eq (argv : List α) (front : List (Option α)) {k : ℕ} (h : argv.length < k) :
    storeArgs front.length argv (front ++ List.replicate k none) =
      front ++ (argv.map some ++ List.replicate (k - argv.length) none) := by
  induction argv generalizing front k with
  | nil =>
    obtain ⟨k, rfl⟩ := Nat.exists_eq_succ_of_ne_zero (Nat.ne_zero_of_lt h)
    rw [storeArgs, set_append_right _ _ le_rfl, Nat.sub_self]
    rfl
  | cons w argv ih =>
    obtain ⟨k, rfl⟩ := Nat.exists_eq_succ_of_ne_zero (Nat.ne_zero_of_lt h)
    have hset : (front ++ List.replicate (k + 1) none).set front.length (some w) =
        front ++ [some w] ++ List.replicate k none := by
      rw [set_append_right _ _ le_rfl, Nat.sub_self, append_assoc]
      rfl
    have hstep := ih (front ++ [some w]) (Nat.lt_of_succ_lt_succ h)
    rw [length_append, length_singleton] at hstep
    rw [storeArgs, Nat.succ_eq_add_one, hset, hstep, length_cons, Nat.add_sub_add_right,
      append_assoc]
    rfl

theorem Cmd.Formed.argvs {cmd : Cmd α} (h : cmd.Formed) : ∀ argv ∈ cmd.argvs,
    argv.length < MAXARGS := by
  induction cmd with
  | exec argv =>
    intro argv' hmem
    obtain rfl := mem_singleton.1 hmem
    exact Nat.lt_of_le_pred (by decide) h
  | redir cmd file mode fd ih => exact ih h.1
  | pipe left right ih ih' | list left right ih ih' =>
    exact fun argv hmem => (mem_append.1 hmem).elim (ih h.1 argv) (ih' h.2 argv)
  | back cmd ih => exact ih h

theorem Cmd.argvs_map (f : α → β) (cmd : Cmd α) :
    (cmd.map f).argvs = cmd.argvs.map (List.map f) := by
  induction cmd with
  | exec argv => rfl
  | redir cmd file mode fd ih => exact ih
  | pipe left right ih ih' | list left right ih ih' =>
    rw [Cmd.map, Cmd.argvs, ih, ih', Cmd.argvs, map_append]
  | back cmd ih => exact ih

/-- `nulterminate` writes no character of a word. -/
theorem getElem?_nulterminate {cmd : Cmd Span} (hgood : ∀ w ∈ cmd.words, w.Good s) {i : ℕ}
    {c : Char} (hi : s[i]? = some c) (hc : isWord c = true) :
    (nulterminate s cmd s)[i]? = some c := by
  have hnot : i ∉ ends s cmd.words := by
    intro hmem
    obtain ⟨w, hw, rfl⟩ := mem_map.1 hmem
    have h := hgood w hw
    rw [← add_zero (s.length - w.eq.length), Span.Good.getElem?_suffix h.eq_suffix,
      ← List.head?_eq_getElem?] at hi
    rw [h.ends c hi] at hc
    cases hc
  rw [nulterminate_eq, getElem?_terminated, if_neg hnot, hi]

/-- The words of the shell survive `nulterminate`. On a line that `parsecmd` accepts, the tree
is the one of the tokens of the line; every pointer of it addresses, in the buffer with the
zeros, the text of its word in the line; the array of arguments of a simple command ends with
a null pointer inside its bounds; and no zero is stored on a character of a word. -/
theorem words_survive {c : Cmd (List Char)} (hs : '\x00' ∉ s) (h : parsecmd s = .ok c) :
    Derives .line (tokens s) c ∧
    ∃ cmd rest, parseline (4 * s.length + 4) s = .ok (cmd, rest) ∧ cmd.map Span.text = c ∧
      (∀ w ∈ cmd.words, w.Good s ∧ string s (nulterminate s cmd s) w.q = w.text) ∧
      (∀ argv ∈ cmd.argvs, argv.length < MAXARGS ∧
        storeArgs 0 argv (List.replicate MAXARGS none) =
          argv.map some ++ List.replicate (MAXARGS - argv.length) none) ∧
      ∀ (i : ℕ) (d : Char), s[i]? = some d → isWord d = true →
        (nulterminate s cmd s)[i]? = some d := by
  have hd := (outcome_parsecmd hs).of_ok h
  obtain ⟨cmd, rest, hp, rfl, -⟩ := hd.parses (n := 4 * s.length + 4) hs le_rfl
    (append_nil _).symm (Or.inr rfl)
  have hgood := (((sound (4 * s.length + 4)).line s hs le_rfl).of_ok hp).good
  refine ⟨hd, cmd, rest, hp, rfl, fun w hw => ⟨hgood w hw, ?_⟩, fun argv hmem => ?_,
    fun i d hi hc => getElem?_nulterminate hgood hi hc⟩
  · rw [nulterminate_eq]
    exact string_nulterminate hs hgood hw
  · have hlt := hd.formed.argvs (argv.map Span.text)
      (by rw [Cmd.argvs_map]; exact mem_map_of_mem hmem)
    rw [length_map] at hlt
    exact ⟨hlt, storeArgs_eq argv [] hlt⟩

/-- The words of a line with a pipe and a redirection before the command. -/
theorem words_survive_pipe :
    parsecmd "ls|>n wc".toList = .ok (.pipe (.exec ["ls".toList])
      (.redir (.exec ["wc".toList]) "n".toList (O_WRONLY ||| O_CREATE) 1)) ∧
    ∃ cmd rest, parseline 36 "ls|>n wc".toList = .ok (cmd, rest) ∧
      ∀ w ∈ cmd.words, string "ls|>n wc".toList
        (nulterminate "ls|>n wc".toList cmd "ls|>n wc".toList) w.q = w.text := by
  have hp : parsecmd "ls|>n wc".toList = .ok (.pipe (.exec ["ls".toList])
      (.redir (.exec ["wc".toList]) "n".toList (O_WRONLY ||| O_CREATE) 1)) := by decide +kernel
  obtain ⟨-, cmd, rest, hline, -, hwords, -⟩ := words_survive (by decide) hp
  exact ⟨hp, cmd, rest, hline, fun w hw => (hwords w hw).2⟩

end Xv6.Shell
