import Xv6.Shell
import Xv6.Outcome
import Mathlib.Data.List.DropRight
import Mathlib.Data.List.Infix
import Mathlib.Logic.Function.Iterate

/-!
# The grammar of the shell

`Derives` is the grammar of command lines over the tokens of a line (`tokens`), with the
command tree of each derivation. The functions of the parser find a derivation or panic :
soundness and the bound on the calls are one induction on that bound (`sound`),
completeness is an induction on the derivation (`Derives.parses`), and both follow the line
only through its tokens.
-/

namespace Xv6.Shell

open List Option

/-! ## Tokens -/

/-- The tokens of a command line. -/
inductive Token where
  | bar
  | lparen
  | rparen
  | semi
  | amp
  | lt
  | gt
  | append
  | word (w : List Char)
deriving DecidableEq

/-- A character of a word. -/
def isWord (c : Char) : Bool := !strchr whitespace c && !strchr symbols c

/-- The token that is this one character. -/
def symbol (c : Char) : Option Token :=
  if c = '|' then some .bar
  else if c = '(' then some .lparen
  else if c = ')' then some .rparen
  else if c = ';' then some .semi
  else if c = '&' then some .amp
  else if c = '<' then some .lt
  else none

/-- The tokens of a line. Words are maximal. -/
def tokens : List Char → List Token
  | [] => []
  | c :: s =>
    if strchr whitespace c then tokens s
    else if c = '>' then
      match s with
      | '>' :: t => .append :: tokens t
      | s => .gt :: tokens s
    else
      match symbol c with
      | some t => t :: tokens s
      | none =>
        if s.head?.any isWord then
          match tokens s with
          | .word w :: ts => .word (c :: w) :: ts
          | ts => .word [c] :: ts
        else .word [c] :: tokens s

example : tokens "a>>b<c".toList = [.word ['a'], .append, .word ['b'], .lt, .word ['c']] := by
  decide +kernel

variable {s t eq : List Char} {c : Char}

/-- What `gettoken` returns for the token. -/
def Token.ret : Token → Char
  | .bar => '|'
  | .lparen => '('
  | .rparen => ')'
  | .semi => ';'
  | .amp => '&'
  | .lt => '<'
  | .gt => '>'
  | .append => '+'
  | .word _ => 'a'

/-- The character that `peek` sees, and `'a'` for a word. -/
def Token.sym : Token → Char
  | .append => '>'
  | t => t.ret

theorem Token.ret_ne (t : Token) (h : ∀ w, t ≠ .word w) : t.ret ≠ 'a' := by
  cases t with
  | word w => exact absurd rfl (h w)
  | _ => decide

theorem Token.ret_ne_nul (t : Token) : t.ret ≠ '\x00' := by
  have ha : 'a' ≠ '\x00' := by decide
  cases t with
  | word w => exact ha
  | _ => decide

theorem skip_suffix (s : List Char) : skip s <:+ s := dropWhile_suffix _

@[simp] theorem skip_skip (s : List Char) : skip (skip s) = skip s :=
  dropWhile_idempotent ..

theorem skip_cons_of_not (h : strchr whitespace c = false) : skip (c :: s) = c :: s := by
  simp [skip, h]

/-- After whitespace there is the end of the line or another character. -/
theorem skip_cases (s : List Char) :
    skip s = [] ∨ ∃ c t, skip s = c :: t ∧ strchr whitespace c = false := by
  cases h : skip s with
  | nil => exact Or.inl rfl
  | cons c t =>
    refine Or.inr ⟨c, t, rfl, ?_⟩
    have := List.head?_dropWhile_not (strchr whitespace) s
    rw [show s.dropWhile (strchr whitespace) = c :: t from h] at this
    simpa using this

theorem tokens_cons_of_white (h : strchr whitespace c = true) : tokens (c :: s) = tokens s := by
  rw [tokens.eq_def]
  simp [h]

/-- Leading whitespace is not part of a token. -/
@[simp] theorem tokens_skip : ∀ s : List Char, tokens (skip s) = tokens s
  | [] => rfl
  | c :: s => by
    cases h : strchr whitespace c with
    | true =>
      have hs : skip (c :: s) = skip s := by simp [skip, h]
      rw [hs, tokens_cons_of_white h, tokens_skip s]
    | false => rw [skip_cons_of_not h]

@[simp] theorem gettoken_skip (s : List Char) : gettoken (skip s) = gettoken s := by
  unfold gettoken
  rw [skip_skip]

theorem isWord_iff : isWord c = true ↔ strchr whitespace c = false ∧ strchr symbols c = false := by
  simp [isWord]

theorem symbol_of_isWord (h : isWord c = true) : c ≠ '>' ∧ symbol c = none := by
  have hsym := (isWord_iff.1 h).2
  simp only [strchr, symbols, mem_cons, not_mem_nil, or_false, decide_eq_false_iff_not,
    not_or] at hsym
  simp [symbol, hsym]

/-- The symbols of one character. -/
theorem symbol_of_strchr (h : strchr ['|', '(', ')', ';', '&', '<'] c = true) :
    ∃ tok, symbol c = some tok ∧ tok.ret = c ∧ tok.sym = c ∧ ∀ w, tok ≠ .word w := by
  simp only [strchr, mem_cons, not_mem_nil, or_false, decide_eq_true_eq] at h
  rcases h with rfl | rfl | rfl | rfl | rfl | rfl
  · exact ⟨.bar, rfl, rfl, rfl, nofun⟩
  · exact ⟨.lparen, rfl, rfl, rfl, nofun⟩
  · exact ⟨.rparen, rfl, rfl, rfl, nofun⟩
  · exact ⟨.semi, rfl, rfl, rfl, nofun⟩
  · exact ⟨.amp, rfl, rfl, rfl, nofun⟩
  · exact ⟨.lt, rfl, rfl, rfl, nofun⟩

/-- A word goes on as long as there are characters of words. -/
theorem tokens_word : ∀ {c : Char} {s : List Char}, isWord c = true →
    tokens (c :: s) = .word (c :: s.takeWhile isWord) :: tokens (s.dropWhile isWord)
  | c, [], h => by
    rw [tokens.eq_def]
    simp [(isWord_iff.1 h).1, symbol_of_isWord h, tokens]
  | c, d :: s, h => by
    rw [tokens.eq_def]
    cases hd : isWord d with
    | true => simp [(isWord_iff.1 h).1, symbol_of_isWord h, hd, tokens_word hd]
    | false => simp [(isWord_iff.1 h).1, symbol_of_isWord h, hd]

/-- The text of a word. -/
def Span.text (w : Span) : List Char := w.q.take (w.q.length - w.eq.length)

theorem Span.text_append (u eq : List Char) : Span.text ⟨u ++ eq, eq⟩ = u := by
  rw [Span.text, length_append, Nat.add_sub_cancel_right, take_left]

/-- A word of the line `s`. -/
structure Span.Good (s : List Char) (w : Span) : Prop where
  suffix : w.q <:+ s
  append : w.q = w.text ++ w.eq
  ne : w.text ≠ []
  chars : ∀ c ∈ w.text, isWord c = true
  ends : ∀ c ∈ w.eq.head?, isWord c = false

theorem Span.Good.trans {w : Span} (h : w.Good t) (hs : t <:+ s) : w.Good s :=
  { h with suffix := h.suffix.trans hs }

/-- The line `s` starts with the token `tok`, which ends at `eq`. -/
structure Next (s : List Char) (tok : Token) (eq : List Char) : Prop where
  tokens : tokens s = tok :: tokens (skip eq)
  gettoken : gettoken s = (tok.ret, ⟨skip s, eq⟩, skip eq)
  suffix : skip eq <:+ s
  lt : (skip eq).length < s.length
  peek : ∀ toks, toks ⊆ symbols → peek s toks = (strchr toks tok.sym, skip s)
  word : ∀ w, tok = .word w → Span.Good s ⟨skip s, eq⟩ ∧ Span.text ⟨skip s, eq⟩ = w

/-- The token that starts at a character other than whitespace. -/
theorem next_of_skip {tok : Token} (hskip : skip s = c :: t) (hc0 : c ≠ '\x00') (hsuf : eq <:+ t)
    (htok : Shell.tokens (c :: t) = tok :: Shell.tokens (skip eq))
    (hget : Shell.gettoken (c :: t) = (tok.ret, ⟨c :: t, eq⟩, skip eq))
    (hsym : ∀ toks, toks ⊆ symbols → strchr toks c = strchr toks tok.sym)
    (hword : ∀ w, tok = .word w → Span.Good s ⟨skip s, eq⟩ ∧ Span.text ⟨skip s, eq⟩ = w) :
    Next s tok eq where
  tokens := by rw [← tokens_skip s, hskip, htok]
  gettoken := by rw [← gettoken_skip s, hskip, hget]
  suffix := (skip_suffix eq).trans (hsuf.trans ((suffix_cons c t).trans
    (hskip ▸ skip_suffix s)))
  lt := by
    have h1 := ((skip_suffix eq).trans hsuf).length_le
    have h2 := (skip_suffix s).length_le
    rw [hskip, length_cons] at h2
    omega
  peek toks htoks := by simp [Shell.peek, hskip, char, hc0, hsym toks htoks]
  word := hword

/-- `>` and `>>`. -/
theorem next_of_gt (hskip : skip s = '>' :: t) : ∃ tok eq, Next s tok eq := by
  have hc : strchr whitespace '>' = false := by decide
  cases t with
  | nil =>
    exact ⟨.gt, [], next_of_skip hskip (by decide) nil_suffix rfl rfl (fun _ _ => rfl) nofun⟩
  | cons d t =>
    by_cases hd : d = '>'
    · subst hd
      refine ⟨.append, t, next_of_skip hskip (by decide) (suffix_cons _ _) ?_ ?_
        (fun _ _ => rfl) nofun⟩
      · rw [tokens.eq_def]
        simp [hc]
      · simp [gettoken, skip_cons_of_not hc, char, strchr, Token.ret]
    · refine ⟨.gt, d :: t, next_of_skip hskip (by decide) (suffix_refl _) ?_ ?_
        (fun _ _ => rfl) nofun⟩
      · rw [tokens.eq_def]
        simp [hc, hd]
      · simp [gettoken, skip_cons_of_not hc, char, strchr, Token.ret, hd]

theorem strchr_eq_false {toks : List Char} (htoks : toks ⊆ symbols)
    (h : strchr symbols c = false) : strchr toks c = false := by
  rw [strchr, decide_eq_false_iff_not] at h ⊢
  exact fun hc => h (htoks hc)

theorem isWord_of_not (hc : strchr whitespace c = false)
    (hsix : ¬ strchr ['|', '(', ')', ';', '&', '<'] c = true) (hgt : c ≠ '>') :
    isWord c = true := by
  rw [isWord_iff]
  refine ⟨hc, ?_⟩
  simp only [strchr, symbols, mem_cons, not_mem_nil, or_false, decide_eq_true_eq,
    decide_eq_false_iff_not, not_or] at hsix ⊢
  tauto

/-- A line without 0 is empty or starts with a token. -/
theorem next_cases (hs : '\x00' ∉ s) :
    (tokens s = [] ∧ gettoken s = ('\x00', ⟨[], []⟩, []) ∧ skip s = []) ∨
      ∃ tok eq, Next s tok eq := by
  rcases skip_cases s with hskip | ⟨c, t, hskip, hc⟩
  · left
    rw [← tokens_skip, ← gettoken_skip, hskip]
    exact ⟨rfl, rfl, rfl⟩
  · right
    have hc0 : c ≠ '\x00' := by
      rintro rfl
      exact hs ((skip_suffix s).subset (by rw [hskip]; exact mem_cons_self))
    by_cases hsix : strchr ['|', '(', ')', ';', '&', '<'] c = true
    · obtain ⟨tok, htok, hret, hsym, hne⟩ := symbol_of_strchr hsix
      refine ⟨tok, t, next_of_skip hskip hc0 (suffix_refl t) ?_ ?_ (fun _ _ => by rw [hsym])
        fun w hw => absurd hw (hne w)⟩
      · rw [tokens.eq_def]
        have : c ≠ '>' := by
          rintro rfl
          exact absurd hsix (by decide)
        simp [hc, this, htok]
      · simp [gettoken, skip_cons_of_not hc, char, hc0, hsix, hret]
    · by_cases hgt : c = '>'
      · subst hgt
        exact next_of_gt hskip
      · have hword : isWord c = true := isWord_of_not hc hsix hgt
        refine ⟨_, t.dropWhile isWord, next_of_skip hskip hc0 (dropWhile_suffix _)
          (by rw [tokens_skip]; exact tokens_word hword) ?_ (fun toks htoks => ?_)
          fun w hw => ?_⟩
        · simp only [gettoken, skip_cons_of_not hc, char, headD_cons, hc0, hsix, hgt, if_false,
            dropWhile_cons, isWord_iff.1 hword]
          rfl
        · have ha : strchr symbols 'a' = false := by decide
          rw [strchr_eq_false htoks (isWord_iff.1 hword).2]
          exact (strchr_eq_false htoks ha).symm
        · obtain rfl := Token.word.inj hw
          have happ : c :: t = (c :: t.takeWhile isWord) ++ t.dropWhile isWord := by
            rw [cons_append, takeWhile_append_dropWhile]
          have htext : Span.text ⟨skip s, t.dropWhile isWord⟩ = c :: t.takeWhile isWord := by
            rw [hskip, happ, Span.text_append]
          refine ⟨⟨skip_suffix s, ?_, ?_, fun d hd => ?_, fun d hd => ?_⟩, htext⟩
          · rw [htext, hskip]
            exact happ
          · rw [htext]
            exact cons_ne_nil _ _
          · rw [htext] at hd
            rcases mem_cons.1 hd with rfl | hd
            · exact hword
            · exact mem_takeWhile_imp hd
          · have := List.head?_dropWhile_not isWord t
            rw [mem_def.1 hd] at this
            exact this

/-- The first of the tokens is one of the characters. -/
def starts (toks : List Char) (ts : List Token) : Bool := ts.head?.any fun t => strchr toks t.sym

/-- `peek` tests the first token. -/
theorem peek_eq {toks : List Char} (hs : '\x00' ∉ s) (htoks : toks ⊆ symbols) :
    peek s toks = (starts toks (tokens s), skip s) := by
  rcases next_cases hs with ⟨hnil, -, hskip⟩ | ⟨tok, eq, h⟩
  · simp [peek, hskip, hnil, char, starts]
  · rw [h.peek toks htoks, h.tokens]
    rfl

/-- `gettoken` at the end of the text. -/
theorem gettoken_of_nil (hs : '\x00' ∉ s) (h : tokens s = []) :
    gettoken s = ('\x00', ⟨[], []⟩, []) := by
  rcases next_cases hs with ⟨-, hget, -⟩ | ⟨tok, eq, hn⟩
  · exact hget
  · rw [hn.tokens] at h
    cases h

/-- `gettoken` takes the first token. -/
theorem exists_next {tok : Token} {ts : List Token} (hs : '\x00' ∉ s) (h : tokens s = tok :: ts) :
    ∃ eq, Next s tok eq ∧ tokens (skip eq) = ts := by
  rcases next_cases hs with ⟨hnil, -⟩ | ⟨tok', eq, hn⟩
  · rw [h] at hnil
    cases hnil
  · have := hn.tokens
    rw [h] at this
    obtain ⟨rfl, hts⟩ := cons.inj this
    exact ⟨eq, hn, hts.symm⟩

/-! ## The grammar -/

/-- The operator of a redirection. -/
inductive Op where
  | lt
  | gt
  | append
deriving DecidableEq

namespace Op

def tok : Op → Token
  | lt => .lt
  | gt => .gt
  | append => .append

def mode : Op → ℕ
  | lt => O_RDONLY
  | _ => O_WRONLY ||| O_CREATE

def fd : Op → ℕ
  | lt => 0
  | _ => 1

end Op

/-- A redirection. -/
structure Redir (α : Type) where
  op : Op
  file : α

variable {α β : Type}

def Redir.map (f : α → β) (r : Redir α) : Redir β := ⟨r.op, f r.file⟩

/-- The command with redirections, the first of them innermost. -/
def Cmd.addRedirs (cmd : Cmd α) (rs : List (Redir α)) : Cmd α :=
  rs.foldl (fun cmd r => .redir cmd r.file r.op.mode r.op.fd) cmd

/-- An argument and the redirections after it. -/
structure Arg (α : Type) where
  word : α
  redirs : List (Redir α)

/-- The tokens of redirections. -/
def redirTokens (rs : List (Redir (List Char))) : List Token :=
  rs.flatMap fun r => [r.op.tok, .word r.file]

/-- The tokens of arguments. -/
def argTokens (args : List (Arg (List Char))) : List Token :=
  args.flatMap fun a => .word a.word :: redirTokens a.redirs

/-- The nonterminals. -/
inductive Kind where
  | line
  | pipe
  | exec

/-- The derivations, with their command trees. -/
inductive Derives : Kind → List Token → Cmd (List Char) → Prop where
  /-- `Line ::= Pipe '&'*` -/
  | line {ts c} (n : ℕ) : Derives .pipe ts c →
      Derives .line (ts ++ List.replicate n .amp) (Cmd.back^[n] c)
  /-- `Line ::= Pipe '&'* ';' Line` -/
  | seq {ts us c d} (n : ℕ) : Derives .pipe ts c → Derives .line us d →
      Derives .line (ts ++ List.replicate n .amp ++ .semi :: us) (.list (Cmd.back^[n] c) d)
  /-- `Pipe ::= Exec` -/
  | exec {ts c} : Derives .exec ts c → Derives .pipe ts c
  /-- `Pipe ::= Exec '|' Pipe` -/
  | pipe {ts us c d} : Derives .exec ts c → Derives .pipe us d →
      Derives .pipe (ts ++ .bar :: us) (.pipe c d)
  /-- `Exec ::= '(' Line ')' Redir*` -/
  | block {ts c} (rs : List (Redir (List Char))) : Derives .line ts c →
      Derives .exec (.lparen :: ts ++ .rparen :: redirTokens rs) (c.addRedirs rs)
  /-- `Exec ::= Redir* (word Redir*)*` -/
  | simple (rs : List (Redir (List Char))) (args : List (Arg (List Char))) :
      args.length ≤ MAXARGS - 1 →
      Derives .exec (redirTokens rs ++ argTokens args)
        ((Cmd.exec (args.map Arg.word)).addRedirs (rs ++ args.flatMap Arg.redirs))

/-! ## Redirections and arguments -/

theorem Cmd.addRedirs_append (cmd : Cmd α) (rs rs' : List (Redir α)) :
    cmd.addRedirs (rs ++ rs') = (cmd.addRedirs rs).addRedirs rs' :=
  foldl_append

theorem Cmd.map_addRedirs (f : α → β) (cmd : Cmd α) (rs : List (Redir α)) :
    (cmd.addRedirs rs).map f = (cmd.map f).addRedirs (rs.map (Redir.map f)) := by
  induction rs generalizing cmd with
  | nil => rfl
  | cons r rs ih => exact ih _

theorem Cmd.addArg_addRedirs (w : α) (argv : List α) (rs : List (Redir α)) :
    ((Cmd.exec argv).addRedirs rs).addArg w = (Cmd.exec (argv ++ [w])).addRedirs rs := by
  induction rs using List.reverseRecOn with
  | nil => rfl
  | append_singleton rs r ih =>
    rw [Cmd.addRedirs_append, Cmd.addRedirs_append, ← ih]
    rfl

theorem op_of_starts {ts : List Token} (h : starts ['<', '>'] ts = true) :
    ∃ op us, ts = Op.tok op :: us := by
  cases ts with
  | nil => cases h
  | cons t us =>
    cases t with
    | lt => exact ⟨.lt, us, rfl⟩
    | gt => exact ⟨.gt, us, rfl⟩
    | append => exact ⟨.append, us, rfl⟩
    | _ => cases h

theorem starts_op (op : Op) (ts : List Token) : starts ['<', '>'] (op.tok :: ts) = true := by
  cases op <;> rfl

/-- `parseredirs` stops before anything but a redirection. -/
theorem parseredirs_stop {n : ℕ} {cmd : Cmd Span} (hs : '\x00' ∉ s)
    (h : starts ['<', '>'] (tokens s) = false) : parseredirs (n + 1) cmd s = .ok (cmd, skip s) := by
  rw [parseredirs, peek_eq hs (by decide), h]
  rfl

/-- One redirection. -/
theorem parseredirs_step {n : ℕ} {cmd : Cmd Span} {op : Op} {w : List Char} (hs : '\x00' ∉ s)
    (h : Next s op.tok eq) (h' : Next (skip eq) (.word w) t) :
    parseredirs (n + 1) cmd s =
      parseredirs n (cmd.addRedirs [⟨op, ⟨skip eq, t⟩⟩]) (skip t) := by
  rw [parseredirs, peek_eq hs (by decide), h.tokens, starts_op]
  simp only [gettoken_skip, h.gettoken, h'.gettoken, skip_skip]
  cases op <;> rfl

theorem ret_ne {u : List Char} (hu : '\x00' ∉ u) (h : ∀ w ts, tokens u ≠ .word w :: ts) :
    (gettoken u).1 ≠ 'a' := by
  rcases next_cases hu with ⟨-, hget, -⟩ | ⟨tok, eq, hn⟩
  · rw [hget]
    decide
  · rw [hn.gettoken]
    exact tok.ret_ne fun w hw => h w _ (hw ▸ hn.tokens)

/-- A redirection needs a file. -/
theorem parseredirs_panic {n : ℕ} {cmd : Cmd Span} {op : Op} (hs : '\x00' ∉ s)
    (h : Next s op.tok eq) (h' : ∀ w ts, tokens (skip eq) ≠ .word w :: ts) :
    parseredirs (n + 1) cmd s = .error (.panic "missing file for redirection") := by
  rw [parseredirs, peek_eq hs (by decide), h.tokens, starts_op]
  simp only [gettoken_skip, h.gettoken]
  rw [if_pos (by simpa using ret_ne (fun h0 => hs (h.suffix.subset h0)) h')]
  rfl

/-- The parser stops for a reason. -/
def IsPanic (e : Stop) : Prop := ∃ msg, e = .panic msg

/-- The parser has gone from `s` to `t` over the tokens `us`. -/
structure Reads (s t : List Char) (us : List Token) : Prop where
  suffix : t <:+ s
  tokens : tokens s = us ++ tokens t

theorem Reads.refl (s : List Char) : Reads s (skip s) [] :=
  ⟨skip_suffix s, by rw [tokens_skip]; rfl⟩

theorem Reads.trans {u : List Char} {us vs : List Token} (h : Reads s t us) (h' : Reads t u vs) :
    Reads s u (us ++ vs) :=
  ⟨h'.suffix.trans h.suffix, by rw [h.tokens, h'.tokens, append_assoc]⟩

theorem Reads.clean {us : List Token} (h : Reads s t us) (hs : '\x00' ∉ s) : '\x00' ∉ t :=
  fun h0 => hs (h.suffix.subset h0)

theorem Next.reads {tok : Token} (h : Next s tok eq) : Reads s (skip eq) [tok] :=
  ⟨h.suffix, h.tokens⟩

/-- `parseredirs` reads redirections. -/
theorem parsed_redirs : ∀ {n : ℕ} {cmd : Cmd Span} {s : List Char}, '\x00' ∉ s → s.length < n →
    Outcome (parseredirs n cmd s) IsPanic fun r => ∃ rs : List (Redir Span),
      r.1 = cmd.addRedirs rs ∧ (∀ x ∈ rs, x.file.Good s) ∧
        Reads s r.2 (redirTokens (rs.map (Redir.map Span.text)))
  | 0, _, _, _, hn => by omega
  | n + 1, cmd, s, hs, hn => by
    cases hop : starts ['<', '>'] (tokens s) with
    | false =>
      rw [parseredirs_stop hs hop]
      exact outcome_ok ⟨[], rfl, nofun, .refl s⟩
    | true =>
      obtain ⟨op, us, hus⟩ := op_of_starts hop
      obtain ⟨eq, h, rfl⟩ := exists_next hs hus
      have hs' := h.reads.clean hs
      by_cases hw : ∃ w ts, tokens (skip eq) = .word w :: ts
      · obtain ⟨w, ts, hw⟩ := hw
        obtain ⟨t, h', -⟩ := exists_next hs' hw
        have h1 := h.lt
        have h2 := h'.lt
        obtain ⟨hgood, htext⟩ := h'.word w rfl
        rw [parseredirs_step hs h h']
        refine (parsed_redirs (h'.reads.clean hs') (by omega)).imp ?_
        rintro r ⟨rs, hr, hrs, hreads⟩
        rw [skip_skip] at hgood htext
        refine ⟨⟨op, ⟨skip eq, t⟩⟩ :: rs, hr, fun x hx => ?_, ?_⟩
        · rcases mem_cons.1 hx with rfl | hx
          · exact hgood.trans h.suffix
          · exact (hrs x hx).trans (h'.suffix.trans h.suffix)
        · have := h.reads.trans (h'.reads.trans hreads)
          rw [← htext] at this
          exact this
      · rw [parseredirs_panic hs h (by simpa using hw)]
        exact outcome_error ⟨_, rfl⟩

def Arg.map (f : α → β) (a : Arg α) : Arg β := ⟨f a.word, a.redirs.map (Redir.map f)⟩

theorem Cmd.map_simple (f : α → β) (rs : List (Redir α)) (args : List (Arg α)) :
    ((Cmd.exec (args.map Arg.word)).addRedirs (rs ++ args.flatMap Arg.redirs)).map f =
      (Cmd.exec ((args.map (Arg.map f)).map Arg.word)).addRedirs
        (rs.map (Redir.map f) ++ (args.map (Arg.map f)).flatMap Arg.redirs) := by
  rw [Cmd.map_addRedirs, Cmd.map, List.map_append, List.map_map, List.map_map, List.map_flatMap,
    List.flatMap_map]
  rfl

/-- `parseargs` stops where the caller goes on. -/
theorem parseargs_stop (n argc : ℕ) (ret : Cmd Span) (hs : '\x00' ∉ s)
    (h : starts ['|', ')', '&', ';'] (tokens s) = true ∨ tokens s = []) :
    ∃ t, parseargs (n + 1) argc ret s = .ok (ret, t) ∧ Reads s t [] := by
  rcases h with h | h
  · refine ⟨skip s, ?_, .refl s⟩
    rw [parseargs, peek_eq hs (by decide), h]
    rfl
  · refine ⟨[], ?_, nil_suffix, h⟩
    rw [parseargs, peek_eq hs (by decide), h]
    simp [starts, gettoken_of_nil hs h]
    rfl

/-- One argument. -/
theorem parseargs_step {n argc : ℕ} {ret : Cmd Span} {w : List Char} (hs : '\x00' ∉ s)
    (h : Next s (.word w) eq) : parseargs (n + 1) argc ret s =
      if argc + 1 ≥ MAXARGS then .error (.panic "too many args")
      else parseredirs n (ret.addArg ⟨skip s, eq⟩) (skip eq) >>= fun r =>
        parseargs n (argc + 1) r.1 r.2 := by
  rw [parseargs, peek_eq hs (by decide), h.tokens]
  simp [starts, strchr, Token.sym, Token.ret, h.gettoken]
  rfl

/-- No other token is an argument. -/
theorem parseargs_panic {n argc : ℕ} {ret : Cmd Span} {tok : Token} (hs : '\x00' ∉ s)
    (h : Next s tok eq) (hstop : starts ['|', ')', '&', ';'] (tokens s) = false)
    (htok : ∀ w, tok ≠ .word w) : parseargs (n + 1) argc ret s = .error (.panic "syntax") := by
  rw [parseargs, peek_eq hs (by decide), hstop]
  simp only [gettoken_skip, h.gettoken, tok.ret_ne_nul, if_false, ne_eq, tok.ret_ne htok,
    not_false_eq_true, if_true]
  rfl

/-- The loop of `parseexec` reads arguments. -/
theorem parsed_args : ∀ {n argc : ℕ} {argv : List Span} {rs : List (Redir Span)} {s : List Char},
    '\x00' ∉ s → s.length < n → argc ≤ MAXARGS - 1 →
    Outcome (parseargs n argc ((Cmd.exec argv).addRedirs rs) s) IsPanic fun r =>
      ∃ args : List (Arg Span), argc + args.length ≤ MAXARGS - 1 ∧
        r.1 = (Cmd.exec (argv ++ args.map Arg.word)).addRedirs (rs ++ args.flatMap Arg.redirs) ∧
        (∀ a ∈ args, a.word.Good s ∧ ∀ x ∈ a.redirs, x.file.Good s) ∧
        Reads s r.2 (argTokens (args.map (Arg.map Span.text)))
  | 0, _, _, _, _, _, hn, _ => by omega
  | n + 1, argc, argv, rs, s, hs, hn, hargc => by
    by_cases hstop : starts ['|', ')', '&', ';'] (tokens s) = true ∨ tokens s = []
    · obtain ⟨t, ht, hreads⟩ := parseargs_stop n argc ((Cmd.exec argv).addRedirs rs) hs hstop
      rw [ht]
      exact outcome_ok ⟨[], hargc, by simp, nofun, hreads⟩
    · rw [not_or, Bool.not_eq_true] at hstop
      rcases next_cases hs with ⟨hnil, -⟩ | ⟨tok, eq, h⟩
      · exact absurd hnil hstop.2
      · have hs' := h.reads.clean hs
        have hlt := h.lt
        by_cases hw : ∃ w, tok = .word w
        · obtain ⟨w, rfl⟩ := hw
          obtain ⟨hgood, htext⟩ := h.word w rfl
          rw [parseargs_step hs h]
          split_ifs with hmax
          · exact outcome_error ⟨_, rfl⟩
          · rw [Cmd.addArg_addRedirs]
            refine (parsed_redirs hs' (by omega)).bind ?_
            rintro ⟨ret, t⟩ ⟨rs', rfl, hrs', hreads⟩
            have hle := hreads.suffix.length_le
            simp only at hreads hle ⊢
            rw [← Cmd.addRedirs_append]
            refine (parsed_args (hreads.clean hs') (by omega) (by omega)).imp ?_
            rintro r ⟨args, hlen, hr, hargs, hreads'⟩
            refine ⟨⟨⟨skip s, eq⟩, rs'⟩ :: args, ?_, ?_, ?_, ?_⟩
            · rw [length_cons]
              omega
            · rw [hr]
              simp
            · intro a ha
              rcases mem_cons.1 ha with rfl | ha
              · exact ⟨hgood, fun x hx => (hrs' x hx).trans h.suffix⟩
              · have hsuf := hreads.suffix.trans h.suffix
                exact ⟨(hargs a ha).1.trans hsuf, fun x hx => ((hargs a ha).2 x hx).trans hsuf⟩
            · have := h.reads.trans (hreads.trans hreads')
              rw [← htext] at this
              simpa [argTokens, Arg.map] using this
        · rw [parseargs_panic hs h hstop.1 (by simpa using hw)]
          exact outcome_error ⟨_, rfl⟩

/-! ## What the parser accepts -/

/-- The tokens that the parser looks for one by one. -/
def single : List Token := [.bar, .lparen, .rparen, .semi, .amp]

theorem starts_single {tok : Token} {ts : List Token} (htok : tok ∈ single)
    (h : starts [tok.sym] ts = true) : ∃ us, ts = tok :: us := by
  cases ts with
  | nil => cases h
  | cons t us =>
    refine ⟨us, congrArg (· :: us) ?_⟩
    have hsym : t.sym = tok.sym := by simpa [starts, strchr] using h
    simp only [single, mem_cons, not_mem_nil, or_false] at htok
    rcases htok with rfl | rfl | rfl | rfl | rfl <;> cases t <;> first | rfl | cases hsym

/-- The parser goes over a token that it has seen. -/
theorem exists_single (tok : Token) (hs : '\x00' ∉ s) (htok : tok ∈ single)
    (h : starts [tok.sym] (tokens s) = true) :
    (gettoken s).2.2.length < s.length ∧ Reads s (gettoken s).2.2 [tok] := by
  obtain ⟨us, hus⟩ := starts_single htok h
  obtain ⟨eq, hn, -⟩ := exists_next hs hus
  rw [hn.gettoken]
  exact ⟨hn.lt, hn.reads⟩

theorem Cmd.map_back (f : α → β) (cmd : Cmd α) (n : ℕ) :
    (Cmd.back^[n] cmd).map f = Cmd.back^[n] (cmd.map f) := by
  have h : Function.Semiconj (Cmd.map f) Cmd.back Cmd.back := fun _ => rfl
  exact h.iterate_right n cmd

/-- The loop of `parseline` reads ampersands. -/
theorem parsed_back : ∀ {n : ℕ} {cmd : Cmd Span} {s : List Char}, '\x00' ∉ s → s.length < n →
    Outcome (parseback n cmd s) IsPanic fun r => ∃ m : ℕ, r.1 = Cmd.back^[m] cmd ∧
      Reads s r.2 (List.replicate m .amp)
  | 0, _, _, _, hn => by omega
  | n + 1, cmd, s, hs, hn => by
    rw [parseback, peek_eq hs (by decide)]
    cases hb : starts ['&'] (tokens s) with
    | false => exact outcome_ok ⟨0, rfl, .refl s⟩
    | true =>
      obtain ⟨hlt, hr⟩ := exists_single .amp hs (by decide) hb
      simp only [gettoken_skip]
      refine (parsed_back (hr.clean hs) (by omega)).imp ?_
      rintro r ⟨m, hm, hreads⟩
      exact ⟨m + 1, hm, hr.trans hreads⟩

theorem Cmd.words_addRedirs (cmd : Cmd α) (rs : List (Redir α)) :
    (cmd.addRedirs rs).words = cmd.words ++ rs.map Redir.file := by
  induction rs generalizing cmd with
  | nil => exact (append_nil _).symm
  | cons r rs ih =>
    refine (ih _).trans ?_
    rw [Cmd.words, append_assoc]
    rfl

theorem Cmd.words_back (cmd : Cmd α) (n : ℕ) : (Cmd.back^[n] cmd).words = cmd.words := by
  induction n generalizing cmd with
  | zero => rfl
  | succ n ih => exact ih _

/-- What the parser has found : a derivation, and the words in the line. -/
structure Parsed (k : Kind) (s : List Char) (r : Cmd Span × List Char) : Prop where
  good : ∀ w ∈ r.1.words, w.Good s
  reads : ∃ us, Derives k us (r.1.map Span.text) ∧ Reads s r.2 us

theorem Parsed.clean {k : Kind} {r : Cmd Span × List Char} (h : Parsed k s r) (hs : '\x00' ∉ s) :
    '\x00' ∉ r.2 := by
  obtain ⟨us, -, hr⟩ := h.reads
  exact hr.clean hs

theorem Parsed.length_le {k : Kind} {r : Cmd Span × List Char} (h : Parsed k s r) :
    r.2.length ≤ s.length := by
  obtain ⟨us, -, hr⟩ := h.reads
  exact hr.suffix.length_le

theorem Parsed.of_skip {k : Kind} {r : Cmd Span × List Char} (h : Parsed k (skip s) r) :
    Parsed k s r := by
  obtain ⟨us, hd, hr⟩ := h.reads
  exact ⟨fun w hw => (h.good w hw).trans (skip_suffix s), us, hd, (Reads.refl s).trans hr⟩

/-- A simple command. -/
theorem parsed_simple {n : ℕ} (hs : '\x00' ∉ s) (hn : s.length < n) :
    Outcome (parseredirs n (.exec []) s >>= fun r => parseargs n 0 r.1 r.2) IsPanic
      (Parsed .exec s) := by
  refine (parsed_redirs hs hn).bind ?_
  rintro ⟨ret, t⟩ ⟨rs, rfl, hrs, hreads⟩
  have hle := hreads.suffix.length_le
  refine (parsed_args (hreads.clean hs) (by omega) (Nat.zero_le _)).imp ?_
  rintro r ⟨args, hlen, hr, hargs, hreads'⟩
  rw [zero_add] at hlen
  rw [nil_append] at hr
  refine ⟨fun w hw => ?_, _, ?_, hreads.trans hreads'⟩
  · rw [hr, Cmd.words_addRedirs, Cmd.words, mem_append, map_append, mem_append] at hw
    rcases hw with hw | hw | hw
    · obtain ⟨a, ha, rfl⟩ := mem_map.1 hw
      exact (hargs a ha).1.trans hreads.suffix
    · obtain ⟨x, hx, rfl⟩ := mem_map.1 hw
      exact hrs x hx
    · obtain ⟨x, hx, rfl⟩ := mem_map.1 hw
      obtain ⟨a, ha, hx⟩ := mem_flatMap.1 hx
      exact ((hargs a ha).2 x hx).trans hreads.suffix
  · have hd := Derives.simple (rs.map (Redir.map Span.text)) (args.map (Arg.map Span.text))
      (by rw [length_map]; exact hlen)
    rw [hr, Cmd.map_simple]
    exact hd

/-- With a bound that suffices, the functions of the parser find a derivation or panic. -/
structure Sound (n : ℕ) : Prop where
  line : ∀ s, '\x00' ∉ s → 4 * s.length + 4 ≤ n →
    Outcome (parseline n s) IsPanic (Parsed .line s)
  pipe : ∀ s, '\x00' ∉ s → 4 * s.length + 3 ≤ n →
    Outcome (parsepipe n s) IsPanic (Parsed .pipe s)
  exec : ∀ s, '\x00' ∉ s → 4 * s.length + 2 ≤ n →
    Outcome (parseexec n s) IsPanic (Parsed .exec s)
  block : ∀ s, '\x00' ∉ s → 4 * s.length + 1 ≤ n → starts ['('] (tokens s) = true →
    Outcome (parseblock n s) IsPanic (Parsed .exec s)

variable {n : ℕ}

theorem Sound.parseline (h : Sound n) (hs : '\x00' ∉ s) (hn : 4 * s.length + 4 ≤ n + 1) :
    Outcome (parseline (n + 1) s) IsPanic (Parsed .line s) := by
  rw [Shell.parseline]
  refine (h.pipe s hs (by omega)).bind ?_
  rintro ⟨cmd, t⟩ hcmd
  have ht := hcmd.clean hs
  have hle := hcmd.length_le
  obtain ⟨us, hd, hr⟩ := hcmd.reads
  refine (parsed_back ht (by simp only at hle ⊢; omega)).bind ?_
  rintro ⟨cmd', t'⟩ ⟨m, rfl, hr'⟩
  have hle' := hr'.suffix.length_le
  have hwords : ∀ w ∈ (Cmd.back^[m] cmd).words, w.Good s := by
    rw [Cmd.words_back]
    exact hcmd.good
  simp only at hle hle' hd hr hr' ⊢
  rw [peek_eq (hr'.clean ht) (by decide)]
  cases hb : starts [';'] (tokens t') with
  | false =>
    refine outcome_ok ⟨hwords, us ++ List.replicate m .amp, ?_, ?_⟩
    · rw [Cmd.map_back]
      exact .line m hd
    · simpa using hr.trans (hr'.trans (.refl t'))
  | true =>
    obtain ⟨hlt, hsemi⟩ := exists_single .semi (hr'.clean ht) (by decide) hb
    simp only [gettoken_skip]
    have hto := (hr.trans hr').trans hsemi
    refine (h.line _ (hto.clean hs) (by omega)).bind ?_
    rintro ⟨right, u⟩ hright
    obtain ⟨us', hd', hr''⟩ := hright.reads
    have hseq := Derives.seq m hd hd'
    rw [← Cmd.map_back] at hseq
    refine outcome_ok ⟨fun w hw => ?_, _, hseq, by simpa using hto.trans hr''⟩
    rcases mem_append.1 hw with hw | hw
    · exact hwords w hw
    · exact (hright.good w hw).trans hto.suffix

theorem Sound.parsepipe (h : Sound n) (hs : '\x00' ∉ s) (hn : 4 * s.length + 3 ≤ n + 1) :
    Outcome (parsepipe (n + 1) s) IsPanic (Parsed .pipe s) := by
  rw [Shell.parsepipe]
  refine (h.exec s hs (by omega)).bind ?_
  rintro ⟨cmd, t⟩ hcmd
  have ht := hcmd.clean hs
  have hle := hcmd.length_le
  obtain ⟨us, hd, hr⟩ := hcmd.reads
  simp only at ht hle hd hr ⊢
  rw [peek_eq ht (by decide)]
  cases hb : starts ['|'] (tokens t) with
  | false => exact outcome_ok ⟨hcmd.good, us, .exec hd, by simpa using hr.trans (.refl t)⟩
  | true =>
    obtain ⟨hlt, hbar⟩ := exists_single .bar ht (by decide) hb
    simp only [gettoken_skip]
    have hto := hr.trans hbar
    refine (h.pipe _ (hto.clean hs) (by omega)).bind ?_
    rintro ⟨right, u⟩ hright
    obtain ⟨us', hd', hr'⟩ := hright.reads
    refine outcome_ok ⟨fun w hw => ?_, _, .pipe hd hd', by simpa using hto.trans hr'⟩
    rcases mem_append.1 hw with hw | hw
    · exact hcmd.good w hw
    · exact (hright.good w hw).trans hto.suffix

theorem Sound.parseexec (h : Sound n) (hs : '\x00' ∉ s) (hn : 4 * s.length + 2 ≤ n + 1) :
    Outcome (parseexec (n + 1) s) IsPanic (Parsed .exec s) := by
  have hskip : '\x00' ∉ skip s := fun h0 => hs ((skip_suffix s).subset h0)
  have hle := (skip_suffix s).length_le
  rw [Shell.parseexec, peek_eq hs (by decide)]
  cases hb : starts ['('] (tokens s) with
  | true =>
    exact (h.block _ hskip (by omega) (by rw [tokens_skip]; exact hb)).imp fun r hr => hr.of_skip
  | false => exact (parsed_simple hskip (by omega)).imp fun r hr => hr.of_skip

theorem Sound.parseblock (h : Sound n) (hs : '\x00' ∉ s) (hn : 4 * s.length + 1 ≤ n + 1)
    (hb : starts ['('] (tokens s) = true) :
    Outcome (parseblock (n + 1) s) IsPanic (Parsed .exec s) := by
  rw [Shell.parseblock, peek_eq hs (by decide), hb]
  obtain ⟨hlt, hopen⟩ := exists_single .lparen hs (by decide) hb
  simp only [gettoken_skip]
  refine (h.line _ (hopen.clean hs) (by omega)).bind ?_
  rintro ⟨cmd, t⟩ hcmd
  have ht := hcmd.clean (hopen.clean hs)
  have hle := hcmd.length_le
  obtain ⟨us, hd, hr⟩ := hcmd.reads
  simp only at ht hle hd hr ⊢
  rw [peek_eq ht (by decide)]
  cases hclose : starts [')'] (tokens t) with
  | false => exact outcome_error ⟨_, rfl⟩
  | true =>
    obtain ⟨hlt', hclose⟩ := exists_single .rparen ht (by decide) hclose
    simp only [gettoken_skip]
    have hto := hopen.trans (hr.trans hclose)
    refine (parsed_redirs (hto.clean hs) (by omega)).imp ?_
    rintro r ⟨rs, hrs, hgood, hr'⟩
    refine ⟨fun w hw => ?_, _, ?_, hto.trans hr'⟩
    · rw [hrs, Cmd.words_addRedirs, mem_append] at hw
      rcases hw with hw | hw
      · exact (hcmd.good w hw).trans hopen.suffix
      · obtain ⟨x, hx, rfl⟩ := mem_map.1 hw
        exact (hgood x hx).trans hto.suffix
    · rw [hrs, Cmd.map_addRedirs]
      simpa using Derives.block (rs.map (Redir.map Span.text)) hd

/-- Induction on the fuel that the four parsers share. -/
theorem sound : ∀ n, Sound n
  | 0 => ⟨fun _ _ hn => by omega, fun _ _ hn => by omega, fun _ _ hn => by omega,
      fun _ _ hn => by omega⟩
  | n + 1 =>
    have h := sound n
    ⟨fun _ => h.parseline, fun _ => h.parsepipe, fun _ => h.parseexec, fun _ => h.parseblock⟩

/-! ## Every derivation is found -/

theorem redirTokens_cons (r : Redir (List Char)) (rs : List (Redir (List Char))) :
    redirTokens (r :: rs) = r.op.tok :: .word r.file :: redirTokens rs := rfl

/-- `parseredirs` reads all redirections there are. -/
theorem parses_redirs {rest : List Token} (hrest : starts ['<', '>'] rest = false) :
    ∀ {rs : List (Redir (List Char))} {n : ℕ} (cmd : Cmd Span) {s : List Char}, '\x00' ∉ s →
      s.length < n → tokens s = redirTokens rs ++ rest →
      ∃ rs' t, parseredirs n cmd s = .ok (cmd.addRedirs rs', t) ∧
        rs'.map (Redir.map Span.text) = rs ∧ Reads s t (redirTokens rs)
  | _, 0, _, _, _, hn, _ => by omega
  | [], n + 1, cmd, s, hs, hn, hts => by
    refine ⟨[], skip s, parseredirs_stop hs ?_, rfl, .refl s⟩
    rw [hts]
    exact hrest
  | r :: rs, n + 1, cmd, s, hs, hn, hts => by
    rw [redirTokens_cons] at hts
    obtain ⟨eq, h, hts⟩ := exists_next hs hts
    have hs' := h.reads.clean hs
    obtain ⟨t, h', hts⟩ := exists_next hs' hts
    have h1 := h.lt
    have h2 := h'.lt
    obtain ⟨rs', u, hrs', htext, hr⟩ := parses_redirs hrest
      (cmd.addRedirs [⟨r.op, ⟨skip eq, t⟩⟩]) (h'.reads.clean hs') (show _ < n by omega) hts
    refine ⟨⟨r.op, ⟨skip eq, t⟩⟩ :: rs', u, ?_, ?_, h.reads.trans (h'.reads.trans hr)⟩
    · rw [parseredirs_step hs h h', hrs']
      rfl
    · have := (h'.word _ rfl).2
      rw [skip_skip] at this
      rw [map_cons, htext, Redir.map, this]

theorem Reads.rest {us rest : List Token} (h : Reads s t us)
    (hts : Shell.tokens s = us ++ rest) : Shell.tokens t = rest :=
  append_cancel_left (h.tokens.symm.trans hts)

theorem not_starts {toks toks' : List Char} {rest : List Token}
    (h : starts toks rest = true ∨ rest = []) (hd : ∀ c ∈ toks, c ∉ toks') :
    starts toks' rest = false := by
  rcases h with h | rfl
  · cases rest with
    | nil => rfl
    | cons t ts =>
      simp only [starts, strchr, List.head?_cons, any_some, decide_eq_true_eq,
        decide_eq_false_iff_not] at h ⊢
      exact hd _ h
  · rfl

theorem not_starts_args {toks : List Char} {args : List (Arg (List Char))} {rest : List Token}
    (ha : 'a' ∉ toks) (hrest : starts toks rest = false) :
    starts toks (argTokens args ++ rest) = false := by
  cases args with
  | cons a args => exact decide_eq_false ha
  | nil => exact hrest

theorem not_starts_redirs {toks : List Char} {rs : List (Redir (List Char))} {rest : List Token}
    (hop : '<' ∉ toks ∧ '>' ∉ toks) (hrest : starts toks rest = false) :
    starts toks (redirTokens rs ++ rest) = false := by
  cases rs with
  | cons r rs =>
    obtain ⟨op, file⟩ := r
    cases op with
    | lt => exact decide_eq_false hop.1
    | gt => exact decide_eq_false hop.2
    | append => exact decide_eq_false hop.2
  | nil => exact hrest

/-- The loop of `parseexec` reads all arguments there are. -/
theorem parses_args {rest : List Token}
    (hrest : starts ['|', ')', '&', ';'] rest = true ∨ rest = []) :
    ∀ {args : List (Arg (List Char))} {n : ℕ} (argc : ℕ) (argv : List Span) (rs : List (Redir Span))
      {s : List Char}, '\x00' ∉ s → s.length < n → argc + args.length ≤ MAXARGS - 1 →
      tokens s = argTokens args ++ rest →
      ∃ (args' : List (Arg Span)) (t : List Char),
        parseargs n argc ((Cmd.exec argv).addRedirs rs) s =
          .ok ((Cmd.exec (argv ++ args'.map Arg.word)).addRedirs
            (rs ++ args'.flatMap Arg.redirs), t) ∧
        args'.map (Arg.map Span.text) = args ∧ Reads s t (argTokens args)
  | _, 0, _, _, _, _, _, hn, _, _ => by omega
  | [], n + 1, argc, argv, rs, s, hs, hn, _, hts => by
    obtain ⟨t, ht, hr⟩ := parseargs_stop n argc ((Cmd.exec argv).addRedirs rs) hs
      (by rw [hts]; exact hrest)
    exact ⟨[], t, by simpa using ht, rfl, hr⟩
  | a :: args, n + 1, argc, argv, rs, s, hs, hn, hargc, hts => by
    have hts' : tokens s = .word a.word :: (redirTokens a.redirs ++ (argTokens args ++ rest)) := by
      rw [hts]
      simp [argTokens]
    obtain ⟨eq, h, hts'⟩ := exists_next hs hts'
    have hs' := h.reads.clean hs
    have hlt := h.lt
    rw [length_cons] at hargc
    have hmax : ¬ argc + 1 ≥ MAXARGS := by
      have : MAXARGS = 10 := rfl
      omega
    obtain ⟨rs', t, hrs', htext, hr⟩ := parses_redirs (n := n)
      (not_starts_args (by decide) (not_starts hrest (by simp)))
      ((Cmd.exec (argv ++ [⟨skip s, eq⟩])).addRedirs rs) hs' (by omega) hts'
    have hle := hr.suffix.length_le
    obtain ⟨args', u, hargs', htext', hr'⟩ := parses_args (n := n) hrest (argc + 1)
      (argv ++ [⟨skip s, eq⟩]) (rs ++ rs') (hr.clean hs') (by omega) (by omega) (hr.rest hts')
    refine ⟨⟨⟨skip s, eq⟩, rs'⟩ :: args', u, ?_, ?_, ?_⟩
    · rw [parseargs_step hs h, if_neg hmax, Cmd.addArg_addRedirs, hrs', ← Cmd.addRedirs_append]
      refine hargs'.trans ?_
      simp
    · rw [map_cons, htext', Arg.map, htext, (h.word _ rfl).2]
    · simpa [argTokens] using h.reads.trans (hr.trans hr')

/-- The loop of `parseline` reads all ampersands there are. -/
theorem parses_back {rest : List Token} (hrest : starts ['&'] rest = false) :
    ∀ {m n : ℕ} (cmd : Cmd Span) {s : List Char}, '\x00' ∉ s → s.length < n →
      tokens s = List.replicate m .amp ++ rest →
      ∃ t, parseback n cmd s = .ok (Cmd.back^[m] cmd, t) ∧ Reads s t (List.replicate m .amp)
  | _, 0, _, _, _, hn, _ => by omega
  | 0, n + 1, cmd, s, hs, hn, hts => by
    refine ⟨skip s, ?_, .refl s⟩
    rw [parseback, peek_eq hs (by decide), hts, replicate_zero, nil_append, hrest]
    rfl
  | m + 1, n + 1, cmd, s, hs, hn, hts => by
    have hb : starts ['&'] (tokens s) = true := by
      rw [hts]
      rfl
    obtain ⟨hlt, hamp⟩ := exists_single .amp hs (by decide) hb
    obtain ⟨t, ht, hr⟩ := parses_back (n := n) hrest (.back cmd) (hamp.clean hs) (by omega)
      (hamp.rest hts)
    refine ⟨t, ?_, hamp.trans hr⟩
    rw [parseback, peek_eq hs (by decide), hb]
    simp only [gettoken_skip]
    exact ht

/-- The function that parses a nonterminal. -/
def Kind.parse : Kind → ℕ → List Char → Except Stop (Cmd Span × List Char)
  | .line => parseline
  | .pipe => parsepipe
  | .exec => parseexec

/-- The calls before a character is read. -/
def Kind.calls : Kind → ℕ
  | .line => 4
  | .pipe => 3
  | .exec => 2

/-- What may come after a nonterminal. -/
def Kind.follow : Kind → List Char
  | .line => [')']
  | .pipe => ['&', ';', ')']
  | .exec => ['|', '&', ';', ')']

/-- What follows a nonterminal. -/
def Kind.Follows (k : Kind) (rest : List Token) : Prop := starts k.follow rest = true ∨ rest = []

theorem starts_mono {toks toks' : List Char} {ts : List Token} (hsub : toks ⊆ toks')
    (h : starts toks ts = true) : starts toks' ts = true := by
  cases ts with
  | nil => cases h
  | cons t ts =>
    simp only [starts, strchr, List.head?_cons, any_some, decide_eq_true_eq] at h ⊢
    exact hsub h

theorem Kind.Follows.not_starts {k : Kind} {toks : List Char} {rest : List Token}
    (h : k.Follows rest) (hd : ∀ c ∈ k.follow, c ∉ toks) : starts toks rest = false :=
  Shell.not_starts h hd

theorem Kind.Follows.mono {k k' : Kind} {rest : List Token} (h : k.Follows rest)
    (hsub : k.follow ⊆ k'.follow) : k'.Follows rest :=
  h.imp (starts_mono hsub) id

theorem follows_amp {m : ℕ} {rest : List Token} (h : Kind.pipe.Follows rest) :
    Kind.pipe.Follows (List.replicate m .amp ++ rest) := by
  cases m with
  | zero => exact h
  | succ m => exact Or.inl rfl

/-- `parseline` after a pipe and its `&`. -/
theorem parseline_eq {cmd cmd' : Cmd Span} {u : List Char} (hu : '\x00' ∉ u)
    (hpipe : parsepipe n s = .ok (cmd, t)) (hback : parseback n cmd t = .ok (cmd', u)) :
    parseline (n + 1) s =
      if starts [';'] (tokens u) then
        parseline n (gettoken u).2.2 >>= fun r => .ok (.list cmd' r.1, r.2)
      else .ok (cmd', skip u) := by
  rw [parseline, hpipe, ok_bind]
  simp only [hback, ok_bind, peek_eq hu (show [';'] ⊆ symbols by decide)]
  cases starts [';'] (tokens u) with
  | true =>
    simp only [gettoken_skip]
    rfl
  | false => rfl

/-- `parsepipe` after its first command. -/
theorem parsepipe_eq {cmd : Cmd Span} (ht : '\x00' ∉ t) (hexec : parseexec n s = .ok (cmd, t)) :
    parsepipe (n + 1) s =
      if starts ['|'] (tokens t) then
        parsepipe n (gettoken t).2.2 >>= fun r => .ok (.pipe cmd r.1, r.2)
      else .ok (cmd, skip t) := by
  rw [parsepipe, hexec, ok_bind]
  simp only [peek_eq ht (show ['|'] ⊆ symbols by decide)]
  cases starts ['|'] (tokens t) with
  | true =>
    simp only [gettoken_skip]
    rfl
  | false => rfl

/-- `parseexec` at a parenthesis. -/
theorem parseexec_block (hs : '\x00' ∉ s) (hopen : starts ['('] (tokens s) = true)
    {cmd : Cmd Span} (hline : parseline n (gettoken s).2.2 = .ok (cmd, t)) (ht : '\x00' ∉ t)
    (hclose : starts [')'] (tokens t) = true) :
    parseexec (n + 2) s = parseredirs n cmd (gettoken t).2.2 := by
  have hs' : '\x00' ∉ skip s := fun h0 => hs ((skip_suffix s).subset h0)
  rw [parseexec, peek_eq hs (by decide), hopen]
  simp only
  rw [parseblock, peek_eq hs' (by decide), tokens_skip, hopen]
  simp only [gettoken_skip, hline, ok_bind, peek_eq ht (show [')'] ⊆ symbols by decide), hclose]

theorem Kind.exists_succ {k : Kind} {m : ℕ} (h : m + k.calls ≤ n) : ∃ l, n = l + 1 :=
  ⟨n - 1, by cases k <;> simp only [Kind.calls] at h <;> omega⟩

/-- The parser finds every derivation of a part of the line. -/
theorem Derives.parses {k : Kind} {us rest : List Token} {c : Cmd (List Char)}
    (h : Derives k us c) (hs : '\x00' ∉ s) (hn : 4 * s.length + k.calls ≤ n)
    (hts : tokens s = us ++ rest) (hrest : k.Follows rest) :
    ∃ cmd t, k.parse n s = .ok (cmd, t) ∧ cmd.map Span.text = c ∧ Reads s t us := by
  induction h generalizing n s rest with
  | @line ts c m _ ih =>
    obtain ⟨n, rfl⟩ := Kind.exists_succ hn
    simp only [Kind.calls] at hn
    rw [append_assoc] at hts
    obtain ⟨cmd, t, hcmd, htree, hr⟩ := ih (n := n) hs (by simp only [Kind.calls]; omega) hts
      (follows_amp (hrest.mono (by decide)))
    have ht := hr.clean hs
    have hle := hr.suffix.length_le
    obtain ⟨u, hu, hr'⟩ := parses_back (n := n) (hrest.not_starts (by simp [Kind.follow])) cmd ht
      (by omega) (hr.rest hts)
    refine ⟨Cmd.back^[m] cmd, skip u, ?_, by rw [Cmd.map_back, htree], ?_⟩
    · refine (parseline_eq (hr'.clean ht) hcmd hu).trans ?_
      rw [hr'.rest (hr.rest hts), hrest.not_starts (by simp [Kind.follow])]
      rfl
    · simpa using hr.trans (hr'.trans (.refl u))
  | @seq ts us c d m _ _ ih ih' =>
    obtain ⟨n, rfl⟩ := Kind.exists_succ hn
    simp only [Kind.calls] at hn
    rw [append_assoc, append_assoc] at hts
    obtain ⟨cmd, t, hcmd, htree, hr⟩ := ih (n := n) hs (by simp only [Kind.calls]; omega) hts
      (follows_amp (Or.inl rfl))
    have ht := hr.clean hs
    have hle := hr.suffix.length_le
    obtain ⟨u, hu, hr'⟩ := parses_back (n := n) rfl cmd ht (by omega) (hr.rest hts)
    have hu' := hr'.clean ht
    have hts' := hr'.rest (hr.rest hts)
    have hsemi : starts [';'] (tokens u) = true := by rw [hts']; rfl
    obtain ⟨hlt, hr''⟩ := exists_single .semi hu' (by decide) hsemi
    have hle' := hr'.suffix.length_le
    obtain ⟨right, v, hright, htree', hr3⟩ := ih' (n := n) (hr''.clean hu')
      (by simp only [Kind.calls]; omega) (hr''.rest hts') hrest
    refine ⟨.list (Cmd.back^[m] cmd) right, v, ?_, ?_, ?_⟩
    · refine (parseline_eq hu' hcmd hu).trans ?_
      rw [if_pos hsemi]
      change Kind.line.parse n _ >>= _ = _
      rw [hright]
      rfl
    · rw [Cmd.map, Cmd.map_back, htree, htree']
    · simpa using hr.trans (hr'.trans (hr''.trans hr3))
  | @exec ts c _ ih =>
    obtain ⟨n, rfl⟩ := Kind.exists_succ hn
    simp only [Kind.calls] at hn
    obtain ⟨cmd, t, hcmd, htree, hr⟩ := ih (n := n) hs (by simp only [Kind.calls]; omega) hts
      (hrest.mono (by decide))
    refine ⟨cmd, skip t, ?_, htree, by simpa using hr.trans (.refl t)⟩
    refine (parsepipe_eq (hr.clean hs) hcmd).trans ?_
    rw [hr.rest hts, hrest.not_starts (by simp [Kind.follow])]
    rfl
  | @pipe ts us c d _ _ ih ih' =>
    obtain ⟨n, rfl⟩ := Kind.exists_succ hn
    simp only [Kind.calls] at hn
    rw [append_assoc] at hts
    obtain ⟨cmd, t, hcmd, htree, hr⟩ := ih (n := n) hs (by simp only [Kind.calls]; omega) hts
      (Or.inl rfl)
    have ht := hr.clean hs
    have hle := hr.suffix.length_le
    have hbar : starts ['|'] (tokens t) = true := by rw [hr.rest hts]; rfl
    obtain ⟨hlt, hr'⟩ := exists_single .bar ht (by decide) hbar
    obtain ⟨right, u, hright, htree', hr''⟩ := ih' (n := n) (hr'.clean ht)
      (by simp only [Kind.calls]; omega) (hr'.rest (hr.rest hts)) hrest
    refine ⟨.pipe cmd right, u, ?_, by rw [Cmd.map, htree, htree'], ?_⟩
    · refine (parsepipe_eq ht hcmd).trans ?_
      rw [if_pos hbar]
      change Kind.pipe.parse n _ >>= _ = _
      rw [hright]
      rfl
    · simpa using hr.trans (hr'.trans hr'')
  | @block ts c rs _ ih =>
    obtain ⟨n, rfl⟩ : ∃ l, n = l + 2 := ⟨n - 2, by simp only [Kind.calls] at hn; omega⟩
    simp only [Kind.calls] at hn
    have hopen : starts ['('] (tokens s) = true := by rw [hts]; rfl
    obtain ⟨hlt, hr⟩ := exists_single .lparen hs (by decide) hopen
    have hts' : tokens (gettoken s).2.2 = ts ++ (.rparen :: (redirTokens rs ++ rest)) :=
      hr.rest (by rw [hts]; simp)
    obtain ⟨cmd, t, hcmd, htree, hr'⟩ := ih (n := n) (hr.clean hs)
      (by simp only [Kind.calls]; omega) hts' (Or.inl rfl)
    have ht := hr'.clean (hr.clean hs)
    have hle := hr'.suffix.length_le
    have hclose : starts [')'] (tokens t) = true := by rw [hr'.rest hts']; rfl
    obtain ⟨hlt', hr''⟩ := exists_single .rparen ht (by decide) hclose
    obtain ⟨rs', u, hrs', htext, hr3⟩ := parses_redirs (n := n)
      (hrest.not_starts (by simp [Kind.follow])) cmd (hr''.clean ht) (by omega)
      (hr''.rest (hr'.rest hts'))
    refine ⟨cmd.addRedirs rs', u, (parseexec_block hs hopen hcmd ht hclose).trans hrs', ?_, ?_⟩
    · rw [Cmd.map_addRedirs, htree, htext]
    · simpa using hr.trans (hr'.trans (hr''.trans hr3))
  | simple rs args hlen =>
    obtain ⟨n, rfl⟩ := Kind.exists_succ hn
    simp only [Kind.calls] at hn
    have hs' : '\x00' ∉ skip s := fun h0 => hs ((skip_suffix s).subset h0)
    have hle := (skip_suffix s).length_le
    have hargs : ∀ toks : List Char, 'a' ∉ toks → (∀ c ∈ Kind.exec.follow, c ∉ toks) →
        starts toks (argTokens args ++ rest) = false := fun toks ha hd =>
      not_starts_args ha (hrest.not_starts hd)
    rw [← tokens_skip, append_assoc] at hts
    obtain ⟨rs', t, hrs', htext, hr⟩ := parses_redirs (n := n)
      (hargs _ (by decide) (by simp [Kind.follow])) (.exec []) hs' (by omega) hts
    have hle' := hr.suffix.length_le
    obtain ⟨args', u, hargs', htext', hr'⟩ := parses_args (n := n)
      (hrest.imp (starts_mono (by decide)) id) 0 [] rs' (hr.clean hs') (by omega)
      (by rw [zero_add]; exact hlen) (hr.rest hts)
    refine ⟨(Cmd.exec (args'.map Arg.word)).addRedirs (rs' ++ args'.flatMap Arg.redirs), u, ?_, ?_,
      (Reads.refl s).trans (hr.trans hr')⟩
    · change parseexec (n + 1) s = _
      rw [parseexec, peek_eq hs (by decide), ← tokens_skip, hts,
        not_starts_redirs (by decide) (hargs _ (by decide) (by simp [Kind.follow]))]
      simp only [hrs', ok_bind]
      exact hargs'
    · rw [Cmd.map_simple, htext, htext']

end Xv6.Shell
