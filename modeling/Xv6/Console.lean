import Xv6.Monitor
import Xv6.Ring

/-!
# The console

`consoleintr` and `consoleread` of any number of threads, as a monitor under `cons.lock`. The
three indices into the input buffer are 32 bits wide and wrap. What is printed, and `procdump`,
which runs after the lock is released, are left out.

The input has a history that no step reads : the bytes committed so far, the bytes that reads
have looked at, and the results of the reads. `line_discipline` says that the bytes taken by
reads, followed by the committed bytes still in the buffer, are those committed, and how reads
end : after a newline, or at a `^D`, which is left for the next read if the read has bytes to
return.
-/

set_option linter.unusedSectionVars false

namespace Xv6.Console

open Function Monitor List

/-- Bytes in the input buffer. -/
def INPUT_BUF : ℕ := 128

instance : NeZero INPUT_BUF := ⟨by decide⟩

/-- `C(x)`, Control-x. -/
def ctrl (x : Char) : UInt8 := UInt8.ofNat (x.toNat - '@'.toNat)

/-- `'\n'`. -/
def newline : UInt8 := 10

/-- `'\r'`. -/
def carriageReturn : UInt8 := 13

/-- `'\x7f'`. -/
def delete : UInt8 := 127

/-- `input`. -/
structure Input where
  buf : Fin INPUT_BUF → UInt8
  /-- Read index. -/
  r : UInt32
  /-- Write index. -/
  w : UInt32
  /-- Edit index. -/
  e : UInt32

/-- The place of an index in the buffer. -/
def slot (x : UInt32) : Fin INPUT_BUF := Fin.ofNat INPUT_BUF x.toNat

/-- Why a read has ended. -/
inductive Why where
  /-- It has all bytes it wants. -/
  | full
  | newline
  /-- It has met a `^D` first and has taken it. -/
  | eof
  /-- It has met a `^D` after other bytes and has left it. -/
  | eofLeft
  | killed
deriving DecidableEq

/-- The result of a `consoleread`. -/
structure Read where
  /-- The bytes stored in `dst`. -/
  bytes : List UInt8
  why : Why
  ret : Int32
deriving DecidableEq

/-- A byte that a read has looked at. -/
structure Look (P : Type*) where
  who : P
  byte : UInt8
  /-- It was left in the buffer. -/
  left : Bool

/-- The input with its history. -/
structure Data (P : Type*) extends Input where
  /-- The bytes committed so far. -/
  committed : List UInt8
  /-- The bytes that reads have looked at. -/
  seen : List (Look P)
  /-- The results of the reads. -/
  reads : List (P × Read)

variable {P : Type*}

/-- The start of the history. -/
def Input.start (i : Input) : Data P := ⟨i, [], [], []⟩

namespace Input

/-- The committed bytes that have not been read. -/
def pending (i : Input) : List UInt8 := ring i.buf i.r.toNat (i.w - i.r).toNat

/-- The bytes that can still be edited. -/
def line (i : Input) : List UInt8 := ring i.buf i.w.toNat (i.e - i.w).toNat

/-- The indices are in order. -/
structure Ordered (i : Input) : Prop where
  w : i.w - i.r ≤ i.e - i.r
  e : i.e - i.r ≤ UInt32.ofNat INPUT_BUF

end Input

namespace Data

/-- `input.w = input.e`. -/
def commit (d : Data P) : Data P := { d with w := d.e, committed := d.committed ++ d.line }

/-- `input.e--`. -/
def erase (d : Data P) : Data P := { d with e := d.e - 1 }

/-- `input.buf[input.e++ % INPUT_BUF] = c`. -/
def store (d : Data P) (c : UInt8) : Data P :=
  { d with buf := update d.buf (slot d.e) c, e := d.e + 1 }

/-- A read has looked at a byte. -/
def look (d : Data P) (p : P) (c : UInt8) (left : Bool) : Data P :=
  { d with seen := d.seen ++ [⟨p, c, left⟩] }

/-- `input.r++`. -/
def take (d : Data P) : Data P := { d with r := d.r + 1 }

/-- `input.r--`. -/
def untake (d : Data P) : Data P := { d with r := d.r - 1 }

/-- A read has its result. -/
def finish (d : Data P) (p : P) (x : Read) : Data P := { d with reads := d.reads ++ [(p, x)] }

end Data

/-- Where a thread is. -/
inductive Loc where
  | out
  /-- `consoleintr`, with the characters that `getc` returns. -/
  | intrEnter (cs : List UInt8)
  | intrLoop (cs : List UInt8)
  /-- The loop of `^U`. -/
  | intrKill (cs : List UInt8)
  | intrWake (cs : List UInt8)
  | intrRet
  /-- `consoleread`, called with a length. -/
  | readEnter (n : Int32)
  /-- The loop, with the length, the number of bytes still wanted and those in `dst`. -/
  | readLoop (target : UInt32) (n : Int32) (dst : List UInt8)
  | readDoze (target : UInt32) (n : Int32) (dst : List UInt8)
  | readRet
deriving DecidableEq

variable {l : Loc}

/-- `c = (c == '\r') ? '\n' : c`. -/
def translate (c : UInt8) : UInt8 := if c = carriageReturn then newline else c

/-- A character has been stored : commit the line, or go on. -/
def typed (c : UInt8) (cs : List UInt8) (d : Data P) : Data P × Loc :=
  if c = newline ∨ c = ctrl 'D' ∨ d.e = d.r + UInt32.ofNat INPUT_BUF then
    (d.commit, .intrWake cs)
  else (d, .intrLoop cs)

/-- The default case of `consoleintr`. -/
def typeChar (c : UInt8) (cs : List UInt8) (d : Data P) : Data P × Loc :=
  if c ≠ 0 ∧ d.e - d.r < UInt32.ofNat INPUT_BUF then
    typed (translate c) cs (d.store (translate c))
  else (d, .intrLoop cs)

/-- One character of `consoleintr`. -/
def intrLoop (cs : List UInt8) (d : Data P) : Data P × Loc :=
  match cs with
  | [] => (d, .intrRet)
  | c :: cs =>
    if c = ctrl 'P' then (d, .intrLoop cs)
    else if c = ctrl 'U' then (d, .intrKill cs)
    else if c = ctrl 'H' ∨ c = delete then (if d.e ≠ d.w then d.erase else d, .intrLoop cs)
    else typeChar c cs d

/-- A pass of the loop of `^U`. -/
def intrKill (cs : List UInt8) (d : Data P) : Data P × Loc :=
  if d.e ≠ d.w ∧ d.buf (slot (d.e - 1)) ≠ newline then (d.erase, .intrKill cs)
  else (d, .intrLoop cs)

/-- `return target - n`. -/
def result (target : UInt32) (n : Int32) : Int32 := (target - n.toUInt32).toInt32

/-- The byte `c` has been read out of the buffer. -/
def readByte (p : P) (target : UInt32) (n : Int32) (dst : List UInt8) (c : UInt8) (d : Data P) :
    Data P × Loc :=
  if c = ctrl 'D' then
    if n.toUInt32 < target then
      ((d.untake.look p c true).finish p ⟨dst, .eofLeft, result target n⟩, .readRet)
    else ((d.look p c false).finish p ⟨dst, .eof, result target n⟩, .readRet)
  else if c = newline then
    ((d.look p c false).finish p ⟨dst ++ [c], .newline, result target (n - 1)⟩, .readRet)
  else (d.look p c false, .readLoop target (n - 1) (dst ++ [c]))

/-- A pass of the loop of `consoleread`. -/
def readLoop (p : P) (killed : Bool) (target : UInt32) (n : Int32) (dst : List UInt8)
    (d : Data P) : Data P × Loc :=
  if 0 < n then
    if d.r = d.w then
      if killed then (d.finish p ⟨dst, .killed, -1⟩, .readRet) else (d, .readDoze target n dst)
    else readByte p target n dst (d.buf (slot d.r)) d.take
  else (d.finish p ⟨dst, .full, result target n⟩, .readRet)

/-- The code of the two functions. The only channel is `&input.r`. -/
def code : Loc → Instr P (Data P) Loc Unit
  | .out => .idle
  | .intrEnter cs => .acquire (.intrLoop cs)
  | .intrLoop cs => .act fun _ _ d => intrLoop cs d
  | .intrKill cs => .act fun _ _ d => intrKill cs d
  | .intrWake cs => .wakeup () (.intrLoop cs)
  | .intrRet => .release .out
  | .readEnter n => .acquire (.readLoop n.toUInt32 n [])
  | .readLoop target n dst => .act fun p killed d => readLoop p killed target n dst d
  | .readDoze target n dst => .sleep () (.readLoop target n dst)
  | .readRet => .release .out

/-- Anything can be called at any time. -/
def calls : Loc → Loc → Bool
  | .out, .intrEnter _ => true
  | .out, .readEnter _ => true
  | _, _ => false

variable (P) in
/-- The console. -/
def console : Monitor P (Data P) Loc Unit := ⟨code, calls⟩

/-! ## Indices -/

namespace Input

variable {i : Input}

/-- The number of committed bytes in the buffer. -/
def nw (i : Input) : ℕ := (i.w - i.r).toNat

/-- The number of bytes in the buffer. -/
def ne (i : Input) : ℕ := (i.e - i.r).toNat

/-- The order of the indices, by their distances from `r`. -/
theorem ordered_iff : i.Ordered ↔ i.nw ≤ i.ne ∧ i.ne ≤ INPUT_BUF :=
  ⟨fun h => ⟨UInt32.le_iff_toNat_le.1 h.w, UInt32.le_iff_toNat_le.1 h.e⟩,
    fun h => ⟨UInt32.le_iff_toNat_le.2 h.1, UInt32.le_iff_toNat_le.2 h.2⟩⟩

/-- An index is right behind the bytes before it. -/
theorem slot_eq (r x : UInt32) : slot x = Fin.ofNat INPUT_BUF (r.toNat + (x - r).toNat) := by
  have := r.toNat_lt
  have := x.toNat_lt
  apply Fin.ext
  simp only [slot, Fin.ofNat, INPUT_BUF, UInt32.toNat_sub]
  omega

theorem toNat_sub_w (h : i.Ordered) : (i.e - i.w).toNat = i.ne - i.nw := by
  obtain ⟨h1, h2⟩ := ordered_iff.1 h
  have := i.r.toNat_lt
  have := i.w.toNat_lt
  have := i.e.toNat_lt
  simp only [nw, ne, INPUT_BUF, UInt32.toNat_sub] at h1 h2 ⊢
  omega

/-- The bytes of the buffer from `r` on. -/
theorem pending_append_line (h : i.Ordered) :
    i.pending ++ i.line = ring i.buf i.r.toNat i.ne := by
  have hle := (ordered_iff.1 h).1
  have hmod : i.w.toNat % INPUT_BUF = (i.r.toNat + i.nw) % INPUT_BUF :=
    congrArg Fin.val (slot_eq i.r i.w)
  rw [pending, line, toNat_sub_w h, ring_congr i.buf hmod]
  change ring i.buf i.r.toNat i.nw ++ _ = _
  rw [← ring_append, Nat.add_sub_cancel' hle]

/-- Backspace. -/
theorem Ordered.erase (h : i.Ordered) (hne : i.e ≠ i.w) : { i with e := i.e - 1 }.Ordered := by
  rw [ordered_iff] at h ⊢
  have hne' : i.e.toNat ≠ i.w.toNat := fun he => hne (UInt32.toNat_inj.1 he)
  have := i.r.toNat_lt
  have := i.w.toNat_lt
  have := i.e.toNat_lt
  simp only [nw, ne, INPUT_BUF, UInt32.toNat_sub, UInt32.toNat_one] at h ⊢
  omega

/-- A byte is typed. -/
theorem Ordered.store (h : i.Ordered) (hlt : i.e - i.r < UInt32.ofNat INPUT_BUF) (c : UInt8) :
    { i with buf := update i.buf (slot i.e) c, e := i.e + 1 }.Ordered := by
  rw [ordered_iff] at h ⊢
  rw [UInt32.lt_iff_toNat_lt] at hlt
  change i.ne < 128 at hlt
  have := i.r.toNat_lt
  have := i.w.toNat_lt
  have := i.e.toNat_lt
  simp only [nw, ne, INPUT_BUF, UInt32.toNat_sub, UInt32.toNat_add, UInt32.toNat_one] at h hlt ⊢
  omega

/-- A line is complete. -/
theorem Ordered.commit (h : i.Ordered) : { i with w := i.e }.Ordered :=
  ⟨UInt32.le_refl _, h.e⟩

theorem nw_take (h : i.r ≠ i.w) : { i with r := i.r + 1 }.nw + 1 = i.nw := by
  have hne : i.r.toNat ≠ i.w.toNat := fun he => h (UInt32.toNat_inj.1 he)
  have := i.r.toNat_lt
  have := i.w.toNat_lt
  simp only [nw, UInt32.toNat_sub, UInt32.toNat_add, UInt32.toNat_one]
  omega

/-- A byte is read. -/
theorem Ordered.take (h : i.Ordered) (hne : i.r ≠ i.w) : { i with r := i.r + 1 }.Ordered := by
  rw [ordered_iff] at h ⊢
  have hne' : i.r.toNat ≠ i.w.toNat := fun he => hne (UInt32.toNat_inj.1 he)
  have := i.r.toNat_lt
  have := i.w.toNat_lt
  have := i.e.toNat_lt
  simp only [nw, ne, INPUT_BUF, UInt32.toNat_sub, UInt32.toNat_add, UInt32.toNat_one] at h ⊢
  omega

/-- The next byte to be read is the first pending one. -/
theorem pending_take (hne : i.r ≠ i.w) :
    i.pending = i.buf (slot i.r) :: { i with r := i.r + 1 }.pending := by
  have hmod : (i.r.toNat + 1) % INPUT_BUF = (i.r + 1).toNat % INPUT_BUF := by
    have := i.r.toNat_lt
    simp only [INPUT_BUF, UInt32.toNat_add, UInt32.toNat_one]
    omega
  change ring i.buf i.r.toNat i.nw = _ :: ring i.buf _ { i with r := i.r + 1 }.nw
  rw [← nw_take hne, ring_pop, ring_congr i.buf hmod]
  rfl

/-- Storing a byte leaves the committed ones alone. -/
theorem store_other (h : i.Ordered) (hlt : i.e - i.r < UInt32.ofNat INPUT_BUF) (c : UInt8)
    {x : UInt32} (hx : x - i.r < i.w - i.r) :
    update i.buf (slot i.e) c (slot x) = i.buf (slot x) := by
  have hle := (ordered_iff.1 h).1
  have hlt' : i.ne < INPUT_BUF := UInt32.lt_iff_toNat_lt.1 hlt
  rw [UInt32.lt_iff_toNat_lt] at hx
  rw [slot_eq i.r i.e, slot_eq i.r x]
  exact update_of_ne (ofNat_ne_of_lt i.r.toNat (hx.trans_le hle) hlt') _ _

/-- A typed byte is not to be read yet. -/
theorem pending_store (h : i.Ordered) (hlt : i.e - i.r < UInt32.ofNat INPUT_BUF) (c : UInt8) :
    { i with buf := update i.buf (slot i.e) c, e := i.e + 1 }.pending = i.pending := by
  have hlt' : i.ne < INPUT_BUF := UInt32.lt_iff_toNat_lt.1 hlt
  rw [slot_eq i.r i.e]
  exact ring_store i.buf i.r.toNat (ordered_iff.1 h).1 hlt' c

end Input

/-! ## What is kept -/

variable [DecidableEq P]

/-- What a read may return. -/
structure Read.Ok (x : Read) : Prop where
  /-- A newline is the last byte. -/
  newline : newline ∉ x.bytes.dropLast ∧ (x.why ≠ .newline → newline ∉ x.bytes)
  eof : ctrl 'D' ∉ x.bytes
  /-- A `^D` is taken by a read without bytes, and left by one with bytes. -/
  taken : x.why = .eof → x.bytes = []
  left : x.why = .eofLeft → x.bytes ≠ []
  ret : x.ret = if x.why = .killed then -1 else Int32.ofNat x.bytes.length

/-- What a read has taken out of the buffer. -/
def Read.taken (x : Read) : List UInt8 := if x.why = .eof then x.bytes ++ [ctrl 'D'] else x.bytes

/-- The bytes that the read in progress has stored in `dst`. -/
def Loc.dst : Loc → List UInt8
  | readLoop _ _ dst => dst
  | readDoze _ _ dst => dst
  | _ => []

/-- The counters of a read agree with its bytes. -/
structure Counts (target : UInt32) (n : Int32) (dst : List UInt8) : Prop where
  sum : n.toInt + dst.length = target.toInt32.toInt
  nonneg : dst ≠ [] → 0 ≤ n.toInt

/-- What a read in progress has. -/
def Loc.Ok : Loc → Prop
  | readLoop target n dst => newline ∉ dst ∧ ctrl 'D' ∉ dst ∧ Counts target n dst
  | readDoze target n dst => newline ∉ dst ∧ ctrl 'D' ∉ dst ∧ Counts target n dst
  | _ => True

/-- The bytes taken out of the buffer, in order. -/
def Data.consumed (d : Data P) : List UInt8 := (d.seen.filter fun x => !x.left).map Look.byte

/-- Those that a thread has taken. -/
def Data.consumedBy (d : Data P) (p : P) : List UInt8 :=
  (d.seen.filter fun x => !x.left && x.who = p).map Look.byte

/-- Those that its finished reads have taken. -/
def Data.readBy (d : Data P) (p : P) : List UInt8 :=
  (d.reads.filter fun x => x.1 = p).flatMap fun x => x.2.taken

/-- What holds of the console. -/
structure Disc (start : List UInt8) (d : Data P) (loc : P → Loc) : Prop where
  ordered : d.Ordered
  /-- The bytes consumed, and then the pending ones, are those of the start and those
  committed. -/
  bytes : d.consumed ++ d.pending = start ++ d.committed
  /-- Only a `^D` is looked at without being taken. -/
  left : ∀ x ∈ d.seen, x.left = true → x.byte = ctrl 'D'
  /-- What a thread has taken is what its reads have returned. -/
  owner : ∀ p, d.consumedBy p = d.readBy p ++ (loc p).dst
  reads : ∀ x ∈ d.reads, x.2.Ok
  busy : ∀ p, (loc p).Ok

/-- What a step does to the bytes. -/
structure Change (d d' : Data P) : Prop where
  /-- No committed byte is altered. -/
  kept : ∀ x, x - d.r < d.w - d.r → d'.buf (slot x) = d.buf (slot x)
  /-- A read looks at the first pending byte. A `^D` ends the read, and stays if the read has
  bytes to return. -/
  look : d'.seen = d.seen ∧ (∃ bs, d'.pending = d.pending ++ bs) ∨
    ∃ x, d'.seen = d.seen ++ [x] ∧ d.pending.head? = some x.byte ∧
      d'.pending = (if x.left then d.pending else d.pending.tail) ∧
      (x.byte = ctrl 'D' → ∃ rd, d'.reads = d.reads ++ [(x.who, rd)] ∧
        (x.left = true ↔ rd.bytes ≠ []))

variable {start : List UInt8} {d d' : Data P} {loc : P → Loc} {p : P}

@[simp] theorem untake_take (d : Data P) : d.take.untake = d := by
  simp [Data.take, Data.untake]

/-- `consoleintr` changes neither what has been read nor by whom. -/
theorem Disc.keep (h : Disc start d loc) (ho : d'.Ordered)
    (hb : d'.consumed ++ d'.pending = start ++ d'.committed) (hs : d'.seen = d.seen)
    (hr : d'.reads = d.reads) (hd : l.dst = (loc p).dst) (hok : l.Ok) :
    Disc start d' (update loc p l) where
  ordered := ho
  bytes := hb
  left := by
    rw [hs]
    exact h.left
  owner q := by
    have hq : (update loc p l q).dst = (loc q).dst := update_cases q hd fun _ => rfl
    have hown := h.owner q
    unfold Data.consumedBy Data.readBy at hown ⊢
    rw [hq, hs, hr]
    exact hown
  reads := by
    rw [hr]
    exact h.reads
  busy q := update_cases q hok fun _ => h.busy q

/-- The bytes taken among those looked at. -/
def got (looks : List (Look P)) : List UInt8 := (looks.filter fun x => !x.left).map Look.byte

/-- One call looks at bytes for its own process, -/
theorem filter_who_self {looks : List (Look P)} (h : ∀ y ∈ looks, y.who = p) :
    (looks.filter fun x => !x.left && x.who = p) = looks.filter fun x => !x.left :=
  filter_congr fun x hx => by simp [h x hx]

/-- and for no other. -/
theorem filter_who_of_ne {looks : List (Look P)} (h : ∀ y ∈ looks, y.who = p) {q : P}
    (hq : q ≠ p) : (looks.filter fun x => !x.left && x.who = q) = [] :=
  filter_eq_nil_iff.2 fun x hx => by simp [h x hx, hq.symm]

/-- A pass of the loop of `consoleread`. -/
theorem Disc.reader (h : Disc start d loc) {r : UInt32} (looks : List (Look P))
    (rs : List (P × Read)) (ho : { d.toInput with r := r }.Ordered)
    (hp : d.pending = got looks ++ { d.toInput with r := r }.pending)
    (hl : ∀ y ∈ looks, y.who = p ∧ (y.left = true → y.byte = ctrl 'D'))
    (hrs : ∀ y ∈ rs, y.1 = p ∧ y.2.Ok)
    (hd : (rs.flatMap fun y => y.2.taken) ++ l.dst = (loc p).dst ++ got looks) (hok : l.Ok) :
    Disc start { d with r := r, seen := d.seen ++ looks, reads := d.reads ++ rs }
      (update loc p l) where
  ordered := ho
  bytes := by
    have := h.bytes
    rw [hp, ← append_assoc] at this
    simpa only [Data.consumed, filter_append, map_append, got] using this
  left x hx := by
    rcases mem_append.1 hx with hx | hx
    · exact h.left x hx
    · exact (hl x hx).2
  owner q := by
    have hq := h.owner q
    simp only [Data.consumedBy, Data.readBy, filter_append, map_append,
      flatMap_append] at hq ⊢
    by_cases hqp : q = p
    · subst hqp
      have hf : (rs.filter fun x => x.1 = q) = rs :=
        filter_eq_self.2 fun y hy => by simp [(hrs y hy).1]
      rw [filter_who_self fun y hy => (hl y hy).1, hq, hf, update_self, append_assoc,
        append_assoc, hd]
      rfl
    · have hf : (rs.filter fun x => x.1 = q) = [] :=
        filter_eq_nil_iff.2 fun y hy => by simp [(hrs y hy).1, Ne.symm hqp]
      rw [filter_who_of_ne (fun y hy => (hl y hy).1) hqp, hq, hf, update_of_ne hqp]
      simp
  reads x hx := by
    rcases mem_append.1 hx with hx | hx
    · exact h.reads x hx
    · exact (hrs x hx).2
  busy q := update_cases q hok fun _ => h.busy q

/-! ### Counters -/

theorem toNat_of_pos {n : Int32} (h : 0 < n.toInt) : (n.toUInt32.toNat : ℤ) = n.toInt := by
  have hlt := n.toUInt32.toNat_lt
  have hn : n.toInt = (n.toUInt32.toNat : ℤ).bmod (2 ^ 32) := by
    change n.toBitVec.toInt = _
    rw [BitVec.toInt_eq_toNat_bmod]
    rfl
  rw [hn, Int.bmod_def] at h ⊢
  split_ifs at h ⊢
  · omega
  · omega

theorem pos_iff {n : Int32} : 0 < n ↔ 0 < n.toInt := Int32.lt_iff_toInt_lt

namespace Counts

variable {target : UInt32} {n : Int32} {dst : List UInt8}

theorem enter (n : Int32) : Counts n.toUInt32 n [] :=
  ⟨by simp, fun h => absurd rfl h⟩

/-- `consoleread` returns the number of bytes it has copied. -/
theorem result (h : Counts target n dst) : result target n = Int32.ofNat dst.length := by
  have hn : n.toUInt32.toInt32 = n := Int32.toInt32_toUInt32 n
  rw [← Int32.toInt_inj, Console.result, UInt32.toInt32_sub, hn, Int32.toInt_sub,
    Int32.toInt_ofNat', ← h.sum, add_sub_cancel_left]

theorem next (h : Counts target n dst) (hn : 0 < n) (c : UInt8) :
    Counts target (n - 1) (dst ++ [c]) := by
  have hsum := h.sum
  rw [pos_iff] at hn
  have hlt := n.toInt_lt
  have hsub : (n - 1).toInt = n.toInt - 1 := by
    rw [Int32.toInt_sub, show (1 : Int32).toInt = 1 from rfl, Int.bmod_def]
    split_ifs
    · omega
    · omega
  refine ⟨?_, fun _ => by omega⟩
  rw [hsub, length_append, length_singleton]
  omega

/-- The test whether the read has bytes to return. -/
theorem lt_iff (h : Counts target n dst) (hn : 0 < n) : n.toUInt32 < target ↔ dst ≠ [] := by
  have hsum := h.sum
  rw [pos_iff] at hn
  have ht := toNat_of_pos (n := target.toInt32) (by omega)
  have hn' := toNat_of_pos hn
  rw [UInt32.toUInt32_toInt32] at ht
  rw [UInt32.lt_iff_toNat_lt, ← length_pos_iff]
  omega

end Counts

/-! ### Typing -/

/-- Typing commits `bs` and leaves the rest of what has been read and committed alone. -/
structure Typed (d d' : Data P) (bs : List UInt8) : Prop where
  ordered : d'.Ordered
  pending : d'.pending = d.pending ++ bs
  committed : d'.committed = d.committed ++ bs
  seen : d'.seen = d.seen
  reads : d'.reads = d.reads
  kept : ∀ x, x - d.r < d.w - d.r → d'.buf (slot x) = d.buf (slot x)

theorem Typed.refl (h : d.Ordered) : Typed d d [] :=
  ⟨h, by simp, by simp, rfl, rfl, fun _ _ => rfl⟩

theorem Typed.erase (h : d.Ordered) (hne : d.e ≠ d.w) : Typed d d.erase [] :=
  ⟨h.erase hne, (append_nil _).symm, (append_nil _).symm, rfl, rfl, fun _ _ => rfl⟩

theorem Typed.store (h : d.Ordered) (hlt : d.e - d.r < UInt32.ofNat INPUT_BUF) (c : UInt8) :
    Typed d (d.store c) [] :=
  ⟨h.store hlt c, (Input.pending_store h hlt c).trans (append_nil _).symm,
    (append_nil _).symm, rfl, rfl, fun _ hx => Input.store_other h hlt c hx⟩

theorem Typed.commit (h : d.Ordered) : Typed d d.commit d.line :=
  ⟨h.commit, (Input.pending_append_line h).symm, rfl, rfl, rfl, fun _ _ => rfl⟩

/-- The default case of `consoleintr`. -/
theorem typeChar_typed (h : d.Ordered) (c : UInt8) (cs : List UInt8) :
    ∃ bs, Typed d (typeChar c cs d).1 bs := by
  unfold typeChar
  split_ifs with hc
  · have hs := Typed.store h hc.2 (translate c)
    unfold typed
    split_ifs
    · -- the line is committed with the byte
      have hm := Typed.commit hs.ordered
      refine ⟨(d.store (translate c)).line, hm.ordered, ?_, ?_, rfl, rfl, hs.kept⟩
      · rw [hm.pending, hs.pending, append_nil]
      · rw [hm.committed, hs.committed, append_nil]
    · exact ⟨[], hs⟩
  · exact ⟨[], Typed.refl h⟩

/-- A pass of the loop of `consoleintr`. -/
theorem intrLoop_typed (h : d.Ordered) (cs : List UInt8) :
    ∃ bs, Typed d (intrLoop cs d).1 bs := by
  unfold intrLoop
  split
  · exact ⟨[], Typed.refl h⟩
  · split_ifs with _ _ _ hne
    · exact ⟨[], Typed.refl h⟩
    · exact ⟨[], Typed.refl h⟩
    · exact ⟨[], Typed.erase h hne⟩
    · exact ⟨[], Typed.refl h⟩
    · exact typeChar_typed h _ _

/-- A pass of the loop of `^U`. -/
theorem intrKill_typed (h : d.Ordered) (cs : List UInt8) :
    ∃ bs, Typed d (intrKill cs d).1 bs := by
  unfold intrKill
  split_ifs with hc
  · exact ⟨[], Typed.erase h hc.1⟩
  · exact ⟨[], Typed.refl h⟩

/-- A place in `consoleintr`. -/
def Loc.Intr : Loc → Prop
  | intrLoop _ => True
  | intrKill _ => True
  | intrWake _ => True
  | intrRet => True
  | _ => False

theorem Loc.Intr.dst (h : l.Intr) : l.dst = [] := by
  cases l <;> first | rfl | exact h.elim

theorem Loc.Intr.ok (h : l.Intr) : l.Ok := by
  cases l <;> trivial

theorem intrLoop_intr (cs : List UInt8) (d : Data P) : (Console.intrLoop cs d).2.Intr := by
  unfold Console.intrLoop typeChar typed
  split
  · trivial
  · split_ifs <;> trivial

theorem intrKill_intr (cs : List UInt8) (d : Data P) : (Console.intrKill cs d).2.Intr := by
  unfold Console.intrKill
  split_ifs <;> trivial

/-- `consoleintr` keeps the discipline. -/
theorem Disc.typed (h : Disc start d loc) {bs : List UInt8} (ht : Typed d d' bs)
    (hp : (loc p).dst = []) (hl : l.Intr) : Disc start d' (update loc p l) := by
  refine h.keep ht.ordered ?_ ht.seen ht.reads (hl.dst.trans hp.symm) hl.ok
  have hb := h.bytes
  rw [Data.consumed, ht.seen, ht.pending, ht.committed, ← append_assoc, ← append_assoc]
  exact congrArg (· ++ bs) hb

theorem Typed.change {bs : List UInt8} (h : Typed d d' bs) : Change d d' :=
  ⟨h.kept, Or.inl ⟨h.seen, bs, h.pending⟩⟩

/-! ### Reading -/

/-- `consoleread` looks at nothing and ends, or goes to sleep. -/
theorem Disc.rest (h : Disc start d loc) (rs : List (P × Read)) (hrs : ∀ y ∈ rs, y.1 = p ∧ y.2.Ok)
    (hd : (rs.flatMap fun y => y.2.taken) ++ l.dst = (loc p).dst) (hok : l.Ok) :
    Disc start { d with reads := d.reads ++ rs } (update loc p l) ∧
      Change d { d with reads := d.reads ++ rs } := by
  constructor
  · have := h.reader (r := d.r) (p := p) [] rs h.ordered rfl (by simp) hrs
      (by simpa [got] using hd) hok
    simpa using this
  · exact ⟨fun _ _ => rfl, Or.inl ⟨rfl, [], (append_nil _).symm⟩⟩

/-- A read that ends without a newline. -/
theorem Read.ok_of_not_mem {dst : List UInt8} {why : Why} {ret : Int32} (hn : newline ∉ dst)
    (hd : ctrl 'D' ∉ dst) (ht : why = .eof → dst = []) (hl : why = .eofLeft → dst ≠ [])
    (hr : ret = if why = .killed then -1 else Int32.ofNat dst.length) : Read.Ok ⟨dst, why, ret⟩ :=
  ⟨⟨fun h => hn (dropLast_subset _ h), fun _ => hn⟩, hd, ht, hl, hr⟩

theorem Read.Ok.single {x : Read} (h : x.Ok) : ∀ y ∈ [(p, x)], y.1 = p ∧ y.2.Ok := by
  intro y hy
  obtain rfl := mem_singleton.1 hy
  exact ⟨rfl, h⟩

/-- A byte is looked at, and taken or left. -/
theorem Disc.looks (h : Disc start d loc) (hne : d.r ≠ d.w) (left : Bool) (rs : List (P × Read))
    (hleft : left = true → d.buf (slot d.r) = ctrl 'D') (hrs : ∀ y ∈ rs, y.1 = p ∧ y.2.Ok)
    (hd : (rs.flatMap fun y => y.2.taken) ++ l.dst = (loc p).dst ++
      if left then [] else [d.buf (slot d.r)])
    (hok : l.Ok)
    (hend : d.buf (slot d.r) = ctrl 'D' → ∃ rd, rs = [(p, rd)] ∧ (left = true ↔ rd.bytes ≠ [])) :
    Disc start { d with
        r := if left then d.r else d.r + 1
        seen := d.seen ++ [⟨p, d.buf (slot d.r), left⟩]
        reads := d.reads ++ rs } (update loc p l) ∧
      Change d { d with
        r := if left then d.r else d.r + 1
        seen := d.seen ++ [⟨p, d.buf (slot d.r), left⟩]
        reads := d.reads ++ rs } := by
  have hp := Input.pending_take hne
  have hlook : ∀ y ∈ [(⟨p, d.buf (slot d.r), left⟩ : Look P)],
      y.who = p ∧ (y.left = true → y.byte = ctrl 'D') := by
    intro y hy
    obtain rfl := mem_singleton.1 hy
    exact ⟨rfl, hleft⟩
  have hchange : ∀ rd, rs = [(p, rd)] → d.reads ++ rs = d.reads ++ [(p, rd)] :=
    fun rd he => by rw [he]
  cases left with
  | true =>
    refine ⟨h.reader _ _ h.ordered rfl hlook hrs hd hok, fun _ _ => rfl,
      Or.inr ⟨_, rfl, ?_, rfl, ?_⟩⟩
    · rw [hp]
      rfl
    · intro hb
      obtain ⟨rd, he, hiff⟩ := hend hb
      exact ⟨rd, hchange rd he, hiff⟩
  | false =>
    refine ⟨h.reader _ _ (h.ordered.take hne) hp hlook hrs hd hok, fun _ _ => rfl,
      Or.inr ⟨_, rfl, ?_, ?_, ?_⟩⟩
    · rw [hp]
      rfl
    · rw [hp]
      rfl
    · intro hb
      obtain ⟨rd, he, hiff⟩ := hend hb
      exact ⟨rd, hchange rd he, hiff⟩

/-- One byte in the loop of `consoleread`. -/
theorem readByte_disc (h : Disc start d loc) {target : UInt32} {n : Int32} {dst : List UInt8}
    (hl : loc p = .readLoop target n dst) (hn : 0 < n) (hne : d.r ≠ d.w) :
    Disc start (readByte p target n dst (d.buf (slot d.r)) d.take).1
      (update loc p (readByte p target n dst (d.buf (slot d.r)) d.take).2) ∧
    Change d (readByte p target n dst (d.buf (slot d.r)) d.take).1 := by
  have hok : newline ∉ dst ∧ ctrl 'D' ∉ dst ∧ Counts target n dst := by
    have := h.busy p
    rwa [hl] at this
  obtain ⟨hnl, hnd, hc⟩ := hok
  have hdst : (loc p).dst = dst := by rw [hl, Loc.dst]
  unfold readByte
  split_ifs with heof hlt hnew
  · have hdne := (hc.lt_iff hn).1 hlt
    rw [untake_take]
    refine h.looks hne true [(p, ⟨dst, .eofLeft, result target n⟩)]
      (fun _ => heof) ?_ ?_ trivial fun _ => ⟨_, rfl, ?_⟩
    · exact (Read.ok_of_not_mem hnl hnd (by simp) (fun _ => hdne) hc.result).single
    · rw [hdst]
      simp [Read.taken, Loc.dst]
    · simpa using hdne
  · have hdnil : dst = [] := by_contra fun hd => hlt ((hc.lt_iff hn).2 hd)
    refine h.looks hne false [(p, ⟨dst, .eof, result target n⟩)] (by simp) ?_ ?_
      trivial fun _ => ⟨_, rfl, ?_⟩
    · exact (Read.ok_of_not_mem hnl hnd (fun _ => hdnil) (by simp) hc.result).single
    · rw [hdst, heof]
      simp [Read.taken, Loc.dst]
    · simpa using hdnil
  · refine h.looks hne false
      [(p, ⟨dst ++ [d.buf (slot d.r)], .newline, result target (n - 1)⟩)] (by simp) ?_ ?_
      trivial fun hb => absurd hb heof
    · have : Read.Ok ⟨dst ++ [d.buf (slot d.r)], .newline, result target (n - 1)⟩ := by
        refine ⟨⟨by simpa using hnl, by simp⟩, ?_, by simp, by simp, ?_⟩
        · simpa [hnd, eq_comm] using heof
        · exact (hc.next hn _).result
      exact this.single
    · rw [hdst]
      simp [Read.taken, Loc.dst]
  · have hok' : newline ∉ dst ++ [d.buf (slot d.r)] ∧ ctrl 'D' ∉ dst ++ [d.buf (slot d.r)] ∧
        Counts target (n - 1) (dst ++ [d.buf (slot d.r)]) := by
      refine ⟨?_, ?_, hc.next hn _⟩
      · simpa [hnl, eq_comm] using hnew
      · simpa [hnd, eq_comm] using heof
    have := h.looks (p := p) (l := .readLoop target (n - 1)
      (dst ++ [d.buf (slot d.r)])) hne false [] (fun hf => absurd hf Bool.false_ne_true) (by simp)
      (by rw [hdst]; rfl) hok' fun hb => absurd hb heof
    rw [append_nil] at this
    exact this

/-- A pass of the loop of `consoleread`. -/
theorem readLoop_disc (h : Disc start d loc) {target : UInt32} {n : Int32} {dst : List UInt8}
    (hl : loc p = .readLoop target n dst) (killed : Bool) :
    Disc start (readLoop p killed target n dst d).1
      (update loc p (readLoop p killed target n dst d).2) ∧
    Change d (readLoop p killed target n dst d).1 := by
  have hok : newline ∉ dst ∧ ctrl 'D' ∉ dst ∧ Counts target n dst := by
    have := h.busy p
    rwa [hl] at this
  have hdst : (loc p).dst = dst := by rw [hl, Loc.dst]
  unfold readLoop
  split_ifs with hn hempty hk
  · refine h.rest [(p, ⟨dst, .killed, -1⟩)] ?_ ?_ trivial
    · exact (Read.ok_of_not_mem hok.1 hok.2.1 (by simp) (by simp) rfl).single
    · rw [hdst]
      simp [Read.taken, Loc.dst]
  · have := h.rest (l := .readDoze target n dst) (p := p) [] (by simp)
      (by rw [hdst]; rfl) hok
    simpa using this
  · exact readByte_disc h hl hn hempty
  · refine h.rest [(p, ⟨dst, .full, result target n⟩)] ?_ ?_ trivial
    · exact (Read.ok_of_not_mem hok.1 hok.2.1 (by simp) (by simp) hok.2.2.result).single
    · rw [hdst]
      simp [Read.taken, Loc.dst]

/-! ## Runs -/

/-- The places that a thread goes to without working on the input. -/
theorem goes_dst {n : Loc} (h : (console P).Goes l n) : n.dst = l.dst ∧ (l.Ok → n.Ok) := by
  rcases h with h | h | ⟨c, h⟩ | ⟨c, h⟩ | h
  · simp only [console] at h
    unfold calls at h
    split at h
    · exact ⟨rfl, fun _ => trivial⟩
    · exact ⟨rfl, fun _ => trivial⟩
    · cases h
  · cases l <;> cases h
    · exact ⟨rfl, fun _ => trivial⟩
    · exact ⟨rfl, fun _ => ⟨by simp, by simp, Counts.enter _⟩⟩
  · cases l <;> cases h
    exact ⟨rfl, fun _ => trivial⟩
  · cases l <;> cases h
    exact ⟨rfl, id⟩
  · cases l <;> cases h
    · exact ⟨rfl, fun _ => trivial⟩
    · exact ⟨rfl, fun _ => trivial⟩

theorem disc_start {i₀ : Input} (h₀ : i₀.Ordered) :
    Disc i₀.pending (i₀.start : Data P) fun _ => .out :=
  ⟨h₀, by simp [Data.consumed, Input.start], by simp [Input.start], fun _ => rfl,
    by simp [Input.start], fun _ => trivial⟩

/-- A section under `cons.lock`. -/
theorem disc_act {f : P → Bool → Data P → Data P × Loc} (hc : (console P).code (loc p) = .act f)
    (h : Disc start d loc) (killed : Bool) :
    Disc start (f p killed d).1 (update loc p (f p killed d).2) ∧ Change d (f p killed d).1 := by
  cases hl : loc p with
  | intrLoop cs =>
    rw [hl] at hc
    cases hc
    obtain ⟨bs, ht⟩ := intrLoop_typed h.ordered cs
    exact ⟨h.typed ht (by rw [hl]; rfl) (intrLoop_intr cs d), ht.change⟩
  | intrKill cs =>
    rw [hl] at hc
    cases hc
    obtain ⟨bs, ht⟩ := intrKill_typed h.ordered cs
    exact ⟨h.typed ht (by rw [hl]; rfl) (intrKill_intr cs d), ht.change⟩
  | readLoop target n dst =>
    rw [hl] at hc
    cases hc
    exact readLoop_disc h hl killed
  | _ =>
    rw [hl] at hc
    cases hc

/-- The discipline holds in every run. -/
theorem disc_run {i₀ : Input} (h₀ : i₀.Ordered) {s : State P (Data P) Loc Unit}
    {acts : List (Act P Loc)}
    (h : exec (console P).step (State.start i₀.start .out) acts = some s) :
    Disc i₀.pending s.data s.loc := by
  refine loc_run (Disc i₀.pending) ?_ ?_ (disc_start h₀) h
  · intro d loc p n hgo hd
    obtain ⟨hdst, hok⟩ := goes_dst hgo
    exact hd.keep hd.ordered hd.bytes rfl rfl hdst (hok (hd.busy p))
  · intro d loc p f k hc hd
    exact (disc_act hc hd k).1

theorem Change.refl (d : Data P) : Change d d :=
  ⟨fun _ _ => rfl, Or.inl ⟨rfl, [], (append_nil _).symm⟩⟩

/-- The indices may start anywhere, as long as they are in order. In every state that is reached
they are in order, the bytes taken by reads and then the pending ones are those committed, and
every read has ended as it should; and every step leaves the committed bytes alone, takes only
the first of them, and ends the read that meets a `^D`. -/
theorem line_discipline {i₀ : Input} (h₀ : i₀.Ordered) {s : State P (Data P) Loc Unit}
    {acts : List (Act P Loc)}
    (h : exec (console P).step (State.start i₀.start .out) acts = some s) :
    Disc i₀.pending s.data s.loc ∧
      ∀ a t, (console P).step s a = some t → Change s.data t.data := by
  have hd := disc_run h₀ h
  refine ⟨hd, fun a t ht => ?_⟩
  cases next_of_step ht with
  | act hm hc => exact (disc_act hc hd _).2
  | _ => exact Change.refl _

/-- An empty buffer whose indices are about to wrap. -/
def wrapping : Input := ⟨fun _ => 0, 4294967295, 4294967295, 4294967295⟩

/-- `a` is typed, corrected to `b`, and ended by `^D`. Another thread then reads twice. -/
def typeAndRead : List (Act Bool Loc) :=
  [.call true (.intrEnter [97, 8, 98, 4]), .run true, .run true, .run true, .run true, .run true,
    .run true, .run true, .run true, .call false (.readEnter 5), .run false, .run false, .run false,
    .run false, .call false (.readEnter 5), .run false, .run false, .run false]

/-- The first read returns `b`, the second meets the `^D` that the first has left. -/
theorem line_discipline_eof : ∃ s : State Bool (Data Bool) Loc Unit,
    exec (console Bool).step (State.start wrapping.start .out) typeAndRead = some s ∧
      s.data.reads = [(false, ⟨[98], .eofLeft, 1⟩), (false, ⟨[], .eof, 0⟩)] ∧
      s.data.r = 1 ∧ s.data.consumed = [98, 4] := by
  have h : (exec (console Bool).step (State.start wrapping.start .out) typeAndRead).map
      (fun s => (s.data.reads, s.data.r, s.data.committed, s.data.pending)) =
        some ([(false, ⟨[98], .eofLeft, 1⟩), (false, ⟨[], .eof, 0⟩)], 1, [98, 4], []) := by
    decide +kernel
  obtain ⟨s, hs, he⟩ := Option.map_eq_some_iff.1 h
  simp only [Prod.mk.injEq] at he
  obtain ⟨hr, hi, hc, hp⟩ := he
  have hd := (line_discipline ⟨by decide, by decide⟩ hs).1
  refine ⟨s, hs, hr, hi, ?_⟩
  have hb := hd.bytes
  rw [hp, hc, append_nil] at hb
  exact hb

end Xv6.Console
