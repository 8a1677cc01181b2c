import Xv6.Monitor
import Xv6.Ring
import Mathlib.Data.Fintype.Basic

/-!
# Pipes

`pipewrite`, `piperead` and `pipeclose` of any number of processes on one pipe, as a monitor
under the pipe's spinlock. The counters are 32 bits wide and wrap.

The pipe has a history that no step reads : the bytes stored so far, and the results of the
`piperead` calls. `pipe_fifo` says that what was read, followed by what is buffered, is what
was stored.

`pipe_wakeups` is about lost wakeups. `pipewrite` returns -1 from a full pipe, if it was killed
or the read end is closed, without waking the readers for the bytes it has stored before. The
other exits all wake who has to be woken, so nobody sleeps in vain exactly as long as no such
return leaves a reader behind.
-/

set_option linter.unusedSectionVars false

namespace Xv6.Pipes

open Function Monitor List Option

variable {killed : Bool} {n : ℕ}

/-- Bytes in a pipe. -/
def PIPESIZE : ℕ := 512

instance : NeZero PIPESIZE := ⟨by decide⟩

/-- `struct pipe`, without its lock. -/
structure Pipe where
  data : Fin PIPESIZE → UInt8
  nread : UInt32
  nwrite : UInt32
  readopen : Bool
  writeopen : Bool

/-- The pipe with its history. -/
structure Data extends Pipe where
  /-- All bytes stored by `pipewrite`. -/
  stored : List UInt8
  /-- The bytes returned by each `piperead`. -/
  reads : List (List UInt8)

/-- What processes sleep on. -/
inductive Chan where
  /-- `&p->nread`, readers of an empty pipe. -/
  | nread
  /-- `&p->nwrite`, writers of a full pipe. -/
  | nwrite
deriving DecidableEq

variable {c : Chan}

namespace Pipe

/-- The number of unread bytes. -/
def count (p : Pipe) : ℕ := (p.nwrite - p.nread).toNat

/-- The unread bytes. -/
def unread (p : Pipe) : List UInt8 := ring p.data p.nread.toNat p.count

/-- The test of the loop of `pipewrite`. -/
def full (p : Pipe) : Bool := p.nwrite = p.nread + UInt32.ofNat PIPESIZE

/-- The test of the loops of `piperead`. -/
def empty (p : Pipe) : Bool := p.nread = p.nwrite

end Pipe

/-- `p->data[p->nwrite++ % PIPESIZE] = b`. -/
def Data.store (d : Data) (b : UInt8) : Data :=
  { d with
    data := update d.data (Fin.ofNat PIPESIZE d.nwrite.toNat) b
    nwrite := d.nwrite + 1
    stored := d.stored ++ [b] }

/-- `p->data[p->nread++ % PIPESIZE]`. -/
def Data.fetch (d : Data) : UInt8 × Data :=
  (d.data (Fin.ofNat PIPESIZE d.nread.toNat), { d with nread := d.nread + 1 })

/-- `piperead` has its result. -/
def Data.deliver (d : Data) (dst : List UInt8) : Data := { d with reads := d.reads ++ [dst] }

/-- Where a process is. -/
inductive Loc where
  | out
  /-- `pipewrite`, called with these bytes. -/
  | writeEnter (src : List UInt8)
  /-- The loop, with the bytes still to store. `dirty` if it has stored some since the readers
  were last woken. -/
  | writeLoop (rest : List UInt8) (dirty : Bool)
  | writeWake (rest : List UInt8)
  | writeDoze (rest : List UInt8)
  /-- Return -1. -/
  | giveUp (dirty : Bool)
  | writeDone
  | writeRet
  /-- `piperead`, called with a length. -/
  | readEnter (n : ℕ)
  | readTest (n : ℕ)
  | readDoze (n : ℕ)
  /-- Return -1. -/
  | readGiveUp
  /-- The loop, with the number of bytes still wanted and those copied so far. -/
  | readLoop (n : ℕ) (dst : List UInt8)
  | readWake
  | readRet
  /-- `pipeclose`. -/
  | closeEnter (writable : Bool)
  | close (writable : Bool)
  | closeWake (writable : Bool)
  | closeRet
deriving DecidableEq

/-- A pass of the loop of `pipewrite`. -/
def writeLoop (rest : List UInt8) (dirty killed : Bool) (d : Data) : Data × Loc :=
  match rest with
  | [] => (d, .writeDone)
  | b :: rest =>
    if d.full then
      if !d.readopen || killed then (d, .giveUp dirty) else (d, .writeWake (b :: rest))
    else (d.store b, .writeLoop rest true)

/-- A pass of the first loop of `piperead`. -/
def readTest (n : ℕ) (killed : Bool) (d : Data) : Data × Loc :=
  if d.empty && d.writeopen then if killed then (d, .readGiveUp) else (d, .readDoze n)
  else (d, .readLoop n [])

/-- A pass of the second loop of `piperead`. -/
def readLoop (n : ℕ) (dst : List UInt8) (d : Data) : Data × Loc :=
  match n with
  | 0 => (d.deliver dst, .readWake)
  | n + 1 =>
    if d.empty then (d.deliver dst, .readWake)
    else (d.fetch.2, .readLoop n (dst ++ [d.fetch.1]))

/-- `pipeclose` marks an end closed. -/
def close (writable : Bool) (d : Data) : Data × Loc :=
  (if writable then { d with writeopen := false } else { d with readopen := false },
    .closeWake writable)

variable {P : Type*} [DecidableEq P]
variable {s : State P Data Loc Chan}

/-- The code of the three functions. Freeing the page of a pipe whose ends are both closed is
left to the file table. -/
def code : Loc → Instr P Data Loc Chan
  | .out => .idle
  | .writeEnter src => .acquire (.writeLoop src false)
  | .writeLoop rest dirty => .act fun _ killed d => writeLoop rest dirty killed d
  | .writeWake rest => .wakeup .nread (.writeDoze rest)
  | .writeDoze rest => .sleep .nwrite (.writeLoop rest false)
  | .giveUp _ => .release .out
  | .writeDone => .wakeup .nread .writeRet
  | .writeRet => .release .out
  | .readEnter n => .acquire (.readTest n)
  | .readTest n => .act fun _ killed d => readTest n killed d
  | .readDoze n => .sleep .nread (.readTest n)
  | .readGiveUp => .release .out
  | .readLoop n dst => .act fun _ _ d => readLoop n dst d
  | .readWake => .wakeup .nwrite .readRet
  | .readRet => .release .out
  | .closeEnter writable => .acquire (.close writable)
  | .close writable => .act fun _ _ d => close writable d
  | .closeWake writable => .wakeup (if writable then .nread else .nwrite) .closeRet
  | .closeRet => .release .out

/-- Anything can be called at any time. -/
def calls : Loc → Loc → Bool
  | .out, .writeEnter _ => true
  | .out, .readEnter _ => true
  | .out, .closeEnter _ => true
  | _, _ => false

variable (P) in
/-- The pipe. -/
def pipe : Monitor P Data Loc Chan := ⟨code, calls⟩

/-! ## Bytes -/

namespace Pipe

variable {p : Pipe}

theorem full_iff : p.full = true ↔ p.count = PIPESIZE := by
  have := p.nread.toNat_lt
  have := p.nwrite.toNat_lt
  simp only [full, count, decide_eq_true_eq, PIPESIZE, ← UInt32.toNat_inj, UInt32.toNat_sub,
    UInt32.toNat_add, UInt32.toNat_ofNat']
  omega

theorem empty_iff : p.empty = true ↔ p.count = 0 := by
  have := p.nread.toNat_lt
  have := p.nwrite.toNat_lt
  simp only [empty, count, decide_eq_true_eq, ← UInt32.toNat_inj, UInt32.toNat_sub]
  omega

/-- The slot of the next byte is right behind the unread ones. -/
theorem slot_nwrite (p : Pipe) :
    Fin.ofNat PIPESIZE p.nwrite.toNat = Fin.ofNat PIPESIZE (p.nread.toNat + p.count) := by
  have := p.nread.toNat_lt
  have := p.nwrite.toNat_lt
  apply Fin.ext
  simp only [Fin.ofNat, count, PIPESIZE, UInt32.toNat_sub]
  omega

end Pipe

/-- A stored byte is read last. -/
theorem Data.unread_store {d : Data} (h : d.count < PIPESIZE) (b : UInt8) :
    (d.store b).unread = d.unread ++ [b] ∧ (d.store b).count = d.count + 1 := by
  have hcount : (d.store b).count = d.count + 1 := by
    have := d.nread.toNat_lt
    have := d.nwrite.toNat_lt
    simp only [Pipe.count, PIPESIZE, Data.store, UInt32.toNat_sub, UInt32.toNat_add,
      UInt32.toNat_one] at h ⊢
    omega
  refine ⟨?_, hcount⟩
  unfold Pipe.unread
  rw [hcount]
  simp only [Data.store, Pipe.slot_nwrite d.toPipe]
  exact ring_push d.data d.nread.toNat h b

/-- The byte fetched is the first one unread. -/
theorem Data.unread_fetch {d : Data} (h : d.count ≠ 0) :
    d.unread = d.fetch.1 :: d.fetch.2.unread ∧ d.fetch.2.count < d.count := by
  have hcount : d.count = d.fetch.2.count + 1 := by
    have := d.nread.toNat_lt
    have := d.nwrite.toNat_lt
    simp only [Pipe.count, Data.fetch, UInt32.toNat_sub, UInt32.toNat_add,
      UInt32.toNat_one] at h ⊢
    omega
  have hmod : (d.nread.toNat + 1) % PIPESIZE = (d.nread + 1).toNat % PIPESIZE := by
    have := d.nread.toNat_lt
    simp only [PIPESIZE, UInt32.toNat_add, UInt32.toNat_one]
    omega
  refine ⟨?_, by omega⟩
  unfold Pipe.unread
  rw [hcount, ring_pop, ring_congr d.data hmod]
  rfl

/-- The bytes read and in `dst`, and then the unread ones, are those of the start and those
stored. -/
structure Fifo (start dst : List UInt8) (d : Data) : Prop where
  count : d.count ≤ PIPESIZE
  bytes : d.reads.flatten ++ dst ++ d.unread = start ++ d.stored

namespace Fifo

variable {start dst : List UInt8} {d : Data}

theorem store (h : Fifo start dst d) (hf : d.full = false) (b : UInt8) :
    Fifo start dst (d.store b) := by
  have hlt : d.count < PIPESIZE := by
    refine lt_of_le_of_ne h.count fun he => ?_
    rw [Pipe.full_iff.2 he] at hf
    cases hf
  obtain ⟨hu, hc⟩ := Data.unread_store hlt b
  refine ⟨by omega, ?_⟩
  rw [hu, ← append_assoc]
  simp only [Data.store]
  rw [h.bytes, append_assoc]

theorem fetch (h : Fifo start dst d) (he : d.empty = false) :
    Fifo start (dst ++ [d.fetch.1]) d.fetch.2 := by
  have hne : d.count ≠ 0 := fun h0 => by
    rw [Pipe.empty_iff.2 h0] at he
    cases he
  obtain ⟨hu, hc⟩ := Data.unread_fetch hne
  refine ⟨hc.le.trans h.count, ?_⟩
  have := h.bytes
  rw [hu] at this
  simpa [Data.fetch] using this

/-- `piperead` returns what it has copied. -/
theorem deliver (h : Fifo start dst d) : Fifo start [] (d.deliver dst) := by
  refine ⟨h.count, ?_⟩
  simpa [Data.deliver] using h.bytes

end Fifo

/-- What `piperead` has copied. -/
def Loc.copied : Loc → List UInt8
  | readLoop _ dst => dst
  | _ => []

/-- What a process about to sleep or to give up has seen. -/
def Loc.Seen : Loc → Data → Prop
  | giveUp _, d => d.full = true
  | writeWake _, d => d.full = true ∧ d.readopen = true
  | writeDoze _, d => d.full = true ∧ d.readopen = true
  | readDoze _, d => d.empty = true ∧ d.writeopen = true
  | _, _ => True

/-- A turn of `pipewrite`. -/
theorem writeLoop_outline {start : List UInt8} {rest : List UInt8} {dirty : Bool} {d : Data}
    (h : Fifo start [] d) :
    (pipe P).inside (writeLoop rest dirty killed d).2 = true ∧
      Fifo start (writeLoop rest dirty killed d).2.copied (writeLoop rest dirty killed d).1 ∧
      (writeLoop rest dirty killed d).2.Seen (writeLoop rest dirty killed d).1 := by
  unfold writeLoop
  split
  · exact ⟨rfl, h, trivial⟩
  · split_ifs with hf hk
    · exact ⟨rfl, h, hf⟩
    · exact ⟨rfl, h, hf, by simp at hk; exact hk.1⟩
    · exact ⟨rfl, h.store (by simpa using hf) _, trivial⟩

/-- The wait of `piperead` for bytes. -/
theorem readTest_outline {start : List UInt8} {d : Data} (h : Fifo start [] d) :
    (pipe P).inside (readTest n killed d).2 = true ∧
      Fifo start (readTest n killed d).2.copied (readTest n killed d).1 ∧
      (readTest n killed d).2.Seen (readTest n killed d).1 := by
  unfold readTest
  split_ifs with he hk
  · exact ⟨rfl, h, trivial⟩
  · exact ⟨rfl, h, by simpa [Loc.Seen] using he⟩
  · exact ⟨rfl, h, trivial⟩

/-- A turn of the copying loop of `piperead`. -/
theorem readLoop_outline {start dst : List UInt8} {d : Data} (h : Fifo start dst d) :
    (pipe P).inside (readLoop n dst d).2 = true ∧
      Fifo start (readLoop n dst d).2.copied (readLoop n dst d).1 ∧
      (readLoop n dst d).2.Seen (readLoop n dst d).1 := by
  unfold readLoop
  split
  · exact ⟨rfl, h.deliver, trivial⟩
  · split_ifs with he
    · exact ⟨rfl, h.deliver, trivial⟩
    · exact ⟨rfl, h.fetch (by simpa using he), trivial⟩

theorem close_outline {start : List UInt8} {writable : Bool} {d : Data} (h : Fifo start [] d) :
    (pipe P).inside (close writable d).2 = true ∧
      Fifo start (close writable d).2.copied (close writable d).1 ∧
      (close writable d).2.Seen (close writable d).1 := by
  unfold close
  cases writable
  · exact ⟨rfl, ⟨h.count, h.bytes⟩, trivial⟩
  · exact ⟨rfl, ⟨h.count, h.bytes⟩, trivial⟩

variable (P) in
/-- At every place, the bytes read and stored agree, and a process about to sleep has seen why. -/
def outline (start : List UInt8) : Outline (pipe P) where
  free := Fifo start []
  here l d := Fifo start l.copied d ∧ l.Seen d
  call {l n} h := by
    simp only [pipe] at h
    unfold calls at h
    split at h
    · exact ⟨rfl, rfl⟩
    · exact ⟨rfl, rfl⟩
    · exact ⟨rfl, rfl⟩
    · cases h
  acquire {l n} h := by
    cases l <;> simp [pipe, code] at h <;> subst h <;> exact ⟨rfl, fun d hd => ⟨hd, trivial⟩⟩
  act {l f} h p k d hd := by
    cases l <;> simp [pipe, code] at h <;> subst h
    · exact writeLoop_outline hd.1
    · exact readTest_outline hd.1
    · exact readLoop_outline hd.1
    · exact close_outline hd.1
  wakeup {l c n} h := by
    cases l <;> simp [pipe, code] at h <;> obtain ⟨-, rfl⟩ := h <;> exact ⟨rfl, fun d hd => hd⟩
  sleep {l c n} h := by
    cases l <;> simp [pipe, code] at h <;> obtain ⟨-, rfl⟩ := h <;>
      exact ⟨rfl, fun d hd => hd.1, fun d hd => ⟨hd, trivial⟩⟩
  release {l n} h := by
    cases l <;> simp [pipe, code] at h <;> subst h <;> exact ⟨rfl, fun d hd => hd.1⟩

/-- All bytes read so far, by the calls that have their result and by the one at work. -/
def delivered (s : State P Data Loc Chan) : List UInt8 :=
  s.data.reads.flatten ++
    match s.lk with
    | some p => (s.loc p).copied
    | none => []

theorem fifo_start {p₀ : Pipe} (h₀ : p₀.count ≤ PIPESIZE) :
    Fifo p₀.unread [] ⟨p₀, [], []⟩ :=
  ⟨h₀, by simp⟩

/-- No byte is lost or reordered in a run. -/
theorem fifo_run {p₀ : Pipe} (h₀ : p₀.count ≤ PIPESIZE) {acts : List (Act P Loc)}
    (h : exec (pipe P).step (State.start ⟨p₀, [], []⟩ .out) acts = some s) :
    Fifo p₀.unread (match s.lk with | some p => (s.loc p).copied | none => []) s.data := by
  have hI := Outline.inv_run (O := outline P p₀.unread) (fifo_start h₀) rfl h
  cases hl : s.lk with
  | none => exact hI.free hl
  | some p =>
    rcases (hI.lk p).1 hl with ⟨hm, hin⟩ | hd
    · exact (hI.here p hm hin).1
    · have hm : s.mode p ≠ .awake := by
        intro hm
        rw [hm] at hd
        cases hd
      exact ((hI.back p hm).2 _ (hI.dozing p hd)).1

/-- In every state that is reached, from any counters that are at most `PIPESIZE` apart, they
are at most `PIPESIZE` apart, and the bytes read followed by the unread ones are the unread
ones of the start followed by the bytes stored. -/
theorem pipe_fifo {p₀ : Pipe} (h₀ : p₀.count ≤ PIPESIZE) {s : State P Data Loc Chan}
    {acts : List (Act P Loc)}
    (h : exec (pipe P).step (State.start ⟨p₀, [], []⟩ .out) acts = some s) :
    (s.data.nwrite - s.data.nread).toNat ≤ PIPESIZE ∧
      s.data.unread.length = (s.data.nwrite - s.data.nread).toNat ∧
      delivered s ++ s.data.unread = p₀.unread ++ s.data.stored := by
  have hf := fifo_run h₀ h
  exact ⟨hf.count, length_ring _ _ _, hf.bytes⟩

/-- An empty pipe whose counters are about to wrap. -/
def wrapping : Pipe := ⟨fun _ => 0, 4294967295, 4294967295, true, true⟩

/-- One process writes two bytes, the other reads one. -/
def twoBytes : List (Act Bool Loc) :=
  [.call true (.writeEnter [7, 8]), .run true, .run true, .run true, .run true, .run true,
    .run true, .call false (.readEnter 1), .run false, .run false, .run false, .run false,
    .run false, .run false]

theorem pipe_fifo_wraps : ∃ s : State Bool Data Loc Chan,
    exec (pipe Bool).step (State.start ⟨wrapping, [], []⟩ .out) twoBytes = some s ∧
      s.data.nread = 0 ∧ s.data.nwrite = 1 ∧ delivered s ++ s.data.unread = [7, 8] := by
  have h : (exec (pipe Bool).step (State.start ⟨wrapping, [], []⟩ .out) twoBytes).map
      (fun s => (s.data.nread, s.data.nwrite, s.data.stored)) = some (0, 1, [7, 8]) := by
    decide +kernel
  obtain ⟨s, hs, he⟩ := map_eq_some_iff.1 h
  simp only [Prod.mk.injEq] at he
  have hb := (pipe_fifo (by decide +kernel) hs).2.2
  rw [he.2.2] at hb
  exact ⟨s, hs, he.1, he.2.1, hb⟩

/-! ## Wakeups -/

/-- What processes wait for. -/
def Wait : Chan → Data → Prop
  | .nread, d => d.empty = true ∧ d.writeopen = true
  | .nwrite, d => d.full = true ∧ d.readopen = true

/-- Who still has to wake the readers, or the writers. -/
def Owes : Chan → Loc → Prop
  | .nread, .writeLoop _ dirty => dirty = true
  | .nread, .writeWake _ => True
  | .nread, .giveUp dirty => dirty = true
  | .nread, .writeDone => True
  | .nread, .closeWake writable => writable = true
  | .nwrite, .readLoop _ dst => dst ≠ []
  | .nwrite, .readWake => True
  | .nwrite, .closeWake writable => writable = false
  | _, _ => False

/-- Bytes stored in an empty pipe leave a wakeup owed to the readers. -/
theorem writeLoop_owes {rest : List UInt8} {dirty : Bool} {d : Data}
    (h : Wait c d ∨ Owes c (.writeLoop rest dirty)) :
    Wait c (writeLoop rest dirty killed d).1 ∨ Owes c (writeLoop rest dirty killed d).2 := by
  unfold writeLoop
  cases c with
  | nread =>
    split
    · exact Or.inr trivial
    · split_ifs
      · exact h
      · exact Or.inr trivial
      · exact Or.inr rfl
  | nwrite =>
    have hw : Wait .nwrite d := h.resolve_right id
    split
    · exact Or.inl hw
    · split_ifs with hf
      · exact Or.inl hw
      · exact Or.inl hw
      · exact absurd hw.1 hf

theorem readTest_owes {d : Data} (h : Wait c d ∨ Owes c (.readTest n)) :
    Wait c (readTest n killed d).1 ∨ Owes c (readTest n killed d).2 := by
  have hw : Wait c d := h.resolve_right (by cases c <;> exact id)
  unfold readTest
  split_ifs
  · exact Or.inl hw
  · exact Or.inl hw
  · exact Or.inl hw

/-- Bytes taken from a full pipe leave a wakeup owed to the writers. -/
theorem readLoop_owes {dst : List UInt8} {d : Data} (h : Wait c d ∨ Owes c (.readLoop n dst)) :
    Wait c (readLoop n dst d).1 ∨ Owes c (readLoop n dst d).2 := by
  unfold readLoop
  cases c with
  | nread =>
    have hw : Wait .nread d := h.resolve_right id
    split
    · exact Or.inl hw
    · split_ifs with he
      · exact Or.inl hw
      · exact absurd hw.1 he
  | nwrite =>
    split
    · exact Or.inr trivial
    · split_ifs
      · exact Or.inr trivial
      · exact Or.inr (by simp [Owes])

/-- Closing an end leaves a wakeup owed to the other. -/
theorem close_owes {writable : Bool} {d : Data} (h : Wait c d ∨ Owes c (.close writable)) :
    Wait c (close writable d).1 ∨ Owes c (close writable d).2 := by
  have hw : Wait c d := h.resolve_right (by cases c <;> exact id)
  cases c <;> cases writable
  · exact Or.inl hw
  · exact Or.inr rfl
  · exact Or.inr rfl
  · exact Or.inl hw

variable (P) in
/-- Every place owes what it has to. -/
def waits (start : List UInt8) : (outline P start).Waits where
  wait := Wait
  owes := Owes
  act {l f} h p k d c _ hw := by
    cases l <;> simp [pipe, code] at h <;> subst h
    · exact writeLoop_owes hw
    · exact readTest_owes hw
    · exact readLoop_owes hw
    · exact close_owes hw
  wakeup {l c n c'} h hne ho := by
    cases l <;> simp [pipe, code] at h <;> obtain ⟨rfl, rfl⟩ := h <;> cases c' <;>
      first | exact absurd rfl hne | exact ho.elim | skip
    · rename_i writable
      cases writable
      · cases ho
      · exact absurd rfl hne
    · rename_i writable
      cases writable
      · exact absurd rfl hne
      · cases ho
  sleep {l c n} h := by
    cases l <;> simp [pipe, code] at h <;> obtain ⟨rfl, rfl⟩ := h <;>
      exact ⟨fun d hd => hd.2, fun c' => by cases c' <;> exact id⟩

/-- With the lock free, who sleeps or is about to has something to wait for. -/
def Sound (s : State P Data Loc Chan) : Prop :=
  s.lk = none → ∀ q,
    ((s.mode q).Sleeps .nread → s.data.nread = s.data.nwrite ∧ s.data.writeopen = true) ∧
    ((s.mode q).Sleeps .nwrite →
      s.data.nwrite = s.data.nread + UInt32.ofNat PIPESIZE ∧ s.data.readopen = true)

/-- A `pipewrite` that returns -1 after it has stored bytes for which it did not wake the
readers finds no reader asleep. -/
def Wakes (s : State P Data Loc Chan) : Act P Loc → Prop
  | .run p => s.mode p = .awake → s.loc p = .giveUp true → ∀ q, ¬(s.mode q).Sleeps .nread
  | _ => True

instance [Fintype P] (s : State P Data Loc Chan) : ∀ a, Decidable (Wakes s a)
  | .call _ _ => isTrue trivial
  | .run p => inferInstanceAs (Decidable (s.mode p = .awake → s.loc p = .giveUp true →
      ∀ q, ¬(s.mode q = .dropping .nread ∨ s.mode q = .asleep .nread)))
  | .kill _ => isTrue trivial

/-- Then no sleeper is left with a wakeup owed to it. -/
theorem Wakes.pays {start : List UInt8} {a : Act P Loc} (h : Wakes s a) :
    (waits P start).Pays s a := by
  cases a with
  | run p =>
    intro hm n hn c ho q hq
    -- only a `pipewrite` that gives up releases the lock with something owed
    have hl : s.loc p = .giveUp true ∧ c = .nread := by
      change Owes c (s.loc p) at ho
      cases hl : s.loc p <;> rw [hl] at hn ho <;> cases hn <;> cases c <;>
        first | exact ho.elim | skip
      exact ⟨congrArg _ ho, rfl⟩
    exact absurd (hl.2 ▸ hq) (h hm hl.1 q)
  | _ => trivial

theorem sound_of_inv {start : List UInt8} (h : (waits P start).Inv s) : Sound s := by
  intro hl q
  refine ⟨fun hq => ?_, fun hq => ?_⟩
  · have hw : Wait .nread s.data := h.wait hl hq
    exact ⟨by simpa [Pipe.empty] using hw.1, hw.2⟩
  · have hw : Wait .nwrite s.data := h.wait hl hq
    exact ⟨by simpa [Pipe.full] using hw.1, hw.2⟩

/-- A return that leaves a reader behind leads to a state in which it sleeps in vain. -/
theorem wakes_of_sound {start : List UInt8} {t : State P Data Loc Chan} {a : Act P Loc}
    (hI : (outline P start).Inv s) (ht : (pipe P).step s a = some t) (hs : Sound t) :
    Wakes s a := by
  cases a with
  | run p =>
    intro hm hl q hq
    have hseen := (hI.here p hm (by rw [hl]; rfl)).2
    rw [hl] at hseen
    have hfull : s.data.full = true := hseen
    simp only [step, run, hm, hl, pipe, code] at ht
    obtain rfl := some.inj ht
    have hempty : s.data.empty = true := by simpa [Pipe.empty] using ((hs rfl q).1 hq).1
    have := Pipe.full_iff.1 hfull
    rw [Pipe.empty_iff.1 hempty] at this
    cases this
  | _ => trivial

/-- Throughout a run nobody sleeps in vain exactly if no `pipewrite` that returns -1 after it has
stored bytes leaves a reader asleep. -/
theorem pipe_wakeups {p₀ : Pipe} (h₀ : p₀.count ≤ PIPESIZE) {s : State P Data Loc Chan}
    {acts : List (Act P Loc)}
    (h : exec (pipe P).step (State.start ⟨p₀, [], []⟩ .out) acts = some s) :
    (∀ pre suf v, acts = pre ++ suf →
      exec (pipe P).step (State.start ⟨p₀, [], []⟩ .out) pre = some v → Sound v) ↔
    Along (pipe P).step Wakes (State.start ⟨p₀, [], []⟩ .out) acts := by
  refine along_iff (fun s => (outline P p₀.unread).Inv s ∧ (waits P p₀.unread).Inv s) Sound ?_ ?_
    (fun s hs => sound_of_inv hs.2)
    ⟨Outline.inv_start (O := outline P p₀.unread) (fifo_start h₀) rfl, Outline.Waits.inv_start⟩ h
  · rintro s a t ⟨hI, hW⟩ ha ht
    exact ⟨hI.step (next_of_step ht), hW.step hI ha.pays (next_of_step ht)⟩
  · rintro s a t ⟨hI, -⟩ ht hs
    exact wakes_of_sound hI ht hs

/-- A new pipe. -/
def fresh : Pipe := ⟨fun _ => 0, 0, 0, true, true⟩

/-- A process falls asleep reading. -/
def reader : List (Act Bool Loc) :=
  [.call false (.readEnter 1), .run false, .run false, .run false, .run false, .run false]

/-- The other one writes a byte. -/
def writer : List (Act Bool Loc) :=
  [.call true (.writeEnter [7]), .run true, .run true, .run true, .run true, .run true]

theorem pipe_wakeups_reader : ∃ s : State Bool Data Loc Chan,
    exec (pipe Bool).step (State.start ⟨fresh, [], []⟩ .out) (reader ++ writer) = some s ∧
      s.mode false = .woken ∧ Sound s := by
  have h : (exec (pipe Bool).step (State.start ⟨fresh, [], []⟩ .out) (reader ++ writer)).map
      (fun s => s.mode false) = some .woken := by
    decide +kernel
  obtain ⟨s, hs, hm⟩ := map_eq_some_iff.1 h
  refine ⟨s, hs, hm, ?_⟩
  exact (pipe_wakeups (by decide +kernel) hs).2 (by decide +kernel) _ [] s
    (append_nil _).symm hs

/-- A writer fills the pipe while a reader sleeps, is killed and returns. The reader sleeps on
with the pipe full. -/
theorem pipe_lost_wakeup :
    (exec (pipe Bool).step (State.start ⟨fresh, [], []⟩ .out)
      (reader ++ [.call true (.writeEnter (List.replicate 513 0)), .run true] ++
        List.replicate 512 (.run true) ++ [.kill true, .run true, .run true])).map
      (fun s => (s.lk, s.mode false, s.data.nread, s.data.nwrite)) =
        some (none, .asleep .nread, 0, 512) := by
  decide +kernel

end Xv6.Pipes
