import Xv6.BufferCache
import Xv6.LogProtocol
import Xv6.Recovery
import Mathlib.Data.List.GetD

/-!
# The buffer cache and the log together

The machine of `bio.c` and `log.c` : processes read blocks at any time, change and
log them inside operations, and the process that ends the last operation runs
`commit` step by step (`CommitPc`) while the others go on. A step that the kernel
answers with a panic does not happen, so a run of the machine is a run without a
panic.

The state records what holders did (`trace`) : `bread` of this block returned these
contents, a holder stored those. `Inv d₀ st` says that the trace is a run of a plain array of
blocks (`arrayStep`) from `d₀` to `st`, that the cache over its disk has the contents
`st`, and what the process in `commit` knows (`PcInv`). This module has the steps of
the cache and of the log, `Xv6.ArrayRefinement` those of `commit`.
-/

set_option linter.unusedSectionVars false

namespace Xv6

open Option Function

/-! ## The array -/

variable {i : BufId}

/-- What a holder does with a block. -/
inductive BlockEvent where
  /-- `bread(dev, b)` returns contents `v`. -/
  | read (dev b : ℕ) (v : Block)
  | write (b : ℕ) (v : Block)

/-- A plain array of blocks : a read returns what is stored, a write stores. -/
def arrayStep (d : Disk) : BlockEvent → Option Disk
  | .read dev b v => if dev = ROOTDEV ∧ d b = v then some d else none
  | .write b v => some (update d b v)

/-! ## The machine -/

/-- The two copying loops of `commit` : `write_log` and `install_trans`. -/
inductive CopyDir where
  | toLog
  | toHome

/-- Of the log block's and the home block's side, the one copied to. -/
def CopyDir.dst {α : Type} : CopyDir → α → α → α
  | toLog, l, _ => l
  | toHome, _, h => h

/-- The one copied from. -/
def CopyDir.src {α : Type} : CopyDir → α → α → α
  | toLog, _, h => h
  | toHome, l, _ => l

/-- Inside a round of a copying loop, with the buffers of the log block and of the
home block. -/
inductive CopyPc where
  | start
  /-- Past the first `bget`. -/
  | first (i : BufId)
  /-- Past the second `bget`. -/
  | both (i j : BufId)
  /-- Past `memmove`. -/
  | moved (i j : BufId)
  /-- Past `bwrite`. -/
  | written (i j : BufId)
  /-- Past `brelse` of the source. -/
  | released (i j : BufId)

/-- 1 once the round has copied its block in memory. -/
def CopyPc.movedN : CopyPc → ℕ
  | moved _ _ => 1
  | written _ _ => 1
  | released _ _ => 1
  | _ => 0

/-- 1 once the round has written its block. -/
def CopyPc.writtenN : CopyPc → ℕ
  | written _ _ => 1
  | released _ _ => 1
  | _ => 0

/-- Inside `write_head`. -/
inductive HeadPc where
  | start
  | got (i : BufId)
  | stored (i : BufId)
  | written (i : BufId)

/-- Inside `commit`. -/
inductive CommitPc where
  | idle
  | enter
  | copy (dir : CopyDir) (tail : ℕ) (m : CopyPc)
  /-- In `write_head`, the first or the one that erases the transaction. -/
  | head (erase : Bool) (m : HeadPc)
  /-- At `log.lh.n = 0`. -/
  | clear

/-- `install_trans` has written the block of entry `k`. -/
def CommitPc.Installed (k : ℕ) : CommitPc → Prop
  | copy .toHome tail m => k < tail + m.writtenN
  | clear => True
  | _ => False

/-- A process may start a call of the cache or the log. -/
def Phase.callable : Phase → Bool
  | outside => true
  | active _ _ => true
  | _ => false

/-- The cache, the log, and the process in `commit`. -/
structure BlockStore (P : Type) where
  proto : LogState P
  cache : Bcache P
  /-- `log.start`. -/
  start : ℕ
  pc : CommitPc
  /-- History : what holders read and stored. -/
  trace : List BlockEvent

/-- The steps. A process names the buffer it uses. -/
inductive BlockAction (P : Type) where
  | bread (p : P) (dev blockno : ℕ)
  | acquire (p : P)
  | fill (p : P) (i : BufId)
  | store (p : P) (i : BufId) (v : Block)
  | logWrite (p : P) (i : BufId)
  | logAppend (p : P) (i : BufId)
  | brelse (p : P) (i : BufId)
  | brelseEnd (p : P)
  | beginOp (p : P)
  | endOp (p : P)
  | commit (p : P)
  | endCommit (p : P)
  | kill (p : P)

/-- The process that takes the step. -/
def BlockAction.proc {P : Type} : BlockAction P → P
  | bread p _ _ => p
  | acquire p => p
  | fill p _ => p
  | store p _ _ => p
  | logWrite p _ => p
  | logAppend p _ => p
  | brelse p _ => p
  | brelseEnd p => p
  | beginOp p => p
  | endOp p => p
  | commit p => p
  | endCommit p => p
  | kill p => p

namespace BlockStore

variable {P : Type} [DecidableEq P]

/-- `log.lh.block[0..n)`. -/
def lh (s : BlockStore P) : List ℕ := s.proto.log.lh

/-- The log area. -/
def area (s : BlockStore P) : LogArea := ⟨s.start, s.proto.log.size⟩

/-- Process `p` is in no call and may start one. -/
def User (s : BlockStore P) (p : P) : Prop :=
  s.cache.Idle p ∧ (s.proto.phase p).callable = true

instance (s : BlockStore P) (p : P) : Decidable (s.User p) := inferInstanceAs (Decidable (_ ∧ _))

/-- A process in an operation holds a home block. -/
def Changing (s : BlockStore P) (p : P) (i : BufId) : Prop :=
  s.User p ∧ (s.proto.phase p).admitted = 1 ∧ s.cache.Holding p i ∧
    ¬s.area.Contains (s.cache.buf i).blockno

instance (s : BlockStore P) (p : P) (i : BufId) : Decidable (s.Changing p i) :=
  inferInstanceAs (Decidable (_ ∧ _))

/-- A step of the log that does not panic. -/
def protoStep (s : BlockStore P) (a : LogAction P) : Option (LogState P) :=
  (s.proto.step a).filter fun l => l.panicked.isNone

/-- The rounds of `write_log` and `install_trans`. -/
def copyStep (s : BlockStore P) (p : P) (dir : CopyDir) (tail : ℕ) :
    CopyPc → Option (BlockStore P)
  | .start => do
    let (i, c) ← (s.cache.bget p ROOTDEV (s.start + tail + 1)).toOption
    pure { s with cache := c, pc := .copy dir tail (.first i) }
  | .first i => do
    let (j, c) ← (s.cache.bget p ROOTDEV (s.lh.getD tail 0)).toOption
    pure { s with cache := c, pc := .copy dir tail (.both i j) }
  | .both i j =>
    let v := copyBlock (s.cache.buf (dir.dst i j)).data (s.cache.buf (dir.src i j)).data
    some { s with
      cache := s.cache.store p (dir.dst i j) v
      pc := .copy dir tail (.moved i j)
      trace :=
        match dir with
        | .toLog => s.trace ++ [.write (s.start + tail + 1) v]
        | .toHome => s.trace }
  | .moved i j => do
    let c ← (s.cache.bwrite p (dir.dst i j)).toOption
    pure { s with cache := c, pc := .copy dir tail (.written i j) }
  | .written i j => do
    let c ← (s.cache.brelse p (dir.src i j)).toOption
    pure { s with cache := c, pc := .copy dir tail (.released i j) }
  | .released i j => do
    let c ← (s.cache.brelse p (dir.dst i j)).toOption
    pure { s with
      cache := c
      pc :=
        if tail + 1 < s.lh.length then .copy dir (tail + 1) .start
        else
          match dir with
          | .toLog => .head false .start
          | .toHome => .clear }

/-- `write_head`. -/
def headStep (s : BlockStore P) (p : P) (erase : Bool) : HeadPc → Option (BlockStore P)
  | .start => do
    let (i, c) ← (s.cache.bget p ROOTDEV s.start).toOption
    pure { s with cache := c, pc := .head erase (.got i) }
  | .got i =>
    let v := putHead (s.cache.buf i).data s.lh
    some { s with
      cache := s.cache.store p i v
      pc := .head erase (.stored i)
      trace := s.trace ++ [.write s.start v] }
  | .stored i => do
    let c ← (s.cache.bwrite p i).toOption
    pure { s with cache := c, pc := .head erase (.written i) }
  | .written i => do
    let c ← (s.cache.brelse p i).toOption
    pure { s with cache := c, pc := if erase then .idle else .copy .toHome 0 .start }

/-- The next step of `commit`. -/
def commitStep (s : BlockStore P) (p : P) : Option (BlockStore P) :=
  match s.pc with
  | .idle => none
  | .enter =>
    if 0 < s.lh.length then some { s with pc := .copy .toLog 0 .start }
    else do
      let l ← s.protoStep (.commit p)
      pure { s with proto := l, pc := .idle }
  | .copy dir tail m => s.copyStep p dir tail m
  | .clear => do
    let l ← s.protoStep (.commit p)
    pure { s with proto := l, pc := .head true .start }
  | .head erase m => s.headStep p erase m

/-- One step of the machine. A holder stores in and logs home blocks inside an operation,
and releases no buffer that it has changed and not logged. -/
def step (s : BlockStore P) : BlockAction P → Option (BlockStore P)
  | .bread p dev blockno =>
    if s.User p then do
      let (_, c) ← (s.cache.bget p dev blockno).toOption
      pure { s with cache := c }
    else none
  | .acquire p =>
    match s.cache.call p with
    | .waiting i =>
      if (s.cache.buf i).lock = none then some { s with cache := s.cache.acquire p i } else none
    | _ => none
  | .fill p i =>
    if (s.cache.buf i).lock = some (p, .filling) then do
      let c ← (s.cache.fill p i).toOption
      pure { s with
        cache := c
        trace := s.trace ++ [.read (c.asked p).1 (c.asked p).2 (c.buf i).data] }
    else none
  | .store p i v =>
    if s.Changing p i then
      some { s with
        cache := s.cache.store p i v
        trace := s.trace ++ [.write (s.cache.buf i).blockno v] }
    else none
  | .logWrite p i =>
    if s.Changing p i then do
      let l ← s.protoStep (.logWrite p (s.cache.buf i).blockno)
      pure { s with proto := l }
    else none
  | .logAppend p i =>
    match s.proto.phase p with
    | .logging _ _ b =>
      if s.cache.Idle p ∧ s.cache.Holding p i ∧ (s.cache.buf i).blockno = b then do
        let l ← s.protoStep (.logAppend p)
        pure { s with proto := l, cache := s.cache.pin p i }
      else none
    | _ => none
  | .brelse p i =>
    if s.User p ∧ (s.cache.buf i).lock ≠ some (p, .changed) then do
      let c ← (s.cache.brelse p i).toOption
      pure { s with cache := c }
    else none
  | .brelseEnd p =>
    match s.cache.call p with
    | .releasing i => some { s with cache := s.cache.brelseEnd p i }
    | _ => none
  | .beginOp p =>
    if s.cache.Idle p then do
      let l ← s.protoStep (.beginOp p)
      pure { s with proto := l }
    else none
  | .endOp p =>
    if s.cache.Idle p then do
      let l ← s.protoStep (.endOp p)
      pure { s with proto := l, pc := if l.log.committing then .enter else s.pc }
    else none
  | .commit p =>
    if s.cache.Idle p ∧ (s.proto.phase p).committer = 1 then s.commitStep p else none
  | .endCommit p =>
    match s.pc with
    | .idle =>
      if s.cache.Idle p then do
        let l ← s.protoStep (.endCommit p)
        pure { s with proto := l }
      else none
    | _ => none
  | .kill p => do
    let l ← s.protoStep (.kill p)
    pure { s with proto := l }

/-! ## Reading steps backwards -/

theorem toOption_eq_some {α : Type} {e : Except String α} {a : α} :
    e.toOption = some a ↔ e = .ok a := by
  cases e <;> simp [Except.toOption]

theorem protoStep_eq_some {s : BlockStore P} {a : LogAction P} {l : LogState P} :
    s.protoStep a = some l ↔ s.proto.step a = some l ∧ l.panicked = none := by
  simp [protoStep, filter_eq_some_iff]

theorem holding_iff {c : Bcache P} {p : P} {i : BufId} (h : c.Idle p) (hh : c.Holding p i) :
    ∃ u, u ≠ .filling ∧ (c.buf i).lock = some (p, u) := by
  obtain ⟨⟨q, u⟩, hu, rfl⟩ := map_eq_some_iff.1 hh
  refine ⟨u, ?_, hu⟩
  rintro rfl
  exact h.2 i hu

/-! ## The invariant -/

section Invariant

variable [Fintype P]

/-- The buffers a round of a copying loop has, of log block `lb` and home block `hb`. -/
def CopyInv (c : Bcache P) (p : P) (dir : CopyDir) (lb hb : ℕ) : CopyPc → Prop
  | .start => True
  | .first i => c.Fetch p i lb
  | .both i j => c.Held p i lb .clean ∧ c.Fetch p j hb
  | .moved i j => c.Held p (dir.dst i j) (dir.dst lb hb) .changed ∧
      c.Held p (dir.src i j) (dir.src lb hb) .clean
  | .written i j => c.Held p (dir.dst i j) (dir.dst lb hb) .clean ∧
      c.Held p (dir.src i j) (dir.src lb hb) .clean
  | .released i j => c.Held p (dir.dst i j) (dir.dst lb hb) .clean

/-- The buffer of the header block `b` in `write_head`. -/
def HeadInv (c : Bcache P) (p : P) (b : ℕ) : HeadPc → Prop
  | .start => True
  | .got i => c.Fetch p i b
  | .stored i => c.Held p i b .changed
  | .written i => c.Held p i b .clean

theorem CopyInv.keeps {c c' : Bcache P} {p : P} {dir : CopyDir} {lb hb : ℕ} {m : CopyPc}
    (h : CopyInv c p dir lb hb m) (hk : c.Keeps p c') : CopyInv c' p dir lb hb m := by
  cases m with
  | start => trivial
  | first i => exact hk.fetch i lb h
  | both i j => exact ⟨hk.held i lb .clean (by simp) h.1, hk.fetch j hb h.2⟩
  | moved i j => exact ⟨hk.held _ _ .changed (by simp) h.1, hk.held _ _ .clean (by simp) h.2⟩
  | written i j => exact ⟨hk.held _ _ .clean (by simp) h.1, hk.held _ _ .clean (by simp) h.2⟩
  | released i j => exact hk.held _ _ .clean (by simp) h

theorem HeadInv.keeps {c c' : Bcache P} {p : P} {b : ℕ} {m : HeadPc} (h : HeadInv c p b m)
    (hk : c.Keeps p c') : HeadInv c' p b m := by
  cases m with
  | start => trivial
  | got i => exact hk.fetch i b h
  | stored i => exact hk.held i b .changed (by simp) h
  | written i => exact hk.held i b .clean (by simp) h

/-- The first `n` log blocks have the contents of the blocks they log. -/
def Copied (s : BlockStore P) (st : Disk) (n : ℕ) : Prop :=
  ∀ k (hk : k < s.lh.length), k < n → st (s.start + k + 1) = st s.lh[k]

/-- In `write_log`. Before its first `bget` the transaction may be too long by one. -/
structure WriteLogInv (s : BlockStore P) (st : Disk) (p : P) (tail : ℕ) (m : CopyPc) : Prop where
  phase : s.proto.phase p = .commit
  lt : tail < s.lh.length
  room : s.lh.length < NBUF ∨ tail = 0 ∧ m = .start
  copied : s.Copied st (tail + m.movedN)
  bufs : CopyInv s.cache p .toLog (s.start + tail + 1) (s.lh.getD tail 0) m

/-- In the first `write_head`. -/
structure WriteHeadInv (s : BlockStore P) (st : Disk) (p : P) (m : HeadPc) : Prop where
  phase : s.proto.phase p = .commit
  pos : 0 < s.lh.length
  room : s.lh.length < NBUF
  copied : s.Copied st s.lh.length
  bufs : HeadInv s.cache p s.start m
  stored : ∀ i, m = .stored i → headBlocks (st s.start) = s.lh
  written : ∀ i, m = .written i → headBlocks (s.cache.disk s.start) = s.lh

/-- In `install_trans`. The header on the disk records the transaction. -/
structure InstallInv (s : BlockStore P) (st : Disk) (p : P) (tail : ℕ) (m : CopyPc) : Prop where
  phase : s.proto.phase p = .commit
  lt : tail < s.lh.length
  room : s.lh.length < NBUF
  copied : s.Copied st s.lh.length
  head : headBlocks (s.cache.disk s.start) = s.lh
  bufs : CopyInv s.cache p .toHome (s.start + tail + 1) (s.lh.getD tail 0) m

/-- What holds of the process in `commit`. -/
def PcInv (s : BlockStore P) (st : Disk) (p : P) : CommitPc → Prop
  | .idle => s.proto.phase p = .finish
  | .enter => s.proto.phase p = .commit
  | .copy .toLog tail m => s.WriteLogInv st p tail m
  | .copy .toHome tail m => s.InstallInv st p tail m
  | .head false m => s.WriteHeadInv st p m
  | .head true m => s.proto.phase p = .finish ∧ HeadInv s.cache p s.start m
  | .clear => s.proto.phase p = .commit

/-- The machine has the contents `st`, after a run from the disk `d₀`. -/
structure Inv (d₀ st : Disk) (s : BlockStore P) : Prop where
  proto : s.proto.Inv
  live : s.proto.panicked = none
  size : LOGSIZE ≤ s.proto.log.size
  int : s.cache.disksize < 2 ^ 31
  cache : s.cache.Inv st
  trace : exec arrayStep d₀ s.trace = some st
  home : ∀ b ∈ s.lh, ¬s.area.Contains b
  logging : ∀ p op mine b, s.proto.phase p = .logging op mine b → ¬s.area.Contains b
  pins : ∀ k (hk : k < s.lh.length), ¬s.pc.Installed k → s.cache.Pins s.lh[k]
  idle : s.proto.log.committing = false → s.pc = .idle
  pc : ∀ p, (s.proto.phase p).committer = 1 → s.PcInv st p s.pc

variable {d₀ st st' : Disk} {s t : BlockStore P} {p : P} {pc : CommitPc}

/-- The process in `commit` sees the same log, the same disk and its own buffers. -/
theorem PcInv.keeps (h : s.PcInv st p pc) (hstart : t.start = s.start)
    (hphase : t.proto.phase p = s.proto.phase p) (hlh : t.lh = s.lh)
    (hdisk : t.cache.disk = s.cache.disk) (hk : s.cache.Keeps p t.cache) : t.PcInv st p pc := by
  have hcopied : ∀ n, s.Copied st n → t.Copied st n := by
    intro n hn k hk
    simp only [hlh, hstart] at hk ⊢
    exact hn k hk
  match pc, h with
  | .idle, h => exact hphase.trans h
  | .enter, h => exact hphase.trans h
  | .clear, h => exact hphase.trans h
  | .copy .toLog tail m, h =>
    exact ⟨hphase.trans h.phase, hlh ▸ h.lt, hlh ▸ h.room, hcopied _ h.copied, by
      rw [hlh, hstart]
      exact h.bufs.keeps hk⟩
  | .copy .toHome tail m, h =>
    exact ⟨hphase.trans h.phase, hlh ▸ h.lt, hlh ▸ h.room, by rw [hlh]; exact hcopied _ h.copied,
      by rw [hdisk, hstart, hlh]; exact h.head, by rw [hlh, hstart]; exact h.bufs.keeps hk⟩
  | .head false m, h =>
    exact ⟨hphase.trans h.phase, hlh ▸ h.pos, hlh ▸ h.room,
      by rw [hlh]; exact hcopied _ h.copied, by rw [hstart]; exact h.bufs.keeps hk,
      by rw [hstart, hlh]; exact h.stored, by rw [hdisk, hstart, hlh]; exact h.written⟩
  | .head true m, h => exact ⟨hphase.trans h.1, by rw [hstart]; exact h.2.keeps hk⟩

/-! ## Rules for the kinds of steps -/

/-- A step of the cache that leaves the contents alone. -/
theorem Inv.cacheStep (h : s.Inv d₀ st) {c' : Bcache P} {tr : List BlockEvent}
    (hc : c'.Inv st) (hq : s.cache.Quietly c') (htr : exec arrayStep d₀ tr = some st)
    (hk : ∀ p, (s.proto.phase p).committer = 1 → s.cache.Keeps p c') :
    Inv d₀ st { s with cache := c', trace := tr } :=
  { h with
    int := hq.disksize.symm ▸ h.int
    cache := hc
    trace := htr
    pins := fun k hk' hin => hq.pins _ (h.pins k hk' hin)
    pc := fun p hp => (h.pc p hp).keeps rfl rfl rfl hq.disk (hk p hp) }

/-- A store by a process in an operation : no commit is running. -/
theorem Inv.storeStep (h : s.Inv d₀ st) {c' : Bcache P} {tr : List BlockEvent}
    (hcom : s.proto.log.committing = false) (hc : c'.Inv st') (hq : s.cache.Quietly c')
    (htr : exec arrayStep d₀ tr = some st') : Inv d₀ st' { s with cache := c', trace := tr } :=
  { h with
    int := hq.disksize.symm ▸ h.int
    cache := hc
    trace := htr
    pins := fun k hk' hin => hq.pins _ (h.pins k hk' hin)
    pc := fun p hp => absurd ((h.proto.committing hp).symm.trans hcom) (by simp) }

/-- A step of the log that leaves the transaction and the process in `commit` alone. -/
theorem Inv.logStep (h : s.Inv d₀ st) {a : LogAction P} {l : LogState P}
    (hl : s.protoStep a = some l) (hlh : l.log.lh = s.lh)
    (hcom : l.log.committing = s.proto.log.committing)
    (hphase : ∀ p, (l.phase p).committer = 1 → l.phase p = s.proto.phase p)
    (hlog : ∀ p op mine b, l.phase p = .logging op mine b → ¬s.area.Contains b) :
    Inv d₀ st { s with proto := l } := by
  obtain ⟨hstep, hlive⟩ := protoStep_eq_some.1 hl
  have hsize := LogState.step_size hstep
  have harea : BlockStore.area { s with proto := l } = s.area := by simp [area, hsize]
  have hlh' : BlockStore.lh { s with proto := l } = s.lh := hlh
  exact
    { h with
      proto := h.proto.step hstep
      live := hlive
      size := by simpa [hsize] using h.size
      home := by rw [hlh', harea]; exact h.home
      logging := by rw [harea]; exact hlog
      pins := by simp only [hlh']; exact h.pins
      idle := fun hc => h.idle (hcom ▸ hc)
      pc := fun p hp => (h.pc p (hphase p hp ▸ hp)).keeps rfl (hphase p hp) hlh' rfl
        ⟨fun _ _ hf => hf, fun _ _ _ _ hf => hf⟩ }

/-- A step of the process in `commit`. -/
theorem Inv.pcStep (h : s.Inv d₀ st) (hp : (s.proto.phase p).committer = 1) {c' : Bcache P}
    {tr : List BlockEvent} (hc : c'.Inv st') (hsize : c'.disksize = s.cache.disksize)
    (htr : exec arrayStep d₀ tr = some st')
    (hpins : ∀ k (hk : k < s.lh.length), ¬pc.Installed k → c'.Pins s.lh[k])
    (hpc : PcInv { s with cache := c', pc := pc, trace := tr } st' p pc) :
    Inv d₀ st' { s with cache := c', pc := pc, trace := tr } :=
  { h with
    int := hsize.symm ▸ h.int
    cache := hc
    trace := htr
    pins := hpins
    idle := fun hcom => absurd ((h.proto.committing hp).symm.trans hcom) (by simp)
    pc := fun q hq => by
      obtain rfl : q = p := h.proto.committer_unique hq hp
      exact hpc }

/-! ## Steps of the cache -/

theorem callable_ne (hq : (s.proto.phase p).callable = true) {r : P}
    (hr : (s.proto.phase r).committer = 1) : p ≠ r := by
  rintro rfl
  cases hph : s.proto.phase p <;> simp_all [Phase.callable, Phase.committer]

theorem Inv.bread (h : s.Inv d₀ st) {dev blockno : ℕ}
    (ht : s.step (.bread p dev blockno) = some t) : t.Inv d₀ st := by
  simp only [step, ite_none_right_eq_some, bind_eq_bind, bind_eq_some_iff,
    toOption_eq_some, Prod.exists, pure_def, some.injEq] at ht
  obtain ⟨⟨hidle, -⟩, i, c, hb, rfl⟩ := ht
  exact h.cacheStep (h.cache.bget hidle hb) (Bcache.quietly_bget hb) h.trace
    fun r _ => h.cache.keeps_bget hidle.1 hb r

theorem Inv.acquire (h : s.Inv d₀ st) (ht : s.step (.acquire p) = some t) : t.Inv d₀ st := by
  simp only [step] at ht
  split at ht
  · rename_i i hcall
    split_ifs at ht with hl
    obtain rfl := some.inj ht
    exact h.cacheStep (h.cache.acquire hcall hl) Bcache.quietly_acquire h.trace
      fun r _ => Bcache.keeps_acquire hcall hl r
  · cases ht

/-- `bread` returns what the array has. -/
theorem Inv.fill (h : s.Inv d₀ st) (ht : s.step (.fill p i) = some t) :
    t.Inv d₀ st := by
  simp only [step, ite_none_right_eq_some, bind_eq_bind, bind_eq_some_iff,
    toOption_eq_some, pure_def, some.injEq] at ht
  obtain ⟨hl, c, hc, rfl⟩ := ht
  refine h.cacheStep (h.cache.fill hl hc) (h.cache.quietly_fill hl hc) ?_
    fun r _ => h.cache.keeps_fill hl hc r
  obtain ⟨hat, -, rfl⟩ := h.cache.fill_eq hl hc
  have hasked := h.cache.asks p i (Or.inr hl)
  refine (exec_append _ _).2 ⟨st, h.trace, ?_⟩
  simp [exec, arrayStep, ← hasked, hat.dev]

theorem Inv.brelse (h : s.Inv d₀ st) (ht : s.step (.brelse p i) = some t) :
    t.Inv d₀ st := by
  simp only [step, ite_none_right_eq_some, bind_eq_bind, bind_eq_some_iff,
    toOption_eq_some, pure_def, some.injEq] at ht
  obtain ⟨⟨⟨hidle, hcall⟩, hchg⟩, c, hc, rfl⟩ := ht
  obtain ⟨⟨u, hu⟩, -⟩ := Bcache.brelse_cases hc
  refine h.cacheStep (h.cache.brelse hidle.1 hu ?_ hc) (Bcache.quietly_brelse hc) h.trace
    fun r hr => Bcache.keeps_brelse (callable_ne hcall hr) hc
  rintro rfl
  exact hchg hu

theorem Inv.brelseEnd (h : s.Inv d₀ st) (ht : s.step (.brelseEnd p) = some t) : t.Inv d₀ st := by
  simp only [step] at ht
  split at ht
  · rename_i i hcall
    obtain rfl := some.inj ht
    exact h.cacheStep (h.cache.brelseEnd hcall) Bcache.quietly_brelseEnd h.trace
      fun r _ => Bcache.keeps_brelseEnd hcall r
  · cases ht

/-- A store of a holder is a store in the array. -/
theorem Inv.store (h : s.Inv d₀ st) {v : Block} (ht : s.step (.store p i v) = some t) :
    ∃ st', t.Inv d₀ st' := by
  simp only [step, ite_none_right_eq_some, some.injEq] at ht
  obtain ⟨⟨⟨hidle, -⟩, hadm, hh, -⟩, rfl⟩ := ht
  obtain ⟨u, hu, hl⟩ := holding_iff hidle hh
  refine ⟨_, h.storeStep (h.proto.not_committing hadm) (h.cache.store hl hu v)
    Bcache.quietly_store ?_⟩
  exact (exec_append _ _).2 ⟨st, h.trace, by simp [exec, arrayStep]⟩

/-! ## Steps of the log -/

theorem wake_of_committer {ph : Phase} (h : ph.committer = 1) : ph.wake = ph := by
  cases ph <;> simp_all [Phase.committer, Phase.wake]

/-- Moving a process that does not commit to a phase of which the same is true. -/
theorem Inv.setPhase (h : s.Inv d₀ st) {a : LogAction P} {ph : Phase}
    (hl : s.protoStep a = some (s.proto.setPhase p ph))
    (hc : ph.committer = 1 → ph = s.proto.phase p)
    (hlog : ∀ op mine b, ph = .logging op mine b → ¬s.area.Contains b) :
    Inv d₀ st { s with proto := s.proto.setPhase p ph } := by
  refine h.logStep hl rfl rfl ?_ ?_
  · intro q hq
    by_cases hqp : q = p
    · subst hqp
      simp only [LogState.setPhase, update_self] at hq ⊢
      exact hc hq
    · simp [LogState.setPhase, hqp]
  · intro q op mine b hq
    by_cases hqp : q = p
    · subst hqp
      exact hlog op mine b (by simpa [LogState.setPhase] using hq)
    · exact h.logging q op mine b (by simpa [LogState.setPhase, hqp] using hq)

theorem Inv.beginOp (h : s.Inv d₀ st) (ht : s.step (.beginOp p) = some t) : t.Inv d₀ st := by
  simp only [step, ite_none_right_eq_some, bind_eq_bind, bind_eq_some_iff,
    pure_def, some.injEq] at ht
  obtain ⟨-, l, hl, rfl⟩ := ht
  obtain ⟨-, -, hl'⟩ := LogState.step_cases (protoStep_eq_some.1 hl).1
  subst hl'
  by_cases hadm : s.proto.log.committing = true ∨ s.proto.log.NoSpace
  · have hbeg : s.proto.beginOp p = s.proto.setPhase p .asleep := by
      unfold LogState.beginOp
      rcases hadm with hc | hn
      · rw [if_pos hc]
      · split_ifs <;> rfl
    rw [hbeg] at hl ⊢
    exact h.setPhase hl (by simp [Phase.committer]) (by simp)
  · rw [not_or] at hadm
    have hbeg : s.proto.beginOp p = { s.proto with
        log := { s.proto.log with outstanding := s.proto.log.outstanding + 1 }
        phase := update s.proto.phase p (.active s.proto.nextOp ∅)
        nextOp := s.proto.nextOp + 1
        opTxn := update s.proto.opTxn s.proto.nextOp s.proto.txns.length } := by
      rw [LogState.beginOp, if_neg hadm.1, if_neg hadm.2]
    rw [hbeg] at hl ⊢
    refine h.logStep hl rfl rfl ?_ ?_
    · intro q hq
      by_cases hqp : q = p
      · subst hqp
        simp [Phase.committer] at hq
      · simp [hqp]
    · intro q op mine b hq
      by_cases hqp : q = p
      · subst hqp
        simp at hq
      · exact h.logging q op mine b (by simpa [hqp] using hq)

theorem Inv.kill (h : s.Inv d₀ st) (ht : s.step (.kill p) = some t) : t.Inv d₀ st := by
  simp only [step, bind_eq_bind, bind_eq_some_iff, pure_def,
    some.injEq] at ht
  obtain ⟨l, hl, rfl⟩ := ht
  obtain ⟨-, hl'⟩ := LogState.step_cases (protoStep_eq_some.1 hl).1
  obtain rfl : l = s.proto.setPhase p (s.proto.phase p).wake := hl'
  refine h.setPhase hl (fun hc => wake_of_committer (by simpa using hc)) ?_
  intro op mine b hb
  refine h.logging p op mine b ?_
  cases hph : s.proto.phase p <;> simp_all [Phase.wake]

theorem Inv.logWrite (h : s.Inv d₀ st) (ht : s.step (.logWrite p i) = some t) :
    t.Inv d₀ st := by
  simp only [step, ite_none_right_eq_some, bind_eq_bind, bind_eq_some_iff,
    pure_def, some.injEq] at ht
  obtain ⟨⟨-, -, -, harea⟩, l, hl, rfl⟩ := ht
  obtain ⟨hstep, hlive⟩ := protoStep_eq_some.1 hl
  obtain ⟨-, op, mine, -, hl'⟩ := LogState.step_cases hstep
  unfold LogState.logWrite at hl'
  split_ifs at hl'
  · simp [hl'] at hlive
  · simp [hl'] at hlive
  · subst hl'
    refine h.setPhase hl (by simp [Phase.committer]) ?_
    rintro _ _ _ ⟨⟩
    exact harea

/-- `log_write` pins the block it adds. -/
theorem Inv.logAppend (h : s.Inv d₀ st) (ht : s.step (.logAppend p i) = some t) :
    t.Inv d₀ st := by
  simp only [step] at ht
  split at ht
  case h_2 => cases ht
  case h_1 op mine b hph =>
    simp only [ite_none_right_eq_some, bind_eq_bind, bind_eq_some_iff,
      pure_def, some.injEq] at ht
    obtain ⟨⟨hidle, hh, hb⟩, l, hl, rfl⟩ := ht
    obtain ⟨hstep, hlive⟩ := protoStep_eq_some.1 hl
    obtain ⟨-, op', mine', b', hph', hl'⟩ := LogState.step_cases hstep
    obtain ⟨rfl, rfl, rfl⟩ : op = op' ∧ mine = mine' ∧ b = b' := by
      simpa [hph] using hph'
    subst hl'
    obtain ⟨u, hu, hlock⟩ := holding_iff hidle hh
    have hadm : (s.proto.phase p).admitted = 1 := by simp [hph, Phase.admitted]
    have hcom := h.proto.not_committing hadm
    have hat : (s.cache.buf i).At b :=
      ⟨((h.cache.good i).coherent ((h.cache.good i).returned p u hlock hu)).1, hb⟩
    exact
      { h with
        proto := h.proto.step hstep
        live := hlive
        cache := h.cache.pin hlock hu
        home := by
          intro c hc
          rcases (mem_logAbsorb b s.proto.log.lh).1 hc with hc | rfl
          · exact h.home c hc
          · exact h.logging p op mine c hph
        logging := LogState.forall_phase
          (fun _ x => ∀ op mine b, x = .logging op mine b → ¬s.area.Contains b) (by simp)
          fun q _ => h.logging q
        pins := by
          intro k hk _
          have hmem : (logAbsorb b s.proto.log.lh)[k] ∈ logAbsorb b s.proto.log.lh :=
            List.getElem_mem hk
          rcases (mem_logAbsorb b s.proto.log.lh).1 hmem with hc | hc
          · obtain ⟨n, hn, hget⟩ := List.getElem_of_mem hc
            have hpin := h.pins n hn (by simp [h.idle hcom, CommitPc.Installed])
            exact Bcache.quietly_pin.pins _ (hget ▸ hpin)
          · refine ⟨i, ?_⟩
            simp only [Bcache.pin, Bcache.setBuf_buf_self]
            exact ⟨⟨hat.dev, hat.blockno.trans hc.symm⟩, trivial⟩
        idle := fun _ => h.idle hcom
        pc := by
          intro q hq
          have hcm := (h.proto.step hstep).committing hq
          exact absurd (hcm.symm.trans hcom) (by simp) }

theorem Inv.endOp (h : s.Inv d₀ st) (ht : s.step (.endOp p) = some t) : t.Inv d₀ st := by
  simp only [step, ite_none_right_eq_some, bind_eq_bind, bind_eq_some_iff,
    pure_def, some.injEq] at ht
  obtain ⟨-, l, hl, rfl⟩ := ht
  obtain ⟨hstep, hlive⟩ := protoStep_eq_some.1 hl
  obtain ⟨-, ⟨op, mine, hp⟩, hl'⟩ := LogState.step_cases hstep
  have hcom := h.proto.not_committing (p := p) (by simp [hp, Phase.admitted])
  have hproto := h.proto.step hstep
  simp only [LogState.endOp, hcom, Bool.false_eq_true, if_false] at hl'
  split_ifs at hl' with hzero
  · -- the last operation : the process enters `commit`
    subst hl'
    exact
      { h with
        proto := hproto
        live := hlive
        logging := LogState.forall_phase
          (fun _ x => ∀ op mine b, x = .logging op mine b → ¬s.area.Contains b) (by simp)
          fun q _ => h.logging q
        pins := fun k hk _ => h.pins k hk (by simp [h.idle hcom, CommitPc.Installed])
        idle := by simp
        pc := by
          intro q hq
          obtain rfl : q = p := hproto.committer_unique hq (by simp [Phase.committer])
          simp [PcInv] }
  · subst hl'
    simp only [Bool.false_eq_true, if_false]
    refine h.logStep hl rfl (by simp [hcom]) ?_ ?_
    · exact fun q hq => absurd (hproto.committing hq) (by simp)
    · intro q op' mine' b hq
      by_cases hqp : q = p
      · subst hqp
        simp at hq
      · refine h.logging q op' mine' b ?_
        have hq' : (s.proto.phase q).wake = .logging op' mine' b := by simpa [hqp] using hq
        cases hph : s.proto.phase q <;> simp_all [Phase.wake]

theorem Inv.endCommit (h : s.Inv d₀ st) (ht : s.step (.endCommit p) = some t) : t.Inv d₀ st := by
  simp only [step] at ht
  split at ht
  case h_2 => cases ht
  case h_1 hpc =>
    simp only [ite_none_right_eq_some, bind_eq_bind, bind_eq_some_iff,
      pure_def, some.injEq] at ht
    obtain ⟨-, l, hl, rfl⟩ := ht
    obtain ⟨hstep, hlive⟩ := protoStep_eq_some.1 hl
    obtain ⟨-, hp, rfl⟩ := LogState.step_cases hstep
    have hproto := h.proto.step hstep
    exact
      { h with
        proto := hproto
        live := hlive
        logging := by
          intro q op' mine' b hq
          by_cases hqp : q = p
          · subst hqp
            simp [LogState.endCommit] at hq
          · refine h.logging q op' mine' b ?_
            have hq' : (s.proto.phase q).wake = .logging op' mine' b := by
              simpa [LogState.endCommit, hqp] using hq
            cases hph : s.proto.phase q <;> simp_all [Phase.wake]
        idle := fun _ => hpc
        pc := fun q hq => absurd (hproto.committing hq) (by simp [LogState.endCommit]) }

end Invariant

end BlockStore

end Xv6
