import Xv6.Param
import Xv6.Count

/-!
# The buffer cache

`bio.c` over the disk of `memide.c`, which has the driver in place of `ide.c` in a kernel
that is built with `make kernelmemfs`. The steps are the sections under
`bcache.lock`, the taking and the giving up of a buffer's sleep lock, and what a
holder does to its buffer; a process is in the middle of at most one `bread` or
`brelse` (`Call`).

The cache is read as a plain array of blocks `st` : `Inv c st` says that a valid
buffer has the contents `st` gives its block, and that a block whose disk contents
differ from `st` is in a buffer that cannot be recycled, for it is dirty or its
holder has changed it. Every operation keeps `Inv`, a store of `v` in block `b`
with `st` updated at `b` and all the others with the same `st`.

`Keeps p c c'` says that a step leaves the buffers alone that process `p` holds or
waits for, and `Quietly c c'` that it neither writes the disk nor unpins a block.
-/

set_option linter.unusedSectionVars false

namespace Xv6

open Option Function

variable {dev blockno : ℕ}

/-- The buffers `bcache.buf`. -/
abbrev BufId := Fin NBUF

variable {j : BufId}

instance : NeZero NBUF := ⟨by decide⟩

/-- How far the holder of a buffer's sleep lock has come with it. `changed` is
history : the holder has stored in the buffer and has neither logged nor written it. -/
inductive Use where
  /-- In `bread`, about to test `B_VALID`. -/
  | filling
  | clean
  | changed
  deriving DecidableEq

/-- `struct buf`. The lock names its holder. -/
structure Buf (P : Type) where
  valid : Bool
  dirty : Bool
  dev : ℕ
  blockno : ℕ
  lock : Option (P × Use)
  refcnt : ℕ
  data : Block

/-- The call a process is in the middle of, between two sections. -/
inductive Call where
  | idle
  /-- In `bget`, at `acquiresleep` of the buffer found. -/
  | waiting (i : BufId)
  /-- In `brelse`, past `releasesleep`. -/
  | releasing (i : BufId)
  deriving DecidableEq

/-- Weight 1 for a call that `refcnt` of buffer `i` counts. -/
def Call.refs (i : BufId) : Call → ℕ
  | idle => 0
  | waiting j => if j = i then 1 else 0
  | releasing j => if j = i then 1 else 0

/-- The list through `prev` and `next`, from `head.next` on. It has every buffer. -/
structure Lru where
  order : List BufId
  complete : ∀ i, i ∈ order

/-- Move a buffer to the head of the list. -/
def Lru.touch (l : Lru) (i : BufId) : Lru where
  order := i :: l.order.erase i
  complete j := by
    by_cases h : j = i
    · simp [h]
    · simp [List.mem_erase_of_ne h, l.complete j]

/-- The cache, the disk under it, and the calls in progress. -/
structure Bcache (P : Type) where
  buf : BufId → Buf P
  lru : Lru
  disk : Disk
  disksize : ℕ
  call : P → Call
  /-- The arguments of the last `bget` of each process. -/
  asked : P → ℕ × ℕ

namespace Bcache

variable {P : Type} [DecidableEq P]

/-- `holdingsleep(&b->lock)`. -/
def Holding (c : Bcache P) (p : P) (i : BufId) : Prop := (c.buf i).lock.map Prod.fst = some p

instance (c : Bcache P) (p : P) (i : BufId) : Decidable (c.Holding p i) :=
  inferInstanceAs (Decidable (_ = _))

/-- Process `p` is in no call. -/
def Idle (c : Bcache P) (p : P) : Prop :=
  c.call p = .idle ∧ ∀ i, (c.buf i).lock ≠ some (p, .filling)

instance (c : Bcache P) (p : P) : Decidable (c.Idle p) := inferInstanceAs (Decidable (_ ∧ _))

/-- Replace one buffer. -/
def setBuf (c : Bcache P) (i : BufId) (b : Buf P) : Bcache P :=
  { c with buf := update c.buf i b }

/-- Replace one buffer and the call of one process. -/
def put (c : Bcache P) (i : BufId) (b : Buf P) (p : P) (k : Call) : Bcache P :=
  { c with buf := update c.buf i b, call := update c.call p k }

/-- The first loop of `bget` : is the block already cached? -/
def find (c : Bcache P) (dev blockno : ℕ) : Option BufId :=
  c.lru.order.find? fun i => (c.buf i).dev = dev ∧ (c.buf i).blockno = blockno

/-- The second loop of `bget`, from the least recently used end : a buffer that is
neither referenced nor dirty. -/
def victim (c : Bcache P) : Option BufId :=
  c.lru.order.reverse.find? fun i => (c.buf i).refcnt = 0 ∧ (c.buf i).dirty = false

/-- Process `p` calls `bget`. -/
def ask (c : Bcache P) (p : P) (dev blockno : ℕ) : Bcache P :=
  { c with asked := update c.asked p (dev, blockno) }

/-- `bget`, up to `acquiresleep`. -/
def bget (c : Bcache P) (p : P) (dev blockno : ℕ) : Except String (BufId × Bcache P) :=
  let c := c.ask p dev blockno
  match c.find dev blockno with
  | some i =>
    .ok (i, c.put i { c.buf i with refcnt := (c.buf i).refcnt + 1 } p (.waiting i))
  | none =>
    match c.victim with
    | some i =>
      .ok (i, c.put i { c.buf i with dev, blockno, valid := false, dirty := false, refcnt := 1 }
        p (.waiting i))
    | none => .error "bget: no buffers"

/-- `acquiresleep(&b->lock)` at the end of `bget`, once the lock is free. -/
def acquire (c : Bcache P) (p : P) (i : BufId) : Bcache P :=
  c.put i { c.buf i with lock := some (p, .filling) } p .idle

/-- `iderw` of `memide.c`. -/
def iderw (c : Bcache P) (p : P) (i : BufId) : Except String (Bcache P) :=
  let b := c.buf i
  if ¬c.Holding p i then .error "iderw: buf not locked"
  else if b.valid = true ∧ b.dirty = false then .error "iderw: nothing to do"
  else if b.dev ≠ 1 then .error "iderw: request not for disk 1"
  else if c.disksize ≤ b.blockno then .error "iderw: block out of range"
  else if b.dirty then
    .ok { c with
      disk := update c.disk b.blockno (copyBlock (c.disk b.blockno) b.data)
      buf := update c.buf i { b with dirty := false, valid := true } }
  else
    .ok (c.setBuf i { b with data := copyBlock b.data (c.disk b.blockno), valid := true })

/-- Record what the holder has done with its buffer. -/
def setUse (c : Bcache P) (p : P) (i : BufId) (u : Use) : Bcache P :=
  c.setBuf i { c.buf i with lock := some (p, u) }

/-- The rest of `bread`, after `bget`. -/
def fill (c : Bcache P) (p : P) (i : BufId) : Except String (Bcache P) := do
  let c ← if (c.buf i).valid then pure c else c.iderw p i
  pure (c.setUse p i .clean)

/-- A holder stores in its buffer. -/
def store (c : Bcache P) (p : P) (i : BufId) (v : Block) : Bcache P :=
  c.setBuf i { c.buf i with data := v, lock := some (p, .changed) }

/-- `b->flags |= B_DIRTY` of `log_write`. -/
def pin (c : Bcache P) (p : P) (i : BufId) : Bcache P :=
  c.setBuf i { c.buf i with dirty := true, lock := some (p, .clean) }

/-- `bwrite`. -/
def bwrite (c : Bcache P) (p : P) (i : BufId) : Except String (Bcache P) :=
  if ¬c.Holding p i then .error "bwrite"
  else do
    let c ← (c.setBuf i { c.buf i with dirty := true }).iderw p i
    pure (c.setUse p i .clean)

/-- `brelse`, up to `releasesleep`. -/
def brelse (c : Bcache P) (p : P) (i : BufId) : Except String (Bcache P) :=
  if ¬c.Holding p i then .error "brelse"
  else .ok (c.put i { c.buf i with lock := none } p (.releasing i))

/-- The section of `brelse` under `bcache.lock`. -/
def brelseEnd (c : Bcache P) (p : P) (i : BufId) : Bcache P :=
  let r := (c.buf i).refcnt - 1
  { c.put i { c.buf i with refcnt := r } p .idle with
    lru := if r = 0 then c.lru.touch i else c.lru }

section Access

variable (c : Bcache P) (i : BufId) (b : Buf P) (p : P) (k : Call)

@[simp] theorem put_buf_self : (c.put i b p k).buf i = b := update_self ..

@[simp] theorem put_call_self : (c.put i b p k).call p = k := update_self ..

@[simp] theorem put_disk : (c.put i b p k).disk = c.disk := rfl

@[simp] theorem put_disksize : (c.put i b p k).disksize = c.disksize := rfl

@[simp] theorem put_asked : (c.put i b p k).asked = c.asked := rfl

@[simp] theorem ask_buf (dev blockno : ℕ) : (c.ask p dev blockno).buf = c.buf := rfl

@[simp] theorem ask_call (dev blockno : ℕ) : (c.ask p dev blockno).call = c.call := rfl

@[simp] theorem setBuf_buf_self : (c.setBuf i b).buf i = b := update_self ..

@[simp] theorem setBuf_call : (c.setBuf i b).call = c.call := rfl

@[simp] theorem setBuf_asked : (c.setBuf i b).asked = c.asked := rfl

@[simp] theorem setBuf_disk : (c.setBuf i b).disk = c.disk := rfl

@[simp] theorem setBuf_disksize : (c.setBuf i b).disksize = c.disksize := rfl

variable {i p}

@[simp] theorem put_buf_of_ne (h : j ≠ i) : (c.put i b p k).buf j = c.buf j :=
  update_of_ne h ..

@[simp] theorem put_call_of_ne {q : P} (h : q ≠ p) : (c.put i b p k).call q = c.call q :=
  update_of_ne h ..

@[simp] theorem setBuf_buf_of_ne (h : j ≠ i) : (c.setBuf i b).buf j = c.buf j :=
  update_of_ne h ..

@[simp] theorem setBuf_setBuf (b' : Buf P) : (c.setBuf i b).setBuf i b' = c.setBuf i b' := by
  simp [setBuf]

theorem setBuf_eq_put (p : P) : c.setBuf i b = c.put i b p (c.call p) := by
  simp [setBuf, put]

end Access

end Bcache

/-! ## The invariant -/

section Buffers

variable {P : Type}

/-- What holds of one buffer. -/
structure Buf.Good (disksize : ℕ) (st : Disk) (b : Buf P) : Prop where
  /-- `bread` returns valid buffers. -/
  returned : ∀ p u, b.lock = some (p, u) → u ≠ .filling → b.valid = true
  coherent : b.valid = true → b.dev = ROOTDEV ∧ b.blockno < disksize ∧ b.data = st b.blockno
  dirty : b.dirty = true → b.valid = true

/-- The buffer is of block `blockno` of the root device. -/
structure Buf.At (blockno : ℕ) (b : Buf P) : Prop where
  dev : b.dev = ROOTDEV
  blockno : b.blockno = blockno

/-- The buffer has contents of the block that the disk may lack. -/
structure Buf.Covers (blockno : ℕ) (b : Buf P) : Prop extends b.At blockno where
  kept : b.dirty = true ∨ ∃ p, b.lock = some (p, .changed)

end Buffers

namespace Bcache

variable {P : Type} [DecidableEq P] [Fintype P]

/-- Process `p` is in `bread` and has got buffer `i` or will get it. -/
def Reading (c : Bcache P) (p : P) (i : BufId) : Prop :=
  c.call p = .waiting i ∨ (c.buf i).lock = some (p, .filling)

/-- The cache over its disk has the contents `st`. -/
structure Inv (c : Bcache P) (st : Disk) : Prop where
  unique : ∀ i j b, (c.buf i).At b → (c.buf j).At b → i = j
  refs : ∀ i, (c.buf i).refcnt = ∑ p, (c.call p).refs i + (c.buf i).lock.isSome.toNat
  good : ∀ i, (c.buf i).Good c.disksize st
  covered : ∀ b, c.disk b = st b ∨ ∃ i, (c.buf i).Covers b
  /-- `bread` gets a buffer of the block it was asked for. -/
  asks : ∀ p i, c.Reading p i → ((c.buf i).dev, (c.buf i).blockno) = c.asked p

/-- Process `p` holds buffer `i` of block `b`. -/
structure Held (c : Bcache P) (p : P) (i : BufId) (b : ℕ) (u : Use) : Prop extends
    (c.buf i).At b where
  lock : (c.buf i).lock = some (p, u)

/-- Process `p` has called `bread` of block `b`, and has got buffer `i` or will get it. -/
structure Fetch (c : Bcache P) (p : P) (i : BufId) (b : ℕ) : Prop extends (c.buf i).At b where
  state : c.call p = .waiting i ∨ ∃ u, u ≠ .changed ∧ (c.buf i).lock = some (p, u)

/-- What a step keeps of the buffers `p` refers to. -/
structure Keeps (p : P) (c c' : Bcache P) : Prop where
  fetch : ∀ i b, c.Fetch p i b → c'.Fetch p i b
  held : ∀ i b u, u ≠ .filling → c.Held p i b u → c'.Held p i b u

/-- The block is cached with `B_DIRTY`. -/
def Pins (c : Bcache P) (b : ℕ) : Prop := ∃ i, (c.buf i).At b ∧ (c.buf i).dirty = true

/-- The step writes nothing to the disk and unpins no block. -/
structure Quietly (c c' : Bcache P) : Prop where
  pins : ∀ b, c.Pins b → c'.Pins b
  disk : c'.disk = c.disk
  disksize : c'.disksize = c.disksize

variable {c c' : Bcache P} {st : Disk} {p q : P} {i : BufId}

/-- A block is in one buffer only. -/
theorem Inv.eq_of_covers (h : c.Inv st) {b : ℕ} (hi : (c.buf i).At b) (hj : (c.buf j).Covers b) :
    j = i :=
  h.unique j i b hj.toAt hi

/-- An unreferenced buffer is unlocked and nobody waits for it. -/
theorem Inv.unreferenced (h : c.Inv st) (hi : (c.buf i).refcnt = 0) :
    (c.buf i).lock = none ∧ ∀ p, (c.call p).refs i = 0 := by
  have hsum := h.refs i
  rw [hi] at hsum
  constructor
  · cases hl : (c.buf i).lock with
    | none => rfl
    | some x => simp [hl] at hsum
  · intro p
    have := weight_le_sum (Call.refs i) c.call p
    omega

/-- Who is in `bread` now has been before, and the buffer has kept its block, or it has called
`bget` for the block of the buffer. -/
theorem Inv.asks_put (h : c.Inv st) {b' : Buf P} {k : Call}
    (hid : ∀ q, c.Reading q i → (b'.dev, b'.blockno) = ((c.buf i).dev, (c.buf i).blockno))
    (hk : ∀ j, k = .waiting j → c.call p = .waiting j ∨ j = i ∧ (b'.dev, b'.blockno) = c.asked p)
    (hl : ∀ q, b'.lock = some (q, .filling) → c.Reading q i) (q : P) (j : BufId)
    (hr : (c.put i b' p k).Reading q j) :
    (((c.put i b' p k).buf j).dev, ((c.put i b' p k).buf j).blockno) = c.asked q := by
  have hold : c.Reading q j ∨ q = p ∧ j = i ∧ (b'.dev, b'.blockno) = c.asked p := by
    rcases hr with hcall | hlock
    · by_cases hqp : q = p
      · subst hqp
        exact (hk j (by simpa using hcall)).imp Or.inl fun hj => ⟨rfl, hj⟩
      · exact Or.inl (Or.inl (by simpa [hqp] using hcall))
    · by_cases hji : j = i
      · subst hji
        exact Or.inl (hl q (by simpa using hlock))
      · exact Or.inl (Or.inr (by simpa [hji] using hlock))
  rcases hold with hold | ⟨rfl, rfl, hb'⟩
  · rw [← h.asks q j hold]
    by_cases hji : j = i
    · subst hji
      rw [put_buf_self, hid q hold]
    · rw [put_buf_of_ne _ _ _ hji]
  · rw [put_buf_self, hb']

/-- One rule for the steps that replace a buffer and a call and leave the disk alone :
the new buffer keeps its block or takes one that is not cached, the counts agree, the
new buffer is good, it still covers what the old one covered, and it is the block that
was asked for. -/
theorem Inv.put (h : c.Inv st) {b' : Buf P} {k : Call}
    (hkey : ∀ b, b'.At b → (c.buf i).At b ∨ ∀ j, ¬(c.buf j).At b)
    (href : b'.refcnt + (c.call p).refs i + (c.buf i).lock.isSome.toNat =
      (c.buf i).refcnt + k.refs i + b'.lock.isSome.toNat)
    (hother : ∀ j, j ≠ i → k.refs j = (c.call p).refs j)
    (hgood : b'.Good c.disksize st)
    (hcov : ∀ b, (c.buf i).Covers b → b'.Covers b ∨ c.disk b = st b)
    (hid : ∀ q, c.Reading q i → (b'.dev, b'.blockno) = ((c.buf i).dev, (c.buf i).blockno))
    (hk : ∀ j, k = .waiting j → c.call p = .waiting j ∨ j = i ∧ (b'.dev, b'.blockno) = c.asked p)
    (hl : ∀ q, b'.lock = some (q, .filling) → c.Reading q i) : (c.put i b' p k).Inv st := by
  refine ⟨?_, ?_, ?_, ?_, h.asks_put hid hk hl⟩
  · intro j l b hj hl
    by_cases hji : j = i <;> by_cases hli : l = i
    · exact hji.trans hli.symm
    · subst hji
      rw [put_buf_self] at hj
      rw [put_buf_of_ne _ _ _ hli] at hl
      rcases hkey b hj with hk | hk
      · exact h.unique _ _ b hk hl
      · exact absurd hl (hk l)
    · subst hli
      rw [put_buf_self] at hl
      rw [put_buf_of_ne _ _ _ hji] at hj
      rcases hkey b hl with hk | hk
      · exact h.unique _ _ b hj hk
      · exact absurd hj (hk j)
    · rw [put_buf_of_ne _ _ _ hji] at hj
      rw [put_buf_of_ne _ _ _ hli] at hl
      exact h.unique _ _ b hj hl
  · intro j
    have hsum := sum_update_add (Call.refs j) c.call p k
    have hcall : (c.put i b' p k).call = update c.call p k := rfl
    have hj := h.refs j
    rw [hcall]
    by_cases hji : j = i
    · subst hji
      rw [put_buf_self]
      omega
    · have := hother j hji
      rw [put_buf_of_ne _ _ _ hji]
      omega
  · intro j
    by_cases hji : j = i
    · subst hji
      simpa using hgood
    · simpa [hji] using h.good j
  · intro b
    rcases h.covered b with hd | ⟨j, hj⟩
    · exact Or.inl hd
    · by_cases hji : j = i
      · subst hji
        rcases hcov b hj with hb | hb
        · exact Or.inr ⟨j, by simpa using hb⟩
        · exact Or.inl hb
      · exact Or.inr ⟨j, by simpa [hji] using hj⟩

/-- The rule for a step that only changes a buffer its process holds. -/
theorem Inv.setBuf (h : c.Inv st) {b' : Buf P} {u u' : Use}
    (hlock : (c.buf i).lock = some (p, u)) (hlock' : b'.lock = some (p, u')) (hu' : u' ≠ .filling)
    (hid : (b'.dev, b'.blockno) = ((c.buf i).dev, (c.buf i).blockno))
    (href : b'.refcnt = (c.buf i).refcnt)
    (hgood : b'.Good c.disksize st)
    (hcov : ∀ b, (c.buf i).Covers b → b'.Covers b ∨ c.disk b = st b) :
    (c.setBuf i b').Inv st := by
  obtain ⟨hdev, hno⟩ := Prod.mk.inj hid
  rw [setBuf_eq_put c b' p]
  refine h.put (fun b hb => Or.inl ⟨hdev ▸ hb.dev, hno ▸ hb.blockno⟩)
    (by simp [hlock, hlock', href])
    (fun _ _ => rfl) hgood hcov (fun _ _ => hid) (fun _ hj => Or.inl hj) fun q hq => ?_
  rw [hlock'] at hq
  exact absurd (congrArg Prod.snd (some.inj hq)) hu'

/-- A step at one buffer. -/
theorem Keeps.put {b' : Buf P} {k : Call}
    (hcall : ∀ j, j ≠ i → c.call p = .waiting j → (c.put i b' q k).call p = .waiting j)
    (hfetch : ∀ b, c.Fetch p i b → (c.put i b' q k).Fetch p i b)
    (hheld : ∀ b u, u ≠ .filling → c.Held p i b u → b'.At b ∧ b'.lock = some (p, u)) :
    Keeps p c (c.put i b' q k) := by
  refine ⟨fun j b hj => ?_, fun j b u hu hj => ?_⟩
  · by_cases hji : j = i
    · subst hji
      exact hfetch b hj
    · refine ⟨by simpa [hji] using hj.toAt, ?_⟩
      rw [put_buf_of_ne _ _ _ hji]
      exact hj.state.imp (hcall j hji) id
  · by_cases hji : j = i
    · subst hji
      obtain ⟨hat, hlock⟩ := hheld b u hu hj
      exact ⟨by simpa using hat, by simpa using hlock⟩
    · exact ⟨by simpa [hji] using hj.toAt, by simpa [hji] using hj.lock⟩

/-- What another process does to a buffer it holds. -/
theorem Keeps.put_of_ne {b' : Buf P} {k : Call} {u : Use} (hqp : q ≠ p)
    (hlock : (c.buf i).lock = some (q, u)) (hat : ∀ b, (c.buf i).At b → b'.At b) :
    Keeps p c (c.put i b' q k) := by
  have hne : ∀ v, (c.buf i).lock ≠ some (p, v) := by
    intro v hv
    rw [hlock] at hv
    exact hqp (congrArg Prod.fst (some.inj hv))
  refine Keeps.put ?_ ?_ fun b v _ hb => absurd hb.lock (hne v)
  · intro j _ hj
    simpa [hqp.symm] using hj
  · rintro b ⟨hb, hw | ⟨v, -, hv⟩⟩
    · exact ⟨by simpa using hat b hb, Or.inl (by simpa [hqp.symm] using hw)⟩
    · exact absurd hv (hne v)

theorem Quietly.put {b' : Buf P} {k : Call}
    (hpin : ∀ b, (c.buf i).At b → (c.buf i).dirty = true → b'.At b ∧ b'.dirty = true) :
    Quietly c (c.put i b' q k) := by
  refine ⟨?_, rfl, rfl⟩
  rintro b ⟨j, hj, hd⟩
  refine ⟨j, ?_⟩
  by_cases hji : j = i
  · subst hji
    simpa using hpin b hj hd
  · simpa [hji] using ⟨hj, hd⟩

theorem Quietly.setBuf {b' : Buf P}
    (hpin : ∀ b, (c.buf i).At b → (c.buf i).dirty = true → b'.At b ∧ b'.dirty = true) :
    Quietly c (c.setBuf i b') := by
  refine ⟨?_, rfl, rfl⟩
  rintro b ⟨j, hj, hd⟩
  refine ⟨j, ?_⟩
  by_cases hji : j = i
  · subst hji
    simpa using hpin b hj hd
  · simpa [hji] using ⟨hj, hd⟩

/-! ## `bget` and `acquiresleep` -/

/-- The first loop of `bget` finds nothing. -/
theorem find_eq_none (h : c.find dev blockno = none) (j : BufId) :
    ¬((c.buf j).dev = dev ∧ (c.buf j).blockno = blockno) := by
  simpa using List.find?_eq_none.1 h j (c.lru.complete j)

/-- `bget` takes the buffer of the block, or one that is neither referenced nor dirty
when the block is not cached. -/
theorem bget_cases (h : c.bget p dev blockno = .ok (i, c')) :
    (((c.buf i).dev = dev ∧ (c.buf i).blockno = blockno) ∧
      c' = (c.ask p dev blockno).put i { c.buf i with refcnt := (c.buf i).refcnt + 1 }
        p (.waiting i)) ∨
    ((∀ j, ¬((c.buf j).dev = dev ∧ (c.buf j).blockno = blockno)) ∧ (c.buf i).refcnt = 0 ∧
      (c.buf i).dirty = false ∧
      c' = (c.ask p dev blockno).put i
        { c.buf i with dev, blockno, valid := false, dirty := false, refcnt := 1 }
        p (.waiting i)) := by
  have hfind : (c.ask p dev blockno).find dev blockno = c.find dev blockno := rfl
  have hvict : (c.ask p dev blockno).victim = c.victim := rfl
  simp only [bget, hfind, hvict] at h
  cases hf : c.find dev blockno with
  | some j =>
    rw [hf] at h
    obtain ⟨rfl, rfl⟩ := Prod.mk.inj (Except.ok.inj h)
    have hj := List.find?_some hf
    exact Or.inl ⟨by simpa using hj, rfl⟩
  | none =>
    rw [hf] at h
    cases hv : c.victim with
    | none =>
      rw [hv] at h
      cases h
    | some j =>
      rw [hv] at h
      obtain ⟨rfl, rfl⟩ := Prod.mk.inj (Except.ok.inj h)
      have hj := List.find?_some hv
      simp only [decide_eq_true_eq] at hj
      exact Or.inr ⟨find_eq_none hf, hj.1, hj.2, rfl⟩

/-- A process in no call may call. -/
theorem Inv.ask (h : c.Inv st) (hp : c.Idle p) (dev blockno : ℕ) :
    (c.ask p dev blockno).Inv st := by
  refine { h with asks := fun q i hr => ?_ }
  have hqp : q ≠ p := by
    rintro rfl
    rcases hr with hcall | hlock
    · rw [ask_call, hp.1] at hcall
      cases hcall
    · exact hp.2 i hlock
  exact (h.asks q i hr).trans (update_of_ne hqp _ _).symm

/-- `bget` recycles only buffers that nobody needs. -/
theorem Inv.bget (h : c.Inv st) (hidle : c.Idle p) (ht : c.bget p dev blockno = .ok (i, c')) :
    c'.Inv st := by
  have hp := hidle.1
  have hask := h.ask hidle dev blockno
  have hp' : (c.ask p dev blockno).asked p = (dev, blockno) := update_self ..
  rcases bget_cases ht with ⟨hhit, rfl⟩ | ⟨hmiss, href, hd, rfl⟩
  · refine hask.put (fun b hb => Or.inl ⟨hb.dev, hb.blockno⟩) ?_ ?_ ?_ ?_ (fun _ _ => rfl)
      (fun j hj => Or.inr ⟨(Call.waiting.inj hj).symm, ?_⟩) fun q hq => Or.inr hq
    · simp [hp, Call.refs]
    · intro j hj
      simp [hp, Call.refs, hj.symm]
    · exact ⟨(h.good i).returned, (h.good i).coherent, (h.good i).dirty⟩
    · exact fun b hb => Or.inl ⟨⟨hb.dev, hb.blockno⟩, hb.kept⟩
    · rw [hp', ← hhit.1, ← hhit.2]
  · have hfree := h.unreferenced href
    refine hask.put ?_ ?_ ?_ ?_ ?_ (fun q hq => ?_)
      (fun j hj => Or.inr ⟨(Call.waiting.inj hj).symm, hp'.symm⟩) fun q hq => Or.inr hq
    · rintro b ⟨hdev, hb⟩
      exact Or.inr fun j hj => hmiss j ⟨hj.dev.trans hdev.symm, hj.blockno.trans hb.symm⟩
    · simp [hp, Call.refs, hfree.1, href]
    · intro j hj
      simp [hp, Call.refs, hj.symm]
    · exact ⟨fun q u hl => by simp [hfree.1] at hl, by simp, by simp⟩
    · rintro b ⟨-, hk⟩
      simp [hfree.1, hd] at hk
    · rcases hq with hcall | hlock
      · have := hfree.2 q
        rw [ask_call] at hcall
        simp [hcall, Call.refs] at this
      · simp [hfree.1] at hlock

/-- `bget` leaves its process waiting for a buffer of the block. -/
theorem bget_fetch (ht : c.bget p ROOTDEV blockno = .ok (i, c')) :
    c'.Fetch p i blockno := by
  rcases bget_cases ht with ⟨⟨hdev, hb⟩, rfl⟩ | ⟨-, -, -, rfl⟩
  · exact ⟨by simpa using ⟨hdev, hb⟩, Or.inl (by simp)⟩
  · exact ⟨by simpa using ⟨rfl, rfl⟩, Or.inl (by simp)⟩

theorem Keeps.of_ask (h : Keeps p (c.ask q dev blockno) c') : Keeps p c c' :=
  ⟨fun i b hf => h.fetch i b ⟨hf.toAt, hf.state⟩,
    fun i b u hu hh => h.held i b u hu ⟨hh.toAt, hh.lock⟩⟩

/-- `bget` does not touch the buffers in use. -/
theorem Inv.keeps_bget (h : c.Inv st) (hq : c.call q = .idle)
    (ht : c.bget q dev blockno = .ok (i, c')) (p : P) : Keeps p c c' := by
  -- whoever waits for a buffer is not the caller
  have hwait : ∀ {j b'}, c.call p = .waiting j →
      ((c.ask q dev blockno).put i b' q (.waiting i)).call p = .waiting j := by
    intro j b' hj
    have hpq : p ≠ q := by
      rintro rfl
      simp [hq] at hj
    simpa [hpq] using hj
  rcases bget_cases ht with ⟨-, rfl⟩ | ⟨-, href, -, rfl⟩
  · refine Keeps.of_ask (Keeps.put (fun j _ hj => hwait hj) ?_ fun b u _ hb =>
      ⟨⟨hb.dev, hb.blockno⟩, hb.lock⟩)
    exact fun b hb => ⟨by simpa using ⟨hb.dev, hb.blockno⟩, by simpa using hb.state.imp hwait id⟩
  · have hfree := h.unreferenced href
    refine Keeps.of_ask (Keeps.put (fun j _ hj => hwait hj) ?_ fun b u _ hb => by
      simpa [hfree.1] using hb.lock)
    rintro b ⟨-, hw | ⟨u, -, hu⟩⟩
    · have := hfree.2 p
      rw [ask_call] at hw
      simp [hw, Call.refs] at this
    · simp [hfree.1] at hu

theorem quietly_bget {dev blockno : ℕ} (ht : c.bget p dev blockno = .ok (i, c')) :
    Quietly c c' := by
  have hask : ∀ {c'}, Quietly (c.ask p dev blockno) c' → Quietly c c' := fun h => { h with }
  rcases bget_cases ht with ⟨-, rfl⟩ | ⟨-, -, hd, rfl⟩
  · exact hask (Quietly.put fun b hb hdirty => ⟨⟨hb.dev, hb.blockno⟩, hdirty⟩)
  · exact hask (Quietly.put fun _ _ hdirty => absurd hdirty (by simp [hd]))

/-- `acquiresleep` in `bget`. -/
theorem Inv.acquire (h : c.Inv st) (hp : c.call p = .waiting i) (hl : (c.buf i).lock = none) :
    (c.acquire p i).Inv st := by
  refine h.put (fun b hb => Or.inl ⟨hb.dev, hb.blockno⟩) ?_ ?_ ?_ ?_ (fun _ _ => rfl) (by simp) ?_
  · simp [hp, hl, Call.refs]
  · intro j hj
    simp [hp, Call.refs, hj.symm]
  · refine ⟨fun q u hu hf => ?_, (h.good i).coherent, (h.good i).dirty⟩
    simp only [some.injEq, Prod.mk.injEq] at hu
    exact absurd hu.2.symm hf
  · rintro b ⟨hb, hk⟩
    refine Or.inl ⟨⟨hb.dev, hb.blockno⟩, Or.inl ?_⟩
    simpa [hl] using hk
  · intro q hq
    obtain ⟨rfl, -⟩ := Prod.mk.inj (some.inj hq)
    exact Or.inl hp

theorem keeps_acquire (hq : c.call q = .waiting i) (hl : (c.buf i).lock = none) (p : P) :
    Keeps p c (c.acquire q i) := by
  refine Keeps.put ?_ ?_ fun b u _ hb => by simpa [hl] using hb.lock
  · intro j hji hj
    have hpq : p ≠ q := by
      rintro rfl
      exact hji (Call.waiting.inj (hj.symm.trans hq))
    simpa [hpq] using hj
  · rintro b ⟨hb, hw | ⟨u, -, hu⟩⟩
    · refine ⟨by simpa using ⟨hb.dev, hb.blockno⟩, ?_⟩
      by_cases hpq : p = q
      · subst hpq
        exact Or.inr ⟨.filling, by simp⟩
      · exact Or.inl (by simpa [hpq] using hw)
    · simp [hl] at hu

theorem quietly_acquire : Quietly c (c.acquire p i) :=
  Quietly.put fun _ hb hd => ⟨⟨hb.dev, hb.blockno⟩, hd⟩

/-! ## What a holder does -/

/-- What `iderw` does. -/
theorem iderw_cases (h : c.iderw p i = .ok c') :
    c.Holding p i ∧ (c.buf i).At (c.buf i).blockno ∧ (c.buf i).blockno < c.disksize ∧
      (((c.buf i).dirty = true ∧
        c' = { c with
          disk := update c.disk (c.buf i).blockno (c.buf i).data
          buf := update c.buf i { c.buf i with dirty := false, valid := true } }) ∨
      ((c.buf i).dirty = false ∧
        c' = c.setBuf i { c.buf i with data := c.disk (c.buf i).blockno, valid := true })) := by
  simp only [iderw, copyBlock_eq] at h
  split_ifs at h with hh hv hdev hb hd
  all_goals obtain rfl := Except.ok.inj h
  · exact ⟨hh, ⟨not_not.1 hdev, rfl⟩, not_le.1 hb, Or.inl ⟨hd, rfl⟩⟩
  · exact ⟨hh, ⟨not_not.1 hdev, rfl⟩, not_le.1 hb, Or.inr ⟨by simpa using hd, rfl⟩⟩

/-- `bread` returns the contents of its block. -/
theorem Inv.fill_eq (h : c.Inv st) (hl : (c.buf i).lock = some (p, .filling))
    (ht : c.fill p i = .ok c') :
    (c.buf i).At (c.buf i).blockno ∧ (c.buf i).blockno < c.disksize ∧
      c' = c.setBuf i { c.buf i with
        valid := true, data := st (c.buf i).blockno, lock := some (p, .clean) } := by
  unfold fill at ht
  cases hv : (c.buf i).valid with
  | true =>
    obtain ⟨hdev, hlt, hdata⟩ := (h.good i).coherent hv
    simp only [hv, if_true] at ht
    obtain rfl := Except.ok.inj ht
    refine ⟨⟨hdev, rfl⟩, hlt, ?_⟩
    rw [setUse, ← hdata, ← hv]
  | false =>
    have hclean : ¬(c.buf i).Covers (c.buf i).blockno := by
      rintro ⟨-, hd | ⟨q, hq⟩⟩
      · simp [(h.good i).dirty hd] at hv
      · simp [hl] at hq
    simp only [hv, Bool.false_eq_true, if_false] at ht
    cases hr : c.iderw p i with
    | error m =>
      rw [hr] at ht
      cases ht
    | ok c₁ =>
      rw [hr] at ht
      obtain rfl := Except.ok.inj ht
      obtain ⟨-, hat, hlt, ⟨hd, -⟩ | ⟨-, rfl⟩⟩ := iderw_cases hr
      · exact absurd ⟨hat, Or.inl hd⟩ hclean
      · -- nothing covers the block, so the disk has its contents
        have hdisk : c.disk (c.buf i).blockno = st (c.buf i).blockno := by
          rcases h.covered (c.buf i).blockno with hd | ⟨j, hj⟩
          · exact hd
          · obtain rfl := h.eq_of_covers hat hj
            exact absurd hj hclean
        exact ⟨hat, hlt, by simp [setUse, hdisk]⟩

/-- `bread` fetches the contents. -/
theorem Inv.fill (h : c.Inv st) (hl : (c.buf i).lock = some (p, .filling))
    (ht : c.fill p i = .ok c') : c'.Inv st := by
  obtain ⟨hat, hlt, rfl⟩ := h.fill_eq hl ht
  refine h.setBuf hl rfl (by simp) rfl rfl ?_ ?_
  · exact ⟨fun _ _ _ _ => rfl, fun _ => ⟨hat.dev, hlt, rfl⟩, fun _ => rfl⟩
  · rintro b ⟨hb, hk⟩
    refine Or.inl ⟨⟨hb.dev, hb.blockno⟩, Or.inl ?_⟩
    simpa [hl] using hk

theorem Inv.keeps_fill (h : c.Inv st) (hl : (c.buf i).lock = some (q, .filling))
    (ht : c.fill q i = .ok c') (p : P) : Keeps p c c' := by
  obtain ⟨-, -, rfl⟩ := h.fill_eq hl ht
  rw [setBuf_eq_put c _ q]
  refine Keeps.put ?_ ?_ ?_
  · intro j _ hj
    by_cases hpq : p = q
    · subst hpq
      simpa using hj
    · simpa [hpq] using hj
  · rintro b ⟨hb, hw | ⟨u, hu, hlock⟩⟩
    · refine ⟨by simpa using ⟨hb.dev, hb.blockno⟩, Or.inl ?_⟩
      by_cases hpq : p = q
      · subst hpq
        simpa using hw
      · simpa [hpq] using hw
    · obtain ⟨rfl, -⟩ : q = p ∧ _ := by simpa [hl] using hlock
      exact ⟨by simpa using ⟨hb.dev, hb.blockno⟩, Or.inr ⟨.clean, by simp⟩⟩
  · intro b u hu hb
    have := hb.lock
    simp only [hl, some.injEq, Prod.mk.injEq] at this
    exact absurd this.2.symm hu

theorem Inv.quietly_fill (h : c.Inv st) (hl : (c.buf i).lock = some (p, .filling))
    (ht : c.fill p i = .ok c') : Quietly c c' := by
  obtain ⟨-, -, rfl⟩ := h.fill_eq hl ht
  exact Quietly.setBuf fun b hb hd => ⟨⟨hb.dev, hb.blockno⟩, hd⟩

/-- `log_write` pins a buffer. -/
theorem Inv.pin (h : c.Inv st) {u : Use} (hl : (c.buf i).lock = some (p, u)) (hu : u ≠ .filling) :
    (c.pin p i).Inv st := by
  have hv := (h.good i).returned p u hl hu
  refine h.setBuf hl rfl (by simp) rfl rfl ?_ ?_
  · exact ⟨fun _ _ _ _ => hv, (h.good i).coherent, fun _ => hv⟩
  · exact fun b hb => Or.inl ⟨⟨hb.dev, hb.blockno⟩, Or.inl rfl⟩

theorem at_store {v : Block} {b : ℕ} :
    ((c.store p i v).buf j).At b ↔ (c.buf j).At b := by
  by_cases hji : j = i
  · subst hji
    rw [Bcache.store, setBuf_buf_self]
    exact ⟨fun h => ⟨h.dev, h.blockno⟩, fun h => ⟨h.dev, h.blockno⟩⟩
  · rw [Bcache.store, setBuf_buf_of_ne _ _ hji]

/-- A store of `v` is a store of `v` in the array. -/
theorem Inv.store (h : c.Inv st) {u : Use} (hl : (c.buf i).lock = some (p, u))
    (hu : u ≠ .filling) (v : Block) :
    (c.store p i v).Inv (update st (c.buf i).blockno v) := by
  have hv := (h.good i).returned p u hl hu
  obtain ⟨hdev, hlt, -⟩ := (h.good i).coherent hv
  have hat : (c.buf i).At (c.buf i).blockno := ⟨hdev, rfl⟩
  refine ⟨?_, ?_, ?_, ?_, ?_⟩
  · exact fun j l b hj hl' => h.unique j l b (at_store.1 hj) (at_store.1 hl')
  · intro j
    by_cases hji : j = i
    · subst hji
      simpa [Bcache.store, hl] using h.refs j
    · simpa [Bcache.store, hji] using h.refs j
  · intro j
    by_cases hji : j = i
    · subst hji
      simp only [Bcache.store, setBuf_buf_self, setBuf_disksize]
      exact ⟨fun _ _ _ _ => hv, fun _ => ⟨hdev, hlt, by simp⟩, (h.good j).dirty⟩
    · simp only [Bcache.store, setBuf_buf_of_ne _ _ hji, setBuf_disksize]
      refine ⟨(h.good j).returned, fun hvj => ?_, (h.good j).dirty⟩
      obtain ⟨hdj, hlj, hdata⟩ := (h.good j).coherent hvj
      have hne : (c.buf j).blockno ≠ (c.buf i).blockno :=
        fun he => hji (h.unique j i _ ⟨hdj, he⟩ hat)
      exact ⟨hdj, hlj, by rw [update_of_ne hne, hdata]⟩
  · intro b
    by_cases hb : b = (c.buf i).blockno
    · subst hb
      exact Or.inr ⟨i, by simpa [Bcache.store] using ⟨⟨hdev, rfl⟩, Or.inr ⟨p, rfl⟩⟩⟩
    · rw [update_of_ne hb]
      rcases h.covered b with hd | ⟨j, hj⟩
      · exact Or.inl hd
      · have hji : j ≠ i := by
          rintro rfl
          exact hb hj.blockno.symm
        exact Or.inr ⟨j, by simpa [Bcache.store, hji] using hj⟩
  · rw [Bcache.store, setBuf_eq_put c _ p]
    refine h.asks_put (fun _ _ => rfl) (fun _ hj => Or.inl hj) fun q hq => ?_
    simp at hq

theorem quietly_store {v : Block} : Quietly c (c.store p i v) :=
  Quietly.setBuf fun _ hb hd => ⟨⟨hb.dev, hb.blockno⟩, hd⟩

theorem quietly_pin : Quietly c (c.pin p i) :=
  Quietly.setBuf fun _ hb _ => ⟨⟨hb.dev, hb.blockno⟩, rfl⟩

/-- What `bwrite` does to the cache and the disk. -/
theorem bwrite_cases (ht : c.bwrite p i = .ok c') :
    c' = { c with
      disk := update c.disk (c.buf i).blockno (c.buf i).data
      buf := update c.buf i
        { c.buf i with dirty := false, valid := true, lock := some (p, .clean) } } := by
  unfold bwrite at ht
  split_ifs at ht with hh
  cases hr : (c.setBuf i { c.buf i with dirty := true }).iderw p i with
  | error m =>
    rw [hr] at ht
    cases ht
  | ok c₁ =>
    rw [hr] at ht
    obtain rfl := Except.ok.inj ht
    obtain ⟨-, -, -, ⟨-, rfl⟩ | ⟨hd, -⟩⟩ := iderw_cases hr
    · simp [setUse, setBuf]
    · simp at hd

/-- `bwrite` changes the disk under the cache and not the contents of the array. -/
theorem Inv.bwrite (h : c.Inv st) {u : Use} (hl : (c.buf i).lock = some (p, u))
    (hu : u ≠ .filling) (ht : c.bwrite p i = .ok c') : c'.Inv st := by
  have hv := (h.good i).returned p u hl hu
  obtain ⟨hdev, hlt, hdata⟩ := (h.good i).coherent hv
  obtain rfl := bwrite_cases ht
  -- first the write to the disk, which needs no cover any more, then the flags
  have hdisk : Bcache.Inv { c with
      disk := update c.disk (c.buf i).blockno (c.buf i).data } st := by
    refine { h with covered := fun b => ?_ }
    by_cases hb : b = (c.buf i).blockno
    · subst hb
      exact Or.inl (by simpa using hdata)
    · simpa [update_of_ne hb] using h.covered b
  refine hdisk.setBuf hl rfl (by simp) rfl rfl ?_ ?_
  · exact ⟨fun _ _ _ _ => rfl, fun _ => ⟨hdev, hlt, hdata⟩, by simp⟩
  · rintro b ⟨⟨-, hb⟩, -⟩
    obtain rfl : (c.buf i).blockno = b := hb
    exact Or.inr (by simpa using hdata)

/-! ## `brelse` -/

/-- What `brelse` does before it takes `bcache.lock`. -/
theorem brelse_cases (ht : c.brelse p i = .ok c') :
    (∃ u, (c.buf i).lock = some (p, u)) ∧
      c' = c.put i { c.buf i with lock := none } p (.releasing i) := by
  unfold brelse at ht
  split_ifs at ht with hh
  obtain ⟨⟨q, u⟩, hu, rfl⟩ := map_eq_some_iff.1 hh
  exact ⟨⟨u, hu⟩, (Except.ok.inj ht).symm⟩

/-- A holder that has pinned its changes lets go of the buffer. -/
theorem Inv.brelse (h : c.Inv st) {u : Use} (hp : c.call p = .idle)
    (hl : (c.buf i).lock = some (p, u)) (hu : u ≠ .changed) (ht : c.brelse p i = .ok c') :
    c'.Inv st := by
  obtain ⟨-, rfl⟩ := brelse_cases ht
  refine h.put (fun b hb => Or.inl ⟨hb.dev, hb.blockno⟩) ?_ ?_ ?_ ?_ (fun _ _ => rfl) (by simp)
    (by simp)
  · simp [hp, hl, Call.refs]
  · intro j hj
    simp [hp, Call.refs, hj.symm]
  · exact ⟨by simp, (h.good i).coherent, (h.good i).dirty⟩
  · rintro b ⟨hb, hk⟩
    refine Or.inl ⟨⟨hb.dev, hb.blockno⟩, Or.inl ?_⟩
    rcases hk with hd | ⟨q, hq⟩
    · exact hd
    · rw [hl] at hq
      exact absurd (congrArg Prod.snd (some.inj hq)) hu

theorem quietly_brelse (ht : c.brelse p i = .ok c') : Quietly c c' := by
  obtain ⟨-, rfl⟩ := brelse_cases ht
  exact Quietly.put fun _ hb hd => ⟨⟨hb.dev, hb.blockno⟩, hd⟩

theorem keeps_brelse (hqp : q ≠ p) (ht : c.brelse q i = .ok c') : Keeps p c c' := by
  obtain ⟨⟨u, hu⟩, rfl⟩ := brelse_cases ht
  exact Keeps.put_of_ne hqp hu fun b hb => ⟨hb.dev, hb.blockno⟩

/-- The second part of `brelse`. -/
theorem Inv.brelseEnd (h : c.Inv st) (hp : c.call p = .releasing i) :
    (c.brelseEnd p i).Inv st := by
  have hpos : 0 < (c.buf i).refcnt := by
    have hle := weight_le_sum (Call.refs i) c.call p
    have hone : (c.call p).refs i = 1 := by simp [hp, Call.refs]
    have := h.refs i
    omega
  have hput : (c.put i { c.buf i with refcnt := (c.buf i).refcnt - 1 } p .idle).Inv st := by
    refine h.put (fun b hb => Or.inl ⟨hb.dev, hb.blockno⟩) ?_ ?_ ?_ ?_ (fun _ _ => rfl) (by simp)
      fun q hq => Or.inr hq
    · simp only [hp, Call.refs, if_true]
      omega
    · intro j hj
      simp [hp, Call.refs, hj.symm]
    · exact ⟨(h.good i).returned, (h.good i).coherent, (h.good i).dirty⟩
    · exact fun b hb => Or.inl ⟨⟨hb.dev, hb.blockno⟩, hb.kept⟩
  exact { hput with }

theorem keeps_brelseEnd (hq : c.call q = .releasing i) (p : P) : Keeps p c (c.brelseEnd q i) := by
  have hwait : ∀ {j b'}, c.call p = .waiting j → (c.put i b' q .idle).call p = .waiting j := by
    intro j b' hj
    have hpq : p ≠ q := by
      rintro rfl
      simp [hq] at hj
    simpa [hpq] using hj
  have hput : Keeps p c (c.put i { c.buf i with refcnt := (c.buf i).refcnt - 1 } q .idle) := by
    refine Keeps.put (fun j _ hj => hwait hj) ?_ fun b u _ hb => ⟨⟨hb.dev, hb.blockno⟩, hb.lock⟩
    exact fun b hb => ⟨by simpa using ⟨hb.dev, hb.blockno⟩, by simpa using hb.state.imp hwait id⟩
  refine ⟨fun j b hj => ?_, fun j b u hu hj => ?_⟩
  · obtain ⟨hat, hst⟩ := hput.fetch j b hj
    exact ⟨hat, hst⟩
  · obtain ⟨hat, hlock⟩ := hput.held j b u hu hj
    exact ⟨hat, hlock⟩

theorem quietly_brelseEnd : Quietly c (c.brelseEnd p i) := by
  have hput : Quietly c (c.put i { c.buf i with refcnt := (c.buf i).refcnt - 1 } p .idle) :=
    Quietly.put fun _ hb hd => ⟨⟨hb.dev, hb.blockno⟩, hd⟩
  exact ⟨hput.pins, rfl, rfl⟩

end Bcache

end Xv6
