import Xv6.BufferCache
import Xv6.Linked
import Xv6.Runs

/-!
# The list of the buffer cache

`bio.c` with its pointers : `bcache.head` and the buffers are linked through `next` and `prev`,
`bget` walks along them, and `brelse` relinks a buffer by hand. The steps are the sections under
`bcache.lock`, the taking and giving up of a buffer's sleep-lock, and the driver's part of `bread`
and `bwrite`, of any number of processes. Any driver will do that sets `B_VALID` and clears
`B_DIRTY`; a panic is a step that does not happen. The contents of the buffers are left out.

`cache_represents` says that the pointers are a list of all the buffers, what `refcnt` counts, that
a buffer in use is not given to another block, and what `bread` returns. `Xv6.PointerCache`
relates this cache to the one under the log.
-/

set_option linter.unusedSectionVars false

namespace Xv6.Bio

open Function Finset Option

variable {dev blockno : ℕ} {l : List BufId}

/-- `struct buf` without its pointers and contents. The lock names its holder. -/
structure Buffer (P : Type) where
  dev : ℕ
  blockno : ℕ
  valid : Bool
  dirty : Bool
  refcnt : ℕ
  lock : Option P
deriving DecidableEq

/-- Where a process is. -/
inductive Pc where
  | idle
  /-- In `bget`, at `acquiresleep` of the buffer found. -/
  | locking (dev blockno : ℕ) (i : BufId)
  /-- In `bread`, about to test `B_VALID`. -/
  | testing (dev blockno : ℕ) (i : BufId)
  /-- In `bread`, in `iderw`. -/
  | reading (dev blockno : ℕ) (i : BufId)
  /-- In `bwrite`, in `iderw`. -/
  | writing (i : BufId)
  /-- In `brelse`, past `releasesleep`. -/
  | releasing (i : BufId)
deriving DecidableEq

/-- The cache and the processes. -/
structure Cache (P : Type) where
  links : Links BufId
  buf : BufId → Buffer P
  pc : P → Pc

/-- What the processes do next. -/
inductive Act (P : Type) where
  | bread (p : P) (dev blockno : ℕ)
  | acquire (p : P)
  | test (p : P)
  | ide (p : P)
  | bwrite (p : P) (i : BufId)
  /-- `log_write` marks a buffer. -/
  | mark (p : P) (i : BufId)
  | brelse (p : P) (i : BufId)
  | brelseEnd (p : P)

variable {P : Type} [DecidableEq P]
variable {a : Act P}

/-- The loop of `binit`. -/
def binit : Links BufId :=
  (List.finRange NBUF).foldl Links.insert ⟨fun _ => none, fun _ => none⟩

/-- The start : nothing is cached. -/
def start : Cache P := ⟨binit, fun _ => ⟨0, 0, false, false, 0, none⟩, fun _ => .idle⟩

namespace Cache

/-- Replace one buffer and the place of one process. -/
def put (s : Cache P) (i : BufId) (b : Buffer P) (p : P) (c : Pc) : Cache P :=
  { s with buf := update s.buf i b, pc := update s.pc p c }

/-- The first loop of `bget` : is the block already cached? -/
def find (s : Cache P) (dev blockno : ℕ) : Option (Option BufId) :=
  Links.scan s.links.next (fun i => (s.buf i).dev = dev ∧ (s.buf i).blockno = blockno) (NBUF + 1)
    (s.links.next none)

/-- The second loop of `bget` : an unused buffer. -/
def victim (s : Cache P) : Option (Option BufId) :=
  Links.scan s.links.prev (fun i => (s.buf i).refcnt = 0 ∧ (s.buf i).dirty = false) (NBUF + 1)
    (s.links.prev none)

/-- `bget`, up to `acquiresleep`, if its loops end. -/
def bget (s : Cache P) (p : P) (dev blockno : ℕ) : Option (Except String (BufId × Cache P)) :=
  match s.find dev blockno with
  | none => none
  | some (some i) =>
    some (.ok (i, s.put i { s.buf i with refcnt := (s.buf i).refcnt + 1 } p
      (.locking dev blockno i)))
  | some none =>
    match s.victim with
    | none => none
    | some (some i) =>
      some (.ok (i, s.put i
        { s.buf i with dev, blockno, valid := false, dirty := false, refcnt := 1 } p
        (.locking dev blockno i)))
    | some none => some (.error "bget: no buffers")

/-- The section of `brelse` under `bcache.lock`. -/
def brelseEnd (s : Cache P) (p : P) (i : BufId) : Cache P :=
  let r := (s.buf i).refcnt - 1
  { s.put i { s.buf i with refcnt := r } p .idle with
    links := if r = 0 then (s.links.unlink i).insert i else s.links }

/-- A step. -/
def step (s : Cache P) : Act P → Option (Cache P)
  | .bread p dev blockno =>
    if s.pc p = .idle then
      match s.bget p dev blockno with
      | some (.ok (_, t)) => some t
      | _ => none
    else none
  | .acquire p =>
    match s.pc p with
    | .locking dev blockno i =>
      if (s.buf i).lock = none then
        some (s.put i { s.buf i with lock := some p } p (.testing dev blockno i))
      else none
    | _ => none
  | .test p =>
    match s.pc p with
    | .testing dev blockno i =>
      some (s.put i (s.buf i) p (if (s.buf i).valid then .idle else .reading dev blockno i))
    | _ => none
  | .ide p =>
    match s.pc p with
    | .reading _ _ i => some (s.put i { s.buf i with valid := true, dirty := false } p .idle)
    | .writing i => some (s.put i { s.buf i with valid := true, dirty := false } p .idle)
    | _ => none
  | .bwrite p i =>
    if s.pc p = .idle ∧ (s.buf i).lock = some p then
      some (s.put i { s.buf i with dirty := true } p (.writing i))
    else none
  | .mark p i =>
    if s.pc p = .idle ∧ (s.buf i).lock = some p then
      some (s.put i { s.buf i with dirty := true } p .idle)
    else none
  | .brelse p i =>
    if s.pc p = .idle ∧ (s.buf i).lock = some p then
      some (s.put i { s.buf i with lock := none } p (.releasing i))
    else none
  | .brelseEnd p =>
    match s.pc p with
    | .releasing i => some (s.brelseEnd p i)
    | _ => none

end Cache

/-! ## The invariant -/

namespace Pc

/-- What a `bread` asks for, and the buffer that it has found. -/
def fetch : Pc → Option (ℕ × ℕ × BufId)
  | locking dev blockno i => some (dev, blockno, i)
  | testing dev blockno i => some (dev, blockno, i)
  | reading dev blockno i => some (dev, blockno, i)
  | _ => none

/-- The buffer that a call works on with the lock. -/
def uses : Pc → Option BufId
  | testing _ _ i => some i
  | reading _ _ i => some i
  | writing i => some i
  | _ => none

/-- The process waits for buffer `i`. -/
def waits (i : BufId) : Pc → Bool
  | locking _ _ j => j = i
  | _ => false

/-- The process has given up buffer `i`, and `refcnt` still counts it. -/
def leaves (i : BufId) : Pc → Bool
  | releasing j => j = i
  | _ => false

/-- The weight of a place in the count of buffer `i`. -/
def refs (i : BufId) (c : Pc) : ℕ := (c.waits i).toNat + (c.leaves i).toNat

end Pc

variable [Fintype P]

/-- What holds between two steps. -/
structure Inv (s : Cache P) : Prop where
  ring : ∃ l : Lru, s.links.Ring l.order
  unique : ∀ i j, (s.buf i).dev = ROOTDEV → (s.buf j).dev = (s.buf i).dev →
    (s.buf j).blockno = (s.buf i).blockno → i = j
  refs : ∀ i, (s.buf i).refcnt = ∑ p, (s.pc p).refs i + (s.buf i).lock.isSome.toNat
  fetch : ∀ p dev blockno i, (s.pc p).fetch = some (dev, blockno, i) →
    (s.buf i).dev = dev ∧ (s.buf i).blockno = blockno
  uses : ∀ p i, (s.pc p).uses = some i → (s.buf i).lock = some p

variable {s t : Cache P} {p : P} {i : BufId}

namespace Cache

variable (s) (b : Buffer P) (c : Pc)

@[simp] theorem put_buf_self : (s.put i b p c).buf i = b := update_self ..

@[simp] theorem put_buf_of_ne {j : BufId} (h : j ≠ i) : (s.put i b p c).buf j = s.buf j :=
  update_of_ne h ..

@[simp] theorem put_pc_self : (s.put i b p c).pc p = c := update_self ..

@[simp] theorem put_pc_of_ne {q : P} (h : q ≠ p) : (s.put i b p c).pc q = s.pc q :=
  update_of_ne h ..

@[simp] theorem put_links : (s.put i b p c).links = s.links := rfl

end Cache

/-- A process that works on a buffer or waits for it is counted. -/
theorem Inv.refcnt_pos (h : Inv s) (hp : (s.pc p).fetch = some (dev, blockno, i)) :
    0 < (s.buf i).refcnt := by
  rw [h.refs i]
  cases hc : s.pc p with
  | locking d b j =>
    rw [hc] at hp
    obtain ⟨-, -, rfl⟩ : d = dev ∧ b = blockno ∧ j = i := by simpa [Pc.fetch] using hp
    have hle := weight_le_sum (Pc.refs j) s.pc p
    have hone : (s.pc p).refs j = 1 := by
      rw [hc]
      simp [Pc.refs, Pc.waits, Pc.leaves]
    omega
  | testing d b j | reading d b j =>
    rw [hc] at hp
    obtain ⟨-, -, rfl⟩ : d = dev ∧ b = blockno ∧ j = i := by simpa [Pc.fetch] using hp
    simp [h.uses p j (by rw [hc]; rfl)]
  | _ =>
    rw [hc] at hp
    cases hp

/-- One rule for all the steps : the buffer keeps its block, or is unused and takes one that is
not cached; the counts agree; and whoever works on the buffer has its lock. -/
theorem Inv.put (h : Inv s) {b : Buffer P} {c : Pc}
    (hkey : b.dev = (s.buf i).dev ∧ b.blockno = (s.buf i).blockno ∨
      (s.buf i).refcnt = 0 ∧ ∀ j, ¬((s.buf j).dev = b.dev ∧ (s.buf j).blockno = b.blockno))
    (href : b.refcnt + (s.pc p).refs i + (s.buf i).lock.isSome.toNat =
      (s.buf i).refcnt + c.refs i + b.lock.isSome.toNat)
    (hother : ∀ j, j ≠ i → c.refs j = (s.pc p).refs j)
    (hfetch : ∀ dev blockno j, c.fetch = some (dev, blockno, j) →
      j = i ∧ b.dev = dev ∧ b.blockno = blockno)
    (huses : ∀ j, c.uses = some j → j = i ∧ b.lock = some p)
    (hlock : b.lock = (s.buf i).lock ∨ ∀ q, q ≠ p → (s.buf i).lock ≠ some q) :
    Inv (s.put i b p c) := by
  refine ⟨h.ring, ?_, ?_, ?_, ?_⟩
  · intro j l hj hd hb
    by_cases hji : j = i <;> by_cases hli : l = i
    · exact hji.trans hli.symm
    · rw [hji, Cache.put_buf_self] at hj hd hb
      rw [Cache.put_buf_of_ne _ _ _ hli] at hd hb
      rcases hkey with ⟨h1, h2⟩ | ⟨-, hmiss⟩
      · rw [h1] at hj hd
        rw [h2] at hb
        exact hji.trans (h.unique i l hj hd hb)
      · exact absurd ⟨hd, hb⟩ (hmiss l)
    · rw [hli, Cache.put_buf_self] at hd hb
      rw [Cache.put_buf_of_ne _ _ _ hji] at hj hd hb
      rcases hkey with ⟨h1, h2⟩ | ⟨-, hmiss⟩
      · rw [h1] at hd
        rw [h2] at hb
        exact (h.unique j i hj hd hb).trans hli.symm
      · exact absurd ⟨hd.symm, hb.symm⟩ (hmiss j)
    · rw [Cache.put_buf_of_ne _ _ _ hji] at hj hd hb
      rw [Cache.put_buf_of_ne _ _ _ hli] at hd hb
      exact h.unique j l hj hd hb
  · intro j
    have hsum := sum_update_add (Pc.refs j) s.pc p c
    have hpc : (s.put i b p c).pc = update s.pc p c := rfl
    have hj := h.refs j
    rw [hpc]
    by_cases hji : j = i
    · subst hji
      rw [Cache.put_buf_self]
      omega
    · have := hother j hji
      rw [Cache.put_buf_of_ne _ _ _ hji]
      omega
  · intro q dev blockno j hq
    by_cases hqp : q = p
    · rw [hqp, Cache.put_pc_self] at hq
      obtain ⟨rfl, hd, hb⟩ := hfetch dev blockno j hq
      rw [Cache.put_buf_self]
      exact ⟨hd, hb⟩
    · rw [Cache.put_pc_of_ne _ _ _ hqp] at hq
      obtain ⟨hd, hb⟩ := h.fetch q dev blockno j hq
      by_cases hji : j = i
      · subst hji
        rw [Cache.put_buf_self]
        rcases hkey with ⟨h1, h2⟩ | ⟨hzero, -⟩
        · exact ⟨h1.trans hd, h2.trans hb⟩
        · -- the buffer is in use
          exact absurd hzero (h.refcnt_pos hq).ne'
      · rw [Cache.put_buf_of_ne _ _ _ hji]
        exact ⟨hd, hb⟩
  · intro q j hq
    by_cases hqp : q = p
    · rw [hqp, Cache.put_pc_self] at hq
      obtain ⟨rfl, hl⟩ := huses j hq
      rw [Cache.put_buf_self, hl, hqp]
    · rw [Cache.put_pc_of_ne _ _ _ hqp] at hq
      have hl := h.uses q j hq
      by_cases hji : j = i
      · subst hji
        rw [Cache.put_buf_self]
        rcases hlock with hlock | hlock
        · rw [hlock, hl]
        · exact absurd hl (hlock q hqp)
      · rwa [Cache.put_buf_of_ne _ _ _ hji]

/-! ## The loops -/

/-- The loop of `binit`. -/
theorem ring_foldl_insert : ∀ {l m : List BufId} {k : Links BufId}, k.Ring m → (l ++ m).Nodup →
    (l.foldl Links.insert k).Ring (l.reverse ++ m)
  | [], _, _, h, _ => h
  | x :: l, m, k, h, hnd => by
    have hx : x ∉ m := fun hx => (List.nodup_cons.1 hnd).1 (List.mem_append_right l hx)
    have hnd' : (l ++ x :: m).Nodup := by
      rw [List.nodup_middle]
      exact hnd
    rw [List.reverse_cons, List.append_assoc]
    exact ring_foldl_insert (h.insert hx) hnd'

/-- `binit` links all the buffers. -/
theorem binit_ring : binit.Ring (List.finRange NBUF).reverse := by
  have := ring_foldl_insert (l := List.finRange NBUF) Links.Ring.nil
    (by simpa using List.nodup_finRange NBUF)
  rwa [List.append_nil] at this

theorem length_lt_of_ring {k : Links BufId} (h : k.Ring l) :
    l.length < NBUF + 1 := by
  have := h.nodup.length_le_card
  simp only [Fintype.card_fin] at this
  omega

/-- The first loop of `bget` goes through the ring, -/
theorem find_eq (h : s.links.Ring l) (dev blockno : ℕ) :
    s.find dev blockno =
      some (l.find? fun i => (s.buf i).dev = dev ∧ (s.buf i).blockno = blockno) :=
  h.scan _ (length_lt_of_ring h)

/-- and the second one goes backwards. -/
theorem victim_eq (h : s.links.Ring l) :
    s.victim =
      some (l.reverse.find? fun i => (s.buf i).refcnt = 0 ∧ (s.buf i).dirty = false) :=
  h.swap.scan _ (length_lt_of_ring h.swap)

/-- `bget` takes the buffer of the block, or an unused one if the block is not cached. -/
theorem Inv.bget_cases (h : Inv s) (ht : s.bget p dev blockno = some (.ok (i, t))) :
    (((s.buf i).dev = dev ∧ (s.buf i).blockno = blockno) ∧
      t = s.put i { s.buf i with refcnt := (s.buf i).refcnt + 1 } p (.locking dev blockno i)) ∨
    ((∀ j, ¬((s.buf j).dev = dev ∧ (s.buf j).blockno = blockno)) ∧ (s.buf i).refcnt = 0 ∧
      (s.buf i).dirty = false ∧
      t = s.put i { s.buf i with dev, blockno, valid := false, dirty := false, refcnt := 1 } p
        (.locking dev blockno i)) := by
  obtain ⟨l, hl⟩ := h.ring
  unfold Cache.bget at ht
  rw [find_eq hl, victim_eq hl] at ht
  cases hf : l.order.find? fun i => decide ((s.buf i).dev = dev ∧ (s.buf i).blockno = blockno) with
  | some j =>
    rw [hf] at ht
    obtain ⟨rfl, rfl⟩ := Prod.mk.inj (Except.ok.inj (some.inj ht))
    exact Or.inl ⟨by simpa using List.find?_some hf, rfl⟩
  | none =>
    have hmiss : ∀ j, ¬((s.buf j).dev = dev ∧ (s.buf j).blockno = blockno) := fun j => by
      simpa using List.find?_eq_none.1 hf j (l.complete j)
    rw [hf] at ht
    cases hv : l.order.reverse.find? fun i =>
      decide ((s.buf i).refcnt = 0 ∧ (s.buf i).dirty = false) with
    | none =>
      rw [hv] at ht
      cases ht
    | some j =>
      rw [hv] at ht
      obtain ⟨rfl, rfl⟩ := Prod.mk.inj (Except.ok.inj (some.inj ht))
      have hj : (s.buf j).refcnt = 0 ∧ (s.buf j).dirty = false := by
        simpa using List.find?_some hv
      exact Or.inr ⟨hmiss, hj.1, hj.2, rfl⟩

/-- `brelse` moves a buffer to the head of the list. -/
theorem relink_ring {k : Links BufId} {l : Lru} (h : k.Ring l.order) (i : BufId) :
    ((k.unlink i).insert i).Ring (l.touch i).order := by
  obtain ⟨m, n, hi, he, herase⟩ := List.exists_erase_eq (l.complete i)
  rw [he] at h
  have hnd := h.nodup
  rw [List.nodup_middle] at hnd
  have hring := h.unlink.insert (List.nodup_cons.1 hnd).1
  rw [← herase] at hring
  exact hring

/-! ## Runs -/

theorem inv_start : Inv (start : Cache P) := by
  refine ⟨⟨⟨_, fun i => List.mem_reverse.2 (List.mem_finRange i)⟩, binit_ring⟩, ?_, ?_, ?_, ?_⟩
  · intro i j hi
    cases hi
  · intro i
    simp [start, Pc.refs, Pc.waits, Pc.leaves]
  · intro p dev blockno i hp
    cases hp
  · intro p i hp
    cases hp

/-- `bget` finds a buffer or recycles one. -/
theorem Inv.bget (h : Inv s) (hp : s.pc p = .idle) (ht : s.bget p dev blockno = some (.ok (i, t))) :
    Inv t := by
  have hrefs : ∀ j, (s.pc p).refs j = 0 := fun j => by rw [hp]; rfl
  have hnew : ∀ j, j ≠ i → (Pc.locking dev blockno i).refs j = (s.pc p).refs j := fun j hj => by
    rw [hrefs]
    simp [Pc.refs, Pc.waits, Pc.leaves, hj.symm]
  have hone : (Pc.locking dev blockno i).refs i = 1 := by simp [Pc.refs, Pc.waits, Pc.leaves]
  rcases h.bget_cases ht with ⟨⟨hd, hb⟩, rfl⟩ | ⟨hmiss, hzero, -, rfl⟩
  · refine h.put (Or.inl ⟨rfl, rfl⟩) ?_ hnew ?_ (by simp [Pc.uses]) (Or.inl rfl)
    · simp only [hrefs, hone]
    · intro d b j hj
      simp only [Pc.fetch, some.injEq, Prod.mk.injEq] at hj
      obtain ⟨rfl, rfl, rfl⟩ := hj
      exact ⟨rfl, hd, hb⟩
  · have href := h.refs i
    refine h.put (Or.inr ⟨hzero, hmiss⟩) ?_ hnew ?_ (by simp [Pc.uses]) (Or.inl rfl)
    · simp only [hrefs, hone, hzero]
    · intro d b j hj
      simp only [Pc.fetch, some.injEq, Prod.mk.injEq] at hj
      obtain ⟨rfl, rfl, rfl⟩ := hj
      exact ⟨rfl, rfl, rfl⟩

theorem refs_eq_zero {c : Pc} (h : c = .idle ∨ c.uses.isSome = true) (j : BufId) :
    c.refs j = 0 := by
  rcases h with rfl | h
  · rfl
  · cases c with
    | testing => rfl
    | reading => rfl
    | writing => rfl
    | _ => cases h

/-- A process does something to a buffer that it holds. -/
theorem Inv.hold (h : Inv s) {b : Buffer P} {c : Pc} (hlock : (s.buf i).lock = some p)
    (hpc : s.pc p = .idle ∨ (s.pc p).uses = some i)
    (hc : c = .idle ∨ c.uses = some i) (hfetch : c.fetch = none ∨ c.fetch = (s.pc p).fetch)
    (hb : b = { s.buf i with valid := b.valid, dirty := b.dirty }) : Inv (s.put i b p c) := by
  have hp0 : ∀ j, (s.pc p).refs j = 0 := refs_eq_zero (hpc.imp_right fun hu => by rw [hu]; rfl)
  have hc0 : ∀ j, c.refs j = 0 := refs_eq_zero (hc.imp_right fun hu => by rw [hu]; rfl)
  rw [hb]
  refine h.put (Or.inl ⟨rfl, rfl⟩) ?_ (fun j _ => (hc0 j).trans (hp0 j).symm) ?_ ?_ (Or.inl rfl)
  · simp only [hp0, hc0]
  · intro dev blockno j hj
    rcases hfetch with hf | hf
    · rw [hf] at hj
      cases hj
    · rw [hf] at hj
      have hu : (s.pc p).uses = some i := hpc.resolve_left fun he => by
        rw [he] at hj
        cases hj
      have hji : j = i := by
        cases hpcp : s.pc p <;> rw [hpcp] at hj hu <;> simp [Pc.fetch, Pc.uses] at hj hu
        · exact hj.2.2.symm.trans hu
        · exact hj.2.2.symm.trans hu
      obtain ⟨hd, hbn⟩ := h.fetch p dev blockno j hj
      rw [hji] at hd hbn
      exact ⟨hji, hd, hbn⟩
  · intro j hj
    rcases hc with rfl | hc
    · cases hj
    · exact ⟨some.inj (hj.symm.trans hc), hlock⟩

/-- `acquiresleep` at the end of `bget`. -/
theorem Inv.acquire (h : Inv s) (hp : s.pc p = .locking dev blockno i)
    (hl : (s.buf i).lock = none) :
    Inv (s.put i { s.buf i with lock := some p } p (.testing dev blockno i)) := by
  have hf := h.fetch p dev blockno i (by rw [hp]; rfl)
  refine h.put (Or.inl ⟨rfl, rfl⟩) ?_ (fun j hj => ?_) ?_ ?_ (Or.inr fun q _ => by simp [hl])
  · simp [hp, hl, Pc.refs, Pc.waits, Pc.leaves]
  · simp [hp, Pc.refs, Pc.waits, Pc.leaves, hj.symm]
  · intro d b j hj
    simp only [Pc.fetch, some.injEq, Prod.mk.injEq] at hj
    obtain ⟨rfl, rfl, rfl⟩ := hj
    exact ⟨rfl, hf.1, hf.2⟩
  · intro j hj
    exact ⟨(some.inj hj).symm, rfl⟩

/-- `brelse` unlocks the buffer, -/
theorem Inv.brelse (h : Inv s) (hp : s.pc p = .idle) (hl : (s.buf i).lock = some p) :
    Inv (s.put i { s.buf i with lock := none } p (.releasing i)) := by
  refine h.put (Or.inl ⟨rfl, rfl⟩) ?_ (fun j hj => ?_) (by simp [Pc.fetch]) (by simp [Pc.uses])
    (Or.inr fun q hq => ?_)
  · simp [hp, hl, Pc.refs, Pc.waits, Pc.leaves]
  · simp [hp, Pc.refs, Pc.waits, Pc.leaves, hj.symm]
  · rw [hl]
    exact fun he => hq (some.inj he).symm

/-- and then counts one user less. -/
theorem Inv.brelseEnd (h : Inv s) (hp : s.pc p = .releasing i) : Inv (s.brelseEnd p i) := by
  have hone : (s.pc p).refs i = 1 := by simp [hp, Pc.refs, Pc.waits, Pc.leaves]
  have hpos : 0 < (s.buf i).refcnt := by
    have := weight_le_sum (Pc.refs i) s.pc p
    have := h.refs i
    omega
  have hput : Inv (s.put i { s.buf i with refcnt := (s.buf i).refcnt - 1 } p .idle) := by
    refine h.put (Or.inl ⟨rfl, rfl⟩) ?_ (fun j hj => ?_) (by simp [Pc.fetch]) (by simp [Pc.uses])
      (Or.inl rfl)
    · simp only [hone, show Pc.idle.refs i = 0 from rfl]
      omega
    · simp [hp, Pc.refs, Pc.waits, Pc.leaves, hj.symm]
  refine { hput with ring := ?_ }
  obtain ⟨l, hl⟩ := h.ring
  simp only [Cache.brelseEnd]
  split_ifs
  · exact ⟨l.touch i, relink_ring hl i⟩
  · exact ⟨l, hl⟩

/-- What a step does. -/
inductive Next (s : Cache P) : Act P → Cache P → Prop where
  | bread {p : P} {dev blockno : ℕ} {i : BufId} {t : Cache P} (hp : s.pc p = .idle)
      (ht : s.bget p dev blockno = some (.ok (i, t))) : Next s (.bread p dev blockno) t
  | acquire {p : P} {dev blockno : ℕ} {i : BufId} (hp : s.pc p = .locking dev blockno i)
      (hl : (s.buf i).lock = none) :
      Next s (.acquire p) (s.put i { s.buf i with lock := some p } p (.testing dev blockno i))
  | hit {p : P} {dev blockno : ℕ} {i : BufId} (hp : s.pc p = .testing dev blockno i)
      (hv : (s.buf i).valid = true) :
      Next s (.test p) (s.put i (s.buf i) p .idle)
  | miss {p : P} {dev blockno : ℕ} {i : BufId} (hp : s.pc p = .testing dev blockno i)
      (hv : (s.buf i).valid = false) :
      Next s (.test p) (s.put i (s.buf i) p (.reading dev blockno i))
  | ide {p : P} {i : BufId}
      (hp : (∃ dev blockno, s.pc p = .reading dev blockno i) ∨ s.pc p = .writing i) :
      Next s (.ide p) (s.put i { s.buf i with valid := true, dirty := false } p .idle)
  | bwrite {p : P} {i : BufId} (hp : s.pc p = .idle) (hl : (s.buf i).lock = some p) :
      Next s (.bwrite p i) (s.put i { s.buf i with dirty := true } p (.writing i))
  | mark {p : P} {i : BufId} (hp : s.pc p = .idle) (hl : (s.buf i).lock = some p) :
      Next s (.mark p i) (s.put i { s.buf i with dirty := true } p .idle)
  | brelse {p : P} {i : BufId} (hp : s.pc p = .idle) (hl : (s.buf i).lock = some p) :
      Next s (.brelse p i) (s.put i { s.buf i with lock := none } p (.releasing i))
  | brelseEnd {p : P} {i : BufId} (hp : s.pc p = .releasing i) :
      Next s (.brelseEnd p) (s.brelseEnd p i)

theorem next_of_step (h : s.step a = some t) : Next s a t := by
  cases a with
  | bread p dev blockno =>
    simp only [Cache.step] at h
    split_ifs at h with hp
    split at h
    · rename_i i u hu
      obtain rfl := some.inj h
      exact .bread hp hu
    · cases h
  | acquire p =>
    simp only [Cache.step] at h
    split at h
    · rename_i dev blockno i hp
      split_ifs at h with hl
      obtain rfl := some.inj h
      exact .acquire hp hl
    · cases h
  | test p =>
    simp only [Cache.step] at h
    split at h
    · rename_i dev blockno i hp
      cases hv : (s.buf i).valid <;> rw [hv] at h <;> obtain rfl := some.inj h
      · exact .miss hp hv
      · exact .hit hp hv
    · cases h
  | ide p =>
    simp only [Cache.step] at h
    split at h
    · rename_i dev blockno i hp
      obtain rfl := some.inj h
      exact .ide (Or.inl ⟨dev, blockno, hp⟩)
    · rename_i i hp
      obtain rfl := some.inj h
      exact .ide (Or.inr hp)
    · cases h
  | bwrite p i =>
    simp only [Cache.step] at h
    split_ifs at h with hp
    obtain rfl := some.inj h
    exact .bwrite hp.1 hp.2
  | mark p i =>
    simp only [Cache.step] at h
    split_ifs at h with hp
    obtain rfl := some.inj h
    exact .mark hp.1 hp.2
  | brelse p i =>
    simp only [Cache.step] at h
    split_ifs at h with hp
    obtain rfl := some.inj h
    exact .brelse hp.1 hp.2
  | brelseEnd p =>
    simp only [Cache.step] at h
    split at h
    · rename_i i hp
      obtain rfl := some.inj h
      exact .brelseEnd hp
    · cases h

theorem Inv.step (h : Inv s) (ht : Next s a t) : Inv t := by
  cases ht with
  | bread hp ht => exact h.bget hp ht
  | acquire hp hl => exact h.acquire hp hl
  | @hit p dev blockno i hp hv =>
    have hu : (s.pc p).uses = some i := by rw [hp]; rfl
    exact h.hold (h.uses _ _ hu) (Or.inr hu) (Or.inl rfl) (Or.inl rfl) rfl
  | @miss p dev blockno i hp hv =>
    have hu : (s.pc p).uses = some i := by rw [hp]; rfl
    exact h.hold (h.uses _ _ hu) (Or.inr hu) (Or.inr rfl) (Or.inr (by rw [hp]; rfl)) rfl
  | @ide p i hp =>
    have hu : (s.pc p).uses = some i := by
      rcases hp with ⟨dev, blockno, hp⟩ | hp <;> rw [hp] <;> rfl
    exact h.hold (h.uses _ _ hu) (Or.inr hu) (Or.inl rfl) (Or.inl rfl) rfl
  | bwrite hp hl => exact h.hold hl (Or.inl hp) (Or.inr rfl) (Or.inl rfl) rfl
  | mark hp hl => exact h.hold hl (Or.inl hp) (Or.inl rfl) (Or.inl rfl) rfl
  | brelse hp hl => exact h.brelse hp hl
  | brelseEnd hp => exact h.brelseEnd hp

/-- The invariant holds in every run. -/
theorem inv_run {acts : List (Act P)} (h : exec Cache.step start acts = some s) : Inv s :=
  exec_invariant_all Inv (fun _ _ _ h ht => h.step (next_of_step ht)) inv_start h

/-- A step gives a buffer to another block only if the buffer is unused. -/
theorem Inv.block_eq (h : Inv s) (ht : Next s a t) {j : BufId}
    (hj : 0 < (s.buf j).refcnt ∨ (s.buf j).dirty = true) :
    (t.buf j).dev = (s.buf j).dev ∧ (t.buf j).blockno = (s.buf j).blockno := by
  have hput : ∀ {i : BufId} {b : Buffer P} {p : P} {c : Pc}, b.dev = (s.buf i).dev →
      b.blockno = (s.buf i).blockno → ((s.put i b p c).buf j).dev = (s.buf j).dev ∧
        ((s.put i b p c).buf j).blockno = (s.buf j).blockno := by
    intro i b p c hd hb
    by_cases hji : j = i
    · subst hji
      rw [Cache.put_buf_self]
      exact ⟨hd, hb⟩
    · rw [Cache.put_buf_of_ne _ _ _ hji]
      exact ⟨rfl, rfl⟩
  cases ht with
  | @bread p dev blockno i _ hp ht =>
    rcases h.bget_cases ht with ⟨-, rfl⟩ | ⟨-, hzero, hclean, rfl⟩
    · exact hput rfl rfl
    · have hji : j ≠ i := by
        rintro rfl
        rcases hj with hj | hj
        · omega
        · rw [hclean] at hj
          cases hj
      rw [Cache.put_buf_of_ne _ _ _ hji]
      exact ⟨rfl, rfl⟩
  | @brelseEnd p i hp =>
    exact hput (i := i) (b := { s.buf i with refcnt := (s.buf i).refcnt - 1 }) (p := p) (c := .idle)
      rfl rfl
  | _ => exact hput rfl rfl

/-- What `bread` returns. -/
theorem Inv.returns (h : Inv s) (ht : Next s a t)
    (hp : s.pc p = .testing dev blockno i ∨ s.pc p = .reading dev blockno i)
    (hidle : t.pc p = .idle) :
    (t.buf i).dev = dev ∧ (t.buf i).blockno = blockno ∧ (t.buf i).valid = true ∧
      (t.buf i).lock = some p := by
  have hu : (s.pc p).uses = some i := by rcases hp with hp | hp <;> rw [hp] <;> rfl
  have hf : (s.pc p).fetch = some (dev, blockno, i) := by
    rcases hp with hp | hp <;> rw [hp] <;> rfl
  have hne : s.pc p ≠ .idle := fun he => by
    rw [he] at hu
    cases hu
  have hblock := h.block_eq ht (Or.inl (h.refcnt_pos hf))
  obtain ⟨hd, hb⟩ := h.fetch p dev blockno i hf
  refine ⟨hblock.1.trans hd, hblock.2.trans hb, ?_⟩
  have hlock := h.uses p i hu
  -- the step is one of the process itself, for it ends a call
  have hself : ∀ {q : P} {c : Pc}, update s.pc q c p = .idle → q = p := by
    intro q c he
    by_contra hqp
    rw [update_of_ne (Ne.symm hqp)] at he
    exact hne he
  cases ht with
  | bread hq ht =>
    rcases h.bget_cases ht with ⟨-, rfl⟩ | ⟨-, -, -, rfl⟩ <;>
      exact absurd (hself hidle ▸ hq) hne
  | acquire hq hl | brelseEnd hq =>
    obtain rfl := hself hidle
    rw [hq] at hu
    cases hu
  | hit hq hv =>
    obtain rfl := hself hidle
    rw [hq] at hu
    obtain rfl := some.inj hu
    rw [Cache.put_buf_self]
    exact ⟨hv, hlock⟩
  | miss hq hv =>
    obtain rfl := hself hidle
    simp at hidle
  | @ide q j hq =>
    obtain rfl := hself hidle
    have hju : (s.pc q).uses = some j := by
      rcases hq with ⟨d, b, hq⟩ | hq <;> rw [hq] <;> rfl
    obtain rfl := some.inj (hju.symm.trans hu)
    rw [Cache.put_buf_self]
    exact ⟨rfl, hlock⟩
  | bwrite hq hl | mark hq hl | brelse hq hl => exact absurd (hself hidle ▸ hq) hne

/-- The number of processes that hold buffer `i`. -/
def holders (s : Cache P) (i : BufId) : ℕ := #{p | (s.buf i).lock = some p}

/-- The number of processes that wait for buffer `i`. -/
def waiters (s : Cache P) (i : BufId) : ℕ := #{p | (s.pc p).waits i}

/-- The number of processes in `brelse` that have given up buffer `i`. -/
def leavers (s : Cache P) (i : BufId) : ℕ := #{p | (s.pc p).leaves i}

theorem holders_eq : holders s i = (s.buf i).lock.isSome.toNat := by
  unfold holders
  cases (s.buf i).lock with
  | none => simp
  | some p => simp [filter_eq]

theorem waiters_add_leavers : waiters s i + leavers s i = ∑ p, (s.pc p).refs i := by
  simp only [waiters, leavers, card_filter, ← sum_add_distrib, Pc.refs, Bool.toNat, cond_eq_ite]

/-- The representation of the buffer cache. In every state that is reached, the buffers and the
head are linked in a circle, each buffer once; no two buffers are of one block of the root
device; `refcnt` counts who holds the buffer, who waits for it, and who has given it up in
`brelse` and not yet taken `bcache.lock`; no step gives a buffer that is counted or dirty
to another block; and the buffer that a `bread` returns is of the block asked for, valid, and
held by the caller, and nobody else works on it. -/
theorem cache_represents {acts : List (Act P)} (h : exec Cache.step start acts = some s) :
    (∃ l : List BufId, (∀ i, i ∈ l) ∧ s.links.Ring l) ∧
    (∀ i j, (s.buf i).dev = ROOTDEV → (s.buf j).dev = (s.buf i).dev →
      (s.buf j).blockno = (s.buf i).blockno → i = j) ∧
    (∀ i, (s.buf i).refcnt = holders s i + waiters s i + leavers s i) ∧
    ∀ a t, s.step a = some t →
      (∀ i, 0 < (s.buf i).refcnt ∨ (s.buf i).dirty = true →
        (t.buf i).dev = (s.buf i).dev ∧ (t.buf i).blockno = (s.buf i).blockno) ∧
      ∀ p dev blockno i,
        s.pc p = .testing dev blockno i ∨ s.pc p = .reading dev blockno i → t.pc p = .idle →
        (t.buf i).dev = dev ∧ (t.buf i).blockno = blockno ∧ (t.buf i).valid = true ∧
          (t.buf i).lock = some p ∧ ∀ q, (t.pc q).uses = some i → q = p := by
  have hinv := inv_run h
  obtain ⟨l, hl⟩ := hinv.ring
  refine ⟨⟨l.order, l.complete, hl⟩, hinv.unique, fun i => ?_, fun a t ht => ?_⟩
  · rw [hinv.refs i, ← waiters_add_leavers, holders_eq]
    omega
  · have hnext := next_of_step ht
    refine ⟨fun i hi => hinv.block_eq hnext hi, fun p dev blockno i hp hidle => ?_⟩
    obtain ⟨hd, hb, hv, hlock⟩ := hinv.returns hnext hp hidle
    refine ⟨hd, hb, hv, hlock, fun q hq => ?_⟩
    have := (hinv.step hnext).uses q i hq
    rw [hlock] at this
    exact (some.inj this).symm

/-- One process reads a block and has just given up the lock of its buffer, and then ends
`brelse`. -/
def readAndRelease : List (Act Unit) :=
  [.bread () ROOTDEV 7, .acquire (), .test (), .ide (), .brelse () 0]

/-- Nobody holds the buffer or waits for it, and `refcnt` is 1. -/
theorem refcnt_of_leaver : ∃ s : Cache Unit, exec Cache.step start readAndRelease = some s ∧
    (s.buf 0).refcnt = 1 ∧ holders s 0 = 0 ∧ waiters s 0 = 0 := by
  have h : (exec Cache.step start readAndRelease).map
      (fun s => ((s.buf 0).refcnt, holders s 0, waiters s 0)) = some (1, 0, 0) := by
    decide +kernel
  obtain ⟨s, hs, he⟩ := map_eq_some_iff.1 h
  simp only [Prod.mk.injEq] at he
  exact ⟨s, hs, he⟩

theorem cache_represents_read : ∃ s t : Cache Unit,
    exec Cache.step start (readAndRelease.take 3) = some s ∧ s.step (.ide ()) = some t ∧
      (t.buf 0).dev = ROOTDEV ∧ (t.buf 0).blockno = 7 ∧ (t.buf 0).lock = some () := by
  have h : (exec Cache.step start (readAndRelease.take 3)).map
      (fun s => (s.pc (), (s.step (.ide ())).map fun t => t.pc ())) =
        some (.reading ROOTDEV 7 0, some .idle) := by
    decide +kernel
  obtain ⟨s, hs, he⟩ := map_eq_some_iff.1 h
  simp only [Prod.mk.injEq, map_eq_some_iff] at he
  obtain ⟨hp, t, ht, hidle⟩ := he
  have hret := ((cache_represents hs).2.2.2 _ t ht).2 () ROOTDEV 7 0 (Or.inr hp) hidle
  exact ⟨s, t, hs, ht, hret.1, hret.2.1, hret.2.2.2.1⟩

end Xv6.Bio
