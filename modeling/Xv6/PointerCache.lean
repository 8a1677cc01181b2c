import Xv6.ArrayRefinement
import Xv6.Bio

/-!
# The two models of the buffer cache

The cache under the log has its list of buffers as a list (`Xv6.BufferCache`), and the one of
`Xv6.Bio` has the pointers of `bio.c`. `Rep s c` says that the pointers of `s` are the list of `c`
and that the buffers and the processes are the same. `pointers_follow` : what the processes do to
the cache in a run of the log, they do in a run of `bio.c` with its pointers.
-/

set_option linter.unusedSectionVars false

namespace Xv6.Bio

open Function Option

variable {P : Type} [DecidableEq P] [Fintype P]
variable {s t : Cache P} {c c' : Bcache P} {p : P} {i : BufId}

/-- The fields of a buffer, without its contents. -/
def Buffer.of (b : Buf P) : Buffer P :=
  ⟨b.dev, b.blockno, b.valid, b.dirty, b.refcnt, b.lock.map Prod.fst⟩

namespace Pc

/-- The call that a process is in the middle of. -/
def call : Pc → Call
  | locking _ _ i => .waiting i
  | releasing i => .releasing i
  | _ => .idle

/-- The buffer that a `bread` is about to test. -/
def tests : Pc → Option BufId
  | testing _ _ i => some i
  | _ => none

/-- The process is in `iderw`. Over `memide.c` that is never so between two steps. -/
def inIderw : Pc → Bool
  | reading _ _ _ => true
  | writing _ => true
  | _ => false

end Pc

/-- The pointers are the list, and the buffers and the processes are the same. -/
structure Rep (s : Cache P) (c : Bcache P) : Prop where
  ring : s.links.Ring c.lru.order
  buf : ∀ i, s.buf i = Buffer.of (c.buf i)
  call : ∀ p, c.call p = (s.pc p).call
  tests : ∀ p i, (c.buf i).lock = some (p, .filling) ↔ (s.pc p).tests = some i
  driver : ∀ p, (s.pc p).inIderw = false

namespace Rep

/-! ## Where a process is -/

section

variable (h : Rep s c)

include h

theorem pc_idle (hp : c.Idle p) : s.pc p = .idle := by
  have hcall := h.call p
  have htests := fun i => (h.tests p i).not.1 (hp.2 i)
  have hdriver := h.driver p
  cases hpc : s.pc p <;> simp_all [hp.1, Pc.call, Pc.tests, Pc.inIderw]

theorem pc_locking (hp : c.call p = .waiting i) : ∃ dev b, s.pc p = .locking dev b i := by
  have hcall := h.call p
  cases hpc : s.pc p <;> simp_all [Pc.call]

theorem pc_testing (hl : (c.buf i).lock = some (p, .filling)) :
    ∃ dev b, s.pc p = .testing dev b i := by
  have htests := (h.tests p i).1 hl
  cases hpc : s.pc p <;> simp_all [Pc.tests]

theorem pc_releasing (hp : c.call p = .releasing i) : s.pc p = .releasing i := by
  have hcall := h.call p
  cases hpc : s.pc p <;> simp_all [Pc.call]

/-! ## Steps -/

/-- One rule for all the steps. Process `p` tests no buffer but `i`, before and after, and the
others test what they did. -/
theorem put {b : Buf P} {n : Pc} (hn : n.inIderw = false)
    (hp : ∀ j, j ≠ i → (s.pc p).tests ≠ some j)
    (htests : ∀ j, n.tests = some j ↔ j = i ∧ b.lock = some (p, .filling))
    (hother : ∀ q, q ≠ p → (b.lock = some (q, .filling) ↔ (c.buf i).lock = some (q, .filling))) :
    Rep (s.put i (Buffer.of b) p n) (c.put i b p n.call) := by
  refine ⟨h.ring, fun j => ?_, fun q => ?_, fun q j => ?_, fun q => ?_⟩
  · by_cases hj : j = i
    · subst hj
      rw [Cache.put_buf_self, Bcache.put_buf_self]
    · rw [Cache.put_buf_of_ne _ _ _ hj, Bcache.put_buf_of_ne _ _ _ hj, h.buf j]
  · by_cases hq : q = p
    · subst hq
      rw [Cache.put_pc_self, Bcache.put_call_self]
    · rw [Cache.put_pc_of_ne _ _ _ hq, Bcache.put_call_of_ne _ _ _ hq, h.call q]
  · by_cases hq : q = p
    · subst hq
      rw [Cache.put_pc_self, htests]
      by_cases hj : j = i
      · subst hj
        simp
      · rw [Bcache.put_buf_of_ne _ _ _ hj, h.tests]
        simp [hj, hp j hj]
    · rw [Cache.put_pc_of_ne _ _ _ hq, ← h.tests]
      by_cases hj : j = i
      · subst hj
        rw [Bcache.put_buf_self, hother q hq]
      · rw [Bcache.put_buf_of_ne _ _ _ hj]
  · by_cases hq : q = p
    · subst hq
      rw [Cache.put_pc_self, hn]
    · rw [Cache.put_pc_of_ne _ _ _ hq, h.driver q]

/-- A process in no call does something to a buffer that it holds. -/
theorem hold (hp : c.Idle p) (hh : c.Holding p i) {b : Buf P} {u : Use} (hb : b.lock = some (p, u))
    (hu : u ≠ .filling) :
    Rep (s.put i (Buffer.of b) p .idle) (c.setBuf i b) := by
  obtain ⟨u', -, hl⟩ := BlockStore.holding_iff hp hh
  have hput := h.put (i := i) (p := p) (b := b) (n := .idle) rfl
    (by simp [h.pc_idle hp, Pc.tests]) (by simp [Pc.tests, hb, hu])
    (fun q hq => by simp [hb, hl, hq.symm])
  rwa [Bcache.setBuf_eq_put c b p, hp.1]

theorem find (dev blockno : ℕ) : s.find dev blockno = some (c.find dev blockno) := by
  rw [find_eq h.ring]
  simp only [h.buf]
  rfl

theorem victim : s.victim = some c.victim := by
  rw [victim_eq h.ring]
  simp only [h.buf]
  rfl

/-- The loops of `bget` along the pointers find the buffer that the list gives. -/
theorem bget (hp : c.Idle p) {dev blockno : ℕ} (ht : c.bget p dev blockno = .ok (i, c')) :
    ∃ t, s.step (.bread p dev blockno) = some t ∧ Rep t c' := by
  have hask : Rep s (c.ask p dev blockno) := { h with }
  have hput : ∀ j (b : Buf P), b.lock = (c.buf j).lock →
      Rep (s.put j (Buffer.of b) p (.locking dev blockno j))
        ((c.ask p dev blockno).put j b p (.waiting j)) := fun j b hb =>
    hask.put rfl (by simp [h.pc_idle hp, Pc.tests]) (by simp [Pc.tests, hb, hp.2 j])
      (fun q _ => by rw [hb]; rfl)
  simp only [Bcache.bget] at ht
  simp only [Cache.step, h.pc_idle hp, if_true, Cache.bget, hask.find, hask.victim, h.buf]
  cases hf : (c.ask p dev blockno).find dev blockno with
  | some j =>
    rw [hf] at ht
    obtain ⟨rfl, rfl⟩ := Prod.mk.inj (Except.ok.inj ht)
    exact ⟨_, rfl, hput j { c.buf j with refcnt := (c.buf j).refcnt + 1 } rfl⟩
  | none =>
    rw [hf] at ht
    cases hv : (c.ask p dev blockno).victim with
    | none =>
      rw [hv] at ht
      cases ht
    | some j =>
      rw [hv] at ht
      obtain ⟨rfl, rfl⟩ := Prod.mk.inj (Except.ok.inj ht)
      exact ⟨_, rfl, hput j
        { c.buf j with dev, blockno, valid := false, dirty := false, refcnt := 1 } rfl⟩

theorem acquire (hp : c.call p = .waiting i) (hl : (c.buf i).lock = none) :
    ∃ t, s.step (.acquire p) = some t ∧ Rep t (c.acquire p i) := by
  obtain ⟨dev, b, hpc⟩ := h.pc_locking hp
  refine ⟨_, ?_, h.put (b := { c.buf i with lock := some (p, .filling) })
    (n := .testing dev b i) rfl ?_ ?_ ?_⟩
  · simp [Cache.step, hpc, h.buf, Buffer.of, hl]
  · simp [hpc, Pc.tests]
  · simp [Pc.tests, eq_comm]
  · intro q hq
    simp [hl, hq.symm]

/-- The rest of `bread` : a test of `B_VALID`, and the driver's part if it is not set. -/
theorem fill {st : Disk} (hc : c.Inv st) (hl : (c.buf i).lock = some (p, .filling))
    (ht : c.fill p i = .ok c') :
    ∃ acts t, exec Cache.step s acts = some t ∧ Rep t c' := by
  obtain ⟨dev, b, hpc⟩ := h.pc_testing hl
  have hcall : Pc.idle.call = c.call p := by rw [h.call, hpc]; rfl
  obtain ⟨-, -, rfl⟩ := hc.fill_eq hl ht
  have hput := h.put (i := i) (p := p) (n := .idle) (b := { c.buf i with
      valid := true, data := st (c.buf i).blockno, lock := some (p, .clean) }) rfl
    (fun j hj => by simp [hpc, Pc.tests, hj.symm]) (by simp [Pc.tests])
    (fun q hq => by simp [hl, hq.symm])
  rw [hcall, ← Bcache.setBuf_eq_put] at hput
  cases hv : (c.buf i).valid with
  | true =>
    refine ⟨[.test p], _, ?_, hput⟩
    simp [exec, Cache.step, hpc, h.buf, Buffer.of, hv, hl]
  | false =>
    have hclean : (c.buf i).dirty = false := by
      by_contra hd
      simp [(hc.good i).dirty (by simpa using hd)] at hv
    refine ⟨[.test p, .ide p], _, ?_, hput⟩
    simp [exec, Cache.step, Cache.put, hpc, h.buf, Buffer.of, hv, hl, hclean]

/-- The contents of a buffer are not in the model with the pointers. -/
theorem store (hp : c.Idle p) (hh : c.Holding p i) (v : Block) :
    Rep s (c.store p i v) := by
  have hhold := h.hold hp hh (b := { c.buf i with data := v, lock := some (p, .changed) }) rfl
    (by simp)
  have hof : Buffer.of { c.buf i with data := v, lock := some (p, .changed) } = s.buf i := by
    rw [h.buf, Buffer.of, Buffer.of, hh]
    rfl
  rwa [hof, ← h.pc_idle hp, Cache.put, update_eq_self, update_eq_self] at hhold

theorem pin (hp : c.Idle p) (hh : c.Holding p i) :
    ∃ t, s.step (.mark p i) = some t ∧ Rep t (c.pin p i) := by
  obtain ⟨u, -, hl⟩ := BlockStore.holding_iff hp hh
  refine ⟨_, ?_, h.hold hp hh (b := { c.buf i with dirty := true, lock := some (p, .clean) }) rfl
    (by simp)⟩
  simp [Cache.step, h.pc_idle hp, h.buf, Buffer.of, hl]

theorem bwrite (hp : c.Idle p) (ht : c.bwrite p i = .ok c') :
    ∃ t, exec Cache.step s [.bwrite p i, .ide p] = some t ∧ Rep t c' := by
  have hh : c.Holding p i := by
    by_contra hh
    simp [Bcache.bwrite, hh] at ht
  obtain ⟨u, -, hl⟩ := BlockStore.holding_iff hp hh
  obtain rfl := Bcache.bwrite_cases ht
  have hhold := h.hold hp hh
    (b := { c.buf i with dirty := false, valid := true, lock := some (p, .clean) }) rfl (by simp)
  refine ⟨_, ?_, { hhold with }⟩
  simp [exec, Cache.step, Cache.put, h.pc_idle hp, h.buf, Buffer.of, hl]

theorem brelse (hp : c.Idle p) (ht : c.brelse p i = .ok c') :
    ∃ t, s.step (.brelse p i) = some t ∧ Rep t c' := by
  obtain ⟨⟨u, hu⟩, rfl⟩ := Bcache.brelse_cases ht
  refine ⟨_, ?_, h.put (b := { c.buf i with lock := none }) (n := .releasing i) rfl ?_ ?_ ?_⟩
  · simp [Cache.step, h.pc_idle hp, h.buf, Buffer.of, hu]
  · simp [h.pc_idle hp, Pc.tests]
  · simp [Pc.tests]
  · intro q hq
    simp [hu, hq.symm]

/-- `brelse` relinks the buffer as the list has it. -/
theorem brelseEnd (hp : c.call p = .releasing i) :
    ∃ t, s.step (.brelseEnd p) = some t ∧ Rep t (c.brelseEnd p i) := by
  have hpc := h.pc_releasing hp
  have hl : (c.buf i).lock ≠ some (p, .filling) := fun hl => by simp [h.tests, hpc, Pc.tests] at hl
  have hput := h.put (i := i) (p := p) (n := .idle)
    (b := { c.buf i with refcnt := (c.buf i).refcnt - 1 }) rfl (by simp [hpc, Pc.tests])
    (by simp [Pc.tests, hl]) (fun q _ => Iff.rfl)
  have hof : Buffer.of { c.buf i with refcnt := (c.buf i).refcnt - 1 } =
      { s.buf i with refcnt := (s.buf i).refcnt - 1 } := by
    rw [h.buf]
    rfl
  rw [hof] at hput
  refine ⟨s.brelseEnd p i, by simp [Cache.step, hpc], { hput with ring := ?_ }⟩
  have hr : (s.buf i).refcnt = (c.buf i).refcnt := by rw [h.buf]; rfl
  simp only [Cache.brelseEnd, Bcache.brelseEnd, hr]
  split_ifs
  · exact relink_ring h.ring i
  · exact h.ring

/-! ## Runs -/

theorem does {st : Disk} (hc : c.Inv st) (hd : BlockStore.Does p c c') :
    ∃ acts t, exec Cache.step s acts = some t ∧ Rep t c' := by
  have hone : ∀ a, (∃ t, s.step a = some t ∧ Rep t c') →
      ∃ acts t, exec Cache.step s acts = some t ∧ Rep t c' := fun a ⟨t, ht, hr⟩ =>
    ⟨[a], t, exec_cons_eq_some.2 ⟨t, ht, rfl⟩, hr⟩
  cases hd with
  | nothing => exact ⟨[], s, rfl, h⟩
  | bget hp ht => exact hone _ (h.bget hp ht)
  | acquire hp hl => exact hone _ (h.acquire hp hl)
  | fill hl ht => exact h.fill hc hl ht
  | store v hp hh => exact ⟨[], s, rfl, h.store hp hh v⟩
  | pin hp hh => exact hone _ (h.pin hp hh)
  | brelse hp ht => exact hone _ (h.brelse hp ht)
  | brelseEnd hp => exact hone _ (h.brelseEnd hp)

end

/-- A step of the cache with its log is a few steps of the cache with its pointers. -/
theorem step {d₀ st : Disk} {m m' : BlockStore P} {a : BlockAction P} (h : Rep s m.cache)
    (hm : m.Inv d₀ st) (ht : m.step a = some m') :
    ∃ acts t, exec Cache.step s acts = some t ∧ Rep t m'.cache := by
  rcases hm.step_does ht with hd | ⟨hp, -, hw⟩
  · exact h.does hm.cache hd
  · cases hw with
    | copy _ hw => exact ⟨_, h.bwrite hp hw⟩
    | head _ hw => exact ⟨_, h.bwrite hp hw⟩

end Rep

theorem rep_start (disk : Disk) (disksize : ℕ) :
    Rep start (BlockStore.boot P disk disksize).cache := by
  refine ⟨binit_ring, fun _ => rfl, fun _ => rfl, fun p i => ?_, fun _ => rfl⟩
  simp [BlockStore.boot, start, Pc.tests]

/-- Every run of the cache with its log, from `binit` on, is a run of `bio.c` with its pointers :
the list is the one along `next`, and the buffers and the processes are the same. -/
theorem pointers_follow {disk : Disk} {disksize : ℕ} (hsize : disksize < 2 ^ 31)
    {as : List (BlockAction P)} {m : BlockStore P}
    (h : exec BlockStore.step (.boot P disk disksize) as = some m) :
    ∃ acts s, exec Cache.step start acts = some s ∧ Rep s m.cache := by
  refine (exec_invariant_all (fun m => (∃ st, m.Inv disk st) ∧
    ∃ acts s, exec Cache.step start acts = some s ∧ Rep s m.cache) ?_
    ⟨⟨_, (BlockStore.quiescent_boot hsize).inv⟩, [], start, rfl, rep_start disk disksize⟩ h).2
  rintro m a m' ⟨⟨st, hm⟩, acts, s, hs, hr⟩ ht
  obtain ⟨acts', t, ht', hr'⟩ := hr.step hm ht
  exact ⟨hm.step ht, acts ++ acts', t, (exec_append _ _).2 ⟨s, hs, ht'⟩, hr'⟩

end Xv6.Bio
