import Xv6.Bio

/-!
# Which buffer is recycled

The list of the buffer cache is ordered by the last time that a buffer was given up by everybody.
`lastDrop` writes down along a run when the `refcnt` of each buffer last dropped to 0. The list has
the buffers in this order, the latest first, and last those that were never used, the first of
`bcache.buf` at the very end. So `bget` recycles the oldest of the unused buffers (`evicts_oldest`).
-/

namespace Xv6.Bio

open Function List Option

variable {P : Type} [DecidableEq P] [Fintype P] {s t : Cache P} {p : P} {i j : BufId}

/-- The number of steps so far, and for each buffer the step in which its `refcnt` last dropped
to 0. -/
abbrev Drops := ℕ × (BufId → Option ℕ)

/-- Buffer `i` was in use before the step and is not after it. -/
def Drop (s t : Cache P) (i : BufId) : Prop := (s.buf i).refcnt ≠ 0 ∧ (t.buf i).refcnt = 0

instance (s t : Cache P) (i : BufId) : Decidable (Drop s t i) := inferInstanceAs (Decidable (_ ∧ _))

/-- What an observer writes down. -/
def note (s : Cache P) (a : Act P) (h : Drops) : Drops :=
  (h.1 + 1, fun i =>
    match s.step a with
    | none => h.2 i
    | some t => if Drop s t i then some h.1 else h.2 i)

/-- The step in which the `refcnt` of each buffer last dropped to 0 in a run. -/
def lastDrop (acts : List (Act P)) : BufId → Option ℕ :=
  (record Cache.step note start (0, fun _ => none) acts).2

/-- Buffer `i` was given up before buffer `j`. Those that were never used are the oldest. -/
def Older (f : BufId → Option ℕ) (i j : BufId) : Prop :=
  match f i, f j with
  | none, none => i < j
  | none, some _ => True
  | some _, none => False
  | some m, some n => m < n

/-- The buffer may be recycled. -/
def Unused (s : Cache P) (i : BufId) : Prop := (s.buf i).refcnt = 0 ∧ (s.buf i).dirty = false

/-- The list is in the order of the last drops. -/
structure Ordered (s : Cache P) (h : Drops) : Prop where
  inv : Inv s
  past : ∀ i m, h.2 i = some m → m < h.1
  ring : ∃ l : Lru, s.links.Ring l.order ∧ l.order.Pairwise fun i j => Older h.2 j i

theorem ordered_start : Ordered (start : Cache P) (0, fun _ => none) := by
  refine ⟨inv_start, fun i m h => (by cases h),
    ⟨_, fun i => mem_reverse.2 (mem_finRange i)⟩, binit_ring, ?_⟩
  rw [pairwise_reverse]
  exact pairwise_lt_finRange NBUF

/-- Only a buffer that is put at the head of the list drops. -/
theorem Inv.drop_cases (h : Inv s) {a : Act P} (ht : Next s a t) :
    (t.links = s.links ∧ ∀ j, ¬ Drop s t j) ∨
      ∃ i, t.links = (s.links.unlink i).insert i ∧ ∀ j, Drop s t j ↔ j = i := by
  have hput : ∀ {i : BufId} {b : Buffer P} {q : P} {c : Pc},
      (b.refcnt = 0 → (s.buf i).refcnt = 0) → ∀ j, ¬ Drop s (s.put i b q c) j := by
    rintro i b q c hb j ⟨h1, h2⟩
    by_cases hji : j = i
    · subst hji
      rw [Cache.put_buf_self] at h2
      exact h1 (hb h2)
    · rw [Cache.put_buf_of_ne _ _ _ hji] at h2
      exact h1 h2
  cases ht with
  | bread hp ht =>
    rcases h.bget_cases ht with ⟨-, rfl⟩ | ⟨-, -, -, rfl⟩
    · exact .inl ⟨rfl, hput fun h0 => absurd h0 (Nat.succ_ne_zero _)⟩
    · exact .inl ⟨rfl, hput fun h0 => absurd h0 Nat.one_ne_zero⟩
  | @brelseEnd p i hp =>
    have hpos : (s.buf i).refcnt ≠ 0 := by
      have hone : (s.pc p).refs i = 1 := by simp [hp, Pc.refs, Pc.waits, Pc.leaves]
      have := weight_le_sum (Pc.refs i) s.pc p
      have := h.refs i
      omega
    by_cases h0 : (s.buf i).refcnt - 1 = 0
    · refine .inr ⟨i, if_pos h0, fun j => ⟨fun hj => ?_, ?_⟩⟩
      · by_contra hji
        obtain ⟨h1, h2⟩ := hj
        rw [show ((s.brelseEnd p i).buf j) = s.buf j from update_of_ne hji ..] at h2
        exact h1 h2
      · rintro rfl
        refine ⟨hpos, ?_⟩
        rw [show ((s.brelseEnd p j).buf j) = { s.buf j with refcnt := (s.buf j).refcnt - 1 } from
          update_self ..]
        exact h0
    · refine .inl ⟨if_neg h0, ?_⟩
      exact hput (i := i) (b := { s.buf i with refcnt := (s.buf i).refcnt - 1 }) (q := p)
        (c := .idle) fun h1 => absurd h1 h0
  | acquire | hit | miss | ide | bwrite | mark | brelse => exact .inl ⟨rfl, hput id⟩

theorem Older.congr {f g : BufId → Option ℕ} (h : Older f i j) (hi : g i = f i) (hj : g j = f j) :
    Older g i j := by
  unfold Older at h ⊢
  rwa [hi, hj]

theorem Ordered.step {h : Drops} (ho : Ordered s h) {a : Act P} (ht : s.step a = some t) :
    Ordered t (note s a h) := by
  have hnext := next_of_step ht
  have hnote : ∀ j, (note s a h).2 j = if Drop s t j then some h.1 else h.2 j := fun j => by
    simp only [note, ht]
  obtain ⟨l, hring, hsorted⟩ := ho.ring
  refine ⟨ho.inv.step hnext, fun j m hj => ?_, ?_⟩
  · change m < h.1 + 1
    rw [hnote] at hj
    split_ifs at hj with hd
    · obtain rfl := some.inj hj
      omega
    · have := ho.past j m hj
      omega
  · rcases ho.inv.drop_cases hnext with ⟨hlinks, hno⟩ | ⟨i, hlinks, hdrop⟩
    · have hsame : (note s a h).2 = h.2 := funext fun j => by rw [hnote, if_neg (hno j)]
      rw [hlinks, hsame]
      exact ⟨l, hring, hsorted⟩
    · have hi : (note s a h).2 i = some h.1 := by rw [hnote, if_pos ((hdrop i).2 rfl)]
      have hother : ∀ j, j ≠ i → (note s a h).2 j = h.2 j := fun j hj => by
        rw [hnote, if_neg (mt (hdrop j).1 hj)]
      rw [hlinks]
      refine ⟨l.touch i, relink_ring hring i, pairwise_cons.2 ⟨fun j hj => ?_, ?_⟩⟩
      · have hji : j ≠ i := fun he => (hring.nodup.mem_erase_iff.1 hj).1 he
        unfold Older
        rw [hi, hother j hji]
        cases hf : h.2 j with
        | none => trivial
        | some m => exact ho.past j m hf
      · refine (hsorted.sublist (erase_sublist ..)).imp_of_mem fun hj hl hold => ?_
        exact hold.congr (hother _ fun he => (hring.nodup.mem_erase_iff.1 hl).1 he)
          (hother _ fun he => (hring.nodup.mem_erase_iff.1 hj).1 he)

theorem ordered_run {acts : List (Act P)} (h : exec Cache.step start acts = some s) :
    ∃ n, Ordered s (n, lastDrop acts) := by
  have hstep : ∀ (s : Cache P) (a : Act P) (t : Cache P) (h : Drops), Ordered s h → True →
      s.step a = some t → Ordered t (note s a h) := fun _ _ _ _ ho _ ht => ho.step ht
  exact ⟨_, exec_record Ordered hstep ordered_start along_true h⟩

/-- The first hit of a scan comes before the others. -/
theorem rel_of_find? {l : List BufId} {q : BufId → Bool} {R : BufId → BufId → Prop}
    (hl : l.Pairwise R) (hi : l.find? q = some i) (hj : j ∈ l) (hq : q j = true) (hne : j ≠ i) :
    R i j := by
  obtain ⟨-, as, bs, rfl, hmiss⟩ := List.find?_eq_some_iff_append.1 hi
  rcases mem_append.1 hj with hj | hj
  · have := hmiss j hj
    rw [hq] at this
    cases this
  · exact (pairwise_cons.1 (pairwise_append.1 hl).2.1).1 j
      ((mem_cons.1 hj).resolve_left hne)

/-- The cache evicts the least recently released buffer. In every state that is reached, `bget`
returns a buffer or panics. When the block is not cached, the buffer that it recycles is unused,
and every other unused buffer was given up by everybody after it, or was never used either and
comes later in `bcache.buf`. It panics only if no buffer is unused. -/
theorem evicts_oldest {acts : List (Act P)} (h : exec Cache.step start acts = some s) (p : P)
    (dev blockno : ℕ) :
    (∃ i t, s.bget p dev blockno = some (.ok (i, t)) ∧
      ((∃ j, (s.buf j).dev = dev ∧ (s.buf j).blockno = blockno) ∨
        Unused s i ∧ ∀ j, j ≠ i → Unused s j → Older (lastDrop acts) i j)) ∨
    s.bget p dev blockno = some (.error "bget: no buffers") ∧
      ∀ i, 0 < (s.buf i).refcnt ∨ (s.buf i).dirty = true := by
  obtain ⟨n, ho⟩ := ordered_run h
  obtain ⟨l, hring, hsorted⟩ := ho.ring
  unfold Cache.bget
  rw [find_eq hring, victim_eq hring]
  cases hf : l.order.find? fun i => decide ((s.buf i).dev = dev ∧ (s.buf i).blockno = blockno) with
  | some j =>
    exact .inl ⟨j, _, rfl, .inl ⟨j, by simpa using List.find?_some hf⟩⟩
  | none =>
    cases hv : l.order.reverse.find? fun i =>
      decide ((s.buf i).refcnt = 0 ∧ (s.buf i).dirty = false) with
    | some i =>
      have hi : Unused s i := by simpa [Unused] using List.find?_some hv
      refine .inl ⟨i, _, rfl, .inr ⟨hi, fun j hji hj => ?_⟩⟩
      exact rel_of_find? (pairwise_reverse.2 hsorted) hv
        (mem_reverse.2 (l.complete j)) (decide_eq_true hj) hji
    | none =>
      refine .inr ⟨rfl, fun i => ?_⟩
      have hi := List.find?_eq_none.1 hv i (mem_reverse.2 (l.complete i))
      simp only [decide_eq_true_eq, not_and, Bool.not_eq_false] at hi
      rcases Nat.eq_zero_or_pos (s.buf i).refcnt with h0 | hpos
      · exact .inr (hi h0)
      · exact .inl hpos

/-- After a block was read and released, another one is read into a buffer that was never used. -/
theorem evicts_oldest_unused : ∃ (s t : Cache Unit),
    exec Cache.step start (readAndRelease ++ [.brelseEnd ()]) = some s ∧
      s.bget () ROOTDEV 8 = some (.ok (1, t)) ∧ Unused s 1 ∧ Unused s 0 ∧
      Older (lastDrop (readAndRelease ++ [.brelseEnd ()])) 1 0 := by
  have h : (exec Cache.step start (readAndRelease ++ [.brelseEnd ()])).map
      (fun s => ((s.bget () ROOTDEV 8).map fun r => r.toOption.map Prod.fst,
        decide (∃ j, (s.buf j).dev = ROOTDEV ∧ (s.buf j).blockno = 8),
        (s.buf 0).refcnt, (s.buf 0).dirty)) = some (some (some 1), false, 0, false) := by
    decide +kernel
  obtain ⟨s, hs, he⟩ := map_eq_some_iff.1 h
  simp only [Prod.mk.injEq, map_eq_some_iff, decide_eq_false_iff_not] at he
  obtain ⟨⟨r, hr, hone⟩, hmiss, hzero⟩ := he
  rcases evicts_oldest hs () ROOTDEV 8 with ⟨i, t, hget, hcases⟩ | ⟨herr, -⟩
  · obtain rfl := some.inj (hr.symm.trans hget)
    obtain rfl : i = 1 := by simpa [Except.toOption] using hone
    obtain ⟨hi, hold⟩ := hcases.resolve_left hmiss
    exact ⟨s, t, hs, hget, hi, hzero, hold 0 (by decide) hzero⟩
  · obtain rfl := some.inj (hr.symm.trans herr)
    simp [Except.toOption] at hone

end Xv6.Bio
