import Xv6.Extent
import Xv6.Exclusive

/-!
# The volume

The inodes of a volume are a family `X : ℕ → Option Extent`, `none` for a free inode. A
process that has allocated a block and not yet stored its address anywhere has it
pending. `Vol` says that the disk holds the extents and that the blocks are exclusively
owned : the bitmap marks the metadata, the blocks of the inodes and the pending blocks,
no block belongs to two places, and the bitmap marks no other block.

Each lemma of the second part is one step of the kernel on blocks : it changes the disk
and one inode or one pending block, and keeps `Vol`.
-/

set_option linter.unusedSectionVars false

namespace Xv6

open Option Function

variable {P : Type}

/-- The places that hold blocks : block `k` of inode `i`, and the pending block of a process. -/
def place (X : ℕ → Option Extent) (pend : P → Option (ℕ × Bool)) : (ℕ × ℕ) ⊕ P → ℕ
  | .inl (i, k) => (X i).elim 0 fun x => x.ptr k
  | .inr p => (pend p).elim 0 Prod.fst

/-- An allocated inode is on the disk as it should be. -/
structure Sound (M : Mount) (Good : Extent → Prop) (d : Disk) (i : ℕ) (x : Extent) : Prop where
  lt : i < M.sb.ninodes
  onDisk : x.OnDisk d
  type : x.din.type ≠ 0
  good : x.cut = 0 → Good x

/-- The disk holds the inodes `X`, and every block in use is in one place. The flag of a
pending block says that it has been zeroed. -/
structure Vol (M : Mount) (Good : Extent → Prop) (d : Disk) (X : ℕ → Option Extent)
    (pend : P → Option (ℕ × Bool)) : Prop where
  excl : Exclusive M.Data (fun b => M.inUse d b = true) (place X pend)
  metaUse : ∀ b < M.nmeta, M.inUse d b = true
  inode : ∀ i x, X i = some x → Sound M Good d i x
  pending : ∀ p b z, pend p = some (b, z) → M.Data b
  zeroed : ∀ p b, pend p = some (b, true) → d b = Bytes.zero BSIZE

theorem forall_update {α : Type} {X : ℕ → Option α} {R : ℕ → α → Prop} {i : ℕ} {o : Option α}
    (hi : ∀ x, o = some x → R i x) (hX : ∀ j x, j ≠ i → X j = some x → R j x) (j : ℕ) (x : α)
    (hj : update X i o j = some x) : R j x :=
  update_cases j (hi x) (hX j x) hj

section Place

variable [DecidableEq P] {X : ℕ → Option Extent} {pend : P → Option (ℕ × Bool)} {i : ℕ}
  {x y : Extent} {p : P}

theorem place_inode (hi : X i = some x) (k : ℕ) : place X pend (.inl (i, k)) = x.ptr k := by
  simp [place, hi]

theorem place_of_ptr {k b : ℕ} (hi : X i = some x) (hy : y.ptr = update x.ptr k b) :
    place (update X i (some y)) pend =
      update (place X pend) (.inl (i, k)) b := by
  funext o
  rcases o with ⟨j, l⟩ | q
  · by_cases hj : j = i
    · subst hj
      by_cases hl : l = k
      · simp [place, hy, hl]
      · simp [place, hy, hl, hi]
    · simp [place, hj]
  · rfl

theorem place_of_ptr_eq {y : Option Extent}
    (hy : ∀ k, y.elim 0 (fun y => y.ptr k) = (X i).elim 0 fun x => x.ptr k) :
    place (update X i y) pend = place X pend := by
  funext o
  rcases o with ⟨j, l⟩ | q
  · by_cases hj : j = i
    · subst hj
      simpa [place] using hy l
    · simp [place, hj]
  · rfl

theorem place_pend (o : Option (ℕ × Bool)) :
    place X (update pend p o) =
      update (place X pend) (.inr p) (o.elim 0 Prod.fst) := by
  funext r
  rcases r with ⟨j, l⟩ | q
  · simp [place]
  · by_cases hq : q = p
    · subst hq
      simp [place]
    · simp [place, hq]

end Place

namespace Vol

variable [DecidableEq P] {M : Mount} {Good : Extent → Prop} {d d' : Disk}
  {X : ℕ → Option Extent} {pend : P → Option (ℕ × Bool)} {i : ℕ} {x y : Extent} {p : P} {b : ℕ}

section

variable (h : Vol M Good d X pend)

include h

theorem data_ptr (hi : X i = some x) {k : ℕ} (hk : x.ptr k ≠ 0) :
    M.Data (x.ptr k) := by
  have := h.excl.mem (.inl (i, k)) (by rwa [place_inode hi])
  rwa [place_inode hi] at this

/-- The blocks of one inode are distinct, and distinct from those of any other. -/
theorem ptr_inj {j k l : ℕ} (hi : X i = some x) (hj : X j = some y) (hk : x.ptr k ≠ 0)
    (he : x.ptr k = y.ptr l) : i = j ∧ k = l := by
  have := h.excl.inj (.inl (i, k)) (.inl (j, l)) (by rwa [place_inode hi])
    (by rw [place_inode hi, place_inode hj, he])
  simpa using this

theorem ptr_ne_pend {k : ℕ} {z : Bool} (hi : X i = some x) (hk : x.ptr k ≠ 0)
    (hp : pend p = some (b, z)) : x.ptr k ≠ b := by
  intro he
  have := h.excl.inj (.inl (i, k)) (.inr p) (by rwa [place_inode hi])
    (by rw [place_inode hi, he]; simp [place, hp])
  simp at this

theorem pend_inj {q : P} {z z' : Bool} (hp : pend p = some (b, z)) (hq : pend q = some (b, z')) :
    p = q := by
  have hb : b ≠ 0 := fun hb => Mount.not_data_zero (hb ▸ h.pending p b z hp)
  have := h.excl.inj (.inr p) (.inr q) (by simpa [place, hp] using hb) (by simp [place, hp, hq])
  simpa using this

/-! ## Steps on the metadata -/

/-- Writing a metadata block changes no extent. -/
theorem sound_meta (hi : X i = some x) (hd : ∀ c, M.nmeta ≤ c → d' c = d c) : Sound M Good d' i x :=
  { h.inode i x hi with
    onDisk := (h.inode i x hi).onDisk.congr fun _ hl => hd _ (h.data_ptr hi hl).1 }

theorem zeroed_meta (hp : pend p = some (b, true)) (hd : ∀ c, M.nmeta ≤ c → d' c = d c) :
    d' b = Bytes.zero BSIZE := by
  rw [hd b (h.pending p b true hp).1, h.zeroed p b hp]

/-- Storing an inode. -/
theorem putDinode (hi : i < M.sb.ninodes) (din : Dinode) :
    Vol M Good (M.putDinode d i din) X pend := by
  have hd : ∀ c, M.nmeta ≤ c → M.putDinode d i din c = d c := fun c hc =>
    Mount.putDinode_of_ne ((Mount.iblock_lt_nmeta hi).trans_le hc).ne din
  have huse : ∀ c, M.inUse (M.putDinode d i din) c = M.inUse d c := fun c =>
    Mount.inUse_update (Mount.iblock_ne_bblock hi c).symm _
  exact
    { excl := h.excl.congr fun c _ => by rw [huse]
      metaUse := fun c hc => by rw [huse, h.metaUse c hc]
      inode := fun j y hj => h.sound_meta hj hd
      pending := h.pending
      zeroed := fun q c hq => h.zeroed_meta hq hd }

/-- `balloc` marks a free block. -/
theorem take (hp : pend p = none) (hb : b < M.sb.size) (hfree : M.inUse d b = false) :
    Vol M Good (M.setUse d b) X (update pend p (some (b, false))) := by
  have hd : ∀ c, M.nmeta ≤ c → M.setUse d b c = d c := fun c hc =>
    update_of_ne ((Mount.bblock_lt hb).trans_le hc).ne' _ _
  have hdata : M.Data b := by
    refine ⟨not_lt.1 fun hlt => ?_, hb⟩
    simp [h.metaUse b hlt] at hfree
  have hpl : place X pend (.inr p) = 0 := by simp [place, hp]
  refine
    { excl := ?_
      metaUse := fun c hc => by rw [Mount.inUse_setUse, h.metaUse c hc, Bool.true_or]
      inode := fun j y hj => h.sound_meta hj hd
      pending := fun q => update_cases q ?_ fun _ => h.pending q
      zeroed := fun q => update_cases q (by simp) fun _ _ hq => h.zeroed_meta hq hd }
  · rw [place_pend]
    refine h.excl.take hpl hdata (by simp [hfree]) fun c _ => ?_
    rw [Mount.inUse_setUse, Bool.or_eq_true, decide_eq_true_eq]
    exact or_congr_right eq_comm
  · rintro c z ⟨⟩
    exact hdata

/-- `bfree` of a block that the inode gives up. -/
theorem drop (hi : X i = some x) {k : ℕ} (hk : x.ptr k ≠ 0) (hy : y.ptr = update x.ptr k 0)
    (hs : Sound M Good d i y) :
    Vol M Good (M.clearUse d (x.ptr k)) (update X i (some y)) pend := by
  have hdata := h.data_ptr hi hk
  have hd : ∀ c, M.nmeta ≤ c → M.clearUse d (x.ptr k) c = d c := fun c hc =>
    update_of_ne ((Mount.bblock_lt hdata.2).trans_le hc).ne' _ _
  have hpl : place X pend (.inl (i, k)) = x.ptr k := place_inode hi k
  have hy' : ∀ l, y.ptr l ≠ 0 → M.clearUse d (x.ptr k) (y.ptr l) = d (y.ptr l) := by
    intro l hl
    rw [hy] at hl ⊢
    have hlk : l ≠ k := fun e => hl (by rw [e, update_self])
    rw [update_of_ne hlk] at hl ⊢
    exact hd _ (h.data_ptr hi hl).1
  refine
    { excl := ?_
      metaUse := fun c hc => ?_
      inode := forall_update ?_ fun j z _ hj => h.sound_meta hj hd
      pending := h.pending
      zeroed := fun q c hq => h.zeroed_meta hq hd }
  · rw [place_of_ptr hi hy]
    refine h.excl.drop (by rwa [hpl]) fun c _ => ?_
    rw [Mount.inUse_clearUse, hpl, Bool.and_eq_true, Bool.not_eq_true', decide_eq_false_iff_not]
    exact and_congr_right fun _ => ne_comm
  · have hne : x.ptr k ≠ c := by
      have := hdata.1
      omega
    simp [Mount.inUse_clearUse, h.metaUse c hc, hne]
  · rintro z ⟨⟩
    exact { hs with onDisk := hs.onDisk.congr hy' }

end

/-! ## Steps on the blocks of one inode -/

/-- The disk after a step that writes at most one block, which the extent has. -/
def OwnWrite (x : Extent) (d d' : Disk) : Prop :=
  d' = d ∨ ∃ k blk, x.ptr k ≠ 0 ∧ d' = update d (x.ptr k) blk

theorem OwnWrite.eq_of_ne {c : ℕ} (hw : OwnWrite x d d') (hc : ∀ k, x.ptr k ≠ 0 → x.ptr k ≠ c) :
    d' c = d c := by
  rcases hw with rfl | ⟨k, blk, hk, rfl⟩
  · rfl
  · exact update_of_ne (hc k hk).symm _ _

section

variable (h : Vol M Good d X pend)

include h

/-- A step that writes its own blocks leaves the bitmap, the other inodes and the pending
blocks alone. -/
theorem inUse_ownWrite (hi : X i = some x) (hw : OwnWrite x d d') {c : ℕ} (hc : c < M.sb.size) :
    M.inUse d' c = M.inUse d c := by
  unfold Mount.inUse
  rw [hw.eq_of_ne fun k hk => ((h.data_ptr hi hk).ne_bblock hc).symm]

theorem sound_ownWrite (hi : X i = some x) (hw : OwnWrite x d d') {j : ℕ} (hji : j ≠ i)
    (hj : X j = some y) : Sound M Good d' j y :=
  { h.inode j y hj with
    onDisk := (h.inode j y hj).onDisk.congr fun _ hl =>
      hw.eq_of_ne fun _ _ he => hji (h.ptr_inj hj hi hl he.symm).1 }

theorem zeroed_ownWrite (hi : X i = some x) (hw : OwnWrite x d d') (hp : pend p = some (b, true)) :
    d' b = Bytes.zero BSIZE := by
  rw [hw.eq_of_ne fun k hk => h.ptr_ne_pend hi hk hp, h.zeroed p b hp]

theorem metaUse_ownWrite (hi : X i = some x) (hw : OwnWrite x d d') {c : ℕ} (hc : c < M.nmeta) :
    M.inUse d' c = true := by
  rw [h.inUse_ownWrite hi hw (hc.trans_le Mount.nmeta_le), h.metaUse c hc]

/-- The inode changes and keeps its blocks. -/
theorem replace (hi : X i = some x) (hw : OwnWrite x d d') (hy : y.ptr = x.ptr)
    (hs : Sound M Good d' i y) :
    Vol M Good d' (update X i (some y)) pend := by
  have hpl : place (update X i (some y)) pend = place X pend :=
    place_of_ptr_eq fun k => by simp [hi, hy]
  refine
    { excl := ?_
      metaUse := fun c hc => h.metaUse_ownWrite hi hw hc
      inode := forall_update ?_ fun j z hji hj => h.sound_ownWrite hi hw hji hj
      pending := h.pending
      zeroed := fun q c hq => h.zeroed_ownWrite hi hw hq }
  · rw [hpl]
    exact h.excl.congr fun c hc => by rw [h.inUse_ownWrite hi hw hc.2]
  · rintro z ⟨⟩
    exact hs

/-- The pending block of a process becomes block `k` of the inode. -/
theorem attach (hi : X i = some x) (hw : OwnWrite x d d') {z : Bool} (hp : pend p = some (b, z))
    {k : ℕ} (hk : x.ptr k = 0) (hy : y.ptr = update x.ptr k b) (hs : Sound M Good d' i y) :
    Vol M Good d' (update X i (some y)) (update pend p none) := by
  have hpl : place X pend (.inr p) = b := by simp [place, hp]
  have hmove := h.excl.move (i := .inr p) (j := .inl (i, k)) (by simp) (by rwa [place_inode hi])
  refine
    { excl := ?_
      metaUse := fun c hc => h.metaUse_ownWrite hi hw hc
      inode := forall_update ?_ fun j z hji hj => h.sound_ownWrite hi hw hji hj
      pending := fun q => update_cases q (by simp) fun _ => h.pending q
      zeroed := fun q => update_cases q (by simp) fun _ _ hq => h.zeroed_ownWrite hi hw hq }
  · rw [place_pend, place_of_ptr hi hy, ← hpl]
    exact hmove.congr fun c hc => by rw [h.inUse_ownWrite hi hw hc.2]
  · rintro z ⟨⟩
    exact hs

/-- `bzero` of the pending block. -/
theorem zero {z : Bool} (hp : pend p = some (b, z)) :
    Vol M Good (update d b (Bytes.zero BSIZE)) X
      (update pend p (some (b, true))) := by
  have hdata := h.pending p b z hp
  have huse : ∀ c < M.sb.size, M.inUse (update d b (Bytes.zero BSIZE)) c = M.inUse d c :=
    fun c hc => Mount.inUse_update (hdata.ne_bblock hc) _
  have hpl : place X (update pend p (some (b, true))) = place X pend := by
    rw [place_pend]
    refine update_eq_self_iff.2 ?_
    simp [place, hp]
  refine
    { excl := ?_
      metaUse := fun c hc => by rw [huse c (hc.trans_le Mount.nmeta_le), h.metaUse c hc]
      inode := fun j y hj => { h.inode j y hj with
        onDisk := (h.inode j y hj).onDisk.congr fun l hl =>
          update_of_ne (h.ptr_ne_pend hj hl hp) _ _ }
      pending := fun q => update_cases q ?_ fun _ => h.pending q
      zeroed := fun q => update_cases q ?_ fun hqp c hq => ?_ }
  · rw [hpl]
    exact h.excl.congr fun c hc => by rw [huse c hc.2]
  · rintro c z' ⟨⟩
    exact hdata
  · rintro c ⟨⟩
    rw [update_self]
  · have hcb : c ≠ b := fun hcb => hqp (h.pend_inj (hcb ▸ hq) hp)
    rw [update_of_ne hcb, h.zeroed q c hq]

/-- An inode without blocks appears or goes. -/
theorem setBare {o : Option Extent} (hi : ∀ x, X i = some x → ∀ k, x.ptr k = 0)
    (ho : ∀ y, o = some y → ∀ k, y.ptr k = 0) (hs : ∀ y, o = some y → Sound M Good d i y) :
    Vol M Good d (update X i o) pend := by
  have hpl : place (update X i o) pend = place X pend := by
    refine place_of_ptr_eq fun k => ?_
    have h1 : o.elim 0 (fun y => y.ptr k) = 0 := by
      cases o with
      | none => rfl
      | some y => exact ho y rfl k
    have h2 : (X i).elim 0 (fun x => x.ptr k) = 0 := by
      cases hx : X i with
      | none => rfl
      | some x => exact hi x hx k
    rw [h1, h2]
  exact
    { h with
      excl := hpl ▸ h.excl
      inode := forall_update hs fun j z _ hj => h.inode j z hj }

end

end Vol

end Xv6
