import Xv6.Paths

/-!
# Kernel programs executed alone

Rules for the programs of `fs.c` that one process executes while the others do nothing. They
follow a program to its end, so they also say that it does not panic and does not wait, or where
it does.

`Coherent` is what the inode cache keeps. `Coherent.ends_iget` says that `iget` adds a pointer
to the inode (`Taken`), and `Coherent.returns_ilock` and `Coherent.halts_ilock` that `ilock` reads
an allocated inode and panics for a free one. A directory in the inode cache (`CachedDir`) is
looked up by `CachedDir.ends_dirlookup` and `CachedDir.returns_dirlookup_none`.
-/

set_option linter.unusedSectionVars false

namespace Xv6.Fs

open Prog Function

variable {j : ℕ}

variable {P : Type} [DecidableEq P] {M : Mount} {p : P} {s t : State P} {k l : Slot} {x : Extent}
  {i : ℕ} {E : Stop Wait → State P → Prop}

/-! ## Reading an inode in the cache -/

/-- Entry `k` of the inode cache has the inode `x`, with its blocks on the disk. -/
structure Cached (M : Mount) (s : State P) (k : Slot) (x : Extent) : Prop where
  dev : (s.icache k).dev = ROOTDEV
  copy : (s.copy k).din = x.din
  onDisk : x.OnDisk s.disk
  cut : x.cut = 0
  below : ∀ j, x.ptr j < M.disksize

theorem returns_load {Q : Dinode → State P → Prop} (h : Q (s.copy k).din s) :
    Ends (load k) s Q E :=
  ends_bind (ends_getState (ends_pure h))

theorem returns_devOf {Q : ℕ → State P → Prop} (h : Q (s.icache k).dev s) :
    Ends (devOf k) s Q E :=
  ends_bind (ends_getState (ends_pure h))

theorem returns_inumOf {Q : ℕ → State P → Prop} (h : Q (s.icache k).inum s) :
    Ends (inumOf k) s Q E :=
  ends_bind (ends_getState (ends_pure h))

theorem returns_readBlock {α : Type} {b : ℕ} (f : Block → α) {Q : α → State P → Prop}
    (hb : b < M.disksize) (h : Q (f (s.disk b)) s) :
    Ends (atomic do
      let bp ← bread M ROOTDEV b
      return f bp : Kernel P α) s Q E := by
  refine returns_atomic ?_ h
  rw [sec_bind, bread_eq hb]
  rfl

theorem returns_addrOrAlloc {Q : ℕ → State P → Prop} (h0 : (s.copy k).din.addr i ≠ 0)
    (h : Q ((s.copy k).din.addr i) s) : Ends (addrOrAlloc M k i) s Q E := by
  refine ends_bind (returns_load ?_)
  simp only [h0, if_false]
  exact ends_pure h

/-- The address of a block that is there. -/
theorem returns_bmap (hx : Cached M s k x) {bn : ℕ} (hbn : bn < MAXFILE) (h0 : x.ptr bn ≠ 0)
    {Q : ℕ → State P → Prop} (h : Q (x.ptr bn) s) : Ends (bmap M k bn) s Q E := by
  have hmax : MAXFILE = NDIRECT + NINDIRECT := rfl
  unfold bmap
  by_cases hd : bn < NDIRECT
  · have haddr : (s.copy k).din.addr bn = x.ptr bn := by
      rw [hx.copy, Extent.ptr_direct hx.cut hd]
    simp only [hd, if_true]
    exact returns_addrOrAlloc (by rwa [haddr]) (by rwa [haddr])
  · have hi : bn - NDIRECT < NINDIRECT := by omega
    have hind : x.ptr MAXFILE ≠ 0 := fun he =>
      h0 (hx.onDisk.ptr_indirect_eq_zero he (by omega) hbn)
    have haddr : (s.copy k).din.addr NDIRECT = x.ptr MAXFILE := by
      rw [hx.copy, Extent.ptr_maxfile (by rw [hx.cut]; omega)]
    have hword : (s.disk (x.ptr MAXFILE)).word (bn - NDIRECT) = x.ptr bn := by
      rw [Extent.ptr_indirect hx.cut (by omega) hbn, hx.onDisk.ind_eq hind]
    simp only [hd, if_false, hi, if_true]
    refine ends_bind (returns_addrOrAlloc (by rwa [haddr]) (ends_bind (returns_devOf ?_)))
    rw [haddr, hx.dev]
    refine ends_bind (returns_readBlock (·.word (bn - NDIRECT)) (hx.below _) ?_)
    rw [hword]
    simp only [h0, if_false]
    exact ends_pure h

/-- The loop of `readi`, over blocks that are there. -/
theorem returns_readLoop (hx : Cached M s k x) :
    ∀ {fuel off n : ℕ} {Q : List UInt8 → State P → Prop}, n ≤ fuel →
      (∀ bn, Touches off n bn → bn < MAXFILE ∧ x.ptr bn ≠ 0) →
      Q ((List.range n).map fun i => x.byte (off + i)) s →
      Ends (readLoop M k fuel off n) s Q E
  | 0, off, n, Q, hn, _, hQ => by
    obtain rfl : n = 0 := by omega
    exact ends_pure hQ
  | fuel + 1, off, n, Q, hn, hblk, hQ => by
    unfold readLoop
    by_cases h0 : n = 0
    · subst h0
      exact ends_pure hQ
    · simp only [h0, if_false]
      obtain ⟨m, hm⟩ : ∃ m, m = min n (BSIZE - off % BSIZE) := ⟨_, rfl⟩
      have hmod := Nat.mod_lt off (show 0 < BSIZE by decide)
      have hm0 : 0 < m := by omega
      have hmn : m + (n - m) = n := by omega
      obtain ⟨hbn, hptr⟩ := hblk (off / BSIZE) ⟨off, le_refl _, by omega, rfl⟩
      refine ends_bind (returns_bmap hx hbn hptr ?_)
      rw [← hm]
      refine ends_bind (returns_devOf ?_)
      rw [hx.dev]
      refine ends_bind (returns_readBlock (·.slice (off % BSIZE) m) (hx.below _) ?_)
      refine ends_bind (returns_readLoop hx (by omega) (fun bn hbn => hblk bn ?_)
        (ends_pure ?_))
      · rw [← hmn]
        exact touches_add.2 (Or.inr hbn)
      · rw [← hx.onDisk.blk_eq hbn hptr, Extent.slice_blk (by omega)]
        rw [← hmn, map_range_add] at hQ
        simpa only [add_assoc] using hQ

/-- `readi` of a file or a directory, over blocks that are there. -/
theorem returns_readi (hx : Cached M s k x) (ht : x.din.type ≠ T_DEV) {off n : UInt32}
    (hblk : ∀ bn, bn * BSIZE < min (off.toNat + n.toNat) x.din.size.toNat →
      bn < MAXFILE ∧ x.ptr bn ≠ 0) {Q : ℤ × List UInt8 → State P → Prop}
    (hQ : Q (x.file.readAt off n) s) : Ends (readi M p k off n) s Q E := by
  refine ends_bind (returns_load ?_)
  rw [hx.copy]
  simp only [ht, if_false]
  by_cases hbad : off > x.din.size ∨ off + n < off
  · simp only [hbad, if_true]
    rw [Extent.readAt_file_of_bad hbad] at hQ
    exact ends_pure hQ
  · simp only [hbad, if_false]
    rw [Extent.readAt_file hbad] at hQ
    refine ends_bind (returns_readLoop hx (le_refl _) (fun bn hbn => ?_) (ends_pure hQ))
    exact hblk bn (hbn.lt.trans_le (readLen_le hbad))

/-! ## Pointers to inodes -/

/-- The inode cache agrees with the disk. -/
structure Coherent (M : Mount) (s : State P) : Prop where
  nonneg : ∀ k, 0 ≤ (s.icache k).ref
  dev : ∀ k, 0 < (s.icache k).ref → (s.icache k).dev = ROOTDEV
  uniq : ∀ k l, 0 < (s.icache k).ref → 0 < (s.icache l).ref →
    (s.icache k).inum = (s.icache l).inum → k = l
  copy : ∀ k, 0 < (s.icache k).ref → (s.copy k).valid = true →
    (s.copy k).din = M.dinode s.disk (s.icache k).inum ∧ (s.copy k).din.type ≠ 0

/-- The inode cache has an entry for inode `i`, or a free one. -/
def State.RoomFor (s : State P) (i : ℕ) : Prop := ∃ l, (s.icache l).ref = 0 ∨ (s.icache l).inum = i

instance (s : State P) (i : ℕ) : Decidable (s.RoomFor i) :=
  inferInstanceAs (Decidable (∃ _, _))

/-- The state `t` has one more pointer to inode `i`, in the entry `l`. -/
structure Taken (s : State P) (l : Slot) (i : ℕ) (t : State P) : Prop where
  frame : t = { s with icache := t.icache, copy := t.copy }
  entry : t.icache l = ⟨ROOTDEV, i, (s.icache l).ref + 1⟩
  other : ∀ m, m ≠ l → t.icache m = s.icache m ∧ t.copy m = s.copy m
  kept : 0 < (s.icache l).ref → (s.icache l).inum = i ∧ t.copy l = s.copy l
  fresh : (s.icache l).ref = 0 → (t.copy l).valid = false ∧
    ∀ m, 0 < (s.icache m).ref → (s.icache m).inum ≠ i

namespace Taken

theorem disk (h : Taken s l i t) : t.disk = s.disk := by rw [h.frame]

theorem lock (h : Taken s l i t) : t.lock = s.lock := by rw [h.frame]

/-- The entries in use stay. -/
theorem inum_eq (h : Taken s l i t) {m : Slot} (hm : 0 < (s.icache m).ref) :
    (t.icache m).inum = (s.icache m).inum := by
  by_cases hml : m = l
  · subst hml
    rw [h.entry, (h.kept hm).1]
  · rw [(h.other m hml).1]

theorem copy_eq (h : Taken s l i t) {m : Slot} (hm : 0 < (s.icache m).ref) :
    t.copy m = s.copy m := by
  by_cases hml : m = l
  · subst hml
    exact (h.kept hm).2
  · exact (h.other m hml).2

theorem ref_eq (h : Taken s l i t) (m : Slot) :
    (t.icache m).ref = (s.icache m).ref + if m = l then 1 else 0 := by
  by_cases hml : m = l
  · subst hml
    rw [h.entry, if_pos rfl]
  · rw [(h.other m hml).1, if_neg hml, add_zero]

end Taken

namespace Coherent

theorem taken (h : Coherent M s) (ht : Taken s l i t) : Coherent M t := by
  have huniq : ∀ m, m ≠ l → 0 < (s.icache m).ref → (s.icache m).inum ≠ i := by
    intro m hm hpos he
    rcases lt_or_eq_of_le (h.nonneg l) with hl | hl
    · exact hm (h.uniq m l hpos hl (he.trans (ht.kept hl).1.symm))
    · exact (ht.fresh hl.symm).2 m hpos he
  refine ⟨fun m => ?_, fun m hm => ?_, fun m m' hm hm' he => ?_, fun m hm hv => ?_⟩
  · have := h.nonneg m
    rw [ht.ref_eq]
    split_ifs <;> omega
  · by_cases hml : m = l
    · rw [hml, ht.entry]
    · rw [(ht.other m hml).1] at hm ⊢
      exact h.dev m hm
  · by_cases hml : m = l <;> by_cases hml' : m' = l
    · rw [hml, hml']
    · rw [hml, ht.entry, (ht.other m' hml').1] at he
      rw [(ht.other m' hml').1] at hm'
      exact absurd he.symm (huniq m' hml' hm')
    · rw [hml', ht.entry, (ht.other m hml).1] at he
      rw [(ht.other m hml).1] at hm
      exact absurd he (huniq m hml hm)
    · rw [(ht.other m hml).1] at hm he
      rw [(ht.other m' hml').1] at hm' he
      exact h.uniq m m' hm hm' he
  · have hpos : 0 < (s.icache m).ref := by
      by_cases hml : m = l
      · subst hml
        refine lt_of_le_of_ne (h.nonneg m) fun h0 => ?_
        rw [(ht.fresh h0.symm).1] at hv
        cases hv
      · rwa [(ht.other m hml).1] at hm
    rw [ht.copy_eq hpos] at hv ⊢
    rw [ht.inum_eq hpos, ht.disk]
    exact h.copy m hpos hv

/-- `idup` of an inode in use. -/
theorem taken_idup (h : Coherent M s) (href : 0 < (s.icache k).ref) :
    Taken s k (s.icache k).inum { s with
      icache := update s.icache k { s.icache k with ref := (s.icache k).ref + 1 } } where
  frame := rfl
  entry := by
    rw [← h.dev k href]
    exact update_self ..
  other m hm := ⟨update_of_ne hm .., rfl⟩
  kept _ := ⟨rfl, rfl⟩
  fresh h0 := by omega

/-- `iget` returns an entry of the cache for the inode, or panics if there is no room for it. -/
theorem ends_iget (h : Coherent M s) (hroom : s.RoomFor i ∨ E (.panic "iget: no inodes") s)
    {Q : Slot → State P → Prop} (hQ : ∀ l t, Taken s l i t → Q l t) :
    Ends (iget ROOTDEV i) s Q E := by
  refine ends_atomic ?_
  cases hcached : (List.finRange NINODE).find? fun k => decide (0 < (s.icache k).ref ∧
      (s.icache k).dev = ROOTDEV ∧ (s.icache k).inum = i) with
  | some k =>
    have hhit := List.find?_some hcached
    obtain ⟨href, hdev, rfl⟩ := of_decide_eq_true hhit
    exact hQ k _ (h.taken_idup href)
  | none =>
    have hnew : ∀ m, 0 < (s.icache m).ref → (s.icache m).inum ≠ i := fun m hm he =>
      List.find?_eq_none.1 hcached m (List.mem_finRange m) (decide_eq_true ⟨hm, h.dev m hm, he⟩)
    cases hl : (List.finRange NINODE).find? fun k => decide ((s.icache k).ref = 0) with
    | none =>
      refine hroom.resolve_left ?_
      have hused (l) : (s.icache l).ref ≠ 0 := fun h0 =>
        List.find?_eq_none.1 hl l (List.mem_finRange l) (decide_eq_true h0)
      rintro ⟨l, hfree | hinum⟩
      · exact hused l hfree
      · exact hnew l ((h.nonneg l).lt_of_ne' (hused l)) hinum
    | some l =>
      have hfree : (s.icache l).ref = 0 := by simpa using List.find?_some hl
      refine hQ l _ ⟨rfl, ?_, fun m hm => ⟨update_of_ne hm .., update_of_ne hm ..⟩,
        fun hp => by omega, fun _ => ⟨?_, hnew⟩⟩
      · rw [hfree]
        exact update_self ..
      · simp only [update_self]

/-! ## Locks of inodes -/

theorem returns_ilock (h : Coherent M s) {site : Site} (href : 0 < (s.icache k).ref)
    (hlock : s.lock k = none) (hi : (s.icache k).inum < M.sb.ninodes)
    (hx : readInode M s.disk (s.icache k).inum = some x) {Q : Unit → State P → Prop}
    (hQ : Q () { s with
      lock := update s.lock k (some p)
      copy := update s.copy k ⟨true, x.din⟩ }) : Ends (ilock M p k site) s Q E := by
  have hdin : M.dinode s.disk (s.icache k).inum = x.din ∧ x.din.type ≠ 0 := by
    unfold readInode at hx
    split_ifs at hx with ht
    obtain rfl := Option.some.inj hx
    exact ⟨rfl, ht⟩
  refine ends_bind (ends_getState ?_)
  have href' : ¬ (s.icache k).ref < 1 := by omega
  simp only [href', if_false]
  refine ends_bind (returns_waitFor (t := { s with lock := update s.lock k (some p) })
    (by simp only [hlock]) (returns_atomic ?_ hQ))
  refine (iloadSec_eq (s := { s with lock := update s.lock k (some p) }) (h.dev k href)
    ((M.iblock_lt_nmeta hi).trans_le (M.nmeta_le.trans M.size_le))).trans ?_
  simp only [hdin.1]
  by_cases hv : (s.copy k).valid = true
  · have hcopy : s.copy k = ⟨true, x.din⟩ := by
      rw [← hdin.1, ← (h.copy k href hv).1, ← hv]
    rw [if_pos hv, ← hcopy, update_eq_self]
  · rw [if_neg hv, if_neg hdin.2]

/-- `ilock` of an inode that is not allocated. -/
theorem halts_ilock (h : Coherent M s) {site : Site} (href : 0 < (s.icache k).ref)
    (hlock : s.lock k = none) (hi : (s.icache k).inum < M.sb.ninodes)
    (hx : readInode M s.disk (s.icache k).inum = none) :
    Halts (ilock M p k site) s (.panic "ilock: no type") := by
  have ht : (M.dinode s.disk (s.icache k).inum).type = 0 := by
    unfold readInode at hx
    split_ifs at hx with ht
    exact ht
  have hv : ¬ (s.copy k).valid = true := fun hv =>
    (h.copy k href hv).2 (by rw [(h.copy k href hv).1, ht])
  have href' : ¬ (s.icache k).ref < 1 := by omega
  refine ends_bind (ends_getState ?_)
  simp only [href', if_false]
  refine ends_bind (returns_waitFor (t := { s with lock := update s.lock k (some p) })
    (by simp only [hlock]) (ends_atomic ?_))
  rw [iloadSec_eq (s := { s with lock := update s.lock k (some p) }) (h.dev k href)
    ((M.iblock_lt_nmeta hi).trans_le (M.nmeta_le.trans M.size_le)), if_neg hv, if_pos ht]

end Coherent

theorem returns_iunlock (hlock : s.lock k = some p) (href : 0 < (s.icache k).ref)
    {Q : Unit → State P → Prop} (hQ : Q () { s with lock := update s.lock k none }) :
    Ends (iunlock p k) s Q E := by
  refine ends_bind (ends_getState ?_)
  have hok : ¬ (s.lock k ≠ some p ∨ (s.icache k).ref < 1) := by
    rw [hlock]
    simp only [ne_eq, not_true_eq_false, false_or]
    omega
  simp only [hok, if_false]
  exact ends_modifyState hQ

/-- The state after a pointer to the inode is given up. -/
def State.dropped (s : State P) (k : Slot) : State P :=
  { s with
    lock := update s.lock k none
    icache := update s.icache k { s.icache k with ref := (s.icache k).ref + -1 } }

theorem State.dropped_ref (s : State P) (k m : Slot) :
    ((s.dropped k).icache m).ref = (s.icache m).ref - if m = k then 1 else 0 := by
  unfold State.dropped
  by_cases hmk : m = k
  · subst hmk
    simp only [update_self, if_true]
    rfl
  · simp only [update_of_ne hmk, if_neg hmk, sub_zero]

theorem State.dropped_dev (s : State P) (k m : Slot) :
    ((s.dropped k).icache m).dev = (s.icache m).dev := by
  unfold State.dropped
  by_cases hmk : m = k
  · subst hmk
    simp only [update_self]
  · simp only [update_of_ne hmk]

theorem State.dropped_inum (s : State P) (k m : Slot) :
    ((s.dropped k).icache m).inum = (s.icache m).inum := by
  unfold State.dropped
  by_cases hmk : m = k
  · subst hmk
    simp only [update_self]
  · simp only [update_of_ne hmk]

theorem Coherent.dropped (h : Coherent M s) (hk : 0 < (s.icache k).ref) :
    Coherent M (s.dropped k) := by
  have hpos : ∀ {m}, 0 < ((s.dropped k).icache m).ref → 0 < (s.icache m).ref := by
    intro m hm
    rw [State.dropped_ref] at hm
    split_ifs at hm <;> omega
  refine ⟨fun m => ?_, fun m hm => ?_, fun m m' hm hm' he => ?_, fun m hm hv => ?_⟩
  · have := h.nonneg m
    rw [State.dropped_ref]
    split_ifs with hmk
    · subst hmk
      omega
    · omega
  · rw [State.dropped_dev]
    exact h.dev m (hpos hm)
  · rw [State.dropped_inum, State.dropped_inum] at he
    exact h.uniq m m' (hpos hm) (hpos hm') he
  · rw [State.dropped_inum]
    exact h.copy m (hpos hm) hv

/-- `iput` of an inode that has links or other pointers to it. -/
theorem returns_iput (hlock : s.lock k = none)
    (hkeep : (s.copy k).valid = true → (s.copy k).din.nlink = 0 → (s.icache k).ref ≠ 1)
    {Q : Unit → State P → Prop} (hQ : Q () (s.dropped k)) : Ends (iput M p k) s Q E := by
  refine ends_bind (returns_waitFor (t := { s with lock := update s.lock k (some p) })
    (by simp only [hlock]) ?_)
  refine ends_bind (ends_bind (ends_getState ?_))
  have hfinish : Ends (do releasesleep k; addRef k (-1)) { s with
      lock := update s.lock k (some p) } Q E := by
    refine ends_bind (ends_modifyState (ends_modifyState ?_))
    simp only [update_idem]
    exact hQ
  by_cases hlost : (s.copy k).valid = true ∧ (s.copy k).din.nlink = 0
  · simp only [hlost, and_self, if_true]
    refine ends_bind (ends_getState ?_)
    simp only [hkeep hlost.1 hlost.2, if_false]
    exact ends_pure hfinish
  · simp only [hlost, if_false]
    exact ends_pure hfinish

/-- `iput` of an inode that is locked. -/
theorem halts_iput {q : P} (hlock : s.lock k = some q) :
    Halts (iput M p k) s (.blocked (.inode k .put)) :=
  halts_bind (ends_waitFor (by simp only [hlock]))

theorem returns_iunlockput (hlock : s.lock k = some p) (href : 0 < (s.icache k).ref)
    (hkeep : (s.copy k).valid = true → (s.copy k).din.nlink = 0 → (s.icache k).ref ≠ 1)
    {Q : Unit → State P → Prop} (hQ : Q () (s.dropped k)) : Ends (iunlockput M p k) s Q E := by
  refine ends_bind (returns_iunlock hlock href ?_)
  refine returns_iput (s := { s with lock := update s.lock k none }) (update_self ..) hkeep ?_
  unfold State.dropped at hQ ⊢
  simp only [update_idem]
  exact hQ

/-! ## Directories -/

theorem returns_readEntry (hx : Cached M s k x) (ht : x.din.type = T_DIR)
    (hle : x.din.size.toNat ≤ MAXFILE * BSIZE) (hc : x.file.Complete j)
    (hblk : ∀ bn, bn * BSIZE < DESIZE * j + DESIZE → bn < MAXFILE ∧ x.ptr bn ≠ 0) {msg : String}
    {Q : Dirent → State P → Prop} (hQ : Q (x.file.entry j) s) :
    Ends (readEntry M p k j msg) s Q E := by
  have hdev : x.din.type ≠ T_DEV := by rw [ht]; exact T_DIR_ne_T_DEV
  have hoff : DESIZE * j ≤ MAXFILE * BSIZE := by
    have : DESIZE * j + DESIZE ≤ x.din.size.toNat := hc
    omega
  refine ends_bind (returns_readi hx hdev (fun bn hbn => hblk bn ?_) ?_)
  · rw [FileData.toNat_offset hoff, FileData.toNat_desize] at hbn
    exact hbn.trans_le (Nat.min_le_left _ _)
  · rw [readAt_bytes hle hc]
    simp only [ne_eq, not_true_eq_false, if_false]
    exact ends_pure hQ

/-- An entry that `dirlookup` passes by. -/
theorem returns_pass (hx : Cached M s k x) (ht : x.din.type = T_DIR)
    (hle : x.din.size.toNat ≤ MAXFILE * BSIZE) {name : List UInt8} (hc : x.file.Complete j)
    (hblk : ∀ bn, bn * BSIZE < DESIZE * j + DESIZE → bn < MAXFILE ∧ x.ptr bn ≠ 0)
    (hmiss : (x.file.entry j).inum = 0 ∨ namecmp name (x.file.entry j).name ≠ 0) :
    Ends (do
      let de ← readEntry M p k j "dirlookup read"
      if de.inum = 0 then return none
      else if namecmp name de.name = 0 then
        let ip ← iget (← devOf k) de.inum
        return some (ip, DESIZE * j)
      else return none) s (fun r t => r = none ∧ t = s) E := by
  refine ends_bind (returns_readEntry hx ht hle hc hblk ?_)
  by_cases h0 : (x.file.entry j).inum = 0
  · simp only [h0, if_true]
    exact ends_pure ⟨rfl, rfl⟩
  · simp only [h0, if_false, hmiss.resolve_left h0]
    exact ends_pure ⟨rfl, rfl⟩

/-- `dirlookup` of a name that the directory has, with all the blocks up to its entry. -/
theorem ends_dirlookup_upto (hx : Cached M s k x) (ht : x.din.type = T_DIR)
    (hle : x.din.size.toNat ≤ MAXFILE * BSIZE) (h : Coherent M s) {name : List UInt8}
    (hf : x.file.Finds name j)
    (hroom : s.RoomFor (x.file.entry j).inum ∨ E (.panic "iget: no inodes") s)
    (hblk : ∀ bn, bn * BSIZE < DESIZE * j + DESIZE → bn < MAXFILE ∧ x.ptr bn ≠ 0)
    {Q : Option (Slot × ℕ) → State P → Prop}
    (hQ : ∀ l t, Taken s l (x.file.entry j).inum t → Q (some (l, DESIZE * j)) t) :
    Ends (dirlookup M p k name) s Q E := by
  refine ends_bind (returns_load ?_)
  rw [hx.copy]
  simp only [ht, ne_eq, not_true_eq_false, if_false]
  have hpos : DESIZE * j + DESIZE ≤ x.din.size.toNat := hf.complete
  have hD : DESIZE = 16 := rfl
  refine ends_search_at (j := j) (fun l _ hl => ?_) (Nat.zero_le _) ?_ ?_
  · obtain ⟨hc, hmiss⟩ := hf.first l hl
    refine returns_pass hx ht hle hc (fun bn hbn => hblk bn ?_) hmiss
    rw [hD] at hbn ⊢
    omega
  · rw [zero_add, lt_numEntries]
    rw [hD] at hpos ⊢
    omega
  · refine ends_bind (returns_readEntry hx ht hle hf.complete hblk ?_)
    simp only [hf.inum, hf.hit, if_false, if_true]
    refine ends_bind (returns_devOf ?_)
    rw [hx.dev]
    exact ends_bind (h.ends_iget hroom fun l t ht => ends_pure ⟨⟨_, rfl⟩, hQ l t ht⟩)

/-- Entry `k` of the inode cache has the directory `x`. -/
structure CachedDir (M : Mount) (s : State P) (k : Slot) (x : Extent) : Prop
    extends Cached M s k x where
  type : x.din.type = T_DIR
  holeFree : x.HoleFree
  whole : x.file.Whole

namespace CachedDir

theorem type_ne_dev (hx : CachedDir M s k x) : x.din.type ≠ T_DEV := by
  rw [hx.type]
  exact T_DIR_ne_T_DEV

theorem size_le (hx : CachedDir M s k x) : x.din.size.toNat ≤ MAXFILE * BSIZE :=
  size_le_of_holeFree hx.holeFree hx.type_ne_dev

theorem blocks (hx : CachedDir M s k x) (hc : x.file.Complete j) (bn : ℕ)
    (hbn : bn * BSIZE < DESIZE * j + DESIZE) : bn < MAXFILE ∧ x.ptr bn ≠ 0 :=
  hx.holeFree hx.type_ne_dev bn (hbn.trans_le hc)

/-- `dirlookup` of a name that the directory does not have. -/
theorem returns_dirlookup_none (hx : CachedDir M s k x) {name : List UInt8}
    (hi : x.file.index name = none) {Q : Option (Slot × ℕ) → State P → Prop} (hQ : Q none s) :
    Ends (dirlookup M p k name) s Q E := by
  refine ends_bind (returns_load ?_)
  rw [hx.copy]
  simp only [hx.type, ne_eq, not_true_eq_false, if_false]
  refine returns_search_none hQ fun j _ hj => ?_
  rw [zero_add] at hj
  obtain ⟨hc, hmiss⟩ := hx.whole.misses hi j hj
  exact returns_pass hx.toCached hx.type hx.size_le hc (hx.blocks hc) hmiss

/-- `dirlookup` of a name that the directory has. -/
theorem ends_dirlookup (hx : CachedDir M s k x) (h : Coherent M s) {name : List UInt8}
    (hi : x.file.index name = some j)
    (hroom : s.RoomFor (x.file.entry j).inum ∨ E (.panic "iget: no inodes") s)
    {Q : Option (Slot × ℕ) → State P → Prop}
    (hQ : ∀ l t, Taken s l (x.file.entry j).inum t → Q (some (l, DESIZE * j)) t) :
    Ends (dirlookup M p k name) s Q E :=
  have hf := hx.whole.finds hi
  ends_dirlookup_upto hx.toCached hx.type hx.size_le h hf hroom (hx.blocks hf.complete) hQ

end CachedDir

end Xv6.Fs
