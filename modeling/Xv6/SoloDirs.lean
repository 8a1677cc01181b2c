import Xv6.SoloWrites

/-!
# Directories, executed alone

`dirlink` on a directory in the inode cache that is locked (`OwnsDir`). It looks the name up, and
stores a new entry in the first place that is vacant (`FileData.vacancy`). `ends_writeEntry` says
that the directory is then `FileData.setEntry`, on the disk as well.
-/

namespace Xv6

open List

namespace FileData

/-- The place for a new entry : the first empty entry, or the end of the directory. -/
def vacancy (f : FileData) : ℕ :=
  ((List.range (numEntries f.size)).find? fun j => decide ((f.entry j).inum = 0)).getD
    (numEntries f.size)

variable {f : FileData} {j : ℕ}

theorem Whole.size_eq (h : f.Whole) : f.size.toNat = DESIZE * numEntries f.size := by
  have hD : DESIZE = 16 := rfl
  obtain ⟨n, hn⟩ := h
  unfold numEntries
  rw [hn, hD]
  omega

theorem Whole.vacant (h : f.Whole) : f.Vacant f.vacancy := by
  unfold vacancy
  cases hj : (List.range (numEntries f.size)).find? fun j => decide ((f.entry j).inum = 0) with
  | some j =>
    obtain ⟨hit, hlt, hmiss⟩ := List.find?_range_eq_some.1 hj
    rw [mem_range] at hlt
    refine ⟨fun l hl => ⟨h.complete (hl.trans hlt), ?_⟩, .inl ⟨h.complete hlt, by simpa using hit⟩⟩
    simpa using hmiss l hl
  | none =>
    refine ⟨fun l hl => ⟨h.complete hl, ?_⟩, .inr h.size_eq⟩
    simpa using List.find?_eq_none.1 hj l (mem_range.2 hl)

theorem Vacant.offset_le (h : f.Vacant j) : DESIZE * j ≤ f.size.toNat := by
  rcases h.empty with ⟨hc, -⟩ | he
  · exact (Nat.le_add_right _ _).trans hc
  · exact he.ge

/-- `writei` refuses an entry only if the directory cannot grow. -/
theorem refuses_entry (hle : DESIZE * j ≤ f.size.toNat) (hmax : DESIZE * j ≤ MAXFILE * BSIZE) :
    f.Refuses (UInt32.ofNat (DESIZE * j)) (UInt32.ofNat DESIZE) ↔
      MAXFILE * BSIZE < DESIZE * j + DESIZE := by
  unfold Refuses
  rw [gt_iff_lt, UInt32.lt_iff_toNat_lt, UInt32.lt_iff_toNat_lt, toNat_offset hmax, toNat_end hmax]
  omega

end FileData

namespace Fs

open Prog Function

variable {P : Type} [DecidableEq P] {M : Mount} {p : P} {s t u : State P} {k l : Slot}
  {x y : Extent} {X : ℕ → Option Extent} {E : Stop Wait → State P → Prop} {name : List UInt8}
  {j : ℕ} {de : Dirent}

/-- The offset of the first vacant place. -/
theorem CachedDir.returns_emptyEntry (hx : CachedDir M s k x) {Q : ℕ → State P → Prop}
    (hQ : Q (DESIZE * x.file.vacancy) s) : Ends (emptyEntry M p k) s Q E := by
  have hpass : ∀ j < numEntries x.din.size, ∀ {R : Option ℕ → State P → Prop},
      R (if (x.file.entry j).inum = 0 then some (DESIZE * j) else none) s →
      Ends (do
        let de ← readEntry M p k j "dirlink read"
        if de.inum = 0 then return some (DESIZE * j) else return none) s R E := by
    intro j hj R hR
    have hc := hx.whole.complete hj
    refine ends_bind (returns_readEntry hx.toCached hx.type hx.size_le hc (hx.blocks hc) ?_)
    split_ifs at hR ⊢ with h0
    · exact ends_pure hR
    · exact ends_pure hR
  refine ends_bind (returns_load ?_)
  rw [hx.copy]
  refine ends_bind ?_
  unfold FileData.vacancy at hQ
  cases hj : (List.range (numEntries x.file.size)).find? fun j =>
      decide ((x.file.entry j).inum = 0) with
  | some j =>
    obtain ⟨hit, hlt, hmiss⟩ := List.find?_range_eq_some.1 hj
    rw [mem_range] at hlt
    rw [hj] at hQ
    refine ends_search_at (j := j) (fun l _ hl => ?_) (Nat.zero_le _)
      (by rw [zero_add]; exact hlt) ?_
    · refine hpass l (hl.trans hlt) ?_
      rw [if_neg (by simpa using hmiss l hl)]
      exact ⟨rfl, rfl⟩
    · refine hpass j hlt ?_
      rw [if_pos (by simpa using hit)]
      exact ⟨⟨_, rfl⟩, ends_pure hQ⟩
  | none =>
    rw [hj] at hQ
    refine returns_search_none ?_ fun l _ hl => ?_
    · exact ends_pure hQ
    · rw [zero_add] at hl
      refine hpass l hl ?_
      rw [if_neg (by simpa using List.find?_eq_none.1 hj l (mem_range.2 hl))]
      exact ⟨rfl, rfl⟩

/-- Entry `k` of the inode cache has the directory `x`, as it is on the disk. -/
structure OwnsDir (M : Mount) (s : State P) (k : Slot) (X : ℕ → Option Extent) (x : Extent) :
    Prop extends Owns M s k X x where
  type : x.din.type = T_DIR
  holeFree : x.HoleFree
  whole : x.file.Whole
  synced : M.dinode s.disk (s.icache k).inum = x.din

theorem OwnsDir.cachedDir (h : OwnsDir M s k X x) : CachedDir M s k x :=
  ⟨h.cached, h.type, h.holeFree, h.whole⟩

/-- The blocks that storing an entry may log. -/
def entryBlocks (M : Mount) (y : Extent) (j i : ℕ) : Set ℕ :=
  writeBlocks M y (DESIZE * j) DESIZE ∪ {M.iblock i}

/-- The directory after an entry was stored. -/
structure Stored (M : Mount) (s : State P) (k : Slot) (X : ℕ → Option Extent) (x : Extent) (j : ℕ)
    (de : Dirent) (y : Extent) (u : State P) : Prop where
  fits : DESIZE * j + DESIZE ≤ MAXFILE * BSIZE
  file : y.file = x.file.setEntry j de
  keeps : x.Keeps y
  logs : Logs s k (entryBlocks M y j (s.icache k).inum) u
  owns : OwnsDir M u k (update X (s.icache k).inum (some y)) y
  dinode : ∀ i < M.sb.ninodes, i ≠ (s.icache k).inum → M.dinode u.disk i = M.dinode s.disk i

/-- Storing an entry of a directory. It panics when the directory cannot grow. -/
theorem OwnsDir.ends_writeEntry (h : OwnsDir M s k X x) (hout : 1 ≤ s.log.outstanding)
    (hle : DESIZE * j ≤ x.din.size.toNat) {msg : String} {Q : Unit → State P → Prop}
    (hfull : MAXFILE * BSIZE < DESIZE * j + DESIZE → E (.panic msg) s)
    (hE : ∀ e u, Stuck M s k x (entryBlocks M · j (s.icache k).inum) e u → E e u)
    (hQ : ∀ y u, Stored M s k X x j de y u → Q () u) :
    Ends (writeEntry M p k (DESIZE * j) de msg) s Q E := by
  have hD : DESIZE = 16 := rfl
  have hdev : x.din.type ≠ T_DEV := by rw [h.type]; exact T_DIR_ne_T_DEV
  have hmax : DESIZE * j ≤ MAXFILE * BSIZE := hle.trans (size_le_of_holeFree h.holeFree hdev)
  have hoff := FileData.toNat_offset hmax
  have hrefuse := FileData.refuses_entry (f := x.file) hle hmax
  refine ends_bind (ends_writei h.toOwns hout hdev (fun e u _ hu => hE e u ?_)
    (fun hr => ?_) fun y u hnot hw hu hown hdin => ?_)
  · rwa [hoff, FileData.toNat_desize] at hu
  · have hne : (-1 : ℤ) ≠ DESIZE := by decide
    simp only [hne, ne_eq, not_false_eq_true, if_true]
    exact ends_panic (hfull (hrefuse.1 hr))
  · have heq : ((UInt32.ofNat DESIZE).toNat : ℤ) = DESIZE := by decide
    simp only [heq, ne_eq, not_true_eq_false, if_false]
    have hfits : DESIZE * j + DESIZE ≤ MAXFILE * BSIZE := not_lt.1 (mt hrefuse.2 hnot)
    have hfile := hw.file_setEnd hnot
    obtain ⟨z, hz⟩ : ∃ z, z = y.setEnd (UInt32.ofNat (DESIZE * j)) (UInt32.ofNat DESIZE) :=
      ⟨_, rfl⟩
    have hzptr : z.ptr = y.ptr := by rw [hz, Extent.ptr_setEnd]
    have hblocks : writeBlocks M z (DESIZE * j) DESIZE = writeBlocks M y (DESIZE * j) DESIZE := by
      simp only [writeBlocks, mapBlocks, hzptr]
    have hztype : z.din.type = T_DIR := by
      rw [← h.type]
      exact congrArg FileData.type (hz ▸ hfile)
    -- The inode on the disk is up to date : it was written, or has not changed.
    have hsync : M.dinode u.disk (s.icache k).inum = z.din := by
      rw [hdin _ h.sound.lt, ← hz]
      by_cases hgrow : UInt32.ofNat DESIZE > 0 ∧
          UInt32.ofNat (DESIZE * j) + UInt32.ofNat DESIZE > x.din.size
      · rw [if_pos ⟨rfl, hgrow⟩]
      · rw [if_neg fun hc => hgrow hc.2, h.synced, hz, hw.setEnd_neg hgrow,
          hw.din_eq hnot h.holeFree hdev hgrow]
    rw [← hz] at hown hfile
    rw [hoff, FileData.toNat_desize, ← hblocks] at hu
    refine ends_pure (hQ z u ⟨hfits, hfile, fun i hi => ?_, hu, ⟨hown, hztype, ?_, ?_, ?_⟩,
      fun i hi hne => ?_⟩)
    · rw [hzptr]
      exact hw.ptr i hi
    · rw [hz]
      exact hw.holeFree_setEnd hnot h.holeFree hdev
    · have hsize : z.file.size.toNat = max x.file.size.toNat (DESIZE * j + DESIZE) := by
        rw [hfile]
        exact FileData.size_setEntry hmax
      obtain ⟨n, hn⟩ := h.whole
      refine ⟨max n (j + 1), ?_⟩
      rw [hsize, hn, hD]
      omega
    · rw [hu.icache]
      exact hsync
    · rw [hdin i hi, if_neg fun hc => hne hc.1]

/-- `dirlink` refuses a name that the directory has, and otherwise stores an entry in the first
vacant place. -/
theorem OwnsDir.ends_dirlink (h : OwnsDir M s k X x) (hcoh : Coherent M s)
    (hout : 1 ≤ s.log.outstanding)
    (hroom : (∀ j, x.file.index name = some j → s.RoomFor (x.file.entry j).inum) ∨
      E (.panic "iget: no inodes") s) {inum : ℕ} {Q : ℤ → State P → Prop}
    (hfound : ∀ j l t, x.file.index name = some j → Taken s l (x.file.entry j).inum t →
      Ends (do iput M p l; return -1) t Q E)
    (hfull : x.file.index name = none → MAXFILE * BSIZE < DESIZE * x.file.vacancy + DESIZE →
      E (.panic "dirlink") s)
    (hE : ∀ e u, Stuck M s k x (entryBlocks M · x.file.vacancy (s.icache k).inum) e u → E e u)
    (hok : ∀ y u, x.file.index name = none →
      Stored M s k X x x.file.vacancy ⟨inum, strncpy DIRSIZ name⟩ y u → Q 0 u) :
    Ends (dirlink M p k name inum) s Q E := by
  unfold dirlink
  cases hj : x.file.index name with
  | some j =>
    exact ends_bind (h.cachedDir.ends_dirlookup hcoh hj (hroom.imp (fun hr => hr j hj) id)
      fun l t => hfound j l t hj)
  | none =>
    refine ends_bind (h.cachedDir.returns_dirlookup_none hj ?_)
    refine ends_bind (h.cachedDir.returns_emptyEntry ?_)
    exact ends_bind (h.ends_writeEntry hout h.whole.vacant.offset_le (hfull hj) hE fun y u hy =>
      ends_pure (hok y u hj hy))

end Fs

end Xv6
