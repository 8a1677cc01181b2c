import Xv6.SysFile
import Xv6.Volume
import Xv6.Count

/-!
# Files as byte arrays

`FileData` is a file as its users see it, and `readInode` the inode that the disk has.
`FileData.readAt` is what `readi` returns, and `FileData.write` what `writei` makes of the file.
Both loops split a transfer at block boundaries; `Extent.Wrote` is what a part of such a transfer
has done to the blocks of the inode, and `Extent.Wrote.file_setEnd` what it has done to the file.
-/

namespace Xv6

open List

/-- A file as its users see it. The bytes past the size are 0. -/
structure FileData where
  type : Int16
  major : Int16
  minor : Int16
  nlink : Int16
  size : UInt32
  data : ℕ → UInt8

/-- The `j`-th entry in these bytes. -/
def entryAt (g : ℕ → UInt8) (j : ℕ) : Dirent :=
  .ofBytes ((List.range DESIZE).map fun i => g (DESIZE * j + i))

/-- The `j`-th entry of a directory. -/
def FileData.entry (f : FileData) (j : ℕ) : Dirent := entryAt f.data j

/-- The file of an extent. -/
def Extent.file (x : Extent) : FileData where
  type := x.din.type
  major := x.din.major
  minor := x.din.minor
  nlink := x.din.nlink
  size := x.din.size
  data o := if o < x.din.size.toNat then x.byte o else 0

/-- Inode `i` as the disk has it, if it is allocated. -/
def readInode (M : Mount) (d : Disk) (i : ℕ) : Option Extent :=
  if (M.dinode d i).type = 0 then none else some (.read d (M.dinode d i) 0)

/-- An inode depends on its own blocks only. -/
theorem readInode_congr {M : Mount} {d d' : Disk} {i : ℕ} (hdin : M.dinode d' i = M.dinode d i)
    (hx : ∀ x, readInode M d i = some x → x.OnDisk d') : readInode M d' i = readInode M d i := by
  unfold readInode at hx ⊢
  rw [hdin]
  split_ifs with h
  · rfl
  · have hon := hx (Extent.read d (M.dinode d i) 0) (by simp [h])
    exact congrArg some hon.symm

/-- The bytes `g`, with `n` bytes at `off` replaced by those of `src`. -/
def overwrite (g : ℕ → UInt8) (off n : ℕ) (src : ℕ → UInt8) : ℕ → UInt8 := fun o =>
  if off ≤ o ∧ o < off + n then src (o - off) else g o

theorem overwrite_of_mem {g src : ℕ → UInt8} {off n o : ℕ} (h : off ≤ o) (h' : o < off + n) :
    overwrite g off n src o = src (o - off) := if_pos ⟨h, h'⟩

theorem overwrite_of_not_mem {g src : ℕ → UInt8} {off n o : ℕ} (h : o < off ∨ off + n ≤ o) :
    overwrite g off n src o = g o := if_neg (by omega)

theorem overwrite_zero (g src : ℕ → UInt8) (off : ℕ) : overwrite g off 0 src = g := by
  funext o
  exact overwrite_of_not_mem (by omega)

/-- Two transfers in a row are one. -/
theorem overwrite_overwrite (g src : ℕ → UInt8) (off m n : ℕ) :
    overwrite (overwrite g off m src) (off + m) n (fun i => src (m + i)) =
      overwrite g off (m + n) src := by
  funext o
  by_cases h1 : off + m ≤ o ∧ o < off + m + n
  · rw [overwrite_of_mem h1.1 h1.2, overwrite_of_mem (by omega) (by omega)]
    congr 1
    omega
  · rw [overwrite_of_not_mem (by omega)]
    by_cases h2 : off ≤ o ∧ o < off + m
    · rw [overwrite_of_mem h2.1 h2.2, overwrite_of_mem h2.1 (by omega)]
    · rw [overwrite_of_not_mem (by omega), overwrite_of_not_mem (by omega)]

namespace FileData

/-- What `readi` returns for a file. -/
def readAt (f : FileData) (off n : UInt32) : ℤ × List UInt8 :=
  if off > f.size ∨ off + n < off then (-1, [])
  else
    let m := if off + n > f.size then f.size - off else n
    (m.toNat, (List.range m.toNat).map fun i => f.data (off.toNat + i))

/-- `writei` refuses the request. -/
def Refuses (f : FileData) (off n : UInt32) : Prop :=
  off > f.size ∨ off + n < off ∨ (off + n).toNat > MAXFILE * BSIZE

instance (f : FileData) (off n : UInt32) : Decidable (f.Refuses off n) :=
  inferInstanceAs (Decidable (_ ∨ _ ∨ _))

/-- What `writei` makes of a file. -/
def write (f : FileData) (off n : UInt32) (src : ℕ → UInt8) : FileData :=
  { f with
    size := if n > 0 ∧ off + n > f.size then off + n else f.size
    data := overwrite f.data off.toNat n.toNat src }

/-- A file whose first bytes are written, and whose size is not yet changed. -/
def writeData (f : FileData) (off n : ℕ) (src : ℕ → UInt8) : FileData :=
  { f with data := fun o => if o < f.size.toNat then overwrite f.data off n src o else 0 }

end FileData

/-- An unsigned sum that does not wrap. -/
theorem toNat_add_of_not_lt {a b : UInt32} (h : ¬ a + b < a) :
    (a + b).toNat = a.toNat + b.toNat := by
  have ha := a.toNat_lt
  have hb := b.toNat_lt
  rw [UInt32.lt_iff_toNat_lt, UInt32.toNat_add] at h
  rw [UInt32.toNat_add]
  omega

/-- The number of bytes that `readi` reads. -/
def readLen (size off n : UInt32) : UInt32 := if off + n > size then size - off else n

/-- The clamped length, without overflow. -/
theorem toNat_readLen {size off n : UInt32} (h : ¬ (off > size ∨ off + n < off)) :
    off.toNat ≤ size.toNat ∧
      (readLen size off n).toNat = min n.toNat (size.toNat - off.toNat) := by
  rw [not_or, gt_iff_lt, UInt32.lt_iff_toNat_lt] at h
  have hadd := toNat_add_of_not_lt h.2
  have hle : off.toNat ≤ size.toNat := not_lt.1 h.1
  refine ⟨hle, ?_⟩
  unfold readLen
  split_ifs with hgt
  · rw [gt_iff_lt, UInt32.lt_iff_toNat_lt, hadd] at hgt
    rw [UInt32.toNat_sub_of_le _ _ (UInt32.le_iff_toNat_le.2 hle)]
    omega
  · rw [gt_iff_lt, UInt32.lt_iff_toNat_lt, hadd] at hgt
    omega

theorem readLen_le {size off n : UInt32} (h : ¬ (off > size ∨ off + n < off)) :
    off.toNat + (readLen size off n).toNat ≤ min (off.toNat + n.toNat) size.toNat := by
  obtain ⟨hle, hlen⟩ := toNat_readLen h
  omega

theorem Extent.readAt_file_of_bad {x : Extent} {off n : UInt32}
    (h : off > x.din.size ∨ off + n < off) : x.file.readAt off n = (-1, []) := if_pos h

/-- Reading inside of the file. -/
theorem Extent.readAt_file {x : Extent} {off n : UInt32}
    (h : ¬ (off > x.din.size ∨ off + n < off)) :
    x.file.readAt off n = (((readLen x.din.size off n).toNat : ℤ),
      (List.range (readLen x.din.size off n).toNat).map fun i => x.byte (off.toNat + i)) := by
  have hend := readLen_le h
  have hread : x.file.readAt off n = (((readLen x.din.size off n).toNat : ℤ),
      (List.range (readLen x.din.size off n).toNat).map fun i => x.file.data (off.toNat + i)) :=
    if_neg h
  rw [hread]
  congr 1
  refine map_congr_left fun i hi => ?_
  rw [mem_range] at hi
  exact if_pos (by omega)

/-- Block `bn` has some of the `n` bytes at `off`. -/
def Touches (off n bn : ℕ) : Prop := ∃ o, off ≤ o ∧ o < off + n ∧ o / BSIZE = bn

/-- The blocks of two adjacent ranges. -/
theorem touches_add {off m n bn : ℕ} :
    Touches off (m + n) bn ↔ Touches off m bn ∨ Touches (off + m) n bn := by
  constructor
  · rintro ⟨o, h1, h2, h3⟩
    by_cases h : o < off + m
    · exact Or.inl ⟨o, h1, h, h3⟩
    · exact Or.inr ⟨o, by omega, by omega, h3⟩
  · rintro (⟨o, h1, h2, h3⟩ | ⟨o, h1, h2, h3⟩)
    · exact ⟨o, h1, by omega, h3⟩
    · exact ⟨o, by omega, by omega, h3⟩

theorem Touches.lt {off n bn : ℕ} (h : Touches off n bn) : bn * BSIZE < off + n := by
  obtain ⟨o, -, h2, rfl⟩ := h
  exact (Nat.div_mul_le_self o BSIZE).trans_lt h2

namespace Extent

/-- Set the size as `writei` does after it has written `n` bytes at `off`. -/
def setEnd (x : Extent) (off n : UInt32) : Extent :=
  if n > 0 ∧ off + n > x.din.size then x.setDin { x.din with size := off + n } else x

theorem ptr_setEnd (x : Extent) (off n : UInt32) : (x.setEnd off n).ptr = x.ptr := by
  unfold setEnd
  split_ifs
  · exact ptr_setDin rfl
  · rfl

/-- A request that `writei` does not refuse. -/
theorem bounds {x : Extent} {off n : UInt32} (h : ¬ x.file.Refuses off n) :
    off.toNat ≤ x.din.size.toNat ∧ (off + n).toNat = off.toNat + n.toNat ∧
      off.toNat + n.toNat ≤ MAXFILE * BSIZE := by
  unfold FileData.Refuses at h
  rw [not_or, not_or, gt_iff_lt, UInt32.lt_iff_toNat_lt, not_lt, not_lt] at h
  have hadd := toNat_add_of_not_lt h.2.1
  exact ⟨h.1, hadd, by rw [← hadd]; exact h.2.2⟩

/-- The bytes of a request that does not grow the file. -/
theorem end_le {x : Extent} {off n : UInt32} (hok : ¬ x.file.Refuses off n)
    (h : ¬ (n > 0 ∧ off + n > x.din.size)) : off.toNat + n.toNat ≤ x.din.size.toNat := by
  obtain ⟨hle, hadd, -⟩ := bounds hok
  by_cases h0 : n > 0
  · have h1 : ¬ off + n > x.din.size := fun hgt => h ⟨h0, hgt⟩
    rw [gt_iff_lt, UInt32.lt_iff_toNat_lt, hadd] at h1
    omega
  · rw [gt_iff_lt, UInt32.lt_iff_toNat_lt] at h0
    simp at h0
    omega

/-- `y` is the inode `x` after `n` bytes at `off` were written, with the size not yet changed. -/
structure Wrote (x : Extent) (off n : ℕ) (src : ℕ → UInt8) (y : Extent) : Prop where
  din : ∃ addrs, y.din = { x.din with addrs := addrs }
  cut : y.cut = x.cut
  byte : y.byte = overwrite x.byte off n src
  ptr : ∀ k, x.ptr k ≠ 0 → y.ptr k = x.ptr k
  alloc : ∀ bn, Touches off n bn → y.ptr bn ≠ 0
  same : (∀ bn, Touches off n bn → x.ptr bn ≠ 0) → y.din = x.din

namespace Wrote

variable {x y z : Extent} {off m n : ℕ} {src : ℕ → UInt8}

theorem zero (x : Extent) (off : ℕ) (src : ℕ → UInt8) : x.Wrote off 0 src x := by
  refine ⟨⟨_, rfl⟩, rfl, (overwrite_zero _ _ _).symm, fun _ _ => rfl, fun bn hbn => ?_,
    fun _ => rfl⟩
  obtain ⟨o, h1, h2, -⟩ := hbn
  omega

/-- Two transfers in a row are one. -/
theorem trans (h : x.Wrote off m src y) (h' : y.Wrote (off + m) n (fun i => src (m + i)) z) :
    x.Wrote off (m + n) src z := by
  obtain ⟨a, ha⟩ := h.din
  obtain ⟨b, hb⟩ := h'.din
  refine ⟨⟨b, by rw [hb, ha]⟩, h'.cut.trans h.cut, ?_, fun k hk => ?_, fun bn hbn => ?_,
    fun hall => ?_⟩
  · rw [h'.byte, h.byte, overwrite_overwrite]
  · have h1 := h.ptr k hk
    rw [h'.ptr k (by rwa [h1]), h1]
  · rcases touches_add.1 hbn with hbn | hbn
    · have h1 := h.alloc bn hbn
      rwa [h'.ptr bn h1]
    · exact h'.alloc bn hbn
  · have h1 := h.same fun bn hbn => hall bn (touches_add.2 (Or.inl hbn))
    rw [h'.same fun bn hbn => ?_, h1]
    have h2 := hall bn (touches_add.2 (Or.inr hbn))
    rwa [h.ptr bn h2]

/-- The loop of `writei` does not change the size -/
theorem size (h : x.Wrote off n src y) : y.din.size = x.din.size := by
  obtain ⟨a, ha⟩ := h.din
  rw [ha]

/-- or the type. -/
theorem type (h : x.Wrote off n src y) : y.din.type = x.din.type := by
  obtain ⟨a, ha⟩ := h.din
  rw [ha]

/-- It makes no hole, -/
theorem holeFree (h : x.Wrote off n src y) (hx : x.HoleFree) : y.HoleFree := by
  intro ht bn hbn
  rw [h.type] at ht
  rw [h.size] at hbn
  obtain ⟨h1, h2⟩ := hx ht bn hbn
  exact ⟨h1, by rwa [h.ptr bn h2]⟩

/-- and the file has the new bytes. -/
theorem file (h : x.Wrote off n src y) : y.file = x.file.writeData off n src := by
  obtain ⟨a, ha⟩ := h.din
  simp only [Extent.file, FileData.writeData, ha, h.byte, FileData.mk.injEq, true_and]
  funext o
  by_cases ho : o < x.din.size.toNat
  · simp only [ho, if_true]
    unfold overwrite
    simp only [ho, if_true]
  · simp only [ho, if_false]

/-- One pass of the loop of `writei`. -/
theorem block (hg : x.Grows y) (hptr : y.ptr (off / BSIZE) ≠ 0)
    (hyx : x.ptr (off / BSIZE) ≠ 0 → y = x) (hm : m ≤ BSIZE - off % BSIZE) (hm0 : 0 < m) :
    x.Wrote off m src (y.setBlock (off / BSIZE)
      ((y.blk (off / BSIZE)).blit (off % BSIZE) ((List.range m).map src))) := by
  have hB : BSIZE = 512 := rfl
  have htouch : ∀ bn, Touches off m bn → bn = off / BSIZE := by
    rintro bn ⟨o, h1, h2, rfl⟩
    rw [hB] at hm ⊢
    omega
  refine ⟨hg.din, hg.cut, ?_, hg.ptr, fun bn hbn => ?_, fun hall => ?_⟩
  · funext o
    rw [show x.byte = y.byte from funext fun o => (hg.byte o).symm]
    by_cases ho : o / BSIZE = off / BSIZE
    · have hbyte : ∀ b, (y.setBlock (off / BSIZE) b).byte o = b.get (o % BSIZE) := fun b => by
        simp [Extent.byte, setBlock, ho]
      rw [hbyte]
      by_cases hin : off ≤ o ∧ o < off + m
      · have hk : o % BSIZE = off % BSIZE + (o - off) := by
          rw [hB] at *
          omega
        have hlen : o - off < ((List.range m).map src).length := by
          rw [length_map, length_range]
          omega
        rw [overwrite_of_mem hin.1 hin.2, hk, Bytes.get_blit_of_lt _ _ hlen (by
          rw [hB] at *
          omega)]
        simp
      · rw [overwrite_of_not_mem (by omega), Bytes.get_blit_of_not_mem]
        · rw [← ho, Extent.byte]
        · rw [length_map, length_range]
          rw [hB] at *
          omega
    · have hout : ¬ (off ≤ o ∧ o < off + m) := fun hin => ho (htouch _ ⟨o, hin.1, hin.2, rfl⟩)
      rw [overwrite_of_not_mem (by omega)]
      simp [Extent.byte, setBlock, ho]
  · rw [htouch bn hbn]
    exact hptr
  · have h1 := hyx (hall _ ⟨off, le_refl _, by omega, rfl⟩)
    rw [h1]
    rfl

/-- The inode after the size has been set. -/
theorem file_setSize {size : UInt32} (hw : x.Wrote off n src y) (hsize : size.toNat = off + n)
    (hle : off ≤ x.din.size.toNat) (hlt : x.din.size.toNat < size.toNat) :
    (y.setDin { y.din with size := size }).file =
      { x.file with size := size, data := overwrite x.file.data off n src } := by
  obtain ⟨a, ha⟩ := hw.din
  simp only [Extent.file, Extent.setDin, ha, FileData.mk.injEq, true_and]
  funext o
  by_cases ho : o < size.toNat
  · simp only [ho, if_true]
    change y.byte o = _
    rw [hw.byte]
    by_cases hin : off ≤ o ∧ o < off + n
    · rw [overwrite_of_mem hin.1 hin.2, overwrite_of_mem hin.1 hin.2]
    · have hlt' : o < x.din.size.toNat := by omega
      rw [overwrite_of_not_mem (by omega), overwrite_of_not_mem (by omega), if_pos hlt']
  · have hnot : ¬ o < x.din.size.toNat := by omega
    simp only [ho, if_false]
    rw [overwrite_of_not_mem (by omega), if_neg hnot]

section Finish

variable {a b : UInt32}

theorem setEnd_pos (hw : x.Wrote off n src y) (h : b > 0 ∧ a + b > x.din.size) :
    y.setEnd a b = y.setDin { y.din with size := a + b } := if_pos (by rw [hw.size]; exact h)

theorem setEnd_neg (hw : x.Wrote off n src y) (h : ¬ (b > 0 ∧ a + b > x.din.size)) :
    y.setEnd a b = y := if_neg (by rw [hw.size]; exact h)

/-- What `writei` makes of the file. -/
theorem file_setEnd (hw : x.Wrote a.toNat b.toNat src y) (hok : ¬ x.file.Refuses a b) :
    (y.setEnd a b).file = x.file.write a b src := by
  obtain ⟨hle, hadd, -⟩ := bounds hok
  by_cases h : b > 0 ∧ a + b > x.din.size
  · have hlt : x.din.size.toNat < (a + b).toNat := UInt32.lt_iff_toNat_lt.1 h.2
    rw [hw.setEnd_pos h, hw.file_setSize hadd hle hlt, FileData.write,
      if_pos (show b > 0 ∧ a + b > x.file.size from h)]
  · have hend : a.toNat + b.toNat ≤ x.file.size.toNat := end_le hok h
    rw [hw.setEnd_neg h, hw.file, FileData.write,
      if_neg (show ¬ (b > 0 ∧ a + b > x.file.size) from h), FileData.writeData]
    simp only [FileData.mk.injEq, true_and]
    funext o
    by_cases ho : o < x.file.size.toNat
    · simp only [ho, if_true]
    · simp only [ho, if_false]
      rw [overwrite_of_not_mem (by omega)]
      exact (if_neg ho).symm

/-- Nor does the new size make a hole. -/
theorem holeFree_setEnd (hw : x.Wrote a.toNat b.toNat src y) (hok : ¬ x.file.Refuses a b)
    (hx : x.HoleFree) (ht : x.din.type ≠ T_DEV) : (y.setEnd a b).HoleFree := by
  obtain ⟨hle, hadd, hmax⟩ := bounds hok
  by_cases h : b > 0 ∧ a + b > x.din.size
  · rw [hw.setEnd_pos h]
    intro _ bn hbn
    have hbn' : bn * BSIZE < a.toNat + b.toNat := by
      rw [← hadd]
      exact hbn
    have hptr : (y.setDin { y.din with size := a + b }).ptr = y.ptr := ptr_setDin rfl
    rw [hptr]
    by_cases hold : bn * BSIZE < x.din.size.toNat
    · obtain ⟨h4, h5⟩ := hx ht bn hold
      exact ⟨h4, by rwa [hw.ptr bn h5]⟩
    · refine ⟨?_, hw.alloc bn ⟨bn * BSIZE, by omega, hbn', ?_⟩⟩
      · have h6 : bn * BSIZE < MAXFILE * BSIZE := by omega
        exact lt_of_mul_lt_mul_right h6 (Nat.zero_le _)
      · exact Nat.mul_div_cancel _ (by decide)
  · rw [hw.setEnd_neg h]
    exact hw.holeFree hx

/-- A request that does not grow a file without holes leaves the inode as it is. -/
theorem din_eq (hw : x.Wrote a.toNat b.toNat src y) (hok : ¬ x.file.Refuses a b)
    (hx : x.HoleFree) (ht : x.din.type ≠ T_DEV) (h : ¬ (b > 0 ∧ a + b > x.din.size)) :
    y.din = x.din :=
  hw.same fun bn hbn => (hx ht bn (hbn.lt.trans_le (end_le hok h))).2

end Finish

end Wrote

end Extent

namespace Fs

open Function

variable {M : Mount}

theorem map_range_add {α : Type} (f : ℕ → α) (m n : ℕ) :
    (List.range (m + n)).map f =
      (List.range m).map f ++ (List.range n).map fun i => f (m + i) := by
  rw [range_add, map_append, map_map]
  rfl

theorem lt_two_pow_of_data {b : ℕ} (h : M.Data b) : b < 2 ^ 32 :=
  h.2.trans (M.size_lt.trans (by decide))

theorem bblock_add {j bi : ℕ} (hbi : bi < BPB) : M.bblock (BPB * j + bi) = M.bblock (BPB * j) := by
  have h0 : 0 < BPB := by decide
  rw [Mount.bblock, Mount.bblock, Nat.mul_add_div h0, Nat.div_eq_of_lt hbi,
    Nat.mul_div_cancel_left _ h0, add_zero]

theorem setUse_add {d : Disk} {j bi : ℕ} (hbi : bi < BPB) :
    M.setUse d (BPB * j + bi) =
      update d (M.bblock (BPB * j)) (setBitIn (d (M.bblock (BPB * j))) bi) := by
  rw [Mount.setUse, bblock_add hbi, Nat.mul_add_mod, Nat.mod_eq_of_lt hbi]

theorem inUse_add {d : Disk} {j bi : ℕ} (hbi : bi < BPB) :
    M.inUse d (BPB * j + bi) = bitIn (d (M.bblock (BPB * j))) bi := by
  rw [Mount.inUse, bblock_add hbi, Nat.mul_add_mod, Nat.mod_eq_of_lt hbi]

end Fs

end Xv6
