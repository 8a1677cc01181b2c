import Xv6.FileData

/-!
# Entries of directories

A directory is a file whose bytes are entries (`FileData.entry`). Storing an entry
changes that entry and no other (`entry_setEntry_self`, `entry_setEntry_of_ne`), since
no entry crosses a block boundary. `FileData.Finds` and `FileData.Vacant` are what the loops of
`dirlookup` and `dirlink` look for.
-/

namespace Xv6

open List

/-! ## Entries -/

theorem FileData.entry_eq (f : FileData) (j : ℕ) : f.entry j = entryAt f.data j := rfl

theorem entryAt_congr {g g' : ℕ → UInt8} {j : ℕ}
    (h : ∀ o, DESIZE * j ≤ o → o < DESIZE * j + DESIZE → g o = g' o) :
    entryAt g j = entryAt g' j := by
  unfold entryAt
  congr 1
  refine map_congr_left fun i hi => h _ (Nat.le_add_right _ _) ?_
  rw [mem_range] at hi
  omega

/-- The bytes of an entry, as `writei` takes them. -/
def Dirent.src (de : Dirent) : ℕ → UInt8 := fun i => de.bytes.getD i 0

theorem entryAt_overwrite_self (g : ℕ → UInt8) (j : ℕ) {de : Dirent} (hi : de.inum < 2 ^ 16)
    (hn : de.name.length = DIRSIZ) : entryAt (overwrite g (DESIZE * j) DESIZE de.src) j = de := by
  have hbytes : ((List.range DESIZE).map fun i =>
      overwrite g (DESIZE * j) DESIZE de.src (DESIZE * j + i)) = de.bytes := by
    refine ext_getElem (by rw [length_map, length_range, length_bytes hn])
      fun i h1 h2 => ?_
    rw [length_map, length_range] at h1
    rw [getElem_map, getElem_range,
      overwrite_of_mem (Nat.le_add_right _ _) (by omega), Nat.add_sub_cancel_left, Dirent.src,
      getD_eq_getElem _ _ h2]
  rw [entryAt, hbytes, ofBytes_bytes hi]

theorem entryAt_overwrite_of_ne (g src : ℕ → UInt8) {j l : ℕ} (h : l ≠ j) :
    entryAt (overwrite g (DESIZE * j) DESIZE src) l = entryAt g l := by
  refine entryAt_congr fun o h1 h2 => overwrite_of_not_mem ?_
  have hD : DESIZE = 16 := rfl
  rw [hD] at h1 h2 ⊢
  omega

/-- The entries in the bytes of a list of entries. -/
theorem FileData.entry_of_bytes {f : FileData} {des : List Dirent} {de : Dirent} {j : ℕ}
    (hlen : ∀ a ∈ des, a.bytes.length = DESIZE) (hj : des[j]? = some de) (hi : de.inum < 2 ^ 16)
    (hdata : ∀ i < DESIZE, f.data (DESIZE * j + i) =
      (des.flatMap Dirent.bytes).getD (DESIZE * j + i) 0) : f.entry j = de := by
  have hde := hlen de (mem_of_getElem? hj)
  have hbytes : ((List.range DESIZE).map fun i => f.data (DESIZE * j + i)) = de.bytes := by
    refine ext_getElem (by rw [length_map, length_range, hde]) fun i h1 h2 => ?_
    rw [length_map, length_range] at h1
    rw [getElem_map, getElem_range, hdata i h1, getD_eq_getElem?_getD,
      getElem?_flatMap_const h1 hlen hj, List.getElem?_eq_getElem h2]
    rfl
  rw [FileData.entry, entryAt, hbytes, ofBytes_bytes hi]

/-- The entries that a lookup goes through. -/
theorem lt_numEntries {size : UInt32} {j : ℕ} : j < numEntries size ↔ DESIZE * j < size.toNat := by
  have hD : DESIZE = 16 := rfl
  unfold numEntries
  rw [hD]
  omega

namespace FileData

/-- The entry lies within the file. -/
def Complete (f : FileData) (j : ℕ) : Prop := DESIZE * j + DESIZE ≤ f.size.toNat

/-- Store an entry. -/
def setEntry (f : FileData) (j : ℕ) (de : Dirent) : FileData :=
  f.write (UInt32.ofNat (DESIZE * j)) (UInt32.ofNat DESIZE) de.src

/-- The `j`-th entry is the first one with the name. -/
structure Finds (f : FileData) (name : List UInt8) (j : ℕ) : Prop where
  complete : f.Complete j
  inum : (f.entry j).inum ≠ 0
  hit : namecmp name (f.entry j).name = 0
  first : ∀ l < j, f.Complete l ∧
    ((f.entry l).inum = 0 ∨ namecmp name (f.entry l).name ≠ 0)

/-- No entry has the name. -/
def Misses (f : FileData) (name : List UInt8) : Prop :=
  ∀ j < numEntries f.size, f.Complete j ∧
    ((f.entry j).inum = 0 ∨ namecmp name (f.entry j).name ≠ 0)

/-- The `j`-th entry is the first empty one, or the first past the end of the directory. -/
structure Vacant (f : FileData) (j : ℕ) : Prop where
  first : ∀ l < j, f.Complete l ∧ (f.entry l).inum ≠ 0
  empty : f.Complete j ∧ (f.entry j).inum = 0 ∨ f.size.toNat = DESIZE * j

variable {f : FileData} {j l : ℕ} {de : Dirent}

theorem toNat_offset (h : DESIZE * j ≤ MAXFILE * BSIZE) :
    (UInt32.ofNat (DESIZE * j)).toNat = DESIZE * j := by
  have h1 : MAXFILE * BSIZE < 2 ^ 32 := by decide
  rw [UInt32.toNat_ofNat', Nat.mod_eq_of_lt (by omega)]

theorem toNat_desize : (UInt32.ofNat DESIZE).toNat = DESIZE := by decide

/-- The end of the entry as `writei` computes it. -/
theorem toNat_end (h : DESIZE * j ≤ MAXFILE * BSIZE) :
    (UInt32.ofNat (DESIZE * j) + UInt32.ofNat DESIZE).toNat = DESIZE * j + DESIZE := by
  have h1 : MAXFILE * BSIZE + DESIZE < 2 ^ 32 := by decide
  rw [UInt32.toNat_add, toNat_offset h, toNat_desize, Nat.mod_eq_of_lt (by omega)]

theorem entry_setEntry_self (h : DESIZE * j ≤ MAXFILE * BSIZE) (hi : de.inum < 2 ^ 16)
    (hn : de.name.length = DIRSIZ) : (f.setEntry j de).entry j = de := by
  rw [entry_eq]
  unfold setEntry write
  simp only [toNat_offset h, toNat_desize]
  exact entryAt_overwrite_self _ j hi hn

theorem entry_setEntry_of_ne (h : DESIZE * j ≤ MAXFILE * BSIZE) (hl : l ≠ j) :
    (f.setEntry j de).entry l = f.entry l := by
  rw [entry_eq, entry_eq]
  unfold setEntry write
  simp only [toNat_offset h, toNat_desize]
  exact entryAt_overwrite_of_ne _ _ hl

theorem size_setEntry (h : DESIZE * j ≤ MAXFILE * BSIZE) :
    (f.setEntry j de).size.toNat = max f.size.toNat (DESIZE * j + DESIZE) := by
  have hpos : UInt32.ofNat DESIZE > 0 := by decide
  unfold setEntry write
  simp only [hpos, true_and, gt_iff_lt, UInt32.lt_iff_toNat_lt, toNat_end h]
  split_ifs with hlt
  · rw [toNat_end h]
    omega
  · omega

/-- Storing an entry in its place or at the end. -/
theorem complete_setEntry (hj : DESIZE * j ≤ f.size.toNat) (hmax : DESIZE * j ≤ MAXFILE * BSIZE) :
    (f.setEntry j de).Complete l ↔ f.Complete l ∨ l = j := by
  have hD : DESIZE = 16 := rfl
  unfold Complete
  rw [size_setEntry hmax]
  rw [hD] at hj ⊢
  omega

end FileData

namespace Fs

variable {x : Extent} {j : ℕ}

theorem T_DIR_ne_T_DEV : T_DIR ≠ T_DEV := by decide

/-- The size of a file without holes. -/
theorem size_le_of_holeFree (hx : x.HoleFree) (ht : x.din.type ≠ T_DEV) :
    x.din.size.toNat ≤ MAXFILE * BSIZE := by
  by_contra h
  exact absurd (hx ht MAXFILE (by omega)).1 (lt_irrefl _)

theorem readAt_bytes {f : FileData} (hle : f.size.toNat ≤ MAXFILE * BSIZE) (hj : f.Complete j) :
    f.readAt (UInt32.ofNat (DESIZE * j)) (UInt32.ofNat DESIZE) =
      ((DESIZE : ℤ), (List.range DESIZE).map fun i => f.data (DESIZE * j + i)) := by
  have hoff : DESIZE * j ≤ MAXFILE * BSIZE := by
    unfold FileData.Complete at hj
    omega
  have h1 := FileData.toNat_offset hoff
  have h2 := FileData.toNat_end hoff
  unfold FileData.Complete at hj
  have hgood : ¬ (UInt32.ofNat (DESIZE * j) > f.size ∨
      UInt32.ofNat (DESIZE * j) + UInt32.ofNat DESIZE < UInt32.ofNat (DESIZE * j)) := by
    rw [gt_iff_lt, UInt32.lt_iff_toNat_lt, UInt32.lt_iff_toNat_lt, h1, h2]
    omega
  have hend : ¬ UInt32.ofNat (DESIZE * j) + UInt32.ofNat DESIZE > f.size := by
    rw [gt_iff_lt, UInt32.lt_iff_toNat_lt, h2]
    omega
  unfold FileData.readAt
  rw [if_neg hgood]
  simp only [hend, if_false, h1, FileData.toNat_desize]

end Fs

end Xv6
