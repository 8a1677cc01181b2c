import Xv6.SoloDirs

/-!
# Changes of the tree

A complete system call changes the inodes in a few ways (`Edit`). It frees inodes without links,
writes a file, adds a name for a new inode or for one that is there, makes a directory, or removes
a name. The inodes are seen as files here, without their blocks.
-/

namespace Xv6

open Function

/-- The inodes without their blocks. -/
def fileOf (X : ℕ → Option Extent) : ℕ → Option FileData := fun i => (X i).map Extent.file

theorem fileOf_update (X : ℕ → Option Extent) (i : ℕ) (o : Option Extent) :
    fileOf (update X i o) = update (fileOf X) i (o.map Extent.file) := by
  funext j
  unfold fileOf
  by_cases hj : j = i
  · rw [hj, update_self, update_self]
  · rw [update_of_ne hj, update_of_ne hj]

theorem fileOf_eq_some {X : ℕ → Option Extent} {i : ℕ} {x : Extent} (h : X i = some x) :
    fileOf X i = some x.file := by
  rw [fileOf, h]
  rfl

namespace FileData

/-- The entries of a directory after the first two are empty. -/
def Empty (f : FileData) : Prop := ∀ j, 2 ≤ j → f.Complete j → (f.entry j).inum = 0

/-- A directory starts with an entry `"."` for itself and an entry `".."`. -/
structure Dots (f : FileData) (i d : ℕ) : Prop where
  complete : f.Complete 1
  dot : f.entry 0 = ⟨i, canon dotName⟩
  dotdot : f.entry 1 = ⟨d, canon dotdotName⟩

/-- The empty entry that `sys_unlink` stores. -/
def noEntry : Dirent := ⟨0, List.replicate DIRSIZ 0⟩

end FileData

/-- The changes of the inodes. -/
inductive Edit (F : ℕ → Option FileData) : (ℕ → Option FileData) → Prop where
  /-- Inodes without links are freed. -/
  | free {F' : ℕ → Option FileData}
      (h : ∀ i, F' i = F i ∨ F' i = none ∧ ∃ f, F i = some f ∧ f.nlink = 0) : Edit F F'
  /-- A file is written. -/
  | write {i : ℕ} {f g : FileData} (hf : F i = some f) (ht : f.type ≠ T_DIR)
      (hg : g.type = f.type) (hn : g.nlink = f.nlink) : Edit F (update F i (some g))
  /-- A name is added in directory `d`, for a new inode or for one that is no directory. -/
  | add {d i : ℕ} {fd g : FileData} {name : List UInt8} (hd : F d = some fd)
      (htd : fd.type = T_DIR) (hmiss : fd.index name = none)
      (hfits : DESIZE * fd.vacancy + DESIZE ≤ MAXFILE * BSIZE) (hi : i < 2 ^ 16) (hne : i ≠ d)
      (hnew : F i = none → 0 < i) (ht : ∀ f, F i = some f → f.type ≠ T_DIR)
      (hg : g.type ≠ T_DIR) (hn : g.nlink = (F i).elim 0 FileData.nlink + 1) :
      Edit F (update (update F i (some g)) d
        (some (fd.setEntry fd.vacancy ⟨i, canon name⟩)))
  /-- A directory is made in directory `d`. -/
  | mkdir {d i : ℕ} {fd g : FileData} {name : List UInt8} (hd : F d = some fd)
      (htd : fd.type = T_DIR) (hmiss : fd.index name = none)
      (hfits : DESIZE * fd.vacancy + DESIZE ≤ MAXFILE * BSIZE) (hi : i < 2 ^ 16) (h0 : 0 < i)
      (hnew : F i = none) (hg : g.type = T_DIR) (hn : g.nlink = 1) (hdots : g.Dots i d)
      (hsize : g.size.toNat = 2 * DESIZE) :
      Edit F (update (update F i (some g)) d
        (some ({ fd with nlink := fd.nlink + 1 }.setEntry fd.vacancy ⟨i, canon name⟩)))
  /-- The name of inode `i` in the place `j` of directory `d` is removed. -/
  | remove {d i j : ℕ} {fd f : FileData} {name : List UInt8} (hd : F d = some fd)
      (htd : fd.type = T_DIR) (hj : fd.index name = some j) (hi : (fd.entry j).inum = i)
      (hfits : DESIZE * j + DESIZE ≤ MAXFILE * BSIZE)
      (hdot : namecmp name dotName ≠ 0) (hdotdot : namecmp name dotdotName ≠ 0) (hne : i ≠ d)
      (hf : F i = some f) (hlink : ¬ f.nlink < 1) (hempty : f.type = T_DIR → f.Empty) :
      Edit F (update (update F d (some { fd.setEntry j FileData.noEntry with
        nlink := if f.type = T_DIR then fd.nlink - 1 else fd.nlink })) i
        (some { f with nlink := f.nlink - 1 }))

/-- The changes of a whole call. -/
abbrev Edits : (ℕ → Option FileData) → (ℕ → Option FileData) → Prop := Relation.ReflTransGen Edit

/-! ## New directories -/

namespace FileData

variable {f : FileData} {i d j : ℕ}

theorem Complete.lt (h : f.Complete j) : j < numEntries f.size :=
  lt_numEntries.2 ((Nat.lt_add_of_pos_right (by decide)).trans_le h)

theorem numEntries_eq {n : ℕ} (hs : f.size.toNat = DESIZE * n) : numEntries f.size = n := by
  have hD : DESIZE = 16 := rfl
  unfold numEntries
  rw [hs, hD]
  omega

/-- An entry added to a directory all of whose `n` entries are used. -/
theorem vacancy_of_size {n : ℕ} (hs : f.size.toNat = DESIZE * n)
    (hne : ∀ l < n, (f.entry l).inum ≠ 0) : f.vacancy = n := by
  unfold vacancy
  rw [numEntries_eq hs, List.find?_eq_none.2 fun l hl => by simpa using hne l (List.mem_range.1 hl)]
  rfl

theorem index_eq_none {n : ℕ} {name : List UInt8} (hs : f.size.toNat = DESIZE * n)
    (hne : ∀ l < n, canon name ≠ canon (f.entry l).name) : f.index name = none := by
  unfold index
  rw [numEntries_eq hs]
  refine List.find?_eq_none.2 fun l hl => ?_
  simp only [decide_eq_true_eq, not_and]
  exact fun _ hc => hne l (List.mem_range.1 hl) (namecmp_eq_zero_iff.1 hc)

theorem size_setEntry_end {n : ℕ} (hs : f.size.toNat = DESIZE * n)
    (hn : DESIZE * n ≤ MAXFILE * BSIZE) (de : Dirent) :
    (f.setEntry n de).size.toNat = DESIZE * (n + 1) := by
  rw [size_setEntry hn, hs, Nat.mul_succ]
  omega

/-- The two entries that `create` stores in a new directory. -/
theorem dots_setEntry (hs : f.size = 0) (hi : i < 2 ^ 16) (hd : d < 2 ^ 16) (h0 : 0 < i) :
    f.vacancy = 0 ∧ f.index dotName = none ∧
    (f.setEntry 0 ⟨i, canon dotName⟩).vacancy = 1 ∧
    (f.setEntry 0 ⟨i, canon dotName⟩).index dotdotName = none ∧
    ((f.setEntry 0 ⟨i, canon dotName⟩).setEntry 1 ⟨d, canon dotdotName⟩).Dots i d ∧
    ((f.setEntry 0 ⟨i, canon dotName⟩).setEntry 1 ⟨d, canon dotdotName⟩).size.toNat =
      2 * DESIZE := by
  have hs0 : f.size.toNat = DESIZE * 0 := by rw [hs]; rfl
  have hs1 := size_setEntry_end hs0 (by decide) ⟨i, canon dotName⟩
  have hs2 := size_setEntry_end hs1 (by decide) ⟨d, canon dotdotName⟩
  have he : (f.setEntry 0 ⟨i, canon dotName⟩).entry 0 = ⟨i, canon dotName⟩ :=
    entry_setEntry_self (by decide) hi (length_strncpy ..)
  have hl : ∀ l < 1, (f.setEntry 0 ⟨i, canon dotName⟩).entry l = ⟨i, canon dotName⟩ := by
    intro l hl
    obtain rfl : l = 0 := by omega
    exact he
  refine ⟨vacancy_of_size hs0 fun l hl => by omega, index_eq_none hs0 fun l hl => by omega,
    vacancy_of_size hs1 fun l hl' => by rw [hl l hl']; exact h0.ne',
    index_eq_none hs1 fun l hl' => ?_, ⟨?_, ?_, ?_⟩, hs2⟩
  · rw [hl l hl']
    exact (by decide : canon dotdotName ≠ canon (canon dotName))
  · unfold Complete
    rw [hs2]
    decide
  · rw [entry_setEntry_of_ne (by decide) (by decide), he]
  · exact entry_setEntry_self (by decide) hd (length_strncpy ..)

end FileData

end Xv6
