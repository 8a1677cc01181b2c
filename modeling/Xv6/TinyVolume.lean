import Xv6.SoloCalls

/-!
# A small file system

The volume `tiny` with a root directory in block 4 (`tinyVol`), and a kernel on it that has just
been started (`tinyBoot`), for examples of system calls. The file system is consistent
(`consistent_tinyVol`, `inodes_tinyFiles`), and the kernel is between two calls
(`quiet_tinyBoot`).
-/

namespace Xv6.Fs

open Prog Function Option

variable {des : List Dirent} {nlink : Int16} {i : ℕ} {x : Extent}

/-- A disk with the root directory in block 4. The bitmap marks blocks 0 to 4. -/
def tinyVol (nlink : Int16) (des : List Dirent) : Disk :=
  update (tinyDisk ROOTINO nlink des) 3 ((Bytes.zero BSIZE).blit 0 [31])

theorem dinode_tinyVol (hi : i < 7) :
    tiny.dinode (tinyVol nlink des) i = tiny.dinode (tinyDisk ROOTINO nlink des) i := by
  have hlt := tiny.iblock_lt (show i < tiny.sb.ninodes from hi)
  exact Mount.dinode_update (show tiny.iblock i ≠ 3 from hlt.ne) _

theorem onDisk_tinyVol : (tinyExtent ROOTINO nlink des).OnDisk (tinyVol nlink des) := by
  refine (onDisk_tinyExtent ..).congr fun k hk => update_of_ne ?_ ..
  rw [ptr_tinyExtent] at hk ⊢
  split_ifs at hk ⊢
  · decide
  · exact absurd rfl hk

/-- The root directory is the only inode. -/
theorem inodes_tinyVol (nlink : Int16) (des : List Dirent) : inodes tiny (tinyVol nlink des) =
    update (fun _ => none) ROOTINO (some (tinyExtent ROOTINO nlink des)) := by
  have hN : tiny.sb.ninodes = 7 := rfl
  funext i
  unfold inodes
  rw [hN]
  by_cases hi : i < 7
  · rw [if_pos hi]
    by_cases hroot : i = ROOTINO
    · subst hroot
      rw [update_self, readInode_congr (dinode_tinyVol hi), readInode_tinyDisk]
      intro x hx
      rw [readInode_tinyDisk] at hx
      exact some.inj hx ▸ onDisk_tinyVol
    · rw [update_of_ne hroot, readInode_congr (dinode_tinyVol hi),
        readInode_tinyDisk_of_ne hi hroot]
      intro x hx
      rw [readInode_tinyDisk_of_ne hi hroot] at hx
      cases hx
  · have hroot : i ≠ ROOTINO := by
      rintro rfl
      exact hi (by decide)
    rw [if_neg hi, update_of_ne hroot]

theorem place_tinyVol (o : (ℕ × ℕ) ⊕ Unit) :
    place (inodes tiny (tinyVol nlink des)) (fun _ : Unit => none) o =
      if o = .inl (ROOTINO, 0) then 4 else 0 := by
  rw [inodes_tinyVol]
  rcases o with ⟨j, k⟩ | u
  · by_cases hj : j = ROOTINO
    · subst hj
      rw [place_inode (update_self ..), ptr_tinyExtent]
      simp
    · simp [place, hj]
  · simp [place]

theorem consistent_tinyVol (nlink : Int16) (des : List Dirent) :
    Consistent tiny (tinyVol nlink des) := by
  have huse : ∀ b < 10, (tiny.inUse (tinyVol nlink des) b = true ↔ b ≤ 4) := by
    have hblk : tinyVol nlink des 3 = (Bytes.zero BSIZE).blit 0 [31] := update_self ..
    have hbits : ∀ b : Fin 10, (bitIn ((Bytes.zero BSIZE).blit 0 [31]) (b.val % BPB) = true ↔
        b.val ≤ 4) := by decide
    intro b hb
    have hB : BPB = 4096 := rfl
    have hbb : tiny.bblock b = 3 := by
      unfold Mount.bblock
      rw [Nat.div_eq_of_lt (by omega)]
      rfl
    unfold Mount.inUse
    rw [hbb, hblk]
    exact hbits ⟨b, hb⟩
  refine ⟨⟨Mount.not_data_zero, fun o ho => ?_, fun o o' ho he => ?_, fun b hb => ?_⟩,
    fun b hb => (huse b (by have : tiny.nmeta = 4 := rfl; omega)).2 (by
      have : tiny.nmeta = 4 := rfl
      omega), fun i x hi => ?_, (fun _ _ _ he => by cases he), fun _ _ he => by cases he⟩
  · rw [place_tinyVol] at ho ⊢
    split_ifs at ho ⊢
    · exact ⟨by decide, by decide⟩
    · exact absurd rfl ho
  · rw [place_tinyVol] at ho he
    rw [place_tinyVol] at he
    by_cases h1 : o = .inl (ROOTINO, 0)
    · by_cases h2 : o' = .inl (ROOTINO, 0)
      · rw [h1, h2]
      · rw [if_pos h1, if_neg h2] at he
        cases he
    · exact absurd (if_neg h1) ho
  · have hle : 4 ≤ b := hb.1
    rw [huse b hb.2]
    constructor
    · intro h4
      exact ⟨.inl (ROOTINO, 0), by rw [place_tinyVol, if_pos rfl]; omega⟩
    · rintro ⟨o, ho⟩
      rw [place_tinyVol] at ho
      split_ifs at ho <;> omega
  · rw [inodes_tinyVol] at hi
    by_cases hroot : i = ROOTINO
    · subst hroot
      rw [update_self] at hi
      obtain rfl := some.inj hi
      exact ⟨by decide, onDisk_tinyVol, show T_DIR ≠ 0 by decide, fun _ => trivial⟩
    · rw [update_of_ne hroot] at hi
      cases hi

/-- The root directory with the file `"a"`. -/
def tinyEntries : List Dirent :=
  [⟨ROOTINO, canon dotName⟩, ⟨ROOTINO, canon dotdotName⟩, ⟨2, canon [97]⟩]

/-- An empty file. -/
def emptyDinode : Dinode := ⟨T_FILE, 0, 0, 1, 0, fun _ => 0⟩

/-- A disk with the root directory and the file `"a"`, which is empty. -/
def tinyFiles : Disk := tiny.putDinode (tinyVol 1 tinyEntries) 2 emptyDinode

theorem inodes_tinyFiles : inodes tiny tinyFiles = update (update (fun _ => none) ROOTINO
      (some (tinyExtent ROOTINO 1 tinyEntries))) 2 (some (.bare emptyDinode)) ∧
    Consistent tiny tinyFiles := by
  have hfree : (tiny.dinode (tinyVol 1 tinyEntries) 2).type = 0 := by
    rw [← readInode_eq_none]
    have := congrFun (inodes_tinyVol 1 tinyEntries) 2
    rwa [inodes, if_pos (by decide), update_of_ne (by decide)] at this
  have h := Consistent.putBare (consistent_tinyVol 1 tinyEntries) (by decide) hfree emptyDinode
    (fun _ => by simp [Dinode.addr, emptyDinode]) (show T_FILE ≠ 0 by decide)
  rwa [inodes_tinyVol] at h

theorem inode_tinyFiles (h : inodes tiny tinyFiles i = some x) :
    x = tinyExtent ROOTINO 1 tinyEntries ∨ x = .bare emptyDinode := by
  rw [inodes_tinyFiles.1] at h
  by_cases h2 : i = 2
  · subst h2
    rw [update_self] at h
    exact Or.inr (some.inj h).symm
  · rw [update_of_ne h2] at h
    by_cases h1 : i = ROOTINO
    · subst h1
      rw [update_self] at h
      exact Or.inl (some.inj h).symm
    · rw [update_of_ne h1] at h
      cases h

theorem nlink_tinyFiles (i : ℕ) (x : Extent) (h : inodes tiny tinyFiles i = some x) :
    0 < x.din.nlink := by
  rcases inode_tinyFiles h with rfl | rfl
  · exact show (0 : Int16) < 1 by decide
  · exact show (0 : Int16) < 1 by decide

theorem goodDir_tinyFiles (h : inodes tiny tinyFiles i = some x) (ht : x.din.type = T_DIR) :
    GoodDir tiny x := by
  rcases inode_tinyFiles h with rfl | rfl
  · exact goodDir_tinyExtent (by decide) (by decide) (by decide) (by decide)
  · exact absurd ht (show T_FILE ≠ T_DIR by decide)

/-- A kernel on this disk. Its first process is in the root directory, to which there are `n`
more pointers. -/
def tinyBoot (n : ℕ) : State Unit where
  disk := tinyFiles
  log := ⟨30, 0, false, []⟩
  icache k := if k.val = 0 then ⟨ROOTDEV, ROOTINO, n + 1⟩ else ⟨0, 0, 0⟩
  lock _ := none
  copy _ := ⟨true, tiny.dinode tinyFiles ROOTINO⟩
  ftable _ := ⟨.none, 0, false, false, ⟨0, ninode_pos⟩, 0⟩
  proc _ := ⟨some ⟨0, ninode_pos⟩, fun _ => none⟩
  embryos := []
  input := []

theorem tinyBoot_ref {n : ℕ} {k : Slot} (h : 0 < ((tinyBoot n).icache k).ref) : k.val = 0 := by
  by_contra hk
  rw [tinyBoot] at h
  simp only [hk, if_false, lt_irrefl] at h

theorem quiet_tinyBoot (n : ℕ) : Quiet tiny (tinyBoot n) where
  coherent := by
    have hx : inodes tiny tinyFiles ROOTINO = some (tinyExtent ROOTINO 1 tinyEntries) := by
      rw [inodes_tinyFiles.1, update_of_ne (by decide), update_self]
    obtain ⟨hdin, htype, -⟩ := readInode_eq_some (inodes_eq_some.1 hx).2
    refine ⟨fun k => ?_, fun k hk => ?_, fun k l hk hl _ => ?_, fun k hk _ => ?_⟩
    · by_cases hk : k.val = 0
      · simp only [tinyBoot, hk, if_true]
        omega
      · simp only [tinyBoot, hk, if_false, le_refl]
    · simp [tinyBoot, tinyBoot_ref hk]
    · exact Fin.ext ((tinyBoot_ref hk).trans (tinyBoot_ref hl).symm)
    · simp only [tinyBoot, tinyBoot_ref hk, if_true, true_and]
      rwa [hdin]
  lock _ := rfl
  linked i hi x hx h0 := by
    have := nlink_tinyFiles i x (inodes_eq_some.2 ⟨hi, hx⟩)
    rw [h0] at this
    exact absurd this (by decide)
  root := by decide
  dirs i hi x hx ht := goodDir_tinyFiles (inodes_eq_some.2 ⟨hi, hx⟩) ht
  consistent := inodes_tinyFiles.2
  below k hk := by
    simp only [tinyBoot, tinyBoot_ref hk, if_true]
    decide

theorem hasCwd_tinyBoot (n : ℕ) : HasCwd tiny (tinyBoot n) () :=
  ⟨⟨0, by decide⟩, rfl, by simp only [tinyBoot, if_true]; omega, show ROOTINO < 7 by decide⟩

end Xv6.Fs
