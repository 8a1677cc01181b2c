import Xv6.MkfsRead
import Xv6.SoloWrites

/-!
# The image as a volume

An image that `mkfs` has made is a consistent file system (`Image.consistent`) : its inodes have
the blocks that the bitmap marks, each block once.
-/

namespace Xv6.Mkfs

open Function Fs

variable {im : Img} {files : List HostFile} {X : ℕ → Option Extent} {x : Extent} {i : ℕ}

/-- The inodes on the disk are those that `mkfs` made. -/
theorem Image.inodes_eq (h : Image im files X) (hin : files.length + 2 ≤ NINODES) :
    inodes mount im.disk = X := by
  have hN : mount.sb.ninodes = NINODES := rfl
  funext i
  unfold inodes
  by_cases hi : i < mount.sb.ninodes
  · rw [if_pos hi, h.readInode_eq hi]
  · rw [if_neg hi]
    cases hx : X i with
    | none => rfl
    | some x =>
      have hlt := ((h.built.ino i).1 (by rw [hx]; rfl)).2
      rw [h.count] at hlt
      omega

theorem Image.consistent (h : Image im files X) (hin : files.length + 2 ≤ NINODES) :
    Consistent mount im.disk := by
  have hsize : mount.sb.size ≤ BPB := by decide
  have huse : ∀ b < mount.sb.size, (mount.inUse im.disk b = true ↔ b < im.freeblock) := by
    intro b hb
    rw [h.bits b (hb.trans_le hsize), decide_eq_true_eq]
  have hplace : ∀ i k, place X (fun _ : Unit => none) (.inl (i, k)) =
      place X noPend (.inl (i, k)) := fun _ _ => rfl
  unfold Consistent
  rw [h.inodes_eq hin]
  refine ⟨⟨Mount.not_data_zero, fun o ho => ?_, fun o o' ho he => ?_, fun b hb => ?_⟩,
    fun b hb => ?_, fun i x hi => ?_, (fun _ _ _ he => by cases he), fun _ _ he => by cases he⟩
  · rcases o with ⟨i, k⟩ | u
    · rw [hplace] at ho ⊢
      refine ⟨h.built.excl.mem _ ho, ?_⟩
      cases hx : X i with
      | none => simp [place, hx] at ho
      | some x =>
        rw [place_inode hx]
        exact h.below i x hx k
    · exact absurd rfl ho
  · rcases o with ⟨i, k⟩ | u
    · rcases o' with ⟨j, l⟩ | u
      · simpa using h.built.excl.inj (.inl (i, k)) (.inl (j, l)) ho he
      · exact absurd he ho
    · exact absurd rfl ho
  · rw [huse b hb.2, h.built.excl.used_iff b hb.1]
    constructor
    · rintro ⟨⟨i, k⟩ | e, ho⟩
      · exact ⟨.inl (i, k), ho⟩
      · exact e.elim
    · rintro ⟨⟨i, k⟩ | u, ho⟩
      · exact ⟨.inl (i, k), ho⟩
      · exact absurd (ho ▸ hb) Mount.not_data_zero
  · exact (huse b (hb.trans_le Mount.nmeta_le)).2 (hb.trans_le h.built.nmeta_le)
  · have hlt := ((h.built.ino i).1 (by rw [hi]; rfl)).2
    rw [h.count] at hlt
    exact ⟨hlt.trans_le hin, h.built.onDisk i x hi, (h.type_ne hi).1, fun _ => trivial⟩

end Xv6.Mkfs
