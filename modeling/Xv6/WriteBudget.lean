import Xv6.MkfsVolume

/-!
# The log space of a write

`filewrite` cuts a request into pieces and writes each piece in an operation of its own. A piece
of at most `writeMax` bytes lies in four blocks. So `writei` logs at most four data blocks, the
bitmap block, the indirect block and the block of the inode, and stays below the `MAXOPBLOCKS`
blocks that `begin_op` reserves for an operation (`filewrite_fits_log`). The pieces of a request
are `chunks`.
-/

set_option linter.unusedSectionVars false

namespace Xv6.Fs

open Prog Function List

variable {P : Type} [DecidableEq P] {M : Mount} {p : P} {s t : State P} {k : Slot} {x y : Extent}
  {X : ℕ → Option Extent}

/-! ## The blocks of a piece -/

/-- The blocks that a program, executed alone, passes to `log_write` : those in the header of the
log at its end, whether it returns or stops, if the header is empty at its start. -/
def logged {α : Type} (x : Kernel P α) (s : State P) : List ℕ :=
  match x.run { s with log := { s.log with lh := [] } } with
  | .ok (_, t) => t.log.lh
  | .error (_, t) => t.log.lh

theorem logged_of_ends {α : Type} {x : Kernel P α} {R : List ℕ → Prop}
    (h : Ends x { s with log := { s.log with lh := [] } } (fun _ t => R t.log.lh)
      fun _ t => R t.log.lh) : R (logged x s) := by
  rw [ends_iff] at h
  unfold logged
  cases hx : x.run { s with log := { s.log with lh := [] } } with
  | ok r => exact h.1 _ _ hx
  | error r => exact h.2 _ _ hx

/-- Entry `k` of the inode cache has an allocated inode as it is on the disk. -/
structure Valid (M : Mount) (s : State P) (k : Slot) : Prop where
  dev : (s.icache k).dev = ROOTDEV
  lt : (s.icache k).inum < M.sb.ninodes
  copy : (s.copy k).din = M.dinode s.disk (s.icache k).inum
  type : (s.copy k).din.type ≠ 0

theorem Valid.owns (h : Valid M s k) (hd : Consistent M s.disk) :
    Owns M s k (inodes M s.disk) (.read s.disk (s.copy k).din 0) where
  dev := h.dev
  copy := rfl
  inode := by
    have ht := h.type
    rw [h.copy] at ht ⊢
    rw [inodes, if_pos h.lt, readInode, if_neg ht]
  vol := hd
  cut := rfl

/-- The blocks of four neighbours in a file, with all that `writei` may log besides. -/
def pieceBlocks (M : Mount) (y : Extent) (q i : ℕ) : List ℕ :=
  [M.bblock 0, y.ptr q, y.ptr (q + 1), y.ptr (q + 2), y.ptr (q + 3), y.ptr MAXFILE, M.iblock i]

/-- A piece of a request lies in four blocks. -/
theorem touches_piece {off n bn : ℕ} (hn : n ≤ writeMax) (h : Touches off n bn) :
    bn = off / BSIZE ∨ bn = off / BSIZE + 1 ∨ bn = off / BSIZE + 2 ∨ bn = off / BSIZE + 3 := by
  obtain ⟨o, h1, h2, rfl⟩ := h
  have hB : BSIZE = 512 := rfl
  have hW : writeMax = 1536 := rfl
  rw [hW] at hn
  rw [hB]
  omega

/-- With one bitmap block, the blocks that a piece may log are at most seven. -/
theorem mem_pieceBlocks (hsize : M.sb.size ≤ BPB) (hy : ∀ j, y.ptr j < M.sb.size) {off n i b c : ℕ}
    (hn : n ≤ writeMax) (hc : c < M.sb.size)
    (hb : b ∈ insert (M.bblock c) (writeBlocks M y off n ∪ {M.iblock i})) :
    b ∈ pieceBlocks M y (off / BSIZE) i := by
  have hbit : ∀ c < M.sb.size, M.bblock c = M.bblock 0 := fun c hc => by
    rw [Mount.bblock, Mount.bblock, Nat.div_eq_of_lt (hc.trans_le hsize), Nat.zero_div]
  have halloc : ∀ j, b ∈ allocBlocks M (y.ptr j) → b = M.bblock 0 ∨ b = y.ptr j := fun j hb =>
    hb.imp_left fun he => he.trans (hbit _ (hy j))
  unfold pieceBlocks
  rcases hb with hb | ⟨bn, ht, hb | ⟨-, hb⟩⟩ | hb
  · simp [hb, hbit c hc]
  · rcases halloc bn hb with hb | hb
    · simp [hb]
    · rcases touches_piece hn ht with rfl | rfl | rfl | rfl <;> simp [hb]
  · rcases halloc MAXFILE hb with hb | hb <;> simp [hb]
  · simp [show b = M.iblock i from hb]

theorem logged_writei (hsize : M.sb.size ≤ BPB) (hd : Consistent M s.disk) (hk : Valid M s k)
    (htype : (s.copy k).din.type = T_FILE) (hop : 1 ≤ s.log.outstanding) (src : ℕ → UInt8)
    (off : UInt32) {n : UInt32} (hn : n.toNat ≤ writeMax) :
    (logged (writei M p k src off n) s).Nodup ∧
      (logged (writei M p k src off n) s).length ≤ MAXOPBLOCKS := by
  obtain ⟨s₀, hs₀⟩ : ∃ s₀, s₀ = { s with log := { s.log with lh := [] } } := ⟨_, rfl⟩
  have hown : Owns M s₀ k (inodes M s.disk) (.read s.disk (s.copy k).din 0) := by
    obtain ⟨h1, h2, h3, h4, h5⟩ := hk.owns hd
    rw [hs₀]
    exact ⟨h1, h2, h3, h4, h5⟩
  have hlh : s₀.log.lh = [] := by rw [hs₀]
  have hfit : ∀ y c t, (∀ j, y.ptr j < M.sb.size) → c < M.sb.size →
      Logs s₀ k (insert (M.bblock c) (writeBlocks M y off.toNat n.toNat ∪
        {M.iblock (s₀.icache k).inum})) t →
      t.log.lh.Nodup ∧ t.log.lh.length ≤ MAXOPBLOCKS := by
    intro y c t hy hc ht
    have hnil : s₀.log.lh.Nodup := by rw [hlh]; exact nodup_nil
    refine ⟨ht.nodup hnil,
      (ht.length_lh_le hnil fun b hb => mem_pieceBlocks hsize hy hn hc hb).trans ?_⟩
    rw [hlh]
    exact show (7 : ℕ) ≤ MAXOPBLOCKS by decide
  refine logged_of_ends (R := fun lh => lh.Nodup ∧ lh.length ≤ MAXOPBLOCKS) ?_
  rw [← hs₀]
  have hdev : (s.copy k).din.type ≠ T_DEV := by
    rw [htype]
    decide
  refine ends_writei hown (by rw [hs₀]; exact hop) hdev
    (fun e u _ hu => ?_) (fun _ => ?_) fun y u _ _ hu hown' _ => ?_
  · obtain ⟨-, y, c, -, hy, hc, hu⟩ := hu
    exact hfit y c u hy hc hu
  · exact hfit _ 0 s₀ hown.ptr_lt M.size_pos (.refl ..)
  · refine hfit y 0 u (fun j => ?_) M.size_pos (hu.mono (Set.subset_insert ..))
    rw [← Extent.ptr_setEnd y off n]
    exact hown'.ptr_lt j

/-! ## The pieces of a request -/

/-- The lengths of the pieces of a request of `n` bytes. -/
def chunks (n : ℕ) : List ℕ :=
  List.replicate (n / writeMax) writeMax ++ if n % writeMax = 0 then [] else [n % writeMax]

theorem chunks_zero : chunks 0 = [] := by decide

theorem chunks_of_pos {n : ℕ} (h : n ≠ 0) :
    chunks n = min n writeMax :: chunks (n - min n writeMax) := by
  have hW : 0 < writeMax := by decide
  unfold chunks
  rcases lt_or_ge n writeMax with hlt | hge
  · rw [Nat.min_eq_left hlt.le, Nat.div_eq_of_lt hlt, Nat.mod_eq_of_lt hlt, if_neg h]
    simp
  · rw [Nat.min_eq_right hge, Nat.div_eq_sub_div hW hge, replicate_succ, cons_append,
      Nat.mod_eq_sub_mod hge]

/-- The pieces cover the request. -/
theorem sum_chunks (n : ℕ) : (chunks n).sum = n := by
  have hsplit := Nat.div_add_mod n writeMax
  unfold chunks
  rw [sum_append, sum_replicate_nat, mul_comm]
  split_ifs with h0
  · rw [sum_nil]
    omega
  · rw [sum_singleton, hsplit]

theorem mem_chunks {n c : ℕ} (h : c ∈ chunks n) : 0 < c ∧ c ≤ writeMax := by
  have hW : 0 < writeMax := by decide
  rcases mem_append.1 h with h | h
  · obtain rfl := eq_of_mem_replicate h
    exact ⟨hW, le_refl _⟩
  · split_ifs at h with h0
    · cases h
    · obtain rfl := mem_singleton.1 h
      exact ⟨pos_of_ne_zero h0, (Nat.mod_lt _ hW).le⟩

/-- One pass of the loop of `filewrite`. -/
def filewriteChunk (M : Mount) (p : P) (f : FileId) (ip : Slot) (src : ℕ → UInt8) (n1 : ℕ) :
    Kernel P ℤ := do
  beginOp
  ilock M p ip .walk
  let off := ((← getState).ftable f).off
  let r ← writei M p ip src off (UInt32.ofNat n1)
  advance f r
  iunlock p ip
  endOp
  return r

/-- Write one piece after the other. -/
def filewriteChunks (M : Mount) (p : P) (f : FileId) (ip : Slot) :
    List ℕ → (ℕ → UInt8) → Kernel P Bool
  | [], _ => return true
  | n1 :: ns, src => do
    let r ← filewriteChunk M p f ip src n1
    if r < 0 then return false
    else if r ≠ n1 then .panic "short filewrite"
    else filewriteChunks M p f ip ns fun i => src (n1 + i)

/-- The loop of `filewrite` writes the pieces. -/
theorem filewriteFrom_eq (f : FileId) (ip : Slot) : ∀ {fuel n : ℕ} (src : ℕ → UInt8), n ≤ fuel →
    filewriteFrom M p f ip fuel src n = filewriteChunks M p f ip (chunks n) src
  | 0, n, src, hn => by
    obtain rfl : n = 0 := by omega
    rfl
  | fuel + 1, n, src, hn => by
    unfold filewriteFrom
    by_cases h0 : n = 0
    · subst h0
      rw [if_pos rfl, chunks_zero]
      rfl
    · have hpos : 0 < min n writeMax := Nat.lt_min.2 ⟨pos_of_ne_zero h0, by decide⟩
      rw [if_neg h0, chunks_of_pos h0]
      simp only [filewriteChunks, filewriteChunk, bind_assoc, pure_bind]
      rw [filewriteFrom_eq f ip _ (by omega)]

/-- One piece of a request fits the log space of one operation. On a consistent file system with
one bitmap block, `writei` of a piece to a file passes at most `MAXOPBLOCKS` blocks to
`log_write`, whatever the offset and whichever blocks the file has. `filewrite` writes the pieces
of its request one after the other, and they cover the request. -/
theorem filewrite_fits_log (hsize : M.sb.size ≤ BPB) (hd : Consistent M s.disk)
    (hk : Valid M s k) (htype : (s.copy k).din.type = T_FILE) (hop : 1 ≤ s.log.outstanding) :
    (∀ (src : ℕ → UInt8) (off n : UInt32), n.toNat ≤ writeMax →
      (logged (writei M p k src off n) s).Nodup ∧
        (logged (writei M p k src off n) s).length ≤ MAXOPBLOCKS) ∧
    ∀ (f : FileId) (ip : Slot) (src : ℕ → UInt8) (n : ℕ),
      filewriteFrom M p f ip n src n = filewriteChunks M p f ip (chunks n) src ∧
        (chunks n).sum = n ∧ ∀ c ∈ chunks n, 0 < c ∧ c ≤ writeMax :=
  ⟨fun src off _ hn => logged_writei hsize hd hk htype hop src off hn,
    fun f ip src n => ⟨filewriteFrom_eq f ip src (le_refl n), sum_chunks n, fun _ => mem_chunks⟩⟩

/-- A kernel inside an operation, with inode 2 of the disk in the first entry of the cache. -/
def loaded (d : Disk) : State Unit where
  disk := d
  log := ⟨30, 1, false, []⟩
  icache k := if k.val = 0 then ⟨ROOTDEV, 2, 1⟩ else ⟨0, 0, 0⟩
  lock _ := none
  copy _ := ⟨true, Mkfs.mount.dinode d 2⟩
  ftable _ := ⟨.none, 0, false, false, ⟨0, ninode_pos⟩, 0⟩
  proc _ := ⟨none, fun _ => none⟩
  embryos := []
  input := []

/-- The first piece of an empty file that `mkfs` made. -/
theorem filewrite_fits_log_empty : ∃ im, Mkfs.mkfs [Mkfs.emptyFile] = .ok im ∧
    (logged (writei Mkfs.mount () ⟨0, by decide⟩ (fun _ => 0) 0 1536) (loaded im.disk)).length ≤
      MAXOPBLOCKS := by
  obtain ⟨im, him, X, hX⟩ := (Mkfs.fits_empties (n := 1) (by decide)).exists_image
  obtain ⟨x, hx⟩ := Option.isSome_iff_exists.1 ((hX.built.ino 2).2 ⟨by decide, by
    rw [hX.count]
    decide⟩)
  have hdin : Mkfs.mount.dinode im.disk 2 = x.din := hX.dinode_eq hx
  have htype : x.din.type = T_FILE := hX.built.type 2 x hx
  have hk : Valid Mkfs.mount (loaded im.disk) ⟨0, by decide⟩ :=
    ⟨rfl, show 2 < Mkfs.mount.sb.ninodes by decide, rfl, by
      change (Mkfs.mount.dinode im.disk 2).type ≠ 0
      rw [hdin, htype]
      decide⟩
  have hfits := filewrite_fits_log (p := ()) (by decide) (hX.consistent (by decide)) hk
    (by change (Mkfs.mount.dinode im.disk 2).type = T_FILE; rw [hdin, htype]) (le_refl (1 : ℤ))
  exact ⟨im, him, (hfits.1 (fun _ => 0) 0 1536 (by decide)).2⟩

end Xv6.Fs
