import Xv6.MkfsImage

/-!
# What mkfs makes of a list of files

`contents files i` are the bytes of inode `i` : the root directory with an entry for each file,
then the files in order. `Image s files X` says that `s` is the finished image, and
`outcome_mkfs` that `mkfs` makes it or fails. From it follow, for every list of files, where
`mkfs` writes (`inside_iff`) and which blocks the kernel finds (`holeFreeImage_iff`).
-/

namespace Xv6.Mkfs

open Function Finset Img Option

/-! ## The bytes of the inodes -/

/-- The directory entries of the root directory. -/
def entries (files : List HostFile) : List Dirent :=
  ⟨ROOTINO, strncpy DIRSIZ dotName⟩ :: ⟨ROOTINO, strncpy DIRSIZ dotdotName⟩ ::
    files.zipIdx.map fun f => ⟨f.2 + 2, strncpy DIRSIZ (skipUnderscore f.1.name)⟩

/-- The bytes of the inodes. -/
def contents (files : List HostFile) : ℕ → List UInt8
  | 0 => []
  | 1 => (entries files).flatMap Dirent.bytes
  | j + 2 => (files[j]?).elim [] HostFile.bytes

theorem length_bytes_of_mem {files : List HostFile} {de : Dirent} (h : de ∈ entries files) :
    de.bytes.length = DESIZE := by
  refine length_bytes ?_
  simp only [entries, List.mem_cons, List.mem_map] at h
  rcases h with rfl | rfl | ⟨f, -, rfl⟩ <;> exact length_strncpy _ _

/-- Sixteen bytes for each entry of the root directory. -/
theorem length_root (files : List HostFile) :
    (contents files ROOTINO).length = DESIZE * (files.length + 2) := by
  change ((entries files).flatMap Dirent.bytes).length = _
  rw [length_flatMap_const fun de hde => length_bytes_of_mem hde]
  simp [entries]

/-- A file adds one entry to the root directory. -/
theorem entries_concat (files : List HostFile) (f : HostFile) :
    entries (files ++ [f]) = entries files ++
      [⟨files.length + 2, strncpy DIRSIZ (skipUnderscore f.name)⟩] := by
  simp [entries, List.zipIdx_append]

/-- What one more file changes. -/
theorem contents_concat (files : List HostFile) (f : HostFile) :
    contents (files ++ [f]) =
      update (update (contents files) ROOTINO (contents files ROOTINO ++
        Dirent.bytes ⟨files.length + 2, strncpy DIRSIZ (skipUnderscore f.name)⟩))
        (files.length + 2) f.bytes := by
  funext i
  match i with
  | 0 => rfl
  | 1 =>
    rw [update_of_ne (by omega)]
    change ((entries (files ++ [f])).flatMap Dirent.bytes) = _
    rw [entries_concat, List.flatMap_append]
    simp [contents, ROOTINO]
  | j + 2 =>
    by_cases hj : j = files.length
    · simp [contents, hj]
    · rw [update_of_ne (by omega), update_of_ne (by simp [ROOTINO])]
      simp only [contents]
      rcases Nat.lt_or_gt_of_ne hj with hlt | hgt
      · rw [List.getElem?_append_left hlt]
      · rw [List.getElem?_eq_none (by simp; omega), List.getElem?_eq_none (by omega)]

/-- The next file is still empty. -/
theorem contents_length {files : List HostFile} : contents files (files.length + 2) = [] := by
  simp [contents]

/-- The inodes of the first files are no longer than those of all. -/
theorem length_contents_append (done rest : List HostFile) (i : ℕ) :
    (contents done i).length ≤ (contents (done ++ rest) i).length := by
  match i with
  | 0 => exact le_rfl
  | 1 =>
    have h1 := length_root done
    have h2 := length_root (done ++ rest)
    rw [ROOTINO] at h1 h2
    rw [h1, h2, List.length_append]
    exact Nat.mul_le_mul_left _ (by omega)
  | j + 2 =>
    simp only [contents]
    rcases lt_or_ge j done.length with hlt | hge
    · rw [List.getElem?_append_left hlt]
    · rw [List.getElem?_eq_none hge]
      exact Nat.zero_le _

/-! ## The start -/

/-- The loop that writes zeroes to all blocks. -/
theorem zeroes_fold {n : ℕ} (hn : n ≤ FSSIZE) :
    ∃ w, (∀ k b, (k, b) ∈ w → k = Kind.zeroes) ∧
      (List.range n).foldl (fun s i => s.wsect .zeroes i (Bytes.zero BSIZE)) empty =
        ⟨fun _ => Bytes.zero BSIZE, n, 1, nmeta, [], [], w⟩ := by
  induction n with
  | zero => exact ⟨[], by simp, rfl⟩
  | succ n ih =>
    obtain ⟨w, hw, hs⟩ := ih (by omega)
    have hf : FSSIZE = 1000 := rfl
    have hsec : sector n = n := sector_of_lt (by omega)
    refine ⟨w ++ [(.zeroes, n)], fun k b hb => ?_, ?_⟩
    · rcases List.mem_append.1 hb with hb | hb
      · exact hw k b hb
      · exact (Prod.mk.inj (List.mem_singleton.1 hb)).1
    · rw [List.range_succ, List.foldl_append, hs]
      simp [wsect, hsec]

/-- Inodes are free in a file system of zeroes. -/
theorem dinode_zero {d : Disk} (hd : ∀ b, b ≠ 1 → d b = Bytes.zero BSIZE) (i : ℕ) :
    (wide.dinode d i).type = 0 := by
  have hne : wide.iblock i ≠ 1 := by
    have := le_wide_iblock i
    omega
  rw [Mount.dinode, hd _ hne, type_dinodeIn_zero]

/-- The image with its super block only. -/
def blank : Img := zeroed.wsect .super 1 superBlock

/-- The image before the root directory is made. -/
theorem ready_blank : blank.freeinode = 1 ∧ Ready blank (fun _ => none) fun _ => [] := by
  obtain ⟨w, hw, hs⟩ := zeroes_fold le_rfl
  have hblank : blank = ⟨update (fun _ => Bytes.zero BSIZE) 1 superBlock, FSSIZE, 1, nmeta, [], [],
      w ++ [(.super, 1)]⟩ := by
    unfold blank zeroed
    rw [hs, Built.wsect_of_lt rfl _ (by decide)]
  have hd : ∀ b, b ≠ 1 → blank.disk b = Bytes.zero BSIZE := fun b hb => by
    simp only [hblank, update_of_ne hb]
  have hplace : ∀ o, place (fun _ => none) noPend o = 0 := by
    rintro (o | o)
    · rfl
    · exact o.elim
  have hblocks : blocks ([] : List UInt8).length = ∅ := by
    ext k
    simp [mem_blocks, Uses]
  refine ⟨by rw [hblank], ?_, fun i x hi => by cases hi⟩
  refine
    { len := by rw [hblank]
      super := by simp only [hblank, update_self]
      ino := fun i => ?_
      freeinode := by simp only [hblank]; omega
      onDisk := fun i x hi => by cases hi
      holds := fun i x hi => by cases hi
      type := fun i x hi => by cases hi
      nlink := fun i x hi => by cases hi
      din := fun i x hi => by cases hi
      unused := fun i _ => ⟨hblocks, fun _ => dinode_zero hd i⟩
      excl := ⟨by decide, fun o ho => (ho (hplace o)).elim, fun o _ ho => (ho (hplace o)).elim,
        fun b hb => ?_⟩
      used := ?_
      zero := fun b hb => hd b ?_
      inums := by rw [hblank]; rfl
      addrs := by rw [hblank]; rfl
      writes := fun κ b hb => ?_ }
  · rw [hblank]
    simp only [isSome_none, Bool.false_eq_true, false_iff]
    omega
  · rw [hblank]
    simp only
    refine ⟨fun hlt => by omega, ?_⟩
    rintro ⟨o, ho⟩
    rw [hplace o] at ho
    rw [nmeta_eq] at hb
    omega
  · rw [hblank]
    simp only [hblocks, card_empty, sum_const_zero, add_zero]
  · rw [hblank, nmeta_eq] at hb
    simp only at hb
    omega
  · rw [hblank] at hb
    rcases List.mem_append.1 hb with hb | hb
    · rw [hw κ b hb]
      trivial
    · obtain ⟨rfl, rfl⟩ := Prod.mk.inj (List.mem_singleton.1 hb)
      rfl

/-! ## The files -/

section Files

variable {E : String → Prop} {s : Img} {X : ℕ → Option Extent}

/-- The sizes of the inodes in the end. -/
def sizes (files : List HostFile) (i : ℕ) : ℕ := (contents files i).length

theorem typeOf_of_ne {i : ℕ} (h : i ≠ ROOTINO) : typeOf i = T_FILE := if_neg h

/-- A file of the list of arguments. -/
theorem outcome_addFile {done rest : List HostFile} {f : HostFile} (h : Ready s X (contents done))
    (hfree : s.freeinode = done.length + 2) (hcount : done.length < 205)
    (hname : 47 ∈ f.name → ∀ e, E e) (hE : Fails E (sizes (done ++ f :: rest))) :
    Outcome (addFile ROOTINO s f) E fun t => t.freeinode = (done ++ [f]).length + 2 ∧
      ∃ Y, Ready t Y (contents (done ++ [f])) := by
  have hroot : ROOTINO = 1 := rfl
  have hne : ROOTINO ≠ done.length + 2 := by omega
  have hfin : ∀ j, (contents (done ++ [f]) j).length ≤ sizes (done ++ f :: rest) j := by
    intro j
    have := length_contents_append (done ++ [f]) rest j
    rwa [List.append_assoc] at this
  unfold addFile
  split_ifs with hslash
  · exact outcome_error (hname hslash _)
  have hB : contents done s.freeinode = [] := hfree ▸ contents_length
  obtain ⟨t, Y, ht, htfree, hY⟩ := h.ialloc (by omega) (by omega) hB
  rw [hfree, typeOf_of_ne (Ne.symm hne)] at ht
  have halloc : Outcome (s.ialloc T_FILE) E (· = (done.length + 2, t)) := ht ▸ outcome_ok rfl
  refine halloc.bind ?_
  rintro _ rfl
  set D := update (contents done) ROOTINO (contents done ROOTINO ++
    Dirent.bytes ⟨done.length + 2, strncpy DIRSIZ (skipUnderscore f.name)⟩) with hD
  have hcat : contents (done ++ [f]) = update D (done.length + 2) f.bytes := contents_concat done f
  have hDnew : D (done.length + 2) = [] := by
    rw [hD, update_of_ne hne.symm]
    exact contents_length
  have hDle : ∀ j, (D j).length ≤ sizes (done ++ f :: rest) j := by
    intro j
    refine le_trans ?_ (hfin j)
    rw [hcat]
    by_cases hj : j = done.length + 2
    · rw [hj, hDnew]
      exact Nat.zero_le _
    · rw [update_of_ne hj]
  refine (hY.iappend ⟨by omega, by omega⟩ (fun j => ?_) ?_ hE).bind ?_
  · have := length_contents_append done (f :: rest) j
    exact this
  · have := hDle ROOTINO
    rwa [hD, update_self, List.length_append] at this
  · rintro u ⟨hu, Z, hZ⟩
    refine (Ready.iappendAll (by omega) hE hZ (by omega) hDle ?_).imp ?_
    · have := hfin (done.length + 2)
      rw [hcat, update_self] at this
      rwa [← hD, hDnew, List.length_nil, zero_add]
    · rintro v ⟨hv, W, hW⟩
      rw [← hD, hDnew, List.nil_append] at hW
      refine ⟨?_, W, hcat ▸ hW⟩
      rw [List.length_append, List.length_singleton]
      omega

/-- All the files of the list of arguments. -/
theorem outcome_files {files : List HostFile} (h : Ready s X (contents []))
    (hfree : s.freeinode = 2) (hcount : files.length ≤ 205)
    (hname : ∀ f ∈ files, 47 ∈ f.name → ∀ e, E e) (hE : Fails E (sizes files)) :
    Outcome (files.foldlM (addFile ROOTINO) s) E fun t => t.freeinode = files.length + 2 ∧
      ∃ Y, Ready t Y (contents files) := by
  have hloop := Outcome.foldlM (E := E) (f := addFile ROOTINO)
    (fun rest t => ∃ done, files = done ++ rest ∧ t.freeinode = done.length + 2 ∧
      ∃ Y, Ready t Y (contents done)) ?_ files s ⟨[], rfl, hfree, X, h⟩
  · refine hloop.imp ?_
    rintro t ⟨done, hfiles, ht, Y, hY⟩
    rw [List.append_nil] at hfiles
    exact hfiles ▸ ⟨ht, Y, hY⟩
  · rintro f rest t ⟨done, rfl, ht, Y, hY⟩
    rw [List.length_append, List.length_cons] at hcount
    refine (outcome_addFile hY ht (by omega) (hname f (by simp)) hE).imp ?_
    rintro u ⟨hu, Z, hZ⟩
    exact ⟨done ++ [f], by simp, hu, Z, hZ⟩

/-! ## The root directory and the bitmap -/

/-- The size that `mkfs` gives the root directory. -/
def rootSize (files : List HostFile) : ℕ := (sizes files ROOTINO / BSIZE + 1) * BSIZE

/-- The bytes of the inodes up to their sizes. The root directory ends with zeros. -/
def padded (files : List HostFile) : ℕ → List UInt8 :=
  update (contents files) ROOTINO
    (contents files ROOTINO ++ List.replicate (rootSize files - sizes files ROOTINO) 0)

/-- The size of the root directory is rounded up. -/
theorem length_padded_root (files : List HostFile) :
    (padded files ROOTINO).length = rootSize files := by
  have hb : BSIZE = 512 := rfl
  have hle : sizes files ROOTINO ≤ rootSize files := by
    rw [rootSize, hb]
    omega
  rw [padded, update_self, List.length_append, List.length_replicate]
  exact Nat.add_sub_of_le hle

theorem padded_of_ne {files : List HostFile} {i : ℕ} (h : i ≠ ROOTINO) :
    padded files i = contents files i := update_of_ne h _ _

theorem rootSize_le {files : List HostFile} (h : files.length ≤ 205) :
    rootSize files ≤ MAXFILE * BSIZE := by
  have hd : DESIZE = 16 := rfl
  have hb : BSIZE = 512 := rfl
  have hm : MAXFILE = 140 := rfl
  rw [rootSize, sizes, length_root, hd, hb, hm]
  omega

/-- Rounding up the size appends zeroes. -/
theorem Holds.pad {x : Extent} {bs : List UInt8} {u : Finset ℕ} (h : Holds x bs u) {n : ℕ}
    (hn : (bs ++ List.replicate n 0).length ≤ MAXFILE * BSIZE) :
    Holds x (bs ++ List.replicate n 0) u := by
  refine ⟨h.cut, hn, fun o => ?_, h.ptr⟩
  rw [h.byte o]
  simp only [List.getD_eq_getElem?_getD, List.getElem?_append]
  split_ifs with ho
  · rfl
  · rw [List.getElem?_eq_none (by omega), List.getElem?_replicate]
    split_ifs <;> rfl

/-- The size of the root directory is rounded up, and past the next block. -/
theorem outcome_fixRoot {files : List HostFile} (h : Ready s X (contents files))
    (hfree : s.freeinode = files.length + 2) (hcount : files.length ≤ 205) :
    Outcome (fixRoot s ROOTINO) E fun t => t.freeinode = s.freeinode ∧
      ∃ Y, (∀ i x, Y i = some x → ∀ k, x.ptr k < FSSIZE) ∧
        Built t Y (padded files) (fun i => blocks (sizes files i)) none := by
  have hroot : ROOTINO = 1 := rfl
  obtain ⟨x, hx⟩ := isSome_iff_exists.1 ((h.built.ino ROOTINO).2 ⟨by omega, by omega⟩)
  obtain ⟨hdin, hsize⟩ := h.built.din _ x hx (by simp)
  have hlen := length_padded_root files
  have hle : (padded files ROOTINO).length ≤ MAXFILE * BSIZE := hlen ▸ rootSize_le hcount
  have hpad : padded files ROOTINO = _ ++ _ := update_self ..
  have hhold : Holds x (padded files ROOTINO) (blocks (sizes files ROOTINO)) := by
    rw [hpad] at hle ⊢
    exact (h.built.holds _ x hx).pad hle
  have hopen : Built s X (padded files) (fun i => blocks (sizes files i)) (some ROOTINO) :=
    { h.built with
      holds := fun j z hj => by
        by_cases hji : j = ROOTINO
        · subst hji
          obtain rfl := some.inj (hj.symm.trans hx)
          exact hhold
        · rw [padded_of_ne hji]
          exact h.built.holds j z hj
      din := fun j z hj hcur => by
        have hji : j ≠ ROOTINO := fun he => hcur (by rw [he])
        rw [padded_of_ne hji]
        exact h.built.din j z hj (by simp) }
  obtain ⟨t, y, ht, htfree, hptr, hy⟩ := hopen.winode hx
  have hread : Outcome (s.rinode ROOTINO) E (· = x.din) := by
    rw [Built.rinode_eq h.built.len (by decide), hdin]
    exact outcome_ok rfl
  refine hread.bind ?_
  rintro _ rfl
  have hoff : (x.din.size.toNat / BSIZE + 1) * BSIZE = (padded files ROOTINO).length := by
    rw [hlen, hsize]
    rfl
  simp only [hoff]
  rw [ht]
  refine outcome_ok ⟨htfree, _, forall_update ?_ fun j w _ hj => h.below j w hj, hy⟩
  rintro w ⟨⟩
  rw [hptr]
  exact h.below _ x hx

/-- The bits that `balloc` sets. -/
theorem bitIn_bitmap {n : ℕ} (hn : n ≤ BPB) (b : ℕ) :
    bitIn (Img.bitmap n) b = decide (b < n) := by
  induction n with
  | zero =>
    have hz : (Bytes.zero BSIZE).get (b / 8) = 0 := by
      unfold Bytes.get
      split_ifs <;> rfl
    simp [Img.bitmap, bitIn_eq, hz]
  | succ n ih =>
    rw [Img.bitmap, bitIn_setBitIn _ (by omega), ih (by omega), Bool.eq_iff_iff]
    simp only [Bool.or_eq_true, decide_eq_true_eq]
    omega

/-- The finished image. -/
structure Image (s : Img) (files : List HostFile) (X : ℕ → Option Extent) : Prop where
  built : Built s X (padded files) (fun i => blocks (sizes files i)) none
  below : ∀ i x, X i = some x → ∀ k, x.ptr k < FSSIZE
  count : s.freeinode = files.length + 2
  bits : ∀ b < BPB, mount.inUse s.disk b = decide (b < s.freeblock)

/-- `balloc` marks the blocks in use. -/
theorem outcome_balloc {files : List HostFile}
    (h : Built s X (padded files) (fun i => blocks (sizes files i)) none)
    (hbelow : ∀ i x, X i = some x → ∀ k, x.ptr k < FSSIZE) (hfree : s.freeinode = files.length + 2)
    (hle : s.freeblock ≤ FSSIZE) :
    Outcome (s.balloc s.freeblock) E fun t => Image t files X := by
  have hf : FSSIZE = 1000 := rfl
  have hb : BSIZE = 512 := rfl
  have hbm : sb.bmapstart = 58 := rfl
  unfold Img.balloc
  rw [if_pos (by rw [hb]; omega), Built.wsect_of_lt h.len _ (by decide)]
  have hdisk : ∀ b, b ≠ 58 → update s.disk sb.bmapstart (Img.bitmap s.freeblock) b = s.disk b :=
    fun b hb => update_of_ne hb _ _
  have hdin : ∀ i < 207, wide.dinode (update s.disk sb.bmapstart (Img.bitmap s.freeblock)) i =
      wide.dinode s.disk i := by
    intro i hi
    unfold Mount.dinode
    rw [hdisk _ (wide_iblock_lt hi).ne]
  refine outcome_ok ⟨{ h with
    super := (hdisk 1 (by decide)).trans h.super
    onDisk := fun i x hi => (h.onDisk i x hi).congr fun k hk => hdisk _ ?_
    din := fun i x hi hc => by
      rw [hdin i (h.lt hi).2]
      exact h.din i x hi hc
    unused := fun i hi => ⟨(h.unused i hi).1, fun hlt => by
      rw [hdin i hlt]
      exact (h.unused i hi).2 hlt⟩
    zero := fun b hlb => (hdisk b ?_).trans (h.zero b hlb)
    writes := fun κ b hmem => ?_ }, hbelow, hfree, fun b hlt => ?_⟩
  · have := h.ptr_area hi hk
    rw [nmeta_eq] at this
    omega
  · have := h.nmeta_le
    simp only at hlb
    rw [nmeta_eq] at this
    omega
  · rcases List.mem_append.1 hmem with hmem | hmem
    · exact h.writes κ b hmem
    · obtain ⟨rfl, rfl⟩ := Prod.mk.inj (List.mem_singleton.1 hmem)
      rfl
  · have hbb : mount.bblock b = sb.bmapstart := by
      unfold Mount.bblock
      rw [Nat.div_eq_of_lt hlt]
      exact zero_add _
    have hBPB : BPB = 4096 := rfl
    unfold Mount.inUse
    simp only [hbb, update_self, Nat.mod_eq_of_lt hlt]
    exact bitIn_bitmap (by omega) b

/-- `mkfs` makes the image of the files, or the files do not fit. -/
theorem outcome_mkfs {files : List HostFile} (hcount : files.length ≤ 205)
    (hname : ∀ f ∈ files, 47 ∈ f.name → ∀ e, E e) (hE : Fails E (sizes files)) :
    Outcome (mkfs files) E fun t => ∃ Y, Image t files Y := by
  obtain ⟨hfree, hstart⟩ := ready_blank
  obtain ⟨t, Y, ht, htfree, hY⟩ := hstart.ialloc (by omega) (by omega) rfl
  rw [hfree] at ht htfree
  have halloc : Outcome (blank.ialloc T_DIR) E (· = (ROOTINO, t)) := by
    have hd : typeOf 1 = T_DIR := rfl
    rw [← hd, ht]
    exact outcome_ok rfl
  refine halloc.bind ?_
  rintro _ rfl
  -- the two entries of the empty root directory
  set dot : Dirent := ⟨ROOTINO, strncpy DIRSIZ dotName⟩ with hdot
  set dotdot : Dirent := ⟨ROOTINO, strncpy DIRSIZ dotdotName⟩ with hdotdot
  have hlen : dot.bytes.length = 16 ∧ dotdot.bytes.length = 16 := by decide
  have hroot : 16 * (files.length + 2) = sizes files ROOTINO := (length_root files).symm
  have hone : ∀ j, (update (fun _ => []) ROOTINO dot.bytes j).length ≤ sizes files j := fun j =>
    update_cases j (by omega) fun _ => Nat.zero_le _
  have htwo : contents [] = update (fun _ => []) ROOTINO (dot.bytes ++ dotdot.bytes) := by
    funext j
    match j with
    | 0 => rfl
    | 1 => rfl
    | j + 2 =>
      rw [update_of_ne (by simp [ROOTINO])]
      rfl
  simp only [ne_eq, not_true_eq_false, if_false]
  refine (hY.iappend (i := ROOTINO) (p := dot.bytes) ⟨by decide, ?_⟩ (fun j => Nat.zero_le _) ?_
    hE).bind ?_
  · rw [htfree]
    decide
  · rw [List.length_nil]
    omega
  rintro u ⟨hu, Z, hZ⟩
  rw [List.nil_append] at hZ
  refine (hZ.iappend (i := ROOTINO) (p := dotdot.bytes) ⟨by decide, ?_⟩ hone ?_ hE).bind ?_
  · rw [hu, htfree]
    decide
  · rw [update_self]
    omega
  rintro v ⟨hv, W, hW⟩
  rw [update_idem, update_self, ← htwo] at hW
  refine (outcome_files hW (by omega) hcount hname hE).bind ?_
  rintro w ⟨hw, V, hV⟩
  refine (outcome_fixRoot hV hw hcount).bind ?_
  rintro r ⟨hr, R, hbelow, hR⟩
  exact (outcome_balloc hR hbelow (by omega) (hR.freeblock_le_size hbelow)).imp fun _ h => ⟨R, h⟩

end Files

/-! ## Lists of files that fit -/

/-- The files fit the inodes and the blocks that the super block declares, and `mkfs` takes
their names. Inode 0 is not used, and the root directory has one. -/
structure Fits (files : List HostFile) : Prop where
  names : ∀ f ∈ files, 47 ∉ f.name
  inodes : files.length + 2 ≤ NINODES
  sizes : ∀ f ∈ files, f.bytes.length ≤ MAXFILE * BSIZE
  blocks : blocksFor (DESIZE * (files.length + 2)) +
    (files.map fun f => blocksFor f.bytes.length).sum ≤ nblocks

theorem sum_getElem? {α : Type} (g : α → ℕ) : ∀ {as : List α} {n : ℕ}, as.length ≤ n →
    ∑ j ∈ range n, (as[j]?).elim 0 g = (as.map g).sum
  | [], n, _ => by simp
  | a :: as, 0, h => by simp at h
  | a :: as, n + 1, h => by
    rw [sum_range_succ', List.map_cons, List.sum_cons]
    simp only [List.getElem?_cons_succ, List.getElem?_cons_zero, elim_some]
    rw [sum_getElem? g (Nat.le_of_succ_le_succ h), add_comm]

theorem sizes_root (files : List HostFile) :
    sizes files ROOTINO = DESIZE * (files.length + 2) := length_root files

theorem sizes_le {files : List HostFile} (hcount : files.length ≤ 205)
    (hsize : ∀ f ∈ files, f.bytes.length ≤ MAXFILE * BSIZE) (i : ℕ) :
    sizes files i ≤ MAXFILE * BSIZE := by
  match i with
  | 0 => exact Nat.zero_le _
  | 1 =>
    have h := sizes_root files
    have hd : DESIZE = 16 := rfl
    have hb : BSIZE = 512 := rfl
    have hm : MAXFILE = 140 := rfl
    rw [ROOTINO, hd] at h
    rw [h, hb, hm]
    omega
  | j + 2 =>
    simp only [Mkfs.sizes, contents]
    cases hj : files[j]? with
    | none => exact Nat.zero_le _
    | some f => exact hsize f (List.mem_of_getElem? hj)

/-- The blocks of all the inodes. -/
theorem sum_blocks {files : List HostFile} (hcount : files.length ≤ 205)
    (hsize : ∀ f ∈ files, f.bytes.length ≤ MAXFILE * BSIZE) :
    ∑ i ∈ range 207, (blocks (sizes files i)).card =
      blocksFor (DESIZE * (files.length + 2)) +
        (files.map fun f => blocksFor f.bytes.length).sum := by
  have hcard : ∀ i, (blocks (sizes files i)).card = blocksFor (sizes files i) :=
    fun i => card_blocks (sizes_le hcount hsize i)
  have hfile : ∀ j, blocksFor (sizes files (j + 2)) =
      (files[j]?).elim 0 fun f => blocksFor f.bytes.length := by
    intro j
    simp only [Mkfs.sizes, contents]
    cases files[j]? with
    | none =>
      change blocksFor 0 = 0
      decide
    | some f => rfl
  have hzero : blocksFor (sizes files 0) = 0 := by
    change blocksFor 0 = 0
    decide
  rw [sum_congr rfl fun i _ => hcard i, sum_range_succ', sum_range_succ', hzero,
    sum_congr rfl fun j _ => hfile j, sum_getElem? _ hcount, ← sizes_root, add_zero,
    add_comm]
  rfl

/-- `mkfs` succeeds for files that fit. -/
theorem exists_image {files : List HostFile} (hcount : files.length ≤ 205)
    (hname : ∀ f ∈ files, 47 ∉ f.name)
    (hsize : ∀ f ∈ files, f.bytes.length ≤ MAXFILE * BSIZE)
    (hroom : blocksFor (DESIZE * (files.length + 2)) +
      (files.map fun f => blocksFor f.bytes.length).sum ≤ nblocks) :
    ∃ s, mkfs files = .ok s ∧ ∃ X, Image s files X := by
  have hn : nmeta + nblocks = FSSIZE := rfl
  refine (outcome_mkfs hcount (fun f hf hslash => (hname f hf hslash).elim) ⟨?_, ?_⟩).exists_ok
  · intro i hi
    exact (not_lt.2 (sizes_le hcount hsize i) hi).elim
  · intro h
    rw [sum_blocks hcount hsize] at h
    omega

theorem Fits.exists_image {files : List HostFile} (h : Fits files) :
    ∃ s, mkfs files = .ok s ∧ ∃ X, Image s files X := by
  have hn : NINODES = 200 := rfl
  have := h.inodes
  exact Mkfs.exists_image (by omega) h.names h.sizes h.blocks

/-! ## Where mkfs writes -/

/-- `mkfs` stayed inside the disk that the super block declares : the inode numbers that it used,
the block numbers that it stored, and its writes. -/
structure Inside (s : Img) : Prop where
  inums : ∀ i ∈ s.inums, i < sb.ninodes
  addrs : ∀ a ∈ s.addrs, nmeta ≤ a ∧ a < sb.size
  nodup : s.addrs.Nodup
  apart : ∀ κ κ' b, (κ, b) ∈ s.writes → (κ', b) ∈ s.writes → κ ≠ .zeroes → κ' ≠ .zeroes → κ = κ'

section Inside

variable {s : Img} {X : ℕ → Option Extent} {B : ℕ → List UInt8} {U : ℕ → Finset ℕ}
  {cur : Option ℕ}

/-- The kind of a sector before the data blocks. -/
def metaKind (b : ℕ) : Kind :=
  if b = 1 then .super else if b < sb.bmapstart then .inode else .bitmap

/-- The kind of block `k` of inode `i`. -/
def dataKind (i k : ℕ) : Kind := if k = MAXFILE then .indirect i else .data i

/-- A block after the zeroes is metadata or a block of one file. -/
theorem Area.cases (h : Built s X B U cur) {κ : Kind} {b : ℕ} (ha : Area X κ b)
    (hκ : κ ≠ .zeroes) : b < nmeta ∧ κ = metaKind b ∨
      nmeta ≤ b ∧ ∃ i x k, X i = some x ∧ x.ptr k ≠ 0 ∧ x.ptr k = b ∧ κ = dataKind i k := by
  have hbm : sb.bmapstart = 58 := rfl
  have hin : sb.inodestart = 32 := rfl
  rw [nmeta_eq]
  cases κ with
  | zeroes => exact (hκ rfl).elim
  | super | bitmap =>
    cases ha
    exact .inl ⟨by omega, rfl⟩
  | inode =>
    obtain ⟨h1, h2⟩ := ha
    exact .inl ⟨by omega, by rw [metaKind, if_neg (by omega), if_pos h2]⟩
  | data i =>
    obtain ⟨x, k, hi, hk, h0, rfl⟩ := ha
    exact .inr ⟨nmeta_eq ▸ h.ptr_area hi h0, i, x, k, hi, h0, rfl, by rw [dataKind, if_neg hk.ne]⟩
  | indirect i =>
    obtain ⟨x, hi, h0, rfl⟩ := ha
    exact .inr ⟨nmeta_eq ▸ h.ptr_area hi h0, i, x, MAXFILE, hi, h0, rfl, (if_pos rfl).symm⟩

/-- A block is written for one purpose only. -/
theorem Area.unique (h : Built s X B U cur) {κ κ' : Kind} {b : ℕ} (ha : Area X κ b)
    (ha' : Area X κ' b) (hκ : κ ≠ .zeroes) (hκ' : κ' ≠ .zeroes) : κ = κ' := by
  rcases ha.cases h hκ with ⟨hb, rfl⟩ | ⟨hb, i, x, k, hi, h0, rfl, rfl⟩
  · rcases ha'.cases h hκ' with ⟨-, rfl⟩ | ⟨hb', -⟩
    · rfl
    · omega
  · rcases ha'.cases h hκ' with ⟨hb', -⟩ | ⟨-, j, y, l, hj, -, he, rfl⟩
    · omega
    · obtain ⟨rfl, rfl⟩ := h.ptr_inj hi hj h0 he.symm
      rfl

/-- For at most 198 files `mkfs` stays inside the disk. -/
theorem Image.inside {files : List HostFile} (h : Image s files X) (hcount : files.length ≤ 198) :
    Inside s := by
  have hn : sb.ninodes = 200 := rfl
  refine ⟨fun i hi => ?_, fun a ha => ?_, ?_, fun κ κ' b hb hb' hκ hκ' => ?_⟩
  · rw [h.built.inums, List.mem_range'_1, h.count] at hi
    omega
  · have hle : s.freeblock ≤ FSSIZE := h.built.freeblock_le_size h.below
    rw [h.built.addrs, List.mem_range'_1] at ha
    have hsz : sb.size = FSSIZE := rfl
    omega
  · rw [h.built.addrs]
    exact List.nodup_range'
  · exact (h.built.writes κ b hb).unique h.built (h.built.writes κ' b hb') hκ hκ'

/-! ### How often `ialloc` is called -/

/-- No inode was handed out. -/
def Keeps (s t : Img) : Prop := t.freeinode = s.freeinode ∧ t.inums = s.inums

theorem Keeps.trans {t u : Img} (h : Keeps s t) (h' : Keeps t u) : Keeps s u :=
  ⟨h'.1.trans h.1, h'.2.trans h.2⟩

/-- Failure is as good as anything. -/
def Any (_ : String) : Prop := True

theorem outcome_any {α : Type} (m : Except String α) : Outcome m Any fun _ => True := by
  cases m with
  | ok a => exact outcome_ok trivial
  | error e => exact outcome_error trivial

theorem keeps_winode (s : Img) (i : ℕ) (din : Dinode) : Outcome (s.winode i din) Any (Keeps s) :=
  (outcome_any _).bind fun _ _ => outcome_ok ⟨rfl, rfl⟩

theorem keeps_fillAddr (s : Img) (din : Dinode) (i : ℕ) : Keeps s (s.fillAddr din i).2 := by
  unfold fillAddr
  split_ifs <;> exact ⟨rfl, rfl⟩

theorem keeps_fillWord (s : Img) (inum addr : ℕ) (blk : Block) (j : ℕ) :
    Keeps s (s.fillWord inum addr blk j).2 := by
  unfold fillWord
  split_ifs <;> exact ⟨rfl, rfl⟩

theorem keeps_blockFor (s : Img) (inum : ℕ) (din : Dinode) (fbn : ℕ) :
    Outcome (s.blockFor inum din fbn) Any fun r => Keeps s r.2.2 := by
  unfold blockFor
  split_ifs
  · exact outcome_ok (keeps_fillAddr s din fbn)
  · simp only
    refine (outcome_any _).bind fun blk _ => outcome_ok ?_
    exact (keeps_fillAddr s din NDIRECT).trans (keeps_fillWord _ _ _ blk _)

theorem keeps_appendPass (s : Img) (inum : ℕ) (din : Dinode) (off : ℕ) (p : List UInt8) :
    Outcome (s.appendPass inum din off p) Any fun r => Keeps s r.2 := by
  simp only [appendPass]
  split_ifs
  · exact outcome_error trivial
  · refine (keeps_blockFor s inum din _).bind fun r hr => (outcome_any _).bind fun blk _ => ?_
    exact outcome_ok (hr.trans ⟨rfl, rfl⟩)

theorem keeps_appendLoop (inum : ℕ) : ∀ (fuel : ℕ) (s : Img) (din : Dinode) (off : ℕ)
    (p : List UInt8), Outcome (appendLoop inum fuel s din off p) Any fun r => Keeps s r.2.2
  | 0, s, _, _, _ => outcome_ok ⟨rfl, rfl⟩
  | fuel + 1, s, din, off, p => by
    unfold appendLoop
    split_ifs
    · exact outcome_ok ⟨rfl, rfl⟩
    · refine (keeps_appendPass s inum din off p).bind fun r hr => ?_
      exact (keeps_appendLoop inum fuel _ _ _ _).imp fun _ ht => hr.trans ht

/-- `iappend` allocates no inode. -/
theorem keeps_iappend (s : Img) (inum : ℕ) (p : List UInt8) :
    Outcome (s.iappend inum p) Any (Keeps s) :=
  (outcome_any _).bind fun din _ => (keeps_appendLoop inum _ s din _ p).bind fun _ hr =>
    (keeps_winode _ _ _).imp fun _ ht => hr.trans ht

theorem keeps_fixRoot (s : Img) (rootino : ℕ) : Outcome (fixRoot s rootino) Any (Keeps s) :=
  (outcome_any _).bind fun _ _ => keeps_winode _ _ _

theorem keeps_balloc (s : Img) (used : ℕ) : Outcome (s.balloc used) Any (Keeps s) := by
  unfold balloc
  split_ifs
  · exact outcome_ok ⟨rfl, rfl⟩
  · exact outcome_error trivial

/-- `ialloc` hands out the next number. -/
theorem inums_ialloc (s : Img) (type : Int16) : Outcome (s.ialloc type) Any fun r =>
    r.2.freeinode = (s.freeinode + 1) % 2 ^ 32 ∧ r.2.inums = s.inums ++ [s.freeinode] :=
  (keeps_winode _ _ _).bind fun _ ht => outcome_ok ht

/-- Each file takes one inode. -/
theorem inums_addFile (rootino : ℕ) (s : Img) (f : HostFile) :
    Outcome (addFile rootino s f) Any fun t =>
      t.freeinode = (s.freeinode + 1) % 2 ^ 32 ∧ t.inums = s.inums ++ [s.freeinode] := by
  unfold addFile
  split_ifs
  · exact outcome_error trivial
  refine (inums_ialloc s T_FILE).bind ?_
  rintro ⟨inum, t⟩ ⟨hfree, hinums⟩
  refine (keeps_iappend t rootino _).bind fun u hu => ?_
  have hloop := Outcome.foldlM (E := Any) (f := fun s buf => s.iappend inum buf)
    (fun _ v => Keeps t v) (fun buf _ v hv => (keeps_iappend v inum buf).imp fun _ => hv.trans)
    f.reads u hu
  exact hloop.imp fun v hv => ⟨hv.1.trans hfree, hv.2.trans hinums⟩

/-- With 199 files `mkfs` uses inode 200. -/
theorem inums_mkfs {files : List HostFile} (hcount : 199 ≤ files.length) :
    Outcome (mkfs files) Any fun t => 200 ∈ t.inums := by
  have hfree := ready_blank.1
  refine (inums_ialloc blank T_DIR).bind ?_
  rintro ⟨rootino, s⟩ ⟨hs, -⟩
  simp only
  split_ifs
  · exact outcome_error trivial
  refine (keeps_iappend s rootino _).bind fun t ht => ?_
  refine (keeps_iappend t rootino _).bind fun u hu => ?_
  have hloop := Outcome.foldlM (E := Any) (f := addFile rootino)
    (fun rest v => ∃ done, files = done ++ rest ∧
      (done.length ≤ 199 → v.freeinode = done.length + 2) ∧ (199 ≤ done.length → 200 ∈ v.inums))
    ?_ files u ⟨[], rfl, fun _ => ?_, fun h => by simp at h⟩
  · refine hloop.bind ?_
    rintro v ⟨done, hdone, -, hv⟩
    rw [List.append_nil] at hdone
    refine (keeps_fixRoot v rootino).bind fun w hw => (keeps_balloc w _).imp fun r hr => ?_
    rw [hr.2, hw.2]
    exact hv (hdone ▸ hcount)
  · rintro f rest v ⟨done, hdone, hfirst, hmem⟩
    refine (inums_addFile rootino v f).imp ?_
    rintro w ⟨hw, hinums⟩
    refine ⟨done ++ [f], by simp [hdone], fun hle => ?_, fun hge => ?_⟩
    · rw [List.length_append, List.length_singleton] at hle ⊢
      rw [hw, hfirst (by omega)]
      omega
    · rw [List.length_append, List.length_singleton] at hge
      rw [hinums, List.mem_append, List.mem_singleton]
      rcases lt_or_ge done.length 199 with hlt | hge'
      · refine .inr ?_
        rw [hfirst (by omega)]
        omega
      · exact .inl (hmem hge')
  · rw [hu.1, ht.1, hs, hfree]
    rfl

end Inside

/-- When `mkfs` succeeds, it stayed inside the disk exactly if the files and the root directory
have no more inodes than the super block declares. -/
theorem inside_iff (files : List HostFile) (s : Img) (h : mkfs files = .ok s) :
    Inside s ↔ files.length + 2 ≤ sb.ninodes := by
  have hn : sb.ninodes = 200 := rfl
  refine ⟨fun hin => ?_, fun hcount => ?_⟩
  · by_contra hlt
    have hmem : 200 ∈ s.inums := (inums_mkfs (by omega)).of_ok h
    exact absurd (hin.inums 200 hmem) (by decide)
  · have hout : Outcome (mkfs files) Any fun t => ∃ Y, Image t files Y :=
      outcome_mkfs (by omega) (fun _ _ _ _ => trivial) ⟨fun _ _ _ => trivial, fun _ _ => trivial⟩
    obtain ⟨X, hX⟩ := hout.of_ok h
    exact hX.inside (by omega)

/-- A file with the name `"a"` and no bytes. -/
def emptyFile : HostFile := ⟨[97], [], by simp, by simp⟩

theorem room_empties {n : ℕ} (hn : n ≤ 205) :
    blocksFor (DESIZE * ((List.replicate n emptyFile).length + 2)) +
      ((List.replicate n emptyFile).map fun f => blocksFor f.bytes.length).sum ≤ nblocks := by
  have hd : DESIZE = 16 := rfl
  have hb : BSIZE = 512 := rfl
  have hnb : nblocks = 941 := rfl
  have h0 : blocksFor emptyFile.bytes.length = 0 := by
    change blocksFor 0 = 0
    decide
  rw [List.map_replicate, h0, List.sum_replicate_nat, List.length_replicate, hd, hnb, blocksFor, hb]
  split_ifs <;> omega

theorem forall_empties {n : ℕ} {R : HostFile → Prop} (h : R emptyFile) :
    ∀ f ∈ List.replicate n emptyFile, R f := by
  intro f hf
  rwa [List.eq_of_mem_replicate hf]

theorem fits_empties {n : ℕ} (hn : n + 2 ≤ NINODES) : Fits (List.replicate n emptyFile) := by
  have hn' : NINODES = 200 := rfl
  refine ⟨forall_empties (by decide), ?_, forall_empties (Nat.zero_le _), room_empties (by omega)⟩
  rwa [List.length_replicate]

/-- With 199 files `mkfs` succeeds and uses an inode that the super block does not declare. -/
theorem inode_out_of_range : ∃ s, mkfs (List.replicate 199 emptyFile) = .ok s ∧
    200 ∈ s.inums ∧ ¬ 200 < sb.ninodes := by
  obtain ⟨s, hs, -⟩ := exists_image
    ((List.length_replicate (n := 199) (a := emptyFile)).trans_le (by omega))
    (forall_empties (by decide))
    (forall_empties (Nat.zero_le _)) (room_empties (by omega))
  exact ⟨s, hs, (inums_mkfs List.length_replicate.ge).of_ok hs, by decide⟩

/-- A file with the name `"_a"` and three bytes. -/
def smallFile : HostFile := ⟨[95, 97], [[1, 2, 3]], by simp, by simp [BSIZE]⟩

/-- A file with one byte more than the direct blocks hold. -/
def longFile : HostFile :=
  ⟨[98], List.replicate NDIRECT (List.replicate BSIZE 7) ++ [[8]], by simp, fun r hr => by
    rcases List.mem_append.1 hr with hr | hr
    · rw [List.eq_of_mem_replicate hr, List.length_replicate]
      decide
    · rw [List.mem_singleton.1 hr]
      decide⟩

theorem length_longFile : longFile.bytes.length = NDIRECT * BSIZE + 1 := by
  simp [HostFile.bytes, longFile]

theorem fits_two : Fits [smallFile, longFile] where
  names := List.forall_mem_cons.2 ⟨by decide, List.forall_mem_singleton.2 (by decide)⟩
  inodes := by decide
  sizes := List.forall_mem_cons.2 ⟨by decide, List.forall_mem_singleton.2
    (length_longFile.trans_le (by decide))⟩
  blocks := by
    simp only [List.map_cons, length_longFile]
    decide

theorem inside_iff_two : ∃ s, mkfs [smallFile, longFile] = .ok s ∧ Inside s := by
  obtain ⟨s, hs, -⟩ := fits_two.exists_image
  exact ⟨s, hs, (inside_iff [smallFile, longFile] s hs).2 (by decide)⟩

/-! ## Which blocks the kernel finds -/

/-- The address of file block `bn` of inode `i` on a disk, as `bmap` finds it. -/
def addrOf (d : Disk) (i bn : ℕ) : ℕ :=
  let din := mount.dinode d i
  if bn < NDIRECT then din.addr bn
  else if din.addr NDIRECT = 0 then 0
  else (d (din.addr NDIRECT)).word (bn - NDIRECT)

/-- The image has no holes : every block of an allocated inode up to its size is there and marked
in use, and nothing else is marked but the blocks before the data and the indirect blocks. -/
structure HoleFreeImage (d : Disk) : Prop where
  mapped : ∀ i < mount.sb.ninodes, (mount.dinode d i).type ≠ 0 →
    ∀ bn, bn * BSIZE < (mount.dinode d i).size.toNat →
      bn < MAXFILE ∧ addrOf d i bn ≠ 0 ∧ mount.inUse d (addrOf d i bn) = true
  clear : ∀ b < BPB, mount.inUse d b = true → b < nmeta ∨
    ∃ i < mount.sb.ninodes, (mount.dinode d i).type ≠ 0 ∧
      ((∃ bn, bn * BSIZE < (mount.dinode d i).size.toNat ∧ addrOf d i bn = b) ∨
        (mount.dinode d i).addr NDIRECT = b)

section Holes

variable {s : Img} {X : ℕ → Option Extent} {files : List HostFile} {i k : ℕ} {x : Extent}

section

variable (h : Image s files X)

include h

/-- The inodes as the kernel reads them, -/
theorem Image.dinode_eq (hi : X i = some x) : mount.dinode s.disk i = x.din :=
  (h.built.din i x hi (by simp)).1

/-- their addresses -/
theorem Image.addrOf_eq (hi : X i = some x) (hk : k < MAXFILE) :
    addrOf s.disk i k = x.ptr k := by
  have hcut := (h.built.holds i x hi).cut
  have hmax := Extent.ptr_maxfile (x := x) (by omega)
  simp only [addrOf, h.dinode_eq hi]
  split_ifs with hd h0
  · rw [Extent.ptr_direct hcut hd]
  · exact ((h.built.onDisk i x hi).ptr_indirect_eq_zero (hmax.trans h0) (by omega) hk).symm
  · rw [Extent.ptr_indirect hcut (by omega) hk, (h.built.onDisk i x hi).ind_eq (hmax ▸ h0), hmax]

/-- The block is there if the bytes reach into it. -/
theorem Image.ptr_ne_zero_iff (hi : X i = some x) (hk : k < MAXFILE) :
    x.ptr k ≠ 0 ↔ k * BSIZE < sizes files i := by
  rw [(h.built.holds i x hi).ptr k, mem_blocks, Uses]
  omega

/-- and their sizes. -/
theorem Image.size_of_ne (hi : X i = some x) (hne : i ≠ ROOTINO) :
    x.din.size.toNat = sizes files i := by
  rw [(h.built.din i x hi (by simp)).2, padded_of_ne hne]
  rfl

theorem Image.size_root (hi : X ROOTINO = some x) :
    x.din.size.toNat = rootSize files := by
  rw [(h.built.din _ x hi (by simp)).2, length_padded_root]

theorem Image.sizes_le (hi : X i = some x) :
    sizes files i ≤ x.din.size.toNat := by
  by_cases hne : i = ROOTINO
  · subst hne
    have hb : BSIZE = 512 := rfl
    rw [h.size_root hi, rootSize, hb]
    omega
  · exact (h.size_of_ne hi hne).ge

/-- The blocks of the files are marked in the bitmap. -/
theorem Image.inUse_ptr (hi : X i = some x) (hk : x.ptr k ≠ 0) :
    mount.inUse s.disk (x.ptr k) = true := by
  have hlt : x.ptr k < BPB := (h.below i x hi k).trans (by decide)
  rw [h.bits _ hlt]
  exact decide_eq_true (h.built.ptr_lt hi hk)

/-- Only the blocks before the data, those of the files and the indirect blocks are marked. -/
theorem Image.clear (hcount : files.length + 2 ≤ NINODES) {b : ℕ} (hb : b < BPB)
    (huse : mount.inUse s.disk b = true) : b < nmeta ∨
    ∃ i < mount.sb.ninodes, (mount.dinode s.disk i).type ≠ 0 ∧
      ((∃ bn, bn * BSIZE < (mount.dinode s.disk i).size.toNat ∧ addrOf s.disk i bn = b) ∨
        (mount.dinode s.disk i).addr NDIRECT = b) := by
  rw [h.bits b hb, decide_eq_true_eq] at huse
  refine (lt_or_ge b nmeta).imp id fun hge => ?_
  obtain ⟨⟨i, k⟩ | e, ho⟩ := (h.built.excl.used_iff b hge).1 huse
  · have hb0 : b ≠ 0 := by
      rw [nmeta_eq] at hge
      omega
    cases hi : X i with
    | none =>
      rw [place, hi] at ho
      exact absurd ho.symm hb0
    | some x =>
      rw [place_inode hi] at ho
      have hlt := (h.built.ino i).1 (by rw [hi]; rfl)
      have hn : mount.sb.ninodes = NINODES := rfl
      have hcount' := h.count
      have htype : x.din.type ≠ 0 := by
        rw [h.built.type i x hi, typeOf]
        split_ifs <;> decide
      refine ⟨i, by omega, by rwa [h.dinode_eq hi], ?_⟩
      rw [h.dinode_eq hi]
      have hle := (h.built.holds i x hi).lt (((h.built.holds i x hi).ptr k).1 (ho ▸ hb0))
      rcases Nat.lt_or_eq_of_le (Nat.le_of_lt_succ hle) with hk | rfl
      · have hsize := (h.ptr_ne_zero_iff hi hk).1 (ho ▸ hb0)
        exact .inl ⟨k, hsize.trans_le (h.sizes_le hi), (h.addrOf_eq hi hk).trans ho⟩
      · exact .inr ((Extent.ptr_maxfile (by rw [(h.built.holds i x hi).cut]; omega)).symm.trans ho)
  · exact e.elim

/-- An inode other than the root directory has all its blocks. -/
theorem Image.mapped (hi : X i = some x)
    (hsize : ∀ bn, bn * BSIZE < x.din.size.toNat → bn * BSIZE < sizes files i) {bn : ℕ}
    (hbn : bn * BSIZE < (mount.dinode s.disk i).size.toNat) :
    bn < MAXFILE ∧ addrOf s.disk i bn ≠ 0 ∧ mount.inUse s.disk (addrOf s.disk i bn) = true := by
  rw [h.dinode_eq hi] at hbn
  have hle := (h.built.holds i x hi).le
  have hlt : bn < MAXFILE := by
    rw [(h.built.din i x hi (by simp)).2] at hbn
    exact Nat.lt_of_mul_lt_mul_right (hbn.trans_le hle)
  rw [h.addrOf_eq hi hlt]
  have h0 := (h.ptr_ne_zero_iff hi hlt).2 (hsize bn hbn)
  exact ⟨hlt, h0, h.inUse_ptr hi h0⟩

end

end Holes

/-- For files that fit, the image has no holes exactly if the entries of the root directory do
not fill its last block. -/
theorem holeFreeImage_iff (files : List HostFile) (h : Fits files) :
    ∃ s, mkfs files = .ok s ∧
      (HoleFreeImage s.disk ↔ (files.length + 2) % (BSIZE / DESIZE) ≠ 0) := by
  obtain ⟨s, hs, X, hX⟩ := h.exists_image
  have hd : DESIZE = 16 := rfl
  have hb : BSIZE = 512 := rfl
  have hroot : ROOTINO = 1 := rfl
  have hn : NINODES = 200 := rfl
  have hn' : mount.sb.ninodes = NINODES := rfl
  have hcount := hX.count
  have hin := h.inodes
  obtain ⟨r, hr⟩ := isSome_iff_exists.1 ((hX.built.ino ROOTINO).2 ⟨by omega, by omega⟩)
  have hrsize := hX.size_root hr
  have hrlen := sizes_root files
  refine ⟨s, hs, fun hfree hfull => ?_, fun hpart => ⟨fun i hi htype bn hbn => ?_, fun b hlt hu =>
    hX.clear h.inodes hlt hu⟩⟩
  · -- the block after the last entry has no address
    have hbn : sizes files ROOTINO / BSIZE * BSIZE < (mount.dinode s.disk ROOTINO).size.toNat := by
      rw [hX.dinode_eq hr, hrsize, rootSize]
      exact Nat.mul_lt_mul_of_pos_right (Nat.lt_succ_self _) (by decide)
    have htype : (mount.dinode s.disk ROOTINO).type ≠ 0 := by
      rw [hX.dinode_eq hr, hX.built.type _ r hr]
      decide
    obtain ⟨hlt, h0, -⟩ := hfree.mapped ROOTINO (by decide) htype _ hbn
    rw [hX.addrOf_eq hr hlt, hX.ptr_ne_zero_iff hr hlt, hrlen, hd, hb] at h0
    rw [hb, hd] at hfull
    omega
  · cases hXi : X i with
    | none =>
      have hunused := (hX.built.unused i hXi).2 (by omega)
      exact absurd hunused htype
    | some x =>
      refine hX.mapped hXi (fun c hc => ?_) hbn
      by_cases hne : i = ROOTINO
      · subst hne
        rw [hX.size_root hXi, rootSize, hrlen, hd, hb] at hc
        rw [hb, hd] at hpart
        rw [hrlen, hd, hb]
        omega
      · rwa [hX.size_of_ne hXi hne] at hc

/-- With 30 files the root directory has 32 entries, which fill one block. Its size is two
blocks, and the second has no address. -/
theorem root_hole : Fits (List.replicate 30 emptyFile) ∧
    ∃ s, mkfs (List.replicate 30 emptyFile) = .ok s ∧ ¬ HoleFreeImage s.disk ∧
      (mount.dinode s.disk ROOTINO).size.toNat = 2 * BSIZE ∧ addrOf s.disk ROOTINO 1 = 0 := by
  have hfits := fits_empties (n := 30) (by decide)
  obtain ⟨s, hs, X, hX⟩ := hfits.exists_image
  have hlen : (List.replicate 30 emptyFile).length = 30 := List.length_replicate
  have hcount := hX.count
  have hsizes := sizes_root (List.replicate 30 emptyFile)
  rw [hlen] at hcount hsizes
  obtain ⟨x, hx⟩ := isSome_iff_exists.1
    ((hX.built.ino ROOTINO).2 ⟨by decide, by rw [hcount]; decide⟩)
  have htype : (mount.dinode s.disk ROOTINO).type ≠ 0 := by
    rw [hX.dinode_eq hx, hX.built.type _ x hx]
    decide
  have hsize : (mount.dinode s.disk ROOTINO).size.toNat = 2 * BSIZE := by
    rw [hX.dinode_eq hx, hX.size_root hx, rootSize, hsizes]
    rfl
  have haddr : addrOf s.disk ROOTINO 1 = 0 := by
    rw [hX.addrOf_eq hx (by decide)]
    by_contra h0
    rw [← ne_eq, hX.ptr_ne_zero_iff hx (by decide), hsizes] at h0
    exact absurd h0 (by decide)
  refine ⟨hfits, s, hs, fun hfree => ?_, hsize, haddr⟩
  exact (hfree.mapped ROOTINO (by decide) htype 1 (by rw [hsize]; decide)).2.1 haddr

/-- A file with an indirect block leaves no hole. -/
theorem holeFreeImage_iff_two : Fits [smallFile, longFile] ∧
    ∃ s, mkfs [smallFile, longFile] = .ok s ∧ HoleFreeImage s.disk := by
  obtain ⟨s, hs, hiff⟩ := holeFreeImage_iff [smallFile, longFile] fits_two
  exact ⟨fits_two, s, hs, hiff.2 (by decide)⟩

end Xv6.Mkfs
