import Xv6.MkfsFiles
import Xv6.NameRules

/-!
# Reading what mkfs wrote

The kernel, on a disk that `mkfs` has made and with an empty inode cache, looks up a path in the
root directory, and reads from the inode that it finds (`lookupRead`). `reads_back` says that the
inode is that of the file with this name, and that the bytes are those of the file on the host.

The programs of the kernel are executed alone. The rules follow them to their ends, so they
also say that no program panics or waits.
-/

set_option linter.unusedSectionVars false

namespace Xv6

open List

/-! ## Stored names -/

/-- A path with one element. -/
theorem skipelem_single {name : List UInt8} (hne : name ≠ []) (h0 : ∀ c ∈ name, c ≠ 0)
    (hslash : 47 ∉ name) : skipelem (47 :: name) = some (name.take DIRSIZ, []) := by
  have hhead : ∀ c ∈ name, c ≠ 47 := fun c hc he => hslash (he ▸ hc)
  have hdrop : (47 :: name).dropWhile (· = 47) = name := by
    obtain ⟨c, t, rfl⟩ := exists_cons_of_ne_nil hne
    simp [hhead c mem_cons_self]
  have hzero : name.headD 0 ≠ 0 := by
    obtain ⟨c, t, rfl⟩ := exists_cons_of_ne_nil hne
    exact h0 c mem_cons_self
  have hall : ∀ c ∈ name, decide (c ≠ 47 ∧ c ≠ 0) = true := fun c hc =>
    decide_eq_true ⟨hhead c hc, h0 c hc⟩
  simp only [skipelem, hdrop, if_neg hzero, takeWhile_eq_self_iff.2 hall,
    dropWhile_eq_nil_iff.2 hall, dropWhile_nil]

namespace Fs

open Prog Function

variable {P : Type} [DecidableEq P] {M : Mount} {p : P} {s : State P} {k : Slot} {x : Extent}

/-- Look up a path and read from the inode that it names. The result has the number of the
inode. -/
def lookupRead (M : Mount) (p : P) (path : List UInt8) (off n : UInt32) :
    Kernel P (Option (ℕ × ℤ × List UInt8)) := do
  match ← namei M p path with
  | none => return none
  | some ip =>
    ilock M p ip .walk
    let inum ← inumOf ip
    let r ← readi M p ip off n
    iunlockput M p ip
    return some (inum, r)

/-- No inode is in use. -/
structure Idle (s : State P) : Prop where
  ref : ∀ k, (s.icache k).ref = 0
  lock : ∀ k, s.lock k = none

end Fs

namespace Mkfs

open Prog Function Fs

/-! ## The root directory -/

variable {im : Img} {files : List HostFile} {X : ℕ → Option Extent} {x : Extent}

/-- The entries of the root directory on the disk. -/
theorem Image.entry_root (h : Image im files X) (hx : X ROOTINO = some x) {l : ℕ} {de : Dirent}
    (hl : (entries files)[l]? = some de) (hi : de.inum < 2 ^ 16) :
    x.file.Complete l ∧ x.file.entry l = de := by
  have hD : DESIZE = 16 := rfl
  have hlen : (entries files).length = files.length + 2 := by simp [entries]
  have hlt : l < files.length + 2 := hlen ▸ (List.getElem?_eq_some_iff.1 hl).1
  have hroot := sizes_root files
  have hsize := h.sizes_le hx
  have hend : DESIZE * l + DESIZE ≤ sizes files ROOTINO := by
    rw [hroot, hD]
    omega
  refine ⟨hend.trans hsize, ?_⟩
  refine FileData.entry_of_bytes (fun _ => length_bytes_of_mem) hl hi fun i h1 => ?_
  have hin : DESIZE * l + i < x.din.size.toNat := by omega
  have hdata : x.file.data (DESIZE * l + i) = x.byte (DESIZE * l + i) := if_pos hin
  have hcont : (padded files ROOTINO)[DESIZE * l + i]? =
      ((entries files).flatMap Dirent.bytes)[DESIZE * l + i]? := by
    rw [padded, update_self, List.getElem?_append_left (by change _ < sizes files ROOTINO; omega)]
    rfl
  rw [hdata, (h.built.holds _ x hx).byte, getD_eq_getElem?_getD, hcont,
    getD_eq_getElem?_getD]

/-- The name of a file in the file system. -/
def fileName (f : HostFile) : List UInt8 := (skipUnderscore f.name).take DIRSIZ

/-- The names are good for a directory. -/
structure Named (files : List HostFile) : Prop where
  nonempty : ∀ f ∈ files, fileName f ≠ []
  nodup : (files.map fileName).Nodup
  dot : ∀ f ∈ files, fileName f ≠ dotName
  dotdot : ∀ f ∈ files, fileName f ≠ dotdotName

theorem skipUnderscore_subset (name : List UInt8) : skipUnderscore name ⊆ name := by
  unfold skipUnderscore
  split_ifs
  · exact tail_subset name
  · exact List.Subset.refl _

theorem fileName_subset (f : HostFile) : fileName f ⊆ f.name :=
  List.Subset.trans (take_subset _ _) (skipUnderscore_subset _)

/-- A stored name is found by the name of the file only. -/
theorem namecmp_fileName {f : HostFile} {name : List UInt8} (h : ∀ c ∈ name, c ≠ 0) :
    namecmp (fileName f) (strncpy DIRSIZ name) = 0 ↔ fileName f = name.take DIRSIZ := by
  have hf : ∀ c ∈ skipUnderscore f.name, c ≠ 0 := fun c hc =>
    f.name_ne c (skipUnderscore_subset _ hc)
  rw [namecmp, strncmp_eq_zero_iff, strncpy_strncpy, fileName, strncpy_take]
  refine ⟨fun he => ?_, fun he => ?_⟩
  · rw [← takeWhile_strncpy DIRSIZ hf, he, takeWhile_strncpy DIRSIZ h]
  · rw [← strncpy_take, he, strncpy_take]

/-- The lookup of a file finds its entry. -/
theorem Image.finds (h : Image im files X) (hn : Named files) (hin : files.length + 2 ≤ NINODES)
    (hx : X ROOTINO = some x) {j : ℕ} {f : HostFile} (hj : files[j]? = some f) :
    x.file.Finds (fileName f) (j + 2) ∧ (x.file.entry (j + 2)).inum = j + 2 := by
  have hN : NINODES = 200 := rfl
  have hfile : ∀ {l g}, files[l]? = some g → x.file.Complete (l + 2) ∧ x.file.entry (l + 2) =
      ⟨l + 2, strncpy DIRSIZ (skipUnderscore g.name)⟩ := by
    intro l g hl
    have hlt := (List.getElem?_eq_some_iff.1 hl).1
    refine h.entry_root hx ?_ (by simp only; omega)
    simp [entries, hl]
  have hname : ∀ g ∈ files, ∀ c ∈ skipUnderscore g.name, c ≠ 0 := fun g _ c hc =>
    g.name_ne c (skipUnderscore_subset _ hc)
  have hdot : ∀ c ∈ dotName, c ≠ 0 := by simp [dotName]
  have hdotdot : ∀ c ∈ dotdotName, c ≠ 0 := by simp [dotdotName]
  have hmem := mem_of_getElem? hj
  obtain ⟨hc, he⟩ := hfile hj
  refine ⟨⟨hc, by rw [he]; simp, ?_, fun l hl => ?_⟩, by rw [he]⟩
  · rw [he]
    exact (namecmp_fileName (hname f hmem)).2 rfl
  · rcases l with _ | _ | l
    · obtain ⟨hc0, he0⟩ := h.entry_root hx (l := 0) rfl (by decide)
      refine ⟨hc0, .inr ?_⟩
      rw [he0]
      exact fun heq => hn.dot f hmem ((namecmp_fileName hdot).1 heq)
    · obtain ⟨hc1, he1⟩ := h.entry_root hx (l := 1) rfl (by decide)
      refine ⟨hc1, .inr ?_⟩
      rw [he1]
      exact fun heq => hn.dotdot f hmem ((namecmp_fileName hdotdot).1 heq)
    · have hlt : j < files.length := (List.getElem?_eq_some_iff.1 hj).1
      obtain ⟨g, hg⟩ : ∃ g, files[l]? = some g := ⟨_, List.getElem?_eq_getElem (by omega)⟩
      obtain ⟨hcl, hel⟩ := hfile hg
      refine ⟨hcl, .inr ?_⟩
      rw [hel]
      intro heq
      have hsame := (namecmp_fileName (hname g (mem_of_getElem? hg))).1 heq
      have hinj := (List.getElem?_inj (by rwa [length_map]) hn.nodup (j := l)).1
        (by rw [List.getElem?_map, List.getElem?_map, hj, hg]; exact congrArg some hsame)
      omega

/-! ## The kernel on the image -/

section Kernel

variable {P : Type} [DecidableEq P] {p : P} {s : State P} {k : Slot} {i : ℕ}

section

variable (h : Image im files X)

include h

theorem Image.type_ne (hi : X i = some x) :
    x.din.type ≠ 0 ∧ x.din.type ≠ T_DEV := by
  rw [h.built.type i x hi, typeOf]
  split_ifs <;> decide

/-- An inode of the image that is in the inode cache. -/
theorem Image.cached (hi : X i = some x) (hdisk : s.disk = im.disk)
    (hdev : (s.icache k).dev = ROOTDEV) (hcopy : (s.copy k).din = mount.dinode im.disk i) :
    Cached mount s k x :=
  ⟨hdev, hcopy.trans (h.dinode_eq hi), hdisk ▸ h.built.onDisk i x hi, (h.built.holds i x hi).cut,
    fun j => h.below i x hi j⟩

theorem Image.readInode_eq (hi : i < NINODES) :
    readInode mount im.disk i = X i := by
  cases hx : X i with
  | none =>
    have hN : NINODES = 200 := rfl
    exact if_pos ((h.built.unused i hx).2 (by omega))
  | some x =>
    rw [readInode, h.dinode_eq hx, if_neg (h.type_ne hx).1]
    refine congrArg some ?_
    have hon : x = _ := h.built.onDisk i x hx
    rw [(h.built.holds i x hx).cut] at hon
    exact hon.symm

/-- The kernel with an empty inode cache, on the image. -/
theorem Image.atRest (hdisk : s.disk = im.disk) (hidle : Idle s) :
    AtRest mount s where
  coherent := by
    have hno : ∀ k, ¬ 0 < (s.icache k).ref := fun k => by rw [hidle.ref k]; exact lt_irrefl _
    exact ⟨fun k => (hidle.ref k).ge, fun k hk => absurd hk (hno k),
      fun k _ hk => absurd hk (hno k), fun k hk => absurd hk (hno k)⟩
  lock := hidle.lock
  linked i hi x hx hlink := by
    rw [hdisk, h.readInode_eq hi] at hx
    rw [h.built.nlink i x hx] at hlink
    cases hlink

theorem Image.size_le (hi : X i = some x) :
    x.din.size.toNat ≤ MAXFILE * BSIZE := by
  rw [(h.built.din i x hi (by simp)).2]
  exact (h.built.holds i x hi).le

/-- The bytes of an inode are in blocks that are there. -/
theorem Image.ptr_ne_zero (hi : X i = some x) {bn : ℕ} (hbn : bn * BSIZE < sizes files i) :
    bn < MAXFILE ∧ x.ptr bn ≠ 0 := by
  have hmax : bn < MAXFILE :=
    Nat.lt_of_mul_lt_mul_right (hbn.trans_le ((h.sizes_le hi).trans (h.size_le hi)))
  exact ⟨hmax, (h.ptr_ne_zero_iff hi hmax).2 hbn⟩

/-- The lookup of a file in the root directory. -/
theorem Image.returns_namei (hn : Named files) (hfits : Fits files) (hdisk : s.disk = im.disk)
    (hidle : Idle s) {j : ℕ} {f : HostFile} (hj : files[j]? = some f) :
    Returns (namei mount p (47 :: fileName f)) s fun r t =>
      ∃ l, r = some l ∧ Found mount s l (j + 2) t := by
  have hcount := h.count
  have hs := h.atRest hdisk hidle
  obtain ⟨x, hx⟩ := Option.isSome_iff_exists.1 ((h.built.ino ROOTINO).2 ⟨by decide, by
    have : ROOTINO = 1 := rfl
    omega⟩)
  have htype : x.din.type = T_DIR := h.built.type _ x hx
  have hread : readInode mount s.disk ROOTINO = some x := by
    rw [hdisk, h.readInode_eq (by decide), hx]
  obtain ⟨hfind, hinum⟩ := h.finds hn hfits.inodes hx hj
  have hmem := mem_of_getElem? hj
  have hskip : skipelem (47 :: fileName f) = some (fileName f, []) := by
    rw [skipelem_single (hn.nonempty f hmem) (fun c hc => f.name_ne c (fileName_subset f hc))
      fun hc => hfits.names f hmem (fileName_subset f hc), fileName, take_take, Nat.min_self]
  have hroom : Roomy s :=
    ⟨⟨0, by decide⟩, ⟨1, by decide⟩, by decide, hidle.ref _, hidle.ref _⟩
  refine ends_bind ?_
  unfold namex
  rw [if_pos (by rfl)]
  refine ends_bind (hs.coherent.ends_iget
    (Or.inl ⟨_, Or.inl (hidle.ref ⟨0, by decide⟩)⟩) fun k t ht => ?_)
  have hroot : Found mount s k ROOTINO t :=
    ⟨(Holding.refl hs.coherent).taken ht, ht.lock, by rw [ht.entry]⟩
  unfold namexFrom
  rw [hskip]
  simp only
  refine ends_bind ((returns_open hs (by decide) hroot hread).mono fun _ u hu => ?_)
  refine ends_bind (returns_load ?_)
  simp only [hu.copy, htype, ne_eq, not_true_eq_false, if_false, Bool.false_eq_true, false_and]
  have hcached : Cached mount u k x :=
    h.cached hx (by rw [hu.holding.disk, hdisk])
      (hu.holding.coherent.dev k (hu.holding.ref_pos hs.coherent))
      (by rw [hu.copy]; exact (h.dinode_eq hx).symm)
  have hlt : DESIZE * (j + 2) + DESIZE ≤ sizes files ROOTINO := by
    have hD : DESIZE = 16 := rfl
    have := (List.getElem?_eq_some_iff.1 hj).1
    rw [sizes_root, hD]
    omega
  refine ends_bind (ends_dirlookup_upto hcached htype (h.size_le hx) hu.holding.coherent hfind
    (Or.inl (hroom.roomFor hu.holding _)) (fun bn hbn => h.ptr_ne_zero hx (hbn.trans_le hlt))
    fun l w hw => ?_)
  rw [hinum] at hw
  refine ends_bind ((hu.taken hs hw).returns_iunlockput hs (by decide) hread fun hl hlock => ?_)
  rw [length_cons]
  unfold namexFrom
  rw [show skipelem [] = none from rfl]
  refine ends_pure (ends_pure ⟨l, rfl, hl, hlock, ?_⟩)
  rw [State.dropped_inum, hw.entry]

end

/-- `readsb` reads what `main` of `mkfs` stored. -/
theorem readsb_superBlock : readsb superBlock = sb := by
  have hword : ∀ i (hi : i < (words sb).length), superBlock.word i = (words sb)[i] := by
    intro i hi
    have hlt : ∀ w ∈ words sb, w < 2 ^ 32 := by decide
    have := Bytes.word_blit_leWords (Bytes.zero BSIZE) (j := 0) hi (by decide)
      (hlt _ (getElem_mem hi))
    rwa [zero_add] at this
  unfold readsb
  rw [hword 0 (by decide), hword 1 (by decide), hword 2 (by decide), hword 3 (by decide),
    hword 4 (by decide), hword 5 (by decide), hword 6 (by decide)]
  rfl

/-- What a read of `n` bytes at `off` returns : the bytes of the host file that are there, or `-1`
for an offset past the end or a range that wraps. -/
def HostFile.readAt (f : HostFile) (off n : UInt32) : ℤ × List UInt8 :=
  if f.bytes.length < off.toNat ∨ 2 ^ 32 ≤ off.toNat + n.toNat then (-1, [])
  else
    let bs := (f.bytes.drop off.toNat).take n.toNat
    (bs.length, bs)

theorem map_range_getD (bs : List UInt8) (off m : ℕ) (h : off + m ≤ bs.length) :
    ((List.range m).map fun i => bs.getD (off + i) 0) = (bs.drop off).take m := by
  refine ext_getElem ?_ fun i h1 h2 => ?_
  · rw [length_map, length_range, length_take, length_drop]
    omega
  · rw [length_map, length_range] at h1
    rw [getElem_map, getElem_range, getElem_take, getElem_drop,
      getD_eq_getElem _ _ (by omega)]

/-- What the file system says that a file holds is what the host file holds. -/
theorem Image.readAt_eq (h : Image im files X) {j : ℕ} {f : HostFile} (hj : files[j]? = some f)
    (hi : X (j + 2) = some x) (off n : UInt32) : x.file.readAt off n = f.readAt off n := by
  have hne : j + 2 ≠ ROOTINO := by simp [ROOTINO]
  have hcont : contents files (j + 2) = f.bytes := by simp [contents, hj]
  have hsize : x.din.size.toNat = f.bytes.length := by
    rw [h.size_of_ne hi hne, sizes, hcont]
  have hbyte : ∀ o, x.byte o = f.bytes.getD o 0 := fun o => by
    rw [(h.built.holds _ x hi).byte, padded_of_ne hne, hcont]
  have hbad : (off > x.din.size ∨ off + n < off) ↔
      (f.bytes.length < off.toNat ∨ 2 ^ 32 ≤ off.toNat + n.toNat) := by
    have h1 := off.toNat_lt
    have h2 := n.toNat_lt
    rw [gt_iff_lt, UInt32.lt_iff_toNat_lt, UInt32.lt_iff_toNat_lt, UInt32.toNat_add, hsize]
    omega
  unfold HostFile.readAt
  by_cases hb : off > x.din.size ∨ off + n < off
  · rw [Extent.readAt_file_of_bad hb, if_pos (hbad.1 hb)]
  · obtain ⟨hle, hlen⟩ := toNat_readLen hb
    rw [hsize] at hle hlen
    rw [Extent.readAt_file hb, if_neg (mt hbad.2 hb)]
    simp only [hbyte]
    have htake : (f.bytes.drop off.toNat).take (min n.toNat (f.bytes.length - off.toNat)) =
        (f.bytes.drop off.toNat).take n.toNat := by
      rw [← length_drop, take_eq_take_iff]
      omega
    rw [map_range_getD _ _ _ (by omega), hlen, htake, length_take, length_drop]

/-- The lookup of a file and a read from it. -/
theorem Image.returns_lookupRead (h : Image im files X) (hn : Named files) (hfits : Fits files)
    (hdisk : s.disk = im.disk) (hidle : Idle s) {j : ℕ} {f : HostFile} (hj : files[j]? = some f)
    (off n : UInt32) : Returns (lookupRead mount p (47 :: fileName f) off n) s fun r t =>
      r = some (j + 2, f.readAt off n) ∧ t.disk = im.disk := by
  have hlt := (List.getElem?_eq_some_iff.1 hj).1
  have hcount := h.count
  have hin := hfits.inodes
  have hs := h.atRest hdisk hidle
  have hne : j + 2 ≠ ROOTINO := by simp [ROOTINO]
  have hi : j + 2 < NINODES := by omega
  obtain ⟨x, hx⟩ := Option.isSome_iff_exists.1 ((h.built.ino (j + 2)).2 ⟨by omega, by omega⟩)
  have hread : readInode mount s.disk (j + 2) = some x := by rw [hdisk, h.readInode_eq hi, hx]
  refine ends_bind ((h.returns_namei hn hfits hdisk hidle hj).mono ?_)
  rintro _ t ⟨l, rfl, hl⟩
  refine ends_bind ((returns_open hs hi hl hread).mono fun _ u hu => ?_)
  refine ends_bind (returns_inumOf ?_)
  have hcached : Cached mount u l x :=
    h.cached hx (by rw [hu.holding.disk, hdisk])
      (hu.holding.coherent.dev l (hu.holding.ref_pos hs.coherent))
      (by rw [hu.copy]; exact (h.dinode_eq hx).symm)
  refine ends_bind (returns_readi hcached (h.type_ne hx).2 (fun bn hbn => ?_) ?_)
  · refine h.ptr_ne_zero hx ?_
    rw [← h.size_of_ne hx hne]
    exact hbn.trans_le (Nat.min_le_right _ _)
  · refine ends_bind (hu.returns_iunlockput hs hi hread fun ht _ => ends_pure ⟨?_, ?_⟩)
    · rw [hu.inum, h.readAt_eq hj hx]
    · rw [ht.disk, hdisk]

end Kernel

/-- The kernel reads back what `mkfs` wrote. The super block that it reads is the one that `mkfs`
used, and with an empty inode cache the lookup of a file's name in the root directory finds the
inode that `mkfs` allocated for the file, and a read returns the bytes of the host file. -/
theorem reads_back (files : List HostFile) (hfits : Fits files) (hn : Named files) :
    ∃ im, mkfs files = .ok im ∧ readsb (im.disk 1) = mount.sb ∧
      ∀ (P : Type) [DecidableEq P] (p : P) (s : State P), s.disk = im.disk → Idle s →
        ∀ j f, files[j]? = some f → ∀ off n : UInt32, ∃ inum, im.inums[j + 1]? = some inum ∧
          Returns (lookupRead mount p (47 :: fileName f) off n) s fun r t =>
            r = some (inum, f.readAt off n) ∧ t.disk = im.disk := by
  obtain ⟨im, him, X, hX⟩ := hfits.exists_image
  refine ⟨im, him, ?_, fun P _ p s hdisk hidle j f hj off n => ⟨j + 2, ?_, ?_⟩⟩
  · rw [hX.built.super]
    exact readsb_superBlock
  · have hlt := (List.getElem?_eq_some_iff.1 hj).1
    rw [hX.built.inums, hX.count, List.getElem?_range' (by omega)]
    exact congrArg some (by omega)
  · exact hX.returns_lookupRead hn hfits hdisk hidle hj off n

/-- Of the three bytes of `"a"`, a read of five at offset 1 returns two. -/
theorem reads_back_small : Fits [smallFile] ∧ Named [smallFile] ∧
    ∃ im, mkfs [smallFile] = .ok im ∧
      ∀ (P : Type) [DecidableEq P] (p : P) (s : State P), s.disk = im.disk → Idle s →
        Returns (lookupRead mount p [47, 97] 1 5) s fun r _ =>
          ∃ inum, r = some (inum, 2, [2, 3]) := by
  have hfits : Fits [smallFile] :=
    ⟨forall_mem_singleton.2 (by decide), by decide, forall_mem_singleton.2 (by decide),
      by decide⟩
  have hnamed : Named [smallFile] :=
    ⟨forall_mem_singleton.2 (by decide), by decide, forall_mem_singleton.2 (by decide),
      forall_mem_singleton.2 (by decide)⟩
  obtain ⟨im, him, -, hread⟩ := reads_back [smallFile] hfits hnamed
  refine ⟨hfits, hnamed, im, him, fun P _ p s hdisk hidle => ?_⟩
  obtain ⟨inum, -, hr⟩ := hread P p s hdisk hidle 0 smallFile rfl 1 5
  exact hr.mono fun r t h => ⟨inum, h.1⟩

end Mkfs

end Xv6
