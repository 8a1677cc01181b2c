import Xv6.Layout
import Mathlib.Logic.Function.Basic

/-!
# Inodes with their blocks

An `Extent` is an inode together with the contents of all its blocks, as one value :
the direct and the indirect blocks, and the indirect block itself, which has index
`MAXFILE`. While `itrunc` frees the blocks one after the other, the inode still has
their addresses; `cut` is the index below which they are no longer the inode's.

`Extent.read` reads an extent from a disk, and `Extent.OnDisk` says that the disk holds
it. Both depend on the blocks of the extent only (`OnDisk.congr`). The rest of the
module is one lemma for each way the kernel changes an extent and the disk.
-/

namespace Xv6

open Function

variable {k i a : ℕ} {din : Dinode}

/-- An inode with the contents of its blocks. Blocks it does not have read as zeros. -/
structure Extent where
  din : Dinode
  /-- The indirect block. -/
  ind : Block
  /-- The data blocks. -/
  blk : ℕ → Block
  /-- The blocks below this index have been freed. -/
  cut : ℕ

namespace Extent

/-- The address of block `k`, and `0` if there is none. -/
def ptr (x : Extent) (k : ℕ) : ℕ :=
  if k < x.cut then 0
  else if k < NDIRECT then x.din.addr k
  else if k < MAXFILE then x.ind.word (k - NDIRECT)
  else if k = MAXFILE then x.din.addr NDIRECT
  else 0

/-- The contents of an address, zeros for address `0`. -/
def fetch (d : Disk) (a : ℕ) : Block := if a = 0 then Bytes.zero BSIZE else d a

/-- The extent of an inode on a disk. -/
def read (d : Disk) (din : Dinode) (cut : ℕ) : Extent :=
  let ind := fetch d (if MAXFILE < cut then 0 else din.addr NDIRECT)
  let x : Extent := ⟨din, ind, fun _ => Bytes.zero BSIZE, cut⟩
  { x with blk := fun k => if k < MAXFILE then fetch d (x.ptr k) else Bytes.zero BSIZE }

/-- The disk holds the blocks of the extent. -/
def OnDisk (d : Disk) (x : Extent) : Prop := x = read d x.din x.cut

/-- The byte at an offset of the file. -/
def byte (x : Extent) (o : ℕ) : UInt8 := (x.blk (o / BSIZE)).get (o % BSIZE)

/-- Every block of the file up to its size is there. -/
def HoleFree (x : Extent) : Prop :=
  x.din.type ≠ T_DEV → ∀ bn, bn * BSIZE < x.din.size.toNat → bn < MAXFILE ∧ x.ptr bn ≠ 0

variable {d d' : Disk} {x y : Extent}

/-- A piece of one block. -/
theorem slice_blk {off m : ℕ} (h : off % BSIZE + m ≤ BSIZE) :
    (x.blk (off / BSIZE)).slice (off % BSIZE) m = (List.range m).map fun i => x.byte (off + i) := by
  have hB : BSIZE = 512 := rfl
  refine List.map_congr_left fun i hi => ?_
  rw [List.mem_range] at hi
  have h1 : (off + i) / BSIZE = off / BSIZE := by
    rw [hB] at h ⊢
    omega
  have h2 : (off + i) % BSIZE = off % BSIZE + i := by
    rw [hB] at h ⊢
    omega
  rw [byte, h1, h2]

theorem ptr_of_cut (h : k < x.cut) : x.ptr k = 0 := if_pos h

/-- The direct addresses, -/
theorem ptr_direct (hc : x.cut = 0) (hk : k < NDIRECT) : x.ptr k = x.din.addr k := by
  simp [ptr, hc, hk]

/-- the indirect ones -/
theorem ptr_indirect (hc : x.cut = 0) (hk : NDIRECT ≤ k) (hk' : k < MAXFILE) :
    x.ptr k = x.ind.word (k - NDIRECT) := by
  simp [ptr, hc, hk', not_lt.2 hk]

/-- and the indirect block itself. -/
theorem ptr_maxfile (hc : x.cut ≤ MAXFILE) : x.ptr MAXFILE = x.din.addr NDIRECT := by
  have h1 : ¬ MAXFILE < NDIRECT := by decide
  simp [ptr, not_lt.2 hc, h1]

theorem ptr_of_gt (hk : MAXFILE < k) : x.ptr k = 0 := by
  have h1 : ¬ k < NDIRECT := by
    have : NDIRECT < MAXFILE := by decide
    omega
  simp [ptr, h1, not_lt.2 hk.le, hk.ne']

/-- What `OnDisk` says, block by block. -/
theorem onDisk_iff : x.OnDisk d ↔ x.ind = fetch d (x.ptr MAXFILE) ∧
    (∀ k < MAXFILE, x.blk k = fetch d (x.ptr k)) ∧
    ∀ k, MAXFILE ≤ k → x.blk k = Bytes.zero BSIZE := by
  have hmax : (if MAXFILE < x.cut then 0 else x.din.addr NDIRECT) = x.ptr MAXFILE := by
    split_ifs with h
    · rw [ptr_of_cut h]
    · rw [ptr_maxfile (not_lt.1 h)]
  constructor
  · intro h
    have hind : x.ind = fetch d (x.ptr MAXFILE) := by
      rw [← hmax]
      exact congrArg ind h
    have hptr : ∀ k, (⟨x.din, fetch d (x.ptr MAXFILE), fun _ => Bytes.zero BSIZE, x.cut⟩ :
        Extent).ptr k = x.ptr k := by
      intro k
      rw [← hind]
      rfl
    have hblk : ∀ k, x.blk k = if k < MAXFILE then fetch d (x.ptr k) else Bytes.zero BSIZE := by
      intro k
      rw [← hptr k]
      have := congrFun (congrArg blk h) k
      simpa only [read, hmax] using this
    exact ⟨hind, fun k hk => by rw [hblk, if_pos hk], fun k hk => by rw [hblk, if_neg (by omega)]⟩
  · rintro ⟨hind, hlt, hge⟩
    have hblk : x.blk = fun k => if k < MAXFILE then fetch d (x.ptr k) else Bytes.zero BSIZE := by
      funext k
      split_ifs with hk
      · exact hlt k hk
      · exact hge k (by omega)
    obtain ⟨din, ind, blk, cut⟩ := x
    simp only [OnDisk, read]
    simp only at hmax hind hblk
    rw [hmax, ← hind, hblk]
    rfl

/-- Whether a disk holds an extent depends on the blocks of the extent only. -/
theorem OnDisk.congr (h : x.OnDisk d) (hd : ∀ k, x.ptr k ≠ 0 → d' (x.ptr k) = d (x.ptr k)) :
    x.OnDisk d' := by
  obtain ⟨hind, hlt, hge⟩ := onDisk_iff.1 h
  have hf : ∀ k, fetch d' (x.ptr k) = fetch d (x.ptr k) := by
    intro k
    unfold fetch
    split_ifs with h0
    · rfl
    · exact hd k h0
  exact onDisk_iff.2 ⟨by rw [hf, hind], fun k hk => by rw [hf, hlt k hk], hge⟩

theorem OnDisk.blk_eq (h : x.OnDisk d) (hk : k < MAXFILE) (h0 : x.ptr k ≠ 0) :
    x.blk k = d (x.ptr k) := by
  rw [(onDisk_iff.1 h).2.1 k hk, fetch, if_neg h0]

theorem OnDisk.ind_eq (h : x.OnDisk d) (h0 : x.ptr MAXFILE ≠ 0) : x.ind = d (x.ptr MAXFILE) := by
  rw [(onDisk_iff.1 h).1, fetch, if_neg h0]

theorem onDisk_read (d : Disk) (din : Dinode) (cut : ℕ) : (read d din cut).OnDisk d := rfl

/-- Without its indirect block an inode has no indirect addresses. -/
theorem OnDisk.ptr_indirect_eq_zero (h : x.OnDisk d) (h0 : x.ptr MAXFILE = 0) (hk : NDIRECT ≤ k)
    (hk' : k < MAXFILE) : x.ptr k = 0 := by
  have hind : x.ind = Bytes.zero BSIZE := by
    rw [(onDisk_iff.1 h).1, fetch, if_pos h0]
  simp [ptr, not_lt.2 hk, hk', hind]

/-! ## How extents change -/

/-- Change the inode, and no address. -/
def setDin (x : Extent) (din : Dinode) : Extent := { x with din := din }

/-- `nlink++`. The field is a `short`, and 32767 is followed by -32768. -/
def addLink (x : Extent) : Extent := x.setDin { x.din with nlink := x.din.nlink + 1 }

/-- `addrs[i] = a`. -/
def setAddr (x : Extent) (i a : ℕ) : Extent := { x with din := x.din.setAddr i a }

/-- Store an address in the indirect block. -/
def setWord (x : Extent) (j a : ℕ) : Extent := { x with ind := x.ind.setWord j a }

/-- Change the contents of a block. -/
def setBlock (x : Extent) (bn : ℕ) (b : Block) : Extent :=
  { x with blk := update x.blk bn b }

/-- Give up the blocks below an index. -/
def cutTo (x : Extent) (c : ℕ) : Extent where
  din := x.din
  ind := if MAXFILE < c then Bytes.zero BSIZE else x.ind
  blk k := if k < c then Bytes.zero BSIZE else x.blk k
  cut := c

/-- The extent of an inode without blocks. -/
def bare (din : Dinode) : Extent := ⟨din, Bytes.zero BSIZE, fun _ => Bytes.zero BSIZE, 0⟩

theorem ptr_setDin (h : din.addrs = x.din.addrs) : (x.setDin din).ptr = x.ptr := by
  funext k
  simp [ptr, setDin, Dinode.addr, h]

/-- The blocks matter, not the other fields of the inode. -/
theorem OnDisk.of_ptr (h : x.OnDisk d) (hptr : y.ptr = x.ptr) (hind : y.ind = x.ind)
    (hblk : y.blk = x.blk) : y.OnDisk d := by
  rw [onDisk_iff, hptr, hind, hblk]
  exact onDisk_iff.1 h

theorem OnDisk.setDin (h : x.OnDisk d) (hd : din.addrs = x.din.addrs) :
    (x.setDin din).OnDisk d :=
  h.of_ptr (ptr_setDin hd) rfl rfl

/-- `bmap` stores a direct address, -/
theorem ptr_setAddr (hc : x.cut = 0) (hi : i < NDIRECT) (ha : a < 2 ^ 32) :
    (x.setAddr i a).ptr = update x.ptr i a := by
  have hmax : NDIRECT ≠ i := hi.ne'
  have hlt : i < NDIRECT + 1 := by omega
  funext k
  by_cases hk : k = i
  · subst hk
    simp [ptr, setAddr, hc, hi, Dinode.addr_setAddr_self _ hlt ha]
  · rw [update_of_ne hk]
    simp [ptr, setAddr, Dinode.addr_setAddr_of_ne _ hk, Dinode.addr_setAddr_of_ne _ hmax]

/-- the address of the indirect block -/
theorem ptr_setAddr_indirect (hc : x.cut = 0) (ha : a < 2 ^ 32) :
    (x.setAddr NDIRECT a).ptr = update x.ptr MAXFILE a := by
  have hlt : ¬ MAXFILE < NDIRECT := by decide
  funext k
  by_cases hk : k = MAXFILE
  · subst hk
    simp [ptr, setAddr, hc, hlt, Dinode.addr_setAddr_self _ (Nat.lt_succ_self _) ha]
  · rw [update_of_ne hk]
    unfold ptr setAddr
    split_ifs with h1 h2
    · rfl
    · rw [Dinode.addr_setAddr_of_ne _ h2.ne]
    · rfl
    · rfl

/-- An address below `cut` is no longer in use and can be cleared. -/
theorem ptr_setAddr_of_cut (hi : i < NDIRECT) (hc : i < x.cut) (a : ℕ) :
    (x.setAddr i a).ptr = x.ptr := by
  have hmax : NDIRECT ≠ i := hi.ne'
  funext k
  by_cases hk : k = i
  · subst hk
    rw [ptr_of_cut hc, ptr_of_cut (show k < (x.setAddr k a).cut from hc)]
  · simp [ptr, setAddr, Dinode.addr_setAddr_of_ne _ hk, Dinode.addr_setAddr_of_ne _ hmax]

theorem ptr_eq_zero_of_cut (h : MAXFILE < x.cut) (k : ℕ) : x.ptr k = 0 := by
  by_cases hk : k < x.cut
  · exact ptr_of_cut hk
  · exact ptr_of_gt (by omega)

/-- An allocated zeroed block becomes a direct block or the indirect block. -/
theorem OnDisk.setAddr (h : x.OnDisk d) (hptr : (x.setAddr i a).ptr = update x.ptr k a)
    (hk : x.ptr k = 0) (ha : fetch d a = Bytes.zero BSIZE) : (x.setAddr i a).OnDisk d := by
  obtain ⟨hind, hlt, hge⟩ := onDisk_iff.1 h
  have hf : ∀ j, fetch d ((x.setAddr i a).ptr j) = fetch d (x.ptr j) := by
    intro j
    rw [hptr]
    by_cases hj : j = k
    · subst hj
      rw [update_self, ha, hk]
      rfl
    · rw [update_of_ne hj]
  exact onDisk_iff.2 ⟨by rw [hf]; exact hind, fun j hj => by rw [hf]; exact hlt j hj, hge⟩

/-- or an address in the indirect block. -/
theorem ptr_setWord (hc : x.cut = 0) {j : ℕ} (hj : j < NINDIRECT) (ha : a < 2 ^ 32) :
    (x.setWord j a).ptr = update x.ptr (NDIRECT + j) a := by
  have hj' : 4 * j + 4 ≤ BSIZE := by
    have h1 : j < 128 := hj
    change _ ≤ 512
    omega
  have hmax : MAXFILE = NDIRECT + NINDIRECT := rfl
  funext k
  by_cases hk : k = NDIRECT + j
  · subst hk
    have h1 : NDIRECT + j < MAXFILE := by omega
    simp [ptr, setWord, hc, h1, Bytes.word_setWord_self _ hj' ha]
  · rw [update_of_ne hk]
    unfold ptr setWord
    split_ifs with h1 h2 h3
    · rfl
    · rfl
    · rw [Bytes.word_setWord_of_ne _ _ (by omega)]
    · rfl
    · rfl

/-- An allocated zeroed block becomes an indirect block. -/
theorem OnDisk.setWord (h : x.OnDisk d) {j : ℕ}
    (hptr : (x.setWord j a).ptr = update x.ptr (NDIRECT + j) a) (hj : j < NINDIRECT)
    (h0 : x.ptr (NDIRECT + j) = 0) (hm : x.ptr MAXFILE ≠ 0) (ha : fetch d a = Bytes.zero BSIZE)
    (ham : a ≠ x.ptr MAXFILE) (hne : ∀ k < MAXFILE, x.ptr k ≠ x.ptr MAXFILE) :
    (x.setWord j a).OnDisk (update d (x.ptr MAXFILE) (x.ind.setWord j a)) := by
  obtain ⟨hind, hlt, hge⟩ := onDisk_iff.1 h
  have hmax : MAXFILE = NDIRECT + NINDIRECT := rfl
  have hk : MAXFILE ≠ NDIRECT + j := by omega
  have hpm : (x.setWord j a).ptr MAXFILE = x.ptr MAXFILE := by rw [hptr, update_of_ne hk]
  refine onDisk_iff.2 ⟨?_, fun k hk => ?_, hge⟩
  · rw [hpm, fetch, if_neg hm, update_self]
    rfl
  · rw [hptr]
    by_cases hkj : k = NDIRECT + j
    · subst hkj
      rw [update_self]
      have hb : x.blk (NDIRECT + j) = Bytes.zero BSIZE := by
        rw [hlt _ hk, h0]
        rfl
      refine hb.trans ?_
      rw [← ha]
      unfold fetch
      rw [update_of_ne ham]
    · rw [update_of_ne hkj]
      refine (hlt k hk).trans ?_
      unfold fetch
      rw [update_of_ne (hne k hk)]

theorem ptr_setBlock (bn : ℕ) (b : Block) : (x.setBlock bn b).ptr = x.ptr := rfl

/-- Writing a block of the extent. -/
theorem OnDisk.setBlock (h : x.OnDisk d) {bn : ℕ} (b : Block) (hbn : bn < MAXFILE)
    (h0 : x.ptr bn ≠ 0) (hinj : ∀ k, x.ptr k = x.ptr bn → k = bn) :
    (x.setBlock bn b).OnDisk (update d (x.ptr bn) b) := by
  obtain ⟨hind, hlt, hge⟩ := onDisk_iff.1 h
  have hf : ∀ k, k ≠ bn → fetch (update d (x.ptr bn) b) (x.ptr k) = fetch d (x.ptr k) := by
    intro k hk
    unfold fetch
    rw [update_of_ne fun he => hk (hinj k he)]
  refine onDisk_iff.2 ⟨?_, fun k hk => ?_, fun k hk => ?_⟩
  · rw [ptr_setBlock, hf _ hbn.ne']
    exact hind
  · rw [ptr_setBlock]
    change update x.blk bn b k = _
    by_cases hkb : k = bn
    · subst hkb
      rw [update_self, fetch, if_neg h0, update_self]
    · rw [update_of_ne hkb, hf k hkb, hlt k hk]
  · change update x.blk bn b k = _
    rw [update_of_ne (by omega), hge k hk]

/-- `itrunc` drops one block. -/
theorem ptr_cutTo {c : ℕ} (hle : x.cut ≤ c) (hc : ∀ k < c, x.ptr k = 0) :
    (x.cutTo (c + 1)).ptr = update x.ptr c 0 := by
  funext k
  by_cases hk : k = c
  · subst hk
    rw [update_self]
    exact ptr_of_cut (Nat.lt_succ_self k)
  · rw [update_of_ne hk]
    by_cases hlt : k < c
    · have h1 : k < (x.cutTo (c + 1)).cut := Nat.lt_succ_of_lt hlt
      rw [ptr_of_cut h1, hc k hlt]
    · have h1 : ¬ k < c + 1 := by omega
      have h2 : ¬ k < x.cut := by omega
      unfold ptr cutTo
      simp only [h1, h2, if_false]
      split_ifs <;> first | rfl | omega

/-- Giving up one more block. -/
theorem OnDisk.cutTo (h : x.OnDisk d) {c : ℕ} (hle : x.cut ≤ c) (hc : ∀ k < c, x.ptr k = 0) :
    (x.cutTo (c + 1)).OnDisk d := by
  obtain ⟨hind, hlt, hge⟩ := onDisk_iff.1 h
  have hptr := ptr_cutTo hle hc
  have hzero : ∀ k < c + 1, fetch d (update x.ptr c 0 k) = Bytes.zero BSIZE := by
    intro k hk
    by_cases hkc : k = c
    · subst hkc
      rw [update_self]
      rfl
    · rw [update_of_ne hkc, hc k (by omega)]
      rfl
  refine onDisk_iff.2 ⟨?_, fun k hk => ?_, fun k hk => ?_⟩
  · rw [hptr]
    unfold Extent.cutTo
    by_cases hm : MAXFILE < c + 1
    · rw [if_pos hm, hzero _ hm]
    · rw [if_neg hm, update_of_ne (by omega), hind]
  · rw [hptr]
    unfold Extent.cutTo
    by_cases hkc : k < c + 1
    · rw [hzero k hkc]
      exact if_pos hkc
    · rw [update_of_ne (by omega)]
      simp only [hkc, if_false]
      exact hlt k hk
  · unfold Extent.cutTo
    simp only
    split_ifs
    · rfl
    · exact hge k hk

theorem ptr_bare (h : ∀ i, din.addr i = 0) : (bare din).ptr = fun _ => 0 := by
  funext k
  simp [ptr, bare, h]

theorem onDisk_bare (h : ∀ i, din.addr i = 0) : (bare din).OnDisk d :=
  onDisk_iff.2 ⟨by rw [ptr_bare h]; rfl, fun k _ => by rw [ptr_bare h]; rfl, fun _ _ => rfl⟩

/-- The same file, perhaps with more blocks. -/
structure Grows (x y : Extent) : Prop where
  din : ∃ addrs, y.din = { x.din with addrs := addrs }
  blk : y.blk = x.blk
  cut : y.cut = x.cut
  ptr : ∀ k, x.ptr k ≠ 0 → y.ptr k = x.ptr k

namespace Grows

theorem refl (x : Extent) : Grows x x := ⟨⟨x.din.addrs, rfl⟩, rfl, rfl, fun _ _ => rfl⟩

theorem trans {z : Extent} (h : Grows x y) (h' : Grows y z) : Grows x z := by
  obtain ⟨a, ha⟩ := h.din
  obtain ⟨b, hb⟩ := h'.din
  refine ⟨⟨b, by rw [hb, ha]⟩, h'.blk.trans h.blk, h'.cut.trans h.cut, fun k hk => ?_⟩
  have h1 := h.ptr k hk
  rw [h'.ptr k (by rwa [h1]), h1]

theorem type (h : Grows x y) : y.din.type = x.din.type := by
  obtain ⟨a, ha⟩ := h.din
  rw [ha]

/-- Growing adds bytes that were zero. -/
theorem byte (h : Grows x y) (o : ℕ) : y.byte o = x.byte o := by
  rw [Extent.byte, h.blk, Extent.byte]

end Grows

theorem grows_setAddr (hptr : (x.setAddr i a).ptr = update x.ptr k a) (hk : x.ptr k = 0) :
    Grows x (x.setAddr i a) := by
  refine ⟨⟨_, rfl⟩, rfl, rfl, fun j hj => ?_⟩
  have hjk : j ≠ k := fun e => hj (e ▸ hk)
  rw [hptr, update_of_ne hjk]

theorem grows_setWord {j : ℕ} (hptr : (x.setWord j a).ptr = update x.ptr (NDIRECT + j) a)
    (hj : x.ptr (NDIRECT + j) = 0) : Grows x (x.setWord j a) := by
  refine ⟨⟨x.din.addrs, rfl⟩, rfl, rfl, fun k hk => ?_⟩
  have hkj : k ≠ NDIRECT + j := fun e => hk (e ▸ hj)
  rw [hptr, update_of_ne hkj]

end Extent

end Xv6
