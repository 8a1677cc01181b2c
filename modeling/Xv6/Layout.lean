import Mathlib.Algebra.Order.Ring.Nat
import Xv6.Param
import Mathlib.Data.List.FinRange
import Mathlib.Data.Nat.Bitwise

/-!
# The layout of the disk

The on-disk format of `fs.h` : the super block, inodes, the free bitmap and directory
entries, and where each of them lies on the disk. A `Mount` is a super block whose
areas do not overlap, as `mkfs` lays them out.

An inode and a bit of the bitmap can be read back after they are written
(`Mount.dinode_putDinode`, `Mount.inUse_setUse`), and writing one of them leaves the
others alone.
-/

namespace Xv6

open List Function

variable {i b : ℕ}

/-- Root i-number. -/
def ROOTINO : ℕ := 1

/-- Number of direct block addresses of an inode. -/
def NDIRECT : ℕ := 12

/-- Number of block addresses in an indirect block. -/
def NINDIRECT : ℕ := BSIZE / 4

/-- Number of blocks a file can have. -/
def MAXFILE : ℕ := NDIRECT + NINDIRECT

/-- Inodes per block. -/
def IPB : ℕ := BSIZE / 64

/-- Bitmap bits per block. -/
def BPB : ℕ := BSIZE * 8

/-- Length of a file name. -/
def DIRSIZ : ℕ := 14

/-- `sizeof(struct dirent)`. -/
def DESIZE : ℕ := 2 + DIRSIZ

/-- Directory. -/
def T_DIR : Int16 := 1

/-- File. -/
def T_FILE : Int16 := 2

/-- Device. -/
def T_DEV : Int16 := 3

/-! ## Inodes -/

/-- On-disk inode structure. -/
structure Dinode where
  type : Int16
  major : Int16
  minor : Int16
  nlink : Int16
  size : UInt32
  addrs : Fin (NDIRECT + 1) → UInt32

namespace Dinode

/-- A `short` from its 16 bits. -/
def short (x : ℕ) : Int16 := ⟨UInt16.ofNat x⟩

/-- The inode `memset` to 0, with a type. -/
def fresh (type : Int16) : Dinode := ⟨type, 0, 0, 0, 0, fun _ => 0⟩

/-- `addrs[i]`. -/
def addr (d : Dinode) (i : ℕ) : ℕ := if h : i < NDIRECT + 1 then (d.addrs ⟨i, h⟩).toNat else 0

/-- `addrs[i] = a`. -/
def setAddr (d : Dinode) (i a : ℕ) : Dinode :=
  { d with addrs := fun j => if j.val = i then UInt32.ofNat a else d.addrs j }

/-- The 16 words of an inode on the disk. -/
def words (d : Dinode) : List ℕ :=
  [d.type.toUInt16.toNat + 65536 * d.major.toUInt16.toNat,
    d.minor.toUInt16.toNat + 65536 * d.nlink.toUInt16.toNat, d.size.toNat] ++
    (List.finRange (NDIRECT + 1)).map fun i => (d.addrs i).toNat

/-- The inode made of 16 words. -/
def ofWords (w : ℕ → ℕ) : Dinode where
  type := short (w 0 % 65536)
  major := short (w 0 / 65536)
  minor := short (w 1 % 65536)
  nlink := short (w 1 / 65536)
  size := UInt32.ofNat (w 2)
  addrs i := UInt32.ofNat (w (3 + i))

@[simp] theorem length_words (d : Dinode) : d.words.length = 16 := by
  simp [words, NDIRECT]

theorem addr_setAddr_self (d : Dinode) {a : ℕ} (hi : i < NDIRECT + 1) (ha : a < 2 ^ 32) :
    (d.setAddr i a).addr i = a := by
  simpa [addr, setAddr, hi] using ha

theorem addr_setAddr_of_ne (d : Dinode) {j : ℕ} (h : j ≠ i) (a : ℕ) :
    (d.setAddr i a).addr j = d.addr j := by
  simp [addr, setAddr, h]

theorem words_lt (d : Dinode) : ∀ w ∈ d.words, w < 2 ^ 32 := by
  intro w hw
  have h1 := d.type.toUInt16.toNat_lt
  have h2 := d.major.toUInt16.toNat_lt
  have h3 := d.minor.toUInt16.toNat_lt
  have h4 := d.nlink.toUInt16.toNat_lt
  have h5 := d.size.toNat_lt
  simp only [words, mem_append, mem_cons, not_mem_nil, or_false, mem_map] at hw
  rcases hw with (rfl | rfl | rfl) | ⟨i, -, rfl⟩
  · omega
  · omega
  · exact h5
  · exact (d.addrs i).toNat_lt

theorem short_toNat (x : Int16) : short x.toUInt16.toNat = x := by
  simp [short]

theorem short_low (x y : Int16) :
    short ((x.toUInt16.toNat + 65536 * y.toUInt16.toNat) % 65536) = x := by
  have hx := x.toUInt16.toNat_lt
  rw [Nat.add_mul_mod_self_left, Nat.mod_eq_of_lt hx, short_toNat]

theorem short_high (x y : Int16) :
    short ((x.toUInt16.toNat + 65536 * y.toUInt16.toNat) / 65536) = y := by
  have hx := x.toUInt16.toNat_lt
  rw [Nat.add_mul_div_left _ _ (by decide), Nat.div_eq_of_lt hx, zero_add, short_toNat]

/-- An inode is what its words say. -/
theorem ofWords_of_words (d : Dinode) {w : ℕ → ℕ}
    (h : ∀ i (hi : i < d.words.length), w i = d.words[i]) : ofWords w = d := by
  have hlen : d.words.length = 16 := d.length_words
  have h0 : w 0 = _ := h 0 (by omega)
  have h1 : w 1 = _ := h 1 (by omega)
  have h2 : w 2 = _ := h 2 (by omega)
  have h3 : ∀ i : Fin (NDIRECT + 1), w (3 + i) = (d.addrs i).toNat := by
    intro i
    have hi : (i : ℕ) < 13 := i.isLt
    have hw : d.words[3 + (i : ℕ)]? = some (d.addrs i).toNat := by
      rw [words, List.getElem?_append_right (by simp)]
      have hr : (List.finRange (NDIRECT + 1))[(i : ℕ)]? = some i := by
        rw [List.getElem?_eq_getElem (by rw [length_finRange]; exact i.isLt)]
        simp
      simp only [List.getElem?_map, length_cons, length_nil]
      rw [show 3 + (i : ℕ) - (0 + 1 + 1 + 1) = i by omega, hr]
      rfl
    rw [h (3 + i) (by omega)]
    exact (getElem_eq_iff _).2 hw
  simp only [words, cons_append, nil_append, getElem_cons_zero,
    getElem_cons_succ] at h0 h1 h2
  unfold ofWords
  simp only [h0, h1, h2, h3, short_low, short_high, UInt32.ofNat_toNat]

theorem toNat_short {x : ℕ} (h : x < 65536) : (short x).toUInt16.toNat = x := by
  change (UInt16.ofNat x).toNat = x
  rw [UInt16.toNat_ofNat', Nat.mod_eq_of_lt h]

/-- The words of an inode are those it is made of. -/
theorem words_ofWords {w : ℕ → ℕ} (h : ∀ i, w i < 2 ^ 32) :
    (ofWords w).words = (List.range 16).map w := by
  have hpair : ∀ i, (short (w i % 65536)).toUInt16.toNat +
      65536 * (short (w i / 65536)).toUInt16.toNat = w i := fun i => by
    have hi := h i
    rw [toNat_short (Nat.mod_lt _ (by decide)), toNat_short (by omega), Nat.mod_add_div]
  have hword : ∀ i, (UInt32.ofNat (w i)).toNat = w i := fun i => by
    rw [UInt32.toNat_ofNat', Nat.mod_eq_of_lt (h i)]
  have hrange : (List.range 16).map w =
      [w 0, w 1, w 2] ++ (List.finRange (NDIRECT + 1)).map fun i => w (3 + i.val) := rfl
  simp only [words, ofWords, hpair, hword, hrange]

end Dinode

/-- The `r`-th inode of a block. -/
def dinodeIn (blk : Block) (r : ℕ) : Dinode := .ofWords fun j => blk.word (16 * r + j)

/-- Store the `r`-th inode of a block. -/
def putDinodeIn (blk : Block) (r : ℕ) (d : Dinode) : Block :=
  blk.blit (4 * (16 * r)) (leWords d.words)

/-- An inode is read back from the block it was stored in. -/
theorem dinodeIn_put_self (blk : Block) {r : ℕ} (hr : r < IPB) (d : Dinode) :
    dinodeIn (putDinodeIn blk r d) r = d := by
  have hr' : r < 8 := hr
  refine Dinode.ofWords_of_words d fun i hi => ?_
  refine Bytes.word_blit_leWords blk hi ?_ (d.words_lt _ (getElem_mem hi))
  rw [d.length_words]
  change _ ≤ 512
  omega

/-- Storing the inode that is there changes nothing. -/
theorem putDinodeIn_dinodeIn (blk : Block) {r : ℕ} (hr : r < IPB) :
    putDinodeIn blk r (dinodeIn blk r) = blk := by
  have hr' : r < 8 := hr
  have hB : BSIZE = 512 := rfl
  have hwords : (dinodeIn blk r).words = (List.range 16).map fun j => blk.word (16 * r + j) :=
    Dinode.words_ofWords fun _ => blk.word_lt _
  refine Bytes.ext_word fun j => ?_
  unfold putDinodeIn
  rw [hwords]
  by_cases hj : 16 * r ≤ j ∧ j < 16 * r + 16
  · obtain ⟨i, rfl⟩ := Nat.exists_eq_add_of_le hj.1
    rw [Bytes.word_blit_leWords blk (i := i) (by simp; omega) (by simp; omega)
      (by simpa using blk.word_lt _)]
    simp
  · refine Bytes.word_blit_leWords_of_disjoint blk ?_
    simp
    omega

/-- Of two inodes stored in one place the second counts. -/
theorem putDinodeIn_putDinodeIn (blk : Block) (r : ℕ) (d d' : Dinode) :
    putDinodeIn (putDinodeIn blk r d) r d' = putDinodeIn blk r d' := by
  unfold putDinodeIn
  refine Bytes.ext_get fun i hi => ?_
  have hlen : (leWords d.words).length = (leWords d'.words).length := by simp
  by_cases hmem : i < 4 * (16 * r) ∨ 4 * (16 * r) + (leWords d'.words).length ≤ i
  · rw [Bytes.get_blit_of_not_mem _ hmem, Bytes.get_blit_of_not_mem _ hmem,
      Bytes.get_blit_of_not_mem _ (hlen ▸ hmem)]
  · obtain ⟨j, rfl⟩ := Nat.exists_eq_add_of_le (not_lt.1 fun h => hmem (Or.inl h))
    rw [Bytes.get_blit_of_lt _ _ (by omega) hi, Bytes.get_blit_of_lt _ _ (by omega) hi]

/-- The inodes of a block of zeroes are free. -/
theorem type_dinodeIn_zero (r : ℕ) : (dinodeIn (Bytes.zero BSIZE) r).type = 0 := by
  simp only [dinodeIn, Dinode.ofWords, Bytes.word_zero]
  rfl

/-- The other inodes of a block are as before. -/
theorem dinodeIn_put_of_ne (blk : Block) {r r' : ℕ} (h : r' ≠ r) (d : Dinode) :
    dinodeIn (putDinodeIn blk r d) r' = dinodeIn blk r' := by
  unfold dinodeIn putDinodeIn Dinode.ofWords
  have hw : ∀ j < 16, (blk.blit (4 * (16 * r)) (leWords d.words)).word (16 * r' + j) =
      blk.word (16 * r' + j) := by
    intro j hj
    refine Bytes.word_blit_leWords_of_disjoint blk ?_
    rw [d.length_words]
    omega
  have ha : ∀ i : Fin (NDIRECT + 1), 3 + (i : ℕ) < 16 := fun i => by
    have : (i : ℕ) < 13 := i.isLt
    omega
  simp only [hw 0 (by decide), hw 1 (by decide), hw 2 (by decide), hw _ (ha _)]

/-! ## The free bitmap -/

/-- `1 << (bi % 8)`. -/
def bitMask (bi : ℕ) : UInt8 := UInt8.ofNat (2 ^ (bi % 8))

/-- The test `(bp->data[bi/8] & m) != 0`. -/
def bitIn (blk : Block) (bi : ℕ) : Bool := blk.get (bi / 8) &&& bitMask bi != 0

/-- `bp->data[bi/8] |= m`. -/
def setBitIn (blk : Block) (bi : ℕ) : Block :=
  blk.blit (bi / 8) [blk.get (bi / 8) ||| bitMask bi]

/-- `bp->data[bi/8] &= ~m`. -/
def clearBitIn (blk : Block) (bi : ℕ) : Block :=
  blk.blit (bi / 8) [blk.get (bi / 8) &&& ~~~ bitMask bi]

theorem toNat_bitMask (bi : ℕ) : (bitMask bi).toNat = 2 ^ (bi % 8) := by
  rw [bitMask, UInt8.toNat_ofNat']
  exact Nat.mod_eq_of_lt (Nat.pow_lt_pow_right (by decide) (Nat.mod_lt _ (by decide)))

/-- A bit of the bitmap, in the byte that has it. -/
theorem bitIn_eq (blk : Block) (bi : ℕ) :
    bitIn blk bi = (blk.get (bi / 8)).toNat.testBit (bi % 8) := by
  have h := toNat_bitMask bi
  rw [Bool.eq_iff_iff, bitIn, bne_iff_ne, ne_eq, ← UInt8.toNat_inj, UInt8.toNat_and, h,
    Nat.and_two_pow]
  simp

theorem testBit_or_bitMask (x : UInt8) (bi bj : ℕ) :
    (x ||| bitMask bi).toNat.testBit (bj % 8) =
      (x.toNat.testBit (bj % 8) || decide (bi % 8 = bj % 8)) := by
  rw [UInt8.toNat_or, toNat_bitMask, Nat.testBit_or, Nat.testBit_two_pow]

theorem testBit_and_not_bitMask (x : UInt8) (bi bj : ℕ) :
    (x &&& ~~~ bitMask bi).toNat.testBit (bj % 8) =
      (x.toNat.testBit (bj % 8) && !decide (bi % 8 = bj % 8)) := by
  have hj : bj % 8 < 8 := Nat.mod_lt _ (by decide)
  have hi : 2 ^ (bi % 8) < 2 ^ 8 := Nat.pow_lt_pow_right (by decide) (Nat.mod_lt _ (by decide))
  have hnot : (~~~ bitMask bi).toNat = 2 ^ 8 - (2 ^ (bi % 8) + 1) := by
    rw [UInt8.toNat_not, toNat_bitMask]
    change 256 - 1 - _ = 256 - _
    omega
  rw [UInt8.toNat_and, hnot, Nat.testBit_and, Nat.testBit_two_pow_sub_succ hi,
    Nat.testBit_two_pow]
  simp [hj]

/-- Reading a bit of the bitmap after one byte was stored. -/
theorem bitIn_blit (blk : Block) {k : ℕ} (hk : k < BSIZE) (x : UInt8) (bj : ℕ) :
    bitIn (blk.blit k [x]) bj = if bj / 8 = k then x.toNat.testBit (bj % 8) else bitIn blk bj := by
  rw [bitIn_eq, bitIn_eq]
  split_ifs with h
  · have hlt : 0 < [x].length := by simp
    have hget : (Bytes.blit blk k [x]).get k = x := Bytes.get_blit_of_lt blk k hlt
      (by simpa using hk)
    rw [h, hget]
  · rw [Bytes.get_blit_of_not_mem blk (by simp; omega)]

/-- Setting a bit of a bitmap block changes that bit only, -/
theorem bitIn_setBitIn (blk : Block) {bi : ℕ} (hi : bi < BPB) (bj : ℕ) :
    bitIn (setBitIn blk bi) bj = (bitIn blk bj || decide (bi = bj)) := by
  have hk : bi / 8 < BSIZE := Nat.div_lt_of_lt_mul (by rw [mul_comm]; exact hi)
  rw [setBitIn, bitIn_blit blk hk, testBit_or_bitMask]
  split_ifs with h
  · rw [← h, ← bitIn_eq]
    congr 1
    exact decide_eq_decide.2 (by omega)
  · have hne : bi ≠ bj := by
      rintro rfl
      exact h rfl
    simp [hne]

/-- and so does clearing one. -/
theorem bitIn_clearBitIn (blk : Block) {bi : ℕ} (hi : bi < BPB) (bj : ℕ) :
    bitIn (clearBitIn blk bi) bj = (bitIn blk bj && !decide (bi = bj)) := by
  have hk : bi / 8 < BSIZE := Nat.div_lt_of_lt_mul (by rw [mul_comm]; exact hi)
  rw [clearBitIn, bitIn_blit blk hk, testBit_and_not_bitMask]
  split_ifs with h
  · rw [← h, ← bitIn_eq]
    congr 2
    exact decide_eq_decide.2 (by omega)
  · have hne : bi ≠ bj := by
      rintro rfl
      exact h rfl
    simp [hne]

/-! ## Where things lie -/

/-- Super block. -/
structure Superblock where
  size : ℕ
  nblocks : ℕ
  ninodes : ℕ
  nlog : ℕ
  logstart : ℕ
  inodestart : ℕ
  bmapstart : ℕ

/-- A super block and the size of the disk it is on. The inode blocks come before the
bitmap and the bitmap before the data blocks. -/
structure Mount where
  sb : Superblock
  disksize : ℕ
  inodes_le : sb.inodestart + (sb.ninodes / IPB + 1) ≤ sb.bmapstart
  bitmap_le : sb.bmapstart + (sb.size / BPB + 1) ≤ sb.size - sb.nblocks
  size_le : sb.size ≤ disksize
  size_lt : sb.size < 2 ^ 31
  ninodes_le : sb.ninodes ≤ 2 ^ 16

namespace Mount

variable (M : Mount)

/-- The number of blocks before the data blocks. -/
def nmeta : ℕ := M.sb.size - M.sb.nblocks

/-- The data blocks. -/
def Data (b : ℕ) : Prop := M.nmeta ≤ b ∧ b < M.sb.size

/-- `IBLOCK` : block containing inode `i`. -/
def iblock (i : ℕ) : ℕ := i / IPB + M.sb.inodestart

/-- `BBLOCK` : block of the free map containing the bit for block `b`. -/
def bblock (b : ℕ) : ℕ := b / BPB + M.sb.bmapstart

/-- Inode `i` as it is on the disk. -/
def dinode (d : Disk) (i : ℕ) : Dinode := dinodeIn (d (M.iblock i)) (i % IPB)

/-- Store inode `i` on the disk. -/
def putDinode (d : Disk) (i : ℕ) (din : Dinode) : Disk :=
  update d (M.iblock i) (putDinodeIn (d (M.iblock i)) (i % IPB) din)

/-- Block `b` is marked in the bitmap. -/
def inUse (d : Disk) (b : ℕ) : Bool := bitIn (d (M.bblock b)) (b % BPB)

/-- Mark block `b`. -/
def setUse (d : Disk) (b : ℕ) : Disk :=
  update d (M.bblock b) (setBitIn (d (M.bblock b)) (b % BPB))

/-- Take the mark off block `b`. -/
def clearUse (d : Disk) (b : ℕ) : Disk :=
  update d (M.bblock b) (clearBitIn (d (M.bblock b)) (b % BPB))

variable {M}

/-- The inodes are before the bitmap. -/
theorem iblock_lt (hi : i < M.sb.ninodes) : M.iblock i < M.sb.bmapstart := by
  have h := M.inodes_le
  have := Nat.div_le_div_right (c := IPB) hi.le
  unfold iblock
  omega

theorem le_bblock (b : ℕ) : M.sb.bmapstart ≤ M.bblock b := Nat.le_add_left _ _

/-- The bitmap is before the data. -/
theorem bblock_lt (hb : b < M.sb.size) : M.bblock b < M.nmeta := by
  have h := M.bitmap_le
  have := Nat.div_le_div_right (c := BPB) hb.le
  unfold bblock nmeta
  omega

theorem bmapstart_lt : M.sb.bmapstart < M.nmeta := by
  have h := M.bitmap_le
  unfold nmeta
  generalize M.sb.size / BPB = q at h
  omega

theorem iblock_lt_nmeta (hi : i < M.sb.ninodes) : M.iblock i < M.nmeta :=
  (iblock_lt hi).trans bmapstart_lt

theorem iblock_ne_bblock (hi : i < M.sb.ninodes) (b : ℕ) : M.iblock i ≠ M.bblock b :=
  ((iblock_lt hi).trans_le (le_bblock b)).ne

theorem nmeta_le : M.nmeta ≤ M.sb.size := Nat.sub_le ..

/-- The boot block is not a data block. -/
theorem not_data_zero : ¬ M.Data 0 := fun h => by
  have := (bmapstart_lt (M := M)).trans_le h.1
  omega

theorem Data.ne_iblock (hb : M.Data b) (hi : i < M.sb.ninodes) : M.iblock i ≠ b :=
  ((iblock_lt_nmeta hi).trans_le hb.1).ne

theorem Data.ne_bblock {c : ℕ} (hb : M.Data b) (hc : c < M.sb.size) : M.bblock c ≠ b :=
  ((bblock_lt hc).trans_le hb.1).ne

theorem Data.lt_disksize (hb : M.Data b) : b < M.disksize := hb.2.trans_le M.size_le

variable {d : Disk}

/-! ### Reading back inodes -/

/-- An inode is read back from the disk, -/
theorem dinode_putDinode (d : Disk) (i : ℕ) (din : Dinode) :
    M.dinode (M.putDinode d i din) i = din := by
  rw [dinode, putDinode, update_self, dinodeIn_put_self _ (Nat.mod_lt _ (by decide))]

/-- Storing one inode after the other, and then what was there first. -/
theorem putDinode_putDinode_dinode (d : Disk) (i : ℕ) (din : Dinode) :
    M.putDinode (M.putDinode d i din) i (M.dinode d i) = d := by
  unfold putDinode dinode
  rw [update_self, update_idem, putDinodeIn_putDinodeIn,
    putDinodeIn_dinodeIn _ (Nat.mod_lt _ (by decide)), update_eq_self]

/-- and the others are as before. -/
theorem dinode_putDinode_of_ne {j : ℕ} (h : j ≠ i) (din : Dinode) :
    M.dinode (M.putDinode d i din) j = M.dinode d j := by
  unfold dinode putDinode
  by_cases hb : M.iblock j = M.iblock i
  · have hr : j % IPB ≠ i % IPB := fun hr => h (by
      have hq : j / IPB = i / IPB := add_right_cancel hb
      rw [← Nat.div_add_mod j IPB, ← Nat.div_add_mod i IPB, hq, hr])
    rw [hb, update_self, dinodeIn_put_of_ne _ hr]
  · rw [update_of_ne hb]

/-- Only the block of an inode matters to it. -/
theorem dinode_update (h : M.iblock i ≠ b) (blk : Block) :
    M.dinode (update d b blk) i = M.dinode d i := by
  rw [dinode, update_of_ne h, dinode]

theorem putDinode_of_ne (h : M.iblock i ≠ b) (din : Dinode) :
    M.putDinode d i din b = d b :=
  update_of_ne h.symm _ _

/-! ### Reading back the bitmap -/

/-- The place of a bit in the bitmap determines the block. -/
theorem bblock_eq_iff {c : ℕ} : (M.bblock b = M.bblock c ∧ b % BPB = c % BPB) ↔ b = c := by
  constructor
  · rintro ⟨hq, hr⟩
    have hq' : b / BPB = c / BPB := add_right_cancel hq
    rw [← Nat.div_add_mod b BPB, ← Nat.div_add_mod c BPB, hq', hr]
  · rintro rfl
    exact ⟨rfl, rfl⟩

/-- Marking a block as used changes its bit only, -/
theorem inUse_setUse (b c : ℕ) : M.inUse (M.setUse d b) c = (M.inUse d c || decide (b = c)) := by
  unfold inUse setUse
  have hb : b % BPB < BPB := Nat.mod_lt _ (by decide)
  by_cases h : M.bblock c = M.bblock b
  · rw [h, update_self, bitIn_setBitIn _ hb]
    congr 1
    exact decide_eq_decide.2 ⟨fun hr => bblock_eq_iff.1 ⟨h.symm, hr⟩, fun hr => by rw [hr]⟩
  · have hne : b ≠ c := fun hr => h (by rw [hr])
    simp [update_of_ne h, hne]

/-- and so does marking it as free. -/
theorem inUse_clearUse (b c : ℕ) :
    M.inUse (M.clearUse d b) c = (M.inUse d c && !decide (b = c)) := by
  unfold inUse clearUse
  have hb : b % BPB < BPB := Nat.mod_lt _ (by decide)
  by_cases h : M.bblock c = M.bblock b
  · rw [h, update_self, bitIn_clearBitIn _ hb]
    congr 2
    exact decide_eq_decide.2 ⟨fun hr => bblock_eq_iff.1 ⟨h.symm, hr⟩, fun hr => by rw [hr]⟩
  · have hne : b ≠ c := fun hr => h (by rw [hr])
    simp [update_of_ne h, hne]

theorem inUse_update {c : ℕ} (h : M.bblock c ≠ b) (blk : Block) :
    M.inUse (update d b blk) c = M.inUse d c := by
  rw [inUse, update_of_ne h, inUse]

end Mount

end Xv6
