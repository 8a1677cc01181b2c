import Xv6.Mkfs
import Xv6.Volume
import Mathlib.Algebra.BigOperators.Group.Finset.Piecewise
import Mathlib.Algebra.Order.BigOperators.Group.Finset

/-!
# The image that mkfs makes

`Built s X B U` says what the image is while `mkfs` builds it : inode `i` has the extent `X i`,
its bytes are `B i` and it has the blocks `U i`; the blocks handed out are exactly those of the
inodes, each in one place; and everything else is still zero.

The inode blocks have room for more inodes than the super block declares, and the invariant
goes as far as the room.
-/

namespace Xv6.Mkfs

open Function Finset Img Option

/-! ## Where things lie -/

variable {n b : ℕ}

/-- The volume as the kernel mounts it. -/
def mount : Mount :=
  ⟨sb, FSSIZE, by decide, by decide, by decide, by decide, by decide⟩

/-- The same volume with all the inodes that the inode blocks have room for. -/
def wide : Mount :=
  ⟨{ sb with ninodes := 207 }, FSSIZE, by decide, by decide, by decide, by decide, by decide⟩

theorem sector_of_lt {sec : ℕ} (h : sec < 2 ^ 23) : sector sec = sec := by
  have hb : BSIZE = 512 := rfl
  unfold sector
  rw [hb]
  omega

theorem wide_iblock_lt {i : ℕ} (hi : i < 207) : wide.iblock i < 58 :=
  Mount.iblock_lt (M := wide) hi

theorem le_wide_iblock (i : ℕ) : 32 ≤ wide.iblock i := Nat.le_add_left _ _

theorem nmeta_eq : nmeta = 59 := by decide

/-! ## The blocks of a file -/

/-- A file of `n` bytes has block `k`. -/
def Uses (n k : ℕ) : Prop :=
  k < MAXFILE ∧ k * BSIZE < n ∨ k = MAXFILE ∧ NDIRECT * BSIZE < n

instance (n k : ℕ) : Decidable (Uses n k) := inferInstanceAs (Decidable (_ ∨ _))

/-- The blocks of a file of `n` bytes. -/
def blocks (n : ℕ) : Finset ℕ := (range (MAXFILE + 1)).filter (Uses n)

theorem mem_blocks {k : ℕ} : k ∈ blocks n ↔ Uses n k := by
  simp only [blocks, mem_filter, mem_range, and_iff_right_iff_imp]
  rintro (⟨h, -⟩ | ⟨rfl, -⟩)
  · omega
  · omega

theorem blocks_mono {m : ℕ} (h : m ≤ n) : blocks m ⊆ blocks n := by
  intro k hk
  rw [mem_blocks] at hk ⊢
  exact hk.imp (And.imp_right fun hm => hm.trans_le h) (And.imp_right fun hm => hm.trans_le h)

/-- The next byte may need a direct block. -/
theorem blocks_succ_direct (hn : n / BSIZE < NDIRECT) :
    blocks (n + 1) = insert (n / BSIZE) (blocks n) := by
  have hb : BSIZE = 512 := rfl
  have hd : NDIRECT = 12 := rfl
  have hm : MAXFILE = 140 := rfl
  ext k
  simp only [mem_insert, mem_blocks, Uses]
  rw [hb] at hn ⊢
  omega

/-- The next byte may need an indirect block, and the indirect block itself. -/
theorem blocks_succ_indirect (hn : NDIRECT ≤ n / BSIZE) (hn' : n / BSIZE < MAXFILE) :
    blocks (n + 1) = insert (n / BSIZE) (insert MAXFILE (blocks n)) := by
  have hb : BSIZE = 512 := rfl
  have hd : NDIRECT = 12 := rfl
  have hm : MAXFILE = 140 := rfl
  ext k
  simp only [mem_insert, mem_blocks, Uses]
  rw [hb] at hn hn' ⊢
  omega

/-- Up to the end of a block it is all the same. -/
theorem blocks_eq_of_le {m : ℕ} (h : n < m) (hm : m ≤ (n / BSIZE + 1) * BSIZE) :
    blocks m = blocks (n + 1) := by
  have hb : BSIZE = 512 := rfl
  have hd : NDIRECT = 12 := rfl
  ext k
  simp only [mem_blocks, Uses]
  rw [hb] at hm ⊢
  omega

/-- The number of blocks of a file of `n` bytes. -/
def blocksFor (n : ℕ) : ℕ := (n + BSIZE - 1) / BSIZE + if NDIRECT * BSIZE < n then 1 else 0

/-- The number of blocks of a file. -/
theorem card_blocks (h : n ≤ MAXFILE * BSIZE) : (blocks n).card = blocksFor n := by
  have hb : BSIZE = 512 := rfl
  have hd : NDIRECT = 12 := rfl
  have hm : MAXFILE = 140 := rfl
  have hset : blocks n = range ((n + BSIZE - 1) / BSIZE) ∪
      if NDIRECT * BSIZE < n then {MAXFILE} else ∅ := by
    ext k
    rw [mem_blocks, mem_union, mem_range, Uses]
    split_ifs with hn
    · simp only [mem_singleton, hn, and_true]
      rw [hb] at h ⊢
      omega
    · simp only [notMem_empty, or_false, hn, and_false]
      rw [hb] at h ⊢
      omega
  have hdisj : Disjoint (range ((n + BSIZE - 1) / BSIZE))
      (if NDIRECT * BSIZE < n then {MAXFILE} else ∅) := by
    split_ifs
    · rw [disjoint_singleton_right, mem_range, hb, hm]
      rw [hb] at h
      omega
    · exact disjoint_empty_right _
  rw [hset, card_union_of_disjoint hdisj, card_range, blocksFor]
  congr 1
  split_ifs <;> simp

/-- The extent has the bytes `bs`, then zeros, and the blocks `u`. -/
structure Holds (x : Extent) (bs : List UInt8) (u : Finset ℕ) : Prop where
  cut : x.cut = 0
  le : bs.length ≤ MAXFILE * BSIZE
  byte : ∀ o, x.byte o = bs.getD o 0
  ptr : ∀ k, x.ptr k ≠ 0 ↔ k ∈ u

theorem Holds.lt {x : Extent} {bs : List UInt8} {u : Finset ℕ} (h : Holds x bs u) {k : ℕ}
    (hk : k ∈ u) : k < MAXFILE + 1 := by
  by_contra hlt
  exact (h.ptr k).2 hk (Extent.ptr_of_gt (by omega))

theorem Holds.card_le {x : Extent} {bs : List UInt8} {u : Finset ℕ} (h : Holds x bs u) :
    u.card ≤ MAXFILE + 1 := by
  have hsub : u ⊆ range (MAXFILE + 1) := fun k hk => mem_range.2 (h.lt hk)
  simpa using card_le_card hsub

/-! ## The image in the making -/

/-- No block is pending. -/
def noPend : Empty → Option (ℕ × Bool) := fun _ => none

/-- Where a sector of a kind may be. -/
def Area (X : ℕ → Option Extent) : Kind → ℕ → Prop
  | .zeroes, _ => True
  | .super, b => b = 1
  | .inode, b => sb.inodestart ≤ b ∧ b < sb.bmapstart
  | .bitmap, b => b = sb.bmapstart
  | .data i, b => ∃ x k, X i = some x ∧ k < MAXFILE ∧ x.ptr k ≠ 0 ∧ x.ptr k = b
  | .indirect i, b => ∃ x, X i = some x ∧ x.ptr MAXFILE ≠ 0 ∧ x.ptr MAXFILE = b

/-- Blocks that inodes have stay where they are. -/
theorem Area.mono {X Y : ℕ → Option Extent}
    (h : ∀ i x, X i = some x → ∃ y, Y i = some y ∧ ∀ k, x.ptr k ≠ 0 → y.ptr k = x.ptr k) {κ : Kind}
    (ha : Area X κ b) : Area Y κ b := by
  cases κ with
  | data i =>
    obtain ⟨x, k, hi, hk, h0, rfl⟩ := ha
    obtain ⟨y, hy, hptr⟩ := h i x hi
    exact ⟨y, k, hy, hk, by rwa [hptr k h0], hptr k h0⟩
  | indirect i =>
    obtain ⟨x, hi, h0, rfl⟩ := ha
    obtain ⟨y, hy, hptr⟩ := h i x hi
    exact ⟨y, hy, by rwa [hptr _ h0], hptr _ h0⟩
  | _ => exact ha

/-- The super block on the disk. -/
def superBlock : Block := (Bytes.zero BSIZE).blit 0 (leWords (words sb))

/-- The type of inode `i`. -/
def typeOf (i : ℕ) : Int16 := if i = ROOTINO then T_DIR else T_FILE

/-- What the image is while `mkfs` builds it. Inode `cur` is being changed, and is not on the
disk yet. -/
structure Built (s : Img) (X : ℕ → Option Extent) (B : ℕ → List UInt8) (U : ℕ → Finset ℕ)
    (cur : Option ℕ) : Prop where
  len : s.len = FSSIZE
  super : s.disk 1 = superBlock
  ino : ∀ i, (X i).isSome = true ↔ 0 < i ∧ i < s.freeinode
  freeinode : s.freeinode ≤ 207
  onDisk : ∀ i x, X i = some x → x.OnDisk s.disk
  holds : ∀ i x, X i = some x → Holds x (B i) (U i)
  type : ∀ i x, X i = some x → x.din.type = typeOf i
  nlink : ∀ i x, X i = some x → x.din.nlink = 1
  din : ∀ i x, X i = some x → cur ≠ some i → wide.dinode s.disk i = x.din ∧
    x.din.size.toNat = (B i).length
  unused : ∀ i, X i = none → U i = ∅ ∧ (i < 207 → (wide.dinode s.disk i).type = 0)
  excl : Exclusive (nmeta ≤ ·) (· < s.freeblock) (place X noPend)
  used : s.freeblock = nmeta + ∑ i ∈ range 207, (U i).card
  zero : ∀ b, s.freeblock ≤ b → s.disk b = Bytes.zero BSIZE
  inums : s.inums = List.range' 1 (s.freeinode - 1)
  addrs : s.addrs = List.range' nmeta (s.freeblock - nmeta)
  writes : ∀ k b, (k, b) ∈ s.writes → Area X k b

namespace Built

variable {s t : Img} {X : ℕ → Option Extent} {B : ℕ → List UInt8} {U : ℕ → Finset ℕ}
  {cur : Option ℕ} {i k : ℕ} {x y : Extent} {bs : List UInt8} {u : Finset ℕ}

section

variable (h : Built s X B U cur)

include h

theorem lt (hi : X i = some x) : 0 < i ∧ i < 207 := by
  have hs := (h.ino i).1 (by rw [hi]; rfl)
  have := h.freeinode
  omega

theorem freeblock_lt : s.freeblock < 2 ^ 20 := by
  have hcard : ∀ i ∈ range 207, (U i).card ≤ 141 := by
    intro i _
    cases hi : X i with
    | none => simp [(h.unused i hi).1]
    | some x => exact (h.holds i x hi).card_le
  have hsum := sum_le_card_nsmul _ _ _ hcard
  have hnum : #(range 207) • 141 = 29187 := by rw [card_range]; rfl
  rw [h.used, nmeta_eq]
  omega

theorem nmeta_le : nmeta ≤ s.freeblock := by
  rw [h.used]
  exact Nat.le_add_right _ _

theorem ptr_area (hi : X i = some x) (hk : x.ptr k ≠ 0) :
    nmeta ≤ x.ptr k := by
  have := h.excl.mem (.inl (i, k)) (by rwa [place_inode hi])
  rwa [place_inode hi] at this

theorem ptr_lt (hi : X i = some x) (hk : x.ptr k ≠ 0) :
    x.ptr k < s.freeblock :=
  h.excl.used_of_eq (place_inode hi k) hk

/-- A block belongs to one file, at one place. -/
theorem ptr_inj {j l : ℕ} (hi : X i = some x) (hj : X j = some y) (hk : x.ptr k ≠ 0)
    (he : x.ptr k = y.ptr l) : i = j ∧ k = l := by
  have := h.excl.inj (.inl (i, k)) (.inl (j, l)) (by rwa [place_inode hi])
    (by rw [place_inode hi, place_inode hj, he])
  simpa using this

/-- The blocks of the inodes are less than all the blocks of larger files. -/
theorem freeblock_le {fin : ℕ → ℕ} (hfin : ∀ i, U i ⊆ blocks (fin i)) :
    s.freeblock ≤ nmeta + ∑ i ∈ range 207, (blocks (fin i)).card := by
  rw [h.used]
  exact Nat.add_le_add_left (sum_le_sum fun i _ => card_le_card (hfin i)) _

/-- All the blocks handed out are in inodes. -/
theorem freeblock_le_size (hbelow : ∀ i x, X i = some x → ∀ k, x.ptr k < FSSIZE) :
    s.freeblock ≤ FSSIZE := by
  by_contra hlt
  obtain ⟨o, ho⟩ := (h.excl.used_iff FSSIZE (by decide)).1 (not_le.1 hlt)
  rcases o with ⟨i, k⟩ | e
  · cases hi : X i with
    | none =>
      rw [place, hi] at ho
      cases ho
    | some x =>
      rw [place_inode hi] at ho
      exact (hbelow i x hi k).ne ho
  · exact e.elim

end

/-- The inode that is being changed gets other bytes and perhaps more blocks. A step writes
blocks of that inode only. -/
theorem step (h : Built s X B U (some i)) (hi : X i = some x) (hlen : t.len = s.len)
    (hino : t.freeinode = s.freeinode) (hinums : t.inums = s.inums)
    (hdisk : ∀ b, (∀ k, x.ptr k ≠ 0 → b ≠ x.ptr k) → t.disk b = s.disk b)
    (hfree : s.freeblock ≤ t.freeblock) (hy : y.OnDisk t.disk) (hhold : Holds y bs u)
    (htype : y.din.type = x.din.type) (hnlink : y.din.nlink = x.din.nlink)
    (hexcl : Exclusive (nmeta ≤ ·) (· < t.freeblock) (place (update X i (some y)) noPend))
    (hused : t.freeblock + (U i).card = s.freeblock + u.card)
    (haddrs : t.addrs = List.range' nmeta (t.freeblock - nmeta))
    (hgrow : ∀ k, x.ptr k ≠ 0 → y.ptr k = x.ptr k)
    (hwrites : ∀ κ b, (κ, b) ∈ t.writes → (κ, b) ∈ s.writes ∨ Area (update X i (some y)) κ b) :
    Built t (update X i (some y)) (update B i bs) (update U i u) (some i) := by
  have hmeta : ∀ b, b < nmeta → t.disk b = s.disk b := fun b hb =>
    hdisk b fun k hk he => by
      have := h.ptr_area hi hk
      omega
  have hdin : ∀ j < 207, wide.dinode t.disk j = wide.dinode s.disk j := by
    intro j hj
    have := wide_iblock_lt hj
    unfold Mount.dinode
    rw [hmeta _ (by rw [nmeta_eq]; omega)]
  refine
    { len := hlen.trans h.len
      super := (hmeta 1 (by decide)).trans h.super
      ino := fun j => ?_
      freeinode := hino ▸ h.freeinode
      onDisk := forall_update ?_ fun j z hji hj => ?_
      holds := forall_update ?_ fun j z hji hj => ?_
      type := forall_update ?_ fun j z hji hj => h.type j z hj
      nlink := forall_update ?_ fun j z hji hj => h.nlink j z hj
      din := fun j z hj hcur => ?_
      unused := fun j hj => ?_
      excl := hexcl
      used := ?_
      zero := fun b hb => ?_
      inums := by rw [hinums, hino, h.inums]
      addrs := haddrs
      writes := fun κ b hb => ?_ }
  · rw [hino, ← h.ino j]
    by_cases hji : j = i
    · simp [hji, hi]
    · rw [update_of_ne hji]
  · rintro z ⟨⟩
    exact hy
  · refine (h.onDisk j z hj).congr fun k hk => hdisk _ fun l hl he => ?_
    exact hji (h.ptr_inj hj hi hk he).1
  · rintro z ⟨⟩
    simpa using hhold
  · simpa [hji] using h.holds j z hj
  · rintro z ⟨⟩
    exact htype.trans (h.type i x hi)
  · rintro z ⟨⟩
    exact hnlink.trans (h.nlink i x hi)
  · have hji : j ≠ i := fun he => hcur (by rw [he])
    rw [update_of_ne hji] at hj ⊢
    rw [hdin j (h.lt hj).2]
    exact h.din j z hj hcur
  · have hji : j ≠ i := by
      rintro rfl
      simp at hj
    rw [update_of_ne hji] at hj ⊢
    refine ⟨(h.unused j hj).1, fun hlt => ?_⟩
    rw [hdin j hlt]
    exact (h.unused j hj).2 hlt
  · have hlt := (h.lt hi).2
    have hsum : ∑ j ∈ range 207, (update U i u j).card + (U i).card =
        ∑ j ∈ range 207, (U j).card + u.card := by
      rw [← sum_erase_add _ _ (mem_range.2 hlt), ← sum_erase_add _ _ (mem_range.2 hlt), update_self]
      have hother : ∑ j ∈ (range 207).erase i, (update U i u j).card =
          ∑ j ∈ (range 207).erase i, (U j).card :=
        sum_congr rfl fun j hj => by rw [update_of_ne (ne_of_mem_erase hj)]
      omega
    have := h.used
    omega
  · refine (hdisk b fun k hk he => ?_).trans (h.zero b (hfree.trans hb))
    have := h.ptr_lt hi hk
    omega
  · refine (hwrites κ b hb).elim (fun hb => (h.writes κ b hb).mono fun j z hj => ?_) id
    by_cases hji : j = i
    · subst hji
      obtain rfl := some.inj (hj.symm.trans hi)
      exact ⟨y, update_self .., hgrow⟩
    · exact ⟨z, by rwa [update_of_ne hji], fun _ _ => rfl⟩

section

variable (h : Built s X B U cur)

include h

theorem takeBlock_freeblock :
    s.takeBlock.2.freeblock = s.freeblock + 1 := by
  have := h.freeblock_lt
  simp only [takeBlock]
  omega

theorem takeBlock_addrs :
    s.takeBlock.2.addrs = List.range' nmeta (s.takeBlock.2.freeblock - nmeta) := by
  have hle := h.nmeta_le
  have hlen : s.freeblock + 1 - nmeta = s.freeblock - nmeta + 1 := by omega
  have hlast : nmeta + (s.freeblock - nmeta) = s.freeblock := by omega
  rw [h.takeBlock_freeblock, hlen, List.range'_1_concat, hlast, ← h.addrs]
  rfl

/-- The next block goes to a place that has none. -/
theorem excl_take (hi : X i = some x) (hk : x.ptr k = 0)
    (hptr : y.ptr = update x.ptr k s.freeblock) :
    Exclusive (nmeta ≤ ·) (· < s.freeblock + 1) (place (update X i (some y)) noPend) := by
  rw [place_of_ptr hi hptr]
  refine h.excl.take (by rwa [place_inode hi]) h.nmeta_le (lt_irrefl _) fun c _ => ?_
  exact Nat.lt_succ_iff_lt_or_eq

theorem holds_take (hi : X i = some x) (hcut : y.cut = x.cut) (hblk : y.blk = x.blk)
    (hptr : y.ptr = update x.ptr k s.freeblock) :
    Holds y (B i) (insert k (U i)) := by
  have hx := h.holds i x hi
  refine ⟨hcut.trans hx.cut, hx.le, fun o => ?_, fun j => ?_⟩
  · rw [Extent.byte, hblk]
    exact hx.byte o
  · have hpos : s.freeblock ≠ 0 := by
      have := h.nmeta_le
      rw [nmeta_eq] at this
      omega
    rw [hptr, mem_insert, ← hx.ptr j]
    by_cases hjk : j = k
    · simp [hjk, hpos]
    · simp [hjk]

theorem card_insert (hi : X i = some x) (hk : x.ptr k = 0) :
    (insert k (U i)).card = (U i).card + 1 :=
  card_insert_of_notMem fun hm => ((h.holds i x hi).ptr k).2 hm hk

theorem fetch_freeblock :
    Extent.fetch s.disk s.freeblock = Bytes.zero BSIZE := by
  unfold Extent.fetch
  split_ifs
  · rfl
  · exact h.zero _ le_rfl

end

/-- `addrs[a] = xint(freeblock++)`. -/
theorem setAddr (h : Built s X B U (some i)) (hi : X i = some x) {a : ℕ} (hk : x.ptr k = 0)
    (hptr : (x.setAddr a s.freeblock).ptr = update x.ptr k s.freeblock) :
    Built s.takeBlock.2 (update X i (some (x.setAddr a s.freeblock))) B
      (update U i (insert k (U i))) (some i) := by
  have hfree := h.takeBlock_freeblock
  have hstep := h.step (t := s.takeBlock.2) (y := x.setAddr a s.freeblock)
    (u := insert k (U i)) hi rfl rfl rfl (fun _ _ => rfl) (by omega)
    ((h.onDisk i x hi).setAddr hptr hk h.fetch_freeblock) (h.holds_take hi rfl rfl hptr) rfl rfl
    (by rw [hfree]; exact h.excl_take hi hk hptr)
    (by rw [hfree, h.card_insert hi hk]; omega) h.takeBlock_addrs ?_ fun _ _ hb => Or.inl hb
  · rwa [update_eq_self] at hstep
  · intro j hj
    have hjk : j ≠ k := fun he => hj (he ▸ hk)
    rw [hptr, update_of_ne hjk]

theorem wsect_of_lt (h : s.len = FSSIZE) (κ : Kind) (hb : b < FSSIZE) (buf : Block) :
    s.wsect κ b buf =
      { s with disk := update s.disk b buf, writes := s.writes ++ [(κ, b)] } := by
  have hf : FSSIZE = 1000 := rfl
  have hsec : sector b = b := sector_of_lt (by omega)
  have hmax : max s.len (b + 1) = s.len := by omega
  simp only [wsect, hsec, hmax]

theorem rsect_of_lt (h : s.len = FSSIZE) (hb : b < FSSIZE) :
    s.rsect b = .ok (s.disk b) := by
  have hf : FSSIZE = 1000 := rfl
  have hsec : sector b = b := sector_of_lt (by omega)
  rw [rsect, hsec, if_pos (by omega)]

/-- A word of the indirect block. -/
theorem setWord (h : Built s X B U (some i)) (hi : X i = some x) {j : ℕ} (hj : j < NINDIRECT)
    (hk : x.ptr (NDIRECT + j) = 0) (hm : x.ptr MAXFILE ≠ 0) (hlt : x.ptr MAXFILE < FSSIZE) :
    Built (s.takeBlock.2.wsect (.indirect i) (x.ptr MAXFILE) (x.ind.setWord j s.freeblock))
      (update X i (some (x.setWord j s.freeblock))) B
      (update U i (insert (NDIRECT + j) (U i))) (some i) := by
  have hfree := h.takeBlock_freeblock
  have hcut := (h.holds i x hi).cut
  have hfb := h.freeblock_lt
  have hptr := Extent.ptr_setWord hcut hj (a := s.freeblock) (by omega)
  have hmax : MAXFILE ≠ NDIRECT + j := by
    have : MAXFILE = NDIRECT + NINDIRECT := rfl
    omega
  have hne : ∀ l < MAXFILE, x.ptr l ≠ x.ptr MAXFILE := by
    intro l hl he
    exact hl.ne (h.ptr_inj hi hi (he ▸ hm) he).2
  have hmf : s.freeblock ≠ x.ptr MAXFILE := (h.ptr_lt hi hm).ne'
  rw [wsect_of_lt (by exact h.len) _ hlt]
  have hgrow : ∀ l, x.ptr l ≠ 0 → (x.setWord j s.freeblock).ptr l = x.ptr l := by
    intro l hl
    have hlk : l ≠ NDIRECT + j := fun he => hl (he ▸ hk)
    rw [hptr, update_of_ne hlk]
  have hstep := h.step (y := x.setWord j s.freeblock)
    (u := insert (NDIRECT + j) (U i))
    (t := { s.takeBlock.2 with
      disk := update s.disk (x.ptr MAXFILE) (x.ind.setWord j s.freeblock)
      writes := s.writes ++ [(.indirect i, x.ptr MAXFILE)] })
    hi rfl rfl rfl (fun b hb => update_of_ne (hb MAXFILE hm) _ _) (by simp only; omega)
    ((h.onDisk i x hi).setWord hptr hj hk hm h.fetch_freeblock hmf hne)
    (h.holds_take hi rfl rfl hptr) rfl rfl (by simp only [hfree]; exact h.excl_take hi hk hptr)
    (by simp only [hfree, h.card_insert hi hk]; omega) h.takeBlock_addrs hgrow ?_
  · rwa [update_eq_self] at hstep
  · intro κ b hb
    refine (List.mem_append.1 hb).imp_right fun hb => ?_
    obtain ⟨rfl, rfl⟩ := Prod.mk.inj (List.mem_singleton.1 hb)
    exact ⟨_, update_self .., by rwa [hgrow _ hm], hgrow _ hm⟩

/-- A block of the inode is written. -/
theorem setBlock (h : Built s X B U (some i)) (hi : X i = some x) (hk : k < MAXFILE)
    (hp : x.ptr k ≠ 0) (hlt : x.ptr k < FSSIZE) {buf : Block} (hle : bs.length ≤ MAXFILE * BSIZE)
    (hbs : ∀ o, (x.setBlock k buf).byte o = bs.getD o 0) :
    Built (s.wsect (.data i) (x.ptr k) buf) (update X i (some (x.setBlock k buf)))
      (update B i bs) U (some i) := by
  rw [wsect_of_lt h.len _ hlt]
  have hx := h.holds i x hi
  have hsame : place (update X i (some (x.setBlock k buf))) noPend = place X noPend :=
    place_of_ptr_eq fun l => by rw [hi]; rfl
  have hstep := h.step (y := x.setBlock k buf) (u := U i)
    (t := { s with
      disk := update s.disk (x.ptr k) buf, writes := s.writes ++ [(.data i, x.ptr k)] })
    hi rfl rfl rfl (fun b hb => update_of_ne (hb k hp) _ _) le_rfl
    ((h.onDisk i x hi).setBlock buf hk hp fun l he => (h.ptr_inj hi hi (he ▸ hp) he).2)
    ⟨hx.cut, hle, hbs, hx.ptr⟩ rfl rfl (by rw [hsame]; exact h.excl) rfl h.addrs (fun _ _ => rfl) ?_
  · rwa [update_eq_self] at hstep
  · intro κ b hb
    refine (List.mem_append.1 hb).imp_right fun hb => ?_
    obtain ⟨rfl, rfl⟩ := Prod.mk.inj (List.mem_singleton.1 hb)
    exact ⟨_, k, update_self .., hk, hp, rfl⟩

/-! ### The blocks that `iappend` asks for -/

variable {E : String → Prop} {fin : ℕ → ℕ}

/-- A block that is too far is one that does not fit. -/
theorem rsect_ptr (h : Built s X B U cur) (hi : X i = some x) (hk : x.ptr k ≠ 0)
    (hfin : ∀ j, U j ⊆ blocks (fin j))
    (hE : FSSIZE < nmeta + ∑ j ∈ range 207, (blocks (fin j)).card → ∀ e, E e) :
    Outcome (s.rsect (x.ptr k)) E fun blk => x.ptr k < FSSIZE ∧ blk = s.disk (x.ptr k) := by
  rcases lt_or_ge (x.ptr k) FSSIZE with hlt | hge
  · rw [rsect_of_lt h.len hlt]
    exact outcome_ok ⟨hlt, rfl⟩
  · have hfb := h.freeblock_lt
    have hp := h.ptr_lt hi hk
    have hle := h.freeblock_le hfin
    have hsec : sector (x.ptr k) = x.ptr k := sector_of_lt (by omega)
    rw [rsect, hsec, if_neg (by rw [h.len]; omega)]
    exact outcome_error (hE (by omega) _)

/-- What an extent becomes when it gets block `k`, if it has none. -/
structure Fills (x y : Extent) (k : ℕ) : Prop where
  ptr : y.ptr k ≠ 0
  other : ∀ l, l ≠ k → y.ptr l = x.ptr l

/-- A direct block, or the indirect one, is taken. -/
theorem fillAddr (h : Built s X B U (some i)) (hi : X i = some x) {a : ℕ}
    (haddr : x.din.addr a = x.ptr k)
    (hptr : (x.setAddr a s.freeblock).ptr = update x.ptr k s.freeblock) :
    ∃ y, (s.fillAddr x.din a).1 = y.din ∧ Fills x y k ∧
      Built (s.fillAddr x.din a).2 (update X i (some y)) B (update U i (insert k (U i)))
        (some i) := by
  unfold Img.fillAddr
  split_ifs with h0
  · have hk : x.ptr k = 0 := haddr ▸ h0
    refine ⟨x.setAddr a s.freeblock, rfl, ⟨?_, fun l hl => ?_⟩, h.setAddr hi hk hptr⟩
    · have := h.nmeta_le
      rw [hptr, update_self]
      rw [nmeta_eq] at this
      omega
    · rw [hptr, update_of_ne hl]
  · have hk : x.ptr k ≠ 0 := haddr ▸ h0
    refine ⟨x, rfl, ⟨hk, fun _ _ => rfl⟩, ?_⟩
    rw [insert_eq_self.2 (((h.holds i x hi).ptr k).1 hk), update_eq_self]
    rwa [← hi, update_eq_self]

/-- A block for an address in the indirect block. -/
theorem fillWord (h : Built s X B U (some i)) (hi : X i = some x) {j : ℕ} (hj : j < NINDIRECT)
    (hm : x.ptr MAXFILE ≠ 0) (hlt : x.ptr MAXFILE < FSSIZE) :
    ∃ y, y.din = x.din ∧ (s.fillWord i (x.ptr MAXFILE) x.ind j).1 = y.ind ∧
      Fills x y (NDIRECT + j) ∧
      Built (s.fillWord i (x.ptr MAXFILE) x.ind j).2 (update X i (some y)) B
        (update U i (insert (NDIRECT + j) (U i))) (some i) := by
  have hcut := (h.holds i x hi).cut
  have hmax : MAXFILE = NDIRECT + NINDIRECT := rfl
  have hword : x.ind.word j = x.ptr (NDIRECT + j) := by
    rw [Extent.ptr_indirect hcut (Nat.le_add_right _ _) (by omega), Nat.add_sub_cancel_left]
  unfold Img.fillWord
  rw [hword]
  split_ifs with h0
  · have hfb := h.freeblock_lt
    have hptr := Extent.ptr_setWord hcut hj (a := s.freeblock) (by omega)
    refine ⟨x.setWord j s.freeblock, rfl, rfl, ⟨?_, fun l hl => ?_⟩,
      h.setWord hi hj h0 hm hlt⟩
    · have := h.nmeta_le
      rw [hptr, update_self]
      rw [nmeta_eq] at this
      omega
    · rw [hptr, update_of_ne hl]
  · refine ⟨x, rfl, rfl, ⟨h0, fun _ _ => rfl⟩, ?_⟩
    rw [insert_eq_self.2 (((h.holds i x hi).ptr _).1 h0), update_eq_self]
    rwa [← hi, update_eq_self]

/-- `iappend` gets the block for the next byte. -/
theorem blockFor (h : Built s X B U (some i)) (hi : X i = some x) {off : ℕ}
    (hU : U i = blocks off) (hoff : off / BSIZE < MAXFILE) (hle : off < fin i)
    (hbelow : ∀ l, x.ptr l < FSSIZE) (hfin : ∀ j, U j ⊆ blocks (fin j))
    (hE : FSSIZE < nmeta + ∑ j ∈ range 207, (blocks (fin j)).card → ∀ e, E e) :
    Outcome (s.blockFor i x.din (off / BSIZE)) E fun r =>
      ∃ y, r.1 = y.din ∧ r.2.1 = y.ptr (off / BSIZE) ∧ y.ptr (off / BSIZE) ≠ 0 ∧
        (∀ l, l ≠ off / BSIZE → y.ptr l < FSSIZE) ∧
        Built r.2.2 (update X i (some y)) B (update U i (blocks (off + 1))) (some i) := by
  have hcut := (h.holds i x hi).cut
  have hfb := h.freeblock_lt
  unfold Img.blockFor
  split_ifs with hdir
  · obtain ⟨y, hdin, hy, hb⟩ := h.fillAddr hi (Extent.ptr_direct hcut hdir).symm
      (Extent.ptr_setAddr hcut hdir (by omega))
    rw [blocks_succ_direct hdir, ← hU]
    have hycut := (hb.holds i y (update_self ..)).cut
    refine outcome_ok ⟨y, hdin, ?_, hy.ptr, fun l hl => ?_, hb⟩
    · rw [Extent.ptr_direct hycut hdir]
      exact congrArg (Dinode.addr · _) hdin
    · rw [hy.other l hl]
      exact hbelow l
  · have hind : NDIRECT ≤ off / BSIZE := not_lt.1 hdir
    have hsucc := blocks_succ_indirect hind hoff
    have hmax : MAXFILE = NDIRECT + NINDIRECT := rfl
    have hfbn : NDIRECT + (off / BSIZE - NDIRECT) = off / BSIZE := by omega
    obtain ⟨y, hdin, hy, hb⟩ := h.fillAddr hi (k := MAXFILE) (a := NDIRECT)
      (Extent.ptr_maxfile (by omega)).symm (Extent.ptr_setAddr_indirect hcut (by omega))
    have hyi : update X i (some y) i = some y := update_self ..
    have hycut := (hb.holds i y hyi).cut
    have haddr : (s.fillAddr x.din NDIRECT).1.addr NDIRECT = y.ptr MAXFILE := by
      rw [hdin, Extent.ptr_maxfile (by omega)]
    have hfin' : ∀ j, update U i (insert MAXFILE (U i)) j ⊆ blocks (fin j) := by
      refine (forall_update_iff U fun j (V : Finset ℕ) => V ⊆ blocks (fin j)).2
        ⟨?_, fun j _ => hfin j⟩
      rw [hU]
      exact (subset_insert _ _).trans (hsucc ▸ blocks_mono (show off + 1 ≤ fin i from hle))
    simp only
    rw [haddr]
    refine (hb.rsect_ptr hyi hy.ptr hfin' hE).bind ?_
    rintro indirect ⟨hlt, rfl⟩
    rw [← (hb.onDisk i y hyi).ind_eq hy.ptr]
    obtain ⟨z, hzdin, hzind, hz, hb'⟩ := hb.fillWord hyi (j := off / BSIZE - NDIRECT) (by omega)
      hy.ptr hlt
    rw [update_idem, update_idem, update_self, hfbn, hU, ← hsucc] at hb'
    rw [hfbn] at hz
    have hzcut := (hb'.holds i z (update_self ..)).cut
    refine outcome_ok ⟨z, hdin.trans hzdin.symm, ?_, hz.ptr, fun l hl => ?_, hb'⟩
    · rw [Extent.ptr_indirect hzcut hind hoff, ← hzind]
    · rw [hz.other l hl]
      by_cases hlm : l = MAXFILE
      · rw [hlm]
        exact hlt
      · rw [hy.other l hlm]
        exact hbelow l

/-! ### Appending -/

/-- The bytes after a piece was stored at the end. -/
theorem byte_append {q : List UInt8} (hy : ∀ o, y.byte o = bs.getD o 0)
    (hq : bs.length + q.length ≤ (bs.length / BSIZE + 1) * BSIZE) (o : ℕ) :
    (y.setBlock (bs.length / BSIZE) ((y.blk (bs.length / BSIZE)).blit
      (bs.length - bs.length / BSIZE * BSIZE) q)).byte o = (bs ++ q).getD o 0 := by
  have hb : BSIZE = 512 := rfl
  have hold : o < bs.length ∨ bs.length + q.length ≤ o → y.byte o = (bs ++ q).getD o 0 := by
    rw [hy o]
    rintro (ho | ho)
    · simp only [List.getD_eq_getElem?_getD, List.getElem?_append_left ho]
    · have h1 : bs[o]? = none := List.getElem?_eq_none (by omega)
      have h2 : (bs ++ q)[o]? = none := List.getElem?_eq_none (by simpa using ho)
      simp only [List.getD_eq_getElem?_getD, h1, h2]
  by_cases hbn : o / BSIZE = bs.length / BSIZE
  · have hset : (y.setBlock (bs.length / BSIZE) ((y.blk (bs.length / BSIZE)).blit
        (bs.length - bs.length / BSIZE * BSIZE) q)).byte o =
        ((y.blk (bs.length / BSIZE)).blit (bs.length - bs.length / BSIZE * BSIZE) q).get
          (o % BSIZE) := by
      rw [Extent.byte, Extent.setBlock]
      simp only [hbn, update_self]
    rw [hset]
    by_cases ho : bs.length ≤ o ∧ o < bs.length + q.length
    · -- one of the new bytes
      have hk : o - bs.length < q.length := by omega
      have hpos : o % BSIZE = bs.length - bs.length / BSIZE * BSIZE + (o - bs.length) := by
        rw [hb] at hbn ⊢
        omega
      rw [hpos, Bytes.get_blit_of_lt _ _ hk (by rw [hb] at hbn hq ⊢; omega)]
      rw [List.getD_eq_getElem?_getD, List.getElem?_append_right ho.1,
        List.getElem?_eq_getElem hk]
      rfl
    · have hout : o < bs.length ∨ bs.length + q.length ≤ o := by omega
      rw [← hold hout, Bytes.get_blit_of_not_mem, Extent.byte, hbn]
      rw [hb] at hbn ⊢
      omega
  · have hset : (y.setBlock (bs.length / BSIZE) ((y.blk (bs.length / BSIZE)).blit
        (bs.length - bs.length / BSIZE * BSIZE) q)).byte o = y.byte o := by
      rw [Extent.byte, Extent.byte, Extent.setBlock]
      simp only [update_of_ne hbn]
    rw [hset]
    refine hold ?_
    rw [hb] at hbn hq
    omega

/-- A pass of the loop of `iappend`. -/
theorem appendPass (h : Built s X B U (some i)) (hi : X i = some x) {p : List UInt8}
    (hp : p ≠ []) (hU : U i = blocks (B i).length) (hle : (B i).length + p.length ≤ fin i)
    (hbelow : ∀ l, x.ptr l < FSSIZE) (hfin : ∀ j, U j ⊆ blocks (fin j))
    (hsize : MAXFILE * BSIZE < fin i → ∀ e, E e)
    (hE : FSSIZE < nmeta + ∑ j ∈ range 207, (blocks (fin j)).card → ∀ e, E e) :
    Outcome (s.appendPass i x.din (B i).length p) E fun r =>
      ∃ y q, q = p.take (min p.length (((B i).length / BSIZE + 1) * BSIZE - (B i).length)) ∧
        r.1 = y.din ∧ (∀ l, y.ptr l < FSSIZE) ∧
        Built r.2 (update X i (some y)) (update B i (B i ++ q))
          (update U i (blocks (B i ++ q).length)) (some i) := by
  have hb : BSIZE = 512 := rfl
  have hplen : 0 < p.length := List.length_pos_of_ne_nil hp
  simp only [Img.appendPass]
  split_ifs with hmax
  · have hm : MAXFILE = 140 := rfl
    refine outcome_error (hsize ?_ _)
    simp only [hm, hb] at hmax ⊢
    omega
  · refine (h.blockFor hi hU (not_le.1 hmax) (by omega) hbelow hfin hE).bind ?_
    rintro ⟨din, b, t⟩ ⟨y, rfl, rfl, hy0, hother, hb'⟩
    have hyi : update X i (some y) i = some y := update_self ..
    have hfin' : ∀ j, update U i (blocks ((B i).length + 1)) j ⊆ blocks (fin j) :=
      (forall_update_iff U fun j (V : Finset ℕ) => V ⊆ blocks (fin j)).2
        ⟨blocks_mono (by omega), fun j _ => hfin j⟩
    refine (hb'.rsect_ptr hyi hy0 hfin' hE).bind ?_
    rintro buf ⟨hlt, rfl⟩
    rw [← (hb'.onDisk i y hyi).blk_eq (not_le.1 hmax) hy0]
    set q := p.take (min p.length (((B i).length / BSIZE + 1) * BSIZE - (B i).length)) with hq
    have hqlen : q.length = min p.length (((B i).length / BSIZE + 1) * BSIZE - (B i).length) := by
      rw [hq, List.length_take]
      omega
    have hroom : (B i).length + q.length ≤ ((B i).length / BSIZE + 1) * BSIZE := by
      rw [hqlen, hb]
      omega
    have hpos : 0 < q.length := by
      rw [hqlen, hb]
      omega
    have hle' : (B i ++ q).length ≤ MAXFILE * BSIZE := by
      rw [List.length_append]
      exact hroom.trans (Nat.mul_le_mul_right _ (not_le.1 hmax))
    have hset := hb'.setBlock hyi (not_le.1 hmax) hy0 hlt hle'
      (byte_append (hb'.holds i y hyi).byte hroom)
    rw [update_idem] at hset
    have hblocks : blocks ((B i).length + 1) = blocks (B i ++ q).length := by
      rw [List.length_append]
      exact (blocks_eq_of_le (by omega) hroom).symm
    rw [hblocks] at hset
    refine outcome_ok ⟨y.setBlock ((B i).length / BSIZE) _, q, rfl, rfl, fun l => ?_, hset⟩
    by_cases hl : l = (B i).length / BSIZE
    · rw [hl]
      exact hlt
    · exact hother l hl

/-- The loop of `iappend`. -/
theorem appendLoop : ∀ {fuel : ℕ} {s : Img} {X : ℕ → Option Extent} {B : ℕ → List UInt8}
    {U : ℕ → Finset ℕ} {x : Extent} {p : List UInt8}, Built s X B U (some i) → X i = some x →
    p.length ≤ fuel → U i = blocks (B i).length → (B i).length + p.length ≤ fin i →
    (∀ l, x.ptr l < FSSIZE) → (∀ j, U j ⊆ blocks (fin j)) → (MAXFILE * BSIZE < fin i → ∀ e, E e) →
    (FSSIZE < nmeta + ∑ j ∈ range 207, (blocks (fin j)).card → ∀ e, E e) →
    Outcome (Img.appendLoop i fuel s x.din (B i).length p) E fun r =>
      ∃ y, r.1 = y.din ∧ r.2.1 = (B i ++ p).length ∧ (∀ l, y.ptr l < FSSIZE) ∧
        Built r.2.2 (update X i (some y)) (update B i (B i ++ p))
          (update U i (blocks (B i ++ p).length)) (some i)
  | fuel, s, X, B, U, x, p, h, hi, hfuel, hU, hle, hbelow, hfin, hsize, hE => by
    have hdone : p = [] → ∃ y, x.din = y.din ∧ (B i).length = (B i ++ p).length ∧
        (∀ l, y.ptr l < FSSIZE) ∧ Built s (update X i (some y)) (update B i (B i ++ p))
          (update U i (blocks (B i ++ p).length)) (some i) := by
      rintro rfl
      refine ⟨x, rfl, by simp, hbelow, ?_⟩
      rw [List.append_nil, ← hU, update_eq_self, update_eq_self]
      rwa [← hi, update_eq_self]
    cases fuel with
    | zero => exact outcome_ok (hdone (List.eq_nil_of_length_eq_zero (by omega)))
    | succ fuel =>
      unfold Img.appendLoop
      split_ifs with hp
      · exact outcome_ok (hdone hp)
      · refine (h.appendPass hi hp hU hle hbelow hfin hsize hE).bind ?_
        rintro ⟨din, t⟩ ⟨y, q, hq, rfl, hybelow, hb⟩
        have hplen : 0 < p.length := List.length_pos_of_ne_nil hp
        set n1 := min p.length (((B i).length / BSIZE + 1) * BSIZE - (B i).length) with hn1
        have hn1pos : 0 < n1 := by
          have hbs : BSIZE = 512 := rfl
          rw [hn1, hbs]
          omega
        have hqlen : q.length = n1 := by
          rw [hq, List.length_take]
          omega
        have hsplit : q ++ p.drop n1 = p := by rw [hq, List.take_append_drop]
        have hBlen : (B i).length + n1 = (update B i (B i ++ q) i).length := by
          rw [update_self, List.length_append, hqlen]
        simp only
        rw [hBlen]
        refine (appendLoop hb (update_self ..) ?_ ?_ ?_ hybelow ?_ hsize hE).imp ?_
        · rw [List.length_drop]
          omega
        · rw [update_self, update_self]
        · rw [update_self, List.length_append, List.length_drop]
          omega
        · refine fun j => update_cases j ?_ fun _ => hfin j
          rw [List.length_append]
          exact blocks_mono (by omega)
        · rintro ⟨din, off, u⟩ ⟨z, rfl, hoff, hzbelow, hz⟩
          simp only [update_self, update_idem, List.append_assoc, hsplit] at hoff hz
          exact ⟨z, rfl, hoff, hzbelow, hz⟩

/-! ### Inodes -/

theorem winode_eq (h : s.len = FSSIZE) (hi : i < 207) (din : Dinode) :
    s.winode i din = .ok { s with
      disk := wide.putDinode s.disk i din
      writes := s.writes ++ [(.inode, wide.iblock i)] } := by
  have hlt : iblock i < FSSIZE := (wide_iblock_lt hi).trans (by decide)
  simp only [winode, rsect_of_lt h hlt]
  exact congrArg Except.ok (wsect_of_lt h _ hlt _)

theorem rinode_eq (h : s.len = FSSIZE) (hi : i < 207) :
    s.rinode i = .ok (wide.dinode s.disk i) := by
  have hlt : iblock i < FSSIZE := (wide_iblock_lt hi).trans (by decide)
  simp only [rinode, rsect_of_lt h hlt]
  rfl

theorem putDinode_of_le (d : Disk) (hi : i < 207) (din : Dinode) (hb : nmeta ≤ b) :
    wide.putDinode d i din b = d b := by
  have := wide_iblock_lt hi
  rw [nmeta_eq] at hb
  exact Mount.putDinode_of_ne (by omega) din

theorem putDinode_one (d : Disk) (din : Dinode) : wide.putDinode d i din 1 = d 1 := by
  have := le_wide_iblock i
  exact Mount.putDinode_of_ne (by omega) din

/-- Storing an inode with all its blocks. `mkfs` has not handed out inode `i` yet, or has been
changing it. -/
theorem putDinode (h : Built s X B U cur) (hcur : cur = none ∨ cur = some i) (hi : i < 207)
    (hlt : 0 < i) (hn : n ≤ 207) (hino : ∀ j, j ≠ i → (j < n ↔ j < s.freeinode)) (hin : i < n)
    (hy : y.OnDisk s.disk) (hhold : Holds y (B i) (U i)) (htype : y.din.type = typeOf i)
    (hnlink : y.din.nlink = 1) (hsize : y.din.size.toNat = (B i).length)
    (hptr : ∀ k, (X i).elim 0 (fun x => x.ptr k) = y.ptr k) :
    Built { s with
      disk := wide.putDinode s.disk i y.din
      freeinode := n
      inums := List.range' 1 (n - 1)
      writes := s.writes ++ [(.inode, wide.iblock i)] } (update X i (some y)) B U none := by
  have hmeta : ∀ b, nmeta ≤ b → wide.putDinode s.disk i y.din b = s.disk b :=
    fun b hb => putDinode_of_le _ hi _ hb
  have hcur' : ∀ j, j ≠ i → cur ≠ some j := by
    intro j hj he
    rcases hcur with hc | hc <;> rw [hc] at he
    · cases he
    · exact hj (some.inj he).symm
  have hplace : place (update X i (some y)) noPend = place X noPend :=
    place_of_ptr_eq fun k => (hptr k).symm
  refine
    { h with
      super := (putDinode_one (i := i) s.disk y.din).trans h.super
      ino := fun j => ?_
      freeinode := hn
      onDisk := forall_update ?_ fun j z hji hj => ?_
      holds := forall_update ?_ fun j z _ hj => h.holds j z hj
      type := forall_update ?_ fun j z _ hj => h.type j z hj
      nlink := forall_update ?_ fun j z _ hj => h.nlink j z hj
      din := fun j z hj _ => ?_
      unused := fun j hj => ?_
      excl := hplace ▸ h.excl
      zero := fun b hb => (hmeta b (h.nmeta_le.trans hb)).trans (h.zero b hb)
      inums := rfl
      writes := fun κ b hb => ?_ }
  · by_cases hji : j = i
    · simp [hji, hlt, hin]
    · rw [update_of_ne hji, h.ino j, hino j hji]
  · rintro z ⟨⟩
    refine hy.congr fun k hk => hmeta _ ?_
    have hpl : place X noPend (.inl (i, k)) = y.ptr k := hptr k
    rw [← hpl] at hk ⊢
    exact h.excl.mem _ hk
  · exact (h.onDisk j z hj).congr fun k hk => hmeta _ (h.ptr_area hj hk)
  · rintro z ⟨⟩
    exact hhold
  · rintro z ⟨⟩
    exact htype
  · rintro z ⟨⟩
    exact hnlink
  · by_cases hji : j = i
    · subst hji
      rw [update_self] at hj
      obtain rfl := some.inj hj
      exact ⟨Mount.dinode_putDinode _ _ _, hsize⟩
    · rw [update_of_ne hji] at hj
      rw [Mount.dinode_putDinode_of_ne hji]
      exact h.din j z hj (hcur' j hji)
  · have hji : j ≠ i := by
      rintro rfl
      simp at hj
    rw [update_of_ne hji] at hj
    refine ⟨(h.unused j hj).1, fun hlt => ?_⟩
    rw [Mount.dinode_putDinode_of_ne hji]
    exact (h.unused j hj).2 hlt
  · rcases List.mem_append.1 hb with hb | hb
    · refine (h.writes κ b hb).mono fun j z hj => ?_
      by_cases hji : j = i
      · subst hji
        refine ⟨y, update_self .., fun k _ => ?_⟩
        rw [← hptr k, hj]
        rfl
      · exact ⟨z, by rwa [update_of_ne hji], fun _ _ => rfl⟩
    · obtain ⟨rfl, rfl⟩ := Prod.mk.inj (List.mem_singleton.1 hb)
      exact ⟨le_wide_iblock i, wide_iblock_lt hi⟩

/-- `iappend` stores the inode. -/
theorem winode (h : Built s X B U (some i)) (hi : X i = some x) :
    ∃ t y, s.winode i { x.din with size := UInt32.ofNat (B i).length } = .ok t ∧
      t.freeinode = s.freeinode ∧ y.ptr = x.ptr ∧ Built t (update X i (some y)) B U none := by
  have hlt := h.lt hi
  have hx := h.holds i x hi
  have hfree := (h.ino i).1 (by rw [hi]; rfl)
  set din : Dinode := { x.din with size := UInt32.ofNat (B i).length } with hdin
  have hptr : (x.setDin din).ptr = x.ptr := Extent.ptr_setDin rfl
  have hsize : din.size.toNat = (B i).length := by
    have hle := hx.le
    have hmax : MAXFILE * BSIZE < 2 ^ 32 := by decide
    exact UInt32.toNat_ofNat_of_lt' (hle.trans_lt hmax)
  have hput := h.putDinode (y := x.setDin din) (Or.inr rfl) hlt.2 hlt.1 h.freeinode
    (fun _ _ => Iff.rfl) hfree.2 ((h.onDisk i x hi).setDin rfl)
    ⟨hx.cut, hx.le, hx.byte, fun k => by rw [hptr]; exact hx.ptr k⟩ (h.type i x hi) (h.nlink i x hi)
      hsize
    fun k => by rw [hi, hptr]; rfl
  rw [← h.inums] at hput
  exact ⟨_, _, winode_eq h.len hlt.2 _, rfl, hptr, hput⟩

end Built

/-! ## The functions of mkfs -/

/-- The image between two calls : inode `i` has the bytes `B i`, all on the disk. -/
structure Ready (s : Img) (X : ℕ → Option Extent) (B : ℕ → List UInt8) : Prop where
  built : Built s X B (fun i => blocks (B i).length) none
  below : ∀ i x, X i = some x → ∀ k, x.ptr k < FSSIZE

/-- What a list of files needs, and what failure means. -/
structure Fails (E : String → Prop) (fin : ℕ → ℕ) : Prop where
  size : ∀ i, MAXFILE * BSIZE < fin i → ∀ e, E e
  room : FSSIZE < nmeta + ∑ j ∈ range 207, (blocks (fin j)).card → ∀ e, E e

namespace Ready

variable {s : Img} {X : ℕ → Option Extent} {B : ℕ → List UInt8} {E : String → Prop} {fin : ℕ → ℕ}
  {i : ℕ}

/-- `iappend` adds the bytes at the end. -/
theorem iappend (h : Ready s X B) (hi : 0 < i ∧ i < s.freeinode) {p : List UInt8}
    (hle : ∀ j, (B j).length ≤ fin j) (hp : (B i).length + p.length ≤ fin i)
    (hE : Fails E fin) :
    Outcome (s.iappend i p) E fun t => t.freeinode = s.freeinode ∧
      ∃ Y, Ready t Y (update B i (B i ++ p)) := by
  obtain ⟨x, hx⟩ := isSome_iff_exists.1 ((h.built.ino i).2 hi)
  have hlt := h.built.lt hx
  obtain ⟨hdin, hsize⟩ := h.built.din i x hx (by simp)
  have hopen : Built s X B (fun i => blocks (B i).length) (some i) :=
    { h.built with din := fun j z hj _ => h.built.din j z hj (by simp) }
  have hread : Outcome (s.rinode i) E (· = x.din) := by
    rw [Built.rinode_eq h.built.len hlt.2, hdin]
    exact outcome_ok rfl
  refine hread.bind ?_
  rintro _ rfl
  rw [hsize]
  refine (hopen.appendLoop hx le_rfl rfl hp (h.below i x hx) (fun j => blocks_mono (hle j))
    (hE.size i) hE.room).bind ?_
  rintro ⟨din, off, t⟩ ⟨y, rfl, rfl, hbelow, hb⟩
  obtain ⟨r, z, hr, hfree, hptr, hz⟩ := hb.winode (update_self ..)
  simp only [update_self] at hr
  simp only
  rw [hr]
  have hdom : ∀ j, (0 < j ∧ j < r.freeinode) ↔ (0 < j ∧ j < s.freeinode) := by
    intro j
    rw [← hz.ino j, ← h.built.ino j]
    by_cases hj : j = i
    · simp [hj, hx]
    · simp [hj]
  have hfree' : r.freeinode = s.freeinode := by
    have h1 := hdom r.freeinode
    have h2 := hdom s.freeinode
    have h3 := hdom i
    omega
  have hU : update (fun j => blocks (B j).length) i (blocks (B i ++ p).length) =
      fun j => blocks (update B i (B i ++ p) j).length :=
    (funext <| apply_update (fun _ (b : List UInt8) => blocks b.length) B i (B i ++ p)).symm
  rw [update_idem, hU] at hz
  refine outcome_ok ⟨hfree', _, hz, forall_update ?_ fun j w _ hj => h.below j w hj⟩
  rintro w ⟨⟩
  rw [hptr]
  exact hbelow

/-- All the reads of a file. -/
theorem iappendAll (hi : 0 < i) (hE : Fails E fin) : ∀ {reads : List (List UInt8)} {s : Img}
    {X : ℕ → Option Extent} {B : ℕ → List UInt8}, Ready s X B → i < s.freeinode →
    (∀ j, (B j).length ≤ fin j) → (B i).length + reads.flatten.length ≤ fin i →
    Outcome (reads.foldlM (fun s buf => s.iappend i buf) s) E fun t =>
      t.freeinode = s.freeinode ∧ ∃ Y, Ready t Y (update B i (B i ++ reads.flatten))
  | [], s, X, B, h, _, _, _ => by
    refine outcome_ok ⟨rfl, X, ?_⟩
    rwa [List.flatten_nil, List.append_nil, update_eq_self]
  | r :: reads, s, X, B, h, hlt, hle, hp => by
    rw [List.flatten_cons, List.length_append] at hp
    rw [List.foldlM_cons]
    refine (h.iappend ⟨hi, hlt⟩ hle (by omega) hE).bind ?_
    rintro t ⟨hfree, Y, hY⟩
    refine (iappendAll hi hE hY (by omega) (fun j => ?_) ?_).imp ?_
    · refine update_cases j ?_ fun _ => hle j
      rw [List.length_append]
      omega
    · rw [update_self, List.length_append]
      omega
    · rintro u ⟨hu, Z, hZ⟩
      rw [update_idem, update_self, List.append_assoc] at hZ
      exact ⟨hu.trans hfree, Z, hZ⟩

theorem holds_bare {din : Dinode} (h : ∀ i, din.addr i = 0) :
    Holds (Extent.bare din) [] (blocks 0) := by
  refine ⟨rfl, Nat.zero_le _, fun o => ?_, fun k => ?_⟩
  · simp [Extent.byte, Extent.bare]
  · rw [Extent.ptr_bare h, mem_blocks, Uses]
    simp

/-- `ialloc` makes an empty file. -/
theorem ialloc (h : Ready s X B) (hpos : 0 < s.freeinode) (hlt : s.freeinode < 207)
    (hB : B s.freeinode = []) :
    ∃ t Y, s.ialloc (typeOf s.freeinode) = .ok (s.freeinode, t) ∧
      t.freeinode = s.freeinode + 1 ∧ Ready t Y B := by
  set din : Dinode := ⟨typeOf s.freeinode, 0, 0, 1, 0, fun _ => 0⟩ with hdin
  have haddr : ∀ i, din.addr i = 0 := fun i => by simp [Dinode.addr, hdin]
  have hX : X s.freeinode = none := by
    rw [← not_isSome_iff_eq_none, h.built.ino]
    omega
  have hptr : ∀ k, (Extent.bare din).ptr k = 0 := fun k => by rw [Extent.ptr_bare haddr]
  have hput := h.built.putDinode (y := Extent.bare din) (n := s.freeinode + 1) (Or.inl rfl) hlt hpos
    hlt (fun j hj => by omega) (Nat.lt_succ_self _) (Extent.onDisk_bare haddr)
    (by rw [hB]; exact holds_bare haddr) rfl rfl (by rw [hB]; rfl)
    fun k => by rw [hX, hptr k]; rfl
  have hinums : List.range' 1 (s.freeinode + 1 - 1) = s.inums ++ [s.freeinode] := by
    obtain ⟨n, hn⟩ := Nat.exists_eq_add_of_lt hpos
    have hn' : s.freeinode = n + 1 := by omega
    rw [h.built.inums, hn', Nat.add_sub_cancel, Nat.add_sub_cancel, List.range'_1_concat,
      add_comm 1 n]
  have hmod : (s.freeinode + 1) % 2 ^ 32 = s.freeinode + 1 := by omega
  refine ⟨_, _, ?_, rfl, hput, forall_update ?_ fun j w _ hj => h.below j w hj⟩
  · have hw := Built.winode_eq (s := { s with
      freeinode := s.freeinode + 1, inums := s.inums ++ [s.freeinode] }) h.built.len hlt din
    simp only [Img.ialloc, hmod, ← hdin]
    rw [hw, hinums]
    rfl
  · rintro w ⟨⟩ k
    rw [hptr k]
    decide

end Ready

end Xv6.Mkfs
