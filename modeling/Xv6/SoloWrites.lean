import Xv6.SoloRules

/-!
# Writing, executed alone

Rules for the programs of `fs.c` that write, executed by one process while the others do nothing.
They start from an inode in the cache among all the inodes of the volume (`Owns`), and say which
blocks were logged (`Logs`) and what the inode is then. A program that writes stops when the disk
has no free block or the log no room (`Overflow`), and each rule says what it has written then.

`ends_bmap` gives the inode the block asked for, `ends_writeLoop` writes the bytes of a file block
by block, and `ends_writei` also sets the size.
-/

set_option linter.unusedSectionVars false

namespace Xv6

open List

/-- The blocks that `x` has are blocks of `y`. -/
def Extent.Keeps (x y : Extent) : Prop := ∀ j, x.ptr j ≠ 0 → y.ptr j = x.ptr j

theorem Extent.Keeps.trans {x y z : Extent} (h : x.Keeps y) (h' : y.Keeps z) : x.Keeps z :=
  fun j hj => by
    have hy := h j hj
    rw [h' j (by rwa [hy]), hy]

theorem Mount.size_pos (M : Mount) : 0 < M.sb.size :=
  (Nat.zero_le _).trans_lt (Mount.bmapstart_lt.trans_le Mount.nmeta_le)

namespace Fs

open Prog Function

variable {P : Type} [DecidableEq P] {M : Mount} {p : P} {s t u : State P} {k l : Slot}
  {x y z : Extent} {X : ℕ → Option Extent} {E : Stop Wait → State P → Prop} {B C : Set ℕ}

/-! ## What was logged -/

/-- From `s` to `t` only blocks of `B` were logged, and only fields of the inode in entry `k` were
changed besides. -/
structure Logs (s : State P) (k : Slot) (B : Set ℕ) (t : State P) : Prop where
  frame : t = { s with disk := t.disk, log := { s.log with lh := t.log.lh }, copy := t.copy }
  other : ∀ l, l ≠ k → t.copy l = s.copy l
  valid : (t.copy k).valid = (s.copy k).valid
  disk : ∀ b, b ∉ B → t.disk b = s.disk b
  lh : ∀ b ∈ t.log.lh, b ∈ s.log.lh ∨ b ∈ B
  nodup : s.log.lh.Nodup → t.log.lh.Nodup

namespace Logs

theorem refl (s : State P) (k : Slot) (B : Set ℕ) : Logs s k B s :=
  ⟨rfl, fun _ _ => rfl, rfl, fun _ _ => rfl, fun _ hb => Or.inl hb, id⟩

section

variable (h : Logs s k B t)

include h

theorem mono (hBC : B ⊆ C) : Logs s k C t :=
  { h with
    disk := fun b hb => h.disk b fun hb' => hb (hBC hb')
    lh := fun b hb => (h.lh b hb).imp_right fun hb' => hBC hb' }

theorem trans (h' : Logs t k B u) : Logs s k B u where
  frame := by rw [h'.frame, h.frame]
  other l hl := (h'.other l hl).trans (h.other l hl)
  valid := h'.valid.trans h.valid
  disk b hb := (h'.disk b hb).trans (h.disk b hb)
  lh b hb := (h'.lh b hb).elim (h.lh b) Or.inr
  nodup hs := h'.nodup (h.nodup hs)

theorem icache : t.icache = s.icache := by rw [h.frame]

theorem outstanding : t.log.outstanding = s.log.outstanding := by rw [h.frame]

/-- An inode whose block was not logged is on the disk as before. -/
theorem dinode {i : ℕ} (hi : M.iblock i ∉ B) :
    M.dinode t.disk i = M.dinode s.disk i := by
  unfold Mount.dinode
  rw [h.disk _ hi]

theorem valid_eq (m : Slot) : (t.copy m).valid = (s.copy m).valid := by
  by_cases hm : m = k
  · rw [hm, h.valid]
  · rw [h.other m hm]

/-- The header of the log has at most the blocks logged in addition. -/
theorem length_lh_le (hs : s.log.lh.Nodup) {bs : List ℕ} (hB : ∀ b ∈ B, b ∈ bs) :
    t.log.lh.length ≤ s.log.lh.length + bs.length := by
  rw [← length_append]
  refine List.Subperm.length_le ((h.nodup hs).subperm fun b hb => ?_)
  exact mem_append.2 ((h.lh b hb).imp_right (hB b))

end

end Logs

theorem logs_write {b : ℕ} {data : Block} (hb : b ∈ B) : Logs s k B (s.write b data) where
  frame := rfl
  other _ _ := rfl
  valid := rfl
  disk c hc := update_of_ne (fun he : c = b => hc (he ▸ hb)) ..
  lh c hc := ((mem_logAbsorb b s.log.lh).1 hc).imp_right fun he : c = b => he ▸ hb
  nodup hs := nodup_logAbsorb b hs

theorem logs_store (s : State P) (k : Slot) (B : Set ℕ) (din : Dinode) :
    Logs s k B { s with copy := update s.copy k { s.copy k with din := din } } where
  frame := rfl
  other _ hl := update_of_ne hl ..
  valid := by simp only [update_self]
  disk _ _ := rfl
  lh _ hb := Or.inl hb
  nodup := id

/-- How a program that writes may stop. -/
def Overflow (M : Mount) (e : Stop Wait) (u : State P) : Prop :=
  e = .panic "too big a transaction" ∧ u.log.TooBig ∨
    e = .panic "balloc: out of blocks" ∧ ∀ b < M.sb.size, M.inUse u.disk b = true

/-- A section that ends in a `log_write`. -/
theorem ends_log {α : Type} {g : Sec P α} {a : α} {b : ℕ} {d : Block} {Q : α → State P → Prop}
    (hg : g s = if s.log.TooBig then .error "too big a transaction" else .ok (a, s.write b d))
    (hE : ∀ e, Overflow M e s → E e s) (hQ : Q a (s.write b d)) :
    Ends (atomic g : Kernel P α) s Q E := by
  refine ends_atomic ?_
  rw [hg]
  by_cases hbig : s.log.TooBig
  · rw [if_pos hbig]
    exact hE _ (Or.inl ⟨rfl, hbig⟩)
  · rw [if_neg hbig]
    exact hQ

/-! ## The block allocator -/

/-- The blocks that `balloc` of block `b` logs. -/
def allocBlocks (M : Mount) (b : ℕ) : Set ℕ := {M.bblock b, b}

/-- The disk holds the inodes `X`. One block may be allocated and not stored yet. -/
abbrev Sole (M : Mount) (d : Disk) (X : ℕ → Option Extent) (pend : Option (ℕ × Bool)) : Prop :=
  Vol M (fun _ => True) d X fun _ : Unit => pend

theorem update_unit {α : Type} (f : Unit → α) (a : α) : update f () a = fun _ => a :=
  funext fun _ => update_self ..

/-- One bitmap block of `balloc`. -/
theorem ends_ballocIn {j : ℕ} {Q : Option ℕ → State P → Prop} (hvol : Sole M s.disk X none)
    (hout : 1 ≤ s.log.outstanding) (hj : BPB * j < M.sb.size)
    (hE : ∀ e u c, c < M.sb.size → Overflow M e u → Logs s k {M.bblock c} u → E e u)
    (hnone : (∀ bi < BPB, BPB * j + bi < M.sb.size → M.inUse s.disk (BPB * j + bi) = true) →
      Q none s)
    (hsome : ∀ b u, M.Data b → Logs s k (allocBlocks M b) u → u.copy = s.copy →
      Sole M u.disk X (some (b, true)) → Q (some b) u) :
    Ends (ballocIn M ROOTDEV (BPB * j)) s Q E := by
  have hlt : M.bblock (BPB * j) < M.disksize :=
    (Mount.bblock_lt hj).trans_le (Mount.nmeta_le.trans M.size_le)
  refine ends_bind (ends_atomic ?_)
  rw [sec_bind, bread_eq hlt]
  simp only
  cases hfind : (List.range (min BPB (M.sb.size - BPB * j))).find? fun bi =>
      !bitIn (s.disk (M.bblock (BPB * j))) bi with
  | none =>
    refine ends_pure (hnone fun bi hbi hsz => ?_)
    rw [inUse_add hbi]
    simpa using List.find?_eq_none.1 hfind bi (mem_range.2 (by omega))
  | some bi =>
    have hmem := mem_range.1 (mem_of_find?_eq_some hfind)
    have hbi : bi < BPB := hmem.trans_le (Nat.min_le_left _ _)
    have hsz : BPB * j + bi < M.sb.size := by
      have := hmem.trans_le (Nat.min_le_right _ _)
      omega
    have hfree : M.inUse s.disk (BPB * j + bi) = false := by
      have := List.find?_some hfind
      rw [inUse_add hbi]
      simpa using this
    have htake := hvol.take (p := ()) rfl hsz hfree
    rw [setUse_add hbi, update_unit] at htake
    have hdata : M.Data (BPB * j + bi) := htake.pending () _ false rfl
    have hzero := htake.zero (p := ()) rfl
    rw [update_unit] at hzero
    simp only [sec_bind, logWrite_eq hout]
    by_cases hbig : s.log.TooBig
    · simp only [hbig, if_true]
      exact hE _ s _ hj (Or.inl ⟨rfl, hbig⟩) (.refl ..)
    · simp only [hbig, if_false]
      refine ends_bind (ends_log (M := M) (a := ()) ?_
        (fun e he => hE e _ _ hj he (logs_write rfl))
        (ends_pure (hsome (BPB * j + bi) _ hdata ?_ rfl hzero)))
      · rw [sec_bind, bread_eq hdata.lt_disksize]
        exact logWrite_eq hout
      · exact (logs_write (Or.inl (bblock_add hbi).symm)).trans (logs_write (Or.inr rfl))

/-- `balloc` returns a zeroed block. -/
theorem ends_balloc {Q : ℕ → State P → Prop} (hvol : Sole M s.disk X none)
    (hout : 1 ≤ s.log.outstanding)
    (hE : ∀ e u c, c < M.sb.size → Overflow M e u → Logs s k {M.bblock c} u → E e u)
    (hQ : ∀ b u, M.Data b → Logs s k (allocBlocks M b) u → u.copy = s.copy →
      Sole M u.disk X (some (b, true)) → Q b u) :
    Ends (balloc M ROOTDEV) s Q E := by
  have h0 : 0 < BPB := by decide
  let I : ℕ → State P → Prop := fun j t => t = s ∧
    ∀ b < BPB * j, b < M.sb.size → M.inUse s.disk b = true
  refine ends_bind (ends_search I (fun j t _ hj ht => ?_) ?_ ⟨rfl, fun b hb => by omega⟩)
  · obtain ⟨rfl, hall⟩ := ht
    have hlt : BPB * j < M.sb.size := by
      rw [zero_add, Nat.lt_div_iff_mul_lt h0] at hj
      rw [mul_comm]
      omega
    refine ends_ballocIn (k := k) hvol hout hlt hE (fun hused => ⟨rfl, fun b hb hsz => ?_⟩)
      fun b u hb hu hcopy hvol' => ends_pure (hQ b u hb hu hcopy hvol')
    by_cases hbj : b < BPB * j
    · exact hall b hbj hsz
    · have hsplit : BPB * j + (b - BPB * j) = b := by omega
      have := hused (b - BPB * j) (by rw [Nat.mul_succ] at hb; omega) (by omega)
      rwa [hsplit] at this
  · rintro t ⟨rfl, hall⟩
    refine ends_panic (hE _ t 0 M.size_pos (Or.inr ⟨rfl, fun b hb => hall b ?_ hb⟩) (.refl ..))
    have := Nat.lt_mul_div_succ (M.sb.size + BPB - 1) h0
    rw [zero_add, mul_comm]
    rw [mul_comm, add_mul, one_mul] at this
    omega

/-- The inodes on a disk. -/
def inodes (M : Mount) (d : Disk) (i : ℕ) : Option Extent :=
  if i < M.sb.ninodes then readInode M d i else none

/-- Every block number in an inode is in the data area, none of them occurs twice, and the bitmap
marks the metadata and the blocks of the inodes. -/
def Consistent (M : Mount) (d : Disk) : Prop := Sole M d (inodes M d) none

/-! ## The blocks of an inode -/

/-- Entry `k` of the inode cache has the inode `x`, which is one of the inodes `X`. -/
structure Owns (M : Mount) (s : State P) (k : Slot) (X : ℕ → Option Extent) (x : Extent) :
    Prop where
  dev : (s.icache k).dev = ROOTDEV
  copy : (s.copy k).din = x.din
  inode : X (s.icache k).inum = some x
  vol : Sole M s.disk X none
  cut : x.cut = 0

namespace Owns

theorem sound (h : Owns M s k X x) : Sound M (fun _ => True) s.disk (s.icache k).inum x :=
  h.vol.inode _ x h.inode

theorem cached (h : Owns M s k X x) : Cached M s k x :=
  { h with
    onDisk := h.sound.onDisk
    below := fun j => by
      by_cases h0 : x.ptr j = 0
      · rw [h0]
        exact (Nat.zero_le _).trans_lt (Mount.bmapstart_lt.trans_le
          (Mount.nmeta_le.trans M.size_le))
      · exact (h.vol.data_ptr h.inode h0).lt_disksize }

/-- The inode is where it is, whatever its entry says of it. -/
theorem self (h : Owns M s k X x) : update X (s.icache k).inum (some x) = X :=
  update_eq_self_iff.2 h.inode.symm

/-- An inode with an indirect block number has an indirect block. -/
theorem indirect_ne (h : Owns M s k X x) {bn : ℕ} (hbn : NDIRECT ≤ bn) (hlt : bn < MAXFILE)
    (h0 : x.ptr bn ≠ 0) : x.ptr MAXFILE ≠ 0 := fun he =>
  h0 (h.sound.onDisk.ptr_indirect_eq_zero he hbn hlt)

end Owns

/-- A block that is allocated and zeroed reads as zeros. -/
theorem Sole.fetch_eq {d : Disk} {b : ℕ} (h : Sole M d X (some (b, true))) :
    Extent.fetch d b = Bytes.zero BSIZE := by
  unfold Extent.fetch
  split_ifs
  · rfl
  · exact h.zeroed () b rfl

/-- `ip->addrs[i]`, which is the address of block `j` of the inode. -/
theorem ends_addrOrAlloc {Q : ℕ → State P → Prop} {i j : ℕ} (h : Owns M s k X x)
    (hout : 1 ≤ s.log.outstanding) (haddr : x.din.addr i = x.ptr j)
    (hset : ∀ b < 2 ^ 32, (x.setAddr i b).ptr = update x.ptr j b)
    (hE : ∀ e u c, c < M.sb.size → Overflow M e u → Logs s k {M.bblock c} u → E e u)
    (hQ : ∀ y u, x.Grows y → y.ptr j ≠ 0 → (x.ptr j ≠ 0 → y = x ∧ u = s) →
      Logs s k (allocBlocks M (y.ptr j)) u →
      Owns M u k (update X (s.icache k).inum (some y)) y → Q (y.ptr j) u) :
    Ends (addrOrAlloc M k i) s Q E := by
  refine ends_bind (returns_load ?_)
  rw [h.copy, haddr]
  by_cases h0 : x.ptr j = 0
  · simp only [h0, if_true]
    refine ends_bind (returns_devOf ?_)
    rw [h.dev]
    refine ends_bind (ends_balloc (k := k) h.vol hout hE fun b u hb hu hcopy hvol => ?_)
    refine ends_bind (ends_modifyState (ends_pure ?_))
    have hptr := hset b (lt_two_pow_of_data hb)
    have hj : (x.setAddr i b).ptr j = b := by rw [hptr, update_self]
    have hb0 : b ≠ 0 := fun he => Mount.not_data_zero (he ▸ hb)
    have hg := Extent.grows_setAddr hptr h0
    have hs := hvol.inode _ x h.inode
    have hdin : (u.copy k).din = x.din := by rw [hcopy, h.copy]
    have hvol' := hvol.attach (p := ()) (b := b) h.inode (Or.inl rfl) rfl h0 hptr
      ⟨hs.lt, hs.onDisk.setAddr hptr h0 hvol.fetch_eq, by rw [hg.type]; exact hs.type,
        fun _ => trivial⟩
    rw [update_unit] at hvol'
    have hQ' := hQ (x.setAddr i b) { u with copy := update u.copy k { u.copy k with
      din := (u.copy k).din.setAddr i b } } hg (by rwa [hj]) (fun hne => absurd h0 hne) ?_
      ⟨?_, ?_, ?_, hvol', hg.cut.trans h.cut⟩
    · rwa [hj] at hQ'
    · rw [hj]
      exact hu.trans (logs_store ..)
    · rw [← h.dev, ← hu.icache]
    · simp only [update_self, hdin]
      rfl
    · simp only [hu.icache, update_self]
  · simp only [h0, if_false]
    refine ends_pure (hQ x s (.refl x) h0 (fun _ => ⟨rfl, rfl⟩) (.refl ..) ?_)
    rw [h.self]
    exact h

/-- The blocks that `bmap` may log for block `bn` of the inode, when the inode is `y` afterwards. -/
def mapBlocks (M : Mount) (y : Extent) (bn : ℕ) : Set ℕ :=
  { b | b ∈ allocBlocks M (y.ptr bn) ∨ NDIRECT ≤ bn ∧ b ∈ allocBlocks M (y.ptr MAXFILE) }

/-- A program has stopped that writes the inode `x`. It has logged blocks of `B y`, if the inode
is `y` then, and perhaps a block of the bitmap. -/
def Stuck (M : Mount) (s : State P) (k : Slot) (x : Extent) (B : Extent → Set ℕ)
    (e : Stop Wait) (u : State P) : Prop :=
  Overflow M e u ∧ ∃ y c, x.Keeps y ∧ (∀ j, y.ptr j < M.sb.size) ∧ c < M.sb.size ∧
    Logs s k (insert (M.bblock c) (B y)) u

theorem Stuck.imp {e : Stop Wait} {F G : Extent → Set ℕ} (h : Stuck M s k x F e u)
    (hFG : ∀ y, F y ⊆ G y) : Stuck M s k x G e u := by
  obtain ⟨he, y, c, hk, hlt, hc, hu⟩ := h
  exact ⟨he, y, c, hk, hlt, hc, hu.mono (Set.insert_subset_insert (hFG y))⟩

theorem Owns.ptr_lt (h : Owns M s k X x) (j : ℕ) : x.ptr j < M.sb.size := by
  by_cases h0 : x.ptr j = 0
  · rw [h0]
    exact M.size_pos
  · exact (h.vol.data_ptr h.inode h0).2

/-- The program has stopped with the inode as it is known. -/
theorem Owns.stuck {e : Stop Wait} {c : ℕ} {F : Extent → Set ℕ} {X' : ℕ → Option Extent}
    (h : Owns M t k X' y) (he : Overflow M e u) (hk : x.Keeps y) (hc : c < M.sb.size)
    (hu : Logs s k (insert (M.bblock c) (F y)) u) : Stuck M s k x F e u :=
  ⟨he, y, c, hk, h.ptr_lt, hc, hu⟩

/-- Storing the address of the allocated block in the indirect block. -/
theorem ends_writeWord {Q : Unit → State P → Prop} {j b : ℕ} (h : Owns M s k X x)
    (hcopy : u.copy = s.copy) (hu : Logs s k B u) (hvol : Sole M u.disk X (some (b, true)))
    (hout : 1 ≤ u.log.outstanding) (hj : j < NINDIRECT) (hm : x.ptr MAXFILE ≠ 0)
    (h0 : x.ptr (NDIRECT + j) = 0) (hb : M.Data b) (hE : ∀ e, Overflow M e u → E e u)
    (hQ : ∀ t, Logs u k {x.ptr MAXFILE} t →
      Owns M t k (update X (s.icache k).inum (some (x.setWord j b))) (x.setWord j b) → Q () t) :
    Ends (atomic do
      let bp ← bread M ROOTDEV (x.ptr MAXFILE)
      logWrite (x.ptr MAXFILE) (bp.setWord j b)) u Q E := by
  have hs := hvol.inode _ x h.inode
  have hptr := Extent.ptr_setWord h.cut hj (lt_two_pow_of_data hb)
  have hread : u.disk (x.ptr MAXFILE) = x.ind := (hs.onDisk.ind_eq hm).symm
  refine ends_log (M := M) (a := ()) (b := x.ptr MAXFILE) (d := x.ind.setWord j b) ?_ hE
    (hQ _ (logs_write rfl) ⟨?_, ?_, ?_, ?_, h.cut⟩)
  · rw [sec_bind, bread_eq (hvol.data_ptr h.inode hm).lt_disksize, hread]
    exact logWrite_eq hout
  · rw [← h.dev, ← hu.icache]
    rfl
  · change (u.copy k).din = _
    rw [hcopy, h.copy]
    rfl
  · change update X _ _ (u.icache k).inum = _
    rw [hu.icache, update_self]
  · have hon := hs.onDisk.setWord hptr hj h0 hm hvol.fetch_eq
      (hvol.ptr_ne_pend (p := ()) h.inode hm rfl).symm fun l hl he => by
        have := (hvol.ptr_inj h.inode h.inode hm he.symm).2
        omega
    have hvol' := hvol.attach (p := ()) (b := b) h.inode
      (Or.inr ⟨MAXFILE, x.ind.setWord j b, hm, rfl⟩) rfl h0 hptr
      ⟨hs.lt, hon, hs.type, fun _ => trivial⟩
    rwa [update_unit] at hvol'

/-- `bmap` returns the address of a block of the inode. -/
theorem ends_bmap {Q : ℕ → State P → Prop} {bn : ℕ} (h : Owns M s k X x)
    (hout : 1 ≤ s.log.outstanding) (hbn : bn < MAXFILE)
    (hE : ∀ e u, Stuck M s k x (mapBlocks M · bn) e u → E e u)
    (hQ : ∀ y u, x.Grows y → y.ptr bn ≠ 0 → (x.ptr bn ≠ 0 → y = x ∧ u = s) →
      Logs s k (mapBlocks M y bn) u → Owns M u k (update X (s.icache k).inum (some y)) y →
      Q (y.ptr bn) u) :
    Ends (bmap M k bn) s Q E := by
  have hmax : MAXFILE = NDIRECT + NINDIRECT := rfl
  have hstop : ∀ e u c, c < M.sb.size → Overflow M e u → Logs s k {M.bblock c} u → E e u :=
    fun e u c hc he hu => hE e u (h.stuck he (fun _ _ => rfl) hc (hu.mono fun _ hb => Or.inl hb))
  unfold bmap
  by_cases hd : bn < NDIRECT
  · simp only [hd, if_true]
    exact ends_addrOrAlloc h hout (Extent.ptr_direct h.cut hd).symm
      (fun b hb => Extent.ptr_setAddr h.cut hd hb) hstop
      fun y u hg hy hyx hu hown => hQ y u hg hy hyx (hu.mono fun _ hb => Or.inl hb) hown
  · have hj : bn - NDIRECT < NINDIRECT := by omega
    have hbn' : NDIRECT + (bn - NDIRECT) = bn := by omega
    have hle : NDIRECT ≤ bn := by omega
    simp only [hd, hj, if_false, if_true]
    refine ends_bind (ends_addrOrAlloc (j := MAXFILE) h hout
      (Extent.ptr_maxfile (h.cut.trans_le (Nat.zero_le _))).symm
      (fun b hb => Extent.ptr_setAddr_indirect h.cut hb) hstop
      fun y u hg hm hyx hu hown => ?_)
    have hsub : allocBlocks M (y.ptr MAXFILE) ⊆ mapBlocks M y bn := fun _ hb => Or.inr ⟨hle, hb⟩
    -- A block that the inode has is below an indirect block that it has.
    have hyx' : x.ptr bn ≠ 0 → y = x ∧ u = s := fun h0 => hyx (h.indirect_ne hle hbn h0)
    have hword : (u.disk (y.ptr MAXFILE)).word (bn - NDIRECT) = y.ptr bn := by
      rw [Extent.ptr_indirect hown.cut hle hbn, hown.sound.onDisk.ind_eq hm]
    refine ends_bind (returns_devOf ?_)
    rw [hown.dev]
    refine ends_bind (returns_readBlock (·.word (bn - NDIRECT))
      (hown.cached.below _) ?_)
    rw [hword]
    by_cases h0 : y.ptr bn = 0
    · have hx0 : x.ptr bn = 0 := by
        by_contra hne
        rw [(hyx' hne).1] at h0
        exact hne h0
      simp only [h0, if_true]
      have hout' : 1 ≤ u.log.outstanding := by rw [hu.outstanding]; exact hout
      refine ends_bind (ends_balloc (k := k) hown.vol hout' (fun e v c hc he hv => ?_)
        fun b v hb hv hcopy hvol => ?_)
      · exact hE e v (hown.stuck he hg.ptr hc ((hu.mono (hsub.trans (Set.subset_insert ..))).trans
          (hv.mono fun _ hb => Or.inl hb)))
      have hptr := Extent.ptr_setWord hown.cut hj (lt_two_pow_of_data hb)
      have hself : (y.setWord (bn - NDIRECT) b).ptr bn = b := by rw [hptr, hbn', update_self]
      have hind : (y.setWord (bn - NDIRECT) b).ptr MAXFILE = y.ptr MAXFILE := by
        rw [hptr, hbn', update_of_ne hbn.ne']
      have hb0 : b ≠ 0 := fun he => Mount.not_data_zero (he ▸ hb)
      have hg' := hg.trans (Extent.grows_setWord hptr (by rw [hbn']; exact h0))
      have hlogs : Logs s k (mapBlocks M (y.setWord (bn - NDIRECT) b) bn) v := by
        refine (hu.mono fun c hc => Or.inr ⟨hle, by rw [hind]; exact hc⟩).trans
          (hv.mono fun c hc => Or.inl ?_)
        rw [hself]
        exact hc
      have hlt : ∀ j, (y.setWord (bn - NDIRECT) b).ptr j < M.sb.size := by
        intro j
        rw [hptr, hbn']
        by_cases hj : j = bn
        · rw [hj, update_self]
          exact hb.2
        · rw [update_of_ne hj]
          exact hown.ptr_lt j
      refine ends_bind (ends_writeWord hown hcopy hv hvol (by rw [hv.outstanding]; exact hout') hj
        hm (by rw [hbn']; exact h0) hb (fun e he => hE e v ⟨he, _, b, hg'.ptr, hlt, hb.2,
          hlogs.mono (Set.subset_insert ..)⟩) fun w hw hown' => ends_pure ?_)
      have hQ' := hQ (y.setWord (bn - NDIRECT) b) w hg' (by rwa [hself])
        (fun hne => absurd hx0 hne) (hlogs.trans (hw.mono ?_)) ?_
      · rwa [hself] at hQ'
      · rintro c hc
        exact Or.inr ⟨hle, Or.inr (by rw [hind]; exact hc)⟩
      · rwa [hu.icache, update_idem] at hown'
    · simp only [h0, if_false]
      exact ends_pure (hQ y u hg h0 hyx' (hu.mono hsub) hown)

/-! ## Writing the bytes of a file -/

theorem mapBlocks_subset {bn : ℕ} (h : x.Keeps y) (h0 : x.ptr bn ≠ 0)
    (hm : NDIRECT ≤ bn → x.ptr MAXFILE ≠ 0) : mapBlocks M x bn ⊆ mapBlocks M y bn := by
  rintro b (hb | ⟨hle, hb⟩)
  · exact Or.inl (by rwa [h bn h0])
  · exact Or.inr ⟨hle, by rwa [h MAXFILE (hm hle)]⟩

/-- The blocks that the loop of `writei` may log, when the inode is `y` afterwards. -/
def writeBlocks (M : Mount) (y : Extent) (off n : ℕ) : Set ℕ :=
  { b | ∃ bn, Touches off n bn ∧ b ∈ mapBlocks M y bn }

theorem mapBlocks_subset_writeBlocks {off n bn : ℕ} (h : Touches off n bn) :
    mapBlocks M y bn ⊆ writeBlocks M y off n := fun _ hb => ⟨bn, h, hb⟩

theorem writeBlocks_subset {off m n : ℕ} :
    writeBlocks M y (off + m) n ⊆ writeBlocks M y off (m + n) := by
  rintro b ⟨bn, ht, hb⟩
  exact ⟨bn, touches_add.2 (Or.inr ht), hb⟩

/-- Writing a data block of the inode. -/
theorem ends_writeBlock {Q : Unit → State P → Prop} {bn : ℕ} (f : Block → Block)
    (h : Owns M s k X x) (hout : 1 ≤ s.log.outstanding) (hbn : bn < MAXFILE) (hptr : x.ptr bn ≠ 0)
    (hE : ∀ e, Overflow M e s → E e s)
    (hQ : ∀ t, Logs s k {x.ptr bn} t →
      Owns M t k (update X (s.icache k).inum (some (x.setBlock bn (f (x.blk bn)))))
        (x.setBlock bn (f (x.blk bn))) → Q () t) :
    Ends (atomic do
      let bp ← bread M ROOTDEV (x.ptr bn)
      logWrite (x.ptr bn) (f bp)) s Q E := by
  have hread : s.disk (x.ptr bn) = x.blk bn := (h.sound.onDisk.blk_eq hbn hptr).symm
  refine ends_log (M := M) (a := ()) (b := x.ptr bn) (d := f (x.blk bn)) ?_ hE
    (hQ _ (logs_write rfl) ⟨h.dev, h.copy, update_self .., ?_, h.cut⟩)
  · rw [sec_bind, bread_eq (h.vol.data_ptr h.inode hptr).lt_disksize, hread]
    exact logWrite_eq hout
  · have hon := h.sound.onDisk.setBlock (f (x.blk bn)) hbn hptr fun j hj =>
      (h.vol.ptr_inj h.inode h.inode (by rwa [hj]) hj).2
    exact h.vol.replace h.inode (Or.inr ⟨bn, f (x.blk bn), hptr, rfl⟩)
      (Extent.ptr_setBlock bn _) ⟨h.sound.lt, hon, h.sound.type, fun _ => trivial⟩

/-- The loop of `writei`. By induction on the bound of its passes, each of which writes in one
block. -/
theorem ends_writeLoop : ∀ {fuel off n : ℕ} {src : ℕ → UInt8} {s : State P} {X : ℕ → Option Extent}
    {x : Extent} {Q : Unit → State P → Prop}, Owns M s k X x → 1 ≤ s.log.outstanding →
      n ≤ fuel → off + n ≤ MAXFILE * BSIZE →
      (∀ e u, Stuck M s k x (writeBlocks M · off n) e u → E e u) →
      (∀ y u, x.Wrote off n src y → Logs s k (writeBlocks M y off n) u →
        Owns M u k (update X (s.icache k).inum (some y)) y → Q () u) →
      Ends (writeLoop M k fuel src off n) s Q E
  | 0, off, n, src, s, X, x, Q, h, _, hn, _, _, hQ => by
    obtain rfl : n = 0 := by omega
    exact ends_pure (hQ x s (.zero x off src) (.refl ..) (by rw [h.self]; exact h))
  | fuel + 1, off, n, src, s, X, x, Q, h, hout, hn, hmax, hE, hQ => by
    unfold writeLoop
    by_cases h0 : n = 0
    · subst h0
      exact ends_pure (hQ x s (.zero x off src) (.refl ..) (by rw [h.self]; exact h))
    · simp only [h0, if_false]
      have hB : BSIZE = 512 := rfl
      obtain ⟨m, hm⟩ : ∃ m, m = min n (BSIZE - off % BSIZE) := ⟨_, rfl⟩
      have hmod := Nat.mod_lt off (show 0 < BSIZE by decide)
      have hm0 : 0 < m := by omega
      have hmn : m + (n - m) = n := by omega
      have hbn : off / BSIZE < MAXFILE := by
        rw [Nat.div_lt_iff_lt_mul (by decide)]
        omega
      have htouch : Touches off n (off / BSIZE) := ⟨off, le_refl _, by omega, rfl⟩
      refine ends_bind (ends_bmap h hout hbn (fun e u hu => hE e u
        (hu.imp fun _ => mapBlocks_subset_writeBlocks htouch)) fun y u hg hptr hyx hu hown => ?_)
      rw [← hm]
      refine ends_bind (returns_devOf ?_)
      rw [hown.dev]
      have hind : NDIRECT ≤ off / BSIZE → y.ptr MAXFILE ≠ 0 := fun hle =>
        hown.indirect_ne hle hbn hptr
      have hout' : 1 ≤ u.log.outstanding := by rw [hu.outstanding]; exact hout
      refine ends_bind (ends_writeBlock (fun bp => bp.blit (off % BSIZE) ((List.range m).map src))
        hown hout' hbn hptr (fun e he => hE e u (hown.stuck he hg.ptr M.size_pos (hu.mono
          ((mapBlocks_subset_writeBlocks htouch).trans (Set.subset_insert ..)))))
        fun v hv hown' => ?_)
      obtain ⟨z, hz⟩ : ∃ z, z = y.setBlock (off / BSIZE)
        ((y.blk (off / BSIZE)).blit (off % BSIZE) ((List.range m).map src)) := ⟨_, rfl⟩
      have hw : x.Wrote off m src z := hz ▸ .block hg hptr (fun h0 => (hyx h0).1) (by omega) hm0
      rw [← hz, hu.icache, update_idem] at hown'
      have hzy : z.ptr = y.ptr := by rw [hz]; rfl
      -- What has been logged so far are blocks of the inode, which keeps them.
      have hsofar : ∀ w, z.Keeps w → Logs s k (writeBlocks M w off n) v := by
        intro w hzw
        have hyw : y.Keeps w := fun j hj => by
          rw [← hzy] at hj ⊢
          exact hzw j hj
        have hsub : mapBlocks M y (off / BSIZE) ⊆ writeBlocks M w off n :=
          (mapBlocks_subset hyw hptr hind).trans (mapBlocks_subset_writeBlocks htouch)
        refine (hu.mono hsub).trans (hv.mono ?_)
        rintro b rfl
        exact hsub (Or.inl (Or.inr rfl))
      have hrest : ∀ w, writeBlocks M w (off + m) (n - m) ⊆ writeBlocks M w off n := fun w => by
        conv_rhs => rw [← hmn]
        exact writeBlocks_subset
      have hicache : v.icache = s.icache := by rw [hv.icache, hu.icache]
      refine ends_writeLoop hown' (by rw [hv.outstanding]; exact hout') (by omega) (by omega)
        (fun e w hw' => ?_) fun y' w hw' hlogs hown'' => ?_
      · obtain ⟨he, y', c, hk, hlt, hc, hlogs⟩ := hw'
        exact hE e w ⟨he, y', c, Extent.Keeps.trans hw.ptr hk, hlt, hc,
          ((hsofar y' hk).mono (Set.subset_insert ..)).trans
            (hlogs.mono (Set.insert_subset_insert (hrest y')))⟩
      have hw'' := hw.trans hw'
      rw [hmn] at hw''
      rw [hicache, update_idem] at hown''
      exact hQ y' w hw'' ((hsofar y' hw'.ptr).trans (hlogs.mono (hrest y'))) hown''

/-! ## Storing the inode -/

/-- A store that moves no block. -/
theorem ends_store {Q : Unit → State P → Prop} {f : Dinode → Dinode} (h : Owns M s k X x)
    (haddrs : (f x.din).addrs = x.din.addrs) (htype : (f x.din).type ≠ 0)
    (hQ : ∀ t, Logs s k ∅ t → t.disk = s.disk →
      Owns M t k (update X (s.icache k).inum (some (x.setDin (f x.din)))) (x.setDin (f x.din)) →
      Q () t) : Ends (store k f) s Q E := by
  refine ends_modifyState (hQ _ (logs_store ..) rfl ⟨h.dev, ?_, update_self .., ?_, h.cut⟩)
  · simp only [update_self, h.copy]
    rfl
  · exact h.vol.replace h.inode (Or.inl rfl) (Extent.ptr_setDin haddrs)
      ⟨h.sound.lt, h.sound.onDisk.setDin haddrs, htype, fun _ => trivial⟩

/-- `iupdate` brings the disk up to date. -/
theorem ends_iupdate {Q : Unit → State P → Prop} (h : Owns M s k X x)
    (hout : 1 ≤ s.log.outstanding) (hE : ∀ e, Overflow M e s → E e s)
    (hQ : ∀ t, Logs s k {M.iblock (s.icache k).inum} t →
      t.disk = M.putDinode s.disk (s.icache k).inum x.din → t.copy = s.copy → Owns M t k X x →
      Q () t) : Ends (iupdate M k) s Q E := by
  have hlt : M.iblock (s.icache k).inum < M.disksize :=
    (Mount.iblock_lt_nmeta h.sound.lt).trans_le (Mount.nmeta_le.trans M.size_le)
  refine ends_log (M := M) (iupdateSec_eq h.dev hlt hout) hE (hQ _ (logs_write rfl) ?_ rfl
    { h with vol := ?_ })
  · rw [h.copy]
    rfl
  · exact h.vol.putDinode h.sound.lt (s.copy k).din

/-- The inodes on the disk are not among the blocks that the loop of `writei` logs. -/
theorem Owns.iblock_not_mem (h : Owns M s k X x) {off n i : ℕ} (hi : i < M.sb.ninodes)
    (hblk : ∀ bn, Touches off n bn → bn < MAXFILE ∧ x.ptr bn ≠ 0) :
    M.iblock i ∉ writeBlocks M x off n := by
  have hdata : ∀ j, x.ptr j ≠ 0 → M.iblock i ∉ allocBlocks M (x.ptr j) := by
    rintro j hj (hb | hb)
    · exact Mount.iblock_ne_bblock hi _ hb
    · exact (h.vol.data_ptr h.inode hj).ne_iblock hi hb
  rintro ⟨bn, ht, hb | ⟨hle, hb⟩⟩
  · exact hdata bn (hblk bn ht).2 hb
  · exact hdata MAXFILE (h.indirect_ne hle (hblk bn ht).1 (hblk bn ht).2) hb

/-- `writei` of a file or a directory. -/
theorem ends_writei {Q : ℤ → State P → Prop} {off n : UInt32} {src : ℕ → UInt8}
    (h : Owns M s k X x) (hout : 1 ≤ s.log.outstanding) (ht : x.din.type ≠ T_DEV)
    (hE : ∀ e u, ¬ x.file.Refuses off n → Stuck M s k x
      (writeBlocks M · off.toNat n.toNat ∪ {M.iblock (s.icache k).inum}) e u → E e u)
    (hbad : x.file.Refuses off n → Q (-1) s)
    (hok : ∀ y u, ¬ x.file.Refuses off n → x.Wrote off.toNat n.toNat src y →
      Logs s k (writeBlocks M y off.toNat n.toNat ∪ {M.iblock (s.icache k).inum}) u →
      Owns M u k (update X (s.icache k).inum (some (y.setEnd off n))) (y.setEnd off n) →
      (∀ j < M.sb.ninodes, M.dinode u.disk j =
        if j = (s.icache k).inum ∧ n > 0 ∧ off + n > x.din.size then (y.setEnd off n).din
        else M.dinode s.disk j) → Q n.toNat u) :
    Ends (writei M p k src off n) s Q E := by
  refine ends_bind (returns_load ?_)
  rw [h.copy]
  simp only [ht, if_false]
  by_cases h1 : off > x.din.size ∨ off + n < off
  · simp only [h1, if_true]
    exact ends_pure (hbad (h1.imp id Or.inl))
  by_cases h2 : (off + n).toNat > MAXFILE * BSIZE
  · simp only [h1, h2, if_false, if_true]
    exact ends_pure (hbad (Or.inr (Or.inr h2)))
  simp only [h1, h2, if_false]
  have hnot : ¬ x.file.Refuses off n := fun hr => hr.elim (fun hr => h1 (Or.inl hr)) fun hr =>
    hr.elim (fun hr => h1 (Or.inr hr)) h2
  obtain ⟨-, -, hmax⟩ := Extent.bounds hnot
  refine ends_bind (ends_writeLoop h hout (le_refl _) hmax
    (fun e u hu => hE e u hnot (hu.imp fun _ => Set.subset_union_left)) fun y u hw hu hown => ?_)
  have hblk : ∀ bn, Touches off.toNat n.toNat bn → bn < MAXFILE ∧ y.ptr bn ≠ 0 := fun bn hbn =>
    ⟨lt_of_mul_lt_mul_right (hbn.lt.trans_le hmax) (Nat.zero_le _), hw.alloc bn hbn⟩
  have hdin : ∀ j < M.sb.ninodes, M.dinode u.disk j = M.dinode s.disk j := fun j hj =>
    hu.dinode (hown.iblock_not_mem hj hblk)
  have hlogs := hu.mono (C := writeBlocks M y off.toNat n.toNat ∪ {M.iblock (s.icache k).inum})
    Set.subset_union_left
  by_cases h3 : n > 0 ∧ off + n > x.din.size
  · have hend := hw.setEnd_pos h3
    rw [if_pos h3]
    refine ends_bind (ends_store (f := ({ · with size := off + n })) hown rfl hown.sound.type
      fun v hv hvd hown' => ?_)
    rw [hu.icache, update_idem] at hown'
    have hicache : v.icache = s.icache := by rw [hv.icache, hu.icache]
    have hlogs' := hlogs.trans (hv.mono (Set.empty_subset _))
    refine ends_bind (ends_iupdate hown' (by rw [hlogs'.outstanding]; exact hout)
      (fun e he => hE e v hnot (hown.stuck he hw.ptr M.size_pos
        (hlogs'.mono (Set.subset_insert ..)))) fun w hlog hwd _ hown'' => ends_pure ?_)
    rw [hicache] at hlog hwd
    refine hok y w hnot hw (hlogs'.trans (hlog.mono Set.subset_union_right)) ?_ fun j hj => ?_
    · rwa [hend]
    · rw [hwd, hvd, hend]
      by_cases hji : j = (s.icache k).inum
      · rw [if_pos ⟨hji, h3⟩, hji, Mount.dinode_putDinode]
      · rw [if_neg fun hc => hji hc.1, Mount.dinode_putDinode_of_ne hji, hdin j hj]
  · rw [if_neg h3]
    refine ends_pure (hok y u hnot hw hlogs (by rwa [hw.setEnd_neg h3]) fun j hj => ?_)
    rw [if_neg fun hc => h3 hc.2, hdin j hj]

end Fs

end Xv6
