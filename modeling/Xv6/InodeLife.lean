import Xv6.SoloCalls

/-!
# The life of an inode

`ialloc`, `itrunc` and the part of `iput` that frees an inode, executed alone. `itrunc` gives the
direct blocks, the blocks of the indirect block and the indirect block itself back to the bitmap
(`Truncating`). No block is given back twice, because the bitmap marks every block that the inode
still has, so the panic of `bfree` is never reached. When `iput` has dropped the last pointer to an
inode without links the inode is free, and the blocks of the others are in order (`ends_iputFree`).
-/

set_option linter.unusedSectionVars false

namespace Xv6.Fs

open Prog Function

variable {P : Type} [DecidableEq P] {M : Mount} {s t u : State P} {k : Slot} {x y : Extent}
  {X : ℕ → Option Extent} {c i : ℕ}

/-! ## How calls stop -/

/-- The panics of system calls : the inodes or the entries of the inode cache are used up, a name
leads nowhere, a directory is full, links are lost, or a table of the kernel is misused. -/
abbrev endings : List String := ["iget: no inodes", "ialloc: no inodes", "ilock: no type",
  "dirlink", "unlink: nlink < 1", "trap", "fileclose", "filedup", "fileread", "filewrite"]

/-- How system calls may stop : the log or the disk has no room, a process waits, or the kernel
panics. -/
def Stops (M : Mount) (e : Stop Wait) (u : State P) : Prop :=
  Overflow M e u ∨ (∃ w, e = .blocked w) ∨ ∃ msg ∈ endings, e = .panic msg

namespace Stops

theorem overflow (e : Stop Wait) (u : State P) (h : Overflow M e u) : Stops M e u := Or.inl h

theorem wait (w : Wait) (u : State P) : Stops M (.blocked w) u := Or.inr (Or.inl ⟨w, rfl⟩)

theorem panic {msg : String} (h : msg ∈ endings) (u : State P) : Stops M (.panic msg) u :=
  Or.inr (Or.inr ⟨msg, h, rfl⟩)

end Stops

/-! ## A new inode -/

/-- The state after a free inode was given a type. -/
def State.alloc (M : Mount) (s : State P) (i : ℕ) (type : Int16) : State P :=
  s.write (M.iblock i) (putDinodeIn (s.disk (M.iblock i)) (i % IPB) (Dinode.fresh type))

theorem Coherent.alloc (h : Coherent M s) (hfree : (M.dinode s.disk i).type = 0) (type : Int16) :
    Coherent M (s.alloc M i type) := by
  refine { h with copy := fun m hm hv => ?_ }
  obtain ⟨hdin, htype⟩ := h.copy m hm hv
  have hne : (s.icache m).inum ≠ i := fun he => by
    rw [hdin, he] at htype
    exact htype hfree
  refine ⟨hdin.trans ?_, htype⟩
  exact (Mount.dinode_putDinode_of_ne hne _).symm

section

variable {E : Stop Wait → State P → Prop} (h : Coherent M s) (hout : 1 ≤ s.log.outstanding)
  {type : Int16} (hE : ∀ e u, Overflow M e u → E e u)
  (hroom : ∀ u, E (.panic "iget: no inodes") u) (hfull : ∀ u, E (.panic "ialloc: no inodes") u)
  {Q : Slot → State P → Prop}
  (hQ : ∀ i l t, 0 < i → i < M.sb.ninodes → (M.dinode s.disk i).type = 0 →
    Taken (s.alloc M i type) l i t → Q l t)

include h hout hE hroom hQ

/-- A pass of the loop of `ialloc`. -/
theorem Coherent.ends_iallocAt {j : ℕ} (h0 : 0 < j) (hj : j < M.sb.ninodes) :
    Ends (iallocAt M ROOTDEV type j) s (fun r t =>
      match r with
      | some l => Q l t
      | none => t = s) E := by
  have hlt : M.iblock j < M.disksize :=
    (Mount.iblock_lt_nmeta hj).trans_le (Mount.nmeta_le.trans M.size_le)
  refine ends_bind (ends_atomic ?_)
  rw [sec_bind, bread_eq hlt]
  simp only
  by_cases hfree : (dinodeIn (s.disk (M.iblock j)) (j % IPB)).type = 0
  · simp only [hfree, if_true, sec_bind, logWrite_eq hout]
    by_cases hbig : s.log.TooBig
    · simp only [hbig, if_true]
      exact hE _ _ (Or.inl ⟨rfl, hbig⟩)
    · simp only [hbig, if_false]
      exact ends_bind ((h.alloc hfree type).ends_iget (Or.inr (hroom _)) fun l t ht =>
        ends_pure (hQ j l t h0 hj hfree ht))
  · simp only [hfree, if_false]
    exact ends_pure rfl

include hfull

/-- `ialloc` gives a free inode a type, and returns a pointer to it. -/
theorem Coherent.ends_ialloc : Ends (ialloc M ROOTDEV type) s Q E := by
  refine ends_bind (ends_search (fun _ t => t = s) (fun j t h0 hj ht => ?_) ?_ rfl)
  · subst ht
    refine (h.ends_iallocAt hout hE hroom hQ h0 (by omega)).mono fun r u hr => ?_
    cases r with
    | some l => exact ends_pure hr
    | none => exact hr
  · intro t _
    exact ends_panic (hfull t)

end

/-! ## Truncation -/

/-- The blocks of the bitmap. -/
def bitmapBlocks (M : Mount) : Set ℕ := {b | ∃ c < M.sb.size, b = M.bblock c}

/-- From `s` to `t` the blocks below `c` of the inode in entry `k` were freed, with their addresses
in the inode. It was `x` and is `y` now. -/
structure Truncating (M : Mount) (s : State P) (k : Slot) (X : ℕ → Option Extent) (x : Extent)
    (c : ℕ) (y : Extent) (t : State P) : Prop where
  logs : Logs s k (bitmapBlocks M) t
  copy : (t.copy k).din = y.din
  vol : Sole M t.disk (update X (s.icache k).inum (some y)) none
  din : ∃ addrs, y.din = { x.din with addrs := addrs }
  cut : y.cut ≤ c
  ptr : ∀ j < c, y.ptr j = 0
  addr : ∀ j < c, j < NDIRECT → y.din.addr j = 0

namespace Truncating

theorem sound (h : Truncating M s k X x c y t) :
    Sound M (fun _ => True) t.disk (s.icache k).inum y :=
  h.vol.inode _ y (update_self ..)

/-- A block that the inode does not have. -/
theorem next (h : Truncating M s k X x c y t) (hptr : y.ptr c = 0)
    (haddr : c < NDIRECT → y.din.addr c = 0) : Truncating M s k X x (c + 1) y t := by
  have hcase : ∀ j, j < c + 1 → j < c ∨ j = c := fun j hj => by omega
  refine ⟨h.logs, h.copy, h.vol, h.din, h.cut.trans (Nat.le_succ c), fun j hj => ?_,
    fun j hj hd => ?_⟩
  · rcases hcase j hj with hj | rfl
    · exact h.ptr j hj
    · exact hptr
  · rcases hcase j hj with hj | rfl
    · exact h.addr j hj hd
    · exact haddr hd

/-- `bfree` of the next block. The bitmap marks the blocks of every inode, so the block is not
free. -/
theorem ends_bfree (h : Truncating M s k X x c y t) (hout : 1 ≤ s.log.outstanding)
    (h0 : y.ptr c ≠ 0) {Q : Unit → State P → Prop}
    (hQ : ∀ u, Logs s k (bitmapBlocks M) u → u.copy = t.copy →
      Sole M u.disk (update X (s.icache k).inum (some (y.cutTo (c + 1)))) none → Q () u) :
    Ends (bfree M ROOTDEV (y.ptr c)) t Q (Stops M) := by
  have hX : update X (s.icache k).inum (some y) (s.icache k).inum = some y := update_self ..
  have hdata := h.vol.data_ptr hX h0
  have hlt : M.bblock (y.ptr c) < M.disksize :=
    (Mount.bblock_lt hdata.2).trans_le (Mount.nmeta_le.trans M.size_le)
  have huse : bitIn (t.disk (M.bblock (y.ptr c))) (y.ptr c % BPB) = true :=
    h.vol.excl.used_of_eq (place_inode hX c) h0
  refine ends_log (M := M) (b := M.bblock (y.ptr c))
    (d := clearBitIn (t.disk (M.bblock (y.ptr c))) (y.ptr c % BPB)) ?_ (fun e => .overflow e t)
    (hQ _ (h.logs.trans (logs_write ⟨_, hdata.2, rfl⟩)) rfl ?_)
  · simp only [sec_bind, bread_eq hlt, huse, Bool.not_true]
    exact logWrite_eq (by rwa [h.logs.outstanding])
  · have hs := h.sound
    have hvol := h.vol.drop hX h0 (Extent.ptr_cutTo h.cut h.ptr)
      ⟨hs.lt, hs.onDisk.cutTo h.cut h.ptr, hs.type, fun _ => trivial⟩
    rwa [update_idem] at hvol

/-- The fields of the inode are stored without a change of its blocks. -/
theorem store_vol {d : Disk} {i : ℕ} {y z : Extent} (h : Sole M d (update X i (some y)) none)
    (hptr : z.ptr = y.ptr) (hind : z.ind = y.ind) (hblk : z.blk = y.blk)
    (htype : z.din.type ≠ 0) : Sole M d (update X i (some z)) none := by
  have hs := h.inode i y (update_self ..)
  have := h.replace (update_self ..) (Or.inl rfl) hptr
    ⟨hs.lt, hs.onDisk.of_ptr hptr hind hblk, htype, fun _ => trivial⟩
  rwa [update_idem] at this

/-- One direct block of `itrunc`. -/
theorem ends_direct (h : Truncating M s k X x c y t) (hdev : (s.icache k).dev = ROOTDEV)
    (hout : 1 ≤ s.log.outstanding) (hc : c < NDIRECT) :
    Ends (itruncDirect M k c) t (fun _ u => ∃ z, Truncating M s k X x (c + 1) z u) (Stops M) := by
  have haddr : y.ptr c = y.din.addr c := by simp [Extent.ptr, not_lt.2 h.cut, hc]
  refine ends_bind (returns_load ?_)
  rw [h.copy, ← haddr]
  by_cases h0 : y.ptr c = 0
  · simp only [h0, ne_eq, not_true_eq_false, if_false]
    exact ends_pure ⟨y, h.next h0 fun _ => haddr ▸ h0⟩
  simp only [h0, ne_eq, not_false_eq_true, if_true]
  refine ends_bind (returns_devOf ?_)
  rw [h.logs.icache, hdev]
  refine ends_bind (h.ends_bfree hout h0 fun u hu hcopy hvol => ends_modifyState ?_)
  obtain ⟨a, ha⟩ := h.din
  have hz : (u.copy k).din = y.din := by rw [hcopy, h.copy]
  refine ⟨(y.cutTo (c + 1)).setAddr c 0, hu.trans (logs_store ..), ?_, ?_, ?_, le_refl _,
    fun j hj => Extent.ptr_of_cut hj, fun j hj hd => ?_⟩
  · simp only [update_self, hz]
    rfl
  · refine store_vol hvol (Extent.ptr_setAddr_of_cut hc (Nat.lt_succ_self c) 0) rfl rfl ?_
    exact h.sound.type
  · exact ⟨_, by rw [Extent.setAddr, Dinode.setAddr, Extent.cutTo, ha]⟩
  · change ((y.din).setAddr c 0).addr j = 0
    by_cases hjc : j = c
    · rw [hjc, Dinode.addr_setAddr_self _ (by omega) (by decide)]
    · rw [Dinode.addr_setAddr_of_ne _ hjc, h.addr j (by omega) hd]

/-- The loop of `itrunc` over the blocks of the indirect block. -/
theorem ends_indirect (h : Truncating M s k X x NDIRECT y t) (hout : 1 ≤ s.log.outstanding) :
    Ends (forRange (itruncIndirect M ROOTDEV y.ind) 0 NINDIRECT) t
      (fun _ u => ∃ z, Truncating M s k X x MAXFILE z u ∧ z.din = y.din) (Stops M) := by
  have hmax : MAXFILE = NDIRECT + NINDIRECT := rfl
  refine (ends_forRange (fun j u => ∃ z, Truncating M s k X x (NDIRECT + j) z u ∧
    z.ind = y.ind ∧ z.din = y.din) (fun j u _ hj hu => ?_)
    ⟨y, show Truncating M s k X x (NDIRECT + 0) y t from h, rfl, rfl⟩).mono ?_
  · obtain ⟨z, hz, hind, hdin⟩ := hu
    have hword : y.ind.word j = z.ptr (NDIRECT + j) := by
      have h1 : ¬ NDIRECT + j < z.cut := not_lt.2 hz.cut
      have h2 : NDIRECT + j < MAXFILE := by omega
      simp [Extent.ptr, h1, h2, hind]
    unfold itruncIndirect
    rw [hword]
    split_ifs with h0
    · refine hz.ends_bfree hout h0 fun v hv hcopy hvol => ?_
      have h1 : ¬ MAXFILE < NDIRECT + j + 1 := by omega
      refine ⟨z.cutTo (NDIRECT + j + 1), ⟨hv, by rw [hcopy, hz.copy]; rfl, hvol, hz.din, le_refl _,
        fun l hl => Extent.ptr_of_cut hl, fun l _ hd => hz.addr l (by omega) hd⟩, ?_, hdin⟩
      rw [Extent.cutTo, if_neg h1, hind]
    · have h1 : z.ptr (NDIRECT + j) = 0 := by simpa using h0
      exact ends_pure ⟨z, hz.next h1 fun h => by omega, hind, hdin⟩
  · rintro - u ⟨z, hz, -, hdin⟩
    rw [zero_add, ← hmax] at hz
    exact ⟨z, hz, hdin⟩

end Truncating

/-- An inode without blocks. -/
def Dinode.truncated (din : Dinode) : Dinode := { din with size := 0, addrs := fun _ => 0 }

theorem addr_truncated (din : Dinode) (j : ℕ) : (Dinode.truncated din).addr j = 0 := by
  simp [Dinode.addr, Dinode.truncated]

/-- From `s` to `u` the inode in entry `k`, which was `x`, has lost its blocks. -/
structure Truncated (M : Mount) (s : State P) (k : Slot) (X : ℕ → Option Extent) (x : Extent)
    (u : State P) : Prop where
  logs : ∃ B, Logs s k B u
  dinode : ∀ j < M.sb.ninodes, j ≠ (s.icache k).inum → M.dinode u.disk j = M.dinode s.disk j
  owns : Owns M u k (update X (s.icache k).inum (some (.bare (Dinode.truncated x.din))))
    (.bare (Dinode.truncated x.din))

/-- The end of `itrunc`, when all blocks are freed. -/
theorem Truncating.ends_end (h : Truncating M s k X x (MAXFILE + 1) y t)
    (hdev : (s.icache k).dev = ROOTDEV) (hout : 1 ≤ s.log.outstanding)
    (hind : y.din.addr NDIRECT = 0) {Q : Unit → State P → Prop}
    (hQ : ∀ u, Truncated M s k X x u → Q () u) :
    Ends (store k ({ · with size := 0 }) >>= fun _ => iupdate M k) t Q (Stops M) := by
  have hptr : ∀ j, y.ptr j = 0 := fun j => by
    by_cases hj : j < MAXFILE + 1
    · exact h.ptr j hj
    · exact Extent.ptr_of_gt (by omega)
  have hdin : { y.din with size := 0 } = Dinode.truncated x.din := by
    obtain ⟨a, ha⟩ := h.din
    have haddr : a = fun _ => 0 := by
      funext j
      have h1 : y.din.addr j.val = 0 := by
        by_cases hj : j.val < NDIRECT
        · refine h.addr j.val ?_ hj
          have : NDIRECT < MAXFILE := by decide
          omega
        · have : j.val = NDIRECT := by omega
          rw [this, hind]
      rw [ha, Dinode.addr, dif_pos j.isLt] at h1
      exact UInt32.toNat_inj.1 h1
    rw [ha, Dinode.truncated, haddr]
  have htype : (Dinode.truncated x.din).type ≠ 0 := by
    rw [← hdin]
    exact h.sound.type
  refine ends_bind (ends_modifyState ?_)
  have hvol := h.vol.setBare (i := (s.icache k).inum)
    (o := some (.bare (Dinode.truncated x.din)))
    (fun z hz => by
      rw [update_self] at hz
      cases hz
      exact hptr)
    (fun z hz j => by cases hz; rw [Extent.ptr_bare (addr_truncated _)])
    (fun z hz => by
      cases hz
      exact ⟨h.sound.lt, Extent.onDisk_bare (addr_truncated _), htype, fun _ => trivial⟩)
  rw [update_idem] at hvol
  have hlogs := h.logs.trans (logs_store t k _ { (t.copy k).din with size := 0 })
  refine ends_iupdate (X := update X (s.icache k).inum (some (.bare (Dinode.truncated x.din))))
    (x := .bare (Dinode.truncated x.din)) ⟨?_, ?_, ?_, hvol, rfl⟩
    (by rwa [hlogs.outstanding]) (fun e => .overflow e _) fun u hu hdisk _ how => ?_
  · rw [hlogs.icache, hdev]
  · simp only [update_self, h.copy]
    exact hdin
  · rw [hlogs.icache, update_self]
  · refine hQ u ⟨⟨_, (hlogs.mono Set.subset_union_left).trans (hu.mono Set.subset_union_right)⟩,
      fun j hj hji => ?_, how⟩
    rw [hdisk, hlogs.icache, Mount.dinode_putDinode_of_ne hji]
    refine hlogs.dinode ?_
    rintro ⟨c, -, hc⟩
    exact Mount.iblock_ne_bblock hj c hc

/-- `itrunc` frees all blocks of the inode. -/
theorem Owns.ends_itrunc (h : Owns M s k X x) (hout : 1 ≤ s.log.outstanding)
    {Q : Unit → State P → Prop} (hQ : ∀ u, Truncated M s k X x u → Q () u) :
    Ends (itrunc M k) s Q (Stops M) := by
  have hstart : Truncating M s k X x 0 x s := by
    refine ⟨.refl .., h.copy, ?_, ⟨_, rfl⟩, h.cut.le, fun j hj => by omega, fun j hj => by omega⟩
    rw [h.self]
    exact h.vol
  refine ends_bind ((ends_forRange (fun i u => ∃ y, Truncating M s k X x i y u)
    (fun i u _ hi hu => ?_) ⟨x, hstart⟩).mono ?_)
  · obtain ⟨y, hy⟩ := hu
    exact hy.ends_direct h.dev hout (by omega)
  rintro - t ⟨y, hy⟩
  rw [zero_add] at hy
  have hle : y.cut ≤ MAXFILE := hy.cut.trans (by decide)
  have haddr : y.din.addr NDIRECT = y.ptr MAXFILE := (Extent.ptr_maxfile hle).symm
  refine ends_bind (returns_load ?_)
  rw [hy.copy, haddr]
  by_cases h0 : y.ptr MAXFILE = 0
  · simp only [h0, ne_eq, not_true_eq_false, if_false]
    refine Truncating.ends_end ⟨hy.logs, hy.copy, hy.vol, hy.din, hle.trans (Nat.le_succ _),
      fun j hj => ?_, fun j _ hd => hy.addr j hd hd⟩ h.dev hout (haddr.trans h0) hQ
    by_cases hd : j < NDIRECT
    · exact hy.ptr j hd
    · by_cases hm : j = MAXFILE
      · rw [hm, h0]
      · exact hy.sound.onDisk.ptr_indirect_eq_zero h0 (by omega) (by omega)
  simp only [h0, ne_eq, not_false_eq_true, if_true]
  refine ends_bind (returns_devOf ?_)
  rw [hy.logs.icache, h.dev, ← bind_pure (bread M ROOTDEV (y.ptr MAXFILE))]
  have hdata := hy.vol.data_ptr (update_self ..) h0
  refine ends_bind (returns_readBlock id hdata.lt_disksize ?_)
  rw [id, ← hy.sound.onDisk.ind_eq h0]
  refine ends_bind ((hy.ends_indirect hout).mono ?_)
  rintro - u ⟨z, hz, hdin⟩
  have hptr : z.ptr MAXFILE = y.ptr MAXFILE := by
    rw [Extent.ptr_maxfile hz.cut, hdin, haddr]
  rw [← hptr] at h0 ⊢
  refine ends_bind (hz.ends_bfree hout h0 fun v hv hcopy hvol => ?_)
  refine ends_bind (ends_modifyState ?_)
  obtain ⟨a, ha⟩ := hz.din
  have hcut : ((z.cutTo (MAXFILE + 1)).setAddr NDIRECT 0).ptr = (z.cutTo (MAXFILE + 1)).ptr := by
    funext j
    rw [Extent.ptr_eq_zero_of_cut (Nat.lt_succ_self _),
      Extent.ptr_eq_zero_of_cut (Nat.lt_succ_self _)]
  refine Truncating.ends_end (y := (z.cutTo (MAXFILE + 1)).setAddr NDIRECT 0)
    ⟨hv.trans (logs_store ..), ?_, ?_,
      ⟨_, by rw [Extent.setAddr, Dinode.setAddr, Extent.cutTo, ha]⟩, le_refl _,
      fun j hj => Extent.ptr_of_cut hj, fun j hj hd => ?_⟩ h.dev hout ?_ hQ
  · simp only [update_self, hcopy, hz.copy]
    rfl
  · exact Truncating.store_vol hvol hcut rfl rfl hz.sound.type
  · exact (Dinode.addr_setAddr_of_ne _ hd.ne 0).trans
      (hz.addr j (hd.trans (by decide)) hd)
  · exact Dinode.addr_setAddr_self _ (Nat.lt_succ_self _) (by decide)

/-! ## Dropping the last pointer -/

/-- From `s` to `t` the inode in entry `k` was freed. -/
structure Freed (M : Mount) (s : State P) (k : Slot) (t : State P) : Prop where
  frame : t = { s with disk := t.disk, log := { s.log with lh := t.log.lh }, copy := t.copy }
  other : ∀ l, l ≠ k → t.copy l = s.copy l
  valid : (t.copy k).valid = false
  dinode : ∀ j < M.sb.ninodes, j ≠ (s.icache k).inum → M.dinode t.disk j = M.dinode s.disk j
  inodes_eq : inodes M t.disk = update (inodes M s.disk) (s.icache k).inum none
  consistent : Consistent M t.disk

/-- The inodes on the disk after one of them was freed. -/
theorem Consistent.free {d e : Disk} {i : ℕ} {o : Option Extent}
    (h : Sole M e (update (inodes M d) i o) none) (ho : ∀ x, o = some x → ∀ j, x.ptr j = 0)
    (hi : (M.dinode e i).type = 0)
    (hdin : ∀ j < M.sb.ninodes, j ≠ i → M.dinode e j = M.dinode d j) :
    inodes M e = update (inodes M d) i none ∧ Consistent M e := by
  have hvol := h.setBare (i := i) (o := none) (fun x hx => ho x (by rwa [update_self] at hx))
    (fun _ hy => by cases hy) fun _ hy => by cases hy
  rw [update_idem] at hvol
  have hin : inodes M e = update (inodes M d) i none := by
    funext j
    by_cases hji : j = i
    · rw [hji, update_self, inodes]
      split_ifs
      · exact readInode_eq_none.2 hi
      · rfl
    rw [update_of_ne hji]
    unfold inodes
    split_ifs with hj
    · refine readInode_congr (hdin j hj hji) fun x hx => (hvol.inode j x ?_).onDisk
      rw [update_of_ne hji]
      exact inodes_eq_some.2 ⟨hj, hx⟩
    · rfl
  refine ⟨hin, ?_⟩
  unfold Consistent
  rwa [hin]

/-- `iput` of the last pointer to an inode without links, under the inode lock. -/
theorem Owns.ends_iputFree (h : Owns M s k (inodes M s.disk) x) (hout : 1 ≤ s.log.outstanding)
    (hval : (s.copy k).valid = true) (hlink : x.din.nlink = 0) (href : (s.icache k).ref = 1)
    {Q : Unit → State P → Prop}
    (hQ : ∀ u, Freed M s k u → Q () u) : Ends (iputFree M k) s Q (Stops M) := by
  refine ends_bind (ends_getState ?_)
  simp only [hval, h.copy, hlink, and_self, if_true]
  refine ends_bind (ends_getState ?_)
  simp only [href, if_true]
  refine ends_bind (h.ends_itrunc hout fun u htr => ?_)
  obtain ⟨⟨B, hu⟩, hdin, how⟩ := htr
  refine ends_bind (ends_modifyState ?_)
  have hi := how.sound.lt
  have hinum : (u.icache k).inum = (s.icache k).inum := by rw [hu.icache]
  have hlt : M.iblock (u.icache k).inum < M.disksize :=
    (Mount.iblock_lt_nmeta hi).trans_le (Mount.nmeta_le.trans M.size_le)
  refine ends_bind (ends_log (M := M) (iupdateSec_eq how.dev hlt
    (by rw [← hu.outstanding] at hout; exact hout)) (fun e => .overflow e _) ?_)
  obtain ⟨v, hv⟩ : ∃ v, v = M.putDinode u.disk (s.icache k).inum
    { (u.copy k).din with type := 0 } := ⟨_, rfl⟩
  have hfree := Consistent.free (d := s.disk) (e := v) (i := (s.icache k).inum)
    (hv ▸ how.vol.putDinode (hinum ▸ hi) _)
    (fun x hx j => by cases hx; rw [Extent.ptr_bare (addr_truncated _)])
    (by rw [hv, Mount.dinode_putDinode])
    fun j hj hji => by rw [hv, Mount.dinode_putDinode_of_ne hji, hdin j hj hji]
  have hlast : ∀ w : State P, w = { u with
      disk := v
      log := { u.log with lh := w.log.lh }
      copy := update u.copy k ⟨false, { (u.copy k).din with type := 0 }⟩ } → Q () w := by
    intro w hw
    have hd : w.disk = v := by rw [hw]
    have hc : w.copy = update u.copy k ⟨false, { (u.copy k).din with type := 0 }⟩ := by rw [hw]
    refine hQ w ⟨?_, fun l hl => ?_, ?_, fun j hj hji => ?_, ?_, ?_⟩
    · rw [hw, hu.frame]
    · rw [hc, update_of_ne hl, hu.other l hl]
    · rw [hc, update_self]
    · rw [hd, hv, Mount.dinode_putDinode_of_ne hji, hdin j hj hji]
    · rw [hd, hfree.1]
    · rw [hd]
      exact hfree.2
  refine ends_modifyState (hlast _ ?_)
  rw [hv, ← hinum]
  simp only [State.write, update_idem, update_self]
  rfl

end Xv6.Fs
