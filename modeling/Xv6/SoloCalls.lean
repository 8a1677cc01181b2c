import Xv6.NameRules
import Xv6.SoloDirs
import Xv6.SysFile

/-!
# System calls, executed alone

A system call on files makes several writes, with walks along paths and with locks taken and
given back in between. Between two writes the file system is again as between two calls
(`Quiet`), but for the pointers that the call holds (`Doing`). A write changes one inode on the
disk (`Rewrote`), so the inodes on the disk are known at every such point (`Rewrote.inodes_eq`).
-/

set_option linter.unusedSectionVars false

namespace Xv6.Fs

open Prog Function List Option

variable {P : Type} [DecidableEq P] {M : Mount} {p : P} {s t u : State P} {k l : Slot} {i : ℕ}
  {x y : Extent} {X : ℕ → Option Extent} {E : Stop Wait → State P → Prop} {ks ks' : List Slot}
  {d : Disk} {α : Type}

/-! ## The inodes on the disk -/

theorem inodes_eq_some : inodes M d i = some x ↔ i < M.sb.ninodes ∧ readInode M d i = some x := by
  unfold inodes
  split_ifs with hi <;> simp [hi]

theorem readInode_eq_none : readInode M d i = none ↔ (M.dinode d i).type = 0 := by
  unfold readInode
  split_ifs with h <;> simp [h]

/-- The inodes on the disk after one of them was written. -/
theorem Sole.inodes_eq {d' : Disk} (h : Sole M d' (update (inodes M d) i (some y)) none)
    (hcut : y.cut = 0)
    (hdin : ∀ j < M.sb.ninodes, M.dinode d' j = if j = i then y.din else M.dinode d j) :
    inodes M d' = update (inodes M d) i (some y) := by
  funext j
  by_cases hj : j < M.sb.ninodes
  · by_cases hji : j = i
    · subst hji
      have hs := h.inode j y (update_self ..)
      rw [update_self, inodes_eq_some, readInode, hdin j hj, if_pos rfl, if_neg hs.type, ← hcut]
      exact ⟨hj, congrArg some hs.onDisk.symm⟩
    · rw [update_of_ne hji]
      cases hx : inodes M d j with
      | none =>
        rw [inodes, if_pos hj, readInode_eq_none] at hx
        rw [inodes, if_pos hj, readInode_eq_none, hdin j hj, if_neg hji, hx]
      | some x =>
        have hs := h.inode j x (by rw [update_of_ne hji, hx])
        obtain ⟨hdx, -, -, hxcut⟩ := readInode_eq_some (inodes_eq_some.1 hx).2
        rw [inodes_eq_some, readInode, hdin j hj, if_neg hji, hdx, if_neg hs.type, ← hxcut]
        exact ⟨hj, congrArg some hs.onDisk.symm⟩
  · have hi : j ≠ i := fun hji => hj (hji ▸ (h.inode i y (update_self ..)).lt)
    rw [update_of_ne hi, inodes, inodes, if_neg hj, if_neg hj]

/-- A free inode becomes an inode without blocks. -/
theorem Consistent.putBare (h : Consistent M d) (hi : i < M.sb.ninodes)
    (hfree : (M.dinode d i).type = 0) (din : Dinode) (haddr : ∀ j, din.addr j = 0)
    (htype : din.type ≠ 0) :
    inodes M (M.putDinode d i din) = update (inodes M d) i (some (.bare din)) ∧
      Consistent M (M.putDinode d i din) := by
  have hnone : inodes M d i = none := by
    rw [inodes, if_pos hi, readInode_eq_none.2 hfree]
  have hvol := (h.putDinode hi din).setBare (i := i) (o := some (.bare din))
    (fun x hx => by rw [hnone] at hx; cases hx)
    (fun y hy k => by cases hy; rw [Extent.ptr_bare haddr])
    (fun y hy => by
      cases hy
      exact ⟨hi, Extent.onDisk_bare haddr, htype, fun _ => trivial⟩)
  have hin := Sole.inodes_eq hvol rfl fun j _ => by
    split_ifs with hji
    · rw [hji, Mount.dinode_putDinode]
      rfl
    · exact Mount.dinode_putDinode_of_ne hji _
  exact ⟨hin, by unfold Consistent; rwa [hin]⟩

/-- The inode in entry `k` has become `y`, on the disk as well. -/
structure Rewrote (M : Mount) (s : State P) (k : Slot) (y : Extent) (t : State P) : Prop where
  logs : ∃ B, Logs s k B t
  owns : Owns M t k (update (inodes M s.disk) (s.icache k).inum (some y)) y
  dinode : ∀ i < M.sb.ninodes,
    M.dinode t.disk i = if i = (s.icache k).inum then y.din else M.dinode s.disk i

namespace Rewrote

theorem icache (h : Rewrote M s k y t) : t.icache = s.icache := by
  obtain ⟨B, hB⟩ := h.logs
  exact hB.icache

theorem lock (h : Rewrote M s k y t) : t.lock = s.lock := by
  obtain ⟨B, hB⟩ := h.logs
  rw [hB.frame]

theorem inodes_eq (h : Rewrote M s k y t) :
    inodes M t.disk = update (inodes M s.disk) (s.icache k).inum (some y) :=
  Sole.inodes_eq h.owns.vol h.owns.cut h.dinode

theorem consistent (h : Rewrote M s k y t) : Consistent M t.disk := by
  unfold Consistent
  rw [h.inodes_eq]
  exact h.owns.vol

/-- The entry for the inode agrees with the disk again. -/
theorem coherent (h : Rewrote M s k y t) (hs : Coherent M s) (href : 0 < (s.icache k).ref)
    (hbelow : ∀ m, 0 < (s.icache m).ref → (s.copy m).valid = true →
      (s.icache m).inum < M.sb.ninodes) : Coherent M t := by
  obtain ⟨B, hB⟩ := h.logs
  refine ⟨?_, ?_, ?_, fun m hm hv => ?_⟩
  · rw [h.icache]
    exact hs.nonneg
  · rw [h.icache]
    exact hs.dev
  · rw [h.icache]
    exact hs.uniq
  · rw [h.icache] at hm ⊢
    by_cases hmk : m = k
    · subst hmk
      have hlt := h.owns.sound.lt
      rw [h.icache] at hlt
      rw [h.owns.copy, h.dinode _ hlt, if_pos rfl]
      exact ⟨rfl, h.owns.sound.type⟩
    · rw [hB.other m hmk] at hv ⊢
      rw [h.dinode _ (hbelow m hm hv), if_neg fun he => hmk (hs.uniq m k hm href he)]
      exact hs.copy m hm hv

end Rewrote

/-- Storing an entry of a directory. -/
theorem Stored.rewrote {j : ℕ} {de : Dirent} (h : Stored M s k (inodes M s.disk) x j de y t) :
    Rewrote M s k y t where
  logs := ⟨_, h.logs⟩
  owns := h.owns.toOwns
  dinode i hi := by
    split_ifs with hik
    · rw [hik, ← h.owns.synced, h.logs.icache]
    · exact h.dinode i hi hik

/-- A store to fields of the inode, and `iupdate`. -/
theorem ends_update {f : Dinode → Dinode} {rest : Kernel P α} {Q : α → State P → Prop}
    (h : Owns M s k (inodes M s.disk) x) (hout : 1 ≤ s.log.outstanding)
    (haddrs : (f x.din).addrs = x.din.addrs) (htype : (f x.din).type ≠ 0)
    (hE : ∀ e u, Overflow M e u → E e u)
    (hQ : ∀ t, Rewrote M s k (x.setDin (f x.din)) t →
      t.disk = M.putDinode s.disk (s.icache k).inum (f x.din) → Ends rest t Q E) :
    Ends (do store k f; iupdate M k; rest) s Q E := by
  refine ends_bind (ends_store h haddrs htype fun t ht hdisk hown => ?_)
  refine ends_bind (ends_iupdate hown (by rw [ht.outstanding]; exact hout) (fun e => hE e t)
    fun u hu hudisk _ hown' => ?_)
  rw [ht.icache] at hu hudisk
  rw [hdisk] at hudisk
  refine hQ u ⟨⟨_, (ht.mono (Set.empty_subset _)).trans hu⟩, hown', fun i _ => ?_⟩ hudisk
  rw [hudisk]
  split_ifs with hik
  · rw [hik, Mount.dinode_putDinode]
  · exact Mount.dinode_putDinode_of_ne hik _

/-- `writei` of an inode that is on the disk as it is in the cache, and has all its blocks. -/
theorem Owns.ends_writei {off n : UInt32} {src : ℕ → UInt8} {Q : ℤ → State P → Prop}
    (h : Owns M s k (inodes M s.disk) x)
    (hsync : M.dinode s.disk (s.icache k).inum = x.din) (hout : 1 ≤ s.log.outstanding)
    (hx : x.HoleFree) (ht : x.din.type ≠ T_DEV) (hE : ∀ e u, Overflow M e u → E e u)
    (hbad : x.file.Refuses off n → Q (-1) s)
    (hok : ∀ y t, ¬ x.file.Refuses off n → y.file = x.file.write off n src → y.HoleFree →
      Rewrote M s k y t → Q n.toNat t) : Ends (writei M p k src off n) s Q E := by
  refine Fs.ends_writei h hout ht (fun e u _ hu => hE e u hu.1) hbad
    fun y t hn hw hlogs howns hdin =>
    hok _ t hn (hw.file_setEnd hn) (hw.holeFree_setEnd hn hx ht) ⟨⟨_, hlogs⟩, howns, fun j hj => ?_⟩
  rw [hdin j hj]
  by_cases hji : j = (s.icache k).inum
  · subst hji
    by_cases hgrow : n > 0 ∧ off + n > x.din.size
    · simp [hgrow]
    · rw [if_neg fun hc => hgrow hc.2, if_pos rfl, hw.setEnd_neg hgrow, hw.din_eq hn hx ht hgrow]
      exact hsync
  · rw [if_neg fun hc => hji hc.1, if_neg hji]

/-! ## Between two calls -/

/-- The file system between two calls, with the blocks of its inodes in order. -/
structure Quiet (M : Mount) (s : State P) : Prop extends Settled M s where
  consistent : Consistent M s.disk
  below : ∀ k, 0 < (s.icache k).ref → (s.icache k).inum < M.sb.ninodes

theorem Coherent.setLog (h : Coherent M s) (log : Log) : Coherent M { s with log := log } :=
  { h with }

/-- The log does not matter. -/
theorem Quiet.setLog (h : Quiet M s) (log : Log) : Quiet M { s with log := log } :=
  { h with coherent := h.coherent.setLog log }

/-- From `s` to `t` a call has changed the disk and the inode cache, and holds the pointers `ks`. -/
structure Calling (M : Mount) (s : State P) (ks : List Slot) (t : State P) : Prop where
  frame : t = { s with
    disk := t.disk
    log := { s.log with lh := t.log.lh }
    icache := t.icache
    copy := t.copy
    lock := t.lock }
  coherent : Coherent M t
  ref : ∀ m, (t.icache m).ref = (s.icache m).ref + ks.count m
  inum : ∀ m, 0 < (s.icache m).ref → (t.icache m).inum = (s.icache m).inum

namespace Calling

theorem refl (h : Coherent M s) : Calling M s [] s := ⟨rfl, h, fun m => by simp, fun _ _ => rfl⟩

theorem outstanding (h : Calling M s ks t) : t.log.outstanding = s.log.outstanding := by
  rw [h.frame]

theorem ref_pos (h : Calling M s ks t) (hs : Coherent M s) (hk : k ∈ ks) :
    0 < (t.icache k).ref := by
  have hpos := count_pos_iff.2 hk
  have := hs.nonneg k
  rw [h.ref]
  omega

/-- Entries that were in use still are. -/
theorem ref_pos_of_pos (h : Calling M s ks t) (hk : 0 < (s.icache k).ref) :
    0 < (t.icache k).ref := by
  rw [h.ref]
  omega

theorem perm (h : Calling M s ks t) (hp : ks.Perm ks') : Calling M s ks' t :=
  { h with ref := fun m => by rw [h.ref, hp.count_eq] }

/-- A part of the call that writes nothing. -/
theorem holding (h : Calling M s ks t) (hu : Holding M t ks' u) : Calling M s (ks' ++ ks) u where
  frame := by rw [hu.frame, h.frame]
  coherent := hu.coherent
  ref m := by
    rw [hu.ref, h.ref, count_append]
    push_cast
    ring
  inum m hm := by rw [hu.inum m (h.ref_pos_of_pos hm), h.inum m hm]

/-- A write. -/
theorem rewrote (h : Calling M s ks t) (hu : Rewrote M t k y u) (href : 0 < (t.icache k).ref)
    (hbelow : ∀ m, 0 < (t.icache m).ref → (t.copy m).valid = true →
      (t.icache m).inum < M.sb.ninodes) : Calling M s ks u where
  frame := by
    obtain ⟨B, hB⟩ := hu.logs
    rw [hB.frame, h.frame]
  coherent := hu.coherent h.coherent href hbelow
  ref := by
    rw [hu.icache]
    exact h.ref
  inum := by
    rw [hu.icache]
    exact h.inum

/-- After `iput`. -/
theorem dropped (h : Calling M s (k :: ks) t) (hs : Coherent M s) :
    Calling M s ks (t.dropped k) where
  frame := by
    unfold State.dropped
    rw [h.frame]
  coherent := h.coherent.dropped (h.ref_pos hs mem_cons_self)
  ref m := by
    rw [State.dropped_ref, h.ref, count_cons]
    simp only [beq_iff_eq, eq_comm (a := k)]
    split_ifs <;> push_cast <;> ring
  inum m hm := by rw [State.dropped_inum, h.inum m hm]

/-- After `iunlock`. -/
theorem unlocked (h : Calling M s ks t) {lock : Slot → Option P} :
    Calling M s ks { t with lock := lock } :=
  { h with
    frame := by rw [h.frame]
    coherent := { h.coherent with } }

end Calling

/-- The call has met only inodes that the disk has. -/
structure Doing (M : Mount) (s : State P) (ks : List Slot) (t : State P) : Prop
    extends Calling M s ks t where
  below : ∀ m, 0 < (t.icache m).ref → (t.icache m).inum < M.sb.ninodes

namespace Doing

theorem refl (h : Quiet M s) : Doing M s [] s := ⟨.refl h.coherent, h.below⟩

theorem perm (h : Doing M s ks t) (hp : ks.Perm ks') : Doing M s ks' t :=
  ⟨h.toCalling.perm hp, h.below⟩

theorem holding (h : Doing M s ks t) (hu : Holding M t ks' u)
    (hlt : ∀ k ∈ ks', (u.icache k).inum < M.sb.ninodes) : Doing M s (ks' ++ ks) u where
  toCalling := h.toCalling.holding hu
  below m hm := by
    by_cases hmem : m ∈ ks'
    · exact hlt m hmem
    · have hpos : 0 < (t.icache m).ref := by
        rwa [hu.ref, count_eq_zero.2 hmem, Nat.cast_zero, add_zero] at hm
      rw [hu.inum m hpos]
      exact h.below m hpos

theorem rewrote (h : Doing M s ks t) (hu : Rewrote M t k y u) (href : 0 < (t.icache k).ref) :
    Doing M s ks u where
  toCalling := h.toCalling.rewrote hu href fun m hm _ => h.below m hm
  below := by
    rw [hu.icache]
    exact h.below

theorem dropped (h : Doing M s (k :: ks) t) (hs : Coherent M s) : Doing M s ks (t.dropped k) where
  toCalling := h.toCalling.dropped hs
  below m hm := by
    rw [State.dropped_inum]
    refine h.below m ?_
    rw [State.dropped_ref] at hm
    split_ifs at hm <;> omega

theorem unlocked (h : Doing M s ks t) {lock : Slot → Option P} :
    Doing M s ks { t with lock := lock } :=
  ⟨h.toCalling.unlocked, h.below⟩

end Doing

/-- The file system after a write is again as between two calls. -/
theorem Quiet.doing (hs : Quiet M s) (h : Doing M s ks t) (hlock : t.lock = s.lock)
    (hcons : Consistent M t.disk)
    (hin : inodes M t.disk = update (inodes M s.disk) i (some y))
    (hdir : y.din.type = T_DIR → GoodDir M y) (href : 0 < (t.icache k).ref)
    (hinum : (t.icache k).inum = i) : Quiet M t := by
  have hold : ∀ j < M.sb.ninodes, j ≠ i → readInode M t.disk j = readInode M s.disk j := by
    intro j hj hji
    have := congrFun hin j
    rwa [update_of_ne hji, inodes, inodes, if_pos hj, if_pos hj] at this
  have hnew : ∀ j < M.sb.ninodes, ∀ z, readInode M t.disk j = some z → j = i → z = y := by
    intro j hj z hz hji
    have := congrFun hin j
    rw [hji, update_self, ← hji, inodes, if_pos hj, hz] at this
    exact some.inj this
  refine ⟨⟨⟨h.coherent, fun m => by rw [hlock, hs.lock], fun j hj z hz h0 => ?_⟩, hs.root,
    fun j hj z hz ht => ?_⟩, hcons, h.below⟩
  · by_cases hji : j = i
    · exact ⟨k, href, hinum.trans hji.symm⟩
    · rw [hold j hj hji] at hz
      obtain ⟨m, hm, hmj⟩ := hs.linked j hj z hz h0
      exact ⟨m, h.ref_pos_of_pos hm, (h.inum m hm).trans hmj⟩
  · by_cases hji : j = i
    · obtain rfl := hnew j hj z hz hji
      exact hdir ht
    · rw [hold j hj hji] at hz
      exact hs.dirs j hj z hz ht

theorem files_eq (hi : i < M.sb.ninodes) : files M d i = (inodes M d i).map Extent.file := by
  rw [files, inodes, if_pos hi]

theorem HasCwd.doing (hcwd : HasCwd M s p) (h : Doing M s ks t) : HasCwd M t p := by
  obtain ⟨cwd, hcwd, href, hlt⟩ := hcwd
  exact ⟨cwd, by rw [h.frame]; exact hcwd, h.ref_pos_of_pos href, by rwa [h.inum cwd href]⟩

theorem HasCwd.startInode_eq (hcwd : HasCwd M s p) (h : Doing M s ks t) (path : List UInt8) :
    startInode t p path = startInode s p path := by
  obtain ⟨cwd, hcwd, href, -⟩ := hcwd
  have hproc : t.proc = s.proc := by rw [h.frame]
  unfold startInode
  rw [hproc, hcwd]
  simp only [h.inum cwd href]

theorem HasCwd.startInode_lt (hcwd : HasCwd M s p) (hs : Settled M s) (path : List UInt8) :
    startInode s p path < M.sb.ninodes := by
  obtain ⟨cwd, hcwd, -, hlt⟩ := hcwd
  unfold startInode
  split_ifs
  · exact hs.root
  · simp only [hcwd]
    exact hlt

/-- A write to an inode that is no directory does not change where a path leads. -/
theorem Settled.resolveParent_eq (hs : Settled M s) (hcwd : HasCwd M s p) (h : Doing M s ks t)
    (hin : inodes M t.disk = update (inodes M s.disk) i (some y)) (hx : inodes M s.disk i = some x)
    (ht : x.din.type ≠ T_DIR) (ht' : y.din.type ≠ T_DIR) (path : List UInt8) :
    resolveParent (files M t.disk) (startInode t p path) (comps path) =
      resolveParent (files M s.disk) (startInode s p path) (comps path) := by
  rw [hcwd.startInode_eq h]
  refine resolveParent_congr (n := M.sb.ninodes) (fun j hj => ?_)
    (fun j hj f name l hf htype hl => ?_) (hcwd.startInode_lt hs path)
  · rw [Alike, files_eq hj, files_eq hj, hin]
    by_cases hji : j = i
    · subst hji
      refine Or.inr ⟨x.file, y.file, ?_, ?_, ht, ht'⟩
      · rw [hx, map_some]
      · rw [update_self, map_some]
    · rw [update_of_ne hji]
      exact Or.inl rfl
  · obtain ⟨z, hz, rfl⟩ := map_eq_some_iff.1 hf
    have hg := hs.dirs j hj z hz htype
    exact hg.inums l (hg.whole.finds hl).complete

/-- A call is over that began in the state `s`. It has no lock, no pointer and no operation, and
has changed no file and no descriptor. -/
structure Over (s t : State P) : Prop where
  frame : t = { s with
    disk := t.disk
    log := { s.log with lh := t.log.lh }
    icache := t.icache
    copy := t.copy }
  ref : ∀ m, (t.icache m).ref = (s.icache m).ref
  inum : ∀ m, 0 < (s.icache m).ref → (t.icache m).inum = (s.icache m).inum

/-! ## Transactions -/

/-- The state after `begin_op`. -/
def State.begun (s : State P) : State P :=
  { s with log := { s.log with outstanding := s.log.outstanding + 1 } }

variable {Q : Unit → State P → Prop}

theorem ends_beginOp (hE : s.log.committing = true ∨ s.log.NoSpace → E (.blocked .log) s)
    (hQ : Q () s.begun) :
    Ends beginOp s Q E := by
  refine ends_waitFor ?_
  split_ifs with h1 h2
  · exact hE (Or.inl h1)
  · exact hE (Or.inr h2)
  · exact hQ

theorem partly_beginOp (hQ : Q () s.begun) : Partly beginOp s Q :=
  ends_beginOp (fun _ => trivial) hQ

/-- The end of a call. -/
theorem Calling.ends_endOp {r : ℤ} {Q : ℤ → State P → Prop} (h : Calling M s.begun [] t)
    (hlock : t.lock = s.lock) (hE : s.log.committing = true → E (.panic "log.committing") t)
    (hQ : ∀ u, Over s u → u = { t with log := u.log } →
      (s.log.outstanding = 0 → u.log.lh = []) → Q r u) :
    Ends (do endOp; return r) t Q E := by
  have hout : t.log.outstanding - 1 = s.log.outstanding := by
    rw [h.outstanding]
    exact add_sub_cancel_right _ _
  have hcom : t.log.committing = s.log.committing := by
    rw [h.frame]
    rfl
  have hover : ∀ lh, Over s { t with
      log := { t.log with outstanding := t.log.outstanding - 1, lh := lh } } := fun lh => by
    refine ⟨?_, fun m => ?_, h.inum⟩
    · rw [hout, h.frame, hlock]
      rfl
    · exact (h.ref m).trans (by simp [State.begun])
  refine ends_bind (ends_atomic ?_)
  simp only
  split_ifs with hc h0
  · exact hE (hcom ▸ hc)
  · exact ends_pure (hQ _ (hover []) rfl fun _ => rfl)
  · exact ends_pure (hQ _ (hover t.log.lh) rfl fun hz => absurd (hout.trans hz) h0)

theorem Doing.partly_endOp {r : ℤ} {Q : ℤ → State P → Prop} (h : Doing M s.begun [] t)
    (hlock : t.lock = s.lock) (hQ : ∀ u, Over s u → u.disk = t.disk → Q r u) :
    Partly (do endOp; return r) t Q :=
  h.toCalling.ends_endOp hlock (fun _ => trivial) fun u hu htu _ => hQ u hu (by rw [htu])

/-! ## Walks -/

/-- `namei` between two calls. -/
theorem Settled.partly_namei (hs : Settled M s) (hcwd : HasCwd M s p) (path : List UInt8)
    {Q : Option Slot → State P → Prop}
    (hnone : ∀ t, resolve (files M s.disk) (startInode s p path) (comps path) = .missing →
      Holding M s [] t → t.lock = s.lock → Q none t)
    (hsome : ∀ k i t, resolve (files M s.disk) (startInode s p path) (comps path) = .inode i →
      i < M.sb.ninodes → Found M s k i t → Q (some k) t) : Partly (namei M p path) s Q := by
  have hwalk := walksTo_namex (E := fun _ _ => True) hs (Or.inr fun _ => trivial) hcwd path false
  rw [resolvePath, if_neg Bool.false_ne_true] at hwalk
  refine ends_bind ?_
  cases htarget : resolve (files M s.disk) (startInode s p path) (comps path) with
  | inode i =>
    rw [htarget] at hwalk
    refine Ends.mono hwalk ?_
    rintro r t ⟨hi, k, name, rfl, -, hk⟩
    exact ends_pure (hsome k i t htarget hi hk)
  | missing =>
    rw [htarget] at hwalk
    refine Ends.mono hwalk ?_
    rintro r t ⟨rfl, ht, hlock⟩
    exact ends_pure (hnone t htarget ht hlock)
  | unallocated =>
    rw [htarget] at hwalk
    exact Ends.imp hwalk (fun _ _ hf => hf.elim) fun _ _ _ => trivial

/-- `nameiparent` between two calls. -/
theorem Settled.partly_nameiparent (hs : Settled M s) (hcwd : HasCwd M s p) (path : List UInt8)
    {Q : Option (Slot × List UInt8) → State P → Prop}
    (hnone : ∀ t, resolveParent (files M s.disk) (startInode s p path) (comps path) = .missing →
      Holding M s [] t → t.lock = s.lock → Q none t)
    (hsome : ∀ k name i t,
      resolveParent (files M s.disk) (startInode s p path) (comps path) = .inode i →
      (comps path).getLast? = some name → i < M.sb.ninodes → Found M s k i t →
      Q (some (k, name)) t) : Partly (nameiparent M p path) s Q := by
  have hwalk := walksTo_namex (E := fun _ _ => True) hs (Or.inr fun _ => trivial) hcwd path true
  rw [resolvePath, if_pos rfl] at hwalk
  cases htarget : resolveParent (files M s.disk) (startInode s p path) (comps path) with
  | inode i =>
    rw [htarget] at hwalk
    refine Ends.mono hwalk ?_
    rintro r t ⟨hi, k, name, rfl, hlast, hk⟩
    exact hsome k name i t htarget (hlast rfl) hi hk
  | missing =>
    rw [htarget] at hwalk
    refine Ends.mono hwalk ?_
    rintro r t ⟨rfl, ht, hlock⟩
    exact hnone t htarget ht hlock
  | unallocated =>
    rw [htarget] at hwalk
    exact Ends.imp hwalk (fun _ _ hf => hf.elim) fun _ _ _ => trivial

/-- The inode in entry `k` is one of the inodes on the disk. -/
theorem Consistent.owns (h : Consistent M s.disk) (hdev : (s.icache k).dev = ROOTDEV)
    (hx : inodes M s.disk (s.icache k).inum = some x) (hcopy : (s.copy k).din = x.din) :
    Owns M s k (inodes M s.disk) x :=
  ⟨hdev, hcopy, hx, h, (readInode_eq_some (inodes_eq_some.1 hx).2).2.2.2⟩

theorem Owns.dir (h : Owns M s k (inodes M s.disk) x) (ht : x.din.type = T_DIR)
    (hg : GoodDir M x) : OwnsDir M s k (inodes M s.disk) x :=
  ⟨h, ht, hg.holeFree, hg.whole, (readInode_eq_some (inodes_eq_some.1 h.inode).2).1⟩

namespace Opened

theorem owns (h : Opened M s p k ks i x t) (hs : Quiet M s) (hi : i < M.sb.ninodes)
    (hx : readInode M s.disk i = some x) : Owns M t k (inodes M t.disk) x := by
  refine Consistent.owns ?_ (h.holding.coherent.dev k (h.holding.ref_pos hs.coherent)) ?_
    (by rw [h.copy])
  · rw [h.holding.disk]
    exact hs.consistent
  · rw [h.inum, h.holding.disk]
    exact inodes_eq_some.2 ⟨hi, hx⟩

theorem ownsDir (h : Opened M s p k ks i x t) (hs : Quiet M s) (hi : i < M.sb.ninodes)
    (hx : readInode M s.disk i = some x) (ht : x.din.type = T_DIR) :
    OwnsDir M t k (inodes M t.disk) x :=
  (h.owns hs hi hx).dir ht (hs.dirs i hi x hx ht)

/-- Another pointer is given up. -/
theorem dropped (h : Opened M s p k (l :: ks) i x t) (hs : Coherent M s) (hl : t.lock l = none) :
    Opened M s p k ks i x (t.dropped l) where
  holding := (h.holding.perm (List.Perm.swap l k ks)).dropped hs
  lock := by
    change update t.lock l none = _
    rw [update_eq_self_iff.2 hl.symm, h.lock]
  inum := by rw [State.dropped_inum, h.inum]
  copy := h.copy

end Opened

/-- An entry that was just taken is not freed when it is given up. -/
theorem Taken.keep (h : Taken s l i t) (hs : Coherent M s) (hv : (t.copy l).valid = true) :
    (t.icache l).ref ≠ 1 := by
  have href := h.ref_eq l
  rw [if_pos rfl] at href
  have hne : (s.icache l).ref ≠ 0 := fun h0 => by
    rw [(h.fresh h0).1] at hv
    cases hv
  have := hs.nonneg l
  omega

/-- The lookup of a name that the directory has in `dirlink`. -/
theorem Opened.partly_iput (h : Opened M s p k [] i x t) (hs : AtRest M s) {j : ℕ}
    (hl : Taken t l j u) (hQ : Opened M s p k [] i x (u.dropped l) → Q () (u.dropped l)) :
    Partly (iput M p l) u Q := by
  cases hlock : u.lock l with
  | some q => exact (halts_iput hlock).ends fun _ => trivial
  | none =>
    refine returns_iput hlock (fun hv _ => hl.keep h.holding.coherent hv) (hQ ?_)
    exact (h.taken hs hl).dropped hs.coherent hlock

/-- `ilock` of the inode that was found. -/
theorem Found.partly_ilock (h : Found M s k i t) (hs : AtRest M s) (hi : i < M.sb.ninodes)
    (hQ : ∀ x u, readInode M s.disk i = some x → Opened M s p k [] i x u → Q () u) :
    Partly (ilock M p k .walk) t Q := by
  cases hx : readInode M s.disk i with
  | some x => exact (returns_open hs hi h hx).mono fun _ u hu => hQ x u hx hu
  | none =>
    have hhalt : Halts (ilock M p k .walk) t (.panic "ilock: no type") :=
      h.holding.coherent.halts_ilock (h.ref_pos hs) (by rw [h.lock, hs.lock])
        (by rwa [h.inum]) (by rw [h.holding.disk, h.inum, hx])
    exact hhalt.ends fun _ => trivial

end Xv6.Fs
