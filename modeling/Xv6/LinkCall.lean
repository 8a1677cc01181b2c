import Xv6.TinyVolume

/-!
# `sys_link`

`sys_link` raises the link count of the old inode and writes it out before it looks for the
directory of the new name. Three failures after that share a way back (`linkBad`).
`link_all_or_nothing` says that it restores the disk, and what the call has done when it succeeds.
-/

set_option linter.unusedSectionVars false

namespace Xv6.Fs

open Prog Function List Option

variable {P : Type} [DecidableEq P] {M : Mount} {p : P} {s t u : State P} {k l : Slot} {i : ℕ}
  {x y : Extent}

/-- From `s` to `t` a call has raised the link count of inode `i`, and holds a pointer to it. -/
structure Raised (M : Mount) (s : State P) (k : Slot) (i : ℕ) (x : Extent) (t : State P) :
    Prop where
  doing : Doing M s [k] t
  lock : t.lock = s.lock
  inum : (t.icache k).inum = i
  disk : t.disk = M.putDinode s.disk i x.addLink.din
  inodes_eq : inodes M t.disk = update (inodes M s.disk) i (some x.addLink)
  consistent : Consistent M t.disk

/-- What `sys_link` does to the locked inode. -/
theorem Opened.partly_raise (h : Opened M s p k [] i x t) (hs : Quiet M s)
    (hi : i < M.sb.ninodes) (hx : readInode M s.disk i = some x) (hout : 1 ≤ s.log.outstanding)
    {α : Type} {rest : Kernel P α} {Q : α → State P → Prop}
    (hQ : ∀ u, Raised M s k i x u → Partly rest u Q) :
    Partly (do
      store k fun d => { d with nlink := d.nlink + 1 }
      iupdate M k
      iunlock p k
      rest) t Q := by
  have hd := (Doing.refl hs).holding h.holding fun m hm => by
    rw [mem_singleton.1 hm, h.inum]
    exact hi
  have href := hd.ref_pos hs.coherent mem_cons_self
  refine ends_update (h.owns hs hi hx) (by rw [hd.outstanding]; exact hout)
    rfl (readInode_eq_some hx).2.1 (fun _ _ _ => trivial) fun u hu hdisk => ?_
  have hdu := hd.rewrote hu href
  have hlock : u.lock = update s.lock k (some p) := by rw [hu.lock, h.lock]
  refine ends_bind (returns_iunlock (by rw [hlock, update_self])
    (hdu.ref_pos hs.coherent mem_cons_self)
    (hQ _ ⟨hdu.unlocked, ?_, ?_, ?_, ?_, hu.consistent⟩))
  · change update u.lock k none = s.lock
    rw [hlock, update_idem, update_eq_self_iff.2 (hs.lock k).symm]
  · change (u.icache k).inum = i
    rw [hu.icache, h.inum]
  · change u.disk = _
    rw [hdisk, h.holding.disk, h.inum]
    rfl
  · change inodes M u.disk = _
    rw [hu.inodes_eq, h.holding.disk, h.inum]
    rfl

namespace Raised

theorem ref_pos (h : Raised M s k i x t) (hs : Coherent M s) : 0 < (t.icache k).ref :=
  h.doing.ref_pos hs mem_cons_self

theorem readInode_eq (h : Raised M s k i x t) (hi : i < M.sb.ninodes) :
    readInode M t.disk i = some x.addLink := by
  have := congrFun h.inodes_eq i
  rwa [update_self, inodes, if_pos hi] at this

/-- A part of the call that writes nothing and keeps nothing. -/
theorem holding (h : Raised M s k i x t) (hs : Coherent M s) (hu : Holding M t [] u)
    (hlock : u.lock = t.lock) : Raised M s k i x u where
  doing := h.doing.holding hu fun _ hm => by cases hm
  lock := hlock.trans h.lock
  inum := by rw [hu.inum k (h.ref_pos hs), h.inum]
  disk := by rw [hu.disk, h.disk]
  inodes_eq := by rw [hu.disk, h.inodes_eq]
  consistent := by
    rw [hu.disk]
    exact h.consistent

/-- The call may go on as if it had just begun. -/
theorem quiet (h : Raised M s k i x t) (hs : Quiet M s) (ht : x.din.type ≠ T_DIR) : Quiet M t :=
  hs.doing h.doing h.lock h.consistent h.inodes_eq (fun hd => absurd hd ht)
    (h.ref_pos hs.coherent) h.inum

/-- The way back. The link count is lowered again, and the disk is as it was. -/
theorem partly_linkBad (h : Raised M s.begun k i x t) (hs : Quiet M s.begun)
    (hi : i < M.sb.ninodes) (hx : readInode M s.disk i = some x) (hlink : x.din.nlink ≠ 0)
    (hout : 0 ≤ s.log.outstanding) {Q : ℤ → State P → Prop}
    (hQ : ∀ u, Over s u → u.disk = s.disk → Q (-1) u) : Partly (linkBad M p k) t Q := by
  have href := h.ref_pos hs.coherent
  have hi' : (t.icache k).inum < M.sb.ninodes := by rwa [h.inum]
  have hread : readInode M t.disk (t.icache k).inum = some x.addLink := by
    rw [h.inum]
    exact h.readInode_eq hi
  obtain ⟨hdin, htype, -⟩ := readInode_eq_some hread
  refine ends_bind (h.doing.coherent.returns_ilock href
    (by rw [h.lock, hs.lock]) hi' hread ?_)
  obtain ⟨v, hv⟩ : ∃ v, v = ({ t with
    lock := update t.lock k (some p)
    copy := update t.copy k ⟨true, x.addLink.din⟩ } : State P) := ⟨_, rfl⟩
  have hdv : Doing M s.begun [k] v := by
    rw [hv]
    exact h.doing.holding ((Holding.refl h.doing.coherent).locked hdin htype (some p))
      fun _ hm => by cases hm
  have hown : Owns M v k (inodes M v.disk) x.addLink := by
    subst hv
    exact Consistent.owns h.consistent (h.doing.coherent.dev k href)
      (inodes_eq_some.2 ⟨hi', hread⟩) (by simp only [update_self])
  have hrefv := hdv.ref_pos hs.coherent mem_cons_self
  have hvk : (v.icache k).inum = i := by rw [hv]; exact h.inum
  have hvd : v.disk = t.disk := by rw [hv]
  have hvl : v.lock = update s.lock k (some p) := by
    rw [hv]
    exact congrArg (update · k (some p)) h.lock
  rw [← hv]
  refine ends_update hown ?_ rfl htype (fun _ _ _ => trivial) fun w hw hdisk => ?_
  · rw [hdv.outstanding]
    change 1 ≤ s.log.outstanding + 1
    omega
  have hback :
      ({ x.addLink.din with nlink := x.addLink.din.nlink - 1 } : Dinode) =
        x.din := by
    change ({ x.din with nlink := x.din.nlink + 1 - 1 } : Dinode) = x.din
    simp only [Int16.add_sub_cancel]
  have hdw := hdv.rewrote hw hrefv
  have hwdisk : w.disk = s.disk := by
    rw [hdisk, hback, hvk, hvd, h.disk, ← (readInode_eq_some hx).1]
    exact Mount.putDinode_putDinode_dinode ..
  have hcopy : (w.copy k).din = x.din := by
    rw [hw.owns.copy, ← hback]
    rfl
  refine ends_bind (returns_iunlockput ?_ ?_ ?_ ?_)
  · rw [hw.lock, hvl, update_self]
  · exact hdw.ref_pos hs.coherent mem_cons_self
  · intro _ h0
    rw [hcopy] at h0
    exact absurd h0 hlink
  · refine (hdw.dropped hs.coherent).partly_endOp ?_ fun u hu hud => hQ u hu (hud.trans hwdisk)
    change update w.lock k none = s.lock
    rw [hw.lock, hvl, update_idem, update_eq_self_iff.2 (hs.lock k).symm]

end Raised

/-- What `sys_link` has done when it returns 0 : inode `i`, which was `x`, has one link more, or
the count -32768 if it had 32767 links. Directory `di`, which was `xd`, has an entry for it in the
place `j`, which was vacant. -/
structure Linked (M : Mount) (s : State P) (p : P) (old new : List UInt8) (t : State P)
    (i di j : ℕ) (x xd y : Extent) (name : List UInt8) : Prop where
  source : resolve (files M s.disk) (startInode s p old) (comps old) = .inode i
  inode : inodes M s.disk i = some x
  type : x.din.type ≠ T_DIR
  parent : resolveParent (files M s.disk) (startInode s p new) (comps new) = .inode di
  last : (comps new).getLast? = some name
  dir : inodes M s.disk di = some xd
  missing : xd.file.index name = none
  vacant : xd.file.Vacant j
  file : y.file = xd.file.setEntry j ⟨i, canon name⟩
  keeps : xd.Keeps y
  inodes_eq : inodes M t.disk =
    update (update (inodes M s.disk) i (some x.addLink)) di (some y)
  consistent : Consistent M t.disk

theorem add_one_ne_zero_of_pos {n : Int16} (h : 0 < n) : n + 1 ≠ 0 := fun h1 => by
  have hn : n = 0 - 1 := by rw [← h1, Int16.add_sub_cancel]
  rw [hn] at h
  exact absurd h (by decide)

/-- The second half of `sys_link`. -/
theorem Raised.partly_link (h : Raised M s.begun k i x t) (hs : Quiet M s.begun)
    (hi : i < M.sb.ninodes) (hx : readInode M s.disk i = some x) (ht : x.din.type ≠ T_DIR)
    (hlinks : ∀ i x, inodes M s.disk i = some x → 0 < x.din.nlink)
    (hout : 0 ≤ s.log.outstanding) (hcwd : HasCwd M s.begun p) {old new : List UInt8}
    (hold : resolve (files M s.disk) (startInode s p old) (comps old) = .inode i) :
    Partly (do
      match ← nameiparent M p new with
      | none => linkBad M p k
      | some (dp, name) =>
        ilock M p dp .walk
        let r ← (do
          if (← devOf dp) ≠ (← devOf k) then return -1
          else dirlink M p dp name (← inumOf k) : Kernel P ℤ)
        if r < 0 then
          iunlockput M p dp
          linkBad M p k
        else
          iunlockput M p dp
          iput M p k
          endOp
          return 0) t fun r u => Over s u ∧ (r = -1 ∧ u.disk = s.disk ∨
            r = 0 ∧ ∃ di j xd y name, Linked M s p old new u i di j x xd y name) := by
  have hxi : inodes M s.disk i = some x := inodes_eq_some.2 ⟨hi, hx⟩
  have hpos := hlinks i x hxi
  have hq := h.quiet hs ht
  have hbad : ∀ {w}, Raised M s.begun k i x w → Partly (linkBad M p k) w fun r u =>
      Over s u ∧ (r = -1 ∧ u.disk = s.disk ∨
        r = 0 ∧ ∃ di j xd y name, Linked M s p old new u i di j x xd y name) := fun hw =>
    hw.partly_linkBad hs hi hx (fun h0 => by rw [h0] at hpos; exact absurd hpos (by decide)) hout
      fun u hu hd => ⟨hu, Or.inl ⟨rfl, hd⟩⟩
  refine ends_bind (hq.toSettled.partly_nameiparent (hcwd.doing h.doing) new
    (fun w _ hw hlock => hbad (h.holding hs.coherent hw hlock))
    fun dp name di w htarget hname hdi hfound => ?_)
  rw [hs.toSettled.resolveParent_eq hcwd h.doing h.inodes_eq hxi ht ht] at htarget
  refine ends_bind (hfound.partly_ilock hq.toAtRest hdi fun xd w hxd hopen => ?_)
  obtain ⟨f, hf, hdir⟩ := resolveParent_eq_inode htarget
  have hne : di ≠ i := by
    rintro rfl
    change files M s.disk di = some f at hf
    rw [files, hx, map_some] at hf
    exact ht (by rw [← hdir, ← some.inj hf]; rfl)
  have hxds : inodes M s.disk di = some xd := by
    have := congrFun h.inodes_eq di
    rw [update_of_ne hne] at this
    exact this.symm.trans (inodes_eq_some.2 ⟨hdi, hxd⟩)
  have htype : xd.din.type = T_DIR := by
    change files M s.disk di = some f at hf
    rw [files_eq hdi, hxds, map_some] at hf
    rw [← hdir, ← some.inj hf]
    rfl
  have hkw : 0 < (t.icache k).ref := h.ref_pos hs.coherent
  have hrefk : 0 < (w.icache k).ref := by
    rw [hopen.holding.ref]
    omega
  have hinumk : (w.icache k).inum = i := by rw [hopen.holding.inum k hkw, h.inum]
  have hown := hopen.ownsDir hq hdi hxd htype
  refine ends_bind (ends_bind (returns_devOf ?_))
  refine ends_bind (returns_devOf ?_)
  rw [hown.dev, hopen.holding.coherent.dev k hrefk]
  simp only [ne_eq, not_true_eq_false, if_false]
  refine ends_bind (returns_inumOf ?_)
  rw [hinumk]
  refine hown.ends_dirlink hopen.holding.coherent ?_ (Or.inr trivial) (fun j l v _ hv => ?_)
    (fun _ _ => trivial) (fun _ _ _ => trivial) fun y v hmiss hv => ?_
  · rw [hopen.holding.frame, h.doing.outstanding]
    change 1 ≤ s.log.outstanding + 1
    omega
  · -- The name is there.
    refine ends_bind (hopen.partly_iput hq.toAtRest hv fun hopen' => ends_pure ?_)
    have hneg : (-1 : ℤ) < 0 := by decide
    simp only [hneg, if_true]
    refine ends_bind (hopen'.returns_iunlockput hq.toAtRest hdi hxd
      fun hw hlock => ?_)
    exact hbad (h.holding hs.coherent hw hlock)
  · -- The entry is stored.
    simp only [lt_irrefl, if_false]
    have hdw : Doing M s.begun ([dp] ++ [k]) w := h.doing.holding hopen.holding fun m hm => by
      rw [mem_singleton.1 hm, hopen.inum]
      exact hdi
    have hdv := hdw.rewrote hv.rewrote (hopen.holding.ref_pos hq.coherent)
    have hin := hv.rewrote.inodes_eq
    rw [hopen.inum, hopen.holding.disk, h.inodes_eq] at hin
    have hlock : v.lock = update s.lock dp (some p) := by
      rw [hv.rewrote.lock, hopen.lock]
      exact congrArg (update · dp (some p)) h.lock
    have hfree : update v.lock dp none = s.lock := by
      rw [hlock, update_idem]
      exact update_eq_self_iff.2 (hs.lock dp).symm
    have hnlink : y.din.nlink = xd.din.nlink := congrArg FileData.nlink hv.file
    refine ends_bind (returns_iunlockput (by rw [hlock, update_self])
      (hdv.ref_pos hs.coherent mem_cons_self) (fun _ h0 => ?_) ?_)
    · rw [hv.owns.copy, hnlink] at h0
      have := hlinks di xd hxds
      rw [h0] at this
      exact absurd this (by decide)
    have hread : inodes M v.disk i = some x.addLink := by
      rw [hin, update_of_ne hne.symm, update_self]
    refine ends_bind (returns_iput ?_ (fun hval h0 => ?_) ?_)
    · change update v.lock dp none k = none
      rw [hfree]
      exact hs.lock k
    · have hcopy := (hdv.coherent.copy k (hdv.ref_pos hs.coherent (by simp)) hval).1
      rw [hv.rewrote.icache, hinumk, (readInode_eq_some (inodes_eq_some.1 hread).2).1] at hcopy
      change (v.copy k).din.nlink = 0 at h0
      rw [hcopy] at h0
      exact absurd h0 (add_one_ne_zero_of_pos hpos)
    refine ((hdv.dropped hs.coherent).dropped hs.coherent).partly_endOp ?_ fun u hu hud => ?_
    · change update (update v.lock dp none) k none = s.lock
      rw [hfree]
      exact update_eq_self_iff.2 (hs.lock k).symm
    · have hvu : u.disk = v.disk := hud
      refine ⟨hu, Or.inr ⟨rfl, di, _, xd, y, name, hold, hxi, ht, htarget, hname, hxds, hmiss,
        hown.whole.vacant, hv.file, hv.keeps, ?_, ?_⟩⟩
      · rw [hvu, hin]
        rfl
      · rw [hvu]
        exact hv.rewrote.consistent

/-- A failed `link` leaves no trace. For every state of the file system between two calls, in
which the blocks of the inodes are in order and every inode has links, if `sys_link` returns -1
the disk is as before. If it returns 0 the count of links of the inode of the old path, a `short`,
was raised by one, the directory of the new path has one entry more, which names this inode, and no
other inode has changed. In both cases every lock, every pointer to an inode and the operation are
given back. -/
theorem link_all_or_nothing (hs : Quiet M s)
    (hlinks : ∀ i x, inodes M s.disk i = some x → 0 < x.din.nlink)
    (hout : 0 ≤ s.log.outstanding) (hcwd : HasCwd M s p) {old new : List UInt8} {r : ℤ}
    (h : (sysLink M p old new).run s = .ok (r, t)) :
    Over s t ∧ (r = -1 ∧ t.disk = s.disk ∨
      r = 0 ∧ ∃ i di j x xd y name, Linked M s p old new t i di j x xd y name) := by
  have hb : Quiet M s.begun := hs.setLog _
  refine Partly.of_run (Q := fun r t => Over s t ∧ (r = -1 ∧ t.disk = s.disk ∨
    r = 0 ∧ ∃ i di j x xd y name, Linked M s p old new t i di j x xd y name)) ?_ h
  have hfail : ∀ {w}, Holding M s.begun [] w → w.lock = s.lock →
      Partly (do endOp; return -1) w fun r t => Over s t ∧ (r = -1 ∧ t.disk = s.disk ∨
        r = 0 ∧ ∃ i di j x xd y name, Linked M s p old new t i di j x xd y name) := by
    intro w hw hlock
    refine ((Doing.refl hb).holding hw fun _ hm => by cases hm).partly_endOp hlock
      fun u hu hud => ?_
    exact ⟨hu, Or.inl ⟨rfl, by rw [hud, hw.disk]; rfl⟩⟩
  refine ends_bind (partly_beginOp ?_)
  refine ends_bind (hb.toSettled.partly_namei hcwd old (fun w _ hw hlock => hfail hw hlock)
    fun k i w htarget hi hfound => ?_)
  refine ends_bind (hfound.partly_ilock hb.toAtRest hi fun x w hx hopen => ?_)
  refine ends_bind (returns_load ?_)
  rw [hopen.copy]
  by_cases ht : x.din.type = T_DIR
  · simp only [ht, if_true]
    exact ends_bind (hopen.returns_iunlockput hb.toAtRest hi hx fun hw hlock =>
      hfail hw hlock)
  · simp only [ht, if_false]
    refine hopen.partly_raise hb hi hx ?_ fun u hu => ?_
    · change 1 ≤ s.log.outstanding + 1
      omega
    · refine (hu.partly_link hb hi hx ht hlinks hout hcwd htarget).mono ?_
      rintro r t ⟨hover, hminus | ⟨hr, di, j, xd, y, name, hl⟩⟩
      · exact ⟨hover, Or.inl hminus⟩
      · exact ⟨hover, Or.inr ⟨hr, i, di, j, x, xd, y, name, hl⟩⟩

/-- A second name for the file `"a"`. -/
theorem link_all_or_nothing_tiny : Quiet tiny (tinyBoot 0) ∧
    ∃ t, (sysLink tiny () [97] [98]).run (tinyBoot 0) = .ok (0, t) ∧ Over (tinyBoot 0) t ∧
      ∃ i di j x xd y name, Linked tiny (tinyBoot 0) () [97] [98] t i di j x xd y name := by
  have hq := quiet_tinyBoot 0
  obtain ⟨t, ht⟩ : ∃ t, (sysLink tiny () [97] [98]).run (tinyBoot 0) = .ok (0, t) :=
    exists_run (by decide +kernel)
  obtain ⟨hover, hr | hr⟩ := link_all_or_nothing hq nlink_tinyFiles (le_refl (0 : ℤ))
    (hasCwd_tinyBoot 0) ht
  · exact absurd hr.1 (by decide)
  · exact ⟨hq, t, ht, hover, hr.2⟩

end Xv6.Fs
