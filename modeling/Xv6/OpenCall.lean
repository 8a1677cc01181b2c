import Xv6.InodeLife
import Xv6.TinyVolume

/-!
# `sys_open`

`create` and `sys_open`, executed alone. A call with `O_CREATE` makes the inode and its entry
before it allocates the file structure and the descriptor. When one of them is used up it returns
-1, and the new file stays (`open_failed_iff`).
-/

set_option linter.unusedSectionVars false

namespace Xv6.Fs

open Prog Function List Option

variable {path : List UInt8} {omode : ℕ}

variable {P : Type} [DecidableEq P] {M : Mount} {p : P} {s t u : State P} {k l : Slot} {i : ℕ}
  {x y : Extent} {ks : List Slot}

/-! ## A new inode -/

theorem Doing.alloc (h : Doing M s ks t) (hfree : (M.dinode t.disk i).type = 0) (type : Int16) :
    Doing M s ks (t.alloc M i type) :=
  { h with
    frame := by
      unfold State.alloc State.write
      rw [h.frame]
    coherent := h.coherent.alloc hfree type }

/-! ## Creating a file -/

/-- From `s` to `t` a call has allocated inode `i` for an entry in directory `di`, and has
locked both. -/
structure Making (M : Mount) (s : State P) (p : P) (dp ip : Slot) (di i : ℕ) (xd : Extent)
    (type : Int16) (t : State P) : Prop where
  doing : Doing M s [ip, dp] t
  lock : t.lock = update (update s.lock dp (some p)) ip (some p)
  dinum : (t.icache dp).inum = di
  inum : (t.icache ip).inum = i
  dcopy : t.copy dp = ⟨true, xd.din⟩
  copy : t.copy ip = ⟨true, Dinode.fresh type⟩
  free : inodes M s.disk i = none
  inodes_eq : inodes M t.disk = update (inodes M s.disk) i (some (.bare (Dinode.fresh type)))
  consistent : Consistent M t.disk

/-- From `s` to `t` a call has made the inode `i`, and has locked it. -/
structure Created (M : Mount) (s : State P) (p : P) (ip : Slot) (i : ℕ) (t : State P) : Prop where
  doing : Doing M s [ip] t
  lock : t.lock = update s.lock ip (some p)
  free : inodes M s.disk i = none
  made : ∃ x, inodes M t.disk i = some x
  nlink : (t.copy ip).din.nlink = 1

/-- The entry for the new file. -/
theorem Making.partly_createEntry {dp ip : Slot} {di : ℕ} {xd : Extent} {name : List UInt8}
    (h : Making M s p dp ip di i xd T_FILE t) (hs : Quiet M s) (hout : 1 ≤ s.log.outstanding)
    (hxd : inodes M s.disk di = some xd) (ht : xd.din.type = T_DIR)
    (hlink : xd.din.nlink = 0 → (s.icache dp).ref ≠ 0) (hmiss : xd.file.index name = none)
    {Q : Unit → State P → Prop} (hQ : ∀ u, Created M s p ip i u → Q () u) :
    Partly (createEntry M p dp ip name T_FILE 0 0) t Q := by
  have hne : di ≠ i := by
    rintro rfl
    rw [h.free] at hxd
    cases hxd
  have href : 0 < (t.icache ip).ref := h.doing.ref_pos hs.coherent (by simp)
  have hdref : 0 < (t.icache dp).ref := h.doing.ref_pos hs.coherent (by simp)
  have hslot : dp ≠ ip := by
    rintro rfl
    exact hne (h.dinum.symm.trans h.inum)
  have hown : Owns M t ip (inodes M t.disk) (.bare (Dinode.fresh T_FILE)) :=
    h.consistent.owns (h.doing.coherent.dev ip href)
      (by rw [h.inum, h.inodes_eq, update_self]) (by rw [h.copy]; rfl)
  unfold createEntry
  refine ends_update hown (by rw [h.doing.outstanding]; exact hout) rfl (show T_FILE ≠ 0 by decide)
    (fun _ _ _ => trivial) fun u hu _ => ?_
  have hfd : ¬ T_FILE = T_DIR := by decide
  simp only [hfd, if_false]
  have hdu := h.doing.rewrote hu href
  have hin := hu.inodes_eq
  rw [h.inum, h.inodes_eq, update_idem] at hin
  have hdcopy : (u.copy dp).din = xd.din := by
    obtain ⟨B, hB⟩ := hu.logs
    rw [hB.other dp hslot, h.dcopy]
  have hdinum : (u.icache dp).inum = di := by rw [hu.icache, h.dinum]
  have hdir : OwnsDir M u dp (inodes M u.disk) xd := by
    obtain ⟨hlt, hread⟩ := inodes_eq_some.1 hxd
    refine (hu.consistent.owns (hdu.coherent.dev dp (by rwa [hu.icache])) ?_ hdcopy).dir ht
      (hs.dirs di hlt xd hread ht)
    rw [hdinum, hin, update_of_ne hne, hxd]
  refine ends_bind (returns_inumOf ?_)
  refine ends_bind (hdir.ends_dirlink hdu.coherent (by rw [hdu.outstanding]; exact hout)
    (Or.inr trivial) (fun j l v hj _ => ?_) (fun _ _ => trivial) (fun _ _ _ => trivial)
    fun y v _ hv => ?_)
  · rw [hmiss] at hj
    cases hj
  simp only [lt_irrefl, if_false]
  have hdv := (hdu.rewrote hv.rewrote (by rwa [hu.icache])).perm (List.Perm.swap dp ip [])
  have hlock : v.lock = update (update s.lock dp (some p)) ip (some p) := by
    rw [hv.rewrote.lock, hu.lock, h.lock]
  refine returns_iunlockput ?_ (hdv.ref_pos hs.coherent mem_cons_self) (fun _ h0 => ?_)
    (hQ _ ⟨hdv.dropped hs.coherent, ?_, h.free, ?_, ?_⟩)
  · rw [hlock, update_of_ne hslot, update_self]
  · have hnlink : y.din.nlink = xd.din.nlink := congrArg FileData.nlink hv.file
    rw [hv.owns.copy, hnlink] at h0
    have hpos := hs.coherent.nonneg dp
    have := hlink h0
    rw [hdv.ref, count_cons_self]
    omega
  · change update v.lock dp none = _
    have hfree : update s.lock dp none = s.lock := update_eq_self_iff.2 (hs.lock dp).symm
    rw [hlock, update_comm hslot.symm, update_idem, hfree]
  · change ∃ x, inodes M v.disk i = some x
    rw [hv.rewrote.inodes_eq, hdinum, update_of_ne hne.symm, hin, update_self]
    exact ⟨_, rfl⟩
  · change (v.copy ip).din.nlink = 1
    rw [hv.logs.other ip hslot.symm, hu.owns.copy]
    rfl

/-- The path leads to a directory that does not have the last name. -/
def Missing (M : Mount) (s : State P) (p : P) (path : List UInt8) : Prop :=
  ∃ di xd name, resolveParent (files M s.disk) (startInode s p path) (comps path) = .inode di ∧
    inodes M s.disk di = some xd ∧ (comps path).getLast? = some name ∧
    xd.file.index name = none

/-- `create` of a file returns an inode that was there, makes a new one, or returns 0 and leaves
everything as it was. -/
theorem Quiet.partly_create (hs : Quiet M s) (hout : 1 ≤ s.log.outstanding) (hcwd : HasCwd M s p)
    {Q : Option Slot → State P → Prop}
    (hnone : ∀ t, ¬ Missing M s p path → Holding M s [] t → t.lock = s.lock → Q none t)
    (hold : ∀ k i x t, ¬ Missing M s p path → i < M.sb.ninodes → readInode M s.disk i = some x →
      Opened M s p k [] i x t → Q (some k) t)
    (hnew : ∀ k i t, Missing M s p path → Created M s p k i t → Q (some k) t) :
    Partly (create M p path T_FILE 0 0) s Q := by
  unfold create
  refine ends_bind (hs.toSettled.partly_nameiparent hcwd path (fun w htarget hw hlock => ?_)
    fun dp name di w htarget hname hdi hfound => ?_)
  · refine ends_pure (hnone w ?_ hw hlock)
    rintro ⟨di, xd, name, htarget', -⟩
    rw [htarget] at htarget'
    cases htarget'
  refine ends_bind (hfound.partly_ilock hs.toAtRest hdi fun xd w hxd hopen => ?_)
  have hin : inodes M s.disk di = some xd := inodes_eq_some.2 ⟨hdi, hxd⟩
  have htype : xd.din.type = T_DIR := by
    obtain ⟨f, hf, hdir⟩ := resolveParent_eq_inode htarget
    rw [files_eq hdi, hin, map_some] at hf
    rw [← hdir, ← some.inj hf]
    rfl
  have hdir := hopen.cachedDir hs.toSettled hdi hxd htype
  cases hj : xd.file.index name with
  | some j =>
    have hthere : ¬ Missing M s p path := by
      rintro ⟨di', xd', name', htarget', hin', hname', hmiss⟩
      obtain rfl := Target.inode.inj (htarget.symm.trans htarget')
      obtain rfl := some.inj (hin.symm.trans hin')
      obtain rfl := some.inj (hname.symm.trans hname')
      rw [hj] at hmiss
      cases hmiss
    have hinum : (xd.file.entry j).inum < M.sb.ninodes :=
      (hs.dirs di hdi xd hxd htype).inums j (hdir.whole.finds hj).complete
    refine ends_bind (hdir.ends_dirlookup hopen.holding.coherent hj (Or.inr trivial)
      fun l v hv => ?_)
    refine ends_bind ((hopen.taken hs.toAtRest hv).returns_iunlockput hs.toAtRest
      hdi hxd fun hl hlock => ?_)
    have hfound' : Found M s l (xd.file.entry j).inum (v.dropped dp) :=
      ⟨hl, hlock, by rw [State.dropped_inum, hv.entry]⟩
    refine ends_bind (hfound'.partly_ilock hs.toAtRest hinum fun x u hx hopen' => ?_)
    refine ends_bind (returns_load ?_)
    rw [hopen'.copy]
    split_ifs
    · exact ends_pure (hold l _ x u hthere hinum hx hopen')
    · exact ends_bind (hopen'.returns_iunlockput hs.toAtRest hinum hx
        fun hu hulock => ends_pure (hnone _ hthere hu hulock))
  | none =>
    refine ends_bind (hdir.returns_dirlookup_none hj ?_)
    refine ends_bind (returns_devOf ?_)
    rw [hdir.dev]
    have hdw : Doing M s [dp] w := (Doing.refl hs).holding hopen.holding fun m hm => by
      rw [mem_singleton.1 hm, hopen.inum]
      exact hdi
    refine ends_bind (hopen.holding.coherent.ends_ialloc
      (by rw [hdw.outstanding]; exact hout) (fun _ _ _ => trivial) (fun _ => trivial)
      (fun _ => trivial) fun i l v _ hi hfree hv => ?_)
    have hdisk : w.disk = s.disk := hopen.holding.disk
    have hnone' : inodes M s.disk i = none := by
      rw [inodes, if_pos hi, readInode_eq_none, ← hdisk, hfree]
    have hne : di ≠ i := by
      rintro rfl
      rw [hnone'] at hin
      cases hin
    obtain ⟨hinv, hcons⟩ := Consistent.putBare hs.consistent hi (by rw [← hdisk, hfree])
      (Dinode.fresh T_FILE) (fun _ => by simp [Dinode.addr, Dinode.fresh])
      (show T_FILE ≠ 0 by decide)
    have hvdisk : v.disk = M.putDinode s.disk i (Dinode.fresh T_FILE) := by
      rw [hv.disk, ← hdisk]
      rfl
    rw [← hvdisk] at hinv hcons
    have hda := hdw.alloc hfree T_FILE
    have hdv : Doing M s [l, dp] v :=
      hda.holding ((Holding.refl hda.coherent).taken hv) fun m hm => by
        rw [mem_singleton.1 hm, hv.entry]
        exact hi
    have hdref : 0 < ((w.alloc M i T_FILE).icache dp).ref :=
      hda.ref_pos hs.coherent mem_cons_self
    have hdinum : (v.icache dp).inum = di := by
      rw [hv.inum_eq hdref]
      exact hopen.inum
    have hinum : (v.icache l).inum = i := by rw [hv.entry]
    have hslot : l ≠ dp := by
      rintro rfl
      exact hne (hdinum.symm.trans hinum)
    have hlock : v.lock = update s.lock dp (some p) := by
      rw [hv.lock, ← hopen.lock]
      rfl
    have hread : readInode M v.disk (v.icache l).inum = some (.bare (Dinode.fresh T_FILE)) := by
      have := congrFun hinv i
      rwa [update_self, inodes, if_pos hi, ← hinum] at this
    obtain ⟨hdin, htype', -⟩ := readInode_eq_some hread
    have hmaking : Making M s p dp l di i xd T_FILE { v with
        lock := update v.lock l (some p)
        copy := update v.copy l ⟨true, (Extent.bare (Dinode.fresh T_FILE)).din⟩ } := by
      refine ⟨?_, by rw [hlock], hdinum, hinum, ?_, update_self .., hnone', hinv, hcons⟩
      · exact hdv.holding ((Holding.refl hdv.coherent).locked hdin htype' (some p))
          fun _ hm => by cases hm
      · change update v.copy l _ dp = _
        rw [update_of_ne hslot.symm, hv.copy_eq hdref]
        exact hopen.copy
    refine ends_bind (hdv.coherent.returns_ilock
      (hdv.ref_pos hs.coherent mem_cons_self) ?_ (by rwa [hinum]) hread ?_)
    · rw [hlock, update_of_ne hslot]
      exact hs.lock l
    refine ends_bind (hmaking.partly_createEntry hs hout hin htype (fun h0 => ?_) hj fun u hu => ?_)
    · have hkeep := hopen.holding.keep hs.toAtRest (by rwa [hopen.inum])
        (by rw [hopen.inum]; exact hxd) h0
      rw [hopen.holding.ref, count_cons_self] at hkeep
      intro hzero
      rw [hzero] at hkeep
      exact hkeep rfl
    · exact ends_pure (hnew l i u ⟨di, xd, name, htarget, hin, hname, hj⟩ hu)

/-! ## Opening a file -/

/-- The call makes a new file. -/
def Creates (M : Mount) (s : State P) (p : P) (path : List UInt8) (omode : ℕ) : Prop :=
  omode &&& O_CREATE ≠ 0 ∧ Missing M s p path

/-- The call has locked the inode that it is going to open, and has made it if need be. -/
structure Opening (M : Mount) (s : State P) (p : P) (path : List UInt8) (omode : ℕ) (k : Slot)
    (t : State P) : Prop where
  doing : Doing M s [k] t
  lock : t.lock = update s.lock k (some p)
  keep : (t.copy k).din.nlink = 0 → (t.icache k).ref ≠ 1
  disk : ¬ Creates M s p path omode → t.disk = s.disk
  inodes_ne : Creates M s p path omode → inodes M t.disk ≠ inodes M s.disk

theorem Opened.opening (h : Opened M s p k [] i x t) (hs : Quiet M s) (hi : i < M.sb.ninodes)
    (hx : readInode M s.disk i = some x) (hno : ¬ Creates M s p path omode) :
    Opening M s p path omode k t where
  doing := (Doing.refl hs).holding h.holding fun m hm => by
    rw [mem_singleton.1 hm, h.inum]
    exact hi
  lock := h.lock
  keep h0 := by
    rw [h.copy] at h0
    exact h.holding.keep hs.toAtRest (by rwa [h.inum]) (by rw [h.inum, hx]) h0
  disk _ := h.holding.disk
  inodes_ne hc := absurd hc hno

theorem Created.opening (h : Created M s p k i t) (hc : Creates M s p path omode) :
    Opening M s p path omode k t :=
  { h with
    keep := fun h0 => by
      rw [h.nlink] at h0
      exact absurd h0 (by decide)
    disk := fun hno => absurd hc hno
    inodes_ne := fun _ he => by
      obtain ⟨x, hx⟩ := h.made
      rw [he, h.free] at hx
      cases hx }

/-- The inode to open. -/
theorem Quiet.partly_openInode (hs : Quiet M s) (hout : 1 ≤ s.log.outstanding) (hcwd : HasCwd M s p)
    {Q : Option Slot → State P → Prop}
    (hnone : ∀ t, ¬ Creates M s p path omode → Holding M s [] t → t.lock = s.lock → Q none t)
    (hsome : ∀ k t, Opening M s p path omode k t → Q (some k) t) :
    Partly (openInode M p path omode) s Q := by
  unfold openInode
  by_cases hc : omode &&& O_CREATE ≠ 0
  · rw [if_pos hc]
    exact hs.partly_create hout hcwd (fun t hno => hnone t fun hcr => hno hcr.2)
      (fun k i x t hno hi hx hopen => hsome k t (hopen.opening hs hi hx fun hcr => hno hcr.2))
      fun k i t hmiss hcr => hsome k t (hcr.opening ⟨hc, hmiss⟩)
  · rw [if_neg hc]
    have hno : ¬ Creates M s p path omode := fun hcr => hc hcr.1
    refine ends_bind (hs.toSettled.partly_namei hcwd path
      (fun t _ ht hlock => ends_pure (hnone t hno ht hlock)) fun k i t _ hi hfound => ?_)
    refine ends_bind (hfound.partly_ilock hs.toAtRest hi fun x u hx hopen => ?_)
    refine ends_bind (returns_load ?_)
    split_ifs
    · exact ends_bind (hopen.returns_iunlockput hs.toAtRest hi hx
        fun hu hlock => ends_pure (hnone _ hno hu hlock))
    · exact ends_pure (hsome k u (hopen.opening hs hi hx hno))

/-- Nothing is left of a call : no pointer, file or descriptor, and no change on the disk. -/
structure Unchanged (M : Mount) (s t : State P) : Prop where
  done : Over s t
  inodes_eq : inodes M t.disk = inodes M s.disk
  inUse_eq : ∀ b, M.inUse t.disk b = M.inUse s.disk b

/-- The end of a call that has failed. -/
theorem Opening.partly_close (h : Opening M s.begun p path omode k t) (hs : Quiet M s.begun) :
    Partly (do
      iunlockput M p k
      endOp
      return -1) t fun r u => r = -1 → (Unchanged M s u ↔ ¬ Creates M s.begun p path omode) := by
  refine ends_bind (returns_iunlockput (by rw [h.lock, update_self])
    (h.doing.ref_pos hs.coherent mem_cons_self) (fun _ => h.keep) ?_)
  refine (h.doing.dropped hs.coherent).partly_endOp ?_ fun u hu hud _ => ?_
  · change update t.lock k none = s.lock
    rw [h.lock, update_idem, update_eq_self_iff.2 (hs.lock k).symm]
    rfl
  · have hdisk : u.disk = t.disk := hud
    refine ⟨fun hun hc => h.inodes_ne hc ?_, fun hno => ⟨hu, ?_, fun b => ?_⟩⟩
    · rw [← hdisk]
      exact hun.inodes_eq
    · rw [hdisk, h.disk hno]
      rfl
    · rw [hdisk, h.disk hno]
      rfl

/-- `filealloc` takes a free entry of the file table. -/
theorem partly_filealloc {E : Stop Wait → State P → Prop} {Q : Option FileId → State P → Prop}
    (hnone : Q none s) (hsome : ∀ f, (s.ftable f).ref = 0 →
      Q (some f) (s.setFile f { s.ftable f with ref := 1 })) : Ends filealloc s Q E := by
  refine ends_atomic ?_
  cases hf : (List.finRange NFILE).find? fun f => decide ((s.ftable f).ref = 0) with
  | none => exact hnone
  | some f => exact hsome f (by simpa using List.find?_some hf)

/-- A file that was allocated and not filled in is closed without a trace. -/
theorem partly_fileclose {E : Stop Wait → State P → Prop} {f : FileId}
    {Q : Unit → State P → Prop} (href : (s.ftable f).ref = 0)
    (htype : (s.ftable f).type = .none) (hQ : Q () s) :
    Ends (fileclose M p f) (s.setFile f { s.ftable f with ref := 1 }) Q E := by
  have hset : (s.setFile f { s.ftable f with ref := 1 }).setFile f
      { s.ftable f with ref := 0, type := .none } = s := by
    have hf : ({ s.ftable f with ref := 0, type := .none } : File) = s.ftable f := by
      rw [← href, ← htype]
    unfold State.setFile
    rw [update_idem, hf, update_eq_self]
  have hget : (s.setFile f { s.ftable f with ref := 1 }).ftable f =
      { s.ftable f with ref := 1 } := update_self ..
  generalize s.setFile f { s.ftable f with ref := 1 } = s' at hset hget
  refine ends_bind (ends_atomic ?_)
  simp only [hget, lt_irrefl, sub_self, if_false, htype, reduceCtorEq, hset]
  exact ends_pure hQ

/-- A failed `open` leaves the file system unchanged unless it has made a file. For every state
of the file system between two calls and every path and mode, if `sys_open` returns -1 then the
inodes and the bitmap on the disk are as before, and no pointer, file or descriptor is kept, if
and only if the mode has no `O_CREATE`, or the path does not lead to a directory that misses the
last name. -/
theorem open_failed_iff (hs : Quiet M s)
    (hfiles : ∀ f, (s.ftable f).ref = 0 → (s.ftable f).type = .none)
    (hout : 0 ≤ s.log.outstanding) (hcwd : HasCwd M s p) {path : List UInt8} {omode : ℕ}
    (h : (sysOpen M p path omode).run s = .ok (-1, t)) :
    Unchanged M s t ↔ ¬ Creates M s p path omode := by
  have hb : Quiet M s.begun := hs.setLog _
  refine Partly.of_run (Q := fun r t => r = -1 → (Unchanged M s t ↔ ¬ Creates M s p path omode))
    ?_ h rfl
  refine ends_bind (partly_beginOp ?_)
  refine ends_bind (hb.partly_openInode ?_ hcwd (fun t hno ht hlock => ?_) fun k t hk => ?_)
  · change 1 ≤ s.log.outstanding + 1
    omega
  · refine ((Doing.refl hb).holding ht fun _ hm => by cases hm).partly_endOp hlock
      fun u hu hud _ => ⟨fun _ => hno, fun _ => ⟨hu, ?_, fun b => ?_⟩⟩
    · rw [hud, ht.disk]
      rfl
    · rw [hud, ht.disk]
      rfl
  have hftable : t.ftable = s.ftable := by
    rw [hk.doing.frame]
    rfl
  refine ends_bind (partly_filealloc (hk.partly_close hb) fun f href => ?_)
  refine ends_bind (ends_atomic ?_)
  simp only
  cases hfd : (List.finRange NOFILE).find? fun fd => (((t.setFile f _).proc p).ofile fd).isNone with
  | none =>
    refine ends_bind (partly_fileclose href ?_ (hk.partly_close hb))
    rw [hftable] at href ⊢
    exact hfiles f href
  | some fd =>
    have hfd0 : ((fd.val : ℕ) : ℤ) ≠ -1 := by omega
    refine ends_bind ((partly_true _ _).mono fun _ _ _ => ?_)
    refine ends_bind ((partly_true _ _).mono fun _ _ _ => ?_)
    refine ends_bind ((partly_true _ _).mono fun _ _ _ => ?_)
    exact ends_pure fun he => absurd he hfd0

/-- A path that leads nowhere. -/
theorem open_failed_iff_tiny : Quiet tiny (tinyBoot 0) ∧
    ∃ t, (sysOpen tiny () [98] O_RDWR).run (tinyBoot 0) = .ok (-1, t) ∧
      Unchanged tiny (tinyBoot 0) t := by
  have hq := quiet_tinyBoot 0
  obtain ⟨t, ht⟩ : ∃ t, (sysOpen tiny () [98] O_RDWR).run (tinyBoot 0) = .ok (-1, t) :=
    exists_run (by decide +kernel)
  refine ⟨hq, t, ht, (open_failed_iff hq (fun _ _ => rfl) (le_refl (0 : ℤ)) (hasCwd_tinyBoot 0)
    ht).2 fun hc => hc.1 (by decide)⟩

/-- All the descriptors of the process are for one file, the root directory. -/
def fullBoot : State Unit := { tinyBoot 1 with
  ftable := fun f => if f.val = 0 then ⟨.inode, 16, true, false, ⟨0, ninode_pos⟩, 0⟩
    else ⟨.none, 0, false, false, ⟨0, ninode_pos⟩, 0⟩
  proc := fun _ => ⟨some ⟨0, ninode_pos⟩, fun _ => some ⟨0, nfile_pos⟩⟩ }

/-- With no descriptor left, `open` with `O_CREATE` returns -1 and has made a file. -/
theorem open_failed_creates : Quiet tiny fullBoot ∧
    (∀ f, (fullBoot.ftable f).ref = 0 → (fullBoot.ftable f).type = .none) ∧
    HasCwd tiny fullBoot () ∧
    ∃ t, (sysOpen tiny () [98] (O_CREATE ||| O_RDWR)).run fullBoot = .ok (-1, t) ∧
      inodes tiny fullBoot.disk 3 = none ∧ (inodes tiny t.disk 3).isSome ∧
      ¬ Unchanged tiny fullBoot t := by
  have hq := quiet_tinyBoot 1
  have hc := hq.coherent
  have hnone : inodes tiny fullBoot.disk 3 = none := by
    change inodes tiny tinyFiles 3 = none
    rw [inodes_tinyFiles.1, update_of_ne (by decide), update_of_ne (by decide)]
  have hrun : ((sysOpen tiny () [98] (O_CREATE ||| O_RDWR)).run fullBoot).toOption.map
      (fun r => (r.1, decide ((tiny.dinode r.2.disk 3).type = 0))) = some (-1, false) := by
    decide +kernel
  obtain ⟨⟨r, t⟩, hok, heq⟩ := map_eq_some_iff.1 hrun
  obtain ⟨rfl, htype⟩ := Prod.mk.inj heq
  have hsome : (inodes tiny t.disk 3).isSome := by
    rw [inodes, if_pos (by decide), readInode, if_neg (of_decide_eq_false htype)]
    rfl
  refine ⟨⟨⟨⟨⟨hc.nonneg, hc.dev, hc.uniq, hc.copy⟩, hq.lock, hq.linked⟩, hq.root, hq.dirs⟩,
    hq.consistent, hq.below⟩, fun f hf => ?_, hasCwd_tinyBoot 1, t, ?_, hnone, hsome, fun hu => ?_⟩
  · by_cases h0 : f.val = 0
    · simp only [fullBoot, h0, if_true] at hf
      exact absurd hf (by decide)
    · simp only [fullBoot, h0, if_false]
  · exact run_of_toOption hok
  · rw [hu.inodes_eq, hnone] at hsome
    cases hsome

end Xv6.Fs
