import Xv6.SoloRules

/-!
# Path names

`namei` and `nameiparent`, executed alone in a state in which no inode is locked (`Settled`),
go where `resolve` and `resolveParent` say. The pointer to the inode that they return is the
only one that they keep (`Holding`), and they give back every lock.

The walk stops with a panic when it makes a step in an inode that is not allocated. A removed
directory that is still somebody's current directory has such a step : its entry `".."` stays
when the parent is removed as well (`orphan_panics`).
-/

set_option linter.unusedSectionVars false

namespace Xv6.Fs

open Prog Function List Option

variable {P : Type} [DecidableEq P] {M : Mount} {p : P} {s t u : State P} {k l : Slot}
  {x : Extent} {i : ℕ} {ks : List Slot}

/-! ## Pointers that a call holds -/

/-- From `s` to `t` a call has changed the inode cache only, and holds the pointers `ks`. -/
structure Holding (M : Mount) (s : State P) (ks : List Slot) (t : State P) : Prop where
  frame : t = { s with icache := t.icache, copy := t.copy, lock := t.lock }
  coherent : Coherent M t
  ref : ∀ m, (t.icache m).ref = (s.icache m).ref + ks.count m
  inum : ∀ m, 0 < (s.icache m).ref → (t.icache m).inum = (s.icache m).inum

namespace Holding

theorem refl (h : Coherent M s) : Holding M s [] s := ⟨rfl, h, fun m => by simp, fun _ _ => rfl⟩

theorem disk (h : Holding M s ks t) : t.disk = s.disk := by rw [h.frame]

theorem perm {ks' : List Slot} (h : Holding M s ks t) (hp : ks.Perm ks') : Holding M s ks' t :=
  { h with ref := fun m => by rw [h.ref, hp.count_eq] }

theorem ref_pos (h : Holding M s (k :: ks) t) (hs : Coherent M s) : 0 < (t.icache k).ref := by
  have := hs.nonneg k
  rw [h.ref, count_cons_self]
  omega

theorem taken (h : Holding M s ks t) (ht : Taken t l i u) : Holding M s (l :: ks) u where
  frame := by
    rw [ht.frame, h.frame]
  coherent := h.coherent.taken ht
  ref m := by
    rw [ht.ref_eq, h.ref, count_cons]
    simp only [beq_iff_eq, eq_comm (a := l)]
    split_ifs <;> push_cast <;> ring
  inum m hm := by
    have hpos : 0 < (t.icache m).ref := by
      rw [h.ref]
      omega
    rw [ht.inum_eq hpos, h.inum m hm]

/-- After `ilock`. -/
theorem locked (h : Holding M s ks t) (hdin : M.dinode t.disk (t.icache k).inum = x.din)
    (htype : x.din.type ≠ 0) (o : Option P) : Holding M s ks { t with
      lock := update t.lock k o
      copy := update t.copy k ⟨true, x.din⟩ } :=
  { h with
    frame := by rw [h.frame]
    coherent := by
      refine { h.coherent with copy := fun m hm hv => ?_ }
      by_cases hmk : m = k
      · subst hmk
        simp only [update_self]
        exact ⟨hdin.symm, htype⟩
      · simp only [update_of_ne hmk] at hv ⊢
        exact h.coherent.copy m hm hv }

/-- After `iunlock`. -/
theorem unlocked (h : Holding M s ks t) {lock : Slot → Option P} :
    Holding M s ks { t with lock := lock } :=
  { h with
    frame := by rw [h.frame]
    coherent := { h.coherent with } }

/-- After `iput`. -/
theorem dropped (h : Holding M s (k :: ks) t) (hs : Coherent M s) :
    Holding M s ks (t.dropped k) where
  frame := by
    unfold State.dropped
    rw [h.frame]
  coherent := h.coherent.dropped (h.ref_pos hs)
  ref m := by
    rw [State.dropped_ref, h.ref, count_cons]
    simp only [beq_iff_eq, eq_comm (a := k)]
    split_ifs <;> push_cast <;> ring
  inum m hm := by rw [State.dropped_inum, h.inum m hm]

end Holding

/-! ## The walk -/

/-- A directory as the kernel makes them. -/
structure GoodDir (M : Mount) (x : Extent) : Prop where
  holeFree : x.HoleFree
  whole : x.file.Whole
  below : ∀ j, x.ptr j < M.disksize
  inums : ∀ j, x.file.Complete j → (x.file.entry j).inum < M.sb.ninodes

/-- The inode cache between two calls. An inode without links is still in use. -/
structure AtRest (M : Mount) (s : State P) : Prop where
  coherent : Coherent M s
  lock : ∀ k, s.lock k = none
  linked : ∀ i < M.sb.ninodes, ∀ x, readInode M s.disk i = some x → x.din.nlink = 0 →
    ∃ k, 0 < (s.icache k).ref ∧ (s.icache k).inum = i

/-- The file system between two calls. -/
structure Settled (M : Mount) (s : State P) : Prop extends AtRest M s where
  root : ROOTINO < M.sb.ninodes
  dirs : ∀ i < M.sb.ninodes, ∀ x, readInode M s.disk i = some x → x.din.type = T_DIR → GoodDir M x

/-- The inode cache has room for two more inodes. -/
def Roomy (s : State P) : Prop := ∃ a b, a ≠ b ∧ (s.icache a).ref = 0 ∧ (s.icache b).ref = 0

/-- The files on a disk. -/
def files (M : Mount) (d : Disk) (i : ℕ) : Option FileData := (readInode M d i).map Extent.file

/-- The call holds one pointer, to inode `i`, and no lock. -/
structure Found (M : Mount) (s : State P) (k : Slot) (i : ℕ) (t : State P) : Prop where
  holding : Holding M s [k] t
  lock : t.lock = s.lock
  inum : (t.icache k).inum = i

/-- A walk along a path ends as the target says, or stops as `E` says. -/
def WalksTo (M : Mount) (s : State P) (x : Kernel P (Option (Slot × List UInt8)))
    (N : List UInt8 → Prop) (E : Stop Wait → State P → Prop) (t : State P) : Target → Prop
  | .inode i => Ends x t (fun r u => i < M.sb.ninodes ∧
      ∃ k name, r = some (k, name) ∧ N name ∧ Found M s k i u) E
  | .missing => Ends x t (fun r u => r = none ∧ Holding M s [] u ∧ u.lock = s.lock) E
  | .unallocated => Ends x t (fun _ _ => False) fun e u => e = .panic "ilock: no type" ∨ E e u

variable {N : List UInt8 → Prop} {E : Stop Wait → State P → Prop} {o : Target}

/-- The rule for sequences. -/
theorem walksTo_bind {α : Type} {y : Kernel P α} {f : α → Kernel P (Option (Slot × List UInt8))}
    (h : Ends y t (fun a u => WalksTo M s (f a) N E u o) E) : WalksTo M s (y >>= f) N E t o := by
  cases o with
  | inode i => exact ends_bind h
  | missing => exact ends_bind h
  | unallocated => exact ends_bind (h.imp (fun _ _ hu => hu) fun _ _ => Or.inr)

/-- The rule of consequence. -/
theorem WalksTo.mono {N' : List UInt8 → Prop} {y : Kernel P (Option (Slot × List UInt8))}
    (h : WalksTo M s y N E t o) (hN : ∀ name, N name → N' name) : WalksTo M s y N' E t o := by
  cases o with
  | inode i =>
    refine Ends.mono h ?_
    rintro r u ⟨hi, k, name, hr, hname, hu⟩
    exact ⟨hi, k, name, hr, hN name hname, hu⟩
  | missing => exact h
  | unallocated => exact h

/-- What is known of an inode that was read. -/
theorem readInode_eq_some {d : Disk} (h : readInode M d i = some x) :
    M.dinode d i = x.din ∧ x.din.type ≠ 0 ∧ x.OnDisk d ∧ x.cut = 0 := by
  unfold readInode at h
  split_ifs at h with ht
  obtain rfl := some.inj h
  exact ⟨rfl, ht, Extent.onDisk_read _ _ _, rfl⟩

/-- Nobody frees the inode when the pointer is given up. -/
theorem Holding.keep (h : Holding M s (k :: ks) t) (hs : AtRest M s)
    (hi : (t.icache k).inum < M.sb.ninodes) (hx : readInode M s.disk (t.icache k).inum = some x)
    (hlink : x.din.nlink = 0) : (t.icache k).ref ≠ 1 := by
  obtain ⟨m, hm, hinum⟩ := hs.linked _ hi x hx hlink
  have hpos : 0 < (t.icache m).ref := by
    rw [h.ref]
    omega
  have hmk : m = k := h.coherent.uniq m k hpos (h.ref_pos hs.coherent) (by rw [h.inum m hm, hinum])
  rw [h.ref, count_cons_self, ← hmk]
  omega

theorem Found.ref_pos (h : Found M s k i t) (hs : AtRest M s) : 0 < (t.icache k).ref :=
  h.holding.ref_pos hs.coherent

/-- Give up the pointer, and return 0. -/
theorem walksTo_iput (hs : AtRest M s) (hi : i < M.sb.ninodes) (h : Found M s k i t) :
    WalksTo M s (do iput M p k; return none) N E t .missing := by
  refine ends_bind (returns_iput (by rw [h.lock, hs.lock]) (fun hv h0 => ?_)
    (ends_pure ⟨rfl, h.holding.dropped hs.coherent, ?_⟩))
  · obtain ⟨hdin, htype⟩ := h.holding.coherent.copy k (h.ref_pos hs) hv
    rw [h.holding.disk] at hdin
    refine h.holding.keep hs (by rwa [h.inum])
      (x := .read s.disk (M.dinode s.disk (t.icache k).inum) 0) ?_ (by rw [← h0, hdin]; rfl)
    rw [readInode, if_neg (by rwa [← hdin])]
  · change update t.lock k none = s.lock
    rw [h.lock, update_eq_self_iff.2 (hs.lock k).symm]

/-- The inode is locked and read. The call holds the pointers `ks` besides the one to it. -/
structure Opened (M : Mount) (s : State P) (p : P) (k : Slot) (ks : List Slot) (i : ℕ)
    (x : Extent) (t : State P) : Prop where
  holding : Holding M s (k :: ks) t
  lock : t.lock = update s.lock k (some p)
  inum : (t.icache k).inum = i
  copy : t.copy k = ⟨true, x.din⟩

/-- `ilock` in `namex`. -/
theorem returns_open (hs : AtRest M s) (hi : i < M.sb.ninodes) (h : Found M s k i t)
    (hx : readInode M s.disk i = some x) :
    Ends (ilock M p k .walk) t (fun _ u => Opened M s p k [] i x u) E := by
  have hxt : readInode M t.disk (t.icache k).inum = some x := by rw [h.holding.disk, h.inum, hx]
  obtain ⟨hdin, htype, -⟩ := readInode_eq_some hxt
  refine h.holding.coherent.returns_ilock (h.ref_pos hs) (by rw [h.lock, hs.lock])
    (by rwa [h.inum]) hxt ⟨h.holding.locked hdin htype _, ?_, h.inum, update_self ..⟩
  rw [h.lock]

namespace Opened

theorem cachedDir (h : Opened M s p k ks i x t) (hs : Settled M s) (hi : i < M.sb.ninodes)
    (hx : readInode M s.disk i = some x) (ht : x.din.type = T_DIR) : CachedDir M t k x := by
  obtain ⟨-, -, hon, hcut⟩ := readInode_eq_some hx
  have hg := hs.dirs i hi x hx ht
  exact ⟨⟨h.holding.coherent.dev k (h.holding.ref_pos hs.coherent), by rw [h.copy],
    by rwa [h.holding.disk], hcut, hg.below⟩, ht, hg.holeFree, hg.whole⟩

theorem taken (h : Opened M s p k ks i x t) (hs : AtRest M s) {j : ℕ} (ht : Taken t l j u) :
    Opened M s p k (l :: ks) i x u where
  holding := (h.holding.taken ht).perm (List.Perm.swap k l ks)
  lock := by rw [ht.lock, h.lock]
  inum := by rw [ht.inum_eq (h.holding.ref_pos hs.coherent), h.inum]
  copy := by rw [ht.copy_eq (h.holding.ref_pos hs.coherent), h.copy]

theorem unlocked (h : Opened M s p k ks i x t) (hs : AtRest M s) :
    update t.lock k none = s.lock := by
  rw [h.lock, update_idem, update_eq_self_iff.2 (hs.lock k).symm]

/-- `iunlockput` in `namex`. -/
theorem returns_iunlockput (h : Opened M s p k ks i x t) (hs : AtRest M s)
    (hi : i < M.sb.ninodes) (hx : readInode M s.disk i = some x) {Q : Unit → State P → Prop}
    (hQ : Holding M s ks (t.dropped k) → (t.dropped k).lock = s.lock → Q () (t.dropped k)) :
    Ends (iunlockput M p k) t Q E := by
  refine Fs.returns_iunlockput (by rw [h.lock, update_self]) (h.holding.ref_pos hs.coherent)
    (fun _ h0 => ?_) (hQ (h.holding.dropped hs.coherent) (h.unlocked hs))
  rw [h.copy] at h0
  exact h.holding.keep hs (by rwa [h.inum]) (by rw [h.inum, hx]) h0

/-- Unlock the inode and give up the pointer, and return 0. -/
theorem walksTo_iunlockput (h : Opened M s p k [] i x t) (hs : AtRest M s)
    (hi : i < M.sb.ninodes) (hx : readInode M s.disk i = some x) :
    WalksTo M s (do iunlockput M p k; return none) N E t .missing :=
  ends_bind (h.returns_iunlockput hs hi hx fun hu hlock =>
    ends_pure ⟨rfl, hu, hlock⟩)

end Opened

theorem Roomy.roomFor (h : Roomy s) (ht : Holding M s [k] t) (i : ℕ) : t.RoomFor i := by
  obtain ⟨a, b, hab, ha, hb⟩ := h
  by_cases hak : a = k
  · refine ⟨b, Or.inl ?_⟩
    rw [ht.ref, hb, count_singleton, ← hak]
    simp [hab]
  · refine ⟨a, Or.inl ?_⟩
    rw [ht.ref, ha, count_singleton]
    simp [Ne.symm hak]

/-- One round of the loop of `namex`. -/
theorem resolvePath_skipelem (F : ℕ → Option FileData) (b : Bool) (i : ℕ)
    {path name rest : List UInt8} (hskip : skipelem path = some (name, rest)) :
    resolvePath F b i (comps path) =
      match F i with
      | none => .unallocated
      | some f =>
        if f.type ≠ T_DIR then .missing
        else if b ∧ rest.headD 0 = 0 then .inode i
        else
          match f.index name with
          | none => .missing
          | some j => resolvePath F b (f.entry j).inum (comps rest) := by
  obtain ⟨hcomps, -, hend⟩ := skipelem_some hskip
  rw [hcomps]
  by_cases hgo : b = true ∧ rest.headD 0 = 0
  · simp only [hgo, if_true, hend.1 hgo.2, and_self]
    exact resolvePath_last ..
  · simp only [hgo, if_false]
    exact resolvePath_cons _ b i name fun hb hnil => hgo ⟨hb, hend.2 hnil⟩

/-- The walk of `namex`. By induction on the bound of its passes. -/
theorem walksTo_namexFrom (hs : Settled M s)
    (hroom : Roomy s ∨ ∀ u, E (.panic "iget: no inodes") u) (b : Bool) :
    ∀ {fuel : ℕ} {path : List UInt8} {i : ℕ} {k : Slot} {t : State P} (name : List UInt8),
      path.length < fuel → i < M.sb.ninodes → Found M s k i t →
      WalksTo M s (namexFrom M p b fuel k path name)
        (fun n => b = true → (comps path).getLast? = some n) E t
        (resolvePath (files M s.disk) b i (comps path))
  | 0, _, _, _, _, _, hlen, _, _ => absurd hlen (Nat.not_lt_zero _)
  | fuel + 1, path, i, k, t, name₀, hlen, hi, h => by
    cases hskip : skipelem path with
    | none =>
      rw [skipelem_none hskip]
      unfold namexFrom
      rw [hskip]
      cases b with
      | true => exact walksTo_iput hs.toAtRest hi h
      | false => exact ends_pure ⟨hi, k, name₀, rfl, (fun hb => by cases hb), h⟩
    | some r =>
      obtain ⟨name, rest⟩ := r
      obtain ⟨hcomps, hlt, hend⟩ := skipelem_some hskip
      rw [resolvePath_skipelem _ b i hskip,
        show files M s.disk i = (readInode M s.disk i).map Extent.file from rfl]
      unfold namexFrom
      rw [hskip]
      simp only
      cases hx : readInode M s.disk i with
      | none =>
        have hhalt : Halts (ilock M p k .walk) t (.panic "ilock: no type") :=
          h.holding.coherent.halts_ilock (h.ref_pos hs.toAtRest) (by rw [h.lock, hs.lock])
            (by rwa [h.inum]) (by rw [h.holding.disk, h.inum, hx])
        exact Halts.ends (halts_bind hhalt) fun _ => Or.inl rfl
      | some x =>
        refine walksTo_bind ((returns_open hs.toAtRest hi h hx).mono fun _ u hu => ?_)
        refine walksTo_bind (returns_load ?_)
        simp only [hu.copy, map_some]
        change WalksTo M s _ _ E u (if x.din.type ≠ T_DIR then _ else _)
        by_cases htype : x.din.type ≠ T_DIR
        · rw [if_pos htype, if_pos htype]
          exact hu.walksTo_iunlockput hs.toAtRest hi hx
        rw [if_neg htype, if_neg htype]
        by_cases hgo : b = true ∧ rest.headD 0 = 0
        · rw [if_pos hgo, if_pos hgo]
          refine ends_bind (returns_iunlock (by rw [hu.lock, update_self])
            (hu.holding.ref_pos hs.coherent) (ends_pure ⟨hi, k, name, rfl, fun _ => ?_, ?_⟩))
          · rw [hcomps, hend.1 hgo.2]
            rfl
          · exact ⟨hu.holding.unlocked, hu.unlocked hs.toAtRest, hu.inum⟩
        rw [if_neg hgo, if_neg hgo]
        have hdir := hu.cachedDir hs hi hx (not_not.1 htype)
        cases hj : x.file.index name with
        | none =>
          refine walksTo_bind (hdir.returns_dirlookup_none hj ?_)
          exact hu.walksTo_iunlockput hs.toAtRest hi hx
        | some j =>
          refine walksTo_bind (hdir.ends_dirlookup hu.holding.coherent hj
            (hroom.imp (fun hr => hr.roomFor hu.holding _) fun hE => hE u) fun l w hw => ?_)
          refine walksTo_bind ((hu.taken hs.toAtRest hw).returns_iunlockput
            hs.toAtRest hi hx fun hl hlock => ?_)
          have hinum : (x.file.entry j).inum < M.sb.ninodes :=
            (hs.dirs i hi x hx (not_not.1 htype)).inums j (hdir.whole.finds hj).complete
          refine (walksTo_namexFrom hs hroom b name (by omega) hinum ⟨hl, hlock, ?_⟩).mono
            fun n hn hb => ?_
          · rw [State.dropped_inum, hw.entry]
          · have hne : comps rest ≠ [] := fun hnil => hgo ⟨hb, hend.2 hnil⟩
            rw [hcomps, ← hn hb, List.getLast?_cons_of_ne_nil hne]

/-- Where the walk along a path starts. -/
def startInode (s : State P) (p : P) (path : List UInt8) : ℕ :=
  if path.headD 0 = 47 then ROOTINO
  else
    match (s.proc p).cwd with
    | none => 0
    | some cwd => (s.icache cwd).inum

/-- The process has a current directory. -/
def HasCwd (M : Mount) (s : State P) (p : P) : Prop :=
  ∃ cwd, (s.proc p).cwd = some cwd ∧ 0 < (s.icache cwd).ref ∧ (s.icache cwd).inum < M.sb.ninodes

/-- `namex` follows the path in the tree. -/
theorem walksTo_namex (hs : Settled M s)
    (hroom : Roomy s ∨ ∀ u, E (.panic "iget: no inodes") u) (hcwd : HasCwd M s p)
    (path : List UInt8) (b : Bool) :
    WalksTo M s (namex M p path b) (fun n => b = true → (comps path).getLast? = some n) E s
      (resolvePath (files M s.disk) b (startInode s p path) (comps path)) := by
  have hfound : ∀ {l j t}, Taken s l j t → Found M s l j t := fun ht =>
    ⟨(Holding.refl hs.coherent).taken ht, ht.lock, by rw [ht.entry]⟩
  unfold namex startInode
  by_cases habs : path.headD 0 = 47
  · rw [if_pos habs, if_pos habs]
    refine walksTo_bind (hs.coherent.ends_iget (hroom.imp ?_ fun hE => hE s) fun l t ht => ?_)
    · rintro ⟨a, _, _, ha, _⟩
      exact ⟨a, Or.inl ha⟩
    · exact walksTo_namexFrom hs hroom b [] (Nat.lt_succ_self _) hs.root (hfound ht)
  · rw [if_neg habs, if_neg habs]
    obtain ⟨cwd, hcwd, href, hlt⟩ := hcwd
    refine walksTo_bind (ends_getState ?_)
    simp only [hcwd]
    refine walksTo_bind (ends_bind (ends_modifyState (ends_pure ?_)))
    exact walksTo_namexFrom hs hroom b [] (Nat.lt_succ_self _) hlt
      (hfound (hs.coherent.taken_idup href))

/-- A volume with seven inodes and six data blocks. -/
def tiny : Mount :=
  ⟨⟨10, 6, 7, 0, 2, 2, 3⟩, 10, by decide, by decide, by decide, by decide, by decide⟩

/-- A directory with `n` entries in block 4. -/
def tinyDir (nlink : Int16) (n : ℕ) : Dinode :=
  ⟨T_DIR, 0, 0, nlink, UInt32.ofNat (DESIZE * n), fun j => if j.val = 0 then 4 else 0⟩

/-- A disk on which inode `i` is a directory with these entries, and no other is allocated. -/
def tinyDisk (i : ℕ) (nlink : Int16) (des : List Dirent) : Disk :=
  tiny.putDinode (update (fun _ => Bytes.zero BSIZE) 4
    ((Bytes.zero BSIZE).blit 0 (des.flatMap Dirent.bytes))) i (tinyDir nlink des.length)

/-- The directory on that disk. -/
def tinyExtent (i : ℕ) (nlink : Int16) (des : List Dirent) : Extent :=
  .read (tinyDisk i nlink des) (tinyDir nlink des.length) 0

section Tiny

variable {nlink : Int16} {des : List Dirent} {j : ℕ}

theorem tiny_iblock_ne (hi : i < 7) : tiny.iblock i ≠ 4 := by
  have := tiny.iblock_lt (show i < tiny.sb.ninodes from hi)
  have hb : tiny.sb.bmapstart = 3 := rfl
  omega

theorem readInode_tinyDisk (i : ℕ) (nlink : Int16) (des : List Dirent) :
    readInode tiny (tinyDisk i nlink des) i = some (tinyExtent i nlink des) := by
  have hdin : tiny.dinode (tinyDisk i nlink des) i = tinyDir nlink des.length :=
    Mount.dinode_putDinode ..
  have htype : (tinyDir nlink des.length).type ≠ 0 := show T_DIR ≠ 0 by decide
  rw [readInode, hdin, if_neg htype]
  rfl

theorem readInode_tinyDisk_of_ne (hj : j < 7) (h : j ≠ i) :
    readInode tiny (tinyDisk i nlink des) j = none := by
  have htype : (tiny.dinode (tinyDisk i nlink des) j).type = 0 := by
    rw [tinyDisk, Mount.dinode_putDinode_of_ne h, Mount.dinode_update (tiny_iblock_ne hj)]
    exact type_dinodeIn_zero _
  rw [readInode, if_pos htype]

theorem onDisk_tinyExtent (i : ℕ) (nlink : Int16) (des : List Dirent) :
    (tinyExtent i nlink des).OnDisk (tinyDisk i nlink des) :=
  Extent.onDisk_read ..

theorem ptr_tinyExtent (j : ℕ) : (tinyExtent i nlink des).ptr j = if j = 0 then 4 else 0 := by
  have haddr : ∀ l, (tinyDir nlink des.length).addr l = if l = 0 then 4 else 0 := by
    intro l
    by_cases h0 : l = 0
    · subst h0
      rfl
    · simp [Dinode.addr, tinyDir, h0]
  have hind : (tinyExtent i nlink des).ind = Bytes.zero BSIZE := by
    rw [(Extent.onDisk_iff.1 (onDisk_tinyExtent ..)).1, Extent.ptr_maxfile (Nat.zero_le _)]
    exact congrArg (Extent.fetch _) (haddr NDIRECT)
  rcases lt_or_ge j NDIRECT with h | h
  · exact (Extent.ptr_direct rfl h).trans (haddr j)
  rw [if_neg (show j ≠ 0 by have : NDIRECT = 12 := rfl; omega)]
  rcases lt_trichotomy j MAXFILE with hlt | rfl | hgt
  · rw [Extent.ptr_indirect rfl h hlt, hind, Bytes.word_zero]
  · rw [Extent.ptr_maxfile (Nat.zero_le _)]
    exact haddr NDIRECT
  · exact Extent.ptr_of_gt hgt

theorem size_tinyDir (nlink : Int16) {n : ℕ} (h : n ≤ 32) :
    (tinyDir nlink n).size.toNat = DESIZE * n := by
  have hD : DESIZE = 16 := rfl
  rw [tinyDir, UInt32.toNat_ofNat', Nat.mod_eq_of_lt (by rw [hD]; omega)]

theorem entry_tinyExtent (nlink : Int16) (hi : i < 7) (hlen : ∀ de ∈ des, de.bytes.length = DESIZE)
    (hdes : des.length ≤ 32) {de : Dirent} (hde : des[j]? = some de) (hinum : de.inum < 2 ^ 16) :
    (tinyExtent i nlink des).file.entry j = de := by
  have hD : DESIZE = 16 := rfl
  have hB : BSIZE = 512 := rfl
  have hj := (List.getElem?_eq_some_iff.1 hde).1
  have hsize := size_tinyDir nlink hdes
  have hflat := length_flatMap_const hlen
  refine FileData.entry_of_bytes hlen hde hinum fun l hl => ?_
  obtain ⟨o, ho⟩ : ∃ o, o = DESIZE * j + l := ⟨_, rfl⟩
  have hlt : o < DESIZE * des.length := by
    rw [hD] at hl ho ⊢
    omega
  have hblk : (tinyExtent i nlink des).blk 0 =
      (Bytes.zero BSIZE).blit 0 (des.flatMap Dirent.bytes) := by
    have hptr : (tinyExtent i nlink des).ptr 0 = 4 := ptr_tinyExtent 0
    rw [(onDisk_tinyExtent ..).blk_eq (by decide) (by rw [hptr]; decide), hptr, tinyDisk,
      Mount.putDinode_of_ne (tiny_iblock_ne hi), update_self]
  have hdata : (tinyExtent i nlink des).file.data o = (tinyExtent i nlink des).byte o :=
    if_pos (hlt.trans_eq hsize.symm)
  have hb : o < BSIZE := by
    rw [hD] at hlt
    omega
  rw [← ho, hdata, Extent.byte, Nat.div_eq_of_lt hb, Nat.mod_eq_of_lt hb, hblk,
    getD_eq_getElem _ _ (by rw [hflat]; exact hlt)]
  have hget : ((Bytes.zero BSIZE).blit 0 (des.flatMap Dirent.bytes)).get (0 + o) = _ :=
    Bytes.get_blit_of_lt _ 0 (by rw [hflat]; exact hlt) (by omega)
  rwa [zero_add] at hget

theorem goodDir_tinyExtent (hi : i < 7) (hlen : ∀ de ∈ des, de.bytes.length = DESIZE)
    (hdes : des.length ≤ 32) (hinum : ∀ de ∈ des, de.inum < 7) :
    GoodDir tiny (tinyExtent i nlink des) := by
  have hD : DESIZE = 16 := rfl
  have hB : BSIZE = 512 := rfl
  have hsize : (tinyExtent i nlink des).din.size.toNat = DESIZE * des.length := size_tinyDir _ hdes
  refine ⟨fun _ bn hbn => ?_, ⟨des.length, hsize⟩, fun j => ?_, fun j hj => ?_⟩
  · obtain rfl : bn = 0 := by
      rw [hsize, hD, hB] at hbn
      omega
    rw [ptr_tinyExtent]
    decide
  · rw [ptr_tinyExtent]
    split_ifs <;> decide
  · have hlt : j < des.length := by
      have : DESIZE * j + DESIZE ≤ (tinyExtent i nlink des).din.size.toNat := hj
      rw [hsize, hD] at this
      omega
    have hmem := hinum _ (getElem_mem hlt)
    rw [entry_tinyExtent nlink hi hlen hdes (List.getElem?_eq_getElem hlt) (by omega)]
    exact hmem

end Tiny

end Xv6.Fs
