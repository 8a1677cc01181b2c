import Xv6.Count
import Xv6.InodeLife

/-!
# A process at work

One process executes a system call while the others do nothing. `Working` says what holds between
two operations of the call on inodes. The blocks of the inodes are in order, the inode cache agrees
with the disk, and every entry of the cache counts its pointers : those in the tables of the kernel
and those that the call holds. A `View` has what the call knows at that point : the inodes on the
disk, its pointers and its locks.

There is one rule for each operation. A pointer may be the last one to an inode without links, so
`iput` may free an inode (`Working.ends_iput`), and with it every walk along a path
(`Working.ends_namex`). What is freed had no links, and nobody else uses it (`Frees`).
-/

set_option linter.unusedSectionVars false

namespace Xv6.Fs

open Prog Function List Option

/-! ## Pointers -/

/-- The tables with pointers to inodes. -/
structure Tables (P : Type) where
  proc : P → Proc
  ftable : FileId → File
  embryos : List Proc

/-- The pointers of a process to an entry of the inode cache. -/
def Proc.uses (x : Proc) (k : Slot) : ℕ := if x.cwd = some k then 1 else 0

/-- The pointers of an open file to an entry of the inode cache. -/
def File.uses (x : File) (k : Slot) : ℕ := if x.type = .inode ∧ x.ip = k then 1 else 0

section

variable {P : Type} [DecidableEq P] [Fintype P]

/-- The pointers of the tables to an entry of the inode cache. -/
def Tables.users (T : Tables P) (k : Slot) : ℕ :=
  total (fun _ x => x.uses k) T.proc + total (fun _ x => x.uses k) T.ftable +
    T.embryos.countP fun x => x.cwd = some k

/-- The tables of a state. -/
def State.tables (s : State P) : Tables P := ⟨s.proc, s.ftable, s.embryos⟩

end

/-- What a call knows of the state. -/
structure View (P : Type) where
  /-- The inodes on the disk. -/
  X : ℕ → Option Extent
  /-- The pointers that the call holds, with their inode numbers. -/
  ks : List (Slot × ℕ)
  /-- The inodes that the call has locked. -/
  ls : List Slot
  /-- The tables. -/
  T : Tables P
  /-- How many pointers of the tables are in use. -/
  U : Slot → ℕ
  /-- The inode numbers of the entries that the tables use. -/
  N : Slot → ℕ
  /-- The operations that have begun. -/
  n : ℤ

variable {P : Type} [DecidableEq P] {M : Mount} {A B : Set ℕ} {p : P} {v : View P}
  {s t u : State P} {k l m : Slot} {i j : ℕ} {x y : Extent} {ks ks' : List (Slot × ℕ)}
  {ls ls' : List Slot} {T : Tables P} {U N : Slot → ℕ} {n n' : ℤ} {X X' X'' : ℕ → Option Extent}

/-- The pointers to an entry. -/
def View.refs (v : View P) (k : Slot) : ℕ := v.U k + (v.ks.map Prod.fst).count k

/-- There is a pointer to an entry, which is for inode `i`. -/
def View.Has (v : View P) (k : Slot) (i : ℕ) : Prop := (k, i) ∈ v.ks ∨ 0 < v.U k ∧ v.N k = i

/-- There is a pointer to inode `i`. -/
def View.Pins (v : View P) (i : ℕ) : Prop := ∃ k, v.Has k i

theorem View.Has.top : View.Has ⟨X, (k, i) :: ks, ls, T, U, N, n⟩ k i := Or.inl mem_cons_self

theorem View.Has.second {e : Slot × ℕ} : View.Has ⟨X, e :: (k, i) :: ks, ls, T, U, N, n⟩ k i :=
  Or.inl (mem_cons_of_mem _ mem_cons_self)

theorem View.Has.refs_pos (h : v.Has k i) : 0 < v.refs k := by
  rcases h with h | h
  · have : 0 < (v.ks.map Prod.fst).count k := count_pos_iff.2 (mem_map_of_mem h)
    unfold refs
    omega
  · unfold refs
    omega

theorem View.refs_cons : View.refs ⟨X, (k, i) :: ks, ls, T, U, N, n⟩ m =
    View.refs ⟨X, ks, ls, T, U, N, n⟩ m + if m = k then 1 else 0 := by
  unfold refs
  simp only [map_cons, count_cons, beq_iff_eq, eq_comm (a := k)]
  split_ifs <;> omega

/-- From the inodes of a view some inodes were freed that had no links and no pointers to them. -/
def View.Frees (v : View P) (X' : ℕ → Option Extent) : Prop :=
  ∀ i, X' i = v.X i ∨ X' i = none ∧ ¬ v.Pins i ∧ ∃ x, v.X i = some x ∧ x.din.nlink = 0

namespace View.Frees

theorem refl (v : View P) : v.Frees v.X := fun _ => Or.inl rfl

theorem trans (h : View.Frees ⟨X, ks, ls, T, U, N, n⟩ X')
    (h' : View.Frees ⟨X', ks', ls', T, U, N, n'⟩ X'') (hks : ∀ e ∈ ks, e ∈ ks') :
    View.Frees ⟨X, ks, ls, T, U, N, n⟩ X'' := by
  intro i
  rcases h' i with he | ⟨hn, hpin, x, hx, h0⟩
  · rw [he]
    exact h i
  · refine Or.inr ⟨hn, fun ⟨k, hk⟩ => hpin ⟨k, hk.imp_left fun he => hks _ he⟩, x, ?_, h0⟩
    rcases h i with he | he
    · rw [← he]
      exact hx
    · exact absurd (hx.symm.trans he.1) (by simp)

/-- An inode with a pointer to it is not freed. -/
theorem eq_of_has (h : v.Frees X') (hk : v.Has k i) : X' i = v.X i :=
  (h i).resolve_right fun hc => hc.2.1 ⟨k, hk⟩

end View.Frees

/-- An inode as the file system code needs it : it has all the blocks of its bytes, and the entries
of a directory are whole and name inodes that there are. -/
structure Sane (M : Mount) (x : Extent) : Prop where
  holeFree : x.HoleFree
  whole : x.din.type = T_DIR → x.file.Whole
  inums : x.din.type = T_DIR → ∀ j, x.file.Complete j → (x.file.entry j).inum < M.sb.ninodes

namespace Sane

theorem setDin (h : Sane M x) {din : Dinode} (hs : din.size = x.din.size)
    (ht : din.type = x.din.type) (ha : din.addrs = x.din.addrs) : Sane M (x.setDin din) := by
  have hsize : (x.setDin din).file.size = x.file.size := hs
  have hdata : (x.setDin din).file.data = x.file.data := by
    change (fun o => if o < din.size.toNat then x.byte o else 0) = _
    rw [hs]
    rfl
  refine ⟨fun hdev bn hbn => ?_, fun hdir => ?_, fun hdir j hj => ?_⟩
  · rw [Extent.ptr_setDin ha]
    exact h.holeFree (ht ▸ hdev) bn (hs ▸ hbn)
  · unfold FileData.Whole
    rw [hsize]
    exact h.whole (ht ▸ hdir)
  · unfold FileData.Complete at hj
    rw [hsize] at hj
    rw [FileData.entry_eq, hdata]
    exact h.inums (ht ▸ hdir) j hj

theorem bare {din : Dinode} (h : din.size = 0) : Sane M (.bare din) := by
  have h0 : din.size.toNat = 0 := congrArg UInt32.toNat h
  refine ⟨fun _ bn hbn => ?_, fun _ => ?_, fun _ j hj => ?_⟩
  · exact absurd (hbn.trans_eq h0) (Nat.not_lt_zero _)
  · exact (dvd_zero DESIZE).trans h0.symm.dvd
  · exact absurd (hj.trans h0.le) (not_le.2 (Nat.lt_add_left _ (by decide)))

/-- A directory with one entry stored. -/
theorem setEntry (h : Sane M x) {de : Dirent} (hle : DESIZE * j ≤ x.din.size.toNat)
    (hmax : DESIZE * j ≤ MAXFILE * BSIZE) (hi : de.inum < M.sb.ninodes)
    (hn : de.name.length = DIRSIZ) (hx : x.din.type = T_DIR) (hfile : y.file = x.file.setEntry j de)
    (hy : y.HoleFree) (hw : y.file.Whole) : Sane M y where
  holeFree := hy
  whole _ := hw
  inums _ l hl := by
    rw [hfile] at hl ⊢
    by_cases hlj : l = j
    · rw [hlj, FileData.entry_setEntry_self hmax (hi.trans_le M.ninodes_le) hn]
      exact hi
    · rw [FileData.entry_setEntry_of_ne hmax hlj]
      exact h.inums hx l (((FileData.complete_setEntry hle hmax).1 hl).resolve_right hlj)

end Sane

/-- The inodes of open files are allocated, and no directory is open for writing. -/
def View.Plain (v : View P) (X : ℕ → Option Extent) : Prop :=
  ∀ f, (v.T.ftable f).type = .inode → ∃ x, X (v.N (v.T.ftable f).ip) = some x ∧
    ((v.T.ftable f).writable = true → x.din.type ≠ T_DIR)

theorem View.Plain.update {o : Option Extent} (h : v.Plain X)
    (ho : ∀ f, (v.T.ftable f).type = .inode → v.N (v.T.ftable f).ip = i → ∃ x, o = some x ∧
      ((v.T.ftable f).writable = true → x.din.type ≠ T_DIR)) : v.Plain (update X i o) := by
  intro f hf
  by_cases hi : v.N (v.T.ftable f).ip = i
  · rw [hi, update_self]
    exact ho f hf hi
  · rw [update_of_ne hi]
    exact h f hf

/-- The state at a point of a call. An inode without links has a pointer to it, and its fields are
in the cache, if it is not in `A`. -/
structure Working (M : Mount) (A : Set ℕ) (p : P) (v : View P) (s : State P) : Prop where
  coherent : Coherent M s
  consistent : Consistent M s.disk
  inodes_eq : inodes M s.disk = v.X
  sane : ∀ i x, v.X i = some x → Sane M x
  below : ∀ k, 0 < (s.icache k).ref → (s.icache k).inum < M.sb.ninodes
  ref : ∀ k, (s.icache k).ref = v.refs k
  held : ∀ k i, v.Has k i → (s.icache k).inum = i
  lock : ∀ k, s.lock k = if k ∈ v.ls then some p else none
  locked : ∀ k ∈ v.ls, 0 < v.refs k ∧ (s.copy k).valid = true
  linked : ∀ i ∉ A, ∀ x, v.X i = some x → x.din.nlink = 0 →
    ∃ k, 0 < (s.icache k).ref ∧ (s.icache k).inum = i ∧ (s.copy k).valid = true
  opened : ∀ f, (v.T.ftable f).type = .inode → 0 < v.U (v.T.ftable f).ip
  plain : v.Plain v.X
  tables : s.proc = v.T.proc ∧ s.ftable = v.T.ftable ∧ s.embryos = v.T.embryos
  outstanding : s.log.outstanding = v.n
  committing : s.log.committing = false

namespace Working

section

variable (h : Working M A p v s)

include h

theorem mono (hAB : A ⊆ B) : Working M B p v s :=
  { h with linked := fun i hi => h.linked i fun hA => hi (hAB hA) }

theorem ref_pos (hk : v.Has k i) : 0 < (s.icache k).ref := by
  rw [h.ref]
  exact_mod_cast hk.refs_pos

theorem lt_of_has (hk : v.Has k i) : i < M.sb.ninodes := by
  rw [← h.held k i hk]
  exact h.below k (h.ref_pos hk)

/-- Two pointers to one inode are to one entry. -/
theorem eq_of_has (hk : v.Has k i) (hl : v.Has l i) : k = l :=
  h.coherent.uniq k l (h.ref_pos hk) (h.ref_pos hl) (by rw [h.held k i hk, h.held l i hl])

theorem readInode_eq (hi : i < M.sb.ninodes) :
    readInode M s.disk i = v.X i := by
  rw [← h.inodes_eq, inodes, if_pos hi]

/-- The order of the pointers does not matter. -/
theorem perm (hp : v.ks.Perm ks) :
    Working M A p { v with ks := ks } s where
  __ := h
  ref k := by
    rw [h.ref]
    unfold View.refs
    rw [(hp.map Prod.fst).count_eq]
  held k i hk := h.held k i (hk.imp_left hp.mem_iff.2)
  locked k hk := by
    obtain ⟨hr, hv⟩ := h.locked k hk
    unfold View.refs at hr ⊢
    exact ⟨by rwa [(hp.map Prod.fst).count_eq] at hr, hv⟩

/-! ## Taking a pointer -/

theorem taken (ht : Taken s l i t) (hi : i < M.sb.ninodes) :
    Working M A p { v with ks := (l, i) :: v.ks } t where
  __ := h
  coherent := h.coherent.taken ht
  consistent := ht.disk ▸ h.consistent
  inodes_eq := ht.disk ▸ h.inodes_eq
  below m hm := by
    by_cases hml : m = l
    · rw [hml, ht.entry]
      exact hi
    · rw [(ht.other m hml).1] at hm ⊢
      exact h.below m hm
  ref m := by
    rw [ht.ref_eq, h.ref, View.refs_cons]
    push_cast
    rfl
  held m j hm := by
    rcases hm with hm | hm
    · rcases mem_cons.1 hm with hm | hm
      · obtain ⟨rfl, rfl⟩ := Prod.mk.inj hm
        rw [ht.entry]
      · rw [ht.inum_eq (h.ref_pos (Or.inl hm)), h.held m j (Or.inl hm)]
    · rw [ht.inum_eq (h.ref_pos (Or.inr hm)), h.held m j (Or.inr hm)]
  lock := ht.lock ▸ h.lock
  locked m hm := by
    obtain ⟨hr, hv⟩ := h.locked m hm
    have hpos : 0 < (s.icache m).ref := by
      rw [h.ref]
      exact_mod_cast hr
    rw [View.refs_cons, ht.copy_eq hpos]
    exact ⟨Nat.add_pos_left hr _, hv⟩
  linked j hj y hy h0 := by
    obtain ⟨m, hpos, hinum, hv⟩ := h.linked j hj y hy h0
    refine ⟨m, ?_, by rw [ht.inum_eq hpos, hinum], by rw [ht.copy_eq hpos, hv]⟩
    rw [ht.ref_eq]
    split_ifs <;> omega
  tables := by
    rw [ht.frame]
    exact h.tables
  outstanding := by
    rw [ht.frame]
    exact h.outstanding
  committing := by
    rw [ht.frame]
    exact h.committing

theorem ends_iget (hi : i < M.sb.ninodes) {Q : Slot → State P → Prop}
    (hQ : ∀ l t, Working M A p { v with ks := (l, i) :: v.ks } t → Q l t) :
    Ends (iget ROOTDEV i) s Q (Stops M) :=
  h.coherent.ends_iget (Or.inr (.panic (by simp) s)) fun l t ht => hQ l t (h.taken ht hi)

theorem ends_idup (hk : v.Has k i) {Q : Slot → State P → Prop}
    (hQ : ∀ t, Working M A p { v with ks := (k, i) :: v.ks } t → Q k t) :
    Ends (idup k) s Q (Stops M) := by
  have ht := h.coherent.taken_idup (h.ref_pos hk)
  rw [h.held k i hk] at ht
  exact ends_bind (ends_modifyState (ends_pure (hQ _ (h.taken ht (h.lt_of_has hk)))))

/-! ## Locks -/

/-- The fields of an inode in the cache. -/
theorem copy_eq (hk : v.Has k i) (hv : (s.copy k).valid = true) :
    ∃ x, v.X i = some x ∧ s.copy k = ⟨true, x.din⟩ := by
  obtain ⟨hdin, htype⟩ := h.coherent.copy k (h.ref_pos hk) hv
  rw [h.held k i hk] at hdin
  cases hx : v.X i with
  | none =>
    rw [← h.readInode_eq (h.lt_of_has hk), readInode_eq_none, ← hdin] at hx
    exact absurd hx htype
  | some x =>
    refine ⟨x, rfl, ?_⟩
    rw [← h.readInode_eq (h.lt_of_has hk)] at hx
    rw [← (readInode_eq_some hx).1, ← hdin, ← hv]

theorem copy_of_locked (hk : v.Has k i) (hl : k ∈ v.ls) (hx : v.X i = some x) :
    s.copy k = ⟨true, x.din⟩ := by
  obtain ⟨y, hy, hc⟩ := h.copy_eq hk (h.locked k hl).2
  obtain rfl := some.inj (hx.symm.trans hy)
  exact hc

theorem ends_load (hk : v.Has k i) (hl : k ∈ v.ls) (hx : v.X i = some x)
    {Q : Dinode → State P → Prop} (hQ : Q x.din s) : Ends (load k) s Q (Stops M) :=
  returns_load (by rwa [h.copy_of_locked hk hl hx])

theorem owns (hk : v.Has k i) (hl : k ∈ v.ls) (hx : v.X i = some x) :
    Owns M s k (inodes M s.disk) x :=
  h.consistent.owns (h.coherent.dev k (h.ref_pos hk)) (by rw [h.inodes_eq, h.held k i hk, hx])
    (by rw [h.copy_of_locked hk hl hx])

theorem ownsDir (hk : v.Has k i) (hl : k ∈ v.ls) (hx : v.X i = some x) (ht : x.din.type = T_DIR) :
    OwnsDir M s k (inodes M s.disk) x := by
  have hs := h.sane i x hx
  refine ⟨h.owns hk hl hx, ht, hs.holeFree, hs.whole ht, ?_⟩
  rw [h.held k i hk]
  exact (readInode_eq_some (by rw [h.readInode_eq (h.lt_of_has hk), hx])).1

/-- `ilock` of an inode that is allocated and not locked. The fields of the inode are in the cache
afterwards. -/
theorem returns_ilock (hk : v.Has k i) (hx : v.X i = some x) (hl : k ∉ v.ls) {site : Site}
    {Q : Unit → State P → Prop}
    (hQ : ∀ t, Working M (A \ {i}) p { v with ls := k :: v.ls } t → Q () t) :
    Ends (ilock M p k site) s Q E := by
  have href := h.ref_pos hk
  have hi := h.lt_of_has hk
  rw [← h.held k i hk] at hi hQ hx
  have hread := h.readInode_eq hi
  rw [hx] at hread
  obtain ⟨hdin, htype, -⟩ := readInode_eq_some hread
  refine h.coherent.returns_ilock href (by rw [h.lock, if_neg hl]) hi hread (hQ _ ?_)
  exact
    { h with
      coherent := ((Holding.refl h.coherent).locked hdin htype (some p)).coherent
      lock := fun m => by
        by_cases hm : m = k
        · simp [hm]
        · simp [hm, h.lock]
      locked := fun m hm => by
        by_cases hmk : m = k
        · subst hmk
          exact ⟨hk.refs_pos, by simp⟩
        · have := h.locked m ((mem_cons.1 hm).resolve_left hmk)
          exact ⟨this.1, by simp [hmk, this.2]⟩
      linked := fun j hj y hy h0 => by
        by_cases hji : j = (s.icache k).inum
        · exact ⟨k, href, hji.symm, by simp⟩
        · obtain ⟨m, hpos, hinum, hv⟩ := h.linked j (fun hA => hj ⟨hA, hji⟩) y hy h0
          refine ⟨m, hpos, hinum, ?_⟩
          have hmk : m ≠ k := by
            rintro rfl
            exact hji hinum.symm
          simp [hmk, hv] }

theorem ends_ilock_new (hk : v.Has k i) {site : Site} {Q : Unit → State P → Prop}
    (hQ : ∀ x t, v.X i = some x → k ∉ v.ls → Working M (A \ {i}) p { v with ls := k :: v.ls } t →
      Q () t) :
    Ends (ilock M p k site) s Q (Stops M) := by
  have href := h.ref_pos hk
  by_cases hl : k ∈ v.ls
  · have hlock : s.lock k = some p := by rw [h.lock, if_pos hl]
    have href' : ¬ (s.icache k).ref < 1 := by omega
    refine ends_bind (ends_getState ?_)
    simp only [href', if_false]
    exact ends_bind (ends_waitFor (by simp only [hlock]; exact .wait _ s))
  cases hx : v.X i with
  | none =>
    have hi := h.lt_of_has hk
    rw [← h.held k i hk] at hi hx
    exact (h.coherent.halts_ilock href (by rw [h.lock, if_neg hl]) hi
      (by rw [h.readInode_eq hi, hx])).ends (.panic (by simp))
  | some x => exact h.returns_ilock hk hx hl fun t ht => hQ x t hx hl ht

theorem ends_ilock (hk : v.Has k i) {site : Site} {Q : Unit → State P → Prop}
    (hQ : ∀ x t, v.X i = some x → k ∉ v.ls → Working M A p { v with ls := k :: v.ls } t → Q () t) :
    Ends (ilock M p k site) s Q (Stops M) :=
  h.ends_ilock_new hk fun x t hx hl ht => hQ x t hx hl (ht.mono Set.sdiff_subset)

theorem ends_iunlock (hl : k ∈ v.ls) (ls : List Slot) (hls : ∀ m, m ∈ ls ↔ m ∈ v.ls ∧ m ≠ k)
    {Q : Unit → State P → Prop} {E : Stop Wait → State P → Prop}
    (hQ : ∀ t, Working M A p { v with ls := ls } t → Q () t) :
    Ends (iunlock p k) s Q E := by
  have href : 0 < (s.icache k).ref := by
    rw [h.ref]
    exact_mod_cast (h.locked k hl).1
  refine returns_iunlock (by rw [h.lock, if_pos hl]) href (hQ _ ?_)
  exact
    { h with
      coherent := { h.coherent with }
      lock := fun m => by
        by_cases hm : m = k
        · simp [hm, hls]
        · simp [hm, hls, h.lock]
      locked := fun m hm => h.locked m ((hls m).1 hm).1 }

end

/-! ## Dropping a pointer -/

section

variable (h : Working M A p ⟨X, (k, i) :: ks, ls, T, U, N, n⟩ s)

include h

/-- A pointer that is not the last one to an inode without links. -/
theorem dropped (hl : k ∉ ls)
    (hkeep : (s.copy k).valid = true → ∀ x, X i = some x → x.din.nlink = 0 →
      0 < View.refs ⟨X, ks, ls, T, U, N, n⟩ k) :
    Working M A p ⟨X, ks, ls, T, U, N, n⟩ (s.dropped k) := by
  have hhas : View.Has ⟨X, (k, i) :: ks, ls, T, U, N, n⟩ k i := Or.inl mem_cons_self
  have href := h.ref_pos hhas
  have hrefs m : ((s.dropped k).icache m).ref = View.refs ⟨X, ks, ls, T, U, N, n⟩ m := by
    rw [State.dropped_ref, h.ref, View.refs_cons]
    push_cast
    omega
  refine
    { h with
      coherent := h.coherent.dropped href
      below := fun m hm => ?_
      ref := hrefs
      held := fun m j hm => ?_
      lock := fun m => ?_
      locked := fun m hm => ?_
      linked := fun j hj y hy h0 => ?_ }
  · rw [State.dropped_inum]
    refine h.below m ?_
    rw [State.dropped_ref] at hm
    split_ifs at hm <;> omega
  · rw [State.dropped_inum]
    exact h.held m j (hm.imp_left fun hm => mem_cons_of_mem _ hm)
  · change update s.lock k none m = _
    by_cases hm : m = k
    · rw [hm, update_self, if_neg hl]
    · rw [update_of_ne hm]
      exact h.lock m
  · have hmk : m ≠ k := by
      rintro rfl
      exact hl hm
    have := h.locked m hm
    rw [View.refs_cons, if_neg hmk] at this
    exact this
  · obtain ⟨m, hpos, hinum, hv⟩ := h.linked j hj y hy h0
    refine ⟨m, ?_, by rw [State.dropped_inum, hinum], hv⟩
    by_cases hmk : m = k
    · subst hmk
      obtain rfl : j = i := hinum.symm.trans (h.held m i hhas)
      rw [hrefs]
      exact_mod_cast hkeep hv y hy h0
    · rwa [State.dropped_ref, if_neg hmk, sub_zero]

/-- The last pointer to an inode without links. -/
theorem freed (hl : k ∉ ls) (hlast : View.refs ⟨X, ks, ls, T, U, N, n⟩ k = 0)
    (ht : Freed M { s with lock := update s.lock k (some p) } k t) :
    Working M A p ⟨update X i none, ks, ls, T, U, N, n⟩ (t.dropped k) := by
  have hhas : View.Has ⟨X, (k, i) :: ks, ls, T, U, N, n⟩ k i := .top
  have hik := h.held k i hhas
  have hin := ht.inodes_eq
  rw [show (s.icache k).inum = i from hik, h.inodes_eq] at hin
  obtain ⟨hic, hlock, hproc, hft, hemb, hout, hcom⟩ : t.icache = s.icache ∧
      t.lock = update s.lock k (some p) ∧ t.proc = s.proc ∧ t.ftable = s.ftable ∧
      t.embryos = s.embryos ∧ t.log.outstanding = s.log.outstanding ∧
      t.log.committing = s.log.committing := by
    rw [ht.frame]
    exact ⟨rfl, rfl, rfl, rfl, rfl, rfl, rfl⟩
  have hother : ∀ m, m ≠ k → 0 < (s.icache m).ref → (s.icache m).inum ≠ i := fun m hm hpos he =>
    hm (h.coherent.uniq m k hpos (h.ref_pos hhas) (he.trans hik.symm))
  have hcopy : ∀ m, (t.copy m).valid = true → m ≠ k := by
    rintro m hv rfl
    rw [ht.valid] at hv
    cases hv
  -- The inode is free, and the pointer is still there.
  have hw : Working M A p ⟨update X i none, (k, i) :: ks, ls, T, U, N, n⟩
      { t with lock := s.lock } := by
    refine
      { h with
        coherent := ⟨hic ▸ h.coherent.nonneg, hic ▸ h.coherent.dev, hic ▸ h.coherent.uniq,
          fun m hm hv => ?_⟩
        consistent := ht.consistent
        inodes_eq := hin
        sane := forall_update (fun _ hx => by cases hx) fun j x _ hx => h.sane j x hx
        below := hic ▸ h.below
        ref := hic ▸ h.ref
        held := hic ▸ h.held
        locked := fun m hm => ⟨(h.locked m hm).1, ?_⟩
        linked := fun j hj y hy h0 => ?_
        plain := View.Plain.update h.plain fun f hf hj => ?_
        tables := ⟨hproc.trans h.tables.1, hft.trans h.tables.2.1, hemb.trans h.tables.2.2⟩
        outstanding := hout.trans h.outstanding
        committing := hcom.trans h.committing }
    · change 0 < (t.icache m).ref at hm
      change (t.copy m).din = M.dinode t.disk (t.icache m).inum ∧ _
      have hmk := hcopy m hv
      rw [hic] at hm ⊢
      change (t.copy m).valid = true at hv
      rw [ht.other m hmk] at hv ⊢
      obtain ⟨hdin, htype⟩ := h.coherent.copy m hm hv
      exact ⟨hdin.trans (ht.dinode _ (h.below m hm) fun he => hother m hmk hm (he.trans hik)).symm,
        htype⟩
    · exact (congrArg InodeCopy.valid (ht.other m fun he => hl (he ▸ hm))).trans (h.locked m hm).2
    · change update X i none j = some y at hy
      have hji : j ≠ i := by
        rintro rfl
        rw [update_self] at hy
        cases hy
      rw [update_of_ne hji] at hy
      obtain ⟨m, hpos, hm, hv⟩ := h.linked j hj y hy h0
      have hmk : m ≠ k := by
        rintro rfl
        exact hji (hm.symm.trans hik)
      exact ⟨m, hic ▸ hpos, hic ▸ hm, (congrArg InodeCopy.valid (ht.other m hmk)).trans hv⟩
    · have hU := h.opened f hf
      have hmk : (T.ftable f).ip ≠ k := fun he => by
        have : 0 < View.refs ⟨X, ks, ls, T, U, N, n⟩ k := Nat.add_pos_left (he ▸ hU) _
        omega
      have hf' : View.Has ⟨X, (k, i) :: ks, ls, T, U, N, n⟩ _ _ := Or.inr ⟨hU, rfl⟩
      exact absurd ((h.held _ _ hf').trans hj) (hother _ hmk (h.ref_pos hf'))
  have hd := hw.dropped hl fun hv => absurd rfl (hcopy k hv)
  have he : State.dropped { t with lock := s.lock } k = t.dropped k := by
    unfold State.dropped
    rw [hlock, update_idem]
  rwa [he] at hd

/-- `iput`. -/
theorem ends_iput (hout : 1 ≤ n) {Q : Unit → State P → Prop}
    (hQ : ∀ X' t, View.Frees ⟨X, ks, ls, T, U, N, n⟩ X' → Working M A p ⟨X', ks, ls, T, U, N, n⟩ t →
      Q () t) :
    Ends (iput M p k) s Q (Stops M) := by
  have hhas : View.Has ⟨X, (k, i) :: ks, ls, T, U, N, n⟩ k i := .top
  by_cases hl : k ∈ ls
  · exact (halts_iput (by rw [h.lock, if_pos hl])).ends (.wait _)
  have hlock : s.lock k = none := by rw [h.lock, if_neg hl]
  have href : (s.icache k).ref = View.refs ⟨X, ks, ls, T, U, N, n⟩ k + 1 := by
    rw [h.ref, View.refs_cons, if_pos rfl]
    push_cast
    rfl
  by_cases hlast : (s.copy k).valid = true ∧ (s.copy k).din.nlink = 0 ∧
      View.refs ⟨X, ks, ls, T, U, N, n⟩ k = 0
  · obtain ⟨hv, hlink, h0⟩ := hlast
    obtain ⟨x, hx, hcopy⟩ := h.copy_eq hhas hv
    rw [hcopy] at hlink
    refine ends_bind (ends_waitFor ?_)
    simp only [hlock]
    have hown : Owns M { s with lock := update s.lock k (some p) } k (inodes M s.disk) x :=
      Consistent.owns h.consistent (h.coherent.dev k (h.ref_pos hhas))
        (by rwa [h.inodes_eq, h.held k i hhas]) (by rw [hcopy])
    refine ends_bind (hown.ends_iputFree (show 1 ≤ s.log.outstanding by rwa [h.outstanding]) hv
      hlink (by rw [href, h0]; rfl) fun t ht => ?_)
    refine ends_bind (ends_modifyState (ends_modifyState ?_))
    refine hQ (update X i none) (t.dropped k) (fun j => ?_) (h.freed hl h0 ht)
    by_cases hji : j = i
    · subst hji
      rw [update_self]
      refine Or.inr ⟨rfl, fun ⟨m, hm⟩ => ?_, x, hx, hlink⟩
      obtain rfl : m = k := h.eq_of_has (hm.imp_left fun hm => mem_cons_of_mem _ hm) hhas
      exact hm.refs_pos.ne' h0
    · exact Or.inl (update_of_ne hji ..)
  · have hkeep : (s.copy k).valid = true → ∀ x, X i = some x → x.din.nlink = 0 →
        0 < View.refs ⟨X, ks, ls, T, U, N, n⟩ k := fun hv x hx hlink => by
      obtain ⟨y, hy, hcopy⟩ := h.copy_eq hhas hv
      obtain rfl := some.inj (hx.symm.trans hy)
      refine pos_of_ne_zero fun h0 => hlast ⟨hv, ?_, h0⟩
      rw [hcopy]
      exact hlink
    refine returns_iput hlock (fun hv hlink => ?_) (hQ X _ (.refl _) (h.dropped hl hkeep))
    obtain ⟨y, hy, hcopy⟩ := h.copy_eq hhas hv
    rw [hcopy] at hlink
    have := hkeep hv y hy hlink
    omega

/-- `iunlockput`. -/
theorem ends_iunlockput (hl : k ∈ ls) (hls : ∀ m, m ∈ ls' ↔ m ∈ ls ∧ m ≠ k) (hout : 1 ≤ n)
    {Q : Unit → State P → Prop}
    (hQ : ∀ X' t, View.Frees ⟨X, ks, ls', T, U, N, n⟩ X' →
      Working M A p ⟨X', ks, ls', T, U, N, n⟩ t → Q () t) :
    Ends (iunlockput M p k) s Q (Stops M) :=
  ends_bind (h.ends_iunlock hl _ hls fun _ ht => Working.ends_iput ht hout hQ)

end

/-- `iunlockput` with nothing else locked. -/
theorem ends_iunlockput_only (h : Working M A p ⟨X, (k, i) :: ks, [k], T, U, N, n⟩ s)
    (hout : 1 ≤ n) {Q : Unit → State P → Prop}
    (hQ : ∀ X' t, View.Frees ⟨X, ks, [], T, U, N, n⟩ X' →
      Working M A p ⟨X', ks, [], T, U, N, n⟩ t → Q () t) : Ends (iunlockput M p k) s Q (Stops M) :=
  h.ends_iunlockput mem_cons_self (by simp) hout hQ

/-! ## Writing -/

section

variable (h : Working M A p v s)

include h

/-- The inode in a locked entry was written. -/
theorem rewrote (hk : v.Has k i) (hl : k ∈ v.ls) (hx : v.X i = some x) (ht : Rewrote M s k y t)
    (hy : Sane M y) (hyx : y.din.type = x.din.type) :
    Working M A p { v with X := update v.X i (some y) } t := by
  obtain ⟨B, hB⟩ := ht.logs
  have hin := ht.inodes_eq
  rw [h.held k i hk, h.inodes_eq] at hin
  refine
    { coherent := ht.coherent h.coherent (h.ref_pos hk) fun m hm _ => h.below m hm
      consistent := ht.consistent
      inodes_eq := hin
      sane := forall_update (fun z hz => by cases hz; exact hy) fun j z _ hz => h.sane j z hz
      below := ht.icache ▸ h.below
      ref := ht.icache ▸ h.ref
      held := ht.icache ▸ h.held
      lock := ht.lock ▸ h.lock
      locked := fun m hm => ?_
      linked := fun j hj z hz h0 => ?_
      opened := h.opened
      plain := View.Plain.update h.plain fun f hf hj => by
        obtain ⟨z, hz, hplain⟩ := h.plain f hf
        rw [hj, hx] at hz
        obtain rfl := some.inj hz
        exact ⟨y, rfl, fun hw => hyx.symm ▸ hplain hw⟩
      tables := ?_
      outstanding := by
        rw [hB.outstanding]
        exact h.outstanding
      committing := ?_ }
  · rw [hB.valid_eq]
    exact h.locked m hm
  · rw [ht.icache]
    by_cases hji : j = i
    · exact ⟨k, h.ref_pos hk, hji ▸ h.held k i hk, by rw [hB.valid_eq]; exact (h.locked k hl).2⟩
    · obtain ⟨m, hpos, hm, hv⟩ := h.linked j hj z
        (by change update v.X i (some y) j = some z at hz; rwa [update_of_ne hji] at hz) h0
      exact ⟨m, hpos, hm, by rw [hB.valid_eq, hv]⟩
  · rw [hB.frame]
    exact h.tables
  · rw [hB.frame]
    exact h.committing

/-- Fields of a locked inode are changed, and the inode is written out. -/
theorem ends_update (hk : v.Has k i) (hl : k ∈ v.ls) (hx : v.X i = some x) (hout : 1 ≤ v.n)
    {f : Dinode → Dinode} (hs : (f x.din).size = x.din.size) (ht : (f x.din).type = x.din.type)
    (ha : (f x.din).addrs = x.din.addrs) (hy : x.setDin (f x.din) = y) {α : Type}
    {rest : Kernel P α} {Q : α → State P → Prop}
    (hQ : ∀ t, Working M A p { v with X := update v.X i (some y) } t → Ends rest t Q (Stops M)) :
    Ends (do store k f; iupdate M k; rest) s Q (Stops M) := by
  subst hy
  have hown := h.owns hk hl hx
  refine Fs.ends_update hown (by rwa [h.outstanding]) ha
    (by rw [ht]; exact hown.sound.type) .overflow fun t hr _ => hQ t ?_
  exact h.rewrote hk hl hx hr ((h.sane i x hx).setDin hs ht ha) ht

/-- `ialloc`. -/
theorem ends_ialloc (hout : 1 ≤ v.n) {type : Int16} (htype : type ≠ 0) {Q : Slot → State P → Prop}
    (hQ : ∀ i l t, 0 < i → v.X i = none → Working M (insert i A) p { v with
      X := update v.X i (some (.bare (Dinode.fresh type))), ks := (l, i) :: v.ks } t → Q l t) :
    Ends (ialloc M ROOTDEV type) s Q (Stops M) := by
  refine h.coherent.ends_ialloc (by rwa [h.outstanding]) .overflow
    (.panic (by simp)) (.panic (by simp)) fun i l t h0 hi hfree ht => ?_
  have hnone : v.X i = none := by rw [← h.readInode_eq hi, readInode_eq_none, hfree]
  obtain ⟨hin, hcons⟩ := Consistent.putBare h.consistent hi hfree (Dinode.fresh type)
    (fun _ => by simp [Dinode.addr, Dinode.fresh]) htype
  rw [h.inodes_eq] at hin
  have hw : Working M (insert i A) p { v with
      X := update v.X i (some (.bare (Dinode.fresh type))) } (s.alloc M i type) :=
    { h with
      coherent := h.coherent.alloc hfree type
      consistent := hcons
      inodes_eq := hin
      sane := forall_update (fun z hz => by cases hz; exact Sane.bare rfl)
        fun j z _ hz => h.sane j z hz
      linked := fun j hj z hz h0 => by
        have hji : j ≠ i := fun he => hj (Set.mem_insert_iff.2 (Or.inl he))
        exact h.linked j (fun hA => hj (Set.mem_insert_of_mem i hA)) z
          (by change update v.X i _ j = some z at hz; rwa [update_of_ne hji] at hz) h0
      plain := View.Plain.update h.plain fun f hf hj => by
        obtain ⟨x, hx, -⟩ := h.plain f hf
        rw [hj, hnone] at hx
        cases hx }
  exact hQ i l t h0 hnone (hw.taken ht hi)

/-! ## Directories -/

theorem ends_dirlookup (hk : v.Has k i) (hl : k ∈ v.ls) (hx : v.X i = some x)
    (ht : x.din.type = T_DIR) {name : List UInt8} {Q : Option (Slot × ℕ) → State P → Prop}
    (hnone : x.file.index name = none → Q none s)
    (hsome : ∀ j l t, x.file.index name = some j →
      Working M A p { v with ks := (l, (x.file.entry j).inum) :: v.ks } t →
      Q (some (l, DESIZE * j)) t) :
    Ends (dirlookup M p k name) s Q (Stops M) := by
  have hdir := (h.ownsDir hk hl hx ht).cachedDir
  cases hj : x.file.index name with
  | none => exact hdir.returns_dirlookup_none hj (hnone hj)
  | some j =>
    refine hdir.ends_dirlookup h.coherent hj (Or.inr (.panic (by simp) s)) fun l t hl => ?_
    exact hsome j l t hj (h.taken hl ((h.sane i x hx).inums ht j (hdir.whole.finds hj).complete))

/-- One entry of a directory is stored. -/
theorem ends_writeEntry (hk : v.Has k i) (hl : k ∈ v.ls) (hx : v.X i = some x)
    (ht : x.din.type = T_DIR) (hout : 1 ≤ v.n) {de : Dirent} {msg : String}
    (hi : de.inum < M.sb.ninodes) (hn : de.name.length = DIRSIZ)
    (hle : DESIZE * j ≤ x.din.size.toNat)
    (hfull : MAXFILE * BSIZE < DESIZE * j + DESIZE → ∀ u : State P, Stops M (.panic msg) u)
    {Q : Unit → State P → Prop}
    (hQ : ∀ y t, DESIZE * j + DESIZE ≤ MAXFILE * BSIZE → y.file = x.file.setEntry j de →
      Working M A p { v with X := update v.X i (some y) } t → Q () t) :
    Ends (writeEntry M p k (DESIZE * j) de msg) s Q (Stops M) := by
  have hown := h.ownsDir hk hl hx ht
  refine hown.ends_writeEntry (by rwa [h.outstanding]) hle (fun hf => hfull hf s)
    (fun e u hu => .overflow e u hu.1) fun y t hs => hQ y t hs.fits hs.file ?_
  exact h.rewrote hk hl hx hs.rewrote ((h.sane i x hx).setEntry hle
    ((Nat.le_add_right ..).trans hs.fits) hi hn ht hs.file hs.owns.holeFree hs.owns.whole)
    (hs.owns.type.trans ht.symm)

theorem ends_dirlink (hk : v.Has k i) (hl : k ∈ v.ls) (hx : v.X i = some x)
    (ht : x.din.type = T_DIR) (hout : 1 ≤ v.n) {name : List UInt8} {inum : ℕ}
    (hi : inum < M.sb.ninodes) {Q : ℤ → State P → Prop}
    (hfound : ∀ j l t, x.file.index name = some j →
      Working M A p { v with ks := (l, (x.file.entry j).inum) :: v.ks } t →
      Ends (do iput M p l; return -1) t Q (Stops M))
    (hok : ∀ y t, x.file.index name = none → DESIZE * x.file.vacancy + DESIZE ≤ MAXFILE * BSIZE →
      y.file = x.file.setEntry x.file.vacancy ⟨inum, canon name⟩ →
      Working M A p { v with X := update v.X i (some y) } t → Q 0 t) :
    Ends (dirlink M p k name inum) s Q (Stops M) := by
  refine ends_bind (h.ends_dirlookup hk hl hx ht (fun hnone => ?_) hfound)
  have hdir := (h.ownsDir hk hl hx ht).cachedDir
  refine ends_bind (hdir.returns_emptyEntry ?_)
  refine ends_bind (h.ends_writeEntry hk hl hx ht hout hi (length_strncpy ..)
    hdir.whole.vacant.offset_le (fun _ => .panic (by simp)) fun y t hfits hfile hw => ends_pure ?_)
  exact hok y t hnone hfits hfile hw

/-! ## Files -/

/-- `writei` of a file that is no directory and no device. -/
theorem ends_writei (hk : v.Has k i) (hl : k ∈ v.ls) (hx : v.X i = some x)
    (hdir : x.din.type ≠ T_DIR) (hdev : x.din.type ≠ T_DEV) (hout : 1 ≤ v.n) {off n : UInt32}
    {src : ℕ → UInt8} {Q : ℤ → State P → Prop} (hbad : x.file.Refuses off n → Q (-1) s)
    (hok : ∀ y t, ¬ x.file.Refuses off n → y.file = x.file.write off n src →
      Working M A p { v with X := update v.X i (some y) } t → Q n.toNat t) :
    Ends (writei M p k src off n) s Q (Stops M) := by
  have hread : readInode M s.disk (s.icache k).inum = some x := by
    rw [h.held k i hk, h.readInode_eq (h.lt_of_has hk), hx]
  refine (h.owns hk hl hx).ends_writei (readInode_eq_some hread).1
    (by rwa [h.outstanding]) (h.sane i x hx).holeFree hdev .overflow hbad
    fun y t hn hfile hy hr => ?_
  have htype : y.din.type = x.din.type := congrArg FileData.type hfile
  exact hok y t hn hfile (h.rewrote hk hl hx hr ⟨hy, fun ht => absurd (htype.symm.trans ht) hdir,
    fun ht => absurd (htype.symm.trans ht) hdir⟩ htype)

/-- `readi` of a file that is no device changes nothing. -/
theorem returns_readi (hk : v.Has k i) (hl : k ∈ v.ls) (hx : v.X i = some x)
    (hdev : x.din.type ≠ T_DEV) {off n : UInt32} {Q : ℤ × List UInt8 → State P → Prop}
    (hQ : Q (x.file.readAt off n) s) :
    Ends (readi M p k off n) s Q E :=
  Fs.returns_readi (h.owns hk hl hx).cached hdev
    (fun bn hbn => (h.sane i x hx).holeFree hdev bn (hbn.trans_le (min_le_right ..))) hQ

end

end Working

/-! ## Walks -/

/-- A process may walk along a path : there is a root, and its current directory is in use. -/
structure Ready (M : Mount) (p : P) (T : Tables P) (U : Slot → ℕ) : Prop where
  root : ROOTINO < M.sb.ninodes
  cwd : ∀ cwd, (T.proc p).cwd = some cwd → 0 < U cwd

namespace Working

variable (h : Working M A p v s) (hv : Ready M p v.T v.U) (hout : 1 ≤ v.n) (path : List UInt8)
  (b : Bool) {Q : Option (Slot × List UInt8) → State P → Prop}
  (hnone : ∀ X' t, v.Frees X' → Working M A p { v with X := X' } t → Q none t)
  (hsome : ∀ k name i X' t, v.Frees X' →
    Working M A p { v with X := X', ks := (k, i) :: v.ks } t →
    (b = true → ∃ x, X' i = some x ∧ x.din.type = T_DIR) → Q (some (k, name)) t)

include hout hnone hsome

/-- The walk of `namex`. -/
theorem ends_namexFrom :
    ∀ {fuel : ℕ} {path : List UInt8} {k : Slot} {i : ℕ} {X' : ℕ → Option Extent} {s : State P}
      (name : List UInt8), path.length < fuel → v.Frees X' →
      Working M A p { v with X := X', ks := (k, i) :: v.ks } s →
      Ends (namexFrom M p b fuel k path name) s Q (Stops M)
  | 0, _, _, _, _, _, _, hlen, _, _ => absurd hlen (Nat.not_lt_zero _)
  | fuel + 1, path, k, i, X', s, name, hlen, hF, h => by
    have hhas : View.Has { v with X := X', ks := (k, i) :: v.ks } k i := Or.inl mem_cons_self
    unfold namexFrom
    cases hskip : skipelem path with
    | none =>
      simp only
      cases b with
      | true =>
        simp only [if_true]
        refine ends_bind (h.ends_iput hout fun X'' t hF' ht => ends_pure ?_)
        exact hnone X'' t (hF.trans hF' fun _ => id) ht
      | false => exact ends_pure (hsome k name i X' s hF h fun hb => by cases hb)
    | some r =>
      obtain ⟨elem, rest⟩ := r
      simp only
      refine ends_bind (h.ends_ilock hhas fun x t hx hl ht => ?_)
      have hls : ∀ m, m ∈ v.ls ↔ m ∈ k :: v.ls ∧ m ≠ k := fun m => by
        by_cases hm : m = k
        · simp [hm, hl]
        · simp [hm]
      -- The walk ends here, and the pointer is dropped.
      have hdrop : Ends (do iunlockput M p k; return none) t Q (Stops M) :=
        ends_bind (ht.ends_iunlockput mem_cons_self hls hout fun X'' w hF' hw =>
          ends_pure (hnone X'' w (hF.trans hF' fun _ => id) hw))
      refine ends_bind (ht.ends_load hhas mem_cons_self hx ?_)
      by_cases hdir : x.din.type = T_DIR
      · simp only [hdir, ne_eq, not_true_eq_false, if_false]
        by_cases hend : b = true ∧ rest.headD 0 = 0
        · rw [if_pos hend]
          refine ends_bind (ht.ends_iunlock mem_cons_self v.ls hls fun u hu => ends_pure ?_)
          exact hsome k elem i X' u hF hu fun _ => ⟨x, hx, hdir⟩
        · rw [if_neg hend]
          refine ends_bind (ht.ends_dirlookup hhas mem_cons_self hx hdir
            (fun _ => hdrop) fun j l u hj hu => ?_)
          have hlen' := (skipelem_some hskip).2.1
          refine ends_bind ((hu.perm (List.Perm.swap ..)).ends_iunlockput mem_cons_self hls
            hout fun X'' w hF' hw => ?_)
          exact ends_namexFrom elem (by omega)
            (hF.trans hF' fun _ => mem_cons_of_mem _) hw
      · simp only [hdir, ne_eq, not_false_eq_true, if_true]
        exact hdrop

include h hv

/-- `namex`, from the root or the current directory. -/
theorem ends_namex : Ends (namex M p path b) s Q (Stops M) := by
  unfold namex
  by_cases hpath : path.headD 0 = 47
  · rw [if_pos hpath]
    refine ends_bind (h.ends_iget hv.root fun l t ht => ?_)
    exact ends_namexFrom hout b hnone hsome [] (Nat.lt_succ_self _) (.refl v) ht
  · rw [if_neg hpath]
    refine ends_bind (ends_getState ?_)
    rw [h.tables.1]
    cases hc : (v.T.proc p).cwd with
    | none => exact ends_panic (.panic (by simp) s)
    | some cwd =>
      refine ends_bind (h.ends_idup (Or.inr ⟨hv.cwd cwd hc, rfl⟩) fun t ht => ?_)
      exact ends_namexFrom hout b hnone hsome [] (Nat.lt_succ_self _) (.refl v) ht

end Working

end Xv6.Fs
