import Xv6.FileCalls
import Xv6.OpenCall
import Xv6.WriteBudget

/-!
# Calls that change the tables

The system calls on files from one state between two calls to the next. Between two calls the
pointers to the inodes are those in the tables of the kernel, no inode is locked and no operation
has begun (`InOrder`). A call moves pointers between the tables and itself (`Working.retable`), and
leaves a state in order with the tree changed as `Edits` says (`Moved`).
-/

set_option linter.unusedSectionVars false

namespace Xv6.Fs

open Prog Function List Option

variable {path : List UInt8}

variable {P : Type} [DecidableEq P] {M : Mount} {A : Set ℕ} {p : P} {v : View P}
  {s t u : State P} {k : Slot} {i : ℕ} {x : Extent} {X : ℕ → Option Extent} {ks : List (Slot × ℕ)}
  {ls : List Slot} {T : Tables P} {U N : Slot → ℕ} {n : ℤ} {f : FileId}

/-- Change the entry of a process. -/
def Tables.setProc (T : Tables P) (p : P) (z : Proc) : Tables P :=
  { T with proc := update T.proc p z }

/-- Change an entry of the file table. -/
def Tables.setFile (T : Tables P) (f : FileId) (z : File) : Tables P :=
  { T with ftable := update T.ftable f z }

/-- The state with other tables. -/
def State.withTables (s : State P) (T : Tables P) : State P :=
  { s with proc := T.proc, ftable := T.ftable, embryos := T.embryos }

variable {E : Stop Wait → State P → Prop}

/-- The inode numbers in the inode cache. -/
abbrev State.inums (s : State P) : Slot → ℕ := fun m => (s.icache m).inum

/-- An open file after a transfer of `r` bytes. -/
def File.moved (z : File) (r : ℤ) : File := { z with off := z.off + UInt32.ofNat r.toNat }

variable {z : File}

/-- `writei` of `m` bytes to the file `d` of inode `i` has returned `r`. The call did nothing or has
written the bytes, if the file is no device. -/
structure Wrote (d : FileData) (i : ℕ) (off m : UInt32) (src : ℕ → UInt8)
    (F F' : ℕ → Option FileData) (r : ℤ) : Prop where
  ret : r = -1 ∨ r = m.toNat
  edits : Edits F F'
  file : d.type ≠ T_DEV → if d.Refuses off m then r = -1 ∧ F' = F
    else r = m.toNat ∧ F' = update F i (some (d.write off m src))

/-! ## Pointers in the tables -/

namespace Working

/-- The tables change, and pointers move between the tables and the call. -/
theorem retable (h : Working M A p ⟨X, ks, ls, T, U, N, n⟩ s) (T' : Tables P) (U' : Slot → ℕ)
    (ks' : List (Slot × ℕ))
    (hrefs : ∀ m, U' m + (ks'.map Prod.fst).count m = U m + (ks.map Prod.fst).count m)
    (hheld : ∀ e ∈ ks', View.Has ⟨X, ks, ls, T, U, N, n⟩ e.1 e.2)
    (hopen : ∀ f, (T'.ftable f).type = .inode → 0 < U' (T'.ftable f).ip)
    (hplain : ∀ f, (T'.ftable f).type = .inode →
      ∃ x, X (s.icache (T'.ftable f).ip).inum = some x ∧
        ((T'.ftable f).writable = true → x.din.type ≠ T_DIR)) :
    Working M A p ⟨X, ks', ls, T', U', s.inums, n⟩ (s.withTables T') where
  __ := h
  coherent := { h.coherent with }
  ref m := (h.ref m).trans (congrArg Nat.cast (hrefs m).symm)
  held m j hm := hm.elim (fun hm => h.held m j (hheld _ hm)) And.right
  locked m hm := ⟨(h.locked m hm).1.trans_eq (hrefs m).symm, (h.locked m hm).2⟩
  opened := hopen
  plain := hplain
  tables := ⟨rfl, rfl, rfl⟩

theorem tables_eq (h : Working M A p v s) : v.T = s.tables := by
  rw [State.tables, h.tables.1, h.tables.2.1, h.tables.2.2]

theorem openFiles (h : Working M A p v s) (f : FileId) (hf : (v.T.ftable f).type = .inode) :
    ∃ x, v.X (s.icache (v.T.ftable f).ip).inum = some x ∧
      ((v.T.ftable f).writable = true → x.din.type ≠ T_DIR) := by
  rw [h.held _ _ (Or.inr ⟨h.opened f hf, rfl⟩)]
  exact h.plain f hf

/-- A pointer of the call becomes one of the tables. -/
theorem acquire (h : Working M A p ⟨X, (k, i) :: ks, ls, T, U, N, n⟩ s) (U' : Slot → ℕ)
    (hU : ∀ m, U' m = U m + if m = k then 1 else 0) :
    Working M A p ⟨X, ks, ls, T, U', s.inums, n⟩ s := by
  obtain rfl : T = s.tables := h.tables_eq
  refine h.retable s.tables U' ks (fun m => ?_) (fun e he => Or.inl (mem_cons_of_mem _ he))
    (fun f hf => ?_) h.openFiles
  · simp only [hU, map_cons, count_cons, beq_iff_eq, eq_comm (a := k)]
    split_ifs <;> omega
  · rw [hU]
    exact Nat.add_pos_left (h.opened f hf) _

section

variable (h : Working M A p ⟨X, ks, ls, T, U, N, n⟩ s)

include h

/-- A pointer of the tables becomes one of the call. -/
theorem release (U' : Slot → ℕ) (hU : ∀ m, U m = U' m + if m = k then 1 else 0)
    (hopen : ∀ f, (T.ftable f).type = .inode → 0 < U' (T.ftable f).ip) :
    Working M A p ⟨X, (k, N k) :: ks, ls, T, U', s.inums, n⟩ s := by
  obtain rfl : T = s.tables := h.tables_eq
  refine h.retable s.tables U' ((k, N k) :: ks) (fun m => ?_) (fun e he => ?_) hopen h.openFiles
  · simp only [hU, map_cons, count_cons, beq_iff_eq, eq_comm (a := k)]
    split_ifs <;> omega
  · have hpos : 0 < U k := by
      rw [hU, if_pos rfl]
      exact Nat.succ_pos _
    rcases mem_cons.1 he with rfl | he
    · exact Or.inr ⟨hpos, rfl⟩
    · exact Or.inl he

/-- The entry of a process changes. -/
theorem setProc (q : P) (z : Proc) :
    Working M A p ⟨X, ks, ls, T.setProc q z, U, s.inums, n⟩ (s.setProc q z) := by
  obtain rfl : T = s.tables := h.tables_eq
  exact h.retable (s.tables.setProc q z) U ks (fun _ => rfl) (fun _ => Or.inl) h.opened
    h.openFiles

/-- There are other new processes. -/
theorem setEmbryos (e : List Proc) :
    Working M A p ⟨X, ks, ls, { T with embryos := e }, U, s.inums, n⟩
      { s with embryos := e } := by
  obtain rfl : T = s.tables := h.tables_eq
  exact h.retable { s.tables with embryos := e } U ks (fun _ => rfl) (fun _ => Or.inl)
    h.opened h.openFiles

/-- An entry of the file table changes. -/
theorem setFile (f : FileId) (z : File)
    (hz : z.type = .inode → 0 < U z.ip ∧ ∃ x, X (s.icache z.ip).inum = some x ∧
      (z.writable = true → x.din.type ≠ T_DIR)) :
    Working M A p ⟨X, ks, ls, T.setFile f z, U, s.inums, n⟩ (s.setFile f z) := by
  obtain rfl : T = s.tables := h.tables_eq
  have hall : ∀ g, (update s.ftable f z g).type = .inode → 0 < U (update s.ftable f z g).ip ∧
      ∃ x, X (s.icache (update s.ftable f z g).ip).inum = some x ∧
        ((update s.ftable f z g).writable = true → x.din.type ≠ T_DIR) := by
    intro g
    by_cases hg : g = f
    · rw [hg, update_self]
      exact hz
    · rw [update_of_ne hg]
      exact fun ht => ⟨h.opened g ht, h.openFiles g ht⟩
  exact h.retable (s.tables.setFile f z) U ks (fun _ => rfl) (fun _ => Or.inl)
    (fun g hg => (hall g hg).1) fun g hg => (hall g hg).2

/-- An open file changes, but is for the same inode. -/
theorem touchFile (ht : z.type = (T.ftable f).type) (hip : z.ip = (T.ftable f).ip)
    (hw : z.writable = (T.ftable f).writable) :
    Working M A p ⟨X, ks, ls, T.setFile f z, U, s.inums, n⟩ (s.setFile f z) :=
  h.setFile f z fun hz => by
    rw [ht] at hz
    rw [hip, hw]
    exact ⟨h.opened f hz, h.openFiles f hz⟩

/-- The offset moves by what was transferred. -/
theorem ends_advance {r : ℤ} :
    Ends (advance f r) s (fun _ => Working M A p ⟨X, ks, ls, T.setFile f ((T.ftable f).moved r), U,
      s.inums, n⟩) E := by
  obtain rfl : T = s.tables := h.tables_eq
  have ht := h.touchFile (f := f) (z := (s.ftable f).moved r) rfl rfl rfl
  unfold advance
  split_ifs with hr
  · exact ends_modifyState ht
  · have hz : (s.ftable f).moved r = s.ftable f := by
      rw [File.moved, Int.toNat_of_nonpos (not_lt.1 hr)]
      simp
    refine ends_pure ?_
    have hs : s.setFile f ((s.ftable f).moved r) = s := by
      rw [hz, State.setFile, update_eq_self]
    rwa [hs] at ht

end

/-! ## Files and devices -/

/-- The only lock is given up. -/
theorem ends_iunlock_only (h : Working M A p ⟨X, ks, [k], T, U, N, n⟩ s) {Q : Unit → State P → Prop}
    (hQ : ∀ t, Working M A p ⟨X, ks, [], T, U, N, n⟩ t → Q () t) : Ends (iunlock p k) s Q E :=
  h.ends_iunlock (by simp) [] (fun m => by simp) hQ

/-- Reading from the console changes no file. -/
theorem ends_consoleTake : ∀ {m : ℕ} {b : Bool} {s : State P}, Working M A p v s →
    Ends (consoleTake b m) s (fun _ => Working M A p v) (Stops M)
  | 0, _, _, h => ends_pure h
  | m + 1, b, s, h => by
    refine ends_await (fun _ => .wait _ s) fun t ht => ?_
    have hw : Working M A p v t := by
      cases hs : s.input with
      | nil => simp [hs] at ht
      | cons c cs =>
        simp only [hs, some.injEq] at ht
        rw [← ht]
        split_ifs
        · exact h
        · exact { h with
            coherent := { h.coherent with } }
    dsimp only
    split_ifs
    · exact ends_pure hw
    · exact ends_pure hw
    · exact ends_bind ((ends_consoleTake hw).mono fun _ _ ht => ends_pure ht)

/-- `readi` of any inode. It may stop only if the inode is for a device. -/
theorem ends_readi (h : Working M A p ⟨X, ks, [k], T, U, N, n⟩ s)
    (hk : View.Has ⟨X, ks, [k], T, U, N, n⟩ k i) (hx : X i = some x) {off m : UInt32}
    (hE : x.din.type = T_DEV → ∀ e t, Stops M e t → E e t) :
    Ends (readi M p k off m) s (fun r t => (x.din.type ≠ T_DEV → r = x.file.readAt off m) ∧
      Working M A p ⟨X, ks, [k], T, U, N, n⟩ t) E := by
  by_cases hdev : x.din.type = T_DEV
  · refine Ends.imp (ends_bind (h.ends_load hk (by simp) hx ?_)) (fun _ _ => id) (hE hdev)
    rw [if_pos hdev]
    split_ifs
    · refine ends_bind (h.ends_iunlock_only fun t ht => ?_)
      refine ends_bind ((ht.ends_consoleTake).mono fun _ u hu => ?_)
      exact ends_bind (hu.ends_ilock hk fun _ w _ _ hw => ends_pure ⟨absurd hdev, hw⟩)
    · exact ends_pure ⟨absurd hdev, h⟩
  · exact h.returns_readi hk (by simp) hx hdev ⟨fun _ => rfl, h⟩

/-- The reads of `exec`, whatever it finds. -/
theorem ends_execReads (hx : X i = some x)
    {next : List (ℤ × List UInt8) → Option (UInt32 × UInt32)} :
    ∀ {fuel : ℕ} {rs : List (ℤ × List UInt8)} {s : State P},
    Working M A p ⟨X, ks, [k], T, U, N, n⟩ s → View.Has ⟨X, ks, [k], T, U, N, n⟩ k i →
    Ends (execReads M p k next fuel rs) s
      (fun _ => Working M A p ⟨X, ks, [k], T, U, N, n⟩) (Stops M)
  | 0, _, _, h, _ => ends_pure h
  | fuel + 1, rs, s, h, hk => by
    unfold execReads
    cases next rs with
    | none => exact ends_pure h
    | some r =>
      exact ends_bind ((h.ends_readi hk hx fun _ _ _ => id).mono fun _ _ ht =>
        ends_execReads hx ht.2 hk)

/-- `writei` of an inode that is no directory. -/
theorem ends_writei_any (h : Working M A p ⟨X, ks, [k], T, U, N, 1⟩ s)
    (hk : View.Has ⟨X, ks, [k], T, U, N, 1⟩ k i) (hx : X i = some x) (hdir : x.din.type ≠ T_DIR)
    {off m : UInt32} {src : ℕ → UInt8} :
    Ends (writei M p k src off m) s (fun r t => ∃ X', Wrote x.file i off m src (fileOf X)
      (fileOf X') r ∧ Working M A p ⟨X', ks, [k], T, U, N, 1⟩ t) (Stops M) := by
  by_cases hdev : x.din.type = T_DEV
  · refine ends_bind (h.ends_load hk (by simp) hx ?_)
    rw [if_pos hdev]
    split_ifs
    · refine ends_bind (h.ends_iunlock_only fun t ht => ?_)
      exact ends_bind (ht.ends_ilock hk fun _ w _ _ hw => ends_pure
        ⟨X, ⟨Or.inr rfl, .refl, absurd hdev⟩, hw⟩)
    · exact ends_pure ⟨X, ⟨Or.inl rfl, .refl, absurd hdev⟩, h⟩
  · refine h.ends_writei hk (by simp) hx hdir hdev le_rfl
      (fun hbad => ⟨X, ⟨Or.inl rfl, .refl, fun _ => ?_⟩, h⟩) fun y t hok hy ht =>
      ⟨_, ⟨Or.inr rfl, ?_, fun _ => ?_⟩, ht⟩
    · rw [if_pos hbad]
      exact ⟨rfl, rfl⟩
    · rw [fileOf_update]
      exact .single (.write (fileOf_eq_some hx) hdir (congrArg FileData.type hy :)
        (congrArg FileData.nlink hy :))
    · rw [if_neg hok, fileOf_update, map_some, hy]
      exact ⟨rfl, rfl⟩

/-! ## Opening -/

/-- The part of `sys_open` that finds the inode. -/
theorem ends_openInode (h : Working M A p ⟨X, ks, [], T, U, N, 1⟩ s) (hv : Ready M p T U)
    {omode : ℕ} {Q : Option Slot → State P → Prop}
    (hnone : ∀ X' t, Edits (fileOf X) (fileOf X') → Working M A p ⟨X', ks, [], T, U, N, 1⟩ t →
      Q none t)
    (hsome : ∀ k i x X' t, Edits (fileOf X) (fileOf X') → X' i = some x →
      (x.din.type = T_DIR → omode = 0) → Working M A p ⟨X', (k, i) :: ks, [k], T, U, N, 1⟩ t →
        Q (some k) t) :
    Ends (openInode M p path omode) s Q (Stops M) := by
  unfold openInode
  split_ifs with hc
  · refine h.ends_create hv (by decide) hnone fun k i x X' t he hx ht => hsome k i x X' t he hx
      fun hd => ?_
    rw [ht] at hd
    exact absurd hd (by decide)
  · refine ends_bind (ends_bind (h.ends_namex hv le_rfl path false
      (fun X' t hF ht => ends_pure (ends_pure (hnone X' t hF.edits ht)))
      fun k name i X' t hF ht _ => ends_pure ?_))
    refine ends_bind (ht.ends_ilock .top fun x u hx _ hu => ?_)
    refine ends_bind (hu.ends_load .top (by simp) hx ?_)
    split_ifs with hd
    · exact ends_bind (hu.ends_iunlockput_only le_rfl fun X₁ w hF₁ hw =>
        ends_pure (hnone X₁ w (hF.edits.trans hF₁.edits) hw))
    · exact ends_pure (hsome k i x X' u hF.edits hx (fun ht => by_contra fun hn => hd ⟨ht, hn⟩) hu)

/-- `sys_mknod` and `sys_mkdir`. -/
theorem ends_makeInode (h : Working M A p ⟨X, ks, [], T, U, N, 0⟩ s) (hv : Ready M p T U)
    {type major minor : Int16} (htype : type ≠ 0) :
    Ends (makeInode M p path type major minor) s
      (fun _ => Changed M A p ⟨X, ks, [], T, U, N, 0⟩) (Stops M) :=
  ends_bind (h.ends_beginOp fun _ ht => ends_bind (ht.ends_create hv htype
    (fun X' _ he hu => ends_bind (hu.ends_endOp fun _ hw => ends_pure ⟨X', he, hw⟩))
    fun _ _ _ _ _ he _ _ hu => hu.ends_leave fun _ ht => ht.trans he))

end Working

/-! ## Between two calls -/

section

variable [Fintype P]

/-- How often an inode is used when a process changes, -/
theorem users_setProc (T : Tables P) (p : P) (z : Proc) (k : Slot) :
    (T.setProc p z).users k + (T.proc p).uses k = T.users k + z.uses k := by
  have := total_update (fun _ (y : Proc) => y.uses k) T.proc p z
  simp only [Tables.users, Tables.setProc]
  omega

/-- and when an entry of `ftable` changes. -/
theorem users_setFile (T : Tables P) (f : FileId) (z : File) (k : Slot) :
    (T.setFile f z).users k + (T.ftable f).uses k = T.users k + z.uses k := by
  have := total_update (fun _ (y : File) => y.uses k) T.ftable f z
  simp only [Tables.users, Tables.setFile]
  omega

theorem users_setProc_eq {z : Proc} (hz : z.cwd = (T.proc p).cwd) (k : Slot) :
    T.users k = (T.setProc p z).users k := by
  have := users_setProc T p z k
  simp only [Proc.uses, hz] at this
  omega

theorem users_setFile_eq (ht : z.type = (T.ftable f).type)
    (hip : z.type = .inode → z.ip = (T.ftable f).ip) (k : Slot) :
    T.users k = (T.setFile f z).users k := by
  have := users_setFile T f z k
  have hz : z.uses k = (T.ftable f).uses k := by
    simp only [File.uses, ← ht]
    by_cases hz : z.type = .inode
    · rw [hip hz]
    · simp only [hz, false_and]
  omega

/-- A file is opened. -/
theorem users_open (hf : (T.ftable f).type = .none) (hz : z.type = .inode) (k : Slot) :
    (T.setFile f z).users k = T.users k + if k = z.ip then 1 else 0 := by
  have := users_setFile T f z k
  simpa only [File.uses, hf, hz, reduceCtorEq, false_and, if_false, true_and, add_zero,
    eq_comm (b := k)] using this

/-- A current directory is in use, -/
theorem users_pos_of_cwd (hc : (T.proc p).cwd = some k) : 0 < T.users k := by
  have := users_setProc T p ⟨none, (T.proc p).ofile⟩ k
  simp only [Proc.uses, hc, if_true, reduceCtorEq, if_false] at this
  omega

/-- and so is the inode of an open file. -/
theorem users_pos_of_file (T : Tables P) (f : FileId) (hf : (T.ftable f).type = .inode) :
    0 < T.users (T.ftable f).ip := by
  have := users_setFile T f { T.ftable f with type := .none } (T.ftable f).ip
  simp only [File.uses, hf, and_self, if_true, reduceCtorEq, false_and, if_false] at this
  omega

/-- A state between two calls. An inode without links is in use, if it is not in `A`. The inodes of
open files are allocated, and no directory is open for writing. -/
structure InOrder (M : Mount) (A : Set ℕ) (s : State P) : Prop where
  coherent : Coherent M s
  consistent : Consistent M s.disk
  sane : ∀ i x, inodes M s.disk i = some x → Sane M x
  below : ∀ k, 0 < (s.icache k).ref → (s.icache k).inum < M.sb.ninodes
  ref : ∀ k, (s.icache k).ref = s.tables.users k
  linked : ∀ i ∉ A, ∀ x, inodes M s.disk i = some x → x.din.nlink = 0 →
    ∃ k, 0 < (s.icache k).ref ∧ (s.icache k).inum = i ∧ (s.copy k).valid = true
  plain : ∀ f, (s.ftable f).type = .inode →
    ∃ x, inodes M s.disk (s.icache (s.ftable f).ip).inum = some x ∧
      ((s.ftable f).writable = true → x.din.type ≠ T_DIR)
  free : ∀ f, (s.ftable f).ref = 0 → (s.ftable f).type = .none
  lock : ∀ k, s.lock k = none
  outstanding : s.log.outstanding = 0
  committing : s.log.committing = false

/-- The inodes on the disk, as files. -/
def State.tree (M : Mount) (s : State P) : ℕ → Option FileData := fileOf (inodes M s.disk)

/-- A call led from `s` to `t`. -/
def Moved (M : Mount) (A : Set ℕ) (s t : State P) : Prop :=
  InOrder M A t ∧ Edits (s.tree M) (t.tree M)

/-- A call leads from `s` to states in order. -/
abbrev Moves {α : Type} (M : Mount) (A : Set ℕ) (x : Kernel P α) (s : State P) : Prop :=
  Ends x s (fun _ => Moved M A s) (Stops M)

theorem Moved.trans (h : Moved M A s t) (h' : Moved M A t u) : Moved M A s u :=
  ⟨h'.1, h.2.trans h'.2⟩

/-- The inode of an open file. -/
def State.node (s : State P) (f : FileId) : ℕ := (s.icache (s.ftable f).ip).inum

/-- What a transfer of `r` bytes through `f` leaves, with the files `F` on the disk. -/
structure Transferred (M : Mount) (A : Set ℕ) (s : State P) (f : FileId) (r : ℤ)
    (F : ℕ → Option FileData) (t : State P) : Prop where
  order : InOrder M A t
  tree : t.tree M = F
  ftable : t.ftable = update s.ftable f ((s.ftable f).moved r)
  inum : ∀ g, (s.ftable g).type = .inode →
    (t.icache (s.ftable g).ip).inum = (s.icache (s.ftable g).ip).inum

namespace Transferred

variable {r : ℤ} {F : ℕ → Option FileData}

theorem moved (h : Transferred M A s f r F t) (he : Edits (s.tree M) F) : Moved M A s t :=
  ⟨h.order, by rwa [h.tree]⟩

theorem file_eq (h : Transferred M A s f r F t) (g : FileId) :
    ∃ off, t.ftable g = { s.ftable g with off := off } := by
  rw [h.ftable]
  by_cases hg : g = f
  · rw [hg]
    exact ⟨_, update_self ..⟩
  · exact ⟨_, update_of_ne hg ..⟩

end Transferred

/-- The end of a call. -/
theorem Working.moved (h : Working M A p ⟨X, [], [], T, U, N, 0⟩ t) (hU : ∀ k, U k = T.users k)
    (hfree : ∀ f, (T.ftable f).ref = 0 → (T.ftable f).type = .none)
    (he : Edits (s.tree M) (fileOf X)) : Moved M A s t := by
  obtain rfl : U = T.users := funext hU
  obtain rfl : T = t.tables := h.tables_eq
  obtain rfl : X = inodes M t.disk := h.inodes_eq.symm
  exact ⟨{ h with
    plain := h.openFiles
    free := hfree
    lock := fun k => (h.lock k).trans (if_neg not_mem_nil) }, he⟩

namespace InOrder

variable (h : InOrder M A s)

include h

/-- The start of a call. -/
theorem working (p : P) : Working M A p ⟨inodes M s.disk, [], [], s.tables, s.tables.users,
    s.inums, 0⟩ s where
  __ := h
  inodes_eq := rfl
  held _ _ hk := hk.elim (fun hk => absurd hk not_mem_nil) And.right
  lock m := (h.lock m).trans (if_neg not_mem_nil).symm
  locked _ hk := absurd hk not_mem_nil
  opened f hf := users_pos_of_file s.tables f hf
  tables := ⟨rfl, rfl, rfl⟩

theorem changed (ht : Changed M A p ⟨X, [], [], s.tables, s.tables.users, N, 0⟩ t)
    (he : Edits (s.tree M) (fileOf X)) : Moved M A s t := by
  obtain ⟨X', he', ht⟩ := ht
  exact ht.moved (fun _ => rfl) h.free (he.trans he')

theorem ready (hroot : ROOTINO < M.sb.ninodes) (p : P) : Ready M p s.tables s.tables.users where
  root := hroot
  cwd _ hc := users_pos_of_cwd hc

/-- A process opens or closes a descriptor. -/
theorem setProc (q : P) {z : Proc} (hz : z.cwd = (s.proc q).cwd) : Moved M A s (s.setProc q z) :=
  ((h.working q).setProc q z).moved (users_setProc_eq hz) h.free .refl

theorem free_setFile (hz : z.ref = 0 → z.type = .none) (g : FileId)
    (hg : ((s.tables.setFile f z).ftable g).ref = 0) :
    ((s.tables.setFile f z).ftable g).type = .none := by
  change (update s.ftable f z g).ref = 0 at hg
  change (update s.ftable f z g).type = .none
  by_cases hgf : g = f
  · rw [hgf, update_self] at hg ⊢
    exact hz hg
  · rw [update_of_ne hgf] at hg ⊢
    exact h.free g hg

/-- The reference count of a file changes. -/
theorem setRef (f : FileId) {r : ℤ} (hr : r ≠ 0) (p : P) :
    Moved M A s (s.setFile f { s.ftable f with ref := r }) :=
  ((h.working p).touchFile (z := { s.ftable f with ref := r }) rfl rfl rfl).moved
    (users_setFile_eq rfl fun _ => rfl) (h.free_setFile fun h0 => absurd h0 hr) .refl

omit h in
theorem ends_argfd {fd : ℤ} {Q : Option (Fd × FileId) → State P → Prop} (hnone : Q none s)
    (hsome : ∀ fd f, Q (some (fd, f)) s) : Ends (argfd p fd) s Q (Stops M) := by
  have hQ : ∀ r, Q r s := fun r => r.rec hnone fun e => hsome e.1 e.2
  refine ends_bind (ends_getState ?_)
  dsimp only
  split_ifs <;> exact ends_pure (hQ _)

theorem ends_fdalloc : Moves M A (fdalloc p f) s := by
  refine ends_atomic ?_
  dsimp only
  cases (List.finRange NOFILE).find? fun fd => ((s.proc p).ofile fd).isNone with
  | none => exact ⟨h, .refl⟩
  | some fd => exact h.setProc p rfl

theorem ends_filedup (p : P) : Moves M A (filedup f) s := by
  refine ends_atomic ?_
  by_cases hr : (s.ftable f).ref < 1
  · simp only [hr, if_true]
    exact .panic (by simp) s
  · simp only [hr, if_false]
    exact h.setRef f (by omega) p

/-- `fileclose`. -/
theorem ends_fileclose : Moves M A (fileclose M p f) s := by
  refine ends_bind (ends_atomic ?_)
  by_cases hr : (s.ftable f).ref < 1
  · simp only [hr, if_true]
    exact .panic (by simp) s
  by_cases hr' : 0 < (s.ftable f).ref - 1
  · simp only [hr, hr', if_true, if_false]
    exact ends_pure (h.setRef f (by omega) p)
  simp only [hr, hr', if_false]
  obtain ⟨z, hz⟩ : ∃ z : File, z = { s.ftable f with ref := 0, type := .none } := ⟨_, rfl⟩
  have htype : z.type = .none := by rw [hz]
  rw [← hz]
  have hw := (h.working p).setFile f z fun hc => absurd (htype.symm.trans hc) (by simp)
  have hfree := h.free_setFile (f := f) (z := z) fun _ => htype
  have hus := users_setFile s.tables f z
  by_cases hf : (s.ftable f).type = .inode
  · rw [if_pos hf]
    have hr := hw.release (k := (s.ftable f).ip) (s.tables.setFile f z).users (fun m => ?_)
      (users_pos_of_file _)
    · exact ends_bind (hr.ends_beginOp fun _ ht => ends_bind (ht.ends_iput le_rfl
        fun _ _ hF hu => hu.ends_endOp fun _ hw => hw.moved (fun _ => rfl) hfree hF.edits))
    · have := hus m
      simp only [File.uses, htype, hf, reduceCtorEq, true_and, false_and, if_false, add_zero,
        State.tables, eq_comm (b := m)] at this
      exact this.symm
  · rw [if_neg hf]
    refine ends_pure (hw.moved (fun m => ?_) hfree .refl)
    have := hus m
    simp only [File.uses, htype, hf, reduceCtorEq, false_and, if_false, add_zero,
      State.tables] at this
    exact this.symm

theorem ends_sysClose {fd : ℤ} : Moves M A (sysClose M p fd) s := by
  refine ends_bind (ends_argfd (ends_pure ⟨h, .refl⟩) fun fd f => ?_)
  have hc := h.setProc p (z := (s.proc p).setFd fd none) rfl
  exact ends_bind (ends_modifyState (ends_bind ((hc.1.ends_fileclose).mono
    fun _ _ ht => ends_pure (hc.trans ht))))

theorem ends_sysDup {fd : ℤ} : Moves M A (sysDup p fd) s := by
  refine ends_bind (ends_argfd (ends_pure ⟨h, .refl⟩) fun _ f => ?_)
  refine ends_bind (h.ends_fdalloc.mono fun r t ht => ?_)
  cases r with
  | none => exact ends_pure ht
  | some fd => exact ends_bind ((ht.1.ends_filedup p).mono fun _ _ hu => ends_pure (ht.trans hu))

theorem ends_exitFiles : Moves M A (exitFiles M p) s := by
  refine ends_bind ((ends_forRange (fun _ => Moved M A s) (fun fd t _ _ ht => ?_)
    ⟨h, .refl⟩).mono fun _ t ht => ?_)
  · unfold exitFd
    split_ifs with hfd
    · refine ends_bind (ends_getState ?_)
      cases hf : (t.proc p).ofile ⟨fd, hfd⟩ with
      | none => exact ends_pure ht
      | some f =>
        exact ends_bind ((ht.1.ends_fileclose).mono fun _ u hu => ends_modifyState
          ((ht.trans hu).trans (hu.1.setProc p rfl)))
    · exact ends_pure ht
  · refine ends_bind ((ht.1.working p).ends_beginOp fun u hu => ?_)
    refine ends_bind (ends_bind (ends_getState ?_))
    rw [show u.proc = t.proc from hu.tables.1]
    cases hc : (t.proc p).cwd with
    | none => exact ends_panic (.panic (by simp) u)
    | some c =>
      have hr := hu.release (k := c) (t.tables.setProc p ⟨none, (t.proc p).ofile⟩).users
        (fun m => ?_) (users_pos_of_file (t.tables.setProc p ⟨none, (t.proc p).ofile⟩))
      · refine hr.ends_iput le_rfl fun _ _ hF hw => ends_bind (hw.ends_endOp fun w hw =>
          ends_modifyState ?_)
        rw [show w.proc = t.proc from hw.tables.1]
        exact ht.trans ((hw.setProc p ⟨none, (t.proc p).ofile⟩).moved (fun _ => rfl) ht.1.free
          hF.edits)
      · have := users_setProc t.tables p ⟨none, (t.proc p).ofile⟩ m
        simp only [State.tables, Proc.uses, hc, some.injEq, reduceCtorEq, if_false,
          eq_comm (b := m)] at this
        exact this.symm

theorem ends_sysFork : Moves M A (sysFork p) s := by
  refine ends_bind ((ends_forRange (fun _ => Moved M A s) (fun fd t _ _ ht => ?_)
    ⟨h, .refl⟩).mono fun _ t ht => ?_)
  · unfold forkFd
    split_ifs with hfd
    · refine ends_bind (ends_getState ?_)
      cases hf : (t.proc p).ofile ⟨fd, hfd⟩ with
      | none => exact ends_pure ht
      | some f => exact (ht.1.ends_filedup p).mono fun _ _ hu => ht.trans hu
    · exact ends_pure ht
  · refine ends_bind (ends_getState ?_)
    cases hc : (t.proc p).cwd with
    | none => exact ends_panic (.panic (by simp) t)
    | some c =>
      have hpos : 0 < t.tables.users c := users_pos_of_cwd hc
      refine ends_bind ((ht.1.working p).ends_idup (Or.inr ⟨hpos, rfl⟩) fun u hu =>
        ends_modifyState ?_)
      have ha := hu.acquire
        ({ t.tables with embryos := t.proc p :: t.embryos } : Tables P).users fun m => ?_
      · have hs := (ha.setEmbryos (t.proc p :: t.embryos)).moved (fun _ => rfl) ht.1.free .refl
        have he : u.proc p :: u.embryos = t.proc p :: t.embryos :=
          congrArg₂ (fun a b => a p :: b) hu.tables.1 hu.tables.2.2
        rw [he]
        exact ht.trans hs
      · simp only [Tables.users, State.tables, countP_cons, hc, some.injEq,
          decide_eq_true_eq, eq_comm (a := c)]
        omega

theorem ends_forkret {n : ℕ} : Moves M A (forkret p n) s := by
  refine ends_modifyState ?_
  cases hn : s.embryos[n]? with
  | none => exact ⟨h, .refl⟩
  | some x =>
    dsimp only
    split_ifs with hp
    · refine (((h.working p).setProc p x).setEmbryos (s.embryos.eraseIdx n)).moved (fun k => ?_)
        h.free .refl
      obtain ⟨hlt, rfl⟩ := List.getElem?_eq_some_iff.1 hn
      have hperm := (getElem_cons_eraseIdx_perm hlt).countP_eq fun x : Proc => x.cwd = some k
      have := users_setProc s.tables p s.embryos[n] k
      simp only [Tables.users, Tables.setProc, State.tables, Proc.uses, hp.1, countP_cons,
        decide_eq_true_eq, reduceCtorEq, if_false] at this hperm ⊢
      omega
    · exact ⟨h, .refl⟩

/-! ## Reading and writing -/

/-- The end of a transfer, with nothing locked. -/
theorem transferred {r : ℤ}
    (hu : Working M A p ⟨X, [], [k], s.tables, s.tables.users, s.inums, n⟩ u)
    (ht : Working M A p ⟨X, [], [], s.tables.setFile f ((s.ftable f).moved r), s.tables.users,
      u.inums, 0⟩ t) (he : Edits (s.tree M) (fileOf X)) :
    Transferred M A s f r (fileOf X) t where
  order := (ht.moved (users_setFile_eq rfl fun _ => rfl) (h.free_setFile (h.free f)) he).1
  tree := congrArg fileOf ht.inodes_eq
  ftable := ht.tables.2.1
  inum g hg := by
    have hpos := users_pos_of_file s.tables g hg
    exact (ht.held _ _ (Or.inr ⟨hpos, rfl⟩)).trans (hu.held _ _ (Or.inr ⟨hpos, rfl⟩))

theorem ends_fileread_inode (hf : (s.ftable f).type = .inode) (hr : (s.ftable f).readable = true)
    (hx : inodes M s.disk (s.node f) = some x) {n : UInt32}
    (hE : x.din.type = T_DEV → ∀ e t, Stops M e t → E e t) :
    Ends (fileread M p f n) s (fun r t =>
      (x.din.type ≠ T_DEV → r = x.file.readAt (s.ftable f).off n) ∧
        Transferred M A s f r.1 (s.tree M) t) E := by
  refine ends_bind (ends_getState ?_)
  simp only [hr, Bool.not_true, Bool.false_eq_true, if_false, hf]
  have hpos := users_pos_of_file s.tables f hf
  refine ends_bind ((h.working p).returns_ilock (Or.inr ⟨hpos, rfl⟩) hx not_mem_nil
    fun t ht => ?_)
  replace ht := ht.mono Set.sdiff_subset
  refine ends_bind (ends_getState (ends_bind ((ht.ends_readi (Or.inr ⟨hpos, rfl⟩) hx hE).mono
    fun r u hu => ?_)))
  rw [show t.ftable = s.ftable from ht.tables.2.1] at hu
  exact ends_bind (hu.2.ends_advance.mono fun _ w hw => ends_bind (hw.ends_iunlock_only
    fun _ hw => ends_pure ⟨hu.1, h.transferred hu.2 hw .refl⟩))

theorem ends_fileread {n : UInt32} : Moves M A (fileread M p f n) s := by
  by_cases hf : (s.ftable f).readable = true ∧ (s.ftable f).type = .inode
  · obtain ⟨x, hx, -⟩ := h.plain f hf.2
    exact (h.ends_fileread_inode hf.2 hf.1 hx fun _ _ _ => id).mono fun _ _ ht => ht.2.moved .refl
  · refine ends_bind (ends_getState ?_)
    dsimp only
    split_ifs with hr
    · exact ends_pure ⟨h, .refl⟩
    cases ht : (s.ftable f).type with
    | none => exact ends_panic (.panic (by simp) s)
    | inode => exact absurd ⟨by simpa using hr, ht⟩ hf

theorem ends_filestat : Moves M A (filestat M p f) s := by
  refine ends_bind (ends_getState ?_)
  dsimp only
  cases hf : (s.ftable f).type with
  | none => exact ends_pure ⟨h, .refl⟩
  | inode =>
    have hpos := users_pos_of_file s.tables f hf
    refine ends_bind ((h.working p).ends_ilock (Or.inr ⟨hpos, rfl⟩) fun _ t _ _ ht => ?_)
    refine ends_bind (ends_bind (returns_load ?_))
    refine ends_bind (returns_devOf ?_)
    refine ends_bind (returns_inumOf (ends_pure ?_))
    exact ends_bind (ht.ends_iunlock_only fun w hw =>
      ends_pure (hw.moved (fun _ => rfl) h.free .refl))

/-- One pass of the loop of `filewrite`. -/
theorem ends_filewriteChunk (hf : (s.ftable f).type = .inode) (hw : (s.ftable f).writable = true)
    (hx : inodes M s.disk (s.node f) = some x) (src : ℕ → UInt8) (m : ℕ) :
    Ends (filewriteChunk M p f (s.ftable f).ip src m) s (fun r t => ∃ F,
      Wrote x.file (s.node f) (s.ftable f).off (.ofNat m) src (s.tree M) F r ∧
      Transferred M A s f r F t) (Stops M) := by
  have hpos := users_pos_of_file s.tables f hf
  have hdir : x.din.type ≠ T_DIR := by
    obtain ⟨y, hy, hplain⟩ := h.plain f hf
    obtain rfl := some.inj (hx.symm.trans hy)
    exact hplain hw
  refine ends_bind ((h.working p).ends_beginOp fun t ht => ?_)
  refine ends_bind (ht.ends_ilock (Or.inr ⟨hpos, rfl⟩) fun _ t _ _ ht => ?_)
  refine ends_bind (ends_getState (ends_bind ((ht.ends_writei_any (Or.inr ⟨hpos, rfl⟩) hx
    hdir).mono fun r u hu => ?_)))
  rw [show t.ftable = s.ftable from ht.tables.2.1] at hu
  obtain ⟨X', hwrote, hu⟩ := hu
  exact ends_bind (hu.ends_advance.mono fun _ w hw => ends_bind (hw.ends_iunlock_only
    fun w hw => ends_bind (hw.ends_endOp fun w hw => ends_pure
      ⟨fileOf X', hwrote, h.transferred hu hw hwrote.edits⟩)))

omit h in
/-- The loop of `filewrite`. -/
theorem ends_filewriteChunks : ∀ {ns : List ℕ} {src : ℕ → UInt8} {s : State P}, InOrder M A s →
    (s.ftable f).type = .inode → (s.ftable f).writable = true → (∀ m ∈ ns, m < 2 ^ 32) →
    Moves M A (filewriteChunks M p f (s.ftable f).ip ns src) s
  | [], _, _, h, _, _, _ => ends_pure ⟨h, .refl⟩
  | m :: ns, src, s, h, hf, hw, hm => by
    obtain ⟨x, hx, -⟩ := h.plain f hf
    refine ends_bind ((h.ends_filewriteChunk hf hw hx src m).mono fun r t ht => ?_)
    obtain ⟨F, hwrote, ht⟩ := ht
    obtain ⟨off, hoff⟩ := ht.file_eq f
    have hr := hwrote.ret
    rw [UInt32.toNat_ofNat_of_lt' (hm m mem_cons_self)] at hr
    have hmoved := ht.moved hwrote.edits
    have hip : (s.ftable f).ip = (t.ftable f).ip := by rw [hoff]
    split_ifs with h0 hne
    · exact ends_pure hmoved
    · omega
    · rw [hip]
      exact (ends_filewriteChunks ht.order (by rwa [hoff]) (by rwa [hoff]) fun m hm' =>
        hm m (mem_cons_of_mem _ hm')).mono fun _ _ hu => hmoved.trans hu

theorem ends_filewrite {src : ℕ → UInt8} {n : ℕ} : Moves M A (filewrite M p f src n) s := by
  refine ends_bind (ends_getState ?_)
  dsimp only
  split_ifs with hw
  · exact ends_pure ⟨h, .refl⟩
  cases hf : (s.ftable f).type with
  | none => exact ends_panic (.panic (by simp) s)
  | inode =>
    rw [filewriteFrom_eq f _ src le_rfl]
    refine ends_bind ((ends_filewriteChunks h hf (by simpa using hw) fun m hm => ?_).mono
      fun r t ht => ?_)
    · exact (mem_chunks hm).2.trans_lt (by decide)
    · split_ifs <;> exact ends_pure ht

theorem ends_sysRead {fd : ℤ} {n : UInt32} : Moves M A (sysRead M p fd n) s := by
  refine ends_bind (ends_argfd (ends_pure ⟨h, .refl⟩) fun _ f => ?_)
  dsimp only
  split_ifs
  · exact h.ends_fileread
  · exact ends_pure ⟨h, .refl⟩

theorem ends_sysWrite {fd : ℤ} {src : ℕ → UInt8} {n : UInt32} :
    Moves M A (sysWrite M p fd src n) s := by
  refine ends_bind (ends_argfd (ends_pure ⟨h, .refl⟩) fun _ f => ?_)
  dsimp only
  split_ifs
  · exact h.ends_filewrite
  · exact ends_pure ⟨h, .refl⟩

theorem ends_sysFstat {fd : ℤ} : Moves M A (sysFstat M p fd) s :=
  ends_bind (ends_argfd (ends_pure ⟨h, .refl⟩) fun _ _ => h.ends_filestat)

/-! ## Paths -/

variable (hroot : ROOTINO < M.sb.ninodes)

include hroot

/-- A call that leaves the tables alone. -/
theorem ends_changed (p : P) {c : Kernel P ℤ}
    (hc : Ready M p s.tables s.tables.users → Ends c s (fun _ => Changed M A p ⟨inodes M s.disk, [],
      [], s.tables, s.tables.users, s.inums, 0⟩) (Stops M)) :
    Moves M A c s :=
  (hc (h.ready hroot p)).mono fun _ _ ht => h.changed ht .refl

theorem ends_sysChdir :
    Moves M A (sysChdir M p path) s := by
  refine ends_bind ((h.working p).ends_beginOp fun t ht => ?_)
  refine ends_bind (ends_bind (ht.ends_namex (h.ready hroot p) le_rfl path false
    (fun X' u hF hu => ends_pure (ends_bind (hu.ends_endOp fun w hw => ends_pure
      (hw.moved (fun _ => rfl) h.free hF.edits)))) fun k name i X' u hF hu _ => ends_pure ?_))
  refine ends_bind (hu.ends_ilock .top fun x t hx _ ht => ?_)
  refine ends_bind (ht.ends_load .top (by simp) hx ?_)
  by_cases hdir : x.din.type = T_DIR
  · simp only [hdir, ne_eq, not_true_eq_false, if_false]
    refine ends_bind ((ht.acquire _ fun _ => rfl).ends_iunlock_only
      fun w hw => ?_)
    refine ends_bind (ends_bind (ends_getState ?_))
    rw [show w.proc = s.proc from hw.tables.1]
    cases hcwd : (s.proc p).cwd with
    | none => exact ends_panic (.panic (by simp) w)
    | some c =>
      have hr := hw.release (k := c) (s.tables.setProc p { s.proc p with cwd := some k }).users
        (fun m => ?_) (users_pos_of_file (s.tables.setProc p { s.proc p with cwd := some k }))
      · refine hr.ends_iput le_rfl fun X₁ w₁ hF₁ hw₁ => ends_bind (hw₁.ends_endOp
          fun w₂ hw₂ => ends_bind (ends_modifyState (ends_pure ?_)))
        rw [show w₂.proc = s.proc from hw₂.tables.1]
        exact (hw₂.setProc p _).moved (fun _ => rfl) h.free (hF.edits.trans hF₁.edits)
      · have := users_setProc s.tables p { s.proc p with cwd := some k } m
        simp only [State.tables, Proc.uses, hcwd, some.injEq, eq_comm (b := m)] at this
        exact this.symm
  · simp only [hdir, ne_eq, not_false_eq_true, if_true]
    exact ht.ends_leave fun _ ht => h.changed ht hF.edits

theorem ends_sysOpen {omode : ℕ} :
    Moves M A (sysOpen M p path omode) s := by
  refine ends_bind ((h.working p).ends_beginOp fun t ht => ?_)
  refine ends_bind (ht.ends_openInode (h.ready hroot p) (fun X' u he hu => ends_bind
    (hu.ends_endOp fun w hw => ends_pure (hw.moved (fun _ => rfl) h.free he)))
    fun k i x X' u he hx hmode hu => ?_)
  -- The call fails, and gives up the inode.
  have hfail : Ends (do iunlockput M p k; endOp; return -1) u (fun _ => Moved M A s) (Stops M) :=
    hu.ends_leave fun _ ht => h.changed ht he
  have hft : u.ftable = s.ftable := hu.tables.2.1
  refine ends_bind (partly_filealloc hfail fun f href => ?_)
  rw [hft] at href
  have htype := h.free f href
  refine ends_bind (ends_atomic ?_)
  dsimp only
  cases hfd : (List.finRange NOFILE).find? fun fd => (((u.setFile f _).proc p).ofile fd).isNone with
  | none => exact ends_bind (partly_fileclose (hft ▸ href) (hft ▸ htype) hfail)
  | some fd =>
    obtain ⟨z, hz⟩ : ∃ z : File, z = { s.ftable f with
      ref := 1
      type := .inode
      ip := k
      off := 0
      readable := omode &&& O_WRONLY = 0
      writable := omode &&& O_WRONLY ≠ 0 ∨ omode &&& O_RDWR ≠ 0 } := ⟨_, rfl⟩
    obtain ⟨a, ha⟩ : ∃ a : File, a = { u.ftable f with ref := 1 } := ⟨_, rfl⟩
    obtain ⟨b, hb⟩ : ∃ b, b = Proc.setFd (u.proc p) fd (some f) := ⟨_, rfl⟩
    have hat : a.type = .none := by rw [ha, hft, htype]
    have hbc : b.cwd = (s.proc p).cwd := by
      rw [hb, ← show u.proc = s.proc from hu.tables.1]
      rfl
    have hzt : z.type = .inode := by rw [hz]
    have hip : z.ip = k := by rw [hz]
    have hT : ((s.tables.setFile f a).setProc p b).setFile f z =
        (s.tables.setFile f z).setProc p b := by
      simp only [Tables.setFile, Tables.setProc, update_idem]
    have hU : ∀ m, ((s.tables.setFile f z).setProc p b).users m =
        s.tables.users m + if m = k then 1 else 0 := fun m => by
      rw [← users_setProc_eq hbc, users_open htype hzt, hip]
    have hpos : 0 < ((s.tables.setFile f z).setProc p b).users k := by
      rw [hU, if_pos rfl]
      exact Nat.succ_pos _
    have hnew := (hu.setFile f a fun hc => by cases hat.symm.trans hc).setProc p b
    rw [ha, hb] at hnew
    refine ends_bind ((hnew.acquire _ hU).ends_iunlock_only fun w hw => ?_)
    refine ends_bind (hw.ends_endOp fun w hw => ends_bind (ends_modifyState (ends_pure ?_)))
    have hfile : w.ftable f = { s.ftable f with ref := 1 } := by
      rw [hw.tables.2.1, ← hft]
      exact update_self ..
    rw [hfile, ← hz]
    rw [← ha, ← hb] at hw
    have hdone := hw.setFile f z fun _ => ⟨hip.symm ▸ hpos, x, ?_, fun hwr hdir => ?_⟩
    · rw [hT] at hdone
      exact hdone.moved (fun _ => rfl) (h.free_setFile fun h0 => by rw [hz] at h0; cases h0) he
    · have hinum : (w.icache z.ip).inum = i := by
        rw [hip]
        exact (hw.held k _ (Or.inr ⟨hpos, rfl⟩)).trans (hu.held k i .top)
      rwa [hinum]
    · rw [hz, hmode hdir] at hwr
      simp at hwr

theorem ends_sysExec {next : List (ℤ × List UInt8) → Option (UInt32 × UInt32)} {fuel : ℕ} :
    Moves M A (sysExec M p path next fuel) s := by
  refine h.ends_changed hroot p fun hv => ends_bind ((h.working p).ends_beginOp fun t ht => ?_)
  refine ends_bind (ends_bind (ht.ends_namex hv le_rfl path false
    (fun X' _ hF hu => ends_pure (ends_bind (hu.ends_endOp fun _ hw =>
      ends_pure ⟨X', hF.edits, hw⟩))) fun k name i X' u hF hu _ => ends_pure ?_))
  refine ends_bind (hu.ends_ilock .top fun x t hx _ ht => ?_)
  exact ends_bind ((Working.ends_execReads hx ht .top).mono fun _ w hw => hw.ends_leave
    fun _ ht => ht.trans hF.edits)

end InOrder

end

end Xv6.Fs
