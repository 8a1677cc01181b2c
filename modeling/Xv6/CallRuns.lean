import Xv6.MkfsVolume
import Xv6.TableCalls

/-!
# Runs of system calls

Processes make system calls on files, one after the other (`calls`). From a state in order every
run ends in a state in order, or stops in one of the ways of `Stops` : a resource is used up, a
process waits, or a table of the kernel is misused. All other panics of the file system are out of
reach. In particular no block is freed twice, no directory is read short, and nothing is logged
outside of an operation.

`mkfs_runs` puts the programs together. On a disk that `mkfs` has made, the kernel boots in order,
and after any system calls the tree was changed as `Edits` says, and every directory starts with its
entries `"."` and `".."`.
-/

namespace Xv6

open Function List

/-! ## The first two entries -/

namespace FileData

variable {f : FileData} {i d j : ℕ} {de : Dirent}

theorem Dots.setEntry (h : f.Dots i d) (hj : 2 ≤ j)
    (hfits : DESIZE * j + DESIZE ≤ MAXFILE * BSIZE) : (f.setEntry j de).Dots i d where
  complete := by
    unfold Complete
    rw [size_setEntry (by omega)]
    exact h.complete.trans (le_max_left ..)
  dot := by rw [entry_setEntry_of_ne (by omega) (by omega), h.dot]
  dotdot := by rw [entry_setEntry_of_ne (by omega) (by omega), h.dotdot]

theorem Dots.setNlink (h : f.Dots i d) (n : Int16) : { f with nlink := n }.Dots i d :=
  { h with }

/-- A new entry is stored after the first two. -/
theorem Dots.two_le_vacancy (h : f.Dots i d) (hi : 0 < i) (hd : 0 < d) : 2 ≤ f.vacancy := by
  unfold vacancy
  cases hj : (List.range (numEntries f.size)).find? fun j => decide ((f.entry j).inum = 0) with
  | none => exact h.complete.lt
  | some j =>
    have h0 : (f.entry j).inum = 0 := by simpa using List.find?_some hj
    rcases j with _ | _ | j
    · rw [h.dot] at h0
      exact absurd h0 hi.ne'
    · rw [h.dotdot] at h0
      exact absurd h0 hd.ne'
    · exact Nat.le_add_left ..

/-- Another name is found after the first two entries. -/
theorem Dots.two_le_index (h : f.Dots i d) {name : List UInt8} (hj : f.index name = some j)
    (hdot : namecmp name dotName ≠ 0) (hdotdot : namecmp name dotdotName ≠ 0) : 2 ≤ j := by
  have hname : namecmp name (f.entry j).name = 0 := by
    have := List.find?_some hj
    simp only [decide_eq_true_eq] at this
    exact this.2
  rw [namecmp_eq_zero_iff] at hname
  rw [ne_eq, namecmp_eq_zero_iff] at hdot hdotdot
  rcases j with _ | _ | j
  · rw [h.dot] at hname
    exact absurd (hname.trans (by decide : canon (canon dotName) = canon dotName)) hdot
  · rw [h.dotdot] at hname
    exact absurd (hname.trans (by decide : canon (canon dotdotName) = canon dotdotName)) hdotdot
  · exact Nat.le_add_left ..

end FileData

/-- Every directory starts with its two entries. -/
def Dotted (F : ℕ → Option FileData) : Prop :=
  ∀ i f, F i = some f → f.type = T_DIR → 0 < i ∧ ∃ d, 0 < d ∧ f.Dots i d

theorem Dotted.update {F : ℕ → Option FileData} (h : Dotted F) {i : ℕ} {g : FileData}
    (hg : g.type = T_DIR → 0 < i ∧ ∃ d, 0 < d ∧ g.Dots i d) : Dotted (update F i (some g)) :=
  forall_update (fun z hz => by cases hz; exact hg) fun j z _ hz => h j z hz

theorem Edit.dotted {F F' : ℕ → Option FileData} (he : Edit F F') (h : Dotted F) : Dotted F' := by
  cases he with
  | free hF =>
    intro i f hf
    rcases hF i with he | ⟨hn, -⟩
    · exact h i f (he ▸ hf)
    · rw [hn] at hf
      cases hf
  | write hf ht hg hn => exact h.update fun htg => absurd (hg.symm.trans htg) ht
  | @add d i fd g name hd htd hmiss hfits hi hne hnew ht hg hn =>
    obtain ⟨h0, e, he, hdots⟩ := h d fd hd htd
    exact (h.update fun htg => absurd htg hg).update fun _ =>
      ⟨h0, e, he, hdots.setEntry (hdots.two_le_vacancy h0 he) hfits⟩
  | @mkdir d i fd g name hd htd hmiss hfits hi hi0 hnew hg hn hgdots hsize =>
    obtain ⟨h0, e, he, hdots⟩ := h d fd hd htd
    exact (h.update fun _ => ⟨hi0, d, h0, hgdots⟩).update fun _ =>
      ⟨h0, e, he, (hdots.setNlink _).setEntry (hdots.two_le_vacancy h0 he) hfits⟩
  | @remove d i j fd f name hd htd hj hi hfits hdot hdotdot hne hf hlink hempty =>
    obtain ⟨h0, e, he, hdots⟩ := h d fd hd htd
    refine (h.update fun _ => ⟨h0, e, he, (hdots.setEntry (hdots.two_le_index hj hdot hdotdot)
      hfits).setNlink _⟩).update fun htf => ?_
    obtain ⟨hi0, e', he', hfdots⟩ := h i f hf htf
    exact ⟨hi0, e', he', hfdots.setNlink _⟩

theorem Edits.dotted {F F' : ℕ → Option FileData} (he : Edits F F') (h : Dotted F) : Dotted F' := by
  induction he with
  | refl => exact h
  | tail _ he ih => exact he.dotted ih

namespace Fs

open Prog

variable {P : Type} [DecidableEq P] [Fintype P] {M : Mount} {A : Set ℕ} {p : P} {s t : State P}

/-! ## Runs -/

/-- A system call on files, or the first step of a new process. -/
inductive FileCall where
  | sysOpen (path : List UInt8) (omode : ℕ)
  | sysMkdir (path : List UInt8)
  | sysMknod (path : List UInt8) (major minor : Int16)
  | sysLink (old new : List UInt8)
  | sysUnlink (path : List UInt8)
  | sysChdir (path : List UInt8)
  | sysDup (fd : ℤ)
  | sysRead (fd : ℤ) (n : UInt32)
  | sysWrite (fd : ℤ) (src : ℕ → UInt8) (n : UInt32)
  | sysClose (fd : ℤ)
  | sysFstat (fd : ℤ)
  | sysFork
  | forkret (n : ℕ)
  | exitFiles
  | sysExec (path : List UInt8) (next : List (ℤ × List UInt8) → Option (UInt32 × UInt32)) (fuel : ℕ)

/-- The call of a process. -/
def FileCall.prog (M : Mount) (p : P) : FileCall → Kernel P Unit
  | .sysOpen path omode => do let _ ← Fs.sysOpen M p path omode
  | .sysMkdir path => do let _ ← Fs.sysMkdir M p path
  | .sysMknod path major minor => do let _ ← Fs.sysMknod M p path major minor
  | .sysLink old new => do let _ ← Fs.sysLink M p old new
  | .sysUnlink path => do let _ ← Fs.sysUnlink M p path
  | .sysChdir path => do let _ ← Fs.sysChdir M p path
  | .sysDup fd => do let _ ← Fs.sysDup p fd
  | .sysRead fd n => do let _ ← Fs.sysRead M p fd n
  | .sysWrite fd src n => do let _ ← Fs.sysWrite M p fd src n
  | .sysClose fd => do let _ ← Fs.sysClose M p fd
  | .sysFstat fd => do let _ ← Fs.sysFstat M p fd
  | .sysFork => Fs.sysFork p
  | .forkret n => Fs.forkret p n
  | .exitFiles => Fs.exitFiles M p
  | .sysExec path next fuel => do let _ ← Fs.sysExec M p path next fuel

/-- One call after the other. -/
def calls (M : Mount) : List (P × FileCall) → Kernel P Unit
  | [] => return ()
  | (p, c) :: cs => do
    c.prog M p
    calls M cs

/-- One call leads from order to order. -/
theorem InOrder.ends_call (hroot : ROOTINO < M.sb.ninodes) (h : InOrder M A s)
    (c : FileCall) : Moves M A (c.prog M p) s := by
  have hdone : ∀ {α : Type} {x : Kernel P α}, Moves M A x s → Moves M A (do let _ ← x) s :=
    fun hx => ends_bind (hx.mono fun _ _ ht => ends_pure ht)
  cases c with
  | sysOpen path omode => exact hdone (h.ends_sysOpen hroot)
  | sysMkdir path => exact hdone (h.ends_changed hroot p fun hv =>
      (h.working p).ends_makeInode hv (by decide))
  | sysMknod path major minor => exact hdone (h.ends_changed hroot p fun hv =>
      (h.working p).ends_makeInode hv (by decide))
  | sysLink old new => exact hdone (h.ends_changed hroot p fun hv => (h.working p).ends_sysLink hv)
  | sysUnlink path => exact hdone (h.ends_changed hroot p fun hv =>
      (h.working p).ends_sysUnlink hv)
  | sysChdir path => exact hdone (h.ends_sysChdir hroot)
  | sysDup fd => exact hdone h.ends_sysDup
  | sysRead fd n => exact hdone h.ends_sysRead
  | sysWrite fd src n => exact hdone h.ends_sysWrite
  | sysClose fd => exact hdone h.ends_sysClose
  | sysFstat fd => exact hdone h.ends_sysFstat
  | sysFork => exact h.ends_sysFork
  | forkret n => exact h.ends_forkret
  | exitFiles => exact h.ends_exitFiles
  | sysExec path next fuel => exact hdone (h.ends_sysExec hroot)

/-- A run leads from order to order. -/
theorem InOrder.ends_calls (hroot : ROOTINO < M.sb.ninodes) :
    ∀ {cs : List (P × FileCall)} {s : State P}, InOrder M A s → Moves M A (calls M cs) s
  | [], _, h => ends_pure ⟨h, .refl⟩
  | (_, c) :: _, _, h => ends_bind ((h.ends_call hroot c).mono fun _ _ ht =>
      (ends_calls hroot ht.1).mono fun _ _ hu => ht.trans hu)

/-! ## Boot -/

/-- The kernel at boot. `userinit` has looked up the root directory, where the first process is. -/
def boot (initproc : P) (d : Disk) (input : List UInt8) : State P where
  disk := d
  log := ⟨LOGSIZE, 0, false, []⟩
  icache k := if k = ⟨0, ninode_pos⟩ then ⟨ROOTDEV, ROOTINO, 1⟩ else ⟨0, 0, 0⟩
  lock _ := none
  copy _ := ⟨false, Dinode.fresh 0⟩
  ftable _ := ⟨.none, 0, false, false, ⟨0, ninode_pos⟩, 0⟩
  proc := update (fun _ => ⟨none, fun _ => none⟩) initproc ⟨some ⟨0, ninode_pos⟩, fun _ => none⟩
  embryos := []
  input := input

omit [Fintype P] in
theorem ref_boot {q : P} {d : Disk} {input : List UInt8} {k : Slot}
    (h : 0 < ((boot q d input).icache k).ref) : k = ⟨0, ninode_pos⟩ := by
  by_contra hk
  simp only [boot, if_neg hk, lt_irrefl] at h

theorem users_boot (q : P) (d : Disk) (input : List UInt8) (k : Slot) :
    (boot q d input).tables.users k = if k = ⟨0, ninode_pos⟩ then 1 else 0 := by
  have hp := total_update (fun _ (x : Proc) => x.uses k) (fun _ : P => ⟨none, fun _ => none⟩) q
    ⟨some ⟨0, ninode_pos⟩, fun _ => none⟩
  have h0 : total (fun _ (x : Proc) => x.uses k) (fun _ : P => ⟨none, fun _ => none⟩) = 0 :=
    total_eq_zero fun _ => rfl
  rw [h0] at hp
  have hf : total (fun _ (x : File) => x.uses k) (boot q d input).tables.ftable = 0 :=
    total_eq_zero fun _ => rfl
  unfold Tables.users
  rw [hf]
  simpa [Proc.uses, State.tables, boot, eq_comm] using hp

/-- The kernel boots in order on a disk whose inodes are in order and have links. -/
theorem inOrder_boot {q : P} {d : Disk} {input : List UInt8} (hd : Consistent M d)
    (hroot : ROOTINO < M.sb.ninodes) (hsane : ∀ i x, inodes M d i = some x → Sane M x)
    (hlink : ∀ i x, inodes M d i = some x → x.din.nlink ≠ 0) : InOrder M ∅ (boot q d input) where
  coherent := by
    refine ⟨fun k => ?_, fun k hk => ?_, fun k l hk hl _ => ?_, fun k _ hv => by cases hv⟩
    · simp only [boot]
      split_ifs <;> simp
    · rw [ref_boot hk]
      rfl
    · rw [ref_boot hk, ref_boot hl]
  consistent := hd
  sane := hsane
  below k hk := by
    rwa [ref_boot hk]
  ref k := by
    rw [users_boot]
    simp only [boot]
    split_ifs <;> rfl
  linked i _ x hx h0 := absurd h0 (hlink i x hx)
  plain _ hf := by cases hf
  free _ _ := rfl
  lock _ := rfl
  outstanding := rfl
  committing := rfl

end Fs

namespace Mkfs

open Prog Fs

variable {im : Img} {files : List HostFile} {X : ℕ → Option Extent} {x : Extent} {i : ℕ}

theorem Image.eq_root (h : Image im files X) (hi : X i = some x) (ht : x.din.type = T_DIR) :
    i = ROOTINO := by_contra fun hne => by
  rw [h.built.type i x hi, typeOf_of_ne hne] at ht
  exact absurd ht (by decide)

/-- The inodes that `mkfs` makes are in order, if the entries do not fill the last block of the
root directory. -/
theorem Image.sane (h : Image im files X) (hin : files.length + 2 ≤ NINODES)
    (hfull : (files.length + 2) % (BSIZE / DESIZE) ≠ 0) (hi : X i = some x) : Sane mount x := by
  have hD : DESIZE = 16 := rfl
  have hB : BSIZE = 512 := rfl
  have hN : NINODES = 200 := rfl
  have hlen := sizes_root files
  refine ⟨fun _ bn hbn => ?_, fun ht => ?_, fun ht j hj => ?_⟩
  · refine h.ptr_ne_zero hi ?_
    by_cases hne : i = ROOTINO
    · subst hne
      rw [h.size_root hi, rootSize, hlen, hB] at hbn
      rw [hlen, hB]
      rw [hB, hD] at hfull
      rw [hD] at hbn ⊢
      omega
    · rwa [h.size_of_ne hi hne] at hbn
  · obtain rfl := h.eq_root hi ht
    unfold FileData.Whole
    rw [show x.file.size = x.din.size from rfl, h.size_root hi, rootSize, hB, hD]
    exact Dvd.dvd.mul_left (by decide) _
  · obtain rfl := h.eq_root hi ht
    have hlt : mount.sb.ninodes = 200 := rfl
    by_cases hjn : j < files.length + 2
    · have hmem : j < (entries files).length := by
        simp only [entries, length_cons, length_map, length_zipIdx]
        omega
      have hinum : (entries files)[j].inum < 200 := by
        rcases j with _ | _ | j
        · exact (by decide : ROOTINO < 200)
        · exact (by decide : ROOTINO < 200)
        · simp only [entries, getElem_cons_succ, getElem_map, getElem_zipIdx]
          omega
      rw [(h.entry_root hi (List.getElem?_eq_getElem hmem) (by omega)).2, hlt]
      exact hinum
    · have hzero : ∀ o, DESIZE * j ≤ o → x.file.data o = 0 := fun o ho => by
        have hge : (contents files ROOTINO).length ≤ o := by
          change sizes files ROOTINO ≤ o
          rw [hlen]
          exact (Nat.mul_le_mul_left _ (not_lt.1 hjn)).trans ho
        change (if o < x.din.size.toNat then x.byte o else 0) = 0
        rw [(h.built.holds _ x hi).byte, padded, update_self, getD_append_right _ _ _ _ hge]
        simp
      rw [FileData.entry_eq, entryAt_congr fun o ho _ => hzero o ho]
      exact (by decide : (Dirent.ofBytes ((List.range DESIZE).map fun _ => 0)).inum < 200)

/-- The root directory that `mkfs` makes has its two entries. -/
theorem Image.dotted (h : Image im files X) : Dotted (fileOf X) := by
  intro i f hf ht
  obtain ⟨x, hx, rfl⟩ := Option.map_eq_some_iff.1 hf
  obtain rfl := h.eq_root hx ht
  obtain ⟨-, h0⟩ := h.entry_root hx (l := 0) rfl (by decide)
  obtain ⟨hc, h1⟩ := h.entry_root hx (l := 1) rfl (by decide)
  exact ⟨by decide, ROOTINO, by decide, hc, h0, h1⟩

section

variable {P : Type} [DecidableEq P] [Fintype P]

/-- The kernel boots in order on a disk that `mkfs` has made. -/
theorem Image.inOrder (hX : Image im files X) (h : Fits files)
    (hfull : (files.length + 2) % (BSIZE / DESIZE) ≠ 0) (q : P) (input : List UInt8) :
    InOrder mount ∅ (boot q im.disk input) := by
  have hin := hX.inodes_eq h.inodes
  refine inOrder_boot (hX.consistent h.inodes) (by decide) (fun i x hx => ?_) fun i x hx => ?_
  · rw [hin] at hx
    exact hX.sane h.inodes hfull hx
  · rw [hin] at hx
    rw [hX.built.nlink i x hx]
    decide

/-- The kernel on a disk that `mkfs` has made, for files that fit and do not fill the last block of
the root directory. Any processes make any system calls on files. The blocks, the inodes, the inode
cache and the tables are in order afterwards, the tree was changed as `Edits` says, and every
directory starts with its entries `"."` and `".."`. -/
theorem mkfs_runs (files : List HostFile) (h : Fits files)
    (hfull : (files.length + 2) % (BSIZE / DESIZE) ≠ 0) (initproc : P) (input : List UInt8)
    (cs : List (P × FileCall)) :
    ∃ im, mkfs files = .ok im ∧ Ends (calls mount cs) (boot initproc im.disk input) (fun _ t =>
      Moved mount ∅ (boot initproc im.disk input) t ∧ Dotted (t.tree mount)) (Stops mount) := by
  obtain ⟨im, hmkfs, X, hX⟩ := h.exists_image
  refine ⟨im, hmkfs, ((hX.inOrder h hfull initproc input).ends_calls (by decide)).mono fun _ t ht =>
    ⟨ht, ht.2.dotted ?_⟩⟩
  change Dotted (fileOf (inodes mount im.disk))
  rw [hX.inodes_eq h.inodes]
  exact hX.dotted

end

/-- The first process opens the root directory, and shares the descriptor with a second one. -/
def shareRoot : List (Bool × FileCall) :=
  [(false, .sysOpen [47] 0), (false, .sysFork), (true, .forkret 0)]

/-- Both processes have the descriptor for the root directory afterwards. -/
theorem returns_shareRoot {d : Disk} (h : Coherent mount (boot false d []))
    (hx : readInode mount d ROOTINO = some x) :
    Returns (calls mount shareRoot) (boot false d []) fun _ t => t.disk = d ∧
      t.ftable ⟨0, nfile_pos⟩ = ⟨.inode, 2, true, false, ⟨0, ninode_pos⟩, 0⟩ ∧
      (t.icache ⟨0, ninode_pos⟩).inum = ROOTINO ∧
      ∀ p, (t.proc p).ofile ⟨0, by decide⟩ = some ⟨0, nfile_pos⟩ := by
  have hs : Coherent mount { boot false d [] with log := ⟨LOGSIZE, 1, false, []⟩ } :=
    { h with }
  have ht := (Holding.refl hs).taken
    (hs.taken_idup (k := ⟨0, ninode_pos⟩) (show (0 : ℤ) < 1 by decide))
  refine ends_bind (ends_bind (ends_bind (returns_waitFor rfl (ends_bind ?_))))
  unfold openInode
  rw [if_neg (by decide)]
  refine ends_bind (returns_of_run (a := some ⟨0, ninode_pos⟩) rfl ?_)
  -- The rest depends on the disk only through the inode that is read here.
  refine ends_bind (ht.coherent.returns_ilock (ht.ref_pos hs) rfl (show ROOTINO < 200 by decide)
    hx (ends_bind (returns_load ?_)))
  rw [if_neg fun hw => hw.2 rfl]
  refine ends_pure (ends_bind (returns_of_run (a := some ⟨0, nfile_pos⟩) rfl ?_))
  refine ends_bind (returns_of_run (a := some ⟨0, by decide⟩) rfl ?_)
  refine returns_of_run (a := 0) rfl (ends_pure (returns_of_run (a := ()) rfl ?_))
  exact ⟨rfl, rfl, rfl, Bool.forall_bool.2 ⟨rfl, rfl⟩⟩

/-- The root directory on a disk that `mkfs` has made. -/
theorem Image.exists_root (h : Image im files X) : ∃ x, X ROOTINO = some x ∧ x.din.type = T_DIR ∧
    readInode mount im.disk ROOTINO = some x := by
  have hcount := h.count
  obtain ⟨x, hx⟩ := Option.isSome_iff_exists.1
    ((h.built.ino ROOTINO).2 ⟨by decide, by unfold ROOTINO; omega⟩)
  exact ⟨x, hx, h.built.type _ x hx, by rw [h.readInode_eq (by decide), hx]⟩

theorem mkfs_runs_share : ∃ im, mkfs [emptyFile] = .ok im ∧
    Returns (calls mount shareRoot) (boot false im.disk []) fun _ t =>
      t.ftable ⟨0, nfile_pos⟩ = ⟨.inode, 2, true, false, ⟨0, ninode_pos⟩, 0⟩ ∧
      Moved mount ∅ (boot false im.disk []) t ∧ Dotted (t.tree mount) := by
  have hfits := fits_empties (n := 1) (by decide)
  obtain ⟨im, hmkfs, h⟩ := mkfs_runs [emptyFile] hfits (by decide) false [] shareRoot
  obtain ⟨im', hmkfs', X, hX⟩ := hfits.exists_image
  obtain rfl : im = im' := Except.ok.inj (hmkfs.symm.trans hmkfs')
  obtain ⟨x, -, -, hx⟩ := hX.exists_root
  have hin := hX.inOrder hfits (by decide) false []
  exact ⟨im, hmkfs, ((returns_shareRoot hin.coherent hx).and h).mono fun _ t ht =>
    ⟨ht.1.2.1, ht.2⟩⟩

end Mkfs

end Xv6
