import Xv6.CallRuns

/-!
# Descriptors that are shared

Several processes transfer bytes through the same open files, and through several open files for
one inode. Each `fileread` and each pass of the loop of `filewrite` runs under the lock of its
inode, so the processes take turns with whole transfers (`transfers`). `transfers_refine` says that
they do what a machine does that has only the bytes of the files and one offset for each open file
(`Shared`).
-/

namespace Xv6.Fs

open Prog Function List

variable {P : Type} [DecidableEq P] {M : Mount} {A : Set ℕ} {s t : State P} {f g : FileId}

/-- A transfer through an open file : a `fileread`, or one pass of the loop of `filewrite`. -/
inductive Transfer (P : Type) where
  | read (p : P) (f : FileId) (n : UInt32)
  | write (p : P) (f : FileId) (src : ℕ → UInt8) (m : ℕ)

/-- The file of a transfer. -/
def Transfer.file : Transfer P → FileId
  | read _ f _ => f
  | write _ f _ _ => f

/-- The transfer in the kernel. -/
def Transfer.prog (M : Mount) : Transfer P → Kernel P (ℤ × List UInt8)
  | read p f n => fileread M p f n
  | write p f src m => do
    let x := (← getState).ftable f
    let r ← filewriteChunk M p f x.ip src m
    return (r, [])

/-- One transfer after the other. -/
def transfers (M : Mount) : List (Transfer P) → Kernel P (List (ℤ × List UInt8))
  | [] => return []
  | a :: as => do
    let r ← a.prog M
    return r :: (← transfers M as)

/-! ## Bytes and offsets -/

/-- The files by their inode numbers, and the offsets of the open files. -/
structure Shared where
  files : ℕ → Option FileData
  off : FileId → UInt32

/-- The offset of an open file moves by what was transferred. -/
def Shared.advance (y : Shared) (f : FileId) (r : ℤ) : Shared :=
  { y with off := update y.off f (y.off f + UInt32.ofNat r.toNat) }

theorem Shared.advance_neg (y : Shared) (f : FileId) : y.advance f (-1) = y := by
  have h0 : UInt32.ofNat (-1 : ℤ).toNat = 0 := rfl
  rw [advance, h0, UInt32.add_zero, update_eq_self]

/-- A file changes. -/
def Shared.put (y : Shared) (i : ℕ) (d : FileData) : Shared :=
  { y with files := update y.files i (some d) }

/-- The transfer on bytes and offsets. The open file `f` is for inode `node f`. -/
def Transfer.apply (node : FileId → ℕ) (y : Shared) : Transfer P → (ℤ × List UInt8) × Shared
  | read _ f n =>
    match y.files (node f) with
    | none => ((-1, []), y)
    | some d => (d.readAt (y.off f) n, y.advance f (d.readAt (y.off f) n).1)
  | write _ f src m =>
    match y.files (node f) with
    | none => ((-1, []), y)
    | some d =>
      if d.Refuses (y.off f) (.ofNat m) then ((-1, []), y)
      else ((m, []), (y.put (node f) (d.write (y.off f) (.ofNat m) src)).advance f m)

/-- The transfers on bytes and offsets. -/
def Shared.run (node : FileId → ℕ) : List (Transfer P) → Shared → List (ℤ × List UInt8) × Shared
  | [], y => ([], y)
  | a :: as, y =>
    let (r, y) := a.apply node y
    let (rs, y) := Shared.run node as y
    (r :: rs, y)

/-- The bytes and offsets of a state. -/
def State.shared (M : Mount) (s : State P) : Shared := ⟨s.tree M, fun f => (s.ftable f).off⟩

/-- The transfer goes through a file that is open for it, and is not for a device. -/
def Transfer.Usable (M : Mount) (s : State P) (a : Transfer P) : Prop :=
  (s.ftable a.file).type = .inode ∧
    (∃ d, s.tree M (s.node a.file) = some d ∧ d.type ≠ T_DEV) ∧
    match a with
    | read _ f _ => (s.ftable f).readable = true
    | write _ f _ m => (s.ftable f).writable = true ∧ m ≤ writeMax

section

variable [Fintype P]

namespace Transferred

variable {r : ℤ} {F : ℕ → Option FileData}

omit [DecidableEq P] in
theorem shared_eq (h : Transferred M A s f r F t) :
    t.shared M = ({ s.shared M with files := F } : Shared).advance f r := by
  unfold State.shared Shared.advance
  rw [h.tree, h.ftable]
  congr 1
  funext g
  by_cases hg : g = f
  · rw [hg, update_self, update_self]
    rfl
  · rw [update_of_ne hg, update_of_ne hg]

theorem node_eq (h : Transferred M A s f r F t) (hg : (s.ftable g).type = .inode) :
    t.node g = s.node g := by
  obtain ⟨off, hoff⟩ := h.file_eq g
  rw [State.node, hoff]
  exact h.inum g hg

theorem usable (h : Transferred M A s f r F t)
    (hF : ∀ i d, s.tree M i = some d → ∃ e, F i = some e ∧ e.type = d.type)
    {a : Transfer P} (ha : a.Usable M s) : a.Usable M t := by
  obtain ⟨hf, ⟨d, hd, hdev⟩, hmode⟩ := ha
  obtain ⟨off, hoff⟩ := h.file_eq a.file
  obtain ⟨e, he, hed⟩ := hF _ d hd
  refine ⟨by rwa [hoff], ⟨e, ?_, hed ▸ hdev⟩, ?_⟩
  · rwa [h.node_eq hf, h.tree]
  · cases a with
    | read p f n => exact (congrArg File.readable hoff).trans hmode
    | write p f src m => exact ⟨(congrArg File.writable hoff).trans hmode.1, hmode.2⟩

end Transferred

/-! ## The kernel -/

namespace InOrder

/-- One transfer. Only a write may stop. -/
theorem ends_transfer (h : InOrder M A s) {a : Transfer P} (ha : a.Usable M s) {node : FileId → ℕ}
    (hn : node a.file = s.node a.file) {E : Stop Wait → State P → Prop}
    (hE : (∀ p f n, a ≠ .read p f n) → ∀ e t, Stops M e t → E e t) :
    Ends (a.prog M) s (fun r t => (r, t.shared M) = a.apply node (s.shared M) ∧
      InOrder M A t ∧ (∀ g, (s.ftable g).type = .inode → t.node g = s.node g) ∧
      ∀ b : Transfer P, b.Usable M s → b.Usable M t) E := by
  obtain ⟨hf, ⟨d, hd, hdev⟩, hmode⟩ := ha
  obtain ⟨x, hx, rfl⟩ := Option.map_eq_some_iff.1 hd
  cases a with
  | read p f n =>
    refine (h.ends_fileread_inode hf hmode hx fun h => absurd h hdev).mono fun r t ht => ?_
    obtain ⟨hr, ht⟩ := ht
    obtain rfl := hr hdev
    refine ⟨?_, ht.order, fun g => ht.node_eq, fun b => ht.usable fun i d hi => ⟨d, hi, rfl⟩⟩
    rw [ht.shared_eq, Transfer.apply, show (s.shared M).files (node f) = some x.file from hn ▸ hd]
    rfl
  | write p f src m =>
    refine ends_bind (ends_getState (ends_bind ((h.ends_filewriteChunk hf hmode.1 hx src m).imp
      (fun r t ht => ends_pure ?_) (hE (by simp)))))
    obtain ⟨F, hwrote, ht⟩ := ht
    have hfile := hwrote.file hdev
    change ite (x.file.Refuses ((s.shared M).off f) (.ofNat m)) _ _ at hfile
    rw [UInt32.toNat_ofNat_of_lt' (hmode.2.trans_lt (by decide))] at hfile
    rw [Transfer.apply, show (s.shared M).files (node f) = some x.file from hn ▸ hd]
    dsimp only
    split_ifs at hfile ⊢ with hbad
    · obtain ⟨rfl, rfl⟩ := hfile
      refine ⟨?_, ht.order, fun g => ht.node_eq, fun b => ht.usable fun i d hi => ⟨d, hi, rfl⟩⟩
      rw [ht.shared_eq]
      exact congrArg (Prod.mk _) (Shared.advance_neg _ f)
    · obtain ⟨rfl, rfl⟩ := hfile
      refine ⟨?_, ht.order, fun g => ht.node_eq, fun b => ht.usable fun i d hi => ?_⟩
      · rw [ht.shared_eq, ← hn]
        rfl
      · by_cases hi' : i = s.node f
        · subst hi'
          obtain rfl := Option.some.inj (hd.symm.trans hi)
          exact ⟨_, update_self .., rfl⟩
        · exact ⟨d, (update_of_ne hi' ..).trans hi, rfl⟩

theorem ends_transfers (node : FileId → ℕ) {E : Stop Wait → State P → Prop} :
    ∀ {as : List (Transfer P)} {s : State P}, InOrder M A s →
      (∀ a ∈ as, a.Usable M s ∧ node a.file = s.node a.file) →
      (∀ a ∈ as, (∀ p f n, a ≠ .read p f n) → ∀ e t, Stops M e t → E e t) →
      Ends (transfers M as) s (fun rs t => InOrder M A t ∧
        (rs, t.shared M) = Shared.run node as (s.shared M)) E
  | [], _, h, _, _ => ends_pure ⟨h, rfl⟩
  | a :: as, s, h, has, hE => by
    obtain ⟨ha, hn⟩ := has a mem_cons_self
    refine ends_bind ((h.ends_transfer ha hn (hE a mem_cons_self)).mono fun r t ht => ?_)
    obtain ⟨hr, ht, hnode, husable⟩ := ht
    refine ends_bind ((ends_transfers node ht (fun b hb => ?_)
      fun b hb => hE b (mem_cons_of_mem _ hb)).mono fun rs u hu => ends_pure ⟨hu.1, ?_⟩)
    · obtain ⟨hb, hnb⟩ := has b (mem_cons_of_mem _ hb)
      exact ⟨husable b hb, hnb.trans (hnode _ hb.1).symm⟩
    · simp only [Shared.run, ← hr, ← hu.2]

end InOrder

open Mkfs

/-- On a disk that `mkfs` has made any processes make any system calls on files, and then take turns
with transfers through open files, which may be shared and may be for the same inode. They return
what the same transfers return on the bytes of the files and the offsets of the open files, and
leave those bytes and offsets. -/
theorem transfers_refine (files : List HostFile) (h : Fits files)
    (hfull : (files.length + 2) % (BSIZE / DESIZE) ≠ 0) (initproc : P) (input : List UInt8)
    (cs : List (P × FileCall)) :
    ∃ im, mkfs files = .ok im ∧ Ends (calls mount cs) (boot initproc im.disk input) (fun _ s =>
      ∀ as : List (Transfer P), (∀ a ∈ as, a.Usable mount s) →
        Ends (transfers mount as) s (fun rs t => InOrder mount ∅ t ∧
          (rs, t.shared mount) = Shared.run s.node as (s.shared mount)) (Stops mount))
      (Stops mount) := by
  obtain ⟨im, hmkfs, X, hX⟩ := h.exists_image
  exact ⟨im, hmkfs, ((hX.inOrder h hfull initproc input).ends_calls (by decide)).mono
    fun _ s hs as has => hs.1.ends_transfers s.node (fun a ha => ⟨has a ha, rfl⟩)
      fun _ _ _ _ _ => id⟩

/-- Two processes read from one file. -/
def readBoth : List (Transfer Bool) :=
  [.read false ⟨0, nfile_pos⟩ (.ofNat DESIZE), .read true ⟨0, nfile_pos⟩ (.ofNat DESIZE)]

/-- The first process opens the root directory, and shares the descriptor with a second one. One
reads the entry `"."`, and the other then reads the entry `".."`. -/
theorem transfers_refine_root : ∃ im, mkfs [emptyFile] = .ok im ∧
    Returns (calls mount shareRoot) (boot false im.disk []) fun _ s =>
      (∀ a ∈ readBoth, a.Usable mount s) ∧ Returns (transfers mount readBoth) s fun rs t =>
        InOrder mount ∅ t ∧ (t.ftable ⟨0, nfile_pos⟩).off = 32 ∧
        rs.map (fun r => (r.1, Dirent.ofBytes r.2)) =
          [(16, ⟨ROOTINO, canon dotName⟩), (16, ⟨ROOTINO, canon dotdotName⟩)] := by
  have hfits := fits_empties (n := 1) (by decide)
  obtain ⟨im, hmkfs, h⟩ := transfers_refine [emptyFile] hfits (by decide) false [] shareRoot
  obtain ⟨im', hmkfs', X, hX⟩ := hfits.exists_image
  obtain rfl : im = im' := Except.ok.inj (hmkfs.symm.trans hmkfs')
  obtain ⟨x, hroot, htype, hx⟩ := hX.exists_root
  have hin := hX.inOrder hfits (by decide) false []
  refine ⟨im, hmkfs, (((returns_shareRoot hin.coherent hx).and (hin.ends_calls
    (by decide))).and h).mono fun _ s hs => ?_⟩
  obtain ⟨⟨⟨hdisk, hfile, hinum, -⟩, hs, -⟩, hrun⟩ := hs
  have hnode : s.node ⟨0, nfile_pos⟩ = ROOTINO := by rw [State.node, hfile, hinum]
  have htree : s.tree mount ROOTINO = some x.file := by
    rw [State.tree, hdisk, hX.inodes_eq hfits.inodes]
    exact fileOf_eq_some hroot
  have husable : ∀ a ∈ readBoth, a.Usable mount s := by
    have huse (p : Bool) : Transfer.Usable mount s (.read p ⟨0, nfile_pos⟩ (.ofNat DESIZE)) := by
      refine ⟨congrArg File.type hfile, ⟨x.file, hnode ▸ htree, ?_⟩, congrArg File.readable hfile⟩
      exact htype.trans_ne T_DIR_ne_T_DEV
    exact forall_mem_cons.2 ⟨huse false, forall_mem_singleton.2 (huse true)⟩
  have hreads : ∀ a ∈ readBoth, (∀ p f n, a ≠ .read p f n) → False :=
    forall_mem_cons.2 ⟨fun hw => hw _ _ _ rfl, forall_mem_singleton.2 fun hw =>
      hw _ _ _ rfl⟩
  have hret := hs.ends_transfers s.node (E := fun _ _ => False)
    (fun a ha => ⟨husable a ha, rfl⟩) fun a ha hw => (hreads a ha hw).elim
  refine ⟨husable, (hret.and (hrun readBoth husable)).mono fun rs t ht => ?_⟩
  obtain ⟨-, ht, hrs⟩ := ht
  obtain ⟨hc0, h0⟩ := hX.entry_root hroot (l := 0) rfl (by decide)
  obtain ⟨hc1, h1⟩ := hX.entry_root hroot (l := 1) rfl (by decide)
  have hle : x.file.size.toNat ≤ MAXFILE * BSIZE := by
    change x.din.size.toNat ≤ _
    rw [hX.size_root hroot]
    decide
  have hoff : (s.ftable ⟨0, nfile_pos⟩).off = .ofNat (DESIZE * 0) := congrArg File.off hfile
  have hnext : UInt32.ofNat (DESIZE * 0) + UInt32.ofNat (DESIZE : ℤ).toNat =
    UInt32.ofNat (DESIZE * 1) := rfl
  simp only [readBoth, Shared.run, Transfer.apply, State.shared, hnode, htree, hoff,
    readAt_bytes hle hc0, Shared.advance, update_self, hnext, readAt_bytes hle hc1] at hrs
  obtain ⟨rfl, hshared⟩ := Prod.mk.inj hrs
  refine ⟨ht, ?_, ?_⟩
  · have hend := congrFun (congrArg Shared.off hshared) ⟨0, nfile_pos⟩
    simp only [update_self] at hend
    exact hend
  · change [((DESIZE : ℤ), x.file.entry 0), ((DESIZE : ℤ), x.file.entry 1)] = _
    rw [h0, h1]
    rfl

end

end Xv6.Fs
