import Xv6.TinyVolume

/-!
# Directories as finite maps

A directory maps names to inode numbers (`FileData.map`). Names are equal for it if their first
`DIRSIZ` bytes are (`Name.Same`). The operations on a directory, each in a transaction of its own,
are those of the map (`DirOp.apply`), as long as no two entries have one name
(`FileData.Distinct`), which they keep.

`directory_is_map` is about every run of operations. `dirlink` of a name that the directory has
gives back the pointer to the inode while it has the directory locked, and waits for itself if the
entry names the directory (`dirlink_waits_for_itself`).
-/

set_option linter.unusedSectionVars false

namespace Xv6

open List Option

/-- A name without zeros and slashes. -/
abbrev Name := { n : List UInt8 // ∀ c ∈ n, c ≠ 0 ∧ c ≠ 47 }

/-- The names agree on their first `DIRSIZ` bytes. -/
def Name.Same (n m : Name) : Prop := n.val.take DIRSIZ = m.val.take DIRSIZ

instance (n m : Name) : Decidable (n.Same m) := inferInstanceAs (Decidable (_ = _))

theorem Name.same_iff {n m : Name} : n.Same m ↔ canon n.val = canon m.val :=
  (canon_eq_iff (fun c hc => (n.2 c hc).1) fun c hc => (m.2 c hc).1).symm

/-- An inode number that a directory entry can hold. -/
abbrev Inum := { i : ℕ // 0 < i ∧ i < 2 ^ 16 }

/-- What a directory says of names. -/
abbrev DirMap := Name → Option ℕ

/-- The operations on a directory. -/
inductive DirOp where
  | link (name : Name) (inum : Inum)
  | unlink (name : Name)
  | lookup (name : Name)

namespace DirOp

/-- The name of an operation. -/
def name : DirOp → Name
  | link name _ => name
  | unlink name => name
  | lookup name => name

/-- The result of an operation. -/
def result (m : DirMap) : DirOp → ℤ
  | link name _ => if (m name).isSome then -1 else 0
  | unlink name => if (m name).isSome then 0 else -1
  | lookup name => (m name).getD 0

/-- The map after an operation. -/
def apply (m : DirMap) : DirOp → DirMap
  | link name inum =>
    if (m name).isSome then m else fun n => if n.Same name then some inum.val else m n
  | unlink name => fun n => if n.Same name then none else m n
  | lookup _ => m

/-- The operation changes the map. -/
def Changes (m : DirMap) : DirOp → Prop
  | link name _ => (m name).isNone
  | unlink name => (m name).isSome
  | lookup _ => False

end DirOp

namespace FileData

/-- The map of a directory. -/
def map (f : FileData) : DirMap := fun n => (f.index n.val).map fun j => (f.entry j).inum

/-- No two entries have one name. -/
def Distinct (f : FileData) : Prop := ∀ j l, f.Complete j → f.Complete l →
  (f.entry j).inum ≠ 0 → (f.entry l).inum ≠ 0 →
  canon (f.entry j).name = canon (f.entry l).name → j = l

/-- No entry is free. -/
def Crowded (f : FileData) : Prop := ∀ j, f.Complete j → (f.entry j).inum ≠ 0

/-- Entry `j` says that the name is inode `i`. -/
structure Says (f : FileData) (n : Name) (j i : ℕ) : Prop where
  complete : f.Complete j
  inum : (f.entry j).inum = i
  name : canon n.val = canon (f.entry j).name

variable {f : FileData} {n name : Name} {i j l : ℕ} {de : Dirent}

theorem Whole.stated (h : f.Whole) (hj : f.index n.val = some j) :
    f.Says n j (f.entry j).inum ∧ (f.entry j).inum ≠ 0 :=
  have hf := h.finds hj
  ⟨⟨hf.complete, rfl, namecmp_eq_zero_iff.1 hf.hit⟩, hf.inum⟩

theorem Distinct.unique (hd : f.Distinct) {i' : ℕ} (h : f.Says n j i) (h' : f.Says n l i')
    (hi : i ≠ 0) (hi' : i' ≠ 0) : j = l :=
  hd j l h.complete h'.complete (by rwa [h.inum]) (by rwa [h'.inum]) (by rw [← h.name, h'.name])

/-- The map has what the entries say. -/
theorem Whole.map_eq_some (h : f.Whole) (hd : f.Distinct) :
    f.map n = some i ↔ i ≠ 0 ∧ ∃ j, f.Says n j i := by
  unfold map
  constructor
  · intro hi
    obtain ⟨j, hj, rfl⟩ := map_eq_some_iff.1 hi
    obtain ⟨hs, h0⟩ := h.stated hj
    exact ⟨h0, j, hs⟩
  · rintro ⟨hi, j, hs⟩
    cases hj : f.index n.val with
    | none =>
      have hlt : j < numEntries f.size := by
        have hc : DESIZE * j + DESIZE ≤ f.size.toNat := hs.complete
        have hD : DESIZE = 16 := rfl
        rw [hD] at hc
        rw [lt_numEntries, hD]
        omega
      rcases (h.misses hj j hlt).2 with h0 | hne
      · exact absurd (hs.inum.symm.trans h0) hi
      · exact absurd (namecmp_eq_zero_iff.2 hs.name) hne
    | some l =>
      obtain ⟨hs', h0⟩ := h.stated hj
      obtain rfl := hd.unique hs hs' hi h0
      rw [map_some, hs.inum]

theorem Whole.map_eq_none (h : f.Whole) (hd : f.Distinct) :
    f.map n = none ↔ ∀ j i, f.Says n j i → i = 0 := by
  rw [eq_none_iff_forall_ne_some]
  constructor
  · intro hno j i hs
    by_contra hi
    exact hno i ((h.map_eq_some hd).2 ⟨hi, j, hs⟩)
  · intro hno i hi
    obtain ⟨h0, j, hs⟩ := (h.map_eq_some hd).1 hi
    exact h0 (hno j i hs)

/-- Names that agree on their first `DIRSIZ` bytes are one name. -/
theorem Whole.map_same (h : f.Whole) (hd : f.Distinct) (hs : n.Same name) :
    f.map n = f.map name := by
  have hsaid : ∀ j i, f.Says n j i ↔ f.Says name j i := fun j i =>
    ⟨fun ⟨h1, h2, h3⟩ => ⟨h1, h2, by rw [← Name.same_iff.1 hs, h3]⟩,
      fun ⟨h1, h2, h3⟩ => ⟨h1, h2, by rw [Name.same_iff.1 hs, h3]⟩⟩
  refine Option.ext fun i => ?_
  rw [h.map_eq_some hd, h.map_eq_some hd]
  simp only [hsaid]

theorem isNone_map : f.map n = none ↔ f.index n.val = none := by
  unfold map
  rw [map_eq_none_iff]

/-! ## Storing an entry -/

section SetEntry

variable (hj : DESIZE * j ≤ f.size.toNat) (hmax : DESIZE * j ≤ MAXFILE * BSIZE)
  (hi : de.inum < 2 ^ 16) (hlen : de.name.length = DIRSIZ)

include hj hmax hi hlen

/-- What the entries say after one was stored. -/
theorem stated_setEntry : (f.setEntry j de).Says n l i ↔
    l = j ∧ de.inum = i ∧ canon n.val = canon de.name ∨ l ≠ j ∧ f.Says n l i := by
  by_cases hlj : l = j
  · subst hlj
    have he : (f.setEntry l de).entry l = de := entry_setEntry_self hmax hi hlen
    constructor
    · rintro ⟨-, h1, h2⟩
      rw [he] at h1 h2
      exact Or.inl ⟨rfl, h1, h2⟩
    · rintro (⟨-, h1, h2⟩ | ⟨hne, -⟩)
      · exact ⟨(complete_setEntry hj hmax).2 (Or.inr rfl), by rw [he, h1], by rw [he, h2]⟩
      · exact absurd rfl hne
  · have he : (f.setEntry j de).entry l = f.entry l := entry_setEntry_of_ne hmax hlj
    constructor
    · rintro ⟨h0, h1, h2⟩
      rw [he] at h1 h2
      exact Or.inr ⟨hlj, ((complete_setEntry hj hmax).1 h0).resolve_right hlj, h1, h2⟩
    · rintro (⟨he', -⟩ | ⟨-, h0, h1, h2⟩)
      · exact absurd he' hlj
      · exact ⟨(complete_setEntry hj hmax).2 (Or.inl h0), by rw [he, h1], by rw [he, h2]⟩

/-- Names stay distinct if no other entry has the name of the one stored. -/
theorem Distinct.setEntry (hd : f.Distinct)
    (hnew : de.inum ≠ 0 → ∀ l, l ≠ j → f.Complete l → (f.entry l).inum ≠ 0 →
      canon de.name ≠ canon (f.entry l).name) : (f.setEntry j de).Distinct := by
  have hself : (f.setEntry j de).entry j = de := entry_setEntry_self hmax hi hlen
  have hne : ∀ {l}, l ≠ j → (f.setEntry j de).entry l = f.entry l :=
    fun hlj => entry_setEntry_of_ne hmax hlj
  have hcomp : ∀ {l}, l ≠ j → (f.setEntry j de).Complete l → f.Complete l :=
    fun hlj hc => ((complete_setEntry hj hmax).1 hc).resolve_right hlj
  intro a b ha hb ha0 hb0 he
  by_cases haj : a = j <;> by_cases hbj : b = j
  · rw [haj, hbj]
  · rw [haj, hself] at ha0 he
    rw [hne hbj] at hb0 he
    exact absurd he (hnew ha0 b hbj (hcomp hbj hb) hb0)
  · rw [hbj, hself] at hb0 he
    rw [hne haj] at ha0 he
    exact absurd he.symm (hnew hb0 a haj (hcomp haj ha) ha0)
  · rw [hne haj] at ha0 he
    rw [hne hbj] at hb0 he
    exact hd a b (hcomp haj ha) (hcomp hbj hb) ha0 hb0 he

end SetEntry

theorem Whole.setEntry (h : f.Whole) (hmax : DESIZE * j ≤ MAXFILE * BSIZE) (de : Dirent) :
    (f.setEntry j de).Whole := by
  have hD : DESIZE = 16 := rfl
  obtain ⟨m, hm⟩ := h
  refine ⟨max m (j + 1), ?_⟩
  rw [size_setEntry hmax, hm, hD]
  omega

/-- A new name. -/
theorem Whole.link (h : f.Whole) (hd : f.Distinct) (hmiss : f.map name = none) (hv : f.Vacant j)
    (hmax : DESIZE * j ≤ MAXFILE * BSIZE) (inum : Inum) :
    (f.setEntry j ⟨inum.val, canon name.val⟩).Distinct ∧
      (f.setEntry j ⟨inum.val, canon name.val⟩).map =
        fun n => if n.Same name then some inum.val else f.map n := by
  have hcanon : canon (canon name.val) = canon name.val := strncpy_strncpy ..
  have hlen : (canon name.val).length = DIRSIZ := length_strncpy ..
  have hle := hv.offset_le
  have hno := (h.map_eq_none hd).1 hmiss
  have hd' : (f.setEntry j ⟨inum.val, canon name.val⟩).Distinct := by
    refine hd.setEntry hle hmax inum.2.2 hlen fun _ l _ hc h0 he => h0 ?_
    exact hno l _ ⟨hc, rfl, hcanon.symm.trans he⟩
  -- The place was free, so no entry is lost.
  have hempty : ∀ n i, f.Says n j i → i = 0 := by
    rintro n i hs
    rcases hv.empty with ⟨-, h0⟩ | hend
    · exact hs.inum.symm.trans h0
    · have hc : DESIZE * j + DESIZE ≤ f.size.toNat := hs.complete
      have hD : DESIZE = 16 := rfl
      omega
  have hsaid : ∀ n l i, (f.setEntry j ⟨inum.val, canon name.val⟩).Says n l i ↔
      l = j ∧ inum.val = i ∧ n.Same name ∨ l ≠ j ∧ f.Says n l i := fun n l i => by
    have hs : (f.setEntry j ⟨inum.val, canon name.val⟩).Says n l i ↔
        l = j ∧ inum.val = i ∧ canon n.val = canon (canon name.val) ∨ l ≠ j ∧ f.Says n l i :=
      stated_setEntry hle hmax inum.2.2 hlen
    rwa [hcanon, ← Name.same_iff] at hs
  refine ⟨hd', funext fun n => Option.ext fun i => ?_⟩
  rw [(h.setEntry hmax _).map_eq_some hd']
  simp only [hsaid]
  split_ifs with hsame
  · constructor
    · rintro ⟨hi, l, ⟨-, rfl, -⟩ | ⟨-, hs⟩⟩
      · rfl
      · exact absurd (hno l i ⟨hs.complete, hs.inum, by rw [← hs.name, Name.same_iff.1 hsame]⟩) hi
    · intro hi
      obtain rfl := some.inj hi
      exact ⟨inum.2.1.ne', j, Or.inl ⟨rfl, rfl, hsame⟩⟩
  · rw [h.map_eq_some hd]
    refine and_congr_right fun hi => exists_congr fun l => ?_
    constructor
    · rintro (⟨-, -, hs⟩ | ⟨-, hs⟩)
      · exact absurd hs hsame
      · exact hs
    · intro hs
      refine Or.inr ⟨?_, hs⟩
      rintro rfl
      exact hi (hempty n i hs)

/-- A name is removed. -/
theorem Whole.unlink (h : f.Whole) (hd : f.Distinct) (hj : f.index name.val = some j)
    (hmax : DESIZE * j ≤ MAXFILE * BSIZE) :
    (f.setEntry j ⟨0, List.replicate DIRSIZ 0⟩).Distinct ∧
      (f.setEntry j ⟨0, List.replicate DIRSIZ 0⟩).map =
        fun n => if n.Same name then none else f.map n := by
  have hlen : (List.replicate DIRSIZ (0 : UInt8)).length = DIRSIZ := length_replicate
  obtain ⟨hsay, hne⟩ := h.stated hj
  have hle : DESIZE * j ≤ f.size.toNat := (Nat.le_add_right ..).trans hsay.complete
  have hd' : (f.setEntry j ⟨0, List.replicate DIRSIZ 0⟩).Distinct :=
    hd.setEntry hle hmax (by decide) hlen fun h0 => absurd rfl h0
  have hsaid : ∀ n l i, i ≠ 0 → ((f.setEntry j ⟨0, List.replicate DIRSIZ 0⟩).Says n l i ↔
      l ≠ j ∧ f.Says n l i) := fun n l i hi => by
    rw [stated_setEntry hle hmax (by decide) hlen]
    exact or_iff_right fun h0 => hi h0.2.1.symm
  refine ⟨hd', funext fun n => Option.ext fun i => ?_⟩
  rw [(h.setEntry hmax _).map_eq_some hd']
  split_ifs with hsame
  · refine iff_of_false ?_ (by simp)
    rintro ⟨hi, l, hs⟩
    obtain ⟨hlj, hs⟩ := (hsaid n l i hi).1 hs
    exact hlj (hd.unique ⟨hs.complete, hs.inum, by rw [← hs.name, Name.same_iff.1 hsame]⟩ hsay
      hi hne)
  · rw [h.map_eq_some hd]
    refine and_congr_right fun hi => exists_congr fun l => ?_
    rw [hsaid n l i hi]
    refine and_iff_right_of_imp ?_
    rintro hs rfl
    exact hsame (Name.same_iff.2 (hs.name.trans hsay.name.symm))

end FileData

namespace Fs

open Prog Function

section Code

variable {P : Type} [DecidableEq P] (M : Mount) (p : P) (k : Slot)

/-- An operation on the directory in entry `k` of the inode cache, in a transaction of its own.
An entry is removed as `sys_unlink` does. -/
def dirOp : DirOp → Kernel P ℤ
  | .link name inum => do
    beginOp
    ilock M p k .walk
    let r ← dirlink M p k name.val inum.val
    iunlock p k
    endOp
    return r
  | .unlink name => do
    beginOp
    ilock M p k .walk
    match ← dirlookup M p k name.val with
    | none =>
      iunlock p k
      endOp
      return -1
    | some (ip, off) =>
      writeEntry M p k off ⟨0, List.replicate DIRSIZ 0⟩ "unlink: writei"
      iunlock p k
      iput M p ip
      endOp
      return 0
  | .lookup name => do
    beginOp
    ilock M p k .walk
    match ← dirlookup M p k name.val with
    | none =>
      iunlock p k
      endOp
      return 0
    | some (ip, _) =>
      let inum ← inumOf ip
      iunlock p k
      iput M p ip
      endOp
      return inum

/-- One operation of a run. -/
def dirStep (s : State P) (op : DirOp) : Option (State P) :=
  ((dirOp M p k op).run s).toOption.map Prod.snd

end Code

variable {P : Type} [DecidableEq P] {M : Mount} {p : P} {s t u v w : State P} {k l : Slot} {i j : ℕ}
  {x y : Extent} {ks : List Slot} {o : Option P} {E : Stop Wait → State P → Prop}

/-- Between two operations on the directory `x`, which is inode `i`. Entry `k` of the inode cache
has it, nothing is locked and the log is empty. -/
structure Resting (M : Mount) (s : State P) (k : Slot) (i : ℕ) (x : Extent) : Prop where
  coherent : Coherent M s
  lock : ∀ l, s.lock l = none
  below : ∀ m, 0 < (s.icache m).ref → (s.copy m).valid = true → (s.icache m).inum < M.sb.ninodes
  consistent : Consistent M s.disk
  ref : 0 < (s.icache k).ref
  inum : (s.icache k).inum = i
  inode : inodes M s.disk i = some x
  type : x.din.type = T_DIR
  holeFree : x.HoleFree
  whole : x.file.Whole
  outstanding : s.log.outstanding = 0
  committing : s.log.committing = false
  lh : s.log.lh = []
  size : LOGSIZE ≤ s.log.size

/-- In an operation that began in `s`. The directory is `x` now and is locked by `o`, and the
operation holds the pointers `ks`. -/
structure Visiting (M : Mount) (s : State P) (o : Option P) (k : Slot) (x : Extent)
    (ks : List Slot) (t : State P) : Prop where
  calling : Calling M s.begun ks t
  lock : t.lock = update s.lock k o
  below : ∀ m, 0 < (t.icache m).ref → (t.copy m).valid = true → (t.icache m).inum < M.sb.ninodes
  owns : OwnsDir M t k (inodes M t.disk) x

/-- The disk has no free block. -/
def DiskFull (M : Mount) (e : Stop Wait) (u : State P) : Prop :=
  e = .panic "balloc: out of blocks" ∧ ∀ b < M.sb.size, M.inUse u.disk b = true

namespace Resting

theorem coherent_begun (h : Resting M s k i x) : Coherent M s.begun := h.coherent.setLog _

/-- The operation begins. -/
theorem ends_begin (h : Resting M s k i x) {α : Type} {rest : Kernel P α} {Q : α → State P → Prop}
    (hQ : ∀ t, Visiting M s (some p) k x [] t → t.disk = s.disk → t.log.lh = [] → Ends rest t Q E) :
    Ends (do
      beginOp
      ilock M p k .walk
      rest) s Q E := by
  obtain ⟨hi, hread⟩ := inodes_eq_some.1 h.inode
  obtain ⟨hdin, htype, -⟩ := readInode_eq_some hread
  have hinum : (s.begun.icache k).inum = i := h.inum
  refine ends_bind (ends_beginOp (fun hno => ?_) ?_)
  · rcases hno with hc | hc
    · rw [h.committing] at hc
      cases hc
    · unfold Log.NoSpace at hc
      rw [h.lh, h.outstanding] at hc
      exact absurd hc (by decide)
  refine ends_bind (h.coherent_begun.returns_ilock h.ref (h.lock k)
    (by rwa [hinum]) (by rw [hinum]; exact hread) (hQ _ ⟨?_, rfl, fun m hm hv => ?_, ?_⟩ rfl h.lh))
  · exact (Calling.refl h.coherent_begun).holding ((Holding.refl h.coherent_begun).locked
      (by rw [hinum]; exact hdin) htype (some p))
  · by_cases hmk : m = k
    · subst hmk
      rw [← hinum] at hi
      exact hi
    · simp only [update_of_ne hmk] at hv
      exact h.below m hm hv
  · refine ⟨Consistent.owns h.consistent (h.coherent.dev k h.ref) ?_ ?_, h.type, h.holeFree,
      h.whole, ?_⟩
    · change inodes M s.disk (s.icache k).inum = some x
      rw [h.inum, h.inode]
    · simp only [update_self]
    · change M.dinode s.disk (s.icache k).inum = x.din
      rw [h.inum, hdin]

end Resting

namespace Visiting

theorem ref_pos (h : Visiting M s o k x ks t) (hs : Resting M s k i y) : 0 < (t.icache k).ref :=
  h.calling.ref_pos_of_pos hs.ref

theorem inum (h : Visiting M s o k x ks t) (hs : Resting M s k i y) : (t.icache k).inum = i :=
  (h.calling.inum k hs.ref).trans hs.inum

theorem outstanding (h : Visiting M s o k x ks t) (hs : Resting M s k i y) :
    1 ≤ t.log.outstanding := by
  rw [h.calling.outstanding]
  change 1 ≤ s.log.outstanding + 1
  rw [hs.outstanding]
  decide

/-- A pointer is taken. -/
theorem taken (h : Visiting M s o k x ks t) (hs : Resting M s k i y) (hl : Taken t l j u) :
    Visiting M s o k x (l :: ks) u where
  calling := h.calling.holding ((Holding.refl h.calling.coherent).taken hl)
  lock := by rw [hl.lock, h.lock]
  below m hm hv := by
    have hpos : 0 < (t.icache m).ref := by
      refine lt_of_le_of_ne (h.calling.coherent.nonneg m) fun h0 => ?_
      have href := hl.ref_eq m
      by_cases hml : m = l
      · subst hml
        rw [(hl.fresh h0.symm).1] at hv
        cases hv
      · rw [if_neg hml, ← h0] at href
        omega
    rw [hl.copy_eq hpos] at hv
    rw [hl.inum_eq hpos]
    exact h.below m hpos hv
  owns := by
    have hpos := h.ref_pos hs
    have hown := h.owns
    refine ⟨Consistent.owns ?_ ?_ ?_ ?_, hown.type, hown.holeFree, hown.whole, ?_⟩
    · rw [hl.disk]
      exact hown.vol
    · exact (h.calling.coherent.taken hl).dev k (by rw [hl.ref_eq]; split_ifs <;> omega)
    · rw [hl.disk, hl.inum_eq hpos]
      exact hown.inode
    · rw [hl.copy_eq hpos, hown.copy]
    · rw [hl.disk, hl.inum_eq hpos, hown.synced]

/-- Another pointer is given up. -/
theorem dropped (h : Visiting M s o k x (l :: ks) t) (hs : Resting M s k i y)
    (hl : t.lock l = none) : Visiting M s o k x ks (t.dropped l) where
  calling := h.calling.dropped hs.coherent_begun
  lock := by
    change update t.lock l none = _
    rw [update_eq_self_iff.2 hl.symm, h.lock]
  below m hm hv := by
    rw [State.dropped_inum]
    refine h.below m ?_ hv
    rw [State.dropped_ref] at hm
    split_ifs at hm <;> omega
  owns := by
    have hown := h.owns
    refine ⟨Consistent.owns hown.vol ?_ ?_ hown.copy, hown.type, hown.holeFree, hown.whole, ?_⟩
    · rw [State.dropped_dev, hown.dev]
    · rw [State.dropped_inum]
      exact hown.inode
    · rw [State.dropped_inum]
      exact hown.synced

/-- An entry is stored. -/
theorem stored (h : Visiting M s o k x ks t) (hs : Resting M s k i y) {z : Extent} {de : Dirent}
    (hz : Stored M t k (inodes M t.disk) x j de z u) : Visiting M s o k z ks u where
  calling := h.calling.rewrote hz.rewrote (h.ref_pos hs) h.below
  lock := by rw [hz.rewrote.lock, h.lock]
  below m hm hv := by
    rw [hz.rewrote.icache] at hm ⊢
    exact h.below m hm (by rwa [← hz.logs.valid_eq])
  owns := by
    have hown := hz.owns
    have hin := hz.rewrote.inodes_eq
    exact hin ▸ hown

/-- The directory is unlocked. -/
theorem unlocked (h : Visiting M s o k x ks t) :
    Visiting M s none k x ks { t with lock := update t.lock k none } where
  calling := h.calling.unlocked
  lock := by rw [h.lock, update_idem]
  below := h.below
  owns :=
    have hown := h.owns
    { hown with }

theorem lock_eq (h : Visiting M s none k x ks t) (hs : Resting M s k i y) : t.lock = s.lock := by
  rw [h.lock, update_eq_self_iff.2 (hs.lock k).symm]

/-- The operation ends. -/
theorem ends_endOp (h : Visiting M s none k x [] t) (hs : Resting M s k i y) {r : ℤ}
    {Q : ℤ → State P → Prop}
    (hQ : ∀ u, Over s u → Resting M u k i x → u.disk = t.disk → Q r u) :
    Ends (do endOp; return r) t Q E := by
  refine h.calling.ends_endOp (h.lock_eq hs) (fun hc => ?_) fun u hover hu hlh => ?_
  · rw [hs.committing] at hc
    cases hc
  have hinum := h.inum hs
  have hinode := h.owns.inode
  rw [hinum] at hinode
  have hlog : u.log = { s.log with lh := [] } := by
    rw [hover.frame, hlh hs.outstanding]
  refine hQ u hover ?_ (by rw [hu])
  rw [hu]
  exact ⟨h.calling.coherent.setLog _, fun l => by rw [h.lock_eq hs, hs.lock], h.below,
    h.owns.vol, h.ref_pos hs, hinum, hinode, h.owns.type, h.owns.holeFree, h.owns.whole,
    by rw [hlog]; exact hs.outstanding, by rw [hlog]; exact hs.committing, by rw [hlog],
    by rw [hlog]; exact hs.size⟩

/-- The directory is unlocked and the operation ends. -/
theorem ends_leave (h : Visiting M s (some p) k x [] t) (hs : Resting M s k i y) {r : ℤ}
    {Q : ℤ → State P → Prop}
    (hQ : ∀ u, Over s u → Resting M u k i x → u.disk = t.disk → Q r u) :
    Ends (do iunlock p k; endOp; return r) t Q E :=
  ends_bind (returns_iunlock (by rw [h.lock, update_self]) (h.ref_pos hs)
    (h.unlocked.ends_endOp hs hQ))

/-- The directory is unlocked, the pointer is given up and the operation ends. -/
theorem ends_leave_iput (h : Visiting M s (some p) k x [l] t) (hs : Resting M s k i y)
    (hkeep : (t.copy l).valid = true → (t.icache l).ref ≠ 1) {r : ℤ} {Q : ℤ → State P → Prop}
    (hQ : ∀ u, Over s u → Resting M u k i x → u.disk = t.disk → Q r u) :
    Ends (do iunlock p k; iput M p l; endOp; return r) t Q E := by
  refine ends_bind (returns_iunlock (by rw [h.lock, update_self]) (h.ref_pos hs) ?_)
  have hfree : update t.lock k none l = none := by
    have := congrFun (h.unlocked.lock_eq hs) l
    rwa [hs.lock] at this
  refine ends_bind (returns_iput hfree (by exact fun hv _ => hkeep hv) ?_)
  exact (h.unlocked.dropped hs hfree).ends_endOp hs hQ

end Visiting

/-! ## Log space -/

/-- Storing an entry logs at most six blocks, so it stops only when no block is free. -/
theorem Stuck.full {e : Stop Wait} (h : Stuck M t k x (entryBlocks M · j i) e u)
    (hlh : t.log.lh = []) (hsize : LOGSIZE ≤ t.log.size) : DiskFull M e u := by
  obtain ⟨⟨-, hbig⟩ | hfull, y, c, -, -, -, hu⟩ := h
  · exfalso
    have hone : ∀ bn, Touches (DESIZE * j) DESIZE bn → bn = DESIZE * j / BSIZE := by
      rintro bn ⟨o, h1, h2, rfl⟩
      have hD : DESIZE = 16 := rfl
      have hB : BSIZE = 512 := rfl
      rw [hD] at h1 h2 ⊢
      rw [hB]
      omega
    obtain ⟨q, hq⟩ : ∃ q, q = DESIZE * j / BSIZE := ⟨_, rfl⟩
    have hlen : u.log.lh.length ≤ t.log.lh.length + [M.bblock c, M.bblock (y.ptr q), y.ptr q,
        M.bblock (y.ptr MAXFILE), y.ptr MAXFILE, M.iblock i].length := by
      refine hu.length_lh_le (by rw [hlh]; exact nodup_nil) fun b hb => ?_
      rcases hb with hb | ⟨bn, ht, hb | ⟨-, hb⟩⟩ | hb
      · simp [hb]
      · rw [hone bn ht, ← hq] at hb
        rcases hb with hb | hb
        · simp [hb]
        · simp [show b = y.ptr q from hb]
      · rcases hb with hb | hb
        · simp [hb]
        · simp [show b = y.ptr MAXFILE from hb]
      · simp [show b = M.iblock i from hb]
    have husize : u.log.size = t.log.size := by rw [hu.frame]
    rw [hlh] at hlen
    simp only [length_nil, length_cons] at hlen
    unfold Log.TooBig at hbig
    rw [husize] at hbig
    have hL : LOGSIZE = 30 := rfl
    omega
  · exact hfull

/-! ## The operations -/

/-- What an operation on the directory needs : room in the inode cache for the inode that the name
stands for, and for a new entry room in the directory. It must not link a name of the directory
itself. -/
def Admissible (M : Mount) (k : Slot) (s : State P) (op : DirOp) : Prop :=
  ∀ x ∈ inodes M s.disk (s.icache k).inum, (∀ i ∈ x.file.map op.name, s.RoomFor i) ∧ match op with
    | .link name _ => x.file.map name ≠ some (s.icache k).inum ∧
        (x.file.map name = none → DESIZE * x.file.vacancy + DESIZE ≤ MAXFILE * BSIZE)
    | _ => True

instance (s : State P) (op : DirOp) : Decidable (Admissible M k s op) := by
  unfold Admissible
  cases op <;> infer_instance

/-- The operation has returned, and the directory that was `x` is `y`. -/
structure Performed (M : Mount) (s : State P) (k : Slot) (i : ℕ) (x : Extent) (op : DirOp)
    (y : Extent) (r : ℤ) (u : State P) : Prop where
  result : r = op.result x.file.map
  frame : Over s u
  resting : Resting M u k i y
  distinct : y.file.Distinct
  map : y.file.map = op.apply x.file.map
  inodes : inodes M u.disk = update (inodes M s.disk) i (some y)
  unchanged : ¬ op.Changes x.file.map → u.disk = s.disk
  grows : y.file.size ≠ x.file.size →
    x.file.Crowded ∧ y.file.size.toNat = x.file.size.toNat + DESIZE

variable {op : DirOp}

/-- An operation that leaves the directory as it is. -/
theorem Resting.performed (hs : Resting M s k i x) (hd : x.file.Distinct) (hover : Over s u)
    (hu : Resting M u k i x) (hdisk : u.disk = s.disk) {r : ℤ} (hr : r = op.result x.file.map)
    (hmap : x.file.map = op.apply x.file.map) : Performed M s k i x op x r u where
  result := hr
  frame := hover
  resting := hu
  distinct := hd
  map := hmap
  inodes := by rw [hdisk, update_eq_self_iff.2 hs.inode.symm]
  unchanged _ := hdisk
  grows h := absurd rfl h

/-- An operation that stores an entry. -/
theorem Stored.performed {de : Dirent}
    (hz : Stored M t k (inodes M t.disk) x j de y w) (ht : t.disk = s.disk)
    (hinum : (t.icache k).inum = i) (hover : Over s u) (hu : Resting M u k i y)
    (hdisk : u.disk = w.disk) {r : ℤ} (hr : r = op.result x.file.map)
    (hd : (x.file.setEntry j de).Distinct)
    (hmap : (x.file.setEntry j de).map = op.apply x.file.map) (hch : op.Changes x.file.map)
    (hplace : x.file.Complete j ∨ x.file.size.toNat = DESIZE * j ∧ x.file.Crowded) :
    Performed M s k i x op y r u where
  result := hr
  frame := hover
  resting := hu
  distinct := hz.file ▸ hd
  map := hz.file ▸ hmap
  inodes := by
    have hin := hz.rewrote.inodes_eq
    rwa [ht, hinum, ← hdisk] at hin
  unchanged h := absurd hch h
  grows hne := by
    have hsize : y.file.size.toNat = max x.file.size.toNat (DESIZE * j + DESIZE) := by
      rw [hz.file]
      exact FileData.size_setEntry ((Nat.le_add_right ..).trans hz.fits)
    rcases hplace with hc | ⟨hend, hcrowd⟩
    · rw [max_eq_left hc] at hsize
      exact absurd (UInt32.toNat_inj.1 hsize) hne
    · rw [hend, max_eq_right (Nat.le_add_right ..)] at hsize
      exact ⟨hcrowd, by rw [hsize, hend]⟩

variable {name : Name}

theorem Visiting.roomFor (h : Visiting M s o k x [] t) (hs : Resting M s k i y) {n : ℕ}
    (hn : s.RoomFor n) : t.RoomFor n := by
  obtain ⟨l, hl⟩ := hn
  refine ⟨l, ?_⟩
  rw [h.calling.ref, count_nil, Nat.cast_zero, add_zero]
  by_cases h0 : (s.icache l).ref = 0
  · exact Or.inl h0
  · have hinum := h.calling.inum l ((hs.coherent.nonneg l).lt_of_ne' h0)
    exact Or.inr (hinum.trans (hl.resolve_left h0))

theorem Visiting.size_log (h : Visiting M s o k x ks t) (hs : Resting M s k i y) :
    LOGSIZE ≤ t.log.size := by
  rw [h.calling.frame]
  exact hs.size

/-- A vacant place is a free entry, or the directory has none. -/
theorem vacant_place {f : FileData} (h : f.Vacant j) :
    f.Complete j ∨ f.size.toNat = DESIZE * j ∧ f.Crowded := by
  rcases h.empty with ⟨hc, -⟩ | hend
  · exact Or.inl hc
  · refine Or.inr ⟨hend, fun l hl => (h.first l ?_).2⟩
    have hl : DESIZE * l + DESIZE ≤ f.size.toNat := hl
    have hD : DESIZE = 16 := rfl
    rw [hend, hD] at hl
    omega

theorem map_of_index {f : FileData} (h : f.index name.val = some j) :
    f.map name = some (f.entry j).inum := by
  rw [FileData.map, h, map_some]

/-- A name is linked. -/
theorem Resting.ends_link (hs : Resting M s k i x) (hd : x.file.Distinct) {inum : Inum}
    (hop : Admissible M k s (.link name inum)) :
    Ends (dirOp M p k (.link name inum)) s
      (fun r u => ∃ y, Performed M s k i x (.link name inum) y r u) (DiskFull M) := by
  obtain ⟨hroom, hself, hfits⟩ := hop x (by rw [hs.inum, hs.inode]; rfl)
  change ∀ i ∈ x.file.map name, s.RoomFor i at hroom
  rw [hs.inum] at hself
  refine hs.ends_begin fun t ht hdisk hlh => ?_
  refine ends_bind (ht.owns.ends_dirlink ht.calling.coherent (ht.outstanding hs)
    (Or.inl fun j hj => ht.roomFor hs (hroom _ (map_of_index hj)))
    (fun j l u hj hl => ?_) (fun hmiss hfull => ?_)
    (fun e u hu => hu.full hlh (ht.size_log hs)) fun y u hmiss hu => ?_)
  · -- The name is there, and the entry is for another inode.
    have hmap := map_of_index hj
    have hu := ht.taken hs hl
    have hlk : l ≠ k := by
      rintro rfl
      refine hself ?_
      rw [hmap, ← hu.inum hs, hl.entry]
    have hfree : u.lock l = none := by rw [hu.lock, update_of_ne hlk, hs.lock]
    refine ends_bind (returns_iput hfree
      (fun hv _ => hl.keep ht.calling.coherent hv) (ends_pure ?_))
    refine (hu.dropped hs hfree).ends_leave hs fun w hover hw hwd => ⟨x, ?_⟩
    refine hs.performed hd hover hw (hwd.trans (hl.disk.trans hdisk)) ?_ ?_
    · simp [DirOp.result, hmap]
    · simp [DirOp.apply, hmap]
  · exact absurd (hfits (FileData.isNone_map.2 hmiss)) (not_le.2 hfull)
  · have hmap := FileData.isNone_map.2 hmiss
    have hmax : DESIZE * x.file.vacancy ≤ MAXFILE * BSIZE :=
      (Nat.le_add_right ..).trans (hfits hmap)
    obtain ⟨hd', hmap'⟩ := hs.whole.link hd hmap hs.whole.vacant hmax inum
    refine (ht.stored hs hu).ends_leave hs fun w hover hw hwd => ⟨y, ?_⟩
    refine hu.performed hdisk (ht.inum hs) hover hw hwd ?_ hd' (hmap'.trans ?_) ?_
      (vacant_place hs.whole.vacant)
    · simp [DirOp.result, hmap]
    · simp [DirOp.apply, hmap]
    · simp [DirOp.Changes, hmap]

/-- A name is removed. -/
theorem Resting.ends_unlink (hs : Resting M s k i x) (hd : x.file.Distinct)
    (hop : Admissible M k s (.unlink name)) :
    Ends (dirOp M p k (.unlink name)) s
      (fun r u => ∃ y, Performed M s k i x (.unlink name) y r u) (DiskFull M) := by
  refine hs.ends_begin fun t ht hdisk hlh => ?_
  cases hj : x.file.index name.val with
  | none =>
    have hmap := FileData.isNone_map.2 hj
    refine ends_bind (ht.owns.cachedDir.returns_dirlookup_none hj ?_)
    refine ht.ends_leave hs fun w hover hw hwd => ⟨x, ?_⟩
    refine hs.performed hd hover hw (hwd.trans hdisk) ?_ ?_
    · simp [DirOp.result, hmap]
    · refine funext fun n => ?_
      change x.file.map n = if n.Same name then none else x.file.map n
      split_ifs with hsame
      · rw [hs.whole.map_same hd hsame, hmap]
      · rfl
  | some j =>
    have hmap := map_of_index hj
    obtain ⟨hsay, -⟩ := hs.whole.stated hj
    obtain ⟨hroom, -⟩ := hop x (by rw [hs.inum, hs.inode]; rfl)
    refine ends_bind (ht.owns.cachedDir.ends_dirlookup ht.calling.coherent hj
      (Or.inl (ht.roomFor hs (hroom _ hmap))) fun l u hl => ?_)
    have hu := ht.taken hs hl
    have hulh : u.log.lh = [] := by
      rw [hl.frame]
      exact hlh
    have hle : DESIZE * j ≤ x.din.size.toNat := (Nat.le_add_right ..).trans hsay.complete
    have hdev : x.din.type ≠ T_DEV := by rw [hs.type]; exact T_DIR_ne_T_DEV
    have hfits : DESIZE * j + DESIZE ≤ MAXFILE * BSIZE :=
      le_trans hsay.complete (size_le_of_holeFree hs.holeFree hdev)
    obtain ⟨hd', hmap'⟩ := hs.whole.unlink hd hj ((Nat.le_add_right ..).trans hfits)
    refine ends_bind (hu.owns.ends_writeEntry (hu.outstanding hs) hle
      (fun hfull => absurd hfits (not_le.2 hfull))
      (fun e v hv => hv.full hulh (hu.size_log hs)) fun y v hv => ?_)
    refine (hu.stored hs hv).ends_leave_iput hs ?_ fun w hover hw hwd => ⟨y, ?_⟩
    · rw [hv.logs.icache, hv.logs.valid_eq]
      exact hl.keep ht.calling.coherent
    · refine hv.performed (hl.disk.trans hdisk) (hu.inum hs) hover hw hwd ?_ hd' hmap' ?_
        (Or.inl hsay.complete)
      · simp [DirOp.result, hmap]
      · simp [DirOp.Changes, hmap]

/-- A name is looked up. -/
theorem Resting.ends_lookup (hs : Resting M s k i x) (hd : x.file.Distinct)
    (hop : Admissible M k s (.lookup name)) :
    Ends (dirOp M p k (.lookup name)) s
      (fun r u => ∃ y, Performed M s k i x (.lookup name) y r u) (DiskFull M) := by
  refine hs.ends_begin fun t ht hdisk _ => ?_
  cases hj : x.file.index name.val with
  | none =>
    have hmap := FileData.isNone_map.2 hj
    refine ends_bind (ht.owns.cachedDir.returns_dirlookup_none hj ?_)
    refine ht.ends_leave hs fun w hover hw hwd => ⟨x, ?_⟩
    refine hs.performed hd hover hw (hwd.trans hdisk) ?_ rfl
    simp [DirOp.result, hmap]
  | some j =>
    have hmap := map_of_index hj
    obtain ⟨hroom, -⟩ := hop x (by rw [hs.inum, hs.inode]; rfl)
    refine ends_bind (ht.owns.cachedDir.ends_dirlookup ht.calling.coherent hj
      (Or.inl (ht.roomFor hs (hroom _ hmap))) fun l u hl => ?_)
    refine ends_bind (returns_inumOf ?_)
    refine (ht.taken hs hl).ends_leave_iput hs (hl.keep ht.calling.coherent)
      fun w hover hw hwd => ⟨x, ?_⟩
    refine hs.performed hd hover hw (hwd.trans (hl.disk.trans hdisk)) ?_ rfl
    simp [DirOp.result, hmap, hl.entry]

/-- An operation is that of the map. It stops only when the disk is full. -/
theorem Resting.ends_dirOp (hs : Resting M s k i x) (hd : x.file.Distinct)
    (hop : Admissible M k s op) :
    Ends (dirOp M p k op) s (fun r u => ∃ y, Performed M s k i x op y r u) (DiskFull M) := by
  cases op with
  | link name inum => exact hs.ends_link hd hop
  | unlink name => exact hs.ends_unlink hd hop
  | lookup name => exact hs.ends_lookup hd hop

/-- One operation of a run. -/
theorem Resting.performed_of_step (hs : Resting M s k i x) (hd : x.file.Distinct)
    (hop : Admissible M k s op) (ht : dirStep M p k s op = some t) :
    ∃ y r, Performed M s k i x op y r t := by
  obtain ⟨⟨r, u⟩, hrun, rfl⟩ := map_eq_some_iff.1 ht
  have hends := hs.ends_dirOp (p := p) hd hop
  rw [ends_iff] at hends
  obtain ⟨y, hy⟩ := hends.1 r u (run_of_toOption hrun)
  exact ⟨y, r, hy⟩

/-- Directories are finite maps. After every run of operations the directory is the map that the
operations make, its names are distinct, and the next operation returns what the map says. It
changes that name, that directory and nothing else, and stops only when the disk is full. The
directory grows only when no entry is free. -/
theorem directory_is_map {ops : List DirOp} (hs : Resting M s k i x) (hd : x.file.Distinct)
    (hok : Along (dirStep M p k) (Admissible M k) s ops)
    (ht : exec (dirStep M p k) s ops = some t) :
    ∃ y, Resting M t k i y ∧ y.file.Distinct ∧
      y.file.map = ops.foldl DirOp.apply x.file.map ∧
      ∀ op, Admissible M k t op →
        Ends (dirOp M p k op) t (fun r u => ∃ z, Performed M t k i y op z r u) (DiskFull M) := by
  induction ops generalizing s x with
  | nil =>
    obtain rfl := some.inj ht
    exact ⟨x, hs, hd, rfl, fun op hop => hs.ends_dirOp hd hop⟩
  | cons op ops ih =>
    obtain ⟨u, hu, ht⟩ := exec_cons_eq_some.1 ht
    obtain ⟨y, r, hy⟩ := hs.performed_of_step hd hok.1 hu
    obtain ⟨z, hz, hzd, hmap, hnext⟩ := ih hy.resting hy.distinct (hok.2 u hu) ht
    exact ⟨z, hz, hzd, by rw [hmap, hy.map, foldl_cons], hnext⟩

/-! ## The root directory of the small file system -/

/-- The entry of the inode cache for the root directory. -/
def rootSlot : Slot := ⟨0, ninode_pos⟩

theorem resting_tinyBoot :
    Resting tiny (tinyBoot 0) rootSlot ROOTINO (tinyExtent ROOTINO 1 tinyEntries) := by
  have hq := quiet_tinyBoot 0
  have hx : inodes tiny tinyFiles ROOTINO = some (tinyExtent ROOTINO 1 tinyEntries) := by
    rw [inodes_tinyFiles.1, update_of_ne (by decide), update_self]
  have hg := goodDir_tinyFiles hx rfl
  exact ⟨hq.coherent, hq.lock, fun m hm _ => hq.below m hm, hq.consistent, by decide, by decide, hx,
    rfl, hg.holeFree, hg.whole, rfl, rfl, rfl, by decide⟩

theorem distinct_tiny : (tinyExtent ROOTINO 1 tinyEntries).file.Distinct := by
  have hentry : ∀ j, (tinyExtent ROOTINO 1 tinyEntries).file.Complete j →
      ∃ l : Fin tinyEntries.length, l.val = j ∧
        (tinyExtent ROOTINO 1 tinyEntries).file.entry j = tinyEntries.get l := by
    intro j hj
    have hj : DESIZE * j + DESIZE ≤ (tinyDir 1 3).size.toNat := hj
    have hD : DESIZE = 16 := rfl
    rw [size_tinyDir 1 (by decide), hD] at hj
    have hlt : j < tinyEntries.length := by
      change j < 3
      omega
    refine ⟨⟨j, hlt⟩, rfl, entry_tinyExtent 1 (by decide) (by decide) (by decide)
      (List.getElem?_eq_getElem hlt) ?_⟩
    have hsmall : ∀ de ∈ tinyEntries, de.inum < 2 ^ 16 := by decide
    exact hsmall _ (getElem_mem _)
  have hnames : ∀ j l : Fin tinyEntries.length,
      canon (tinyEntries.get j).name = canon (tinyEntries.get l).name → j = l := by decide
  intro j l hj hl _ _ he
  obtain ⟨j, rfl, hje⟩ := hentry j hj
  obtain ⟨l, rfl, hle⟩ := hentry l hl
  rw [hje, hle] at he
  rw [hnames j l he]

/-- The name `"a"`. -/
def nameA : Name := ⟨[97], by decide +kernel⟩

/-- The name `"b"`. -/
def nameB : Name := ⟨[98], by decide +kernel⟩

/-- The name of the directory itself. -/
def nameDot : Name := ⟨dotName, by decide +kernel⟩

/-- The file `"a"` gets the name `"b"` and loses its own. -/
theorem directory_is_map_tiny : ∃ t y,
    exec (dirStep tiny () rootSlot) (tinyBoot 0) [.link nameB ⟨2, by decide⟩, .unlink nameA] =
      some t ∧
    Resting tiny t rootSlot ROOTINO y ∧ y.file.map nameB = some 2 ∧ y.file.map nameA = none := by
  have hok : Along (dirStep tiny () rootSlot) (Admissible tiny rootSlot) (tinyBoot 0)
      [.link nameB ⟨2, by decide⟩, .unlink nameA] := by decide +kernel
  have hrun : (exec (dirStep tiny () rootSlot) (tinyBoot 0)
      [.link nameB ⟨2, by decide⟩, .unlink nameA]).isSome := by decide +kernel
  obtain ⟨t, ht⟩ := isSome_iff_exists.1 hrun
  obtain ⟨y, hy, -, hmap, -⟩ := directory_is_map resting_tinyBoot distinct_tiny hok ht
  refine ⟨t, y, ht, hy, ?_, ?_⟩
  · rw [hmap]
    decide +kernel
  · rw [hmap]
    decide +kernel

/-- `dirlink` of a name of the directory itself finds the directory, and `iput` waits for the lock
that the process has. -/
theorem dirlink_waits_for_itself :
    Resting tiny (tinyBoot 0) rootSlot ROOTINO (tinyExtent ROOTINO 1 tinyEntries) ∧
      (tinyExtent ROOTINO 1 tinyEntries).file.Distinct ∧
      (tinyExtent ROOTINO 1 tinyEntries).file.map nameDot = some ROOTINO ∧
      ((tinyBoot 0).icache ⟨1, by decide⟩).ref = 0 ∧
      Halts (dirOp tiny () rootSlot (.link nameDot ⟨2, by decide⟩)) (tinyBoot 0)
        (.blocked (.inode rootSlot .put)) := by
  refine ⟨resting_tinyBoot, distinct_tiny, by decide +kernel, rfl, halts_of_stop ?_⟩
  decide +kernel

end Fs

end Xv6
