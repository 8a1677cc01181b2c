import Xv6.DirEntries
import Mathlib.Data.List.TakeWhile

/-!
# Paths

What a path name means, apart from the code that walks along it. `comps` has the elements of
a path, and `skipelems_eq` says that `skipelem`, called until the path is used up, yields them.
`FileData.index` is the lookup of a name in a directory. `resolve` looks up one name after the
other, and `resolveParent` stops in the directory for the last name.
-/

namespace Xv6

open List

/-! ## Elements of a path -/

variable {path : List UInt8} {names : List (List UInt8)}

/-- The elements of a path : the pieces between slashes that are not empty, each cut to `DIRSIZ`
bytes. -/
def comps (path : List UInt8) : List (List UInt8) :=
  (((path.takeWhile (· ≠ 0)).splitOn 47).filter (· ≠ [])).map (·.take DIRSIZ)

theorem comps_slash (path : List UInt8) : comps (47 :: path) = comps path := by
  have hcons : (47 :: path).takeWhile (· ≠ 0) = [] ++ 47 :: path.takeWhile (· ≠ 0) := by simp
  unfold comps
  rw [hcons, List.splitOn, splitOnP_append_cons _ _ (by simp)]
  simp [List.splitOn]

theorem comps_dropWhile : ∀ path : List UInt8, comps (path.dropWhile (· = 47)) = comps path
  | [] => rfl
  | c :: path => by
    by_cases hc : c = 47
    · rw [dropWhile_cons_of_pos (by simpa using hc), comps_dropWhile path, hc, comps_slash]
    · rw [dropWhile_cons_of_neg (by simpa using hc)]

theorem comps_of_end (h : path.headD 0 = 0) : comps path = [] := by
  have hnil : path.takeWhile (· ≠ 0) = [] := by
    cases path with
    | nil => rfl
    | cons c path =>
      obtain rfl : c = 0 := h
      simp
  unfold comps
  rw [hnil]
  rfl

/-- The first element of a path. -/
theorem comps_append {elem rest : List UInt8} (hne : elem ≠ [])
    (helem : ∀ c ∈ elem, c ≠ 47 ∧ c ≠ 0) (hrest : rest.headD 0 = 47 ∨ rest.headD 0 = 0) :
    comps (elem ++ rest) = elem.take DIRSIZ :: comps rest := by
  have htake : elem.takeWhile (· ≠ 0) = elem :=
    takeWhile_eq_self_iff.2 fun c hc => by simpa using (helem c hc).2
  have hsplit : elem.splitOnP (· == 47) = [elem] :=
    splitOnP_eq_singleton fun c hc => by simpa using (helem c hc).1
  have happ : (elem ++ rest).takeWhile (· ≠ 0) = elem ++ rest.takeWhile (· ≠ 0) :=
    takeWhile_append_of_pos fun c hc => by simpa using (helem c hc).2
  rcases hrest with h | h
  · obtain ⟨t, rfl⟩ : ∃ t, rest = 47 :: t := by
      cases rest with
      | nil => cases h
      | cons c t => exact ⟨t, congrArg (· :: t) h⟩
    have hcons : (47 :: t).takeWhile (· ≠ 0) = 47 :: t.takeWhile (· ≠ 0) := by simp
    rw [comps_slash]
    unfold comps
    rw [happ, hcons, List.splitOn, splitOnP_append_cons _ _ (by simp), hsplit]
    simp [List.splitOn, hne]
  · have hnil : rest.takeWhile (· ≠ 0) = [] := by
      cases rest with
      | nil => rfl
      | cons c t =>
        obtain rfl : c = 0 := h
        simp
    rw [comps_of_end h]
    unfold comps
    rw [happ, hnil, append_nil, List.splitOn, hsplit]
    simp [hne]

theorem headD_dropWhile {q : UInt8 → Bool} (h : (path.dropWhile q).headD 0 ≠ 0) :
    q ((path.dropWhile q).headD 0) = false := by
  have hnot := List.head?_dropWhile_not q path
  cases hd : path.dropWhile q with
  | nil =>
    rw [hd] at h
    exact absurd rfl h
  | cons c t =>
    rw [hd] at hnot
    exact hnot

/-- A path that starts with an element. -/
theorem comps_elem (hslash : path.headD 0 ≠ 47) (h0 : path.headD 0 ≠ 0) :
    comps path = (path.takeWhile fun c => c ≠ 47 ∧ c ≠ 0).take DIRSIZ ::
      comps (path.dropWhile fun c => c ≠ 47 ∧ c ≠ 0) := by
  have happ := takeWhile_append_dropWhile (p := fun c => decide (c ≠ 47 ∧ c ≠ 0)) (l := path)
  conv_lhs => rw [← happ]
  refine comps_append ?_ (fun c hc => by simpa using mem_takeWhile_imp hc) ?_
  · cases path with
    | nil => exact absurd rfl h0
    | cons c t =>
      have hc : c ≠ 47 ∧ c ≠ 0 := ⟨hslash, h0⟩
      rw [takeWhile_cons_of_pos (by simpa using hc)]
      exact cons_ne_nil _ _
  · by_cases hz : (path.dropWhile fun c => decide (c ≠ 47 ∧ c ≠ 0)).headD 0 = 0
    · exact .inr hz
    · have hend := headD_dropWhile hz
      simp only [decide_eq_false_iff_not, not_and, not_not] at hend
      exact .inl (by_contra fun hc => hz (hend hc))

/-- A path without slashes at its start is at its end when it has no elements. -/
theorem headD_eq_zero_iff (path : List UInt8) :
    (path.dropWhile (· = 47)).headD 0 = 0 ↔ comps path = [] := by
  rw [← comps_dropWhile]
  refine ⟨comps_of_end, fun hnil => by_contra fun h0 => ?_⟩
  have hslash : (path.dropWhile (· = 47)).headD 0 ≠ 47 := by simpa using headD_dropWhile h0
  rw [comps_elem hslash h0] at hnil
  exact absurd hnil (cons_ne_nil _ _)

theorem skipelem_none (h : skipelem path = none) : comps path = [] := by
  unfold skipelem at h
  simp only at h
  split_ifs at h with h0
  exact (headD_eq_zero_iff path).1 h0

/-- `skipelem` takes the first element off a path. -/
theorem skipelem_some {name rest : List UInt8} (h : skipelem path = some (name, rest)) :
    comps path = name :: comps rest ∧ rest.length < path.length ∧
      (rest.headD 0 = 0 ↔ comps rest = []) := by
  unfold skipelem at h
  simp only at h
  split_ifs at h with h0
  obtain ⟨rfl, rfl⟩ := Prod.mk.inj (Option.some.inj h)
  have hslash : (path.dropWhile (· = 47)).headD 0 ≠ 47 := by simpa using headD_dropWhile h0
  obtain ⟨q, hq⟩ : ∃ q, q = path.dropWhile (· = 47) := ⟨_, rfl⟩
  have hle : q.length ≤ path.length := hq ▸ (dropWhile_sublist _).length_le
  rw [← hq] at h0 hslash ⊢
  refine ⟨?_, ?_, ?_⟩
  · rw [← comps_dropWhile path, ← hq, comps_elem hslash h0, comps_dropWhile]
  · refine lt_of_le_of_lt (dropWhile_sublist _).length_le (lt_of_lt_of_le ?_ hle)
    cases q with
    | nil => exact absurd rfl h0
    | cons c t =>
      have hc : c ≠ 47 ∧ c ≠ 0 := ⟨hslash, h0⟩
      rw [dropWhile_cons_of_pos (by simpa using hc), length_cons]
      exact Nat.lt_succ_of_le (dropWhile_sublist _).length_le
  · rw [headD_eq_zero_iff, comps_dropWhile]

example : comps [47, 47, 97, 47, 98, 99, 47, 47] = [[97], [98, 99]] := by decide

/-! ## Lookups -/

namespace FileData

/-- The directory consists of whole entries. -/
def Whole (f : FileData) : Prop := DESIZE ∣ f.size.toNat

/-- The place of the first entry with the name. -/
def index (f : FileData) (name : List UInt8) : Option ℕ :=
  (List.range (numEntries f.size)).find? fun j =>
    decide ((f.entry j).inum ≠ 0 ∧ namecmp name (f.entry j).name = 0)

variable {f : FileData} {name : List UInt8} {j : ℕ}

theorem Whole.complete (h : f.Whole) (hj : j < numEntries f.size) : f.Complete j := by
  have hD : DESIZE = 16 := rfl
  obtain ⟨n, hn⟩ := h
  rw [lt_numEntries] at hj
  unfold Complete
  rw [hn, hD] at hj ⊢
  omega

theorem Whole.misses (h : f.Whole) (hi : f.index name = none) : f.Misses name := by
  intro j hj
  refine ⟨h.complete hj, ?_⟩
  have := List.find?_eq_none.1 hi j (mem_range.2 hj)
  simp only [decide_eq_true_eq, not_and] at this
  by_cases h0 : (f.entry j).inum = 0
  · exact .inl h0
  · exact .inr (this h0)

theorem Whole.finds (h : f.Whole) (hi : f.index name = some j) : f.Finds name j := by
  obtain ⟨hit, hlt⟩ := List.find?_range_eq_some.1 hi
  simp only [decide_eq_true_eq, mem_range] at hit hlt
  obtain ⟨hj, hmiss⟩ := hlt
  refine ⟨h.complete hj, hit.1, hit.2, fun l hl => ⟨h.complete (hl.trans hj), ?_⟩⟩
  have := hmiss l hl
  simp only [Bool.not_eq_eq_eq_not, Bool.not_true, decide_eq_false_iff_not, not_and] at this
  by_cases h0 : (f.entry l).inum = 0
  · exact .inl h0
  · exact .inr (this h0)

end FileData

/-- Where a path leads. -/
inductive Target where
  | inode (i : ℕ)
  /-- A step is made in an inode that is no directory, or finds no entry. -/
  | missing
  /-- A step is made in an inode that is not allocated. -/
  | unallocated
deriving DecidableEq

/-- Look up the names one after the other, from inode `i` on. -/
def resolve (file : ℕ → Option FileData) : ℕ → List (List UInt8) → Target
  | i, [] => .inode i
  | i, name :: names =>
    match file i with
    | none => .unallocated
    | some f =>
      if f.type ≠ T_DIR then .missing
      else
        match f.index name with
        | none => .missing
        | some j => resolve file (f.entry j).inum names

/-- The inode, if it is a directory. -/
def Target.directory (file : ℕ → Option FileData) : Target → Target
  | .inode i =>
    match file i with
    | none => .unallocated
    | some f => if f.type ≠ T_DIR then .missing else .inode i
  | t => t

/-- The directory for the last of the names. -/
def resolveParent (file : ℕ → Option FileData) (i : ℕ) (names : List (List UInt8)) : Target :=
  if names = [] then .missing else (resolve file i names.dropLast).directory file

theorem resolveParent_eq_inode {file : ℕ → Option FileData} {i l : ℕ}
    (h : resolveParent file i names = .inode l) : ∃ f, file l = some f ∧ f.type = T_DIR := by
  unfold resolveParent at h
  split_ifs at h
  cases hr : resolve file i names.dropLast with
  | missing =>
    rw [hr] at h
    cases h
  | unallocated =>
    rw [hr] at h
    cases h
  | inode m =>
    rw [hr] at h
    unfold Target.directory at h
    cases hf : file m with
    | none =>
      simp only [hf] at h
      cases h
    | some f =>
      simp only [hf] at h
      split_ifs at h with ht
      obtain rfl := Target.inode.inj h
      exact ⟨f, hf, not_not.1 ht⟩

/-- Where `namex` goes. -/
def resolvePath (file : ℕ → Option FileData) (nameiparent : Bool) (i : ℕ)
    (names : List (List UInt8)) : Target :=
  if nameiparent then resolveParent file i names else resolve file i names

theorem resolvePath_last (file : ℕ → Option FileData) (i : ℕ) (name : List UInt8) :
    resolvePath file true i [name] = (Target.inode i).directory file := rfl

/-- A step of a walk that goes on. -/
theorem resolvePath_cons (file : ℕ → Option FileData) (nameiparent : Bool) (i : ℕ)
    (name : List UInt8) (h : nameiparent = true → names ≠ []) :
    resolvePath file nameiparent i (name :: names) =
      match file i with
      | none => .unallocated
      | some f =>
        if f.type ≠ T_DIR then .missing
        else
          match f.index name with
          | none => .missing
          | some j => resolvePath file nameiparent (f.entry j).inum names := by
  cases nameiparent with
  | false => rfl
  | true =>
    have hne := h rfl
    simp only [resolvePath, if_true, resolveParent, if_neg hne,
      if_neg (cons_ne_nil name names)]
    rw [dropLast_cons_of_ne_nil hne, resolve]
    cases file i with
    | none => rfl
    | some f =>
      simp only
      split_ifs with ht
      · rfl
      · cases f.index name <;> rfl

/-- Inode `i` is the same in two families of files, or no directory in either. -/
def Alike (file file' : ℕ → Option FileData) (i : ℕ) : Prop :=
  file i = file' i ∨
    ∃ f f', file i = some f ∧ file' i = some f' ∧ f.type ≠ T_DIR ∧ f'.type ≠ T_DIR

section Congr

variable {file file' : ℕ → Option FileData} {n : ℕ} (h : ∀ i < n, Alike file file' i)

include h

/-- A walk sees only the directories. By induction on the names. -/
theorem resolve_congr (hin : ∀ i < n, ∀ f name j, file i = some f → f.type = T_DIR →
      f.index name = some j → (f.entry j).inum < n) :
    ∀ {names : List (List UInt8)} {i : ℕ}, i < n →
      resolve file' i names = resolve file i names ∧
        ∀ l, resolve file i names = .inode l → l < n
  | [], i, hi => ⟨rfl, by rintro l ⟨⟩; exact hi⟩
  | name :: names, i, hi => by
    rcases h i hi with he | ⟨f, f', hf, hf', ht, ht'⟩
    · rw [resolve, resolve, ← he]
      cases hf : file i with
      | none => exact ⟨rfl, fun l hl => by cases hl⟩
      | some f =>
        by_cases ht : f.type ≠ T_DIR
        · simp only [if_pos ht]
          exact ⟨trivial, fun l hl => by cases hl⟩
        · simp only [if_neg ht]
          cases hj : f.index name with
          | none => exact ⟨rfl, fun l hl => by cases hl⟩
          | some j => exact resolve_congr hin (hin i hi f name j hf (not_not.1 ht) hj)
    · rw [resolve, resolve, hf, hf']
      simp only [if_pos ht, if_pos ht']
      exact ⟨trivial, fun l hl => by cases hl⟩

theorem resolveParent_congr
    (hin : ∀ i < n, ∀ f name j, file i = some f → f.type = T_DIR → f.index name = some j →
      (f.entry j).inum < n)
    {i : ℕ} (hi : i < n) : resolveParent file' i names = resolveParent file i names := by
  unfold resolveParent
  split_ifs
  · rfl
  obtain ⟨heq, hlt⟩ : resolve file' i names.dropLast = resolve file i names.dropLast ∧
      ∀ l, resolve file i names.dropLast = .inode l → l < n := resolve_congr h hin hi
  rw [heq]
  cases hr : resolve file i names.dropLast with
  | missing => rfl
  | unallocated => rfl
  | inode l =>
    unfold Target.directory
    rcases h l (hlt l hr) with he | ⟨f, f', hf, hf', ht, ht'⟩
    · simp only [he]
    · simp only [hf, hf', if_pos ht, if_pos ht']

end Congr

end Xv6
