import Xv6.Inode
import Mathlib.Data.List.TakeWhile

/-!
# Directories and paths

The second half of `fs.c` : directory entries, `dirlookup` and `dirlink`, and the walk
along a path in `namex`. A C string is the list of its bytes; past the end of the list,
as past the end of the string, there is a 0.
-/

namespace Xv6

open List

/-- `strncmp`. -/
def strncmp : ℕ → List UInt8 → List UInt8 → ℤ
  | 0, _, _ => 0
  | n + 1, s, t =>
    if s.headD 0 ≠ 0 ∧ s.headD 0 = t.headD 0 then strncmp n s.tail t.tail
    else (s.headD 0).toNat - (t.headD 0).toNat

/-- The bytes that `strncpy` stores. -/
def strncpy : ℕ → List UInt8 → List UInt8
  | 0, _ => []
  | n + 1, t => if t.headD 0 = 0 then List.replicate (n + 1) 0 else t.headD 0 :: strncpy n t.tail

theorem length_strncpy : ∀ (n : ℕ) (t : List UInt8), (strncpy n t).length = n
  | 0, _ => rfl
  | n + 1, t => by
    unfold strncpy
    split_ifs
    · rw [length_replicate]
    · rw [length_cons, length_strncpy n]

theorem strncpy_succ (n : ℕ) (t : List UInt8) : strncpy (n + 1) t =
    t.headD 0 :: if t.headD 0 = 0 then List.replicate n 0 else strncpy n t.tail := by
  rw [strncpy]
  split_ifs with h
  · rw [replicate_succ, h]
  · rfl

/-- Two names are the same for the kernel when they are stored as the same bytes. -/
theorem strncmp_eq_zero_iff : ∀ (n : ℕ) (s t : List UInt8),
    strncmp n s t = 0 ↔ strncpy n s = strncpy n t
  | 0, _, _ => by simp [strncmp, strncpy]
  | n + 1, s, t => by
    have ih := strncmp_eq_zero_iff n s.tail t.tail
    rw [strncmp, strncpy_succ, strncpy_succ]
    generalize s.headD 0 = a
    generalize t.headD 0 = b
    by_cases hab : a = b
    · subst hab
      by_cases ha : a = 0
      · simp [ha]
      · simp only [ha, ne_eq, not_false_eq_true, and_self, if_true, if_false, cons.injEq,
          true_and]
        exact ih
    · have hne : a.toNat ≠ b.toNat := fun h => hab (UInt8.toNat_inj.1 h)
      simp only [hab, and_false, if_false, cons.injEq, false_and, iff_false]
      omega

theorem strncpy_strncpy : ∀ (n : ℕ) (t : List UInt8), strncpy n (strncpy n t) = strncpy n t
  | 0, _ => rfl
  | n + 1, t => by
    rw [strncpy_succ n t]
    split_ifs with h
    · rw [h, strncpy, if_pos (by rfl), replicate_succ]
    · rw [strncpy, if_neg (by simpa using h)]
      simp only [headD_cons, tail_cons, strncpy_strncpy n]

theorem strncpy_take : ∀ (n : ℕ) (t : List UInt8), strncpy n (t.take n) = strncpy n t
  | 0, _ => rfl
  | n + 1, [] => rfl
  | n + 1, c :: t => by
    rw [take_succ_cons, strncpy, strncpy, headD_cons, headD_cons, tail_cons,
      tail_cons, strncpy_take n]

/-- A stored name ends at its first 0. -/
theorem takeWhile_strncpy : ∀ (n : ℕ) {t : List UInt8}, (∀ c ∈ t, c ≠ 0) →
    (strncpy n t).takeWhile (· ≠ 0) = t.take n
  | 0, _, _ => rfl
  | n + 1, [], _ => by simp [strncpy]
  | n + 1, c :: t, h => by
    have hc : c ≠ 0 := h c mem_cons_self
    rw [strncpy, headD_cons, if_neg hc, takeWhile_cons_of_pos (by simpa using hc),
      tail_cons, takeWhile_strncpy n fun d hd => h d (mem_cons_of_mem _ hd),
      take_succ_cons]

/-- `namecmp`. -/
def namecmp (s t : List UInt8) : ℤ := strncmp DIRSIZ s t

/-- A name as directory entries have it. -/
def canon (name : List UInt8) : List UInt8 := strncpy DIRSIZ name

theorem namecmp_eq_zero_iff {s t : List UInt8} : namecmp s t = 0 ↔ canon s = canon t :=
  strncmp_eq_zero_iff DIRSIZ s t

/-- Names without zeros are stored as the same bytes if they agree on their first `DIRSIZ`
bytes. -/
theorem canon_eq_iff {s t : List UInt8} (hs : ∀ c ∈ s, c ≠ 0) (ht : ∀ c ∈ t, c ≠ 0) :
    canon s = canon t ↔ s.take DIRSIZ = t.take DIRSIZ := by
  constructor
  · intro h
    rw [← takeWhile_strncpy DIRSIZ hs, ← takeWhile_strncpy DIRSIZ ht]
    exact congrArg (List.takeWhile fun c => decide (c ≠ 0)) h
  · intro h
    unfold canon
    rw [← strncpy_take DIRSIZ s, h, strncpy_take]

/-- The name `"."`. -/
def dotName : List UInt8 := [46]

/-- The name `".."`. -/
def dotdotName : List UInt8 := [46, 46]

/-- `struct dirent`. -/
structure Dirent where
  inum : ℕ
  name : List UInt8

/-- A directory entry from its bytes. -/
def Dirent.ofBytes (bs : List UInt8) : Dirent := ⟨leNat (bs.take 2), bs.drop 2⟩

/-- The bytes of a directory entry. -/
def Dirent.bytes (de : Dirent) : List UInt8 := leBytes 2 de.inum ++ de.name

/-- An entry is what its bytes say. -/
theorem ofBytes_bytes {de : Dirent} (hi : de.inum < 2 ^ 16) :
    Dirent.ofBytes de.bytes = de := by
  have hlen : (leBytes 2 de.inum).length = 2 := length_leBytes 2 _
  unfold Dirent.ofBytes Dirent.bytes
  rw [take_left' hlen, drop_left' hlen, leNat_leBytes_of_lt hi]

theorem length_bytes {de : Dirent} (hn : de.name.length = DIRSIZ) : de.bytes.length = DESIZE := by
  rw [Dirent.bytes, length_append, length_leBytes, hn]
  rfl

theorem length_flatMap_const {α β : Type} {f : α → List β} {n : ℕ} :
    ∀ {as : List α}, (∀ a ∈ as, (f a).length = n) → (as.flatMap f).length = n * as.length
  | [], _ => rfl
  | a :: as, h => by
    rw [flatMap_cons, length_append, h a mem_cons_self,
      length_flatMap_const fun b hb => h b (mem_cons_of_mem _ hb), length_cons,
      Nat.mul_succ, add_comm]

theorem getElem?_flatMap_const {α β : Type} {f : α → List β} {n : ℕ} {i : ℕ} (hi : i < n) :
    ∀ {as : List α} {l : ℕ} {a : α}, (∀ a ∈ as, (f a).length = n) → as[l]? = some a →
      (as.flatMap f)[n * l + i]? = (f a)[i]?
  | [], l, a, _, hl => by simp at hl
  | b :: as, 0, a, h, hl => by
    obtain rfl : b = a := by simpa using hl
    rw [flatMap_cons, mul_zero, zero_add,
      List.getElem?_append_left (by rw [h b mem_cons_self]; exact hi)]
  | b :: as, l + 1, a, h, hl => by
    have hb := h b mem_cons_self
    rw [flatMap_cons, List.getElem?_append_right (by rw [hb, Nat.mul_succ]; omega), hb,
      ← getElem?_flatMap_const hi (fun c hc => h c (mem_cons_of_mem _ hc))
        (by simpa using hl)]
    congr 1
    rw [Nat.mul_succ]
    omega

/-- The number of directory entries a loop `for(off = 0; off < size; off += sizeof(de))`
looks at. -/
def numEntries (size : UInt32) : ℕ := (size.toNat + DESIZE - 1) / DESIZE

/-- The next path element, cut to `DIRSIZ` bytes, and the path after it. -/
def skipelem (path : List UInt8) : Option (List UInt8 × List UInt8) :=
  let path := path.dropWhile (· = 47)
  if path.headD 0 = 0 then none
  else
    let elem := path.takeWhile fun c => c ≠ 47 ∧ c ≠ 0
    let rest := path.dropWhile fun c => c ≠ 47 ∧ c ≠ 0
    some (elem.take DIRSIZ, rest.dropWhile (· = 47))

namespace Fs

open Prog

variable {P : Type} [DecidableEq P] (M : Mount) (p : P)

/-- Read the `j`-th entry of a directory, or panic. -/
def readEntry (k : Slot) (j : ℕ) (msg : String) : Kernel P Dirent := do
  let (r, bs) ← readi M p k (UInt32.ofNat (DESIZE * j)) (UInt32.ofNat DESIZE)
  if r ≠ DESIZE then .panic msg else return Dirent.ofBytes bs

/-- Look for a directory entry in a directory. The result has the byte offset of the entry. -/
def dirlookup (k : Slot) (name : List UInt8) : Kernel P (Option (Slot × ℕ)) := do
  let dp ← load k
  if dp.type ≠ T_DIR then .panic "dirlookup not DIR"
  else
    search (fun j => do
      let de ← readEntry M p k j "dirlookup read"
      if de.inum = 0 then return none
      else if namecmp name de.name = 0 then
        let ip ← iget (← devOf k) de.inum
        return some (ip, DESIZE * j)
      else return none) 0 (numEntries dp.size)

/-- The offset of the first empty entry of a directory, or of its end. -/
def emptyEntry (k : Slot) : Kernel P ℕ := do
  let n := numEntries (← load k).size
  let r ← search (fun j => do
    let de ← readEntry M p k j "dirlink read"
    if de.inum = 0 then return some (DESIZE * j) else return none) 0 n
  return r.getD (DESIZE * n)

/-- Write an entry at an offset of a directory, or panic. -/
def writeEntry (k : Slot) (off : ℕ) (de : Dirent) (msg : String) : Kernel P Unit := do
  let r ← writei M p k (fun i => de.bytes.getD i 0) (UInt32.ofNat off) (UInt32.ofNat DESIZE)
  if r ≠ DESIZE then .panic msg else return ()

/-- Write a new directory entry `(name, inum)` into a directory. -/
def dirlink (k : Slot) (name : List UInt8) (inum : ℕ) : Kernel P ℤ := do
  match ← dirlookup M p k name with
  | some (ip, _) =>
    iput M p ip
    return -1
  | none =>
    let off ← emptyEntry M p k
    writeEntry M p k off ⟨inum, strncpy DIRSIZ name⟩ "dirlink"
    return 0

/-- The walk of `namex` from `ip` along `path`, with a bound on its passes. The result has
the last path element looked at. -/
def namexFrom (nameiparent : Bool) : ℕ → Slot → List UInt8 → List UInt8 →
    Kernel P (Option (Slot × List UInt8))
  | 0, ip, _, name => return some (ip, name)
  | fuel + 1, ip, path, name =>
    match skipelem path with
    | none => do
      if nameiparent then
        iput M p ip
        return none
      else return some (ip, name)
    | some (name, path) => do
      ilock M p ip .walk
      if (← load ip).type ≠ T_DIR then
        iunlockput M p ip
        return none
      else if nameiparent ∧ path.headD 0 = 0 then
        iunlock p ip
        return some (ip, name)
      else
        match ← dirlookup M p ip name with
        | none =>
          iunlockput M p ip
          return none
        | some (next, _) =>
          iunlockput M p ip
          namexFrom nameiparent fuel next path name

/-- Look up and return the inode for a path name, or for its parent. A process without a
current directory has exited. -/
def namex (path : List UInt8) (nameiparent : Bool) : Kernel P (Option (Slot × List UInt8)) := do
  if path.headD 0 = 47 then
    let ip ← iget ROOTDEV ROOTINO
    namexFrom M p nameiparent (path.length + 1) ip path []
  else
    match ((← getState).proc p).cwd with
    | none => .panic "trap"
    | some cwd =>
      let ip ← idup cwd
      namexFrom M p nameiparent (path.length + 1) ip path []

/-- `namei`. -/
def namei (path : List UInt8) : Kernel P (Option Slot) := do
  return (← namex M p path false).map Prod.fst

/-- `nameiparent`. -/
def nameiparent (path : List UInt8) : Kernel P (Option (Slot × List UInt8)) :=
  namex M p path true

end Fs

end Xv6
