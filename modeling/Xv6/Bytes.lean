import Mathlib.Data.List.Basic
import Mathlib.Data.Nat.Basic
import Mathlib.Tactic.Ring

/-!
# Byte arrays and little-endian numbers

A fixed-size byte array is a function on its indices (`Bytes n`). Two
operations move bytes between an array and a list : `slice` copies out,
`blit` copies in. Every structured access (a word, a record, a directory
entry) is a `slice` followed by a decoder or an encoder followed by a `blit`,
so the two laws `slice_blit_self` and `slice_blit_of_disjoint` are all that a
layout needs.

`leBytes k x` are the `k` little-endian bytes of `x`, and `leNat` reads them
back modulo `256 ^ k` (`leNat_leBytes`).
-/

namespace Xv6

open List

/-- The `k` low bytes of `x`, least significant first. -/
def leBytes : ℕ → ℕ → List UInt8
  | 0, _ => []
  | k + 1, x => UInt8.ofNat x :: leBytes k (x / 256)

/-- The number a little-endian byte list denotes. -/
def leNat : List UInt8 → ℕ
  | [] => 0
  | b :: bs => b.toNat + 256 * leNat bs

@[simp] theorem length_leBytes : ∀ k x, (leBytes k x).length = k
  | 0, _ => rfl
  | k + 1, x => by simp [leBytes, length_leBytes k]

/-- Decoding the encoding of `x` gives `x` modulo the width. -/
theorem leNat_leBytes : ∀ k x, leNat (leBytes k x) = x % 256 ^ k
  | 0, x => by simp [leBytes, leNat, Nat.mod_one]
  | k + 1, x => by
    have hb : (UInt8.ofNat x).toNat = x % 256 := by simp
    rw [leBytes, leNat, leNat_leBytes k, hb, pow_succ, mul_comm (256 ^ k) 256, Nat.mod_mul]

theorem leNat_leBytes_of_lt {k x : ℕ} (h : x < 256 ^ k) : leNat (leBytes k x) = x := by
  rw [leNat_leBytes, Nat.mod_eq_of_lt h]

theorem leNat_lt : ∀ bs : List UInt8, leNat bs < 256 ^ bs.length
  | [] => by simp [leNat]
  | b :: bs => by
    have hb := b.toNat_lt
    have ih := leNat_lt bs
    have hp : 256 ^ (b :: bs).length = 256 * 256 ^ bs.length := by
      rw [length_cons, pow_succ, mul_comm]
    rw [leNat, hp]
    omega

/-- Encoding the number that bytes denote gives the bytes. -/
theorem leBytes_leNat : ∀ bs : List UInt8, leBytes bs.length (leNat bs) = bs
  | [] => rfl
  | b :: bs => by
    have hb := b.toNat_lt
    have hdiv : (b.toNat + 256 * leNat bs) / 256 = leNat bs := by omega
    have hmod : UInt8.ofNat (b.toNat + 256 * leNat bs) = b := by
      rw [← UInt8.toNat_inj, UInt8.toNat_ofNat']
      omega
    rw [length_cons, leNat, leBytes, hdiv, hmod, leBytes_leNat bs]

theorem leNat_replicate_zero : ∀ k, leNat (List.replicate k 0) = 0
  | 0 => rfl
  | k + 1 => by simp [replicate_succ, leNat, leNat_replicate_zero k]

/-- The bytes of a list of 32-bit words. -/
def leWords : List ℕ → List UInt8
  | [] => []
  | w :: ws => leBytes 4 w ++ leWords ws

@[simp] theorem length_leWords : ∀ ws, (leWords ws).length = 4 * ws.length
  | [] => rfl
  | w :: ws => by simp [leWords, length_leWords ws]; omega

theorem take_drop_leWords : ∀ {ws : List ℕ} {i : ℕ} (hi : i < ws.length),
    ((leWords ws).drop (4 * i)).take 4 = leBytes 4 ws[i]
  | w :: ws, 0, _ => by
    rw [leWords, mul_zero, drop_zero, take_left' (length_leBytes 4 w)]
    rfl
  | w :: ws, i + 1, hi => by
    have h : (leBytes 4 w ++ leWords ws).drop (4 * (i + 1)) = (leWords ws).drop (4 * i) := by
      rw [Nat.mul_succ, add_comm, ← drop_drop, drop_left' (length_leBytes 4 w)]
    rw [leWords, h, take_drop_leWords (by simpa using hi), getElem_cons_succ]

/-- A byte array of fixed size. -/
abbrev Bytes (n : ℕ) := Fin n → UInt8

namespace Bytes

variable {n : ℕ}

/-- The array of zeros (`memset` to 0). -/
def zero (n : ℕ) : Bytes n := fun _ => 0

/-- The byte at an index, zero past the end. -/
def get (a : Bytes n) (i : ℕ) : UInt8 :=
  if h : i < n then a ⟨i, h⟩ else 0

/-- `memmove` out : the `m` bytes from offset `off`. -/
def slice (a : Bytes n) (off m : ℕ) : List UInt8 :=
  (List.range m).map fun k => a.get (off + k)

/-- `memmove` in : the bytes `src` stored at offset `off`. -/
def blit (a : Bytes n) (off : ℕ) (src : List UInt8) : Bytes n := fun j =>
  if off ≤ j.val then (src[j.val - off]?).getD (a j) else a j

@[simp] theorem length_slice (a : Bytes n) (off m : ℕ) : (a.slice off m).length = m := by
  simp [slice]

theorem getElem?_slice (a : Bytes n) (off m k : ℕ) :
    (a.slice off m)[k]? = if k < m then some (a.get (off + k)) else none := by
  unfold slice
  split_ifs with h
  · simp [List.getElem?_range h]
  · simp [Nat.le_of_not_lt h]

@[simp] theorem get_zero (i : ℕ) : (zero n).get i = 0 := by
  unfold get zero
  split_ifs <;> rfl

theorem slice_zero (off m : ℕ) : (zero n).slice off m = List.replicate m 0 := by
  simp [slice, map_const', length_range]

/-- Inside the stored range the array holds the stored bytes. -/
theorem get_blit_of_lt (a : Bytes n) (off : ℕ) {k : ℕ} {src : List UInt8} (hk : k < src.length)
    (hn : off + k < n) : (a.blit off src).get (off + k) = src[k] := by
  simp [get, blit, hn, hk]

/-- Outside the stored range the array is unchanged. -/
theorem get_blit_of_not_mem (a : Bytes n) {off i : ℕ} {src : List UInt8}
    (h : i < off ∨ off + src.length ≤ i) : (a.blit off src).get i = a.get i := by
  unfold get blit
  split_ifs with hi ho
  · have : src[i - off]? = none := List.getElem?_eq_none (by simp at ho; omega)
    simp [this]
  · rfl
  · rfl

theorem slice_blit_self (a : Bytes n) (off : ℕ) (src : List UInt8)
    (h : off + src.length ≤ n) : (a.blit off src).slice off src.length = src := by
  refine ext_getElem (by simp) fun k hk hk' => ?_
  simp only [slice, getElem_map, getElem_range]
  exact get_blit_of_lt a off hk' (by omega)

theorem slice_blit_of_disjoint (a : Bytes n) {off off' m : ℕ} {src : List UInt8}
    (h : off' + m ≤ off ∨ off + src.length ≤ off') :
    (a.blit off src).slice off' m = a.slice off' m := by
  unfold slice
  refine map_congr_left fun k hk => ?_
  rw [mem_range] at hk
  exact get_blit_of_not_mem a (by omega)

/-- Reading a part of the stored range. -/
theorem slice_blit_of_le (a : Bytes n) {off k m : ℕ} {src : List UInt8} (hk : k + m ≤ src.length)
    (hn : off + src.length ≤ n) : (a.blit off src).slice (off + k) m = (src.drop k).take m := by
  refine ext_getElem (by simp; omega) fun j hj hj' => ?_
  simp only [length_slice] at hj
  simp only [slice, getElem_map, getElem_range, getElem_take, getElem_drop,
    add_assoc]
  exact get_blit_of_lt a off (by omega) (by omega)

/-- Two arrays that agree at every index are equal. -/
theorem ext_get {a b : Bytes n} (h : ∀ i < n, a.get i = b.get i) : a = b := by
  funext i
  simpa [get] using h i.val i.isLt

/-! ## Words -/

/-- The `j`-th 32-bit word. -/
def word (a : Bytes n) (j : ℕ) : ℕ := leNat (a.slice (4 * j) 4)

/-- Store the `j`-th 32-bit word. -/
def setWord (a : Bytes n) (j v : ℕ) : Bytes n := a.blit (4 * j) (leBytes 4 v)

theorem word_lt (a : Bytes n) (j : ℕ) : a.word j < 2 ^ 32 := by
  have := leNat_lt (a.slice (4 * j) 4)
  simpa [word] using this

theorem word_setWord_self (a : Bytes n) {j v : ℕ} (hj : 4 * j + 4 ≤ n) (hv : v < 2 ^ 32) :
    (a.setWord j v).word j = v := by
  have h := slice_blit_self a (4 * j) (leBytes 4 v) (by simpa using hj)
  rw [length_leBytes] at h
  rw [word, setWord, h, leNat_leBytes_of_lt (by simpa using hv)]

theorem word_setWord_of_ne (a : Bytes n) {i j : ℕ} (v : ℕ) (h : i ≠ j) :
    (a.setWord j v).word i = a.word i := by
  rw [word, setWord, slice_blit_of_disjoint a (by simp; omega), word]

/-- Two arrays that agree at every word are equal. -/
theorem ext_word {a b : Bytes n} (h : ∀ j, a.word j = b.word j) : a = b := by
  refine ext_get fun i hi => ?_
  have hslice : a.slice (4 * (i / 4)) 4 = b.slice (4 * (i / 4)) 4 := by
    have ha := leBytes_leNat (a.slice (4 * (i / 4)) 4)
    have hb := leBytes_leNat (b.slice (4 * (i / 4)) 4)
    rw [length_slice] at ha hb
    rw [← ha, ← hb]
    exact congrArg (leBytes 4) (h (i / 4))
  have hget := congrArg (·[i % 4]?) hslice
  have hlt := Nat.mod_lt i (show 0 < 4 by decide)
  simpa only [getElem?_slice, if_pos hlt, Option.some.injEq, Nat.div_add_mod] using hget

@[simp] theorem word_zero (j : ℕ) : (zero n).word j = 0 := by
  rw [word, slice_zero, leNat_replicate_zero]

/-- The words stored by a `memmove` of whole words. -/
theorem word_blit_leWords (a : Bytes n) {j i : ℕ} {ws : List ℕ} (hi : i < ws.length)
    (hn : 4 * j + 4 * ws.length ≤ n) (hw : ws[i] < 2 ^ 32) :
    (a.blit (4 * j) (leWords ws)).word (j + i) = ws[i] := by
  have hlen : 4 * i + 4 ≤ (leWords ws).length := by rw [length_leWords]; omega
  have h := slice_blit_of_le a hlen (by rwa [length_leWords])
  rw [word, mul_add, h, take_drop_leWords hi, leNat_leBytes_of_lt (by simpa using hw)]

theorem word_blit_leWords_of_disjoint (a : Bytes n) {j i : ℕ} {ws : List ℕ}
    (h : i < j ∨ j + ws.length ≤ i) : (a.blit (4 * j) (leWords ws)).word i = a.word i := by
  rw [word, slice_blit_of_disjoint a (by rw [length_leWords]; omega), word]

end Bytes

end Xv6
