import Mathlib.Data.List.Range
import Mathlib.Data.Fin.Basic
import Mathlib.Data.Nat.ModEq
import Mathlib.Logic.Function.Basic
import Mathlib.Tactic.Common

/-!
# Circular buffers

`ring f a n` are the `n` elements of a buffer of size `N` from index `a` on, where indices are
taken modulo `N`. An element is stored behind them (`ring_push`) or taken from the front
(`ring_pop`), and storing behind them leaves them alone (`ring_store`).
-/

namespace Xv6

open Function List

variable {α : Type*} {N : ℕ} [NeZero N]

/-- `n` elements of a circular buffer, from `a` on. -/
def ring (f : Fin N → α) (a n : ℕ) : List α := (List.range n).map fun i => f (Fin.ofNat N (a + i))

@[simp]
theorem length_ring (f : Fin N → α) (a n : ℕ) : (ring f a n).length = n := by simp [ring]

theorem ring_congr (f : Fin N → α) {a b : ℕ} (h : a % N = b % N) (n : ℕ) :
    ring f a n = ring f b n := by
  have hidx : ∀ i, Fin.ofNat N (a + i) = Fin.ofNat N (b + i) := fun i =>
    Fin.ext (Nat.ModEq.add_right i h)
  simp only [ring, hidx]

theorem ring_pop (f : Fin N → α) (a n : ℕ) :
    ring f a (n + 1) = f (Fin.ofNat N a) :: ring f (a + 1) n := by
  simp only [ring, range_succ_eq_map, map_cons, map_map, add_zero]
  refine congrArg _ (map_congr_left fun i _ => ?_)
  simp only [comp_apply, Nat.succ_eq_add_one]
  rw [show a + (i + 1) = a + 1 + i by omega]

theorem ring_append (f : Fin N → α) (a m n : ℕ) :
    ring f a (m + n) = ring f a m ++ ring f (a + m) n := by
  simp only [ring, range_add, map_append, map_map]
  refine congrArg _ (map_congr_left fun i _ => ?_)
  simp only [comp_apply, add_assoc]

/-- Two indices less than `N` apart differ modulo `N`. -/
theorem ofNat_ne_of_lt (a : ℕ) {i n : ℕ} (hi : i < n) (h : n < N) :
    Fin.ofNat N (a + i) ≠ Fin.ofNat N (a + n) := fun he => by
  have hmod : (a + i) % N = (a + n) % N := congrArg Fin.val he
  have := (Nat.ModEq.add_left_cancel' a hmod).eq_of_lt_of_lt (hi.trans h) h
  omega

theorem ring_store (f : Fin N → α) (a : ℕ) {m n : ℕ} (hm : m ≤ n) (h : n < N) (x : α) :
    ring (update f (Fin.ofNat N (a + n)) x) a m = ring f a m :=
  map_congr_left fun _ hi =>
    update_of_ne (ofNat_ne_of_lt a ((mem_range.1 hi).trans_le hm) h) _ _

theorem ring_push (f : Fin N → α) (a : ℕ) {n : ℕ} (h : n < N) (x : α) :
    ring (update f (Fin.ofNat N (a + n)) x) a (n + 1) = ring f a n ++ [x] := by
  rw [ring_append, ring_store f a le_rfl h]
  simp [ring]

end Xv6
