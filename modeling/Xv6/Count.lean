import Mathlib.Algebra.BigOperators.Group.Finset.Piecewise
import Mathlib.Data.Fintype.Basic
import Mathlib.Algebra.Order.BigOperators.Group.Finset

/-!
# Counting over a table

A system keeps one entry per process, and a counter of the whole is a sum of a
weight over the table. When one entry changes the sum changes by the weights of
the old and the new entry (`sum_update_add`), so a step preserves such a counter
by linear arithmetic.
-/

namespace Xv6

open Finset Function

variable {P α α' : Type*} [Fintype P] [DecidableEq P]

/-- Replacing one entry trades its weight for the new one. A weight may depend on the place. -/
theorem sum_update_weight {M : Type*} [AddCommMonoid M] (w : P → α → M) (f : P → α) (p : P)
    (a : α) :
    ∑ q, w q (update f p a q) + w p (f p) = ∑ q, w q (f q) + w p a := by
  have h : (fun q => w q (update f p a q)) =
      update (fun q => w q (f q)) p (w p a) := by
    funext q
    by_cases hq : q = p
    · subst hq
      simp
    · simp [hq]
  rw [h, sum_update_of_mem (mem_univ p), ← sum_sdiff (subset_univ {p})]
  simp only [sum_singleton]
  rw [add_assoc, add_comm]

theorem sum_update_add (w : α → ℕ) (f : P → α) (p : P) (a : α) :
    ∑ q, w (update f p a q) + w (f p) = ∑ q, w (f q) + w a :=
  sum_update_weight (fun _ => w) f p a

omit [DecidableEq P] in
/-- Every entry counts for at most the whole. -/
theorem weight_le_sum (w : α → ℕ) (f : P → α) (p : P) : w (f p) ≤ ∑ q, w (f q) :=
  single_le_sum_of_canonicallyOrdered (f := fun q => w (f q)) (mem_univ p)

omit [DecidableEq P] in
/-- Two entries that count are one when the whole counts for at most 1. -/
theorem eq_of_sum_le_one (w : α → ℕ) {f : P → α} (h : ∑ r, w (f r) ≤ 1) {p q : P}
    (hp : w (f p) = 1) (hq : w (f q) = 1) : p = q := by
  classical
  by_contra hpq
  have hle : ∑ r ∈ {p, q}, w (f r) ≤ ∑ r, w (f r) :=
    sum_le_sum_of_subset (subset_univ _)
  rw [sum_pair hpq] at hle
  omega

/-! ## Totals

The same for weights in any monoid. A total is irreducible, so that a table with many entries is
never written out. -/

section

variable {M : Type*} [AddCommMonoid M] {w w' : P → α → M} {f f' : P → α}

omit [DecidableEq P] in
/-- The weight of a whole table. -/
@[irreducible] def total (w : P → α → M) (f : P → α) : M := ∑ q, w q (f q)

theorem total_update (w : P → α → M) (f : P → α) (p : P) (a : α) :
    total w (update f p a) + w p (f p) = total w f + w p a := by
  unfold total
  exact sum_update_weight w f p a

omit [DecidableEq P] in
theorem total_congr (h : ∀ q, w q (f q) = w' q (f' q)) : total w f = total w' f' := by
  unfold total
  exact sum_congr rfl fun q _ => h q

omit [DecidableEq P] in
theorem total_eq_zero (h : ∀ q, w q (f q) = 0) : total w f = 0 := by
  unfold total
  exact sum_eq_zero fun q _ => h q

omit [DecidableEq P] in
theorem mem_total {w : P → α → Multiset α'} {f : P → α} {x : α'} :
    x ∈ total w f ↔ ∃ q, x ∈ w q (f q) := by
  rw [total, Multiset.mem_sum]
  simp

omit [DecidableEq P] in
theorem weight_le_total (w : P → α → Multiset α') (f : P → α) (p : P) :
    w p (f p) ≤ total w f := by
  rw [total]
  exact single_le_sum_of_canonicallyOrdered (f := fun q => w q (f q)) (mem_univ p)

omit [DecidableEq P] in
theorem card_total_le {w : P → α → Multiset α'} {f : P → α} {c : P → Prop} [DecidablePred c]
    (h : ∀ q, (w q (f q)).card ≤ if c q then 1 else 0) :
    (total w f).card ≤ (univ.filter c).card := by
  rw [total, Multiset.card_sum, card_filter]
  exact sum_le_sum fun q _ => h q

end

end Xv6
