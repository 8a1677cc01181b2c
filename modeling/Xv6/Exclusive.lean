import Xv6.Runs
import Mathlib.Logic.Function.Basic
import Mathlib.Data.Nat.Notation

/-!
# Exclusive ownership of units

A family of places `o : ι → ℕ` holds units of an area, `0` standing for no unit, and a
set `used` marks the units in use. `Exclusive` says that no unit is in two places and
that exactly the marked units of the area are in some place. Taking a free unit,
dropping one, and moving one from a place to another keep it (`take`, `drop`, `move`).
-/

set_option linter.unusedSectionVars false

namespace Xv6

open Function

/-- No unit is in two places, and the units of the area in use are those in some place. -/
structure Exclusive {ι : Type} (area used : ℕ → Prop) (o : ι → ℕ) : Prop where
  not_zero : ¬ area 0
  mem : ∀ i, o i ≠ 0 → area (o i)
  inj : ∀ i j, o i ≠ 0 → o i = o j → i = j
  used_iff : ∀ b, area b → (used b ↔ ∃ i, o i = b)

namespace Exclusive

variable {ι : Type} [DecidableEq ι] {area used u : ℕ → Prop} {o : ι → ℕ} {i j : ι} {b : ℕ}

section

variable (h : Exclusive area used o)

include h

theorem used_of_eq (hi : o i = b) (hb : b ≠ 0) : used b :=
  (h.used_iff b (hi ▸ h.mem i (hi ▸ hb))).2 ⟨i, hi⟩

theorem congr (hu : ∀ b, area b → (u b ↔ used b)) :
    Exclusive area u o :=
  { h with used_iff := fun b hb => (hu b hb).trans (h.used_iff b hb) }

/-- An empty place takes a free unit. -/
theorem take (hi : o i = 0) (hb : area b) (hfree : ¬ used b)
    (hu : ∀ c, area c → (u c ↔ used c ∨ c = b)) :
    Exclusive area u (update o i b) := by
  have hne : ∀ j, o j ≠ b := fun j hj => hfree ((h.used_iff b hb).2 ⟨j, hj⟩)
  refine ⟨h.not_zero, fun j => update_cases j (fun _ => hb) fun _ => h.mem j, fun j k => ?_,
    fun c hc => ?_⟩
  · refine update_cases j (update_cases k (fun _ _ => rfl) fun _ _ hjk => ?_) fun _ =>
      update_cases k (fun _ hjk => ?_) fun _ => h.inj j k
    · exact absurd hjk.symm (hne k)
    · exact absurd hjk (hne j)
  · rw [hu c hc, h.used_iff c hc]
    constructor
    · rintro (⟨j, hj⟩ | rfl)
      · refine ⟨j, ?_⟩
        have hji : j ≠ i := by
          rintro rfl
          exact h.not_zero (hi ▸ hj ▸ hc)
        rwa [update_of_ne hji]
      · exact ⟨i, update_self ..⟩
    · rintro ⟨j, hj⟩
      revert hj
      exact update_cases j (fun hj => Or.inr hj.symm) fun _ hj => Or.inl ⟨j, hj⟩

/-- A place gives its unit back. -/
theorem drop (hi : o i ≠ 0) (hu : ∀ c, area c → (u c ↔ used c ∧ c ≠ o i)) :
    Exclusive area u (update o i 0) := by
  refine ⟨h.not_zero, fun j => update_cases j (fun hj => absurd rfl hj) fun _ => h.mem j,
    fun j k => update_cases j (fun hj => absurd rfl hj) fun _ =>
      update_cases k (fun hj hjk => absurd hjk hj) fun _ => h.inj j k, fun c hc => ?_⟩
  · rw [hu c hc, h.used_iff c hc]
    constructor
    · rintro ⟨⟨j, hj⟩, hne⟩
      refine ⟨j, ?_⟩
      have hji : j ≠ i := by
        rintro rfl
        exact hne hj.symm
      rwa [update_of_ne hji]
    · rintro ⟨j, hj⟩
      by_cases hji : j = i
      · rw [hji, update_self] at hj
        exact absurd (hj ▸ hc) h.not_zero
      · rw [update_of_ne hji] at hj
        refine ⟨⟨j, hj⟩, fun hc' => hji (h.inj j i ?_ (hj.trans hc'))⟩
        rw [hj, hc']
        exact hi

/-- A unit moves from one place to an empty one. -/
theorem move (hij : i ≠ j) (hj : o j = 0) :
    Exclusive area used (update (update o j (o i)) i 0) := by
  by_cases hi : o i = 0
  · have hsame : update (update o j (o i)) i 0 = o := by
      rw [hi, ← hj, update_eq_self, hj, ← hi, update_eq_self]
    rwa [hsame]
  · -- The unit is given back and taken again.
    have hdrop := h.drop (u := fun c => used c ∧ c ≠ o i) hi fun c _ => Iff.rfl
    have hj' : update o i 0 j = 0 := by rw [update_of_ne hij.symm, hj]
    have htake := hdrop.take (u := used) hj' (h.mem i hi) (fun hc => hc.2 rfl) fun c hc => by
      by_cases hci : c = o i
      · simp [hci, h.used_of_eq rfl hi]
      · simp [hci]
    rwa [update_comm hij.symm]

end

end Exclusive

end Xv6
