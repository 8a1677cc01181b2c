import Mathlib.Tactic.TypeStar

/-!
# Outcomes of code that can fail

`Outcome m E Q` says that `m` ends with a result for which `Q` holds or with an error for which
`E` holds. With `E` false it is total correctness.
-/

namespace Xv6

variable {ε α β : Type}

/-- What a computation ends with. -/
@[irreducible] def Outcome (m : Except ε α) (E : ε → Prop) (Q : α → Prop) : Prop :=
  match m with
  | .ok a => Q a
  | .error e => E e

variable {m : Except ε α} {E E' : ε → Prop} {Q R : α → Prop}

theorem outcome_ok_iff {a : α} : Outcome (.ok a) E Q ↔ Q a := by
  unfold Outcome
  exact Iff.rfl

theorem outcome_error_iff {e : ε} : Outcome (.error e : Except ε α) E Q ↔ E e := by
  unfold Outcome
  exact Iff.rfl

theorem outcome_ok {a : α} (h : Q a) : Outcome (.ok a) E Q := outcome_ok_iff.2 h

theorem outcome_error {e : ε} (h : E e) : Outcome (.error e : Except ε α) E Q :=
  outcome_error_iff.2 h

theorem Outcome.of_ok {a : α} (h : Outcome m E Q) (hm : m = .ok a) : Q a :=
  outcome_ok_iff.1 (hm ▸ h)

/-- The rule for sequences. -/
theorem Outcome.bind {f : α → Except ε β} {R : β → Prop} (h : Outcome m E Q)
    (hf : ∀ a, Q a → Outcome (f a) E R) : Outcome (m >>= f) E R := by
  cases m with
  | ok a => exact hf a (outcome_ok_iff.1 h)
  | error e => exact outcome_error (outcome_error_iff.1 h)

theorem Outcome.map {f : α → β} {R : β → Prop} (h : Outcome m E fun a => R (f a)) :
    Outcome (m.map f) E R := by
  cases m with
  | ok a =>
    rw [outcome_ok_iff] at h
    exact outcome_ok h
  | error e => exact outcome_error (outcome_error_iff.1 h)

/-- What is known about a part `f` of the result. -/
theorem Outcome.of_map {m' : Except ε β} {f : α → β} {R : β → Prop} (h : Outcome m' E R)
    (hm : m.map f = m') : Outcome m E fun a => R (f a) := by
  subst hm
  cases m with
  | ok a => exact outcome_ok (outcome_ok_iff.1 h)
  | error e => exact outcome_error (outcome_error_iff.1 h)

/-- Two specifications of one computation. -/
theorem Outcome.and (h : Outcome m (fun _ => True) Q) (h' : Outcome m E R) :
    Outcome m E fun a => Q a ∧ R a := by
  cases m with
  | ok a => exact outcome_ok ⟨outcome_ok_iff.1 h, outcome_ok_iff.1 h'⟩
  | error e => exact outcome_error (outcome_error_iff.1 h')

theorem outcome_true : Outcome m (fun _ => True) fun _ => True := by
  cases m with
  | ok a => exact outcome_ok trivial
  | error e => exact outcome_error trivial

theorem Outcome.of_true (h : Outcome m E Q) : Outcome m (fun _ => True) Q := by
  cases m with
  | ok a => exact outcome_ok (outcome_ok_iff.1 h)
  | error e => exact outcome_error trivial

/-- The rule of consequence. -/
theorem Outcome.mono (h : Outcome m E Q) (hE : ∀ e, E e → E' e) (hQ : ∀ a, Q a → R a) :
    Outcome m E' R := by
  cases m with
  | ok a => exact outcome_ok (hQ a (outcome_ok_iff.1 h))
  | error e => exact outcome_error (hE e (outcome_error_iff.1 h))

theorem Outcome.imp (h : Outcome m E Q) (hQ : ∀ a, Q a → R a) : Outcome m E R :=
  h.mono (fun _ he => he) hQ

/-- Code that does not fail can be part of code that does. -/
theorem Outcome.weaken (h : Outcome m (fun _ => False) Q) : Outcome m E Q :=
  h.mono (fun _ he => he.elim) fun _ ha => ha

/-- A computation that cannot fail has a result. -/
theorem Outcome.exists_ok (h : Outcome m (fun _ => False) Q) : ∃ a, m = .ok a ∧ Q a := by
  cases m with
  | ok a => exact ⟨a, rfl, outcome_ok_iff.1 h⟩
  | error e => exact (outcome_error_iff.1 h).elim

/-- The rule for a loop over a list. `J` is also about the part of the list that is left. -/
theorem Outcome.foldlM {f : β → α → Except ε β} (J : List α → β → Prop)
    (hf : ∀ a as b, J (a :: as) b → Outcome (f b a) E (J as)) :
    ∀ (as : List α) (b : β), J as b → Outcome (as.foldlM f b) E (J [])
  | [], _, h => outcome_ok h
  | a :: as, b, h => (hf a as b h).bind fun b' h' => foldlM J hf as b' h'

theorem ok_bind {a : α} {b : α → Except ε β} : (Except.ok a >>= b) = b a := rfl

theorem error_bind {e : ε} {b : α → Except ε β} :
    ((Except.error e : Except ε α) >>= b) = .error e := rfl

/-- A part of the result of a sequence comes from the parts of the results in it. -/
theorem map_bind_eq {α' β' : Type} {f : α → α'} {g : β → β'} {b : α → Except ε β}
    {c : α' → Except ε β'} {m' : Except ε α'} (hm : m.map f = m')
    (hb : ∀ a, (b a).map g = c (f a)) : (m >>= b).map g = m' >>= c := by
  subst hm
  cases m with
  | ok a => exact hb a
  | error e => rfl

end Xv6
