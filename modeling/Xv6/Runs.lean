import Mathlib.Data.List.Basic

/-!
# Runs of a transition system

A system is a partial step function `S → A → Option S`. A run is a list of
actions (`exec`), and `Along ok` says that every step of a run satisfies `ok` in
the state before it. An invariant is shown once per step and then holds at the
end of every run (`exec_invariant`). What an observer writes down along a run is a
function of the run (`record`), and is followed step by step (`exec_record`).
States that are functions change in one place at a time (`update_cases`).
-/

namespace Xv6

open List Option

variable {S A : Type*} (step : S → A → Option S)
variable {s : S} {as : List A} {ok : S → A → Prop}

/-- The state after a list of actions, if all of them are enabled in turn. -/
def exec : S → List A → Option S
  | s, [] => some s
  | s, a :: as => (step s a).bind fun t => exec t as

/-- Every action of a run satisfies `ok` in the state before it. -/
def Along (ok : S → A → Prop) : S → List A → Prop
  | _, [] => True
  | s, a :: as => ok s a ∧ ∀ t, step s a = some t → Along ok t as

/-- What is written down along a run. `note` gets the state before each step. -/
def record {H : Type*} (note : S → A → H → H) : S → H → List A → H
  | _, h, [] => h
  | s, h, a :: as =>
    match step s a with
    | none => h
    | some t => record note t (note s a h) as

variable {step}

theorem exec_cons_eq_some {u : S} {a : A} :
    exec step s (a :: as) = some u ↔ ∃ t, step s a = some t ∧ exec step t as = some u := by
  simp [exec, bind_eq_some_iff]

theorem along_cons_of_none {a : A} (h : step s a = none) : ok s a ↔ Along step ok s (a :: as) := by
  simp [Along, h]

theorem along_cons_of_some {t : S} {a : A} (h : step s a = some t) :
    ok s a ∧ Along step ok t as ↔ Along step ok s (a :: as) := by
  simp [Along, h]

instance decidableAlong {ok : S → A → Prop} [∀ s a, Decidable (ok s a)] :
    ∀ (s : S) (as : List A), Decidable (Along step ok s as)
  | _, [] => isTrue trivial
  | s, a :: as =>
    match h : step s a with
    | none => decidable_of_iff _ (along_cons_of_none h)
    | some t =>
      have : Decidable (Along step ok t as) := decidableAlong t as
      decidable_of_iff _ (along_cons_of_some h)

theorem exec_append {u : S} (as bs : List A) :
    exec step s (as ++ bs) = some u ↔ ∃ t, exec step s as = some t ∧ exec step t bs = some u := by
  induction as generalizing s with
  | nil => simp [exec]
  | cons a as ih =>
    simp only [cons_append, exec_cons_eq_some, ih]
    constructor
    · rintro ⟨t, ht, t', ht', hu⟩
      exact ⟨t', ⟨t, ht, ht'⟩, hu⟩
    · rintro ⟨t', ⟨t, ht, ht'⟩, hu⟩
      exact ⟨t, ht, t', ht', hu⟩

theorem Along.mono {ok' : S → A → Prop} (h : ∀ s a, ok s a → ok' s a) :
    ∀ {s : S} {as : List A}, Along step ok s as → Along step ok' s as
  | _, [], _ => trivial
  | _, _ :: _, ⟨ha, has⟩ => ⟨h _ _ ha, fun t ht => (has t ht).mono h⟩

/-- What holds at the start and is kept by every step holds at the end of every run. -/
theorem exec_invariant (I : S → Prop) (hstep : ∀ s a t, I s → ok s a → step s a = some t → I t) :
    ∀ {s u : S} {as : List A}, I s → Along step ok s as → exec step s as = some u → I u
  | s, u, [], hs, _, hu => by
    obtain rfl := some.inj hu
    exact hs
  | s, u, a :: as, hs, ⟨ha, has⟩, hu => by
    obtain ⟨t, ht, hu⟩ := exec_cons_eq_some.1 hu
    exact exec_invariant I hstep (hstep s a t hs ha ht) (has t ht) hu

/-- A step condition that follows from an invariant holds along every run. -/
theorem Along.of_invariant {ok' : S → A → Prop} (I : S → Prop)
    (hstep : ∀ s a t, I s → ok s a → step s a = some t → I t)
    (hok : ∀ s a, I s → ok s a → ok' s a) :
    ∀ {s : S} {as : List A}, I s → Along step ok s as → Along step ok' s as
  | _, [], _, _ => trivial
  | s, a :: _, hs, ⟨ha, has⟩ =>
    ⟨hok s a hs ha, fun t ht => of_invariant I hstep hok (hstep s a t hs ha ht) (has t ht)⟩

/-- A condition on the actions alone. -/
theorem along_of_forall {ok : A → Prop} : ∀ {s : S} {as : List A}, (∀ a ∈ as, ok a) →
    Along step (fun _ a => ok a) s as
  | _, [], _ => trivial
  | _, _ :: _, h => ⟨h _ mem_cons_self, fun _ _ =>
      along_of_forall fun a ha => h a (mem_cons_of_mem _ ha)⟩

theorem along_true : Along step (fun _ _ => True) s as :=
  along_of_forall fun _ _ => trivial

theorem exec_invariant_all (I : S → Prop) (hstep : ∀ s a t, I s → step s a = some t → I t) {u : S}
    (hs : I s) (hu : exec step s as = some u) : I u :=
  exec_invariant I (fun s a t h _ => hstep s a t h) hs along_true hu

/-- What holds of the start and of an empty record and is kept by every step holds of the end
of every run and of its record. -/
theorem exec_record {H : Type*} {note : S → A → H → H} (I : S → H → Prop)
    (hstep : ∀ s a t h, I s h → ok s a → step s a = some t → I t (note s a h)) :
    ∀ {s u : S} {h : H} {as : List A}, I s h → Along step ok s as → exec step s as = some u →
      I u (record step note s h as)
  | s, u, h, [], hs, _, hu => by
    obtain rfl := some.inj hu
    exact hs
  | s, u, h, a :: as, hs, ⟨ha, has⟩, hu => by
    obtain ⟨t, ht, hu⟩ := exec_cons_eq_some.1 hu
    have := exec_record I hstep (hstep s a t h hs ha ht) (has t ht) hu
    simpa only [record, ht] using this

/-- If the steps that satisfy `ok` keep an invariant and every other step leads to a state
without `Q`, which the invariant implies, then `Q` holds throughout a run exactly when all its
steps satisfy `ok`. -/
theorem along_iff (I Q : S → Prop) (hkeep : ∀ s a t, I s → ok s a → step s a = some t → I t)
    (hneed : ∀ s a t, I s → step s a = some t → Q t → ok s a) (hQ : ∀ s, I s → Q s) :
    ∀ {s u : S} {as : List A}, I s → exec step s as = some u →
      ((∀ pre suf v, as = pre ++ suf → exec step s pre = some v → Q v) ↔ Along step ok s as)
  | s, u, [], hs, _ => by
    refine ⟨fun _ => trivial, fun _ pre suf v he hv => ?_⟩
    obtain ⟨rfl, rfl⟩ := nil_eq_append_iff.1 he
    obtain rfl := some.inj hv
    exact hQ s hs
  | s, u, a :: as, hs, hu => by
    obtain ⟨t, ht, hu⟩ := exec_cons_eq_some.1 hu
    refine ⟨fun h => ?_, fun h pre suf v he hv => ?_⟩
    · have hok := hneed s a t hs ht (h [a] as t rfl (by simp [exec, ht]))
      refine ⟨hok, fun t' ht' => ?_⟩
      obtain rfl := some.inj (ht.symm.trans ht')
      refine (along_iff I Q hkeep hneed hQ (hkeep s a t hs hok ht) hu).1 fun pre suf v he hv =>
        h (a :: pre) suf v (by rw [he]; rfl) ?_
      exact exec_cons_eq_some.2 ⟨t, ht, hv⟩
    · cases pre with
      | nil =>
        obtain rfl := some.inj hv
        exact hQ s hs
      | cons b pre =>
        obtain ⟨rfl, rfl⟩ := cons.inj he
        obtain ⟨t', ht', hv⟩ := exec_cons_eq_some.1 hv
        obtain rfl := some.inj (ht.symm.trans ht')
        exact (along_iff I Q hkeep hneed hQ (hkeep s a t hs h.1 ht) hu).2
          (h.2 t ht) pre suf v rfl hv

/-- A component of the state is changed in one place. -/
@[elab_as_elim]
theorem update_cases {ι V : Type*} [DecidableEq ι] {f : ι → V} {i : ι} {v : V} {p : ι → V → Prop}
    (j : ι) (new : p i v) (old : j ≠ i → p j (f j)) : p j (Function.update f i v j) := by
  by_cases h : j = i
  · subst h
    rwa [Function.update_self]
  · rw [Function.update_of_ne h]
    exact old h

end Xv6
