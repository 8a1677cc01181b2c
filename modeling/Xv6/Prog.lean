import Xv6.Runs
import Mathlib.Logic.Function.Basic

/-!
# Programs of concurrent processes

A program over a shared state `σ` returns, panics, acts on the state in one atomic
step, or waits until an atomic step is enabled (`await`, labelled with what it waits
for). `run` executes a program alone, and `Returns` says that it then comes to an end.
`Ends` also says how it may stop.
-/

namespace Xv6

open Option

/-- A program over the state `σ` that returns an `α`. -/
inductive Prog (σ W α : Type) : Type where
  | ret (a : α)
  | panic (msg : String)
  /-- One atomic step. The rest of the program sees the state before it. -/
  | act (f : σ → σ) (k : σ → Prog σ W α)
  /-- Wait for `w` until the step is enabled, and make it. -/
  | await (w : W) (f : σ → Option σ) (k : σ → Prog σ W α)

/-- How a program stops without returning. -/
inductive Stop (W : Type) where
  | panic (msg : String)
  | blocked (w : W)
deriving DecidableEq

namespace Prog

variable {σ W α β : Type}

protected def bind : Prog σ W α → (α → Prog σ W β) → Prog σ W β
  | ret a, f => f a
  | panic msg, _ => panic msg
  | act g k, f => act g fun s => (k s).bind f
  | await w g k, f => await w g fun s => (k s).bind f

instance : Monad (Prog σ W) where
  pure := ret
  bind := Prog.bind

theorem bind_ret : ∀ x : Prog σ W α, x.bind ret = x
  | ret _ => rfl
  | panic _ => rfl
  | act g k => congrArg (act g) (funext fun s => bind_ret (k s))
  | await w g k => congrArg (await w g) (funext fun s => bind_ret (k s))

theorem bind_bind {γ : Type} (f : α → Prog σ W β) (g : β → Prog σ W γ) :
    ∀ x : Prog σ W α, (x.bind f).bind g = x.bind fun a => (f a).bind g
  | ret _ => rfl
  | panic _ => rfl
  | act h k => congrArg (act h) (funext fun s => bind_bind f g (k s))
  | await w h k => congrArg (await w h) (funext fun s => bind_bind f g (k s))

instance : LawfulMonad (Prog σ W) :=
  LawfulMonad.mk' _ bind_ret (fun _ _ => rfl) fun x f g => bind_bind f g x

/-- The current state. -/
def getState : Prog σ W σ := act id ret

/-- Change the state in one step. -/
def modifyState (f : σ → σ) : Prog σ W Unit := act f fun _ => ret ()

/-- A section that runs without interruption and may panic. -/
def atomic (g : StateT σ (Except String) α) : Prog σ W α :=
  act (fun s => match g s with
      | .ok (_, t) => t
      | .error _ => s)
    fun s => match g s with
      | .ok (a, _) => ret a
      | .error msg => panic msg

/-- Wait for `w`, and make the step. -/
def waitFor (w : W) (f : σ → Option σ) : Prog σ W Unit := await w f fun _ => ret ()

/-- `n` passes of a loop, from index `i` on. -/
def forRange (f : ℕ → Prog σ W Unit) : ℕ → ℕ → Prog σ W Unit
  | _, 0 => ret ()
  | i, n + 1 => f i >>= fun _ => forRange f (i + 1) n

/-- At most `n` passes of a loop, from index `i` on, left by the first pass with a result. -/
def search (f : ℕ → Prog σ W (Option β)) : ℕ → ℕ → Prog σ W (Option β)
  | _, 0 => ret none
  | i, n + 1 => f i >>= fun r =>
    match r with
    | some b => ret (some b)
    | none => search f (i + 1) n

/-- Execution of a program alone. It ends with the state, also where it stops. -/
def run : Prog σ W α → σ → Except (Stop W × σ) (α × σ)
  | ret a, s => .ok (a, s)
  | panic msg, s => .error (.panic msg, s)
  | act f k, s => (k s).run (f s)
  | await w f k, s =>
    match f s with
    | some t => (k s).run t
    | none => .error (.blocked w, s)

/-! ## Programs executed alone -/

variable {Q R : α → σ → Prop} {s t : σ} {x : Prog σ W α} {a : α}

/-- A run of a sequence. -/
theorem run_bind {f : α → Prog σ W β} : ∀ {x : Prog σ W α} {s : σ} {a : α} {t : σ},
    x.run s = .ok (a, t) → (x >>= f).run s = (f a).run t
  | ret _, _, _, _, h => by
    cases h
    rfl
  | panic _, _, _, _, h => by cases h
  | act _ k, s, _, _, h => run_bind (x := k s) h
  | await _ g k, s, _, _, h => by
    change (match g s with | some _ => _ | none => _) = _
    rw [run] at h
    cases hg : g s with
    | none =>
      rw [hg] at h
      cases h
    | some u =>
      rw [hg] at h
      exact run_bind (x := k s) h

/-- A run of a sequence that stops in its first part. -/
theorem run_bind_error {f : α → Prog σ W β} {r : Stop W × σ} : ∀ {x : Prog σ W α} {s : σ},
    x.run s = .error r → (x >>= f).run s = .error r
  | ret _, _, h => by cases h
  | panic _, _, h => by
    cases h
    rfl
  | act _ k, s, h => run_bind_error (x := k s) h
  | await _ g k, s, h => by
    change (match g s with | some _ => _ | none => _) = _
    rw [run] at h
    cases hg : g s with
    | none =>
      rw [hg] at h
      cases h
      rfl
    | some u =>
      rw [hg] at h
      exact run_bind_error (x := k s) h

/-- Executed alone, the program returns with a result and a state that satisfy `Q`, or stops
as `E` says. -/
def Ends (x : Prog σ W α) (s : σ) (Q : α → σ → Prop) (E : Stop W → σ → Prop) : Prop :=
  match x.run s with
  | .ok (a, t) => Q a t
  | .error (e, t) => E e t

/-- If the program returns, executed alone, its result and state satisfy `Q`. -/
abbrev Partly (x : Prog σ W α) (s : σ) (Q : α → σ → Prop) : Prop := Ends x s Q fun _ _ => True

/-- Executed alone, the program returns with a result and a state that satisfy `Q`. -/
abbrev Returns (x : Prog σ W α) (s : σ) (Q : α → σ → Prop) : Prop := Ends x s Q fun _ _ => False

/-- Executed alone, the program stops without returning. -/
abbrev Halts (x : Prog σ W α) (s : σ) (e : Stop W) : Prop :=
  Ends x s (fun _ _ => False) fun e' _ => e' = e

variable {E : Stop W → σ → Prop} {e : Stop W}

/-- What `Ends` says about the run. -/
theorem ends_iff : Ends x s Q E ↔
    (∀ a t, x.run s = .ok (a, t) → Q a t) ∧ ∀ e t, x.run s = .error (e, t) → E e t := by
  unfold Ends
  cases x.run s with
  | ok r =>
    refine ⟨fun h => ⟨fun a t hr => ?_, fun e t hr => ?_⟩, fun h => h.1 _ _ rfl⟩
    · cases hr
      exact h
    · cases hr
  | error r =>
    refine ⟨fun h => ⟨fun a t hr => ?_, fun e t hr => ?_⟩, fun h => h.2 _ _ rfl⟩
    · cases hr
    · cases hr
      exact h

theorem run_of_toOption {r : α × σ} (h : (x.run s).toOption = some r) :
    x.run s = .ok r := by
  cases hx : x.run s with
  | ok r' =>
    rw [hx] at h
    exact congrArg Except.ok (some.inj h)
  | error e =>
    rw [hx] at h
    cases h

/-- A run whose result was computed. -/
theorem exists_run (h : (x.run s).toOption.map Prod.fst = some a) :
    ∃ t, x.run s = .ok (a, t) := by
  obtain ⟨⟨b, t⟩, hr, rfl⟩ := map_eq_some_iff.1 h
  exact ⟨t, run_of_toOption hr⟩

/-- How the program stops, if it does not return. -/
def stop (x : Prog σ W α) (s : σ) : Option (Stop W) :=
  match x.run s with
  | .ok _ => none
  | .error (e, _) => some e

/-- A run that was computed and returns. -/
theorem returns_of_run (hx : x.run s = .ok (a, t)) (h : Q a t) : Ends x s Q E := by
  unfold Ends
  rwa [hx]

/-- A run that was computed and stops. -/
theorem halts_of_stop (h : x.stop s = some e) : Halts x s e := by
  unfold stop at h
  unfold Halts Ends
  cases hx : x.run s with
  | ok r =>
    rw [hx] at h
    cases h
  | error r =>
    rw [hx] at h
    exact some.inj h

theorem Partly.of_run (h : Partly x s Q) (hx : x.run s = .ok (a, t)) :
    Q a t :=
  (ends_iff.1 h).1 a t hx

theorem partly_true (x : Prog σ W α) (s : σ) : Partly x s fun _ _ => True :=
  ends_iff.2 ⟨fun _ _ _ => trivial, fun _ _ _ => trivial⟩

theorem ends_pure (h : Q a s) : Ends (pure a : Prog σ W α) s Q E := h

theorem ends_panic {msg : String} (h : E (.panic msg) s) :
    Ends (.panic msg : Prog σ W α) s Q E := h

/-- The rule for sequences. -/
theorem ends_bind {f : α → Prog σ W β} {R : β → σ → Prop}
    (h : Ends x s (fun a t => Ends (f a) t R E) E) : Ends (x >>= f) s R E := by
  obtain ⟨hok, herr⟩ := ends_iff.1 h
  cases hx : x.run s with
  | ok r =>
    have hr := hok _ _ hx
    unfold Ends at hr ⊢
    rwa [run_bind hx]
  | error r =>
    unfold Ends
    rw [run_bind_error hx]
    exact herr _ _ hx

/-- The rule of consequence. -/
theorem Ends.imp {F : Stop W → σ → Prop} (h : Ends x s Q E)
    (hQ : ∀ a t, Q a t → R a t) (hE : ∀ e t, E e t → F e t) : Ends x s R F := by
  rw [ends_iff] at h ⊢
  exact ⟨fun a t hx => hQ a t (h.1 a t hx), fun e t hx => hE e t (h.2 e t hx)⟩

theorem Ends.mono (h : Ends x s Q E)
    (hQ : ∀ a t, Q a t → R a t) : Ends x s R E := h.imp hQ fun _ _ => id

/-- Two specifications of one program. -/
theorem Ends.and {F : Stop W → σ → Prop} (h : Ends x s Q E) (h' : Ends x s R F) :
    Ends x s (fun a t => Q a t ∧ R a t) E := by
  rw [ends_iff] at h h' ⊢
  exact ⟨fun a t hx => ⟨h.1 a t hx, h'.1 a t hx⟩, h.2⟩

/-- A program that stops. -/
theorem Halts.ends (h : Halts x s e) (hE : ∀ t, E e t) : Ends x s Q E := by
  refine h.imp (fun _ _ => False.elim) ?_
  rintro _ t rfl
  exact hE t

theorem halts_bind {f : α → Prog σ W β} (h : Halts x s e) : Halts (x >>= f) s e :=
  ends_bind (h.ends fun _ => rfl)

theorem ends_getState {R : σ → σ → Prop} (h : R s s) :
    Ends (getState : Prog σ W σ) s R E := h

theorem ends_modifyState {f : σ → σ} {R : Unit → σ → Prop} (h : R () (f s)) :
    Ends (modifyState f : Prog σ W Unit) s R E := h

/-- A step that may panic. -/
theorem ends_atomic {g : StateT σ (Except String) α}
    (h : match g s with
      | .ok (a, t) => Q a t
      | .error msg => E (.panic msg) s) : Ends (atomic g : Prog σ W α) s Q E := by
  cases hg : g s with
  | ok r | error msg =>
    rw [hg] at h
    simp only [Ends, atomic, run, hg]
    exact h

theorem returns_atomic {g : StateT σ (Except String) α} (hg : g s = .ok (a, t)) (h : Q a t) :
    Ends (atomic g : Prog σ W α) s Q E := by
  refine ends_atomic ?_
  rwa [hg]

/-- A step that waits for a condition. -/
theorem ends_await {w : W} {f : σ → Option σ} {x : σ → Prog σ W α}
    (hnone : f s = none → E (.blocked w) s) (hsome : ∀ t, f s = some t → Ends (x s) t Q E) :
    Ends (await w f x) s Q E := by
  cases hf : f s with
  | some t =>
    simp only [Ends, run, hf]
    exact hsome t hf
  | none =>
    simp only [Ends, run, hf]
    exact hnone hf

theorem ends_waitFor {w : W} {f : σ → Option σ} {R : Unit → σ → Prop}
    (h : match f s with
      | some t => R () t
      | none => E (.blocked w) s) : Ends (waitFor w f) s R E := by
  refine ends_await (fun hf => ?_) fun t hf => ?_
  · rwa [hf] at h
  · rw [hf] at h
    exact h

theorem returns_waitFor {w : W} {f : σ → Option σ} {R : Unit → σ → Prop} (hf : f s = some t)
    (h : R () t) : Ends (waitFor w f) s R E := by
  refine ends_waitFor ?_
  rwa [hf]

/-- The rule for a search loop: a pass without a result keeps the invariant. -/
theorem ends_search {f : ℕ → Prog σ W (Option β)} (I : ℕ → σ → Prop) {R : Option β → σ → Prop} :
    ∀ {i n : ℕ} {s : σ},
      (∀ j s, i ≤ j → j < i + n → I j s → Ends (f j) s
        (fun r t => match r with
          | some b => R (some b) t
          | none => I (j + 1) t) E) →
      (∀ s, I (i + n) s → R none s) → I i s → Ends (search f i n) s R E
  | i, 0, s, _, hn, hs => hn s hs
  | i, n + 1, s, h, hn, hs => by
    refine ends_bind ((h i s (Nat.le_refl i) (by omega) hs).mono fun r t ht => ?_)
    cases r with
    | some b => exact ht
    | none =>
      refine ends_search I (fun j s hj hj' => h j s (by omega) (by omega)) ?_ ht
      rwa [Nat.succ_add_eq_add_succ]

/-- The rule for a counting loop. -/
theorem ends_forRange {f : ℕ → Prog σ W Unit} (I : ℕ → σ → Prop) : ∀ {i n : ℕ} {s : σ},
    (∀ j s, i ≤ j → j < i + n → I j s → Ends (f j) s (fun _ t => I (j + 1) t) E) → I i s →
    Ends (forRange f i n) s (fun _ t => I (i + n) t) E
  | _, 0, _, _, hs => ends_pure hs
  | i, n + 1, s, h, hs => by
    refine ends_bind ((h i s (Nat.le_refl i) (by omega) hs).mono fun _ t ht => ?_)
    have := ends_forRange I (n := n) (fun j s hj hj' => h j s (by omega) (by omega)) ht
    rwa [Nat.succ_add_eq_add_succ] at this

/-- A search whose passes find nothing and change nothing. -/
theorem returns_search_none {f : ℕ → Prog σ W (Option β)} {R : Option β → σ → Prop} {i n : ℕ}
    (hR : R none s)
    (hmiss : ∀ l, i ≤ l → l < i + n → Ends (f l) s (fun r t => r = none ∧ t = s) E) :
    Ends (search f i n) s R E := by
  refine ends_search (fun _ t => t = s) (fun l t hl hl' ht => ?_) (fun t ht => ht ▸ hR) rfl
  subst ht
  refine (hmiss l hl hl').mono ?_
  rintro _ u ⟨rfl, rfl⟩
  rfl

/-- A search whose passes before the `j`-th find nothing and change nothing. -/
theorem ends_search_at {f : ℕ → Prog σ W (Option β)} {R : Option β → σ → Prop} {j : ℕ} :
    ∀ {i n : ℕ}, (∀ l, i ≤ l → l < j → Ends (f l) s (fun r t => r = none ∧ t = s) E) → i ≤ j →
      j < i + n → Ends (f j) s (fun r t => (∃ b, r = some b) ∧ R r t) E →
      Ends (search f i n) s R E
  | i, 0, _, hi, hj, _ => by omega
  | i, n + 1, hmiss, hi, hj, hhit => by
    rcases Nat.lt_or_eq_of_le hi with hlt | rfl
    · refine ends_bind ((hmiss i (Nat.le_refl _) hlt).mono ?_)
      rintro _ t ⟨rfl, ht⟩
      rw [ht]
      exact ends_search_at (fun l hl => hmiss l (by omega)) (by omega) (by omega) hhit
    · refine ends_bind (hhit.mono ?_)
      rintro _ t ⟨⟨b, rfl⟩, hR⟩
      exact ends_pure hR

end Prog

-- From here on programs are followed by the rules only. Unfolding would run their loops.
attribute [irreducible] Prog.Ends

end Xv6
