import Mathlib.Data.Nat.Init
import Mathlib.Tactic.TypeStar

/-!
# Memory seen through a translation of addresses

Memory is a function of the address of a cell. `write` changes a range of cells. A partial
function `tr` translates the addresses that a program uses to addresses of cells, and `view`
is what the program sees.

`Stored` says that the first `n` of a sequence of addresses have got new values and that no
other cell has changed. It is built from ranges (`Stored.of_write`) one after another
(`Stored.append`).
-/

namespace Xv6.Ram

variable {β V : Type} {m m' m'' : ℕ → β} {dst n i x : ℕ} {f : ℕ → β}

/-- The cells from `dst` on get the first `n` values of `f`. -/
def write (m : ℕ → β) (dst n : ℕ) (f : ℕ → β) : ℕ → β :=
  fun x => if dst ≤ x ∧ x < dst + n then f (x - dst) else m x

theorem write_add (hi : i < n) : write m dst n f (dst + i) = f i := by
  rw [write, if_pos ⟨Nat.le_add_right _ _, Nat.add_lt_add_left hi _⟩, Nat.add_sub_cancel_left]

theorem write_of_not (hx : ¬(dst ≤ x ∧ x < dst + n)) : write m dst n f x = m x := if_neg hx

variable {tr : V → Option ℕ}

/-- What is seen at an address. -/
def view (tr : V → Option ℕ) (m : ℕ → β) (v : V) : Option β := (tr v).map m

theorem view_congr (h : ∀ v x, tr v = some x → m' x = m x) : view tr m' = view tr m := by
  funext v
  rw [view, view]
  cases hv : tr v with
  | none => rfl
  | some x => exact congrArg some (h v x hv)

/-- No two addresses have one cell. -/
def Separate (tr : V → Option ℕ) : Prop := ∀ v v' x, tr v = some x → tr v' = some x → v = v'

/-- The first `n` addresses have got the values of `f`, and no other cell has changed. -/
structure Stored (tr : V → Option ℕ) (m m' : ℕ → β) (addr : ℕ → V) (n : ℕ) (f : ℕ → β) : Prop where
  hit : ∀ i < n, ∃ x, tr (addr i) = some x ∧ m' x = f i
  miss : ∀ x, (∀ i < n, tr (addr i) ≠ some x) → m' x = m x

variable {addr : ℕ → V}

theorem Stored.zero : Stored tr m m addr 0 f :=
  ⟨fun _ h => absurd h (Nat.not_lt_zero _), fun _ _ => rfl⟩

/-- Only the first `n` addresses and values matter. -/
theorem Stored.congr {addr' : ℕ → V} {f' : ℕ → β} (h : Stored tr m m' addr n f)
    (haddr : ∀ i < n, addr' i = addr i) (hf : ∀ i < n, f' i = f i) :
    Stored tr m m' addr' n f' where
  hit i hi := by
    rw [haddr i hi, hf i hi]
    exact h.hit i hi
  miss x hx := h.miss x fun i hi => by
    rw [← haddr i hi]
    exact hx i hi

/-- A range of addresses that is a range of cells. -/
theorem Stored.of_write (h : ∀ i < n, tr (addr i) = some (dst + i)) :
    Stored tr m (write m dst n f) addr n f where
  hit i hi := ⟨dst + i, h i hi, write_add hi⟩
  miss x hx := write_of_not fun ⟨hle, hlt⟩ => by
    refine hx (x - dst) (by omega) ?_
    rw [h _ (by omega), Nat.add_sub_cancel' hle]

/-- One range after another. -/
theorem Stored.append {k : ℕ} (hsep : Separate tr)
    (haddr : ∀ i j, i < n → j < k → addr i ≠ addr (n + j)) (h : Stored tr m m' addr n f)
    (h' : Stored tr m' m'' (fun i => addr (n + i)) k fun i => f (n + i)) :
    Stored tr m m'' addr (n + k) f where
  hit i hi := by
    by_cases hin : i < n
    · obtain ⟨x, hx, hf⟩ := h.hit i hin
      refine ⟨x, hx, ?_⟩
      rw [h'.miss x fun j hj hj' => haddr i j hin hj (hsep _ _ x hx hj'), hf]
    · obtain ⟨x, hx, hf⟩ := h'.hit (i - n) (by omega)
      have hi' : n + (i - n) = i := by omega
      rw [hi'] at hx hf
      exact ⟨x, hx, hf⟩
  miss x hx := by
    rw [h'.miss x fun j hj => hx (n + j) (by omega), h.miss x fun i hi => hx i (by omega)]

theorem Stored.view_hit (h : Stored tr m m' addr n f) (hi : i < n) :
    view tr m' (addr i) = some (f i) := by
  obtain ⟨x, hx, hf⟩ := h.hit i hi
  rw [view, hx, Option.map_some, hf]

theorem Stored.view_miss (hsep : Separate tr) (h : Stored tr m m' addr n f) {v : V}
    (hv : ∀ i < n, addr i ≠ v) : view tr m' v = view tr m v := by
  rw [view, view]
  cases hx : tr v with
  | none => rfl
  | some x =>
    refine congrArg some (h.miss x fun i hi hi' => ?_)
    exact hv i hi (hsep _ _ x hi' hx)

end Xv6.Ram
