import Mathlib.Logic.Function.Basic
import Mathlib.Data.Nat.Basic

/-!
# Disk programs and crashes

A disk program reads and writes whole cells of a disk `A → V`, one at a time
(`DiskProg`). One write is atomic and writes happen in program order, so a
crash is a number `k` : the run stops before its write number `k` and the
disk keeps the first `k` writes (`crash`). Whatever the program held in
memory is lost.

`exec` is the run without a crash. `crash_bind` cuts the run of a sequence at
the writes of its first part. `Always I p d` says that `I` holds of the disk
at every crash point of `p` from `d`; its rules (`always_pure`, `always_bind`,
`always_write`, `always_read`) follow the program text.
-/

namespace Xv6

open Function

/-- A program over a disk with cells `V` at addresses `A`. -/
inductive DiskProg (A V : Type) (α : Type) where
  | ret (x : α)
  | read (a : A) (k : V → DiskProg A V α)
  | write (a : A) (v : V) (k : DiskProg A V α)

namespace DiskProg

variable {A V α β : Type}

/-- Sequencing. -/
def bind : DiskProg A V α → (α → DiskProg A V β) → DiskProg A V β
  | ret x, f => f x
  | read a k, f => read a fun v => (k v).bind f
  | write a v k, f => write a v (k.bind f)

instance : Monad (DiskProg A V) where
  pure := ret
  bind := bind

/-- Read one cell. -/
def readCell (a : A) : DiskProg A V V := read a ret

/-- Write one cell. -/
def writeCell (a : A) (v : V) : DiskProg A V Unit := write a v (ret ())

variable [DecidableEq A]

/-- The run without a crash : the result and the disk left behind. -/
def exec : DiskProg A V α → (A → V) → α × (A → V)
  | ret x, d => (x, d)
  | read a k, d => (k (d a)).exec d
  | write a v k, d => k.exec (update d a v)

/-- The number of writes of the run. -/
def numWrites : DiskProg A V α → (A → V) → ℕ
  | ret _, _ => 0
  | read a k, d => (k (d a)).numWrites d
  | write a v k, d => k.numWrites (update d a v) + 1

/-- The disk after a crash that lets the first `n` writes through. -/
def crash : ℕ → DiskProg A V α → (A → V) → (A → V)
  | _, ret _, d => d
  | n, read a k, d => crash n (k (d a)) d
  | 0, write _ _ _, d => d
  | n + 1, write a v k, d => crash n k (update d a v)

@[simp] theorem exec_pure (x : α) (d : A → V) :
    (pure x : DiskProg A V α).exec d = (x, d) :=
  rfl

@[simp] theorem exec_readCell (a : A) (d : A → V) :
    (readCell a : DiskProg A V V).exec d = (d a, d) :=
  rfl

@[simp] theorem exec_writeCell (a : A) (v : V) (d : A → V) :
    (writeCell a v).exec d = ((), update d a v) :=
  rfl

/-- A sequence. -/
theorem exec_bind (p : DiskProg A V α) (f : α → DiskProg A V β) (d : A → V) :
    (p >>= f).exec d = (f (p.exec d).1).exec (p.exec d).2 := by
  change (p.bind f).exec d = _
  induction p generalizing d with
  | ret x => rfl
  | read a k ih => exact ih (d a) d
  | write a v k ih => exact ih (update d a v)

theorem numWrites_bind (p : DiskProg A V α) (f : α → DiskProg A V β) (d : A → V) :
    (p >>= f).numWrites d = p.numWrites d + (f (p.exec d).1).numWrites (p.exec d).2 := by
  change (p.bind f).numWrites d = _
  induction p generalizing d with
  | ret x => exact (Nat.zero_add _).symm
  | read a k ih => exact ih (d a) d
  | write a v k ih =>
    have := ih (update d a v)
    simp only [bind, numWrites, exec] at this ⊢
    omega

/-- A crash of a sequence falls in its first part, or in its second part. -/
theorem crash_bind (n : ℕ) (p : DiskProg A V α) (f : α → DiskProg A V β) (d : A → V) :
    crash n (p >>= f) d =
      if n < p.numWrites d then crash n p d
      else crash (n - p.numWrites d) (f (p.exec d).1) (p.exec d).2 := by
  change crash n (p.bind f) d = _
  induction p generalizing n d with
  | ret x => rfl
  | read a k ih => exact ih (d a) n d
  | write a v k ih =>
    cases n with
    | zero => simp [bind, crash, numWrites]
    | succ n =>
      simp only [bind, crash, numWrites, exec, ih n (update d a v),
        Nat.add_lt_add_iff_right, Nat.add_sub_add_right]

/-- A crash after the last write leaves the disk of the full run. -/
theorem crash_of_le (p : DiskProg A V α) :
    ∀ (n : ℕ) (d : A → V), p.numWrites d ≤ n → crash n p d = (p.exec d).2 := by
  induction p with
  | ret x => exact fun _ _ _ => by simp [crash, exec]
  | read a k ih =>
    intro n d h
    simpa [crash, exec] using ih (d a) n d h
  | write a v k ih =>
    intro n d h
    cases n with
    | zero => simp [numWrites] at h
    | succ n => exact ih n _ (by simpa [numWrites] using h)

/-! ## Assertions at every crash point -/

/-- `I` holds of the disk at every crash point of `p` from `d`. -/
def Always (I : (A → V) → Prop) (p : DiskProg A V α) (d : A → V) : Prop :=
  ∀ n, I (crash n p d)

variable {I : (A → V) → Prop}

/-- A crash before the first write. -/
theorem crash_zero (p : DiskProg A V α) (d : A → V) : crash 0 p d = d := by
  induction p with
  | ret x => rfl
  | read a k ih => exact ih (d a)
  | write a v k ih => rfl

theorem Always.start {p : DiskProg A V α} {d : A → V} (h : Always I p d) : I d := by
  rw [← crash_zero p d]
  exact h 0

/-- The invariant holds at the end. -/
theorem Always.exec {p : DiskProg A V α} {d : A → V} (h : Always I p d) : I (p.exec d).2 := by
  rw [← crash_of_le p _ d le_rfl]
  exact h _

theorem always_pure {x : α} {d : A → V} (h : I d) :
    Always I (pure x : DiskProg A V α) d :=
  fun n => by cases n <;> exact h

theorem always_readCell {a : A} {d : A → V} (h : I d) :
    Always I (readCell a : DiskProg A V V) d :=
  fun n => by cases n <;> exact h

theorem always_writeCell {a : A} {v : V} {d : A → V} (h : I d)
    (h' : I (update d a v)) : Always I (writeCell a v) d := by
  intro n
  cases n with
  | zero => exact h
  | succ n => cases n <;> exact h'

/-- The rule for sequences. -/
theorem always_bind {p : DiskProg A V α} {f : α → DiskProg A V β} {d : A → V}
    (hp : Always I p d) (hf : Always I (f (p.exec d).1) (p.exec d).2) :
    Always I (p >>= f) d := by
  intro n
  rw [crash_bind]
  split_ifs
  · exact hp n
  · exact hf _

/-- The rule of consequence. -/
theorem Always.mono {J : (A → V) → Prop} {p : DiskProg A V α} {d : A → V}
    (h : Always I p d) (hIJ : ∀ d, I d → J d) : Always J p d :=
  fun n => hIJ _ (h n)

end DiskProg

end Xv6
