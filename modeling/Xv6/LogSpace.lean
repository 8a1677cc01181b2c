import Xv6.LogProtocol
import Mathlib.Algebra.BigOperators.Ring.Finset

/-!
# Log space

`begin_op` admits an operation if `MAXOPBLOCKS` blocks for each outstanding
operation still fit in `LOGSIZE`, and `log_write` panics with "too big a
transaction" once the log has `log.size - 1` blocks. With `nlog = LOGSIZE`, as
`mkfs` sets it, the two differ by one block, and the check of `log_write` comes
before absorption.

The space the operations have reserved is an invariant (`Reserved`). Operations of
at most `MAXOPBLOCKS` blocks never outgrow `log.lh.block` (`log_never_outgrown`), and of
at most `MAXOPBLOCKS - 1` blocks never panic. `logWrite_room` is the exact
condition for a run to avoid the panic, and `too_big_within_budget` is a run of
three operations within `MAXOPBLOCKS` that panics.
-/

set_option linter.unusedSectionVars false

namespace Xv6

open Finset List Option Function

namespace Phase

/-- What an admitted process may still log under a budget of `k` blocks. -/
def spare (k : ℕ) : Phase → ℕ
  | active _ m => k - m.card
  | logging _ m _ => k - m.card
  | _ => 0

@[simp] theorem spare_wake (k : ℕ) (ph : Phase) : ph.wake.spare k = ph.spare k := by
  cases ph <;> rfl

theorem spare_le (k : ℕ) (ph : Phase) : ph.spare k ≤ k * ph.admitted := by
  cases ph <;> simp [spare, admitted]

end Phase

namespace LogState

variable {P : Type} [DecidableEq P] [Fintype P] {s : LogState P}

/-- The blocks the operations of the current transaction have logged. -/
def txnBlocks (s : LogState P) : Finset ℕ :=
  ((s.writes.filter fun x => s.opTxn x.1 = s.txns.length).map Prod.snd).toFinset

/-- Every operation logs at most `k` distinct blocks. -/
def Budget (k : ℕ) (s : LogState P) : LogAction P → Prop
  | .logWrite p b => (insert b (s.phase p).mine).card ≤ k
  | _ => True

instance (k : ℕ) (s : LogState P) : ∀ a, Decidable (s.Budget k a)
  | .logWrite p b => inferInstanceAs (Decidable ((insert b (s.phase p).mine).card ≤ k))
  | .beginOp _ | .logAppend _ | .endOp _ | .commit _ | .endCommit _ | .kill _ => isTrue trivial

/-- A `log_write` is made while the transaction has at most `LOGSIZE - 2` blocks. -/
def Room (s : LogState P) : LogAction P → Prop
  | .logWrite _ _ => s.txnBlocks.card ≤ LOGSIZE - 2
  | _ => True

/-- Absorption keeps the log as small as the transaction. -/
theorem card_txnBlocks (hi : s.Inv) (hh : s.HistInv) : s.txnBlocks.card = s.log.lh.length := by
  have : s.txnBlocks = s.log.lh.toFinset := by
    ext b
    rw [List.mem_toFinset, hh.current]
    simp [txnBlocks]
  rw [this, toFinset_card_of_nodup hi.nodup]

/-- With `nlog = LOGSIZE` a step panics exactly when it is a `log_write` without room. -/
theorem panicked_step_iff (hi : s.Inv) (hh : s.HistInv) (hsize : s.log.size = LOGSIZE)
    {t : LogState P} {a : LogAction P} (ht : s.step a = some t) :
    t.panicked = none ↔ s.Room a := by
  obtain ⟨hnone, hcase⟩ := step_cases ht
  cases a with
  | beginOp p =>
    obtain ⟨-, rfl⟩ := hcase
    unfold LogState.beginOp
    split_ifs <;> simpa [Room, LogState.setPhase] using hnone
  | logWrite p b =>
    obtain ⟨op, mine, hp, rfl⟩ := hcase
    have hpos := hi.outstanding_pos (p := p) (by simp [hp, Phase.admitted])
    have hL : LOGSIZE = 30 := rfl
    rw [Room, card_txnBlocks hi hh]
    unfold LogState.logWrite
    split_ifs with hbig hout
    · simp only [Log.TooBig, hsize] at hbig
      simp only [false_iff]
      omega
    · omega
    · simp only [Log.TooBig, hsize] at hbig
      simp only [LogState.setPhase, hnone, true_iff]
      omega
  | logAppend p =>
    obtain ⟨op, mine, b, hp, rfl⟩ := hcase
    simpa [Room, LogState.logAppend] using hnone
  | endOp p =>
    obtain ⟨⟨op, mine, hp⟩, rfl⟩ := hcase
    have hcom := hi.not_committing (p := p) (by simp [hp, Phase.admitted])
    unfold LogState.endOp
    simp only [hcom, Bool.false_eq_true, if_false]
    split_ifs <;> simpa [Room] using hnone
  | commit p =>
    obtain ⟨-, rfl⟩ := hcase
    simpa [Room, LogState.commit] using hnone
  | endCommit p =>
    obtain ⟨-, rfl⟩ := hcase
    simpa [Room, LogState.endCommit] using hnone
  | kill p =>
    rw [hcase]
    simpa [Room, LogState.setPhase] using hnone

/-- A panic is the last step of a run. -/
theorem exec_of_panicked {t u : LogState P} {as : List (LogAction P)} (ht : t.panicked ≠ none)
    (hu : exec step t as = some u) : u = t := by
  cases as with
  | nil => exact (some.inj hu).symm
  | cons a as =>
    obtain ⟨v, hv, -⟩ := exec_cons_eq_some.1 hu
    exact absurd (step_cases hv).1 ht

theorem panicked_exec_iff : ∀ (as : List (LogAction P)) {s u : LogState P}, s.Inv → s.HistInv →
    s.log.size = LOGSIZE → s.panicked = none → exec step s as = some u →
      (u.panicked = none ↔ Along step Room s as)
  | [], s, u, _, _, _, hn, hu => by
    obtain rfl := some.inj hu
    simp [Along, hn]
  | a :: as, s, u, hi, hh, hsize, hn, hu => by
    obtain ⟨t, ht, hu⟩ := exec_cons_eq_some.1 hu
    have hstep := panicked_step_iff hi hh hsize ht
    by_cases htn : t.panicked = none
    · have ih := panicked_exec_iff as (hi.step ht) (hh.step hi ht)
        ((step_size ht).trans hsize) htn hu
      rw [ih]
      refine ⟨fun h => ⟨hstep.1 htn, fun t' ht' => ?_⟩, fun h => h.2 t ht⟩
      obtain rfl := some.inj (ht.symm.trans ht')
      exact h
    · obtain rfl := exec_of_panicked htn hu
      simp only [htn, false_iff]
      exact fun h => htn (hstep.2 h.1)

/-- The log and what its operations may still add fit in `n` blocks. The block being
logged is within its operation's budget. -/
structure Reserved (k n : ℕ) (s : LogState P) : Prop where
  fits : s.log.lh.length + (∑ p, (s.phase p).spare k) ≤ n
  budget : ∀ p op mine b, s.phase p = .logging op mine b → (insert b mine).card ≤ k

/-- Moving a process to a phase with no more to spare keeps the reservation. -/
theorem Reserved.update {k n : ℕ} (h : s.Reserved k n) {t : LogState P} {p : P} {ph : Phase}
    (hl : t.log.lh.length ≤ s.log.lh.length) (hs : ph.spare k ≤ (s.phase p).spare k)
    (hb : ∀ op mine b, ph = .logging op mine b → (insert b mine).card ≤ k)
    (hp : t.phase = update s.phase p ph) : t.Reserved k n := by
  constructor
  · have := sum_update_add (Phase.spare k) s.phase p ph
    have := h.fits
    rw [hp]
    omega
  · intro q op mine b hq
    rw [hp] at hq
    by_cases hqp : q = p
    · subst hqp
      exact hb op mine b (by simpa using hq)
    · exact h.budget q op mine b (by simpa [hqp] using hq)

theorem Reserved.wake_outside {k n : ℕ} (h : s.Reserved k n) {t : LogState P} {p : P}
    (hl : t.log.lh = s.log.lh)
    (hp : t.phase = Function.update (fun q => (s.phase q).wake) p .outside) : t.Reserved k n := by
  have h0 : Phase.outside.spare k = 0 := rfl
  constructor
  · have := sum_update_add (Phase.spare k) (fun q => (s.phase q).wake) p .outside
    have := h.fits
    simp only [Phase.spare_wake] at *
    rw [hp, hl]
    omega
  · intro q op mine b hq
    rw [hp] at hq
    by_cases hqp : q = p
    · subst hqp
      simp at hq
    · have hq' : (s.phase q).wake = .logging op mine b := by simpa [hqp] using hq
      refine h.budget q op mine b ?_
      cases hph : s.phase q <;> simp_all [Phase.wake]

/-- The space test of `begin_op` keeps the reservation. With no operation outstanding
the log is empty, so the test leaves two blocks unused if a budget is one short of
`MAXOPBLOCKS`. -/
theorem Reserved.beginOp {k n : ℕ} (h : s.Reserved k n) (hi : s.Inv) {p : P}
    (hp : s.phase p = .outside ∨ s.phase p = .retry)
    (hadm : ∀ m o : ℕ, m + (o + 1) * MAXOPBLOCKS ≤ LOGSIZE → (o = 0 → m = 0) →
      m + k * (o + 1) ≤ n) : (s.beginOp p).Reserved k n := by
  have hsp : (s.phase p).spare k = 0 := by rcases hp with hp | hp <;> simp [hp, Phase.spare]
  unfold LogState.beginOp
  split_ifs with hcom hspace
  · exact h.update le_rfl (by simp [Phase.spare]) (by simp) rfl
  · exact h.update le_rfl (by simp [Phase.spare]) (by simp) rfl
  · have hupd := sum_update_add (Phase.spare k) s.phase p (.active s.nextOp ∅)
    have hk : (Phase.active s.nextOp ∅).spare k = k := by simp [Phase.spare]
    have hle : (∑ q, (s.phase q).spare k) ≤ k * ∑ q, (s.phase q).admitted := by
      rw [mul_sum]
      exact sum_le_sum fun q _ => Phase.spare_le k (s.phase q)
    have hcount := hi.count
    set o := ∑ q, (s.phase q).admitted
    have hM : MAXOPBLOCKS = 10 := rfl
    have htest : s.log.lh.length + (o + 1) * MAXOPBLOCKS ≤ LOGSIZE := by
      rw [hM]
      rw [Log.NoSpace, hcount, hM] at hspace
      omega
    have hroom := hadm s.log.lh.length o htest fun ho => by
      rw [hi.empty (by omega) (by simpa using hcom)]
      rfl
    constructor
    · simp only
      rw [mul_add] at hroom
      omega
    · intro q op mine b hq
      by_cases hqp : q = p
      · subst hqp
        simp at hq
      · exact h.budget q op mine b (by simpa [hqp] using hq)

theorem Reserved.logAppend {k n : ℕ} (h : s.Reserved k n) (hi : s.Inv) {p : P} {op b : ℕ}
    {mine : Finset ℕ} (hp : s.phase p = .logging op mine b) :
    (s.logAppend p op mine b).Reserved k n := by
  have hbud := h.budget p op mine b hp
  have hupd := sum_update_add (Phase.spare k) s.phase p (.active op (insert b mine))
  have hold : (s.phase p).spare k = k - mine.card := by rw [hp]; rfl
  have hnew : (Phase.active op (insert b mine)).spare k = k - (insert b mine).card := rfl
  have hfits := h.fits
  constructor
  · simp only [LogState.logAppend, logAbsorb_eq]
    split_ifs with hb
    · have := card_le_card (subset_insert b mine)
      omega
    · -- a block new to the log is new to the operation
      have hmine : b ∉ mine := fun hm => hb (hi.mine p b (by simpa [hp, Phase.mine] using hm))
      have := card_insert_of_notMem hmine
      simp only [length_append, length_singleton]
      omega
  · intro q o m c hq
    by_cases hqp : q = p
    · subst hqp
      simp [LogState.logAppend] at hq
    · exact h.budget q o m c (by simpa [LogState.logAppend, hqp] using hq)

theorem Reserved.step {k n : ℕ} (hadm : ∀ m o : ℕ, m + (o + 1) * MAXOPBLOCKS ≤ LOGSIZE →
    (o = 0 → m = 0) → m + k * (o + 1) ≤ n) (h : s.Reserved k n) (hi : s.Inv)
    {t : LogState P} {a : LogAction P} (hb : s.Budget k a) (ht : s.step a = some t) :
    t.Reserved k n := by
  obtain ⟨-, hcase⟩ := step_cases ht
  cases a with
  | beginOp p => exact hcase.2 ▸ h.beginOp hi hcase.1 hadm
  | logWrite p b =>
    obtain ⟨op, mine, hp, rfl⟩ := hcase
    unfold LogState.logWrite
    split_ifs
    · exact ⟨h.fits, h.budget⟩
    · exact ⟨h.fits, h.budget⟩
    · refine h.update le_rfl (by rw [hp]; rfl) ?_ rfl
      rintro _ _ _ ⟨⟩
      simpa [Budget, hp, Phase.mine] using hb
  | logAppend p =>
    obtain ⟨op, mine, b, hp, rfl⟩ := hcase
    exact h.logAppend hi hp
  | endOp p =>
    obtain ⟨⟨op, mine, hp⟩, rfl⟩ := hcase
    unfold LogState.endOp
    dsimp only
    split_ifs
    · exact ⟨h.fits, h.budget⟩
    · exact h.update le_rfl (by simp [Phase.spare]) (by simp) rfl
    · exact h.wake_outside rfl rfl
  | commit p =>
    obtain ⟨hp, rfl⟩ := hcase
    exact h.update (by simp [LogState.commit]) (by simp [Phase.spare]) (by simp) rfl
  | endCommit p =>
    obtain ⟨hp, rfl⟩ := hcase
    exact h.wake_outside rfl rfl
  | kill p =>
    rw [hcase]
    refine h.update le_rfl (by simp) ?_ rfl
    intro op mine b hw
    refine h.budget p op mine b ?_
    cases hph : s.phase p <;> simp_all [Phase.wake]

theorem reserved_init (k n size : ℕ) : (init P size).Reserved k n :=
  ⟨by simp [init, Phase.spare], by simp [init]⟩

/-- Within the budget of `MAXOPBLOCKS` the log never outgrows `log.lh.block`, although
the space check of `log_write` is made without the lock. -/
theorem log_never_outgrown (size : ℕ) (as : List (LogAction P))
    (hb : Along step (Budget MAXOPBLOCKS) (init P size) as)
    (h : exec step (init P size) as = some s) : s.log.lh.length ≤ LOGSIZE := by
  have hL : LOGSIZE = 30 := rfl
  have hM : MAXOPBLOCKS = 10 := rfl
  have hr := exec_invariant (fun s => s.Inv ∧ s.Reserved MAXOPBLOCKS LOGSIZE)
    (fun s a t hs hb ht => ⟨hs.1.step ht,
      hs.2.step (fun m o h _ => by rw [hM] at h ⊢; omega) hs.1 hb ht⟩)
    ⟨inv_init size, reserved_init _ _ size⟩ hb h
  have := hr.2.fits
  omega

/-- The blocks `10 p, …, 10 p + 9`, logged by process `p`. -/
def fullBudget (p : Fin 3) (n : ℕ) : List (LogAction (Fin 3)) :=
  (List.range n).flatMap fun i => [.logWrite p (10 * p.val + i), .logAppend p]

/-- Three operations that use their whole budget, of which two make their last check before
either of them appends. -/
def raceRun : List (LogAction (Fin 3)) :=
  [.beginOp 0, .beginOp 1, .beginOp 2] ++ fullBudget 0 10 ++ fullBudget 1 9 ++ fullBudget 2 9 ++
    [.logWrite 1 19, .logWrite 2 29, .logAppend 1, .logAppend 2]

/-- Both checks of `raceRun` find 28 blocks, and then `log.lh.block` is full. -/
theorem log_never_outgrown_race : ∃ s, exec step (init (Fin 3) LOGSIZE) raceRun = some s ∧
    s.panicked = none ∧ s.log.lh.length = 30 ∧ s.log.lh.length ≤ LOGSIZE := by
  have h : (exec step (init (Fin 3) LOGSIZE) raceRun).map (fun s =>
      (s.panicked, s.log.lh.length)) = some (none, 30) := by
    decide +kernel
  obtain ⟨s, hs, he⟩ := map_eq_some_iff.1 h
  obtain ⟨hp, hl⟩ := Prod.mk.inj he
  exact ⟨s, hs, hp, hl, log_never_outgrown LOGSIZE raceRun (by decide +kernel) hs⟩

/-- A run from boot with `nlog = LOGSIZE` avoids "too big a transaction" exactly when
each of its `log_write`s is made while the transaction has at most `LOGSIZE - 2` blocks.
Operations of at most `MAXOPBLOCKS - 1` blocks always leave that room. -/
theorem logWrite_room (as : List (LogAction P)) (s : LogState P)
    (h : exec step (init P LOGSIZE) as = some s) :
    (s.panicked ≠ some "too big a transaction" ↔ Along step Room (init P LOGSIZE) as) ∧
      (Along step (Budget (MAXOPBLOCKS - 1)) (init P LOGSIZE) as →
        Along step Room (init P LOGSIZE) as) := by
  have hL : LOGSIZE = 30 := rfl
  have hM : MAXOPBLOCKS = 10 := rfl
  refine ⟨?_, fun hb => ?_⟩
  · rw [← panicked_exec_iff as (inv_init LOGSIZE) (histInv_init LOGSIZE) rfl rfl h]
    rcases (inv_of_exec h).1.panic with hp | hp <;> simp [hp]
  · refine hb.of_invariant
      (fun s => (s.Inv ∧ s.HistInv) ∧ s.Reserved (MAXOPBLOCKS - 1) (LOGSIZE - 2)) ?_ ?_
      ⟨⟨inv_init _, histInv_init _⟩, reserved_init _ _ _⟩
    · rintro s a t ⟨⟨hi, hh⟩, hr⟩ hb ht
      refine ⟨⟨hi.step ht, hh.step hi ht⟩, hr.step (fun m o h h0 => ?_) hi hb ht⟩
      rw [hM] at h ⊢
      omega
    · rintro s a ⟨⟨hi, hh⟩, hr⟩ -
      cases a with
      | logWrite p b =>
        have := hr.fits
        rw [Room, card_txnBlocks hi hh]
        omega
      | _ => trivial

/-- Three operations that log `MAXOPBLOCKS - 1` blocks each. -/
def spareRun : List (LogAction (Fin 3)) :=
  [.beginOp 0, .beginOp 1, .beginOp 2] ++ fullBudget 0 9 ++ fullBudget 1 9 ++ fullBudget 2 9

/-- The operations of `spareRun` find room for all their 27 blocks. -/
theorem logWrite_room_three : ∃ s, exec step (init (Fin 3) LOGSIZE) spareRun = some s ∧
    s.log.lh.length = 27 ∧ s.panicked ≠ some "too big a transaction" := by
  have h : (exec step (init (Fin 3) LOGSIZE) spareRun).map (·.log.lh.length) = some 27 := by
    decide +kernel
  obtain ⟨s, hs, hl⟩ := map_eq_some_iff.1 h
  obtain ⟨hiff, hroom⟩ := logWrite_room spareRun s hs
  exact ⟨s, hs, hl, hiff.2 (hroom (by decide +kernel))⟩

/-- Three operations that use their whole budget. The last `log_write` finds 29 blocks. -/
def fullRun : List (LogAction (Fin 3)) :=
  [.beginOp 0, .beginOp 1, .beginOp 2] ++ fullBudget 0 10 ++ fullBudget 1 10 ++
    fullBudget 2 9 ++ [.logWrite 2 29]

/-- Every operation of `fullRun` keeps within `MAXOPBLOCKS`, and its last `log_write`
panics. -/
theorem too_big_within_budget :
    Along step (Budget MAXOPBLOCKS) (init (Fin 3) LOGSIZE) fullRun ∧
      (exec step (init (Fin 3) LOGSIZE) fullRun).map (·.panicked) =
        some (some "too big a transaction") := by
  constructor
  · decide +kernel
  · decide +kernel

end LogState

end Xv6
