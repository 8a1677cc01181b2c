import Mathlib.Algebra.Order.Ring.Nat
import Xv6.Param
import Xv6.Count
import Xv6.Runs
import Mathlib.Data.Finset.Card

/-!
# The group commit protocol

`begin_op`, `log_write` and `end_op` as a state machine. Its steps are the
sections under `log.lock`, so in every state of a run the lock is free; the
two checks at the head of `log_write` and the body of `commit` run without the
lock and are steps of their own. Any number of processes `P` runs
`begin_op; log_write*; end_op` over and over, in any order (`step`).

The state carries a history that no step reads : every admitted operation gets a
number, `opTxn` is the transaction it was admitted to, `writes` are its
`log_write`s, and `txns` are the blocks of the committed transactions.

`group_commit` collects what holds in every reachable state. A process sleeps in
`begin_op` only with a reason, nobody is admitted while a commit runs, and a
committed transaction has all the writes of its operations and no others.
-/

set_option linter.unusedSectionVars false

namespace Xv6

open Finset List Function

/-- The in-memory log : `log.size`, `log.outstanding`, `log.committing` and the
blocks `log.lh.block[0..n)`. -/
structure Log where
  size : ℕ
  outstanding : ℤ
  committing : Bool
  lh : List ℕ

/-- Where a process stands in its operation. `op` is the operation's number and
`mine` the blocks it has logged; both are history. -/
inductive Phase where
  /-- In no operation. -/
  | outside
  /-- Asleep on `&log` in `begin_op`. -/
  | asleep
  /-- Woken in `begin_op`, about to test again. -/
  | retry
  /-- Between `begin_op` and `end_op`. -/
  | active (op : ℕ) (mine : Finset ℕ)
  /-- In `log_write` of block `b`, past the checks. -/
  | logging (op : ℕ) (mine : Finset ℕ) (b : ℕ)
  /-- In `end_op`, running `commit`. -/
  | commit
  /-- In `end_op`, past `commit`. -/
  | finish

namespace Phase

/-- The number of the operation a process is admitted with. -/
def op : Phase → Option ℕ
  | active o _ => some o
  | logging o _ _ => some o
  | _ => none

/-- The blocks the operation has logged. -/
def mine : Phase → Finset ℕ
  | active _ m => m
  | logging _ m _ => m
  | _ => ∅

/-- Weight 1 for a process that `log.outstanding` counts. -/
def admitted : Phase → ℕ
  | active _ _ => 1
  | logging _ _ _ => 1
  | _ => 0

/-- Weight 1 for a process in the commit of `end_op`. -/
def committer : Phase → ℕ
  | commit => 1
  | finish => 1
  | _ => 0

/-- `wakeup(&log)`. -/
def wake : Phase → Phase
  | asleep => retry
  | ph => ph

end Phase

/-- The state of the protocol. -/
structure LogState (P : Type) where
  log : Log
  phase : P → Phase
  panicked : Option String
  /-- History : the number of the next operation. -/
  nextOp : ℕ
  /-- History : the transaction an operation was admitted to. -/
  opTxn : ℕ → ℕ
  /-- History : the `log_write`s, with their operation. -/
  writes : List (ℕ × ℕ)
  /-- History : the blocks of each committed transaction. -/
  txns : List (List ℕ)

/-- The atomic sections. -/
inductive LogAction (P : Type) where
  | beginOp (p : P)
  | logWrite (p : P) (b : ℕ)
  | logAppend (p : P)
  | endOp (p : P)
  | commit (p : P)
  | endCommit (p : P)
  /-- `kill` makes a sleeping process runnable. -/
  | kill (p : P)

/-- `log.lh.n + (log.outstanding+1)*MAXOPBLOCKS > LOGSIZE`. -/
def Log.NoSpace (l : Log) : Prop :=
  (LOGSIZE : ℤ) < l.lh.length + (l.outstanding + 1) * MAXOPBLOCKS

instance (l : Log) : Decidable l.NoSpace := inferInstanceAs (Decidable (_ < _))

/-- `log.lh.n >= LOGSIZE || log.lh.n >= log.size - 1`. -/
def Log.TooBig (l : Log) : Prop :=
  LOGSIZE ≤ l.lh.length ∨ (l.size : ℤ) - 1 ≤ l.lh.length

instance (l : Log) : Decidable l.TooBig := inferInstanceAs (Decidable (_ ∨ _))

/-- The loop of `log_write` : store `b` in the first slot that holds it, or in a new
slot at the end. -/
def logAbsorb (b : ℕ) : List ℕ → List ℕ
  | [] => [b]
  | c :: cs => if c = b then b :: cs else c :: logAbsorb b cs

namespace LogState

variable {P : Type} [DecidableEq P]

/-- The log right after `initlog`, with no operation in progress. -/
def init (P : Type) (size : ℕ) : LogState P where
  log := ⟨size, 0, false, []⟩
  phase _ := .outside
  panicked := none
  nextOp := 0
  opTxn _ := 0
  writes := []
  txns := []

/-- Move one process. -/
def setPhase (s : LogState P) (p : P) (ph : Phase) : LogState P :=
  { s with phase := update s.phase p ph }

/-- One pass of the loop of `begin_op`. -/
def beginOp (s : LogState P) (p : P) : LogState P :=
  if s.log.committing then s.setPhase p .asleep
  else if s.log.NoSpace then s.setPhase p .asleep
  else
    { s with
      log := { s.log with outstanding := s.log.outstanding + 1 }
      phase := update s.phase p (.active s.nextOp ∅)
      nextOp := s.nextOp + 1
      opTxn := update s.opTxn s.nextOp s.txns.length }

/-- The checks at the head of `log_write`, made without the lock. -/
def logWrite (s : LogState P) (p : P) (op : ℕ) (mine : Finset ℕ) (b : ℕ) : LogState P :=
  if s.log.TooBig then { s with panicked := some "too big a transaction" }
  else if s.log.outstanding < 1 then { s with panicked := some "log_write outside of trans" }
  else s.setPhase p (.logging op mine b)

/-- The locked section of `log_write`. -/
def logAppend (s : LogState P) (p : P) (op : ℕ) (mine : Finset ℕ) (b : ℕ) : LogState P :=
  { s with
    log := { s.log with lh := logAbsorb b s.log.lh }
    phase := update s.phase p (.active op (insert b mine))
    writes := s.writes ++ [(op, b)] }

/-- The first locked section of `end_op`. -/
def endOp (s : LogState P) (p : P) : LogState P :=
  let log := { s.log with outstanding := s.log.outstanding - 1 }
  if log.committing then { s with log := log, panicked := some "log.committing" }
  else if log.outstanding = 0 then
    { s with
      log := { log with committing := true }
      phase := update s.phase p .commit }
  else
    { s with log := log, phase := update (fun q => (s.phase q).wake) p .outside }

/-- `commit` : the transaction is on disk and `log.lh.n = 0`. -/
def commit (s : LogState P) (p : P) : LogState P :=
  { s with
    log := { s.log with lh := [] }
    phase := update s.phase p .finish
    txns := s.txns ++ [s.log.lh] }

/-- The second locked section of `end_op`. -/
def endCommit (s : LogState P) (p : P) : LogState P :=
  { s with
    log := { s.log with committing := false }
    phase := update (fun q => (s.phase q).wake) p .outside }

/-- One step of the machine, if the process named is at that point of its program. A
panic stops the machine. -/
def step (s : LogState P) (a : LogAction P) : Option (LogState P) :=
  if s.panicked.isSome then none
  else
    match a with
    | .beginOp p =>
      match s.phase p with
      | .outside => some (s.beginOp p)
      | .retry => some (s.beginOp p)
      | _ => none
    | .logWrite p b =>
      match s.phase p with
      | .active op mine => some (s.logWrite p op mine b)
      | _ => none
    | .logAppend p =>
      match s.phase p with
      | .logging op mine b => some (s.logAppend p op mine b)
      | _ => none
    | .endOp p =>
      match s.phase p with
      | .active _ _ => some (s.endOp p)
      | _ => none
    | .commit p =>
      match s.phase p with
      | .commit => some (s.commit p)
      | _ => none
    | .endCommit p =>
      match s.phase p with
      | .finish => some (s.endCommit p)
      | _ => none
    | .kill p => some (s.setPhase p (s.phase p).wake)

/-! ## What a step can do -/

/-- The step function, read backwards. -/
theorem step_cases {s t : LogState P} {a : LogAction P} (h : s.step a = some t) :
    s.panicked = none ∧
      match a with
      | .beginOp p => (s.phase p = .outside ∨ s.phase p = .retry) ∧ t = s.beginOp p
      | .logWrite p b => ∃ op mine, s.phase p = .active op mine ∧ t = s.logWrite p op mine b
      | .logAppend p => ∃ op mine b, s.phase p = .logging op mine b ∧ t = s.logAppend p op mine b
      | .endOp p => (∃ op mine, s.phase p = .active op mine) ∧ t = s.endOp p
      | .commit p => s.phase p = .commit ∧ t = s.commit p
      | .endCommit p => s.phase p = .finish ∧ t = s.endCommit p
      | .kill p => t = s.setPhase p (s.phase p).wake := by
  unfold step at h
  split_ifs at h with hp
  refine ⟨by simpa using hp, ?_⟩
  cases a with
  | beginOp p | logWrite p b | logAppend p | endOp p | commit p | endCommit p =>
    cases hph : s.phase p <;> simp_all
  | kill p => simp_all

/-- The size of the log never changes. -/
theorem step_size {s t : LogState P} {a : LogAction P} (ht : s.step a = some t) :
    t.log.size = s.log.size := by
  obtain ⟨-, hcase⟩ := step_cases ht
  cases a with
  | beginOp p =>
    obtain ⟨-, rfl⟩ := hcase
    unfold LogState.beginOp
    split_ifs <;> rfl
  | logWrite p b =>
    obtain ⟨op, mine, hp, rfl⟩ := hcase
    unfold LogState.logWrite
    split_ifs <;> rfl
  | logAppend p =>
    obtain ⟨op, mine, b, hp, rfl⟩ := hcase
    rfl
  | endOp p =>
    obtain ⟨-, rfl⟩ := hcase
    unfold LogState.endOp
    dsimp only
    split_ifs <;> rfl
  | commit p | endCommit p =>
    obtain ⟨-, rfl⟩ := hcase
    rfl
  | kill p =>
    rw [hcase]
    rfl

end LogState

section Absorb

variable (b : ℕ) (lh : List ℕ)

/-- Absorption : a block already logged keeps its slot, any other gets a new one. -/
theorem logAbsorb_eq : logAbsorb b lh = if b ∈ lh then lh else lh ++ [b] := by
  induction lh with
  | nil => rfl
  | cons c cs ih =>
    by_cases hc : c = b
    · simp [logAbsorb, hc]
    · rw [logAbsorb, if_neg hc, ih]
      by_cases hb : b ∈ cs
      · simp [hb]
      · simp [hb, Ne.symm hc]

/-- `log_write` adds the block, -/
theorem mem_logAbsorb {c : ℕ} : c ∈ logAbsorb b lh ↔ c ∈ lh ∨ c = b := by
  rw [logAbsorb_eq]
  split_ifs with h
  · exact ⟨Or.inl, fun hc => hc.elim id fun hc => hc ▸ h⟩
  · simp

variable {lh} in
/-- but only once. -/
theorem nodup_logAbsorb (h : lh.Nodup) : (logAbsorb b lh).Nodup := by
  rw [logAbsorb_eq]
  split_ifs with hb
  · exact h
  · exact nodup_append.2 ⟨h, by simp, by simpa using fun c hc => ne_of_mem_of_not_mem hc hb⟩

theorem length_logAbsorb_le : lh.length ≤ (logAbsorb b lh).length := by
  rw [logAbsorb_eq]
  split_ifs <;> simp

end Absorb

namespace Phase

@[simp] theorem admitted_wake (ph : Phase) : ph.wake.admitted = ph.admitted := by
  cases ph <;> rfl

@[simp] theorem committer_wake (ph : Phase) : ph.wake.committer = ph.committer := by
  cases ph <;> rfl

@[simp] theorem op_wake (ph : Phase) : ph.wake.op = ph.op := by
  cases ph <;> rfl

@[simp] theorem mine_wake (ph : Phase) : ph.wake.mine = ph.mine := by
  cases ph <;> rfl

theorem wake_ne_asleep (ph : Phase) : ph.wake ≠ asleep := by
  cases ph <;> simp [wake]

theorem wake_eq_finish {ph : Phase} : ph.wake = finish ↔ ph = finish := by
  cases ph <;> simp [wake]

end Phase

namespace LogState

variable {P : Type} [DecidableEq P] [Fintype P]

/-! ## The invariant -/

/-- What holds of the log and the processes between any two steps. -/
structure Inv (s : LogState P) : Prop where
  /-- `log.outstanding` counts the admitted processes. -/
  count : s.log.outstanding = (∑ p, (s.phase p).admitted : ℕ)
  /-- One process commits while `log.committing` is set, none otherwise. -/
  committer : (∑ p, (s.phase p).committer) = s.log.committing.toNat
  idle : s.log.committing = true → s.log.outstanding = 0
  empty : s.log.outstanding = 0 → s.log.committing = false → s.log.lh = []
  finish : ∀ p, s.phase p = .finish → s.log.lh = []
  asleep : ∀ p, s.phase p = .asleep → s.log.committing = true ∨ s.log.NoSpace
  nodup : s.log.lh.Nodup
  mine : ∀ p, ∀ b ∈ (s.phase p).mine, b ∈ s.log.lh
  panic : s.panicked = none ∨ s.panicked = some "too big a transaction"

/-- What holds of the history. -/
structure HistInv (s : LogState P) : Prop where
  opCur : ∀ p op, (s.phase p).op = some op → op < s.nextOp ∧ s.opTxn op = s.txns.length
  opOld : ∀ op < s.nextOp, s.opTxn op ≤ s.txns.length
  writes : ∀ x ∈ s.writes, x.1 < s.nextOp
  /-- The log holds the writes of the operations of the current transaction. -/
  current : ∀ b, b ∈ s.log.lh ↔ ∃ op, (op, b) ∈ s.writes ∧ s.opTxn op = s.txns.length
  /-- A committed transaction holds the writes of its operations. -/
  past : ∀ t (h : t < s.txns.length) b,
    b ∈ s.txns[t] ↔ ∃ op, (op, b) ∈ s.writes ∧ s.opTxn op = t

variable {s : LogState P}

/-- An operation that was admitted is counted. -/
theorem Inv.outstanding_pos (h : s.Inv) {p : P} (hp : (s.phase p).admitted = 1) :
    0 < s.log.outstanding := by
  have := weight_le_sum Phase.admitted s.phase p
  rw [h.count]
  omega

/-- No commit runs while an operation is open. -/
theorem Inv.not_committing (h : s.Inv) {p : P} (hp : (s.phase p).admitted = 1) :
    s.log.committing = false := by
  by_contra hc
  have := h.outstanding_pos hp
  have := h.idle (by simpa using hc)
  omega

/-- The process that commits has set `committing`. -/
theorem Inv.committing (h : s.Inv) {p : P} (hp : (s.phase p).committer = 1) :
    s.log.committing = true := by
  have hle := weight_le_sum Phase.committer s.phase p
  rw [h.committer] at hle
  cases hc : s.log.committing with
  | true => rfl
  | false =>
    rw [hc] at hle
    simp only [Bool.toNat_false] at hle
    omega

/-- At most one process commits. -/
theorem Inv.committer_unique (h : s.Inv) {p q : P} (hp : (s.phase p).committer = 1)
    (hq : (s.phase q).committer = 1) : p = q :=
  eq_of_sum_le_one Phase.committer (h.committer.trans_le (Bool.toNat_le _)) hp hq

/-- No process is admitted while a commit runs. -/
theorem Inv.not_admitted (h : s.Inv) (hc : s.log.committing = true) (p : P) :
    (s.phase p).admitted = 0 := by
  have hle := weight_le_sum Phase.admitted s.phase p
  have := h.count
  have := h.idle hc
  omega

theorem inv_init (size : ℕ) : (init P size).Inv where
  count := by simp [init, Phase.admitted]
  committer := by simp [init, Phase.committer]
  idle := by simp [init]
  empty := by simp [init]
  finish := by simp [init]
  asleep := by simp [init]
  nodup := nodup_nil
  mine := by simp [init, Phase.mine]
  panic := Or.inl rfl

theorem histInv_init (size : ℕ) : (init P size).HistInv where
  opCur := by simp [init, Phase.op]
  opOld := by simp [init]
  writes := by simp [init]
  current := by simp [init]
  past := by simp [init]

/-! ## One step -/

/-- What holds of every phase after one has changed. -/
theorem forall_phase {f : P → Phase} (R : P → Phase → Prop) {p : P} {ph : Phase} (hp : R p ph)
    (hf : ∀ q, q ≠ p → R q (f q)) (q : P) : R q (update f p ph q) :=
  (forall_update_iff f R).2 ⟨hp, hf⟩ q

/-- Moving a process between phases of equal weight. -/
theorem Inv.setPhase (h : s.Inv) {p : P} {ph : Phase}
    (ha : ph.admitted = (s.phase p).admitted) (hc : ph.committer = (s.phase p).committer)
    (hm : ∀ b ∈ ph.mine, b ∈ s.log.lh) (hf : ph ≠ .finish)
    (hs : ph = .asleep → s.log.committing = true ∨ s.log.NoSpace) : (s.setPhase p ph).Inv :=
  { h with
    count := by
      have := sum_update_add Phase.admitted s.phase p ph
      have hcount := h.count
      simp only [LogState.setPhase]
      omega
    committer := by
      have := sum_update_add Phase.committer s.phase p ph
      have hcom := h.committer
      simp only [LogState.setPhase]
      omega
    finish := forall_phase (fun _ x => x = .finish → s.log.lh = []) (fun he => absurd he hf)
      fun q _ => h.finish q
    asleep := forall_phase (fun _ x => x = .asleep → _) hs fun q _ => h.asleep q
    mine := forall_phase (fun _ x => ∀ b ∈ x.mine, b ∈ s.log.lh) hm fun q _ => h.mine q }

/-- `begin_op` admits an operation only if there is room for it. -/
theorem Inv.beginOp (h : s.Inv) {p : P} (hp : s.phase p = .outside ∨ s.phase p = .retry) :
    (s.beginOp p).Inv := by
  have ha : (s.phase p).admitted = 0 := by rcases hp with hp | hp <;> simp [hp, Phase.admitted]
  have hc : (s.phase p).committer = 0 := by rcases hp with hp | hp <;> simp [hp, Phase.committer]
  unfold LogState.beginOp
  split_ifs with hcom hsp
  · exact h.setPhase ha.symm hc.symm (by simp [Phase.mine]) (by simp) fun _ => Or.inl hcom
  · exact h.setPhase ha.symm hc.symm (by simp [Phase.mine]) (by simp) fun _ => Or.inr hsp
  · have hcom' : s.log.committing = false := by simpa using hcom
    constructor
    · have := sum_update_add Phase.admitted s.phase p (.active s.nextOp ∅)
      have hcount := h.count
      have h1 : (Phase.active s.nextOp ∅).admitted = 1 := rfl
      simp only
      omega
    · have := sum_update_add Phase.committer s.phase p (.active s.nextOp ∅)
      have hcm := h.committer
      have h0 : (Phase.active s.nextOp ∅).committer = 0 := rfl
      simp only
      omega
    · simp [hcom']
    · have hcount := h.count
      intro h0
      simp only at h0
      omega
    · exact forall_phase (fun _ x => x = .finish → s.log.lh = []) (by simp) fun q _ => h.finish q
    · -- one more reservation leaves less space than before
      exact forall_phase (fun _ x => x = .asleep → _) (by simp) fun q _ hq =>
        Or.inl ((h.asleep q hq).resolve_right hsp)
    · exact h.nodup
    · exact forall_phase (fun _ x => ∀ b ∈ x.mine, b ∈ s.log.lh) (by simp [Phase.mine]) fun q _ =>
        h.mine q
    · exact h.panic

/-- The checks at the head of `log_write`. -/
theorem Inv.logWrite (h : s.Inv) {p : P} {op b : ℕ} {mine : Finset ℕ}
    (hp : s.phase p = .active op mine) : (s.logWrite p op mine b).Inv := by
  have hpos := h.outstanding_pos (p := p) (by simp [hp, Phase.admitted])
  unfold LogState.logWrite
  split_ifs with hbig hout
  · exact { h with panic := Or.inr rfl }
  · omega
  · refine h.setPhase (by simp [hp, Phase.admitted]) (by simp [hp, Phase.committer]) ?_
      (by simp) (by simp)
    intro c hc
    exact h.mine p c (by simpa [hp, Phase.mine] using hc)

/-- `log_write` stays within the reserved blocks. -/
theorem Inv.logAppend (h : s.Inv) {p : P} {op b : ℕ} {mine : Finset ℕ}
    (hp : s.phase p = .logging op mine b) : (s.logAppend p op mine b).Inv := by
  have hpos := h.outstanding_pos (p := p) (by simp [hp, Phase.admitted])
  have hcom := h.not_committing (p := p) (by simp [hp, Phase.admitted])
  constructor
  · have := sum_update_add Phase.admitted s.phase p (.active op (insert b mine))
    have hcount := h.count
    have h1 : (Phase.active op (insert b mine)).admitted = (s.phase p).admitted := by rw [hp]; rfl
    simp only [LogState.logAppend]
    omega
  · have := sum_update_add Phase.committer s.phase p (.active op (insert b mine))
    have hcm := h.committer
    have h1 : (Phase.active op (insert b mine)).committer = (s.phase p).committer := by
      rw [hp]; rfl
    simp only [LogState.logAppend]
    omega
  · exact h.idle
  · intro h0
    simp only [LogState.logAppend] at h0
    omega
  · refine forall_phase (fun _ x => x = .finish → _) (by simp) fun q _ hq => ?_
    have := h.committing (p := q) (by simp [hq, Phase.committer])
    simp [hcom] at this
  · refine forall_phase (fun _ x => x = .asleep → _) (by simp) fun q _ hq => ?_
    refine (h.asleep q hq).imp_right fun hs => ?_
    have hlen := length_logAbsorb_le b s.log.lh
    simp only [Log.NoSpace, LogState.logAppend] at hs ⊢
    omega
  · exact nodup_logAbsorb b h.nodup
  · simp only [LogState.logAppend, mem_logAbsorb]
    refine forall_phase (fun _ x => ∀ c ∈ x.mine, c ∈ s.log.lh ∨ c = b) (fun c hc => ?_)
      fun q _ c hc => Or.inl (h.mine q c hc)
    refine (mem_insert.1 hc).symm.imp_left fun hc' => h.mine p c ?_
    rwa [hp]
  · exact h.panic

/-- The counters after waking everybody and moving `p` outside. -/
theorem sum_wake_outside (s : LogState P) (p : P) :
    (∑ q, (update (fun q => (s.phase q).wake) p .outside q).admitted) +
        (s.phase p).admitted = ∑ q, (s.phase q).admitted ∧
      (∑ q, (update (fun q => (s.phase q).wake) p .outside q).committer) +
        (s.phase p).committer = ∑ q, (s.phase q).committer := by
  have ha := sum_update_add Phase.admitted (fun q => (s.phase q).wake) p .outside
  have hc := sum_update_add Phase.committer (fun q => (s.phase q).wake) p .outside
  simp only [Phase.admitted_wake, Phase.committer_wake] at ha hc
  exact ⟨ha, hc⟩

theorem wake_outside_ne_asleep (s : LogState P) (p : P) :
    ∀ q, update (fun q => (s.phase q).wake) p .outside q ≠ .asleep :=
  forall_phase (fun _ x => x ≠ .asleep) (by simp) fun _ _ => Phase.wake_ne_asleep _

theorem wake_outside_finish (s : LogState P) (p : P) :
    ∀ q, update (fun q => (s.phase q).wake) p .outside q = .finish → s.phase q = .finish :=
  forall_phase (fun q x => x = .finish → s.phase q = .finish) (by simp) fun _ _ =>
    Phase.wake_eq_finish.1

theorem wake_outside_mine (s : LogState P) (p : P) :
    ∀ q, (update (fun q => (s.phase q).wake) p .outside q).mine ⊆ (s.phase q).mine :=
  forall_phase (fun q x => x.mine ⊆ (s.phase q).mine) (by simp [Phase.mine]) fun _ _ => by simp

/-- The last `end_op` starts the commit. -/
theorem Inv.endOp (h : s.Inv) {p : P} {op : ℕ} {mine : Finset ℕ}
    (hp : s.phase p = .active op mine) : (s.endOp p).Inv := by
  have hadm : (s.phase p).admitted = 1 := by simp [hp, Phase.admitted]
  have hcmt : (s.phase p).committer = 0 := by simp [hp, Phase.committer]
  have hcom := h.not_committing hadm
  have hcount := h.count
  have hcm := h.committer
  rw [hcom, Bool.toNat_false] at hcm
  have hnofin : ∀ q, s.phase q ≠ .finish := by
    intro q hq
    have := h.committing (p := q) (by simp [hq, Phase.committer])
    simp [hcom] at this
  unfold LogState.endOp
  simp only [hcom, Bool.false_eq_true, if_false]
  split_ifs with hzero
  · -- the last operation starts the commit
    have ha := sum_update_add Phase.admitted s.phase p .commit
    have hc := sum_update_add Phase.committer s.phase p .commit
    have ha0 : Phase.commit.admitted = 0 := rfl
    have hc1 : Phase.commit.committer = 1 := rfl
    refine ⟨by simp only; omega, by simp only [Bool.toNat_true]; omega, fun _ => hzero,
      fun _ => by simp, ?_, fun _ _ => Or.inl rfl, h.nodup, ?_, h.panic⟩
    · exact forall_phase (fun _ x => x = .finish → s.log.lh = []) (by simp) fun q _ hq =>
        absurd hq (hnofin q)
    · exact forall_phase (fun _ x => ∀ b ∈ x.mine, b ∈ s.log.lh) (by simp [Phase.mine]) fun q _ =>
        h.mine q
  · obtain ⟨ha, hc⟩ := sum_wake_outside s p
    refine ⟨by simp only; omega, by simp only [Bool.toNat_false]; omega, by simp,
      fun h0 => absurd h0 hzero,
      fun q hq => absurd (wake_outside_finish s p q hq) (hnofin q),
      fun q hq => absurd hq (wake_outside_ne_asleep s p q), h.nodup,
      fun q b hb => h.mine q b (wake_outside_mine s p q hb), h.panic⟩

/-- The commit empties the log. -/
theorem Inv.commit (h : s.Inv) {p : P} (hp : s.phase p = .commit) : (s.commit p).Inv := by
  have hcom := h.committing (p := p) (by simp [hp, Phase.committer])
  have ha := sum_update_add Phase.admitted s.phase p .finish
  have hc := sum_update_add Phase.committer s.phase p .finish
  have ha0 : Phase.finish.admitted = (s.phase p).admitted := by rw [hp]; rfl
  have hc1 : Phase.finish.committer = (s.phase p).committer := by rw [hp]; rfl
  have hcount := h.count
  have hcm := h.committer
  refine ⟨by simp only [LogState.commit]; omega, by simp only [LogState.commit]; omega, h.idle,
    fun _ _ => rfl, fun _ _ => rfl, fun _ _ => Or.inl hcom, nodup_nil, ?_, h.panic⟩
  refine forall_phase (fun _ x => ∀ b ∈ x.mine, b ∈ []) (by simp [Phase.mine]) fun q _ b hb => ?_
  -- nobody is admitted, so nobody has logged anything
  have hq := h.not_admitted hcom q
  cases hph : s.phase q <;> simp [hph, Phase.mine, Phase.admitted] at hb hq

/-- The end of the commit wakes those that wait. -/
theorem Inv.endCommit (h : s.Inv) {p : P} (hp : s.phase p = .finish) : (s.endCommit p).Inv := by
  have hcom := h.committing (p := p) (by simp [hp, Phase.committer])
  have hlh := h.finish p hp
  obtain ⟨ha, hc⟩ := sum_wake_outside s p
  have ha0 : (s.phase p).admitted = 0 := by rw [hp]; rfl
  have hc1 : (s.phase p).committer = 1 := by rw [hp]; rfl
  have hcount := h.count
  have hcm := h.committer
  rw [hcom, Bool.toNat_true] at hcm
  exact ⟨by simp only [LogState.endCommit]; omega,
    by simp only [LogState.endCommit, Bool.toNat_false]; omega, by simp [LogState.endCommit],
    fun _ _ => hlh, fun _ _ => hlh, fun q hq => absurd hq (wake_outside_ne_asleep s p q), h.nodup,
    fun q b hb => h.mine q b (wake_outside_mine s p q hb), h.panic⟩

theorem Inv.kill (h : s.Inv) (p : P) : (s.setPhase p (s.phase p).wake).Inv := by
  by_cases hf : s.phase p = .finish
  · have hid : s.setPhase p (s.phase p).wake = s := by
      rw [LogState.setPhase, hf, show Phase.finish.wake = .finish from rfl, ← hf,
        update_eq_self]
    rw [hid]
    exact h
  · exact h.setPhase (by simp) (by simp) (fun b hb => h.mine p b (by simpa using hb))
      (by rwa [Ne, Phase.wake_eq_finish]) fun hs => absurd hs (Phase.wake_ne_asleep _)

/-- Every step keeps the invariant. -/
theorem Inv.step (h : s.Inv) {t : LogState P} {a : LogAction P} (ht : s.step a = some t) :
    t.Inv := by
  obtain ⟨-, hcase⟩ := step_cases ht
  cases a with
  | beginOp p => exact hcase.2 ▸ h.beginOp hcase.1
  | logWrite p b =>
    obtain ⟨op, mine, hp, rfl⟩ := hcase
    exact h.logWrite hp
  | logAppend p =>
    obtain ⟨op, mine, b, hp, rfl⟩ := hcase
    exact h.logAppend hp
  | endOp p =>
    obtain ⟨⟨op, mine, hp⟩, rfl⟩ := hcase
    exact h.endOp hp
  | commit p => exact hcase.2 ▸ h.commit hcase.1
  | endCommit p => exact hcase.2 ▸ h.endCommit hcase.1
  | kill p => exact hcase ▸ h.kill p

/-- A step that admits nobody and logs nothing keeps the history. -/
theorem HistInv.of_phase (h : s.HistInv) {t : LogState P} (hn : t.nextOp = s.nextOp)
    (ho : t.opTxn = s.opTxn) (hw : t.writes = s.writes) (hx : t.txns = s.txns)
    (hl : t.log.lh = s.log.lh)
    (hp : ∀ p op, (t.phase p).op = some op → (s.phase p).op = some op) : t.HistInv := by
  constructor
  · intro p op hop
    rw [hn, ho, hx]
    exact h.opCur p op (hp p op hop)
  · rw [hn, ho, hx]
    exact h.opOld
  · rw [hw, hn]
    exact h.writes
  · rw [hl, hw, ho, hx]
    exact h.current
  · simp only [hx, hw, ho]
    exact h.past

theorem HistInv.setPhase (h : s.HistInv) {p : P} {ph : Phase}
    (hop : ∀ op, ph.op = some op → (s.phase p).op = some op) : (s.setPhase p ph).HistInv := by
  exact h.of_phase rfl rfl rfl rfl rfl (forall_phase (fun q x =>
    ∀ op, x.op = some op → (s.phase q).op = some op) hop fun _ _ _ => id)

/-- A new operation joins the open transaction. -/
theorem HistInv.beginOp (h : s.HistInv) (p : P) : (s.beginOp p).HistInv := by
  unfold LogState.beginOp
  split_ifs
  · exact h.setPhase (by simp [Phase.op])
  · exact h.setPhase (by simp [Phase.op])
  · -- the new operation has no writes yet
    have hold : ∀ x ∈ s.writes, update s.opTxn s.nextOp s.txns.length x.1 = s.opTxn x.1 :=
      fun x hx => update_of_ne (h.writes x hx).ne _ _
    have hex : ∀ (b t : ℕ), (∃ op, (op, b) ∈ s.writes ∧
        update s.opTxn s.nextOp s.txns.length op = t) ↔
          ∃ op, (op, b) ∈ s.writes ∧ s.opTxn op = t := by
      intro b t
      refine exists_congr fun op => and_congr_right fun hx => ?_
      rw [hold _ hx]
    constructor
    · intro q op hq
      by_cases hqp : q = p
      · subst hqp
        obtain rfl : s.nextOp = op := by simpa [Phase.op] using hq
        exact ⟨Nat.lt_succ_self _, by simp⟩
      · obtain ⟨hlt, htx⟩ := h.opCur q op (by simpa [hqp] using hq)
        exact ⟨Nat.lt_succ_of_lt hlt, (Function.update_of_ne hlt.ne _ _).trans htx⟩
    · intro op hop
      by_cases hn : op = s.nextOp
      · subst hn
        simp
      · change Function.update s.opTxn s.nextOp s.txns.length op ≤ s.txns.length
        rw [Function.update_of_ne hn]
        exact h.opOld op (by simp only at hop; omega)
    · exact fun x hx => Nat.lt_succ_of_lt (h.writes x hx)
    · exact fun b => (h.current b).trans (hex b _).symm
    · exact fun t ht b => (h.past t ht b).trans (hex b t).symm

/-- A write belongs to the transaction of its operation. -/
theorem HistInv.logAppend (h : s.HistInv) {p : P} {op b : ℕ} {mine : Finset ℕ}
    (hp : s.phase p = .logging op mine b) : (s.logAppend p op mine b).HistInv := by
  obtain ⟨hlt, htx⟩ := h.opCur p op (by simp [hp, Phase.op])
  constructor
  · intro q o hq
    by_cases hqp : q = p
    · subst hqp
      obtain rfl : op = o := by simpa [LogState.logAppend, Phase.op] using hq
      exact ⟨hlt, htx⟩
    · exact h.opCur q o (by simpa [LogState.logAppend, hqp] using hq)
  · exact h.opOld
  · intro x hx
    rcases List.mem_append.1 hx with hx | hx
    · exact h.writes x hx
    · rw [List.mem_singleton.1 hx]
      exact hlt
  · intro c
    simp only [LogState.logAppend, mem_logAbsorb, List.mem_append, List.mem_singleton,
      Prod.mk.injEq, h.current c]
    constructor
    · rintro (⟨o, ho, hot⟩ | rfl)
      · exact ⟨o, Or.inl ho, hot⟩
      · exact ⟨op, Or.inr ⟨rfl, rfl⟩, htx⟩
    · rintro ⟨o, ho | ⟨-, hc⟩, hot⟩
      · exact Or.inl ⟨o, ho, hot⟩
      · exact Or.inr hc
  · intro t ht c
    simp only [LogState.logAppend, List.mem_append, List.mem_singleton, Prod.mk.injEq] at ht ⊢
    rw [h.past t ht c]
    refine exists_congr fun o => ⟨fun ⟨ho, hot⟩ => ⟨Or.inl ho, hot⟩, ?_⟩
    rintro ⟨ho | ⟨rfl, -⟩, hot⟩
    · exact ⟨ho, hot⟩
    · omega

/-- A commit has every write of its operations. -/
theorem HistInv.commit (h : s.HistInv) (hi : s.Inv) {p : P} (hp : s.phase p = .commit) :
    (s.commit p).HistInv := by
  have hcom := hi.committing (p := p) (by simp [hp, Phase.committer])
  have hlen : (s.commit p).txns.length = s.txns.length + 1 := by simp [LogState.commit]
  constructor
  · intro q op hq
    -- nobody is admitted while the commit runs
    have hadm := hi.not_admitted hcom q
    by_cases hqp : q = p
    · subst hqp
      simp [LogState.commit, Phase.op] at hq
    · have hq' : (s.phase q).op = some op := by simpa [LogState.commit, hqp] using hq
      cases hph : s.phase q <;> simp [hph, Phase.op, Phase.admitted] at hq' hadm
  · intro op hop
    rw [hlen]
    exact (h.opOld op hop).trans (Nat.le_succ _)
  · exact h.writes
  · intro b
    rw [hlen]
    refine ⟨fun hb => by simp [LogState.commit] at hb, ?_⟩
    rintro ⟨op, hop, hot⟩
    have := h.opOld op (h.writes _ hop)
    simp only [LogState.commit] at hot
    omega
  · intro t ht b
    rw [hlen] at ht
    simp only [LogState.commit]
    rcases lt_or_ge t s.txns.length with hlt | hge
    · rw [getElem_append_left hlt]
      exact h.past t hlt b
    · obtain rfl : t = s.txns.length := by omega
      simpa using h.current b

theorem HistInv.wake_outside (h : s.HistInv) {t : LogState P} {p : P} (hn : t.nextOp = s.nextOp)
    (ho : t.opTxn = s.opTxn) (hw : t.writes = s.writes) (hx : t.txns = s.txns)
    (hl : t.log.lh = s.log.lh)
    (hp : t.phase = update (fun q => (s.phase q).wake) p .outside) : t.HistInv := by
  refine h.of_phase hn ho hw hx hl ?_
  rw [hp]
  exact forall_phase (fun q x => ∀ op, x.op = some op → (s.phase q).op = some op)
    (by simp [Phase.op]) fun _ _ => by simp

theorem HistInv.endOp (h : s.HistInv) (p : P) : (s.endOp p).HistInv := by
  unfold LogState.endOp
  dsimp only
  split_ifs
  · exact h.of_phase rfl rfl rfl rfl rfl fun _ _ hq => hq
  · exact h.of_phase rfl rfl rfl rfl rfl (forall_phase (fun q x =>
      ∀ op, x.op = some op → (s.phase q).op = some op) (by simp [Phase.op]) fun _ _ _ => id)
  · exact h.wake_outside rfl rfl rfl rfl rfl rfl

/-- Every step keeps the history's invariant. -/
theorem HistInv.step (h : s.HistInv) (hi : s.Inv) {t : LogState P} {a : LogAction P}
    (ht : s.step a = some t) : t.HistInv := by
  obtain ⟨-, hcase⟩ := step_cases ht
  cases a with
  | beginOp p => exact hcase.2 ▸ h.beginOp p
  | logWrite p b =>
    obtain ⟨op, mine, hp, rfl⟩ := hcase
    unfold LogState.logWrite
    split_ifs
    · exact h.of_phase rfl rfl rfl rfl rfl fun _ _ hq => hq
    · exact h.of_phase rfl rfl rfl rfl rfl fun _ _ hq => hq
    · exact h.setPhase (by simp [hp, Phase.op])
  | logAppend p =>
    obtain ⟨op, mine, b, hp, rfl⟩ := hcase
    exact h.logAppend hp
  | endOp p =>
    obtain ⟨-, rfl⟩ := hcase
    exact h.endOp p
  | commit p => exact hcase.2 ▸ h.commit hi hcase.1
  | endCommit p =>
    obtain ⟨-, rfl⟩ := hcase
    exact h.wake_outside rfl rfl rfl rfl rfl rfl
  | kill p => exact hcase ▸ h.setPhase (by simp)

/-- Both invariants hold at the end of every run. -/
theorem inv_of_exec {size : ℕ} {as : List (LogAction P)}
    (h : exec step (init P size) as = some s) : s.Inv ∧ s.HistInv :=
  exec_invariant_all (fun s => s.Inv ∧ s.HistInv)
    (fun _ _ _ hs ht => ⟨hs.1.step ht, hs.2.step hs.1 ht⟩)
    ⟨inv_init size, histInv_init size⟩ h

/-! ## The protocol -/

/-- The group commit protocol, in every state of every run. While `log.committing` is
set no operation is outstanding, none is admitted and no `log_write` is possible. A
committed transaction consists of the writes of the operations admitted to it, and
with no operation outstanding and no commit running the log is empty. The panic of
`end_op` does not happen, and a process asleep in `begin_op` would have to wait if it
tested again. -/
theorem group_commit (size : ℕ) (as : List (LogAction P)) (s : LogState P)
    (h : exec step (init P size) as = some s) :
    (s.log.committing = true → s.log.outstanding = 0) ∧
      (s.log.committing = true → ∀ p, (s.phase p).admitted = 0 ∧
        (∀ b, s.step (.logWrite p b) = none) ∧ s.step (.logAppend p) = none ∧
        ∀ t, s.step (.beginOp p) = some t → t.phase p = .asleep) ∧
      (∀ t (ht : t < s.txns.length) b,
        b ∈ s.txns[t] ↔ ∃ op, (op, b) ∈ s.writes ∧ s.opTxn op = t) ∧
      (s.log.outstanding = 0 → s.log.committing = false → s.log.lh = []) ∧
      s.panicked ≠ some "log.committing" ∧
      ∀ p, s.phase p = .asleep → s.log.committing = true ∨ s.log.NoSpace := by
  obtain ⟨hi, hh⟩ := inv_of_exec h
  refine ⟨hi.idle, fun hcom p => ?_, hh.past, hi.empty, ?_, hi.asleep⟩
  · have hadm := hi.not_admitted hcom p
    refine ⟨hadm, fun b => ?_, ?_, fun t ht => ?_⟩
    · by_contra hne
      obtain ⟨t, ht⟩ := Option.ne_none_iff_exists'.1 hne
      obtain ⟨-, op, mine, hp, -⟩ := step_cases ht
      simp [hp, Phase.admitted] at hadm
    · by_contra hne
      obtain ⟨t, ht⟩ := Option.ne_none_iff_exists'.1 hne
      obtain ⟨-, op, mine, b, hp, -⟩ := step_cases ht
      simp [hp, Phase.admitted] at hadm
    · obtain ⟨-, -, rfl⟩ := step_cases ht
      simp [LogState.beginOp, hcom, LogState.setPhase]
  · rcases hi.panic with hp | hp <;> simp [hp]

/-- One process commits, and another asks for an operation meanwhile. -/
def refusedRun : List (LogAction (Fin 2)) :=
  [.beginOp 0, .logWrite 0 7, .logAppend 0, .endOp 0, .beginOp 1]

theorem group_commit_refused :
    ∃ s, exec step (init (Fin 2) LOGSIZE) refusedRun = some s ∧
      s.phase 1 = .asleep ∧ (s.log.committing = true ∨ s.log.NoSpace) := by
  refine ⟨_, rfl, rfl, ?_⟩
  exact (group_commit LOGSIZE refusedRun _ rfl).2.2.2.2.2 1 rfl

end LogState

end Xv6
