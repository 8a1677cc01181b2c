import Mathlib.Algebra.Order.Ring.Nat
import Xv6.Runs
import Mathlib.Logic.Function.Basic
import Mathlib.Tactic.Common

/-!
# Sleeping and waking under a spinlock

A monitor is a set of procedures that work on shared data under one spinlock and wait for
each other with `sleep` and `wakeup`. A procedure is a control graph : `code l` is the
instruction at location `l`, which also has the procedure's local variables.

`sleep` is as fine as the two locks allow : it takes the lock of the process table, releases
the spinlock, then marks the process sleeping and gives up the table lock with the CPU. A
process that is woken tidies up under the table lock and then has to get the spinlock again.
`kill` marks a process and makes it runnable if it sleeps.

An `Outline` says what holds at each location under the lock and whenever the lock is free,
and its instances say so in every run (`Outline.inv_run`). `Outline.Waits` adds for each
channel the condition that processes wait for and who still owes a `wakeup` ; if every
process pays before it releases the lock, nobody sleeps for something that has happened
(`Outline.Waits.run`). `loc_run` is the rule for facts about where all processes are, and
`Outline.lock_run` for facts that also depend on who has the lock.
-/

set_option linter.unusedSectionVars false

namespace Xv6

open Function Option

/-- An instruction of a procedure of a monitor. -/
inductive Instr (P D L Ch : Type*) where
  /-- Outside all procedures. -/
  | idle
  | acquire (next : L)
  /-- Work on the data. The process and whether it has been killed are known. -/
  | act (f : P → Bool → D → D × L)
  | wakeup (c : Ch) (next : L)
  | sleep (c : Ch) (next : L)
  | release (next : L)

/-- The procedures, and which of them can be called where. -/
structure Monitor (P D L Ch : Type*) where
  code : L → Instr P D L Ch
  calls : L → L → Bool

namespace Monitor

variable {P D L Ch : Type*}

/-- Where a process is with respect to the process table. -/
inductive Mode (Ch : Type*) where
  | awake
  /-- In `sleep`, with both locks. -/
  | dozing (c : Ch)
  /-- In `sleep`, with the table lock only. -/
  | dropping (c : Ch)
  | asleep (c : Ch)
  /-- Runnable again. -/
  | woken
  /-- In `sleep`, about to get the spinlock. -/
  | waiting
deriving DecidableEq

/-- The process has the spinlock though it is not awake. -/
def Mode.dozes : Mode Ch → Bool
  | dozing _ => true
  | _ => false

/-- The process has the table lock. -/
def Mode.drops : Mode Ch → Bool
  | dozing _ => true
  | dropping _ => true
  | _ => false

/-- The process waits for `c` without the spinlock. -/
def Mode.Sleeps (m : Mode Ch) (c : Ch) : Prop := m = .dropping c ∨ m = .asleep c

/-- `wakeup1` for one process. -/
def Mode.wake [DecidableEq Ch] (c : Ch) (m : Mode Ch) : Mode Ch :=
  if m = .asleep c then .woken else m

/-- `kill` for one process. -/
def Mode.kill : Mode Ch → Mode Ch
  | asleep _ => .woken
  | m => m

@[grind =]
theorem Mode.dozes_kill (m : Mode Ch) : m.kill.dozes = m.dozes := by cases m <;> rfl

@[grind =]
theorem Mode.drops_kill (m : Mode Ch) : m.kill.drops = m.drops := by cases m <;> rfl

@[grind =]
theorem Mode.kill_eq_awake (m : Mode Ch) : m.kill = .awake ↔ m = .awake := by
  cases m <;> simp [kill]

theorem Mode.wake_eq [DecidableEq Ch] {c : Ch} {m m' : Mode Ch} (h : m.wake c = m')
    (hne : m' ≠ .woken) : m = m' := by
  unfold wake at h
  split_ifs at h
  · exact absurd h.symm hne
  · exact h

theorem Mode.wake_ne [DecidableEq Ch] (c : Ch) (m : Mode Ch) : m.wake c ≠ .asleep c := by
  unfold wake
  split_ifs with h
  · simp
  · exact h

theorem Mode.kill_eq {m m' : Mode Ch} (h : m.kill = m') (hne : m' ≠ .woken) : m = m' := by
  cases m with
  | asleep c => exact absurd h.symm hne
  | _ => exact h

theorem mode_of_update [DecidableEq P] {w : P → Mode Ch} {p q : P} {m m' : Mode Ch}
    (h : update w p m q = m') (hne : m ≠ m') : w q = m' := by
  by_cases hq : q = p
  · rw [hq, update_self] at h
    exact absurd h hne
  · rwa [update_of_ne hq] at h

variable (P D L Ch) in
/-- The state of the processes, the locks and the data. -/
structure State where
  data : D
  lk : Option P
  plock : Option P
  loc : P → L
  mode : P → Mode Ch
  killed : P → Bool

/-- Everybody is awake at `l`, and the locks are free. -/
def State.start (d : D) (l : L) : State P D L Ch :=
  ⟨d, none, none, fun _ => l, fun _ => .awake, fun _ => false⟩

/-- What can happen. -/
inductive Act (P L : Type*) where
  | call (p : P) (l : L)
  | run (p : P)
  | kill (p : P)

variable [DecidableEq P] [DecidableEq Ch] (M : Monitor P D L Ch)

/-- The location is under the lock. -/
def inside (l : L) : Bool :=
  match M.code l with
  | .idle => false
  | .acquire _ => false
  | _ => true

/-- The next step of a process. -/
def run (s : State P D L Ch) (p : P) : Option (State P D L Ch) :=
  match s.mode p with
  | .awake =>
    match M.code (s.loc p) with
    | .idle => none
    | .acquire n =>
      if s.lk = none then some { s with lk := some p, loc := update s.loc p n } else none
    | .act f =>
      let r := f p (s.killed p) s.data
      some { s with data := r.1, loc := update s.loc p r.2 }
    | .wakeup c n =>
      if s.plock = none then
        some { s with mode := fun q => (s.mode q).wake c, loc := update s.loc p n }
      else none
    | .sleep c n =>
      if s.plock = none then
        some { s with
          plock := some p, mode := update s.mode p (.dozing c), loc := update s.loc p n }
      else none
    | .release n => some { s with lk := none, loc := update s.loc p n }
  | .dozing c => some { s with lk := none, mode := update s.mode p (.dropping c) }
  | .dropping c => some { s with plock := none, mode := update s.mode p (.asleep c) }
  | .asleep _ => none
  | .woken => if s.plock = none then some { s with mode := update s.mode p .waiting } else none
  | .waiting =>
    if s.lk = none then some { s with lk := some p, mode := update s.mode p .awake } else none

/-- One step. -/
def step (s : State P D L Ch) : Act P L → Option (State P D L Ch)
  | .call p l =>
    if s.mode p = .awake ∧ M.calls (s.loc p) l then some { s with loc := update s.loc p l }
    else none
  | .run p => M.run s p
  | .kill p =>
    if s.plock = none then
      some { s with
        killed := update s.killed p true, mode := update s.mode p (s.mode p).kill }
    else none

/-- What a step does. -/
inductive Next (s : State P D L Ch) : Act P L → State P D L Ch → Prop where
  | call {p : P} {l : L} (hm : s.mode p = .awake) (hc : M.calls (s.loc p) l = true) :
    Next s (.call p l) { s with loc := update s.loc p l }
  | acquire {p : P} {n : L} (hm : s.mode p = .awake) (hc : M.code (s.loc p) = .acquire n)
    (hl : s.lk = none) : Next s (.run p) { s with lk := some p, loc := update s.loc p n }
  | act {p : P} {f : P → Bool → D → D × L} (hm : s.mode p = .awake)
    (hc : M.code (s.loc p) = .act f) :
    Next s (.run p) { s with
      data := (f p (s.killed p) s.data).1
      loc := update s.loc p (f p (s.killed p) s.data).2 }
  | wakeup {p : P} {c : Ch} {n : L} (hm : s.mode p = .awake) (hc : M.code (s.loc p) = .wakeup c n)
    (hl : s.plock = none) :
    Next s (.run p) { s with mode := fun q => (s.mode q).wake c, loc := update s.loc p n }
  | sleep {p : P} {c : Ch} {n : L} (hm : s.mode p = .awake) (hc : M.code (s.loc p) = .sleep c n)
    (hl : s.plock = none) :
    Next s (.run p) { s with
      plock := some p, mode := update s.mode p (.dozing c), loc := update s.loc p n }
  | release {p : P} {n : L} (hm : s.mode p = .awake) (hc : M.code (s.loc p) = .release n) :
    Next s (.run p) { s with lk := none, loc := update s.loc p n }
  | drop {p : P} {c : Ch} (hm : s.mode p = .dozing c) :
    Next s (.run p) { s with lk := none, mode := update s.mode p (.dropping c) }
  | sched {p : P} {c : Ch} (hm : s.mode p = .dropping c) :
    Next s (.run p) { s with plock := none, mode := update s.mode p (.asleep c) }
  | tidy {p : P} (hm : s.mode p = .woken) (hl : s.plock = none) :
    Next s (.run p) { s with mode := update s.mode p .waiting }
  | back {p : P} (hm : s.mode p = .waiting) (hl : s.lk = none) :
    Next s (.run p) { s with lk := some p, mode := update s.mode p .awake }
  | kill {p : P} (hl : s.plock = none) :
    Next s (.kill p) { s with
      killed := update s.killed p true, mode := update s.mode p (s.mode p).kill }

variable {M} in
theorem next_of_run {s t : State P D L Ch} {p : P} (h : M.run s p = some t) :
    M.Next s (.run p) t := by
  unfold run at h
  cases hm : s.mode p with
  | awake =>
    simp only [hm] at h
    cases hc : M.code (s.loc p) with
    | idle => simp [hc] at h
    | acquire n =>
      simp only [hc] at h
      split_ifs at h with hl
      obtain rfl := some.inj h
      exact .acquire hm hc hl
    | act f =>
      simp only [hc] at h
      obtain rfl := some.inj h
      exact .act hm hc
    | wakeup c n =>
      simp only [hc] at h
      split_ifs at h with hl
      obtain rfl := some.inj h
      exact .wakeup hm hc hl
    | sleep c n =>
      simp only [hc] at h
      split_ifs at h with hl
      obtain rfl := some.inj h
      exact .sleep hm hc hl
    | release n =>
      simp only [hc] at h
      obtain rfl := some.inj h
      exact .release hm hc
  | dozing c =>
    simp only [hm] at h
    obtain rfl := some.inj h
    exact .drop hm
  | dropping c =>
    simp only [hm] at h
    obtain rfl := some.inj h
    exact .sched hm
  | asleep c => simp [hm] at h
  | woken =>
    simp only [hm] at h
    split_ifs at h with hl
    obtain rfl := some.inj h
    exact .tidy hm hl
  | waiting =>
    simp only [hm] at h
    split_ifs at h with hl
    obtain rfl := some.inj h
    exact .back hm hl

variable {M} in
/-- What a step does. -/
theorem next_of_step {s t : State P D L Ch} {a : Act P L} (h : M.step s a = some t) :
    M.Next s a t := by
  cases a with
  | call p l =>
    simp only [step] at h
    split_ifs at h with hc
    obtain rfl := some.inj h
    exact .call hc.1 hc.2
  | run p => exact next_of_run h
  | kill p =>
    simp only [step] at h
    split_ifs at h with hl
    obtain rfl := some.inj h
    exact .kill hl

/-- A process can go from one location to another without working on the data. -/
def Goes (l n : L) : Prop :=
  M.calls l n = true ∨ M.code l = .acquire n ∨ (∃ c, M.code l = .wakeup c n) ∨
    (∃ c, M.code l = .sleep c n) ∨ M.code l = .release n

variable {M} in
/-- A fact about the data and the places of all processes that every instruction keeps. -/
theorem loc_run (J : D → (P → L) → Prop)
    (hgo : ∀ d loc p n, M.Goes (loc p) n → J d loc → J d (update loc p n))
    (hact : ∀ d loc p f k, M.code (loc p) = .act f → J d loc →
      J (f p k d).1 (update loc p (f p k d).2))
    {s t : State P D L Ch} {acts : List (Act P L)} (hs : J s.data s.loc)
    (h : exec M.step s acts = some t) : J t.data t.loc := by
  refine exec_invariant_all (fun s => J s.data s.loc) (fun s a t hs ht => ?_) hs h
  cases next_of_step ht with
  | call hm hc => exact hgo _ _ _ _ (Or.inl hc) hs
  | acquire hm hc hl => exact hgo _ _ _ _ (Or.inr (Or.inl hc)) hs
  | act hm hc => exact hact _ _ _ _ _ hc hs
  | wakeup hm hc hl => exact hgo _ _ _ _ (Or.inr (Or.inr (Or.inl ⟨_, hc⟩))) hs
  | sleep hm hc hl => exact hgo _ _ _ _ (Or.inr (Or.inr (Or.inr (Or.inl ⟨_, hc⟩)))) hs
  | release hm hc => exact hgo _ _ _ _ (Or.inr (Or.inr (Or.inr (Or.inr hc)))) hs
  | _ => exact hs

/-- What holds at each location under the lock, and when the lock is free. -/
structure Outline where
  free : D → Prop
  here : L → D → Prop
  call : ∀ {l n}, M.calls l n = true → M.inside l = false ∧ M.inside n = false
  acquire : ∀ {l n}, M.code l = .acquire n → M.inside n = true ∧ ∀ d, free d → here n d
  act : ∀ {l f}, M.code l = .act f → ∀ p k d, here l d →
    M.inside (f p k d).2 = true ∧ here (f p k d).2 (f p k d).1
  wakeup : ∀ {l c n}, M.code l = .wakeup c n → M.inside n = true ∧ ∀ d, here l d → here n d
  sleep : ∀ {l c n}, M.code l = .sleep c n →
    M.inside n = true ∧ (∀ d, here l d → free d) ∧ ∀ d, free d → here n d
  release : ∀ {l n}, M.code l = .release n → M.inside n = false ∧ ∀ d, here l d → free d

namespace Outline

variable {M} (O : Outline M) {s t : State P D L Ch}

/-- Who has which lock, and what is known. -/
structure Inv (s : State P D L Ch) : Prop where
  lk : ∀ p, s.lk = some p ↔
    s.mode p = .awake ∧ M.inside (s.loc p) = true ∨ (s.mode p).dozes = true
  plock : ∀ p, s.plock = some p ↔ (s.mode p).drops = true
  free : s.lk = none → O.free s.data
  here : ∀ p, s.mode p = .awake → M.inside (s.loc p) = true → O.here (s.loc p) s.data
  dozing : ∀ p, (s.mode p).dozes = true → O.free s.data
  back : ∀ p, s.mode p ≠ .awake →
    M.inside (s.loc p) = true ∧ ∀ d, O.free d → O.here (s.loc p) d

theorem Inv.step {O : Outline M} (h : O.Inv s) {a : Act P L} (ht : M.Next s a t) : O.Inv t := by
  obtain ⟨h1, h2, h3, h4, h5, h6⟩ := h
  cases ht with
  | call hm hc =>
    have := O.call hc
    constructor <;> grind -ring -linarith -lia [update_apply]
  | acquire hm hc hl =>
    have := O.acquire hc
    constructor <;> grind -ring -linarith -lia [update_apply]
  | @act p f hm hc =>
    have hin : M.inside (s.loc p) = true := by simp [inside, hc]
    have hlk := (h1 p).2 (Or.inl ⟨hm, hin⟩)
    have hone : ∀ q, (s.mode q).dozes ≠ true := fun q hq => by
      obtain rfl := some.inj (hlk.symm.trans ((h1 q).2 (Or.inr hq)))
      rw [hm] at hq
      cases hq
    have := O.act hc p (s.killed p) s.data (h4 p hm hin)
    constructor <;> grind -ring -linarith -lia [update_apply]
  | @wakeup p c n hm hc hl =>
    have hin : M.inside (s.loc p) = true := by simp [inside, hc]
    have := O.wakeup hc
    constructor <;> grind -ring -linarith -lia [update_apply, Mode.wake, Mode.dozes, Mode.drops]
  | @sleep p c n hm hc hl =>
    have hin : M.inside (s.loc p) = true := by simp [inside, hc]
    have := O.sleep hc
    constructor <;> grind -ring -linarith -lia [update_apply, Mode.dozes, Mode.drops]
  | @release p n hm hc =>
    have hin : M.inside (s.loc p) = true := by simp [inside, hc]
    have := O.release hc
    constructor <;> grind -ring -linarith -lia [update_apply, Mode.dozes]
  | drop hm | sched hm | tidy hm hl | back hm hl =>
    constructor <;> grind -ring -linarith -lia [update_apply, Mode.dozes, Mode.drops]
  | kill hl => constructor <;> grind -ring -linarith -lia [update_apply]

theorem inv_start {O : Outline M} {d : D} {l : L} (hd : O.free d) (hl : M.inside l = false) :
    O.Inv (State.start d l : State P D L Ch) := by
  constructor <;> simp [State.start, hd, hl, Mode.dozes, Mode.drops]

/-- What is known holds in every state that is reached. -/
theorem inv_run {O : Outline M} {d : D} {l : L} (hd : O.free d) (hl : M.inside l = false)
    {acts : List (Act P L)} (h : exec M.step (State.start d l) acts = some s) : O.Inv s :=
  exec_invariant_all O.Inv (fun _ _ _ hs ht => hs.step (next_of_step ht)) (inv_start hd hl) h

/-- A process that is not awake goes on behind a `sleep`. -/
def Resumes (M : Monitor P D L Ch) (s : State P D L Ch) : Prop :=
  ∀ p, s.mode p ≠ .awake → ∃ l c, M.code l = .sleep c (s.loc p)

/-- A process that has slept resumes where it left. -/
theorem Resumes.step (h : Resumes M s) {a : Act P L} (ht : M.Next s a t) : Resumes M t := by
  have hmove : ∀ {p : P} {n : L}, s.mode p = .awake → ∀ q, s.mode q ≠ .awake →
      ∃ l c, M.code l = .sleep c (update s.loc p n q) := by
    intro p n hm q hq
    have hqp : q ≠ p := by
      rintro rfl
      exact hq hm
    rw [update_of_ne hqp]
    exact h q hq
  have hstill : ∀ {p : P} {m : Mode Ch}, s.mode p ≠ .awake → ∀ q, update s.mode p m q ≠ .awake →
      ∃ l c, M.code l = .sleep c (s.loc q) := by
    intro p m hm q hq
    refine h q fun hq' => hq ?_
    have hqp : q ≠ p := by
      rintro rfl
      exact hm hq'
    rwa [update_of_ne hqp]
  cases ht with
  | call hm hc | acquire hm hc hl | act hm hc | release hm hc => exact hmove hm
  | wakeup hm hc hl =>
    intro q hq
    refine hmove hm q fun hq' => hq ?_
    simp [Mode.wake, hq']
  | @sleep p c n hm hc hl =>
    intro q hq
    by_cases hqp : q = p
    · subst hqp
      exact ⟨_, c, by simpa only [update_self] using hc⟩
    · simp only [update_of_ne hqp] at hq ⊢
      exact h q hq
  | drop hm | sched hm | tidy hm hl => exact hstill (by rw [hm]; simp)
  | @back p hm hl =>
    intro q hq
    have hqp : q ≠ p := by
      rintro rfl
      simp at hq
    exact h q (by simpa only [update_of_ne hqp] using hq)
  | @kill p hl =>
    intro q hq
    refine h q fun hq' => hq ?_
    by_cases hqp : q = p
    · subst hqp
      simpa only [update_self] using (Mode.kill_eq_awake _).2 hq'
    · simpa only [update_of_ne hqp] using hq'

/-- A fact about the data, the places of all processes and who has the lock. Whoever works on
the data has the lock, and it does not matter who has it behind a `sleep`. -/
theorem lock_run {O : Outline M} {ok : State P D L Ch → Act P L → Prop}
    (J : D → (P → L) → Option P → Prop)
    (hcall : ∀ s p n, M.calls (s.loc p) n = true → ok s (.call p n) → s.lk ≠ some p →
      J s.data s.loc s.lk → J s.data (update s.loc p n) s.lk)
    (hacquire : ∀ d loc p n, M.code (loc p) = .acquire n → J d loc none →
      J d (update loc p n) (some p))
    (hact : ∀ s p f, s.mode p = .awake → M.code (s.loc p) = .act f → ok s (.run p) →
      J s.data s.loc (some p) → J (f p (s.killed p) s.data).1
        (update s.loc p (f p (s.killed p) s.data).2) (some p))
    (hgo : ∀ d loc p c n, M.code (loc p) = .wakeup c n ∨ M.code (loc p) = .sleep c n →
      J d loc (some p) → J d (update loc p n) (some p))
    (hrelease : ∀ d loc p n, M.code (loc p) = .release n → J d loc (some p) →
      J d (update loc p n) none)
    (hback : ∀ d loc p l c, M.code l = .sleep c (loc p) → (J d loc (some p) ↔ J d loc none))
    {d : D} {l : L} (hd : O.free d) (hl : M.inside l = false) (hJ : J d (fun _ => l) none)
    {acts : List (Act P L)} (ha : Along M.step ok (State.start d l) acts)
    (h : exec M.step (State.start d l) acts = some s) : J s.data s.loc s.lk := by
  refine (exec_invariant (fun s => O.Inv s ∧ Resumes M s ∧ J s.data s.loc s.lk) ?_
    ⟨inv_start hd hl, fun p hp => absurd rfl hp, hJ⟩ ha h).2.2
  rintro s a t ⟨hI, hR, hJ⟩ hok ht
  have hn := next_of_step ht
  refine ⟨hI.step hn, hR.step hn, ?_⟩
  have hhold : ∀ {p : P}, s.mode p = .awake → M.inside (s.loc p) = true → s.lk = some p :=
    fun hm hin => (hI.lk _).2 (Or.inl ⟨hm, hin⟩)
  cases hn with
  | @call p l hm hc =>
    refine hcall s p l hc hok (fun hlk => ?_) hJ
    have hin := (hI.lk p).1 hlk
    simp [hm, (O.call hc).1, Mode.dozes] at hin
  | acquire hm hc hl =>
    rw [hl] at hJ
    exact hacquire _ _ _ _ hc hJ
  | act hm hc =>
    have hlk := hhold hm (by simp [inside, hc])
    rw [hlk] at hJ
    have := hact s _ _ hm hc hok hJ
    simpa only [hlk] using this
  | wakeup hm hc hl =>
    have hlk := hhold hm (by simp [inside, hc])
    rw [hlk] at hJ
    have := hgo _ _ _ _ _ (Or.inl hc) hJ
    simpa only [hlk] using this
  | sleep hm hc hl =>
    have hlk := hhold hm (by simp [inside, hc])
    rw [hlk] at hJ
    have := hgo _ _ _ _ _ (Or.inr hc) hJ
    simpa only [hlk] using this
  | release hm hc =>
    have hlk := hhold hm (by simp [inside, hc])
    rw [hlk] at hJ
    exact hrelease _ _ _ _ hc hJ
  | @drop p c hm =>
    have hlk := (hI.lk p).2 (Or.inr (by rw [hm]; rfl))
    rw [hlk] at hJ
    obtain ⟨l, c', hl⟩ := hR p (by rw [hm]; simp)
    exact (hback _ _ p l c' hl).1 hJ
  | @back p hm hlk =>
    rw [hlk] at hJ
    obtain ⟨l, c', hl⟩ := hR p (by rw [hm]; simp)
    exact (hback _ _ p l c' hl).2 hJ
  | _ => exact hJ

/-- What the processes asleep on a channel wait for, and where somebody with the lock still
owes them a `wakeup`. -/
structure Waits where
  wait : Ch → D → Prop
  owes : Ch → L → Prop
  act : ∀ {l f}, M.code l = .act f → ∀ p k d c, O.here l d → wait c d ∨ owes c l →
    wait c (f p k d).1 ∨ owes c (f p k d).2
  wakeup : ∀ {l c n c'}, M.code l = .wakeup c n → c' ≠ c → owes c' l → owes c' n
  sleep : ∀ {l c n}, M.code l = .sleep c n → (∀ d, O.here l d → wait c d) ∧ ∀ c', ¬owes c' l

namespace Waits

variable {O} (W : O.Waits)

/-- A process that releases the lock owes nothing to anybody who sleeps. -/
def Pays (s : State P D L Ch) : Act P L → Prop
  | .run p => s.mode p = .awake → ∀ n, M.code (s.loc p) = .release n →
      ∀ c, W.owes c (s.loc p) → ∀ q, (s.mode q).Sleeps c → W.wait c s.data
  | _ => True

/-- Whoever waits has something to wait for, or will be woken. -/
structure Inv (s : State P D L Ch) : Prop where
  dozing : ∀ p c, s.mode p = .dozing c → W.wait c s.data
  sleeps : ∀ q c, (s.mode q).Sleeps c → W.wait c s.data ∨
    ∃ p, s.lk = some p ∧ s.mode p = .awake ∧ W.owes c (s.loc p)

/-- With the lock free, everybody who sleeps has something to wait for. -/
theorem Inv.wait {W : O.Waits} (h : W.Inv s) (hl : s.lk = none) {q : P} {c : Ch}
    (hq : (s.mode q).Sleeps c) : W.wait c s.data := by
  rcases h.sleeps q c hq with hw | ⟨p, hp, -⟩
  · exact hw
  · rw [hl] at hp
    cases hp

/-- The same with the lock held by a process that owes nothing. -/
theorem Inv.wait_of_held {W : O.Waits} (h : W.Inv s) {p : P} (hl : s.lk = some p)
    (hp : s.mode p = .awake → ∀ c, W.owes c (s.loc p) → W.wait c s.data) {q : P} {c : Ch}
    (hq : (s.mode q).Sleeps c) : W.wait c s.data := by
  rcases h.sleeps q c hq with hw | ⟨p', hp', hm, ho⟩
  · exact hw
  · obtain rfl := some.inj (hl.symm.trans hp')
    exact hp hm c ho

/-- A step that does not change the data and after which nobody waits who did not before. -/
theorem Inv.mono {W : O.Waits} (h : W.Inv s) (hd : t.data = s.data)
    (hdoze : ∀ p c, t.mode p = .dozing c → s.mode p = .dozing c)
    (hsleep : ∀ q c, (t.mode q).Sleeps c → (s.mode q).Sleeps c)
    (hold : ∀ p q c, (t.mode q).Sleeps c → s.lk = some p → s.mode p = .awake →
      W.owes c (s.loc p) → W.wait c s.data ∨ t.lk = some p ∧ t.mode p = .awake ∧
        W.owes c (t.loc p)) :
    W.Inv t := by
  refine ⟨fun p c hp => hd ▸ h.dozing p c (hdoze p c hp), fun q c hq => ?_⟩
  rw [hd]
  rcases h.sleeps q c (hsleep q c hq) with hw | ⟨p, hl, hm, ho⟩
  · exact Or.inl hw
  · exact (hold p q c hq hl hm ho).imp id fun h' => ⟨p, h'⟩

theorem Inv.step {W : O.Waits} (h : W.Inv s) (hI : O.Inv s) {a : Act P L} (ha : W.Pays s a)
    (ht : M.Next s a t) : W.Inv t := by
  have hhold : ∀ p, s.mode p = .awake → M.inside (s.loc p) = true → s.lk = some p :=
    fun p hm hin => (hI.lk p).2 (Or.inl ⟨hm, hin⟩)
  cases ht with
  | @call p l hm hc =>
    refine h.mono rfl (fun _ _ => id) (fun _ _ => id) fun p' q c _ hl hm' ho => Or.inr ?_
    have hne : p' ≠ p := by
      rintro rfl
      have hin := (hI.lk p').1 hl
      simp [hm', (O.call hc).1, Mode.dozes] at hin
    exact ⟨hl, hm', by simpa only [update_of_ne hne] using ho⟩
  | acquire hm hc hl =>
    refine h.mono rfl (fun _ _ => id) (fun _ _ => id) fun p' q c _ hl' => ?_
    rw [hl] at hl'
    cases hl'
  | @act p f hm hc =>
    have hi : M.inside (s.loc p) = true := by simp [inside, hc]
    have hlk := hhold p hm hi
    refine ⟨fun q c hq => ?_, fun q c hq => ?_⟩
    · obtain rfl := some.inj (hlk.symm.trans ((hI.lk q).2 (Or.inr (by rw [hq]; rfl))))
      rw [hm] at hq
      cases hq
    · have hold : W.wait c s.data ∨ W.owes c (s.loc p) := by
        rcases h.sleeps q c hq with hw | ⟨p', hp', -, ho⟩
        · exact Or.inl hw
        · obtain rfl := some.inj (hlk.symm.trans hp')
          exact Or.inr ho
      refine (W.act hc p (s.killed p) s.data c (hI.here p hm hi) hold).imp id fun ho => ?_
      exact ⟨p, hlk, hm, by simpa only [update_self] using ho⟩
  | @wakeup p c n hm hc hl =>
    have hlk := hhold p hm (by simp [inside, hc])
    refine h.mono rfl (fun q c' hq => ?_) (fun q c' hq => ?_) fun p' q c' hq hl' hm' ho => ?_
    · exact Mode.wake_eq hq (by simp)
    · exact hq.imp (fun hq => Mode.wake_eq hq (by simp)) fun hq => Mode.wake_eq hq (by simp)
    · obtain rfl := some.inj (hlk.symm.trans hl')
      refine Or.inr ⟨hlk, by simp [Mode.wake, hm], ?_⟩
      have hne : c' ≠ c := by
        rintro rfl
        rcases hq with hq | hq
        · -- nobody is in `sleep` with the table lock
          have := (hI.plock q).2 (by rw [Mode.wake_eq hq (by simp)]; rfl)
          rw [hl] at this
          cases this
        · exact Mode.wake_ne _ _ hq
      simpa only [update_self] using W.wakeup hc hne ho
  | @sleep p c n hm hc hl =>
    have hi : M.inside (s.loc p) = true := by simp [inside, hc]
    have hlk := hhold p hm hi
    obtain ⟨hw, hno⟩ := W.sleep hc
    refine ⟨fun q c' hq => ?_, fun q c' hq => Or.inl ?_⟩
    · by_cases hqp : q = p
      · subst hqp
        simp only [update_self, Mode.dozing.injEq] at hq
        exact hq ▸ hw _ (hI.here q hm hi)
      · simp only [update_of_ne hqp] at hq
        exact h.dozing q c' hq
    · have hqp : q ≠ p := by
        rintro rfl
        simp [Mode.Sleeps] at hq
      simp only [update_of_ne hqp] at hq
      exact h.wait_of_held hlk (fun _ c ho => absurd ho (hno c)) hq
  | @release p n hm hc =>
    have hlk := hhold p hm (by simp [inside, hc])
    refine h.mono rfl (fun _ _ => id) (fun _ _ => id) fun p' q c hq hl' hm' ho => Or.inl ?_
    obtain rfl := some.inj (hlk.symm.trans hl')
    exact ha hm n hc c ho q hq
  | @drop p c hm =>
    have hlk := (hI.lk p).2 (Or.inr (by rw [hm]; rfl))
    refine ⟨fun q c' hq => ?_, fun q c' hq => Or.inl ?_⟩
    · by_cases hqp : q = p
      · subst hqp
        simp at hq
      · simp only [update_of_ne hqp] at hq
        exact h.dozing q c' hq
    · by_cases hqp : q = p
      · subst hqp
        simp only [update_self, Mode.Sleeps, Mode.dropping.injEq, reduceCtorEq, or_false] at hq
        exact hq ▸ h.dozing q c hm
      · simp only [update_of_ne hqp] at hq
        exact h.wait_of_held hlk (fun hm' => by rw [hm] at hm'; cases hm') hq
  | @sched p c hm =>
    refine h.mono rfl (fun q c' hq => ?_) (fun q c' hq => ?_) fun p' q c' _ hl hm' ho => Or.inr ?_
    · exact mode_of_update hq (by simp)
    · by_cases hqp : q = p
      · subst hqp
        simp only [update_self, Mode.Sleeps, Mode.asleep.injEq, reduceCtorEq, false_or] at hq
        exact Or.inl (hq ▸ hm)
      · simpa only [update_of_ne hqp] using hq
    · have hne : p' ≠ p := by
        rintro rfl
        rw [hm] at hm'
        cases hm'
      exact ⟨hl, by simpa only [update_of_ne hne] using hm', ho⟩
  | @tidy p hm hl =>
    refine h.mono rfl (fun q c' hq => ?_) (fun q c' hq => ?_) fun p' q c' _ hl hm' ho => Or.inr ?_
    · exact mode_of_update hq (by simp)
    · exact hq.imp (fun hq => mode_of_update hq (by simp)) fun hq => mode_of_update hq (by simp)
    · have hne : p' ≠ p := by
        rintro rfl
        rw [hm] at hm'
        cases hm'
      exact ⟨hl, by simpa only [update_of_ne hne] using hm', ho⟩
  | @back p hm hl =>
    refine h.mono rfl (fun q c' hq => ?_) (fun q c' hq => ?_) fun p' q c' _ hl' => ?_
    · exact mode_of_update hq (by simp)
    · exact hq.imp (fun hq => mode_of_update hq (by simp)) fun hq => mode_of_update hq (by simp)
    · rw [hl] at hl'
      cases hl'
  | @kill p hl =>
    have hkeep : ∀ q m, update s.mode p (s.mode p).kill q = m → m ≠ .woken → s.mode q = m := by
      intro q m hq hne
      by_cases hqp : q = p
      · subst hqp
        rw [update_self] at hq
        exact Mode.kill_eq hq hne
      · rwa [update_of_ne hqp] at hq
    refine h.mono rfl (fun q c' hq => hkeep q _ hq (by simp))
      (fun q c' hq => hq.imp (fun hq => hkeep q _ hq (by simp)) fun hq => hkeep q _ hq (by simp))
      fun p' q c' _ hl hm' ho => Or.inr ⟨hl, ?_, ho⟩
    by_cases hpp : p' = p
    · subst hpp
      simp [hm', Mode.kill]
    · simpa only [update_of_ne hpp] using hm'

theorem inv_start {W : O.Waits} {d : D} {l : L} : W.Inv (State.start d l : State P D L Ch) := by
  constructor <;> simp [State.start, Mode.Sleeps]

/-- If everybody pays, then in every state that is reached with the lock free, whoever sleeps
has something to wait for. -/
theorem run {W : O.Waits} {d : D} {l : L} (hd : O.free d) (hl : M.inside l = false)
    {acts : List (Act P L)} (hpay : Along M.step W.Pays (State.start d l) acts)
    (h : exec M.step (State.start d l) acts = some s) : W.Inv s := by
  refine (exec_invariant (fun s => O.Inv s ∧ W.Inv s) ?_ ⟨Outline.inv_start hd hl, inv_start⟩
    hpay h).2
  rintro s a t ⟨hI, hW⟩ ha ht
  exact ⟨hI.step (next_of_step ht), hW.step hI ha (next_of_step ht)⟩

end Waits

end Outline

end Monitor

end Xv6
