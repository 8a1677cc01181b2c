import Xv6.Monitor

/-!
# Sleep-locks

`sleeplock.c` as a monitor : `acquiresleep`, `releasesleep` and `holdingsleep` of any number of
processes, under the spinlock of the sleep-lock. `sleeplock_excludes` says that at most one
process has the lock, that the lock then names it, and that nobody sleeps on a lock that is
free.
-/

set_option linter.unusedSectionVars false

namespace Xv6.Sleeplock

open Function Monitor

/-- `struct sleeplock`, without its spinlock and name. -/
structure Data where
  locked : Bool
  pid : Int32
deriving DecidableEq

/-- `initsleeplock`. -/
def init : Data := ⟨false, 0⟩

/-- Where a process is. -/
inductive Loc where
  /-- Without the lock. -/
  | out
  /-- `acquiresleep`. -/
  | enter
  | test
  | doze
  | got
  /-- With the lock. -/
  | crit
  /-- `releasesleep`. -/
  | leave
  | clear
  | wake
  | done
  /-- `holdingsleep`, called with or without the lock. -/
  | check (own : Bool)
  | look (own : Bool)
  | looked (own r : Bool)
deriving DecidableEq

/-- The process has the sleep-lock : from the moment it is marked locked for it until it is
marked free. -/
def Loc.holds : Loc → Bool
  | got => true
  | crit => true
  | leave => true
  | clear => true
  | check own => own
  | look own => own
  | looked own _ => own
  | _ => false

variable {P : Type*} [DecidableEq P] (pid : P → Int32)

/-- The code of the three functions. The channel is the lock itself. -/
def code : Loc → Instr P Data Loc Unit
  | .out => .idle
  | .enter => .acquire .test
  | .test => .act fun p _ d => if d.locked then (d, .doze) else (⟨true, pid p⟩, .got)
  | .doze => .sleep () .test
  | .got => .release .crit
  | .crit => .idle
  | .leave => .acquire .clear
  | .clear => .act fun _ _ _ => (⟨false, 0⟩, .wake)
  | .wake => .wakeup () .done
  | .done => .release .out
  | .check own => .acquire (.look own)
  | .look own => .act fun p _ d => (d, .looked own (d.locked && d.pid = pid p))
  | .looked own _ => .release (if own then .crit else .out)

/-- A process without the lock can acquire it, one with the lock can release it, and both can
ask. -/
def calls : Loc → Loc → Bool
  | .out, .enter => true
  | .out, .check false => true
  | .crit, .leave => true
  | .crit, .check true => true
  | _, _ => false

/-- The sleep-lock. -/
def sleeplock : Monitor P Data Loc Unit := ⟨code pid, calls⟩

/-- A process about to sleep has seen the lock taken. -/
def outline : Outline (sleeplock pid) where
  free _ := True
  here l d := l = .doze → d.locked = true
  call {l n} h := by
    cases l <;> cases n <;> simp [sleeplock, calls, inside, code] at h ⊢
  acquire {l n} h := by
    cases l <;> simp [sleeplock, code] at h <;> subst h <;> simp [sleeplock, inside, code]
  act {l f} h := by
    cases l <;> simp [sleeplock, code] at h <;> subst h <;> intro p k d _
    · simp only
      split_ifs with hd <;> simp [sleeplock, inside, code, hd]
    · simp [sleeplock, inside, code]
    · simp [sleeplock, inside, code]
  wakeup {l c n} h := by
    cases l <;> simp [sleeplock, code] at h
    subst h
    simp [sleeplock, inside, code]
  sleep {l c n} h := by
    cases l <;> simp [sleeplock, code] at h
    subst h
    simp [sleeplock, inside, code]
  release {l n} h := by
    cases l <;> simp [sleeplock, code] at h <;> subst h <;> simp [sleeplock, inside, code]
    split_ifs <;> rfl

/-- Processes sleep while the lock is taken, and after it is marked free a `wakeup` is owed. -/
def waits : (outline pid).Waits where
  wait _ d := d.locked = true
  owes _ l := l = .wake
  act {l f} h := by
    cases l <;> simp [sleeplock, code] at h <;> subst h <;> intro p k d _ _ hw
    · simp only
      split_ifs with hd
      · simp [hd]
      · simp
    · simp
    · simpa using hw
  wakeup h hne := absurd rfl hne
  sleep {l c n} h := by
    cases l <;> simp [sleeplock, code] at h
    subst h
    simp [outline]

/-- Whoever has the lock is named by it, and nobody else has it. -/
structure Excl (d : Data) (loc : P → Loc) : Prop where
  named : ∀ p, (loc p).holds = true → d.locked = true ∧ d.pid = pid p
  one : ∀ p q, (loc p).holds = true → (loc q).holds = true → p = q

theorem holds_of_calls {l n : Loc} (h : calls l n = true) : n.holds = l.holds := by
  unfold calls at h
  split at h
  · rfl
  · rfl
  · rfl
  · rfl
  · cases h

theorem holds_of_goes {l n : Loc} (h : (sleeplock pid).Goes l n) : n.holds = l.holds := by
  rcases h with h | h | ⟨c, h⟩ | ⟨c, h⟩ | h
  · exact holds_of_calls h
  · cases l <;> simp [sleeplock, code] at h <;> subst h <;> rfl
  · cases l <;> simp [sleeplock, code] at h
    subst h
    rfl
  · cases l <;> simp [sleeplock, code] at h
    subst h
    rfl
  · cases l <;> simp [sleeplock, code] at h <;> subst h
    · rfl
    · rfl
    · rename_i own r
      cases own <;> rfl

variable {pid} in
theorem Excl.go {d : Data} {loc : P → Loc} {p : P} {n : Loc} (hn : n.holds = (loc p).holds)
    (h : Excl pid d loc) : Excl pid d (update loc p n) := by
  have hsame : ∀ q, (update loc p n q).holds = (loc q).holds := fun q =>
    update_cases q hn fun _ => rfl
  exact ⟨fun q hq => h.named q (hsame q ▸ hq),
    fun q r hq hr => h.one q r (hsame q ▸ hq) (hsame r ▸ hr)⟩

variable {pid} in
/-- A process takes a lock that is free. -/
theorem Excl.take {d : Data} {loc : P → Loc} {p : P} (hd : d.locked = false)
    (h : Excl pid d loc) : Excl pid ⟨true, pid p⟩ (update loc p .got) := by
  have hno : ∀ q, (loc q).holds ≠ true := fun q hq => by
    rw [(h.named q hq).1] at hd
    cases hd
  have hp : ∀ q, (update loc p .got q).holds = true → q = p := fun q =>
    update_cases q (fun _ => rfl) fun _ hq => absurd hq (hno q)
  exact ⟨fun q hq => ⟨rfl, by rw [hp q hq]⟩, fun q r hq hr => (hp q hq).trans (hp r hr).symm⟩

variable {pid} in
/-- The process that has the lock gives it back. -/
theorem Excl.drop {d d' : Data} {loc : P → Loc} {p : P} (hp : (loc p).holds = true)
    (h : Excl pid d loc) : Excl pid d' (update loc p .wake) := by
  have hno : ∀ q, (update loc p .wake q).holds ≠ true := fun q =>
    update_cases q (by simp [Loc.holds]) fun hqp hq => hqp (h.one q p hq hp)
  exact ⟨fun q hq => absurd hq (hno q), fun q r hq => absurd hq (hno q)⟩

theorem excl_run {s : State P Data Loc Unit} {acts : List (Act P Loc)}
    (h : exec (sleeplock pid).step (State.start init .out) acts = some s) :
    Excl pid s.data s.loc := by
  refine loc_run (Excl pid) (fun d loc p n hgo hJ => hJ.go (holds_of_goes pid hgo))
    (fun d loc p f k hf hJ => ?_) ⟨fun p hp => absurd hp (by simp [State.start, Loc.holds]),
      fun p q hp => absurd hp (by simp [State.start, Loc.holds])⟩ h
  cases hl : loc p with
  | test =>
    simp only [sleeplock, hl, code, Instr.act.injEq] at hf
    subst hf
    simp only
    split_ifs with hd
    · exact hJ.go (by rw [hl]; rfl)
    · exact hJ.take (by simpa using hd)
  | clear =>
    simp only [sleeplock, hl, code, Instr.act.injEq] at hf
    subst hf
    exact hJ.drop (by rw [hl]; rfl)
  | look own =>
    simp only [sleeplock, hl, code, Instr.act.injEq] at hf
    subst hf
    exact hJ.go (by rw [hl]; rfl)
  | _ => simp [sleeplock, hl, code] at hf

/-- In every state that is reached, at most one process has the sleep-lock, the lock is then
marked and names it, and if it is not marked and its spinlock is free, nobody sleeps on it. -/
theorem sleeplock_excludes {s : State P Data Loc Unit} {acts : List (Act P Loc)}
    (h : exec (sleeplock pid).step (State.start init .out) acts = some s) :
    (∀ p q, (s.loc p).holds = true → (s.loc q).holds = true → p = q) ∧
    (∀ p, (s.loc p).holds = true → s.data.locked = true ∧ s.data.pid = pid p) ∧
    (s.lk = none → s.data.locked = false → ∀ p, s.mode p ≠ .asleep ()) := by
  have hexcl := excl_run pid h
  have hpay : Along (sleeplock pid).step (waits pid).Pays (State.start init .out) acts := by
    refine Along.mono (fun s a _ => ?_) along_true
    cases a with
    | run p =>
      intro _ n hn c ho
      change s.loc p = .wake at ho
      rw [ho] at hn
      cases hn
    | _ => trivial
  have hwait := Outline.Waits.run (W := waits pid) trivial rfl hpay h
  refine ⟨hexcl.one, hexcl.named, fun hl hd p hp => ?_⟩
  have hlocked : s.data.locked = true := hwait.wait hl (Or.inr hp)
  rw [hd] at hlocked
  cases hlocked

/-- Two processes : the first takes the lock, the second sleeps, is killed and asks again, and
the first releases the lock. -/
def killedRun : List (Act Bool Loc) :=
  [.call true .enter, .run true, .run true, .run true, .call false .enter, .run false, .run false,
    .run false, .run false, .run false, .kill false, .run false, .run false, .run false,
    .run false, .run false, .run false, .call true .leave, .run true, .run true, .run true,
    .run true]

theorem sleeplock_excludes_killed : ∃ s : State Bool Data Loc Unit,
    exec (sleeplock fun p => if p then 1 else 2).step (State.start init .out) killedRun = some s ∧
      s.killed false = true ∧ s.mode false ≠ .asleep () := by
  have h : (exec (sleeplock fun p => if p then 1 else 2).step (State.start init .out)
      killedRun).map (fun s => (s.lk, s.data.locked, s.killed false)) =
        some (none, false, true) := by
    decide +kernel
  obtain ⟨s, hs, he⟩ := Option.map_eq_some_iff.1 h
  simp only [Prod.mk.injEq] at he
  exact ⟨s, hs, he.2.2, (sleeplock_excludes _ hs).2.2 he.1 he.2.1 false⟩

end Xv6.Sleeplock
