import Xv6.Scheduling

/-!
# System calls addressed by a pid

`kill`, `setnice` and `getnice` look for a pid in the whole table, and `kill` and a failed
`fork` leave pids and flags in unused slots : `wait` sets the pid of a freed slot to 0, the pid
that slots never used have, and `kill` does not treat 0 specially ; a failed `fork` leaves the
pid of its child in place.

So the calls do what they should for a pid exactly when the first slot with that pid is in use
and the pid is not 0, and no process is killed before it is born exactly as long as every
`kill` meets this and no `fork` fails whose child was killed meanwhile (`pid_calls`).
-/

set_option linter.unusedSectionVars false

namespace Xv6.Ptable

open Function Option

/-! ## One call -/

variable {u : Table} {pid nice : Int32} {k : ProcId}

/-- Some process has the pid. -/
def Exists (u : Table) (pid : Int32) : Prop := ∃ k, (u k).state ≠ .unused ∧ (u k).pid = pid

/-- A call for `pid` with this result and table succeeds exactly if there is such a process,
changes nobody else if it succeeds and nothing if it fails. -/
structure Serves (u : Table) (pid : Int32) (r : Int32 × Table) : Prop where
  iff : r.1 = 0 ↔ Exists u pid
  only : r.1 = 0 → ∃ k, (u k).state ≠ .unused ∧ (u k).pid = pid ∧ ∀ j, j ≠ k → r.2 j = u j
  fail : r.1 ≠ 0 → r.2 = u

/-- All calls for `pid` do what they should. -/
structure PidOk (u : Table) (pid : Int32) : Prop where
  kill : Serves u pid (kill pid u)
  setnice : ∀ nice, 0 ≤ nice → nice ≤ 39 → Serves u pid (setnice pid nice u)
  getnice : getnice pid u ≠ -1 ↔ Exists u pid

/-- The first slot with the pid. -/
def holder (u : Table) (pid : Int32) : Option ProcId := firstSlot fun k => (u k).pid = pid

theorem holder_eq_some (h : holder u pid = some k) :
    (u k).pid = pid := by
  simpa using firstSlot_eq_some h

theorem holder_eq_none (h : holder u pid = none) (k : ProcId) :
    (u k).pid ≠ pid := by
  simpa using firstSlot_eq_none h k

theorem not_exists_of_holder (h : holder u pid = none) :
    ¬Exists u pid := by
  rintro ⟨k, -, hk⟩
  exact holder_eq_none h k hk

/-- What `setnice` and `getnice` look for. -/
theorem holder_of_ne (h : pid ≠ 0) :
    (firstSlot fun k => pid = (u k).pid ∧ pid ≠ 0) = holder u pid := by
  simp [holder, h, eq_comm]

theorem holder_of_zero : (firstSlot fun k => 0 = (u k).pid ∧ (0 : Int32) ≠ 0) = none := by
  simp [firstSlot]

/-- `kill` without a process of that number. -/
theorem kill_of_none (h : holder u pid = none) :
    kill pid u = (-1, u) := by
  unfold kill
  rw [show (firstSlot fun k => (u k).pid = pid) = none from h]

/-- `kill` marks the first process of that number. -/
theorem kill_of_some (h : holder u pid = some k) :
    kill pid u = (0, update u k (if (u k).state = .sleeping then
      { u k with killed := true, state := .runnable } else { u k with killed := true })) := by
  unfold kill
  rw [show (firstSlot fun k => (u k).pid = pid) = some k from h]

/-- A call that changes the first slot with the pid. -/
theorem Serves.of_holder {x : Proc} (h : holder u pid = some k) (hk : (u k).state ≠ .unused) :
    Serves u pid (0, update u k x) where
  iff := ⟨fun _ => ⟨k, hk, holder_eq_some h⟩, fun _ => rfl⟩
  only _ := ⟨k, hk, holder_eq_some h, fun _ hj => update_of_ne hj _ _⟩
  fail hne := absurd rfl hne

theorem Serves.of_not_exists (h : ¬Exists u pid) :
    Serves u pid (-1, u) where
  iff := ⟨fun he => absurd he (show (-1 : Int32) ≠ 0 by decide), fun he => absurd he h⟩
  only he := absurd he (show (-1 : Int32) ≠ 0 by decide)
  fail _ := rfl

/-- A call that changes an unused slot does not do what it should. -/
theorem not_serves_unused {x : Proc} (hk : (u k).state = .unused) (hx : x ≠ u k) :
    ¬Serves u pid (0, update u k x) := by
  intro h
  obtain ⟨j, hj, -, hrest⟩ := h.only rfl
  have hkj : k ≠ j := by
    rintro rfl
    exact hj hk
  have hsame : update u k x k = u k := hrest k hkj
  rw [update_self] at hsame
  exact hx hsame

/-- `setnice` refuses a value out of range, -/
theorem setnice_range (h : nice < 0 ∨ 39 < nice) :
    setnice pid nice u = (-1, u) := by
  unfold setnice
  rw [if_pos h]

theorem in_range : ¬(nice < 0 ∨ 39 < nice) ↔ 0 ≤ nice ∧ nice ≤ 39 := by
  rw [Int32.lt_iff_toInt_lt, Int32.lt_iff_toInt_lt, Int32.le_iff_toInt_le, Int32.le_iff_toInt_le]
  omega

/-- and a number that no process has. -/
theorem setnice_of_none (hpid : pid ≠ 0) (h : holder u pid = none) :
    setnice pid nice u = (-1, u) := by
  unfold setnice
  simp only [holder_of_ne hpid, h]
  split_ifs <;> rfl

theorem setnice_of_some (h0 : 0 ≤ nice) (h39 : nice ≤ 39) (hpid : pid ≠ 0)
    (h : holder u pid = some k) :
    setnice pid nice u = (0, update u k { u k with nice := nice }) := by
  unfold setnice
  simp only [if_neg (in_range.2 ⟨h0, h39⟩), holder_of_ne hpid, h]

/-- `getnice` for a number that no process has. -/
theorem getnice_of_none (hpid : pid ≠ 0) (h : holder u pid = none) :
    getnice pid u = -1 := by
  unfold getnice
  simp only [holder_of_ne hpid, h]

theorem getnice_of_some (hpid : pid ≠ 0) (h : holder u pid = some k) :
    getnice pid u = (u k).nice := by
  unfold getnice
  simp only [holder_of_ne hpid, h]

/-- The number 0, that of the unused slots, is refused. -/
theorem setnice_zero (nice : Int32) : setnice 0 nice u = (-1, u) := by
  unfold setnice
  rw [holder_of_zero]
  split_ifs <;> rfl

theorem getnice_zero : getnice 0 u = -1 := by
  unfold getnice
  rw [holder_of_zero]

/-- The calls do what they should for the pid of a process that comes first in the table. -/
theorem PidOk.of_holder (hn : ∀ k, (u k).nice ≠ -1)
    (h : ∀ k, holder u pid = some k → (u k).state ≠ .unused ∧ pid ≠ 0) : PidOk u pid := by
  cases hk : holder u pid with
  | none =>
    have hno := not_exists_of_holder hk
    by_cases hp : pid = 0
    · subst hp
      refine ⟨?_, fun nice h0 h39 => ?_, ?_⟩
      · rw [kill_of_none hk]
        exact Serves.of_not_exists hno
      · rw [setnice_zero]
        exact Serves.of_not_exists hno
      · rw [getnice_zero]
        simp [hno]
    · refine ⟨?_, fun nice h0 h39 => ?_, ?_⟩
      · rw [kill_of_none hk]
        exact Serves.of_not_exists hno
      · rw [setnice_of_none hp hk]
        exact Serves.of_not_exists hno
      · rw [getnice_of_none hp hk]
        simp [hno]
  | some k =>
    obtain ⟨hu, hp⟩ := h k hk
    refine ⟨?_, fun nice h0 h39 => ?_, ?_⟩
    · rw [kill_of_some hk]
      exact Serves.of_holder hk hu
    · rw [setnice_of_some h0 h39 hp hk]
      exact Serves.of_holder hk hu
    · rw [getnice_of_some hp hk]
      exact ⟨fun _ => ⟨k, hu, holder_eq_some hk⟩, fun _ => hn k⟩

/-- The calls do what they should for no other pid that is in the table. -/
theorem PidOk.holder (h : PidOk u pid) (hk : Ptable.holder u pid = some k) :
    (u k).state ≠ .unused ∧ pid ≠ 0 := by
  have hp : pid ≠ 0 := by
    rintro rfl
    -- `kill` finds the slot, `setnice` does not look
    have hex : Exists u 0 := h.kill.iff.1 (by rw [kill_of_some hk])
    have := (h.setnice 0 (by decide) (by decide)).iff.2 hex
    rw [setnice_zero] at this
    exact absurd this (show (-1 : Int32) ≠ 0 by decide)
  refine ⟨fun hu => ?_, hp⟩
  obtain ⟨v, h0, h39, hv⟩ : ∃ v : Int32, 0 ≤ v ∧ v ≤ 39 ∧ v ≠ (u k).nice := by
    by_cases h0 : (u k).nice = 0
    · exact ⟨1, by decide, by decide, by rw [h0]; decide⟩
    · exact ⟨0, by decide, by decide, Ne.symm h0⟩
  have hs := h.setnice v h0 h39
  rw [setnice_of_some h0 h39 hp hk] at hs
  refine not_serves_unused hu (fun he => hv ?_) hs
  rw [← he]

/-- The calls serve a number unless it is that of an unused slot. -/
theorem pidOk_iff (hn : ∀ k, (u k).nice ≠ -1) :
    PidOk u pid ↔ ∀ k, holder u pid = some k → (u k).state ≠ .unused ∧ pid ≠ 0 :=
  ⟨fun h _ hk => h.holder hk, PidOk.of_holder hn⟩

/-! ## What every slot keeps -/

/-- A property of slots that depends on `nice`, and on `killed` in unused slots. -/
structure Stable (P : Proc → Prop) : Prop where
  set : ∀ {a b : Proc}, P a → b.nice = a.nice → b.killed = a.killed →
    (b.state = .unused → a.state = .unused) → P b
  free : ∀ {a : Proc}, P a → P (freeSlot a)
  nice : ∀ {a : Proc} {v : Int32}, P a → 0 ≤ v → v ≤ 39 → P { a with nice := v }

/-- `wakeup1` changes no `nice` value and kills nobody. -/
theorem wakeup1_flags (chan : Option Chan) (u : Table) (k : ProcId) :
    (wakeup1 chan u k).nice = (u k).nice ∧ (wakeup1 chan u k).killed = (u k).killed := by
  unfold wakeup1
  split_ifs
  · exact ⟨rfl, rfl⟩
  · exact ⟨rfl, rfl⟩

theorem adopt_flags (p : ProcId) (u : Table) (j k : ProcId) :
    (adopt p u j k).nice = (u k).nice ∧ (adopt p u j k).killed = (u k).killed := by
  have hset : (update u j { u j with parent := some initproc } k).nice = (u k).nice ∧
      (update u j { u j with parent := some initproc } k).killed = (u k).killed :=
    update_cases k ⟨rfl, rfl⟩ fun _ => ⟨rfl, rfl⟩
  unfold adopt
  split_ifs
  · simp only
    split_ifs
    · have h := wakeup1_flags (some (.proc initproc))
        (update u j { u j with parent := some initproc }) k
      exact ⟨h.1.trans hset.1, h.2.trans hset.2⟩
    · exact hset
  · exact ⟨rfl, rfl⟩

theorem Woken.unused {a b : Proc} (h : Woken a b) (hb : b.state = .unused) :
    a.state = .unused := by
  rcases h.state with hs | ⟨-, hs⟩
  · exact hs.symm.trans hb
  · exact absurd (hs.symm.trans hb) (by decide)

theorem Stable.state {P : Proc → Prop} (hP : Stable P) {a : Proc} (h : P a) {st : ProcState}
    (hst : st ≠ .unused) : P { a with state := st } :=
  hP.set h rfl rfl fun he => absurd he hst

theorem Stable.wakeup1 {P : Proc → Prop} (hP : Stable P) (h : ∀ k, P (u k)) (chan : Option Chan)
    (k : ProcId) : P (wakeup1 chan u k) :=
  hP.set (h k) (wakeup1_flags chan u k).1 (wakeup1_flags chan u k).2 (woken_wakeup1 chan u k).unused

theorem Stable.foldl_adopt {P : Proc → Prop} (hP : Stable P) (p : ProcId) :
    ∀ (js : List ProcId) {u : Table}, (∀ k, P (u k)) → ∀ k, P (js.foldl (adopt p) u k)
  | [], _, h => h
  | j :: js, u, h => hP.foldl_adopt p js fun k =>
    hP.set (h k) (adopt_flags p u j k).1 (adopt_flags p u j k).2 (woken_adopt p u j k).unused

/-- What is stable holds after `exit`. -/
theorem Stable.exitTable {P : Proc → Prop} (hP : Stable P) (h : ∀ k, P (u k)) (p k : ProcId) :
    P (exitTable p u k) := by
  have hf := hP.foldl_adopt p (List.finRange NPROC) (hP.wakeup1 h ((u p).parent.map .proc))
  unfold Ptable.exitTable
  by_cases hk : k = p
  · subst hk
    simp only [update_self]
    exact hP.state (hf k) (by decide)
  · simpa only [update_of_ne hk] using hf k

namespace Sys

variable {C : Type} [DecidableEq C] {s t : Sys C} {c : C} {p : ProcId} {P : Proc → Prop}

/-- The slot that a `kill` or a failing `fork` changes has the property afterwards. -/
def Leaves (P : Proc → Prop) (s : Sys C) : Act C → Prop
  | .kill _ pid => ∀ k, holder s.proc pid = some k → P { s.proc k with killed := true }
  | .forkStack c false => ∀ p np, s.running c = some p → s.pc p = .work (.forking np) →
      P { s.proc np with state := .unused }
  | .forkCopy c false => ∀ p np, s.running c = some p → s.pc p = .work (.copying np) →
      P { s.proc np with state := .unused }
  | _ => True

theorem all_update {x : Proc} (h : ∀ j, P (u j)) (hx : P x) (j : ProcId) :
    P (update u k x j) :=
  update_cases j hx fun _ => h j

/-- Every slot keeps a stable property that `kill` and failing `fork`s leave. -/
theorem all_step (hP : Stable P) (hr : s.RunInv) (h : ∀ k, P (s.proc k)) {a : Act C}
    (ha : s.Leaves P a) (ht : s.step a = some t) (k : ProcId) : P (t.proc k) := by
  have hset : ∀ {j : ProcId} {x : Proc}, x.nice = (s.proc j).nice →
      x.killed = (s.proc j).killed → (x.state = .unused → (s.proc j).state = .unused) →
      P (update s.proc j x k) := fun h1 h2 h3 => all_update h (hP.set (h _) h1 h2 h3) k
  cases step_does hr ht with
  | seek => exact h k
  | swtch | alloc | run => exact hset rfl rfl (by simp)
  | leave => exact hset rfl rfl id
  | sched _ c p st chan pc _ run lock alive =>
    refine hset rfl rfl fun he => ?_
    rcases alive with rfl | ⟨rfl, -⟩ <;> cases he
  | exit c p => exact hP.exitTable h p k
  | reap _ c p z chan =>
    refine all_update (all_update h (hP.set (h p) ?_ ?_ ?_)) (hP.free (h z)) k
    · rfl
    · rfl
    · exact id
  | same => exact h k
  | child => exact hset rfl rfl id
  | fail c p np v _ _ act run pc =>
    have hf : P { s.proc np with state := .unused } := by
      rcases act with ⟨rfl, rfl⟩ | ⟨rfl, rfl⟩ <;> exact ha p np (running_eq_some.2 run) pc
    refine all_update h (hP.set hf ?_ ?_ fun _ => rfl) k
    · rfl
    · rfl
  | wakeup => exact hP.wakeup1 h _ k
  | kill c pid =>
    cases hk : holder s.proc pid with
    | none =>
      rw [kill_of_none hk]
      exact h k
    | some j =>
      rw [kill_of_some hk]
      refine all_update h ?_ k
      split_ifs
      · exact hP.set (ha j hk) rfl rfl (by simp)
      · exact ha j hk
  | setnice c pid nice =>
    unfold setnice
    split_ifs with hn
    · exact h k
    · split
      · exact h k
      · exact all_update h (hP.nice (h _) (in_range.1 hn).1 (in_range.1 hn).2) k

/-! ## Runs -/

/-- An unused slot is not killed. -/
def Clean (s : Sys C) : Prop := ∀ k, (s.proc k).state = .unused → (s.proc k).killed = false

/-- A `kill` finds a slot in use, and a `fork` does not fail after its child was killed. -/
def Careful (s : Sys C) : Act C → Prop
  | .kill _ pid => ∀ k, holder s.proc pid = some k → (s.proc k).state ≠ .unused
  | .forkStack c false => ∀ p np, s.running c = some p → s.pc p = .work (.forking np) →
      (s.proc np).killed = false
  | .forkCopy c false => ∀ p np, s.running c = some p → s.pc p = .work (.copying np) →
      (s.proc np).killed = false
  | _ => True

/-- The `nice` values stay in range. -/
theorem stable_nice : Stable fun a => 0 ≤ a.nice ∧ a.nice ≤ 39 where
  set h hn _ _ := by rwa [hn]
  free h := h
  nice _ h0 h39 := ⟨h0, h39⟩

/-- Unused slots are not marked as killed. -/
theorem stable_clean : Stable fun a => a.state = .unused → a.killed = false where
  set h _ hk hst hb := hk.trans (h (hst hb))
  free _ _ := rfl
  nice h _ _ := h

theorem Careful.leaves {a : Act C} (h : s.Careful a) :
    s.Leaves (fun a => a.state = .unused → a.killed = false) a := by
  cases a with
  | kill c pid => exact fun k hk hu => absurd hu (h k hk)
  | forkStack c ok | forkCopy c ok =>
    cases ok with
    | false => exact fun p np hp hpc _ => h p np hp hpc
    | true => trivial
  | _ => trivial

/-- A step that is not careful leaves an unused slot killed. -/
theorem Clean.careful {a : Act C} (h : t.Clean) (ht : s.step a = some t) : s.Careful a := by
  cases a with
  | kill c pid =>
    obtain ⟨p, -, rfl⟩ := map_eq_some_iff.1 ht
    intro k hk hu
    have hc := h k
    rw [kill_of_some hk, if_neg (by rw [hu]; decide)] at hc
    simp [hu] at hc
  | forkStack c ok =>
    cases ok with
    | true => trivial
    | false =>
      intro p np hp hpc
      simp only [Sys.step, Sys.forkStack, hp, hpc, bind_some] at ht
      obtain rfl := some.inj ht
      simpa [setProc, setPc] using h np
  | forkCopy c ok =>
    cases ok with
    | true => trivial
    | false =>
      intro p np hp hpc
      simp only [Sys.step, Sys.forkCopy, hp, hpc, bind_some] at ht
      obtain rfl := some.inj ht
      simpa [setProc, setPc] using h np
  | _ => trivial

/-- In every run the `nice` values are in range. -/
theorem nice_run {acts : List (Act C)} (h : exec step boot acts = some s) (k : ProcId) :
    0 ≤ (s.proc k).nice ∧ (s.proc k).nice ≤ 39 := by
  refine (exec_invariant_all (fun s : Sys C => s.RunInv ∧ ∀ k, 0 ≤ (s.proc k).nice ∧
    (s.proc k).nice ≤ 39) ?_ ⟨runInv_boot, fun k => ?_⟩ h).2 k
  · rintro s a t ⟨hr, hs⟩ ht
    refine ⟨hr.step ht, all_step stable_nice hr hs ?_ ht⟩
    cases a with
    | kill c pid => exact fun k _ => hs k
    | forkStack c ok | forkCopy c ok =>
      cases ok with
      | false => exact fun p np _ _ => hs np
      | true => trivial
    | _ => trivial
  · by_cases hk : k = initproc
    · simp [boot, hk]
    · simp [boot, update_of_ne hk]

theorem clean_boot : (boot : Sys C).Clean := by
  intro k _
  by_cases hk : k = initproc
  · simp [boot, hk]
  · simp [boot, update_of_ne hk]

/-- A process starts with the flag of its slot. -/
theorem forkAlloc_killed (ht : s.forkAlloc c = some t) (k : ProcId) :
    (t.proc k).killed = (s.proc k).killed := by
  obtain ⟨p, -, rfl⟩ := map_eq_some_iff.1 ht
  split
  · rfl
  · rename_i np u hu
    obtain ⟨-, rfl⟩ := allocproc_eq_some hu
    simp only
    exact update_cases k rfl fun _ => rfl

theorem clean_iff {acts : List (Act C)} (h : exec step boot acts = some s) :
    (∀ pre suf v, acts = pre ++ suf → exec step boot pre = some v → v.Clean) ↔
      Along step Careful boot acts := by
  refine along_iff (fun s : Sys C => s.RunInv ∧ s.Clean) Clean ?_ ?_ (fun _ => And.right)
    ⟨runInv_boot, clean_boot⟩ h
  · rintro s a t ⟨hr, hs⟩ hc ht
    exact ⟨hr.step ht, all_step stable_clean hr hs hc.leaves ht⟩
  · rintro s a t - ht hc
    exact hc.careful ht

/-- In every state that is reached, the calls for a pid do what they should exactly if the
first slot with it is in use and the pid is not 0, and `setnice` refuses what is out of range.
A run never leaves an unused slot killed exactly if all its steps are careful, and it is from
its slot that a new process has its flag. -/
theorem pid_calls {acts : List (Act C)} (h : exec step boot acts = some s) :
    (∀ pid, PidOk s.proc pid ↔
      ∀ k, holder s.proc pid = some k → (s.proc k).state ≠ .unused ∧ pid ≠ 0) ∧
    (∀ pid nice, nice < 0 ∨ 39 < nice → setnice pid nice s.proc = (-1, s.proc)) ∧
    ((∀ pre suf v, acts = pre ++ suf → exec step boot pre = some v → v.Clean) ↔
      Along step Careful boot acts) ∧
    ∀ c t, s.forkAlloc c = some t → ∀ k, (t.proc k).killed = (s.proc k).killed := by
  refine ⟨fun pid => pidOk_iff fun k hk => ?_, fun pid nice => setnice_range, clean_iff h,
    fun c t => forkAlloc_killed⟩
  have := (nice_run h k).1
  rw [hk] at this
  exact absurd this (by decide)

/-- `init` gets the CPU. -/
def startRun : List (Act Unit) := List.replicate 3 (.scheduler ()) ++ [.resume ()]

/-- `init` has forked a child. -/
def childRun : List (Act Unit) :=
  startRun ++ [.forkAlloc (), .forkStack () true, .forkCopy () true, .forkRun ()]

/-- The calls do what they should for the child of `init`, and for a pid that nobody has. -/
theorem pid_calls_init : ∃ s : Sys Unit, exec step boot childRun = some s ∧ Exists s.proc 2 ∧
    PidOk s.proc 2 ∧ PidOk s.proc 3 := by
  have h : (exec step boot childRun).map (fun s => ((holder s.proc 2).map fun k =>
      (s.proc k).state, holder s.proc 3)) = some (some .runnable, none) := by
    decide +kernel
  obtain ⟨s, hs, he⟩ := map_eq_some_iff.1 h
  obtain ⟨h2, h3⟩ := Prod.mk.inj he
  obtain ⟨k, hk, hst⟩ := map_eq_some_iff.1 h2
  have hu : (s.proc k).state ≠ .unused := by
    rw [hst]
    decide
  refine ⟨s, hs, ⟨k, hu, holder_eq_some hk⟩, ((pid_calls hs).1 2).2 fun j hj => ?_,
    ((pid_calls hs).1 3).2 fun j hj => ?_⟩
  · obtain rfl := some.inj (hk.symm.trans hj)
    exact ⟨hu, by decide⟩
  · rw [h3] at hj
    cases hj

/-- `kill(0)` succeeds though no process has pid 0, and the next child of `init` is killed
before it runs. The pid of a `fork` that failed is found by `getnice`. -/
theorem pid_calls_unused :
    ((exec step boot startRun).map fun s => ((kill 0 s.proc).1,
      (List.finRange NPROC).any fun k => (s.proc k).state ≠ .unused && (s.proc k).pid = 0)) =
        some (0, false) ∧
    ((exec step boot (startRun ++ [.kill () 0, .forkAlloc (), .forkStack () true,
      .forkCopy () true, .forkRun ()])).map fun s =>
        ((s.proc ⟨1, by decide⟩).state, (s.proc ⟨1, by decide⟩).killed)) =
          some (.runnable, true) ∧
    ((exec step boot (startRun ++ [.forkAlloc (), .forkStack () false])).map fun s =>
      (getnice 2 s.proc, (List.finRange NPROC).any fun k =>
        (s.proc k).state ≠ .unused && (s.proc k).pid = 2)) = some (0, false) := by
  decide +kernel

end Sys

end Xv6.Ptable
