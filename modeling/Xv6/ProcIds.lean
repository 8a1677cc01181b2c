import Xv6.PidCalls
import Xv6.Reaping

/-!
# Process ids and nice values

`allocproc` gives a new process `nextpid`, a 32-bit counter that wraps, and leaves every
other field of the slot as the last process in it has left it.

So the pids of the processes stay positive and distinct exactly as long as `allocproc` does not
hand out a pid that is not positive or that a process has (`pids_identify`), which holds for
the first `2 ^ 31 - 2` calls. A new process has the nice value of its slot : it is the value it
should have exactly if `setnice` has set it since, or if the slot happened to have the value of
the parent (`nice_of_process`).
-/

set_option linter.unusedSectionVars false

namespace Xv6.Ptable

open Function Option

/-- The slot goes on with its process, or with none. -/
structure Same (a b : Proc) : Prop where
  used : b.state ≠ .unused → a.state ≠ .unused
  pid : b.pid = a.pid ∨ b.pid = 0 ∧ b.state = .unused
  nice : b.nice = a.nice

theorem Same.refl (a : Proc) : Same a a := ⟨id, Or.inl rfl, rfl⟩

theorem Same.pid_eq {a b : Proc} (h : Same a b) (hb : b.state ≠ .unused) : b.pid = a.pid := by
  rcases h.pid with hp | ⟨-, hu⟩
  · exact hp
  · exact absurd hu hb

theorem Same.trans {a b c : Proc} (h : Same a b) (h' : Same b c) : Same a c := by
  refine ⟨fun hc => h.used (h'.used hc), ?_, h'.nice.trans h.nice⟩
  rcases h'.pid with hp' | hp'
  · rcases h.pid with hp | ⟨hp, hb⟩
    · exact Or.inl (hp'.trans hp)
    · exact Or.inr ⟨hp'.trans hp, by_contra fun hc => h'.used hc hb⟩
  · exact Or.inr hp'

theorem same_freeSlot (a : Proc) : Same a (freeSlot a) :=
  ⟨fun h => absurd rfl h, Or.inr ⟨rfl, rfl⟩, rfl⟩

theorem Same.of_eq {a b : Proc} (hs : b.state ≠ .unused → a.state ≠ .unused) (hp : b.pid = a.pid)
    (hn : b.nice = a.nice) : Same a b :=
  ⟨hs, Or.inl hp, hn⟩

theorem Same.of_woken {a b : Proc} (h : Woken a b) (hn : b.nice = a.nice) : Same a b :=
  .of_eq (fun hb ha => hb (by
    rcases h.state with hs | ⟨hs, -⟩
    · exact hs.trans ha
    · rw [ha] at hs
      cases hs)) h.pid hn

/-- A step at one slot. -/
theorem same_update {u : Table} {k : ProcId} {x : Proc} (h : Same (u k) x) (j : ProcId) :
    Same (u j) (update u k x j) :=
  update_cases j h fun _ => Same.refl _

theorem foldl_adopt_nice (p : ProcId) : ∀ (js : List ProcId) (u : Table) (k : ProcId),
    (js.foldl (adopt p) u k).nice = (u k).nice
  | [], _, _ => rfl
  | j :: js, u, k => (foldl_adopt_nice p js (adopt p u j) k).trans (adopt_flags p u j k).1

theorem exitTable_nice (p : ProcId) (u : Table) (k : ProcId) :
    (exitTable p u k).nice = (u k).nice := by
  have hf : ∀ j, ((List.finRange NPROC).foldl (adopt p) (wakeup1 ((u p).parent.map .proc) u) j).nice
      = (u j).nice := fun j =>
    (foldl_adopt_nice p _ _ j).trans (wakeup1_flags _ u j).1
  unfold exitTable
  by_cases hk : k = p
  · subst hk
    simp only [update_self]
    exact hf k
  · simp only [update_of_ne hk]
    exact hf k

/-- `exit` keeps the numbers and `nice` values. -/
theorem exitTable_same {p : ProcId} {u : Table} (hp : (u p).state = .running) (k : ProcId) :
    Same (u k) (exitTable p u k) := by
  by_cases hk : k = p
  · subst hk
    refine .of_eq (fun _ => by rw [hp]; decide) ?_ (exitTable_nice k u k)
    exact (Sys.exitTable_keeps k u k).1
  · exact .of_woken (woken_exitTable hk u) (exitTable_nice p u k)

theorem kill_nice (pid : Int32) (u : Table) (k : ProcId) :
    ((kill pid u).2 k).nice = (u k).nice := by
  cases hj : holder u pid with
  | none => rw [kill_of_none hj]
  | some j =>
    rw [kill_of_some hj]
    simp only
    refine update_cases k ?_ fun _ => rfl
    split_ifs <;> rfl

/-- `setnice` succeeded. -/
theorem setnice_eq_zero {u : Table} {pid v : Int32} (h : (setnice pid v u).1 = 0) :
    ∃ k, holder u pid = some k ∧ pid ≠ 0 ∧
      (setnice pid v u).2 = update u k { u k with nice := v } := by
  by_cases hr : v < 0 ∨ 39 < v
  · rw [setnice_range hr] at h
    exact absurd h (show (-1 : Int32) ≠ 0 by decide)
  obtain ⟨h0, h39⟩ := in_range.1 hr
  by_cases hp : pid = 0
  · rw [hp, setnice_zero] at h
    exact absurd h (show (-1 : Int32) ≠ 0 by decide)
  cases hk : holder u pid with
  | none =>
    rw [setnice_of_none hp hk] at h
    exact absurd h (show (-1 : Int32) ≠ 0 by decide)
  | some k => exact ⟨k, rfl, hp, by rw [setnice_of_some h0 h39 hp hk]⟩

/-- `setnice` failed. -/
theorem setnice_ne_zero {u : Table} {pid v : Int32} (h : (setnice pid v u).1 ≠ 0) :
    (setnice pid v u).2 = u := by
  unfold setnice at h ⊢
  split_ifs at h ⊢
  · rfl
  · split
    · rfl
    · rename_i k hk
      rw [hk] at h
      exact absurd rfl h

namespace Sys

variable {C : Type} [DecidableEq C] {s t : Sys C} {c : C} {p k : ProcId}

/-- Where the nice value of a process comes from. -/
structure Nice where
  /-- What it should start with : the value of its parent, 20 for the first process. -/
  inherited : Int32
  /-- What was in its slot when it was created. -/
  left : Int32
  /-- What the last successful `setnice` on its pid since then has set. -/
  set : Option Int32

variable {h : ProcId → Nice}

/-- The account of the nice values, kept at every step. -/
def noteNice (s : Sys C) (a : Act C) (h : ProcId → Nice) : ProcId → Nice :=
  match a with
  | .forkAlloc c =>
    match s.enter c, allocproc s.nextpid s.proc with
    | some p, some (np, _) => update h np ⟨(s.proc p).nice, (s.proc np).nice, none⟩
    | _, _ => h
  | .setnice _ pid v =>
    if (setnice pid v s.proc).1 = 0 then fun k =>
      if (s.proc k).state ≠ .unused ∧ (s.proc k).pid = pid then { h k with set := some v } else h k
    else h
  | _ => h

/-- The account at the start. -/
def bootNice : ProcId → Nice := fun _ => ⟨20, 0, none⟩

/-- What a step does to pids and nice values. -/
inductive Moves (s t : Sys C) (a : Act C) : Prop where
  | keep (slot : ∀ k, Same (s.proc k) (t.proc k)) (nextpid : t.nextpid = s.nextpid)
      (nextBirth : t.nextBirth = s.nextBirth) (birth : t.birth = s.birth)
      (note : ∀ h, noteNice s a h = h)
  | alloc (c : C) (p np : ProcId) (u : Table) (act : a = .forkAlloc c)
      (enter : s.enter c = some p) (find : allocproc s.nextpid s.proc = some (np, u))
      (unused : (s.proc np).state = .unused)
      (table : t.proc = update s.proc np { s.proc np with state := .embryo, pid := s.nextpid })
      (nextpid : t.nextpid = s.nextpid + 1) (nextBirth : t.nextBirth = s.nextBirth + 1)
      (birth : t.birth = update s.birth np s.nextBirth)
  | setnice (c : C) (pid v : Int32) (k : ProcId) (act : a = .setnice c pid v)
      (done : (setnice pid v s.proc).1 = 0) (first : holder s.proc pid = some k)
      (table : t.proc = update s.proc k { s.proc k with nice := v })
      (nextpid : t.nextpid = s.nextpid) (nextBirth : t.nextBirth = s.nextBirth)
      (birth : t.birth = s.birth)

/-- What every step does to pids and nice values. -/
theorem step_moves (hr : s.RunInv) {a : Act C} (ht : s.step a = some t) : Moves s t a := by
  cases step_does hr ht with
  | seek => exact .keep (fun _ => Same.refl _) rfl rfl rfl fun _ => rfl
  | swtch c p ctl old =>
    exact .keep (same_update (.of_eq (fun _ => by rw [old]; decide) rfl rfl)) rfl rfl rfl
      fun _ => rfl
  | leave _ c p chan w act =>
    refine .keep (same_update (.of_eq id rfl rfl)) rfl rfl rfl ?_
    rcases act with rfl | rfl <;> exact fun _ => rfl
  | sched _ c p st chan pc act run =>
    refine .keep (same_update (.of_eq (fun _ => by rw [(hr.run run).2.1]; decide) rfl rfl)) rfl rfl
      rfl ?_
    rcases act with rfl | rfl | rfl | ⟨n, rfl⟩ <;> exact fun _ => rfl
  | exit c p run => exact .keep (exitTable_same (hr.run run).2.1) rfl rfl rfl fun _ => rfl
  | reap _ c p z chan act run lock child ne =>
    refine .keep (fun k => ?_) rfl rfl rfl ?_
    · have hp : Same (s.proc p) { s.proc p with chan := chan } := .of_eq id rfl rfl
      refine (same_update hp k).trans (same_update ?_ k)
      rw [update_of_ne ne]
      exact same_freeSlot _
    · rcases act with rfl | rfl <;> exact fun _ => rfl
  | same _ act =>
    refine .keep (fun _ => Same.refl _) rfl rfl rfl ?_
    rcases act with ⟨c, rfl, hu⟩ | ⟨c, pid, rfl⟩
    · intro h
      cases he : s.enter c <;> simp only [noteNice, hu, he]
    · exact fun _ => rfl
  | alloc c p np u enter find =>
    exact .alloc c p np u rfl enter find (allocproc_eq_some find).1 rfl rfl rfl rfl
  | child c p np v w k d par _ act =>
    refine .keep (same_update (.of_eq id rfl rfl)) rfl rfl rfl ?_
    rcases act with ⟨rfl, -⟩ | ⟨rfl, -⟩ <;> exact fun _ => rfl
  | fail c p np v k _ act =>
    refine .keep (same_update (.of_eq (fun h => absurd rfl h) rfl rfl)) rfl rfl rfl ?_
    rcases act with ⟨rfl, -⟩ | ⟨rfl, -⟩ <;> exact fun _ => rfl
  | run c p np run pc =>
    have hst := (hr.child (show (s.pc p).child = some np by rw [pc]; rfl)).1
    exact .keep (same_update (.of_eq (fun _ => by rw [hst]; decide) rfl rfl)) rfl rfl rfl
      fun _ => rfl
  | wakeup =>
    exact .keep (fun k => .of_woken (woken_wakeup1 _ _ k) (wakeup1_flags _ _ k).1) rfl rfl rfl
      fun _ => rfl
  | kill c pid =>
    exact .keep (fun k => .of_woken (woken_kill pid _ k) (kill_nice pid _ k)) rfl rfl rfl
      fun _ => rfl
  | setnice c pid v =>
    by_cases h0 : (setnice pid v s.proc).1 = 0
    · obtain ⟨k, hk, -, htab⟩ := setnice_eq_zero h0
      exact .setnice c pid v k rfl h0 hk htab rfl rfl rfl
    · refine .keep (fun k => ?_) rfl rfl rfl fun h => by simp only [noteNice, if_neg h0]
      simp only [setnice_ne_zero h0]
      exact Same.refl _

/-! ## Pids -/

/-- The pids of the processes are positive and distinct. -/
structure Identified (s : Sys C) : Prop where
  pos : ∀ k, (s.proc k).state ≠ .unused → 0 < (s.proc k).pid
  inj : ∀ j k, (s.proc j).state ≠ .unused → (s.proc k).state ≠ .unused →
    (s.proc j).pid = (s.proc k).pid → j = k

/-- `allocproc` hands out a positive pid that no process has. -/
def PidFree (s : Sys C) : Act C → Prop
  | .forkAlloc c => ∀ p np u, s.enter c = some p → allocproc s.nextpid s.proc = some (np, u) →
      0 < s.nextpid ∧ ∀ k, (s.proc k).state ≠ .unused → (s.proc k).pid ≠ s.nextpid
  | _ => True

/-- No process appears and no number changes. -/
theorem Identified.keep (h : s.Identified)
    (hs : ∀ k, (t.proc k).state ≠ .unused →
      (s.proc k).state ≠ .unused ∧ (t.proc k).pid = (s.proc k).pid) : t.Identified where
  pos k hk := by
    rw [(hs k hk).2]
    exact h.pos k (hs k hk).1
  inj j k hj hk he := by
    rw [(hs j hj).2, (hs k hk).2] at he
    exact h.inj j k (hs j hj).1 (hs k hk).1 he

/-- A process with a new number appears. -/
theorem Identified.alloc (h : s.Identified) {np : ProcId} (hpos : 0 < s.nextpid)
    (hfree : ∀ k, (s.proc k).state ≠ .unused → (s.proc k).pid ≠ s.nextpid)
    (ht : t.proc = update s.proc np { s.proc np with state := .embryo, pid := s.nextpid }) :
    t.Identified where
  pos k := by
    rw [ht]
    exact update_cases k (fun _ => hpos) fun _ => h.pos k
  inj j k := by
    rw [ht]
    refine update_cases j (update_cases k ?_ fun _ _ hk he => ?_) fun _ =>
      update_cases k (fun hj _ he => ?_) fun _ => h.inj j k
    · exact fun _ _ _ => rfl
    · exact absurd he.symm (hfree k hk)
    · exact absurd he (hfree j hj)

/-- `setnice` leaves pids and states alone. -/
theorem nice_update (u : Table) (k j : ProcId) (v : Int32) :
    (update u k { u k with nice := v } j).state = (u j).state ∧
      (update u k { u k with nice := v } j).pid = (u j).pid :=
  update_cases j ⟨rfl, rfl⟩ fun _ => ⟨rfl, rfl⟩

theorem Identified.step (h : s.Identified) {a : Act C} (hm : Moves s t a) (ha : s.PidFree a) :
    t.Identified := by
  cases hm with
  | keep slot => exact h.keep fun k hk => ⟨(slot k).used hk, (slot k).pid_eq hk⟩
  | alloc c p np u act enter find unused table =>
    subst act
    obtain ⟨hpos, hfree⟩ := ha p np u enter find
    exact h.alloc hpos hfree table
  | setnice c pid v k act done first table =>
    refine h.keep fun j hj => ?_
    obtain ⟨hst, hpid⟩ := nice_update s.proc k j v
    rw [table] at hj ⊢
    exact ⟨by rwa [hst] at hj, hpid⟩

/-- A step that hands out another pid spoils the pids. -/
theorem Identified.pidFree (h : t.Identified) {a : Act C} (ht : s.step a = some t) :
    s.PidFree a := by
  cases a with
  | forkAlloc c =>
    intro p np u hp hu
    simp only [Sys.step, Sys.forkAlloc, hp, hu, map_some] at ht
    obtain rfl := some.inj ht
    obtain ⟨hun, rfl⟩ := allocproc_eq_some hu
    refine ⟨by simpa using h.pos np, fun k hk he => ?_⟩
    have hkn : k ≠ np := by
      rintro rfl
      exact hk hun
    refine hkn (h.inj k np ?_ ?_ ?_)
    · simpa only [update_of_ne hkn] using hk
    · simp
    · simpa only [update_of_ne hkn, update_self] using he
  | _ => trivial

theorem identified_boot : (boot : Sys C).Identified := by
  have hk : ∀ k, ((boot : Sys C).proc k).state ≠ .unused → k = initproc := fun k hk => by
    by_contra hne
    simp [boot, update_of_ne hne] at hk
  refine ⟨fun k h => ?_, fun j k hj hk' _ => (hk j hj).trans (hk k hk').symm⟩
  rw [hk k h]
  simp [boot]

theorem identified_iff {acts : List (Act C)} (h : exec step boot acts = some s) :
    (∀ pre suf v, acts = pre ++ suf → exec step boot pre = some v → v.Identified) ↔
      Along step PidFree boot acts := by
  refine along_iff (fun s : Sys C => s.RunInv ∧ s.Identified) Identified ?_ ?_ (fun _ => And.right)
    ⟨runInv_boot, identified_boot⟩ h
  · rintro s a t ⟨hr, hs⟩ ha ht
    exact ⟨hr.step ht, hs.step (step_moves hr ht) ha⟩
  · rintro s a t - ht hi
    exact hi.pidFree ht

/-- The pid of a process is its number. -/
structure Numbered (s : Sys C) : Prop where
  next : s.nextpid = Int32.ofNat (s.nextBirth + 1)
  pid : ∀ k, (s.proc k).state ≠ .unused → (s.proc k).pid = Int32.ofNat (s.birth k + 1)

/-- `allocproc` gives out the numbers one after the other. -/
theorem Numbered.step (h : s.Numbered) {a : Act C} (hm : Moves s t a) : t.Numbered := by
  cases hm with
  | keep slot nextpid nextBirth birth =>
    refine ⟨by rw [nextpid, nextBirth, h.next], fun k hk => ?_⟩
    rw [(slot k).pid_eq hk, birth, h.pid k ((slot k).used hk)]
  | alloc c p np u act enter find unused table nextpid nextBirth birth =>
    refine ⟨?_, fun k hk => ?_⟩
    · rw [nextpid, nextBirth, h.next, Int32.ofNat_add (s.nextBirth + 1) 1]
      rfl
    · rw [table] at hk ⊢
      rw [birth]
      by_cases hkn : k = np
      · rw [hkn, update_self, update_self]
        exact h.next
      · rw [update_of_ne hkn] at hk ⊢
        rw [update_of_ne hkn]
        exact h.pid k hk
  | setnice c pid v k act done first table nextpid nextBirth birth =>
    refine ⟨by rw [nextpid, nextBirth, h.next], fun j hj => ?_⟩
    obtain ⟨hst, hpid⟩ := nice_update s.proc k j v
    rw [table] at hj ⊢
    rw [hst] at hj
    rw [hpid, birth, h.pid j hj]

theorem numbered_run {acts : List (Act C)} (h : exec step boot acts = some s) : s.Numbered := by
  refine (exec_invariant_all (fun s : Sys C => s.RunInv ∧ s.Numbered) ?_ ⟨runInv_boot, ?_⟩ h).2
  · rintro s a t ⟨hr, hs⟩ ht
    exact ⟨hr.step ht, hs.step (step_moves hr ht)⟩
  · refine ⟨rfl, fun k hk => ?_⟩
    by_cases hki : k = initproc
    · simp [boot, hki]
    · simp [boot, update_of_ne hki] at hk

theorem toInt_ofNat_of_lt {n : ℕ} (h : n < 2 ^ 31) : (Int32.ofNat n).toInt = n := by
  rw [Int32.toInt_ofNat']
  simp [Int32.size, Int.bmod]
  omega

/-- As long as the counter has not wrapped, pids are positive and distinct. -/
theorem Numbered.identified (h : s.Numbered) (hh : s.HistInv) (hlt : s.nextBirth < 2 ^ 31) :
    s.Identified := by
  have hto : ∀ k, (s.proc k).state ≠ .unused → ((s.proc k).pid).toInt = s.birth k + 1 :=
    fun k hk => by
      have := hh.lt k hk
      rw [h.pid k hk, toInt_ofNat_of_lt (by omega)]
      rfl
  refine ⟨fun k hk => ?_, fun j k hj hk he => hh.inj j k hj hk ?_⟩
  · rw [Int32.lt_iff_toInt_lt, hto k hk]
    change (0 : ℤ) < _
    omega
  · have := congrArg Int32.toInt he
    rw [hto j hj, hto k hk] at this
    omega

/-- The pids of the processes are positive and distinct in every state of a run exactly if
`allocproc` never hands out a pid that is not positive or that a process has, and they are so
as long as less than `2 ^ 31 - 1` pids have been handed out after that of the first process. -/
theorem pids_identify {acts : List (Act C)} (h : exec step boot acts = some s) :
    ((∀ pre suf v, acts = pre ++ suf → exec step boot pre = some v → v.Identified) ↔
      Along step PidFree boot acts) ∧
    (s.nextBirth < 2 ^ 31 → s.Identified) :=
  ⟨identified_iff h, (numbered_run h).identified (inv_run h).hist⟩

/-! ### A counter that wraps -/

/-- The slot after that of `init`. -/
def slot1 : ProcId := ⟨1, one_lt_nproc⟩

theorem firstSlot_slot1 {q : ProcId → Bool} (h0 : q initproc = false) (h1 : q slot1 = true) :
    firstSlot q = some slot1 := by
  have hl : List.finRange NPROC =
      initproc :: slot1 :: (List.finRange 62).map fun i => i.succ.succ := by
    decide
  rw [firstSlot, hl, List.find?_cons_of_neg (by simp [h0]), List.find?_cons_of_pos h1]

/-- `init` runs in user space and the slot after its own is free. -/
structure Alone (s : Sys Unit) (n : ℕ) : Prop where
  enter : s.enter () = some initproc
  init : (s.proc initproc).state ≠ .unused ∧ (s.proc initproc).pid = 1
  free : (s.proc slot1).state = .unused
  next : s.nextpid = Int32.ofNat n

/-- `fork` fails for lack of a kernel stack. -/
def failRun : List (Act Unit) := [.forkAlloc (), .forkStack () false]

theorem slot1_ne : slot1 ≠ initproc := by decide

/-- `fork` takes the slot after that of `init`. -/
theorem Alone.alloc {s : Sys Unit} {n : ℕ} (h : s.Alone n) :
    ∃ t, s.step (.forkAlloc ()) = some t ∧ (t.cpu ()).ctl = .run initproc ∧
      t.pc initproc = .work (.forking slot1) ∧ t.lock = none ∧
      t.proc = update s.proc slot1 { s.proc slot1 with state := .embryo, pid := Int32.ofNat n } ∧
      t.nextpid = Int32.ofNat (n + 1) := by
  obtain ⟨hctl, -, hlock⟩ := enter_eq_some.1 h.enter
  have hfind : (firstSlot fun k => (s.proc k).state = .unused) = some slot1 :=
    firstSlot_slot1 (by simpa using h.init.1) (by simpa using h.free)
  have hstep : s.step (.forkAlloc ()) = some { s with
      proc := update s.proc slot1 { s.proc slot1 with state := .embryo, pid := s.nextpid }
      nextpid := s.nextpid + 1
      pc := update s.pc initproc (.work (.forking slot1))
      nextBirth := s.nextBirth + 1
      birth := update s.birth slot1 s.nextBirth } := by
    simp only [Sys.step, Sys.forkAlloc, h.enter, allocproc, hfind, map_some]
  refine ⟨_, hstep, hctl, update_self initproc _ s.pc, hlock, by rw [← h.next], ?_⟩
  rw [Int32.ofNat_add n 1, ← h.next]
  rfl

/-- A `fork` that fails uses up a number. -/
theorem Alone.fail {s : Sys Unit} {n : ℕ} (h : s.Alone n) :
    ∃ t, exec step s failRun = some t ∧ t.Alone (n + 1) := by
  obtain ⟨t, ht, hctl, hpc, hlock, hproc, hnext⟩ := h.alloc
  have hrun : t.running () = some initproc := running_eq_some.2 hctl
  have hstep : t.step (.forkStack () false) = some ((t.setProc slot1
      { t.proc slot1 with state := .unused }).setPc initproc (.work .user)) := by
    simp [Sys.step, Sys.forkStack, hrun, hpc]
  refine ⟨_, exec_cons_eq_some.2 ⟨t, ht, exec_cons_eq_some.2 ⟨_, hstep, rfl⟩⟩, ?_, ?_, ?_, hnext⟩
  · exact enter_eq_some.2 ⟨hctl, update_self initproc _ t.pc, hlock⟩
  · simpa [setProc, setPc, hproc, update_of_ne slot1_ne.symm] using h.init
  · simp [setProc, setPc]

/-- A `fork` that succeeds gives the child the next pid. -/
theorem Alone.fork {s : Sys Unit} {n : ℕ} (h : s.Alone n) :
    ∃ t, exec step s [.forkAlloc (), .forkStack () true, .forkCopy () true, .forkRun ()] = some t ∧
      (t.proc slot1).state = .runnable ∧ (t.proc slot1).pid = Int32.ofNat n ∧
      t.proc initproc = s.proc initproc := by
  obtain ⟨t, ht, hctl, hpc, hlock, hproc, -⟩ := h.alloc
  have hstack : t.step (.forkStack () true) = some ((t.setProc slot1
      { t.proc slot1 with kstack := true }).setPc initproc (.work (.copying slot1))) := by
    simp [Sys.step, Sys.forkStack, running, hctl, hpc]
  generalize hu : (t.setProc slot1 { t.proc slot1 with kstack := true }).setPc initproc
    (.work (.copying slot1)) = u at hstack
  have hcopy : u.step (.forkCopy () true) = some ((u.setProc slot1 { u.proc slot1 with
      pgdir := true, parent := some initproc }).setPc initproc (.work (.linking slot1))) := by
    simp [← hu, Sys.step, Sys.forkCopy, running, hctl, setProc, setPc]
  generalize hv : (u.setProc slot1 { u.proc slot1 with
    pgdir := true, parent := some initproc }).setPc initproc (.work (.linking slot1)) = v at hcopy
  have hrun : v.step (.forkRun ()) = some (((v.setProc slot1
      { v.proc slot1 with state := .runnable }).setPc initproc (.work .user)).setPc slot1
        .forkret) := by
    simp [← hv, ← hu, Sys.step, Sys.forkRun, running, hctl, hlock, setProc, setPc]
  refine ⟨_, exec_cons_eq_some.2 ⟨t, ht, exec_cons_eq_some.2 ⟨u, hstack,
    exec_cons_eq_some.2 ⟨v, hcopy, exec_cons_eq_some.2 ⟨_, hrun, rfl⟩⟩⟩⟩, ?_, ?_, ?_⟩
  · simp [setProc, setPc]
  · simp [← hv, ← hu, setProc, setPc, hproc]
  · simp [← hv, ← hu, setProc, setPc, hproc, update_of_ne slot1_ne.symm]

/-- After any number of `fork`s that fail. -/
theorem Alone.fails {s : Sys Unit} {n : ℕ} (h : s.Alone n) (m : ℕ) :
    ∃ acts t, exec step s acts = some t ∧ t.Alone (n + m) := by
  induction m with
  | zero => exact ⟨[], s, rfl, h⟩
  | succ m ih =>
    obtain ⟨acts, t, ht, hn⟩ := ih
    obtain ⟨u, hu, hn'⟩ := hn.fail
    exact ⟨acts ++ failRun, u, (exec_append _ _).2 ⟨t, ht, hu⟩, hn'⟩

theorem alone_start : ∃ s : Sys Unit, exec step boot startRun = some s ∧ s.Alone 2 := by
  have h : (exec step boot startRun).map (fun s => (s.enter (), (s.proc initproc).state,
      (s.proc initproc).pid, (s.proc slot1).state, s.nextpid)) =
        some (some initproc, .running, 1, .unused, 2) := by
    decide +kernel
  obtain ⟨s, hs, he⟩ := map_eq_some_iff.1 h
  simp only [Prod.mk.injEq] at he
  obtain ⟨h1, h2, h3, h4, h5⟩ := he
  exact ⟨s, hs, h1, ⟨by rw [h2]; decide, h3⟩, h4, h5⟩

/-- A child of `init` gets any pid after enough `fork`s that fail. -/
theorem pid_reached (n : ℕ) : ∃ acts, ∃ s : Sys Unit, exec step boot acts = some s ∧
    (s.proc slot1).state = .runnable ∧ (s.proc slot1).pid = Int32.ofNat (2 + n) ∧
    (s.proc initproc).state ≠ .unused ∧ (s.proc initproc).pid = 1 := by
  obtain ⟨s, hs, h2⟩ := alone_start
  obtain ⟨acts, t, ht, hn⟩ := h2.fails n
  obtain ⟨u, hu, h1, h3, h4⟩ := hn.fork
  refine ⟨startRun ++ (acts ++ _), u, (exec_append _ _).2 ⟨s, hs, (exec_append _ _).2 ⟨t, ht, hu⟩⟩,
    h1, h3, ?_⟩
  rw [h4]
  exact hn.init

/-- After `2 ^ 32 - 1` failed `fork`s a child has the pid of `init`, and after `2 ^ 31 - 2` it
has a negative one. -/
theorem pids_confused :
    (∃ acts, ∃ s : Sys Unit, exec step boot acts = some s ∧
      (s.proc slot1).state = .runnable ∧ (s.proc initproc).state ≠ .unused ∧
      (s.proc slot1).pid = (s.proc initproc).pid) ∧
    ∃ acts, ∃ s : Sys Unit, exec step boot acts = some s ∧
      (s.proc slot1).state = .runnable ∧ (s.proc slot1).pid < 0 := by
  constructor
  · obtain ⟨acts, s, hs, hst, hpid, hini, h1⟩ := pid_reached (2 ^ 32 - 1)
    refine ⟨acts, s, hs, hst, hini, ?_⟩
    rw [hpid, h1]
    decide
  · obtain ⟨acts, s, hs, hst, hpid, -⟩ := pid_reached (2 ^ 31 - 2)
    refine ⟨acts, s, hs, hst, ?_⟩
    rw [hpid]
    decide

/-- `init` and its child have the pids 1 and 2, and all pids are positive and distinct. -/
theorem pids_identify_init : ∃ s : Sys Unit, exec step boot childRun = some s ∧ s.Identified ∧
    (s.proc initproc).state = .running ∧ (s.proc initproc).pid = 1 ∧
    (s.proc slot1).state = .runnable ∧ (s.proc slot1).pid = 2 := by
  have h : (exec step boot childRun).map (fun s => (s.nextBirth, (s.proc initproc).state,
      (s.proc initproc).pid, (s.proc slot1).state, (s.proc slot1).pid)) =
        some (2, .running, 1, .runnable, 2) := by
    decide +kernel
  obtain ⟨s, hs, he⟩ := map_eq_some_iff.1 h
  simp only [Prod.mk.injEq] at he
  exact ⟨s, hs, (pids_identify hs).2 (by rw [he.1]; decide), he.2⟩

/-! ## Nice values -/

/-- `allocproc` hands out a pid that is not 0 and that no slot has. -/
def PidNew (s : Sys C) : Act C → Prop
  | .forkAlloc c => ∀ p np u, s.enter c = some p → allocproc s.nextpid s.proc = some (np, u) →
      s.nextpid ≠ 0 ∧ ∀ k, (s.proc k).pid ≠ s.nextpid
  | _ => True

/-- The account of a run. -/
def niceOf (acts : List (Act C)) : ProcId → Nice := record step noteNice boot bootNice acts

/-- No other slot has the pid of a process, and its nice value is the one of the account. -/
structure NiceInv (s : Sys C) (h : ProcId → Nice) : Prop where
  pid : ∀ k, (s.proc k).state ≠ .unused → (s.proc k).pid ≠ 0
  only : ∀ j k, (s.proc k).state ≠ .unused → (s.proc j).pid = (s.proc k).pid → j = k
  nice : ∀ k, (s.proc k).state ≠ .unused → (s.proc k).nice = (h k).set.getD (h k).left

/-- A number finds its process. -/
theorem NiceInv.holder (hi : s.NiceInv h) (hk : (s.proc k).state ≠ .unused) :
    holder s.proc (s.proc k).pid = some k := by
  cases hj : Ptable.holder s.proc (s.proc k).pid with
  | none => exact absurd rfl (holder_eq_none hj k)
  | some j => rw [hi.only j k hk (holder_eq_some hj)]

/-- No `nice` value changes. -/
theorem NiceInv.keep (hi : s.NiceInv h) (hs : ∀ k, Same (s.proc k) (t.proc k)) : t.NiceInv h where
  pid k hk := by
    rw [(hs k).pid_eq hk]
    exact hi.pid k ((hs k).used hk)
  only j k hk he := by
    have hks := (hs k).used hk
    rw [(hs k).pid_eq hk] at he
    rcases (hs j).pid with hj | ⟨hj, -⟩
    · exact hi.only j k hks (hj.symm.trans he)
    · exact absurd (he.symm.trans hj) (hi.pid k hks)
  nice k hk := by
    rw [(hs k).nice]
    exact hi.nice k ((hs k).used hk)

/-- A process with a new number appears. -/
theorem NiceInv.alloc (hi : s.NiceInv h) {np : ProcId} {v : Int32} (h0 : s.nextpid ≠ 0)
    (hnew : ∀ k, (s.proc k).pid ≠ s.nextpid)
    (ht : t.proc = update s.proc np { s.proc np with state := .embryo, pid := s.nextpid }) :
    t.NiceInv (update h np ⟨v, (s.proc np).nice, none⟩) where
  pid k := by
    rw [ht]
    exact update_cases k (fun _ => h0) fun _ => hi.pid k
  only j k := by
    rw [ht]
    refine update_cases j (update_cases k ?_ fun _ _ he => ?_) fun _ =>
      update_cases k (fun _ he => ?_) fun _ => hi.only j k
    · exact fun _ _ => rfl
    · exact absurd he.symm (hnew k)
    · exact absurd he (hnew j)
  nice k hk := by
    rw [ht] at hk ⊢
    by_cases hkn : k = np
    · rw [hkn, update_self, update_self]
      rfl
    · rw [update_of_ne hkn] at hk ⊢
      rw [update_of_ne hkn]
      exact hi.nice k hk

/-- `setnice` changes one value. -/
theorem NiceInv.setnice (hi : s.NiceInv h) {pid v : Int32} (hk : Ptable.holder s.proc pid = some k)
    (ht : t.proc = update s.proc k { s.proc k with nice := v }) :
    t.NiceInv fun j => if (s.proc j).state ≠ .unused ∧ (s.proc j).pid = pid then
      { h j with set := some v } else h j := by
  have hst : ∀ j, (t.proc j).state = (s.proc j).state := fun j => by
    rw [ht]
    exact (nice_update s.proc k j v).1
  have hpid : ∀ j, (t.proc j).pid = (s.proc j).pid := fun j => by
    rw [ht]
    exact (nice_update s.proc k j v).2
  refine ⟨fun j hj => ?_, fun i j hj he => ?_, fun j hj => ?_⟩
  · rw [hpid]
    rw [hst] at hj
    exact hi.pid j hj
  · rw [hst] at hj
    rw [hpid, hpid] at he
    exact hi.only i j hj he
  · rw [hst] at hj
    by_cases hjp : (s.proc j).pid = pid
    · have hkj : k = j := hi.only k j hj ((holder_eq_some hk).trans hjp.symm)
      rw [if_pos ⟨hj, hjp⟩, ht, hkj, update_self]
      rfl
    · have hjk : j ≠ k := by
        rintro rfl
        exact hjp (holder_eq_some hk)
      rw [if_neg fun hc => hjp hc.2, ht, update_of_ne hjk]
      exact hi.nice j hj

theorem NiceInv.step {h : ProcId → Nice} (hi : s.NiceInv h) {a : Act C} (hm : Moves s t a)
    (ha : s.PidNew a) : t.NiceInv (noteNice s a h) := by
  cases hm with
  | keep slot nextpid nextBirth birth note =>
    rw [note h]
    exact hi.keep slot
  | alloc c p np u act enter find unused table =>
    subst act
    obtain ⟨h0, hnew⟩ := ha p np u enter find
    simp only [noteNice, enter, find]
    exact hi.alloc h0 hnew table
  | setnice c pid v k act done first table =>
    subst act
    simp only [noteNice, if_pos done]
    exact hi.setnice first table

theorem niceInv_boot : (boot : Sys C).NiceInv bootNice := by
  have hk : ∀ k, ((boot : Sys C).proc k).state ≠ .unused → k = initproc := fun k hk => by
    by_contra hne
    simp [boot, update_of_ne hne] at hk
  refine ⟨fun k h => ?_, fun j k h he => ?_, fun k h => ?_⟩
  · simp [hk k h, boot]
  · by_contra hne
    rw [hk k h] at hne
    simp [hk k h, boot, update_of_ne hne] at he
  · simp [hk k h, boot, bootNice]

/-- The values are as last set in every run. -/
theorem niceInv_run {acts : List (Act C)} (h : exec step boot acts = some s)
    (ha : Along step PidNew boot acts) : s.NiceInv (niceOf acts) := by
  refine (exec_record (fun (s : Sys C) h => s.RunInv ∧ s.NiceInv h) ?_ ⟨runInv_boot, niceInv_boot⟩
    ha h).2
  rintro s a t h ⟨hr, hi⟩ ha ht
  exact ⟨hr.step ht, hi.step (step_moves hr ht) ha⟩

/-- In a run in which `allocproc` hands out new pids, `getnice` returns for every process the
value last set, or else the value it has found in its slot. This is what it should be exactly
if some value has been set or the slot had the value of the parent. -/
theorem nice_of_process {acts : List (Act C)} (h : exec step boot acts = some s)
    (ha : Along step PidNew boot acts) {k : ProcId} (hk : (s.proc k).state ≠ .unused) :
    getnice (s.proc k).pid s.proc = (niceOf acts k).set.getD (niceOf acts k).left ∧
    (getnice (s.proc k).pid s.proc = (niceOf acts k).set.getD (niceOf acts k).inherited ↔
      (niceOf acts k).set ≠ none ∨ (niceOf acts k).left = (niceOf acts k).inherited) := by
  have hi := niceInv_run h ha
  have hget : getnice (s.proc k).pid s.proc = (niceOf acts k).set.getD (niceOf acts k).left := by
    rw [getnice_of_some (hi.pid k hk) (hi.holder hk)]
    exact hi.nice k hk
  refine ⟨hget, ?_⟩
  rw [hget]
  cases (niceOf acts k).set with
  | none => simp
  | some v => simp

/-- `init` is given the default value by `setnice`. -/
theorem nice_of_process_set : ∃ s : Sys Unit,
    exec step boot (startRun ++ [.setnice () 1 20]) = some s ∧
    (s.proc initproc).state ≠ .unused ∧
      (niceOf (startRun ++ [.setnice () 1 20]) initproc).set ≠ none ∧
    getnice (s.proc initproc).pid s.proc = 20 := by
  have h : (exec step boot (startRun ++ [.setnice () 1 20])).map
      (fun s : Sys Unit => (s.proc initproc).state) = some .running := by
    decide +kernel
  have hset : (niceOf (startRun ++ [.setnice () 1 20]) initproc).set = some 20 := by
    decide +kernel
  obtain ⟨s, hs, hst⟩ := map_eq_some_iff.1 h
  have hk : (s.proc initproc).state ≠ .unused := by
    rw [hst]
    decide
  have ha : Along step PidNew (boot : Sys Unit) (startRun ++ [.setnice () 1 20]) := by
    simp [Along, PidNew, startRun]
  refine ⟨s, hs, hk, by rw [hset]; simp, ?_⟩
  rw [(nice_of_process hs ha hk).1, hset]
  rfl

/-- `init` forks a child, gives it the nice value 39 and reaps it, and forks again. -/
def reuseRun : List (Act Unit) :=
  startRun ++ [.forkAlloc (), .forkStack () true, .forkCopy () true, .forkRun (),
    .setnice () 2 39, .wait ()] ++ List.replicate 3 (.scheduler ()) ++ [.resume (), .exit ()] ++
    List.replicate 67 (.scheduler ()) ++ [.resume (), .forkAlloc (), .forkStack () true,
    .forkCopy () true, .forkRun ()]

/-- The nice value of `init` is 0 and not 20. The second child of `init` starts with the nice
value 39 of the first, though that of `init` is 0 and nobody has set that of the child. -/
theorem nice_of_slot :
    ((exec step boot startRun).map fun s : Sys Unit => getnice 1 s.proc) = some 0 ∧
    (niceOf startRun initproc).inherited = 20 ∧ (niceOf startRun initproc).set = none ∧
    ((exec step boot reuseRun).map fun s : Sys Unit =>
      ((s.proc slot1).state, (s.proc slot1).pid, getnice 3 s.proc, getnice 1 s.proc)) =
        some (.runnable, 3, 39, 0) ∧
    (niceOf reuseRun slot1).inherited = 0 ∧ (niceOf reuseRun slot1).set = none := by
  decide +kernel

end Sys

end Xv6.Ptable
