import Xv6.Scheduling
import Mathlib.Data.List.Nodup

/-!
# Processes from birth to reaping

`Change` says once what a step can do to the process table and its history : `fork` takes a
slot, `fork` works on its child, a process exits, `wait` reaps one, or every process goes on
(`step_change`). What is known about the history follows (`HistInv`) : a process exits once
and is reaped once, and afterwards no slot is it again (`Gone`).

`one_cpu` is the result about CPUs : whenever the lock is free a process is running exactly
when one CPU has it, and the stack and page directory that `wait` frees are those of a
process that no CPU has and none will ever have again.
-/

set_option linter.unusedSectionVars false

namespace Xv6.Ptable

open Function List Option

variable {np z : ProcId}

/-- The kernel stack or the page directory is freed. -/
def Proc.Frees (a b : Proc) : Prop :=
  a.kstack = true ∧ b.kstack = false ∨ a.pgdir = true ∧ b.pgdir = false

variable {a b : Proc}

theorem Proc.not_frees (h : b.kstack = a.kstack) (h' : b.pgdir = a.pgdir) :
    ¬a.Frees b := by
  rintro (⟨h1, h2⟩ | ⟨h1, h2⟩)
  · rw [h, h1] at h2
    cases h2
  · rw [h', h1] at h2
    cases h2

theorem wakeup1_parent (chan : Option Chan) (u : Table) (k : ProcId) :
    (wakeup1 chan u k).parent = (u k).parent := by
  unfold wakeup1
  split_ifs <;> rfl

theorem kill_parent (pid : Int32) (u : Table) (k : ProcId) :
    ((kill pid u).2 k).parent = (u k).parent := by
  unfold kill
  split
  · rfl
  · rename_i j _
    simp only
    refine update_cases k ?_ fun _ => rfl
    split_ifs <;> rfl

theorem setnice_parent (pid nice : Int32) (u : Table) (k : ProcId) :
    ((setnice pid nice u).2 k).parent = (u k).parent := by
  unfold setnice
  split_ifs
  · rfl
  · split
    · rfl
    · rename_i j _
      simp only
      exact update_cases k rfl fun _ => rfl

namespace Sys

variable {C : Type} [DecidableEq C] {s t : Sys C} {c : C} {p k : ProcId}

/-! ## What a step does -/

/-- `k` goes on. If it falls asleep in `wait`, then because it has no child to reap. -/
structure Keeps (s : Sys C) (k : ProcId) (b : Proc) : Prop where
  state : b.state = (s.proc k).state ∨ (s.proc k).state.alive = true ∧ b.state.alive = true
  parent : b.parent = (s.proc k).parent
  pid : b.pid = (s.proc k).pid
  kstack : b.kstack = (s.proc k).kstack
  pgdir : b.pgdir = (s.proc k).pgdir
  sleep : b.state = .sleeping → b.chan = some (.proc k) →
    (s.proc k).state = .sleeping ∧ (s.proc k).chan = some (.proc k) ∨
      ∀ z, (s.proc z).state = .zombie → (s.proc z).parent ≠ some k

theorem Keeps.refl (s : Sys C) (k : ProcId) : s.Keeps k (s.proc k) :=
  ⟨Or.inl rfl, rfl, rfl, rfl, rfl, fun h h' => Or.inl ⟨h, h'⟩⟩

/-- A process that runs goes on. -/
theorem Keeps.of_run (h : s.RunInv) (hc : (s.cpu c).ctl = .run p) (chan : Option Chan) :
    s.Keeps p { s.proc p with chan := chan } :=
  ⟨Or.inl rfl, rfl, rfl, rfl, rfl, fun hs => by rw [(h.run hc).2.1] at hs; cases hs⟩

theorem Keeps.of_woken (h : Woken (s.proc k) b) (hp : b.parent = (s.proc k).parent) :
    s.Keeps k b :=
  { h with
    state := by
      rcases h.state with hs | ⟨hs, hb⟩
      · exact Or.inl hs
      · exact Or.inr ⟨by rw [hs]; rfl, by rw [hb]; rfl⟩
    parent := hp
    sleep := fun hb hc => by
      rcases h.state with hs | ⟨-, hs⟩
      · exact Or.inl ⟨hs.symm.trans hb, h.chan.symm.trans hc⟩
      · rw [hs] at hb
        cases hb }

theorem Keeps.update (h : s.Keeps p b) (k : ProcId) :
    s.Keeps k (update s.proc p b k) :=
  update_cases k h fun _ => Keeps.refl s k

/-- Nobody is born, exits or is reaped. -/
structure SameHist (s t : Sys C) : Prop where
  nextBirth : t.nextBirth = s.nextBirth
  birth : t.birth = s.birth
  exits : t.exits = s.exits
  reaps : t.reaps = s.reaps

/-- What a step does to the table and the history. -/
inductive Change (s t : Sys C) : Prop where
  /-- Every process goes on. -/
  | quiet (hist : SameHist s t) (slot : ∀ k, s.Keeps k (t.proc k))
      (link : ∀ q, (t.pc q).links = (s.pc q).links)
  /-- `fork`, called by `p`, works on its child. -/
  | child (p np : ProcId) (hist : SameHist s t) (slot : ∀ k, k ≠ np → s.Keeps k (t.proc k))
      (run : (s.proc p).state = .running) (old : (s.proc np).state = .embryo)
      (new : (t.proc np).state = .embryo ∨ (t.proc np).state = .unused ∨
        (t.proc np).state = .runnable ∧ (s.pc p).links = some np)
      (parent : (t.proc np).parent = (s.proc np).parent ∨
        (t.proc np).parent = some p ∧ (t.proc np).state = .embryo)
      (frees : (t.proc np).state ≠ .unused → ¬(s.proc np).Frees (t.proc np))
      (link : ∀ q j, (t.pc q).links = some j →
        (s.pc q).links = some j ∧ j ≠ np ∨ j = np ∧ (t.proc np).parent = some q)
  /-- `fork` takes a slot. -/
  | alloc (np : ProcId) (slot : ∀ k, k ≠ np → s.Keeps k (t.proc k))
      (old : (s.proc np).state = .unused) (new : (t.proc np).state = .embryo)
      (parent : (t.proc np).parent = (s.proc np).parent)
      (frees : ¬(s.proc np).Frees (t.proc np)) (nextBirth : t.nextBirth = s.nextBirth + 1)
      (birth : t.birth = update s.birth np s.nextBirth) (exits : t.exits = s.exits)
      (reaps : t.reaps = s.reaps) (link : ∀ q, (t.pc q).links = (s.pc q).links)
  /-- `p` exits. -/
  | exit (p : ProcId) (table : t.proc = exitTable p s.proc) (run : (s.proc p).state = .running)
      (init : p ≠ initproc) (nextBirth : t.nextBirth = s.nextBirth) (birth : t.birth = s.birth)
      (exits : t.exits = s.exits ++ [(s.birth p, (s.proc p).pid)]) (reaps : t.reaps = s.reaps)
      (nolink : (s.pc p).links = none) (link : ∀ q, (t.pc q).links = (s.pc q).links)
  /-- `wait`, called by `p` on `c`, reaps `z`. -/
  | reap (c : C) (p z : ProcId) (slot : ∀ k, k ≠ z → s.Keeps k (t.proc k))
      (run : (s.cpu c).ctl = .run p) (lock : s.lock = none ∨ s.lock = some c)
      (old : (s.proc z).state = .zombie)
      (parent : (s.proc z).parent = some p) (new : t.proc z = freeSlot (s.proc z))
      (nextBirth : t.nextBirth = s.nextBirth) (birth : t.birth = s.birth)
      (exits : t.exits = s.exits)
      (reaps : t.reaps = s.reaps ++ [⟨s.birth z, p, z, (s.proc z).pid⟩])
      (link : ∀ q, (t.pc q).links = (s.pc q).links)

theorem links_update {w : ProcId → Pc} {pc : Pc} (h : pc.links = (w p).links) (q : ProcId) :
    (update w p pc q).links = (w q).links :=
  update_cases q h fun _ => rfl

/-- A process changes its own entry and its place. -/
theorem Change.own {x : Proc} {pc : Pc} {l : Option C} {cpu : C → Cpu} (hx : s.Keeps p x)
    (hpc : pc.links = (s.pc p).links) :
    Change s { s with proc := update s.proc p x, pc := update s.pc p pc, lock := l, cpu := cpu } :=
  .quiet ⟨rfl, rfl, rfl, rfl⟩ hx.update (links_update hpc)

/-- Two processes make different children. -/
theorem RunInv.other_child (h : s.RunInv) {q j : ProcId} (hp : (s.pc p).child = some np)
    (hj : (s.pc q).links = some j) (hq : q ≠ p) : j ≠ np := by
  rintro rfl
  exact hq (h.forkOne q p j (child_of_links hj) hp)

/-- `fork` works on its child without the lock. -/
theorem Change.forkMove {x : Proc} {v w : Work} (h : s.RunInv) (hc : (s.cpu c).ctl = .run p)
    (hv : s.pc p = .work v) (hp : v.child = some np) (hnew : x.state = .embryo ∨ x.state = .unused)
    (hpar : x.parent = (s.proc np).parent ∨ x.parent = some p ∧ x.state = .embryo)
    (hfrees : x.state ≠ .unused → ¬(s.proc np).Frees x)
    (hlink : ∀ j, (Pc.work w).links = some j → j = np ∧ x.parent = some p) :
    Change s ((s.setProc np x).setPc p (.work w)) := by
  have hch : (s.pc p).child = some np := by rw [hv]; exact hp
  have hemb := (h.child hch).1
  refine .child p np ⟨rfl, rfl, rfl, rfl⟩ (fun k hk => ?_) (h.run hc).2.1 hemb ?_ ?_ ?_ ?_
  · simp only [setProc, setPc, update_of_ne hk]
    exact Keeps.refl s k
  · simp only [setProc, setPc, update_self]
    exact hnew.imp id Or.inl
  · simpa only [setProc, setPc, update_self] using hpar
  · simpa only [setProc, setPc, update_self] using hfrees
  · simp only [setProc, setPc, update_self]
    exact fun q => update_cases q (fun j hj => Or.inr (hlink j hj)) fun hq j hj =>
      Or.inl ⟨hj, h.other_child hch hj hq⟩

/-- `fork` makes its child runnable. -/
theorem Change.forkRun (h : s.RunInv) (hc : (s.cpu c).ctl = .run p)
    (hpc : s.pc p = .work (.linking np)) :
    Change s (((s.setProc np { s.proc np with state := .runnable }).setPc p (.work .user)).setPc np
      .forkret) := by
  have hch : (s.pc p).child = some np := by rw [hpc]; rfl
  refine .child p np ⟨rfl, rfl, rfl, rfl⟩ (fun k hk => ?_) (h.run hc).2.1
    (h.child hch).1 ?_ ?_ ?_ ?_
  · simp only [setProc, setPc, update_of_ne hk]
    exact Keeps.refl s k
  · simp [setProc, setPc, hpc, Pc.links]
  · simp [setProc, setPc]
  · simp only [setProc, setPc, update_self]
    exact fun _ => Proc.not_frees rfl rfl
  · simp only [setProc, setPc]
    exact fun q => update_cases q (fun _ hj => by cases hj) fun _ =>
      update_cases q (fun _ hj => by cases hj) fun hq j hj =>
        Or.inl ⟨hj, h.other_child hch hj hq⟩

/-- What a step does to the table and the history. -/
theorem step_change (h : s.RunInv) {a : Act C} (ht : s.step a = some t) : Change s t := by
  have hquiet : ∀ {l : Option C} {cpu : C → Cpu}, Change s { s with lock := l, cpu := cpu } :=
    .quiet ⟨rfl, rfl, rfl, rfl⟩ (Keeps.refl s) fun _ => rfl
  have hwake : ∀ {u : Table}, (∀ k, Woken (s.proc k) (u k)) →
      (∀ k, (u k).parent = (s.proc k).parent) → Change s { s with proc := u } := fun hw hp =>
    .quiet ⟨rfl, rfl, rfl, rfl⟩ (fun k => Keeps.of_woken (hw k) (hp k)) fun _ => rfl
  cases step_does h ht with
  | seek => exact hquiet
  | swtch c p ctl old =>
    refine .quiet ⟨rfl, rfl, rfl, rfl⟩ (Keeps.update ?_) fun _ => rfl
    exact ⟨Or.inr ⟨by rw [old]; rfl, rfl⟩, rfl, rfl, rfl, rfl, by simp⟩
  | leave _ c p chan w _ run lock child links => exact Change.own (Keeps.of_run h run chan) links
  | sched _ c p st chan pc _ run lock alive ok child links sleep =>
    refine Change.own ⟨Or.inr ⟨by rw [(h.run run).2.1]; rfl, ?_⟩, rfl, rfl, rfl, rfl,
      fun hs hc => Or.inr (sleep hs hc)⟩ links
    rcases alive with rfl | ⟨rfl, -⟩ <;> rfl
  | exit c p run pc lock init =>
    have hlk : (s.pc p).links = none := by rw [pc]; rfl
    exact .exit p rfl (h.run run).2.1 init rfl rfl rfl rfl hlk
      (links_update (w := s.pc) (by rw [hlk]; rfl))
  | reap _ c p z chan _ run lock child ne old parent =>
    refine .reap c p z (fun k hk => ?_) run lock old parent ?_ rfl rfl rfl rfl ?_
    · simp only [setProc, Sys.leave, setPc, update_of_ne hk]
      exact (Keeps.of_run h run chan).update k
    · simp [setProc, Sys.leave, setPc]
    · exact links_update (w := s.pc) (by rw [links_of_child child]; rfl)
  | same => exact hquiet
  | alloc c p np u enter find =>
    obtain ⟨-, hpc, -⟩ := enter_eq_some.1 enter
    refine .alloc np (fun k hk => ?_) (allocproc_eq_some find).1 (by simp) (by simp) ?_ rfl rfl rfl
      rfl (links_update (w := s.pc) (by rw [hpc]; rfl))
    · simp only [update_of_ne hk]
      exact Keeps.refl s k
    · simp only [update_self]
      exact Proc.not_frees rfl rfl
  | child c p np v w k d par _ act run pc =>
    have hv : v.child = some np := by
      rcases act with ⟨-, rfl, -⟩ | ⟨-, rfl, -⟩ <;> rfl
    have hemb := (h.child (by rw [pc]; exact hv)).1
    refine Change.forkMove h run pc hv (Or.inl hemb) ?_ ?_ ?_
    · rcases act with ⟨-, -, -, -, rfl⟩ | ⟨-, -, -, -, rfl⟩
      · exact Or.inl rfl
      · exact Or.inr ⟨rfl, hemb⟩
    · -- a successful step allocates
      rcases act with ⟨-, -, -, ⟨rfl, rfl⟩, -⟩ | ⟨-, -, -, ⟨rfl, rfl⟩, -⟩
      · rintro - (⟨-, h₂⟩ | ⟨h₁, h₂⟩)
        · cases h₂
        · exact absurd (h₁.symm.trans h₂) (by decide)
      · rintro - (⟨h₁, h₂⟩ | ⟨-, h₂⟩)
        · exact absurd (h₁.symm.trans h₂) (by decide)
        · cases h₂
    · rcases act with ⟨-, -, rfl, -⟩ | ⟨-, -, rfl, -, rfl⟩
      · simp [Pc.links]
      · exact fun j hj => ⟨(some.inj hj).symm, rfl⟩
  | fail c p np v k _ act run pc =>
    have hv : v.child = some np := by
      rcases act with ⟨-, rfl⟩ | ⟨-, rfl⟩ <;> rfl
    exact Change.forkMove h run pc hv (Or.inr rfl) (Or.inl rfl) (by simp) (by simp [Pc.links])
  | run c p np run pc => exact Change.forkRun h run pc
  | wakeup => exact hwake (fun k => woken_wakeup1 ..) fun k => wakeup1_parent ..
  | kill => exact hwake (fun k => woken_kill ..) fun k => kill_parent ..
  | setnice => exact hwake (fun k => woken_setnice ..) fun k => setnice_parent ..

/-! ## The history -/

/-- Nobody is born and nobody exits in the slot. -/
structure Carries (a b : Proc) : Prop where
  used : b.state ≠ .unused → a.state ≠ .unused
  zombie : b.state = .zombie → a.state = .zombie ∧ b.pid = a.pid
  busy : b.state ≠ .unused → b.state ≠ .zombie → a.state ≠ .zombie

theorem Carries.of_state (h : b.state = a.state) (hp : b.pid = a.pid) :
    Carries a b :=
  ⟨fun hb => h ▸ hb, fun hz => ⟨h ▸ hz, hp⟩, fun _ hb => h ▸ hb⟩

theorem Carries.of_busy (ha : a.state ≠ .unused) (ha' : a.state ≠ .zombie)
    (hb : b.state ≠ .zombie) :
    Carries a b :=
  ⟨fun _ => ha, fun hz => absurd hz hb, fun _ _ => ha'⟩

theorem Carries.of_alive (ha : a.state.alive = true) (hb : b.state.alive = true) :
    Carries a b := by
  refine Carries.of_busy ?_ ?_ ?_
  · intro he
    rw [he] at ha
    cases ha
  · intro he
    rw [he] at ha
    cases ha
  · intro he
    rw [he] at hb
    cases hb

theorem Keeps.carries (h : s.Keeps k b) : Carries (s.proc k) b := by
  rcases h.state with hs | ⟨ha, hb⟩
  · exact Carries.of_state hs h.pid
  · exact Carries.of_alive ha hb

theorem carries_of_woken (h : Woken a b) : Carries a b := by
  rcases h.state with hs | ⟨ha, hb⟩
  · exact Carries.of_state hs h.pid
  · exact Carries.of_alive (by rw [ha]; rfl) (by rw [hb]; rfl)

/-- The process with this number is in no slot, and never will be. -/
def Gone (s : Sys C) (b : ℕ) : Prop :=
  b < s.nextBirth ∧ ∀ k, (s.proc k).state ≠ .unused → s.birth k ≠ b

/-- Births, exits and reaps agree. -/
structure HistInv (s : Sys C) : Prop where
  lt : ∀ k, (s.proc k).state ≠ .unused → s.birth k < s.nextBirth
  inj : ∀ j k, (s.proc j).state ≠ .unused → (s.proc k).state ≠ .unused →
    s.birth j = s.birth k → j = k
  gone : ∀ r ∈ s.reaps, s.Gone r.birth
  reapOnce : (s.reaps.map Reap.birth).Nodup
  exitLt : ∀ e ∈ s.exits, e.1 < s.nextBirth
  exitOnce : (s.exits.map Prod.fst).Nodup
  busy : ∀ k, (s.proc k).state ≠ .unused → (s.proc k).state ≠ .zombie →
    ∀ e ∈ s.exits, e.1 ≠ s.birth k
  zombie : ∀ k, (s.proc k).state = .zombie → (s.birth k, (s.proc k).pid) ∈ s.exits
  reaped : ∀ r ∈ s.reaps, (r.birth, r.pid) ∈ s.exits

/-- Every process in `t` was there in `s`, or got the next number. -/
structure Born (s t : Sys C) : Prop where
  next : s.nextBirth ≤ t.nextBirth
  slot : ∀ k, (t.proc k).state ≠ .unused →
    (s.proc k).state ≠ .unused ∧ t.birth k = s.birth k ∨ t.birth k = s.nextBirth

theorem Born.of_same (hn : t.nextBirth = s.nextBirth) (hb : t.birth = s.birth)
    (hc : ∀ k, (t.proc k).state ≠ .unused → (s.proc k).state ≠ .unused) : Born s t :=
  ⟨hn.ge, fun k hk => Or.inl ⟨hc k hk, by rw [hb]⟩⟩

theorem Born.of_alloc (hn : t.nextBirth = s.nextBirth + 1)
    (hb : t.birth = update s.birth np s.nextBirth)
    (hc : ∀ k, k ≠ np → (t.proc k).state ≠ .unused → (s.proc k).state ≠ .unused) : Born s t := by
  refine ⟨by omega, fun k hk => ?_⟩
  rw [hb]
  by_cases hkn : k = np
  · rw [hkn, update_self]
    exact Or.inr rfl
  · rw [update_of_ne hkn]
    exact Or.inl ⟨hc k hkn hk, rfl⟩

/-- A process that is gone stays so. -/
theorem Gone.step {b : ℕ} (h : s.Gone b) (ht : Born s t) : t.Gone b := by
  refine ⟨h.1.trans_le ht.next, fun k hk => ?_⟩
  rcases ht.slot k hk with ⟨hks, he⟩ | he
  · rw [he]
    exact h.2 k hks
  · rw [he]
    exact h.1.ne'

theorem Change.born (h : Change s t) : Born s t := by
  cases h with
  | quiet hist slot => exact .of_same hist.nextBirth hist.birth fun k => (slot k).carries.used
  | child p np hist slot run old new =>
    refine .of_same hist.nextBirth hist.birth fun k hk => ?_
    by_cases hkn : k = np
    · rw [hkn, old]
      decide
    · exact (slot k hkn).carries.used hk
  | alloc np slot old new parent frees nextBirth birth =>
    exact .of_alloc nextBirth birth fun k hk => (slot k hk).carries.used
  | exit p table run init nextBirth birth =>
    refine .of_same nextBirth birth fun k hk => ?_
    by_cases hkp : k = p
    · rw [hkp, run]
      decide
    · rw [table] at hk
      exact (carries_of_woken (woken_exitTable hkp s.proc)).used hk
  | reap c p z slot run lock old parent new nextBirth birth =>
    refine .of_same nextBirth birth fun k hk => ?_
    by_cases hkz : k = z
    · rw [hkz, old]
      decide
    · exact (slot k hkz).carries.used hk

/-- The process of a slot that is freed is gone. -/
theorem HistInv.gone_of_unused (h : s.HistInv) (ht : Born s t) (hz : (s.proc z).state ≠ .unused)
    (hnew : (t.proc z).state = .unused) :
    t.Gone (s.birth z) := by
  have hlt := h.lt z hz
  refine ⟨hlt.trans_le ht.next, fun k hk hkz => ?_⟩
  rcases ht.slot k hk with ⟨hks, he⟩ | he
  · obtain rfl := h.inj k z hks hz (he.symm.trans hkz)
    exact hk hnew
  · omega

/-- A step in which nobody is born, exits or is reaped. -/
theorem HistInv.quiet (h : s.HistInv) (hborn : Born s t) (hh : SameHist s t)
    (hc : ∀ k, Carries (s.proc k) (t.proc k)) : t.HistInv where
  lt k hk := by
    rw [hh.birth, hh.nextBirth]
    exact h.lt k ((hc k).used hk)
  inj j k hj hk he := by
    rw [hh.birth] at he
    exact h.inj j k ((hc j).used hj) ((hc k).used hk) he
  gone r hr := (h.gone r (hh.reaps ▸ hr)).step hborn
  reapOnce := hh.reaps ▸ h.reapOnce
  exitLt e he := hh.nextBirth ▸ h.exitLt e (hh.exits ▸ he)
  exitOnce := hh.exits ▸ h.exitOnce
  busy k hk hz e he := by
    rw [hh.birth]
    exact h.busy k ((hc k).used hk) ((hc k).busy hk hz) e (hh.exits ▸ he)
  zombie k hk := by
    obtain ⟨hz, hp⟩ := (hc k).zombie hk
    rw [hh.birth, hh.exits, hp]
    exact h.zombie k hz
  reaped r hr := hh.exits ▸ h.reaped r (hh.reaps ▸ hr)

/-- A process is born. -/
theorem HistInv.alloc (h : s.HistInv) (hborn : Born s t) (hnew : (t.proc np).state = .embryo)
    (hn : t.nextBirth = s.nextBirth + 1) (hb : t.birth = update s.birth np s.nextBirth)
    (he : t.exits = s.exits) (hr : t.reaps = s.reaps)
    (hc : ∀ k, k ≠ np → Carries (s.proc k) (t.proc k)) : t.HistInv := by
  have hself : t.birth np = s.nextBirth := by rw [hb, update_self]
  have hother : ∀ k, k ≠ np → t.birth k = s.birth k := fun k hk => by rw [hb, update_of_ne hk]
  constructor
  · intro k hk
    by_cases hkn : k = np
    · rw [hkn, hself, hn]
      exact Nat.lt_succ_self _
    · rw [hother k hkn, hn]
      exact (h.lt k ((hc k hkn).used hk)).trans (Nat.lt_succ_self _)
  · intro j k hj hk hjk
    by_cases hjn : j = np <;> by_cases hkn : k = np
    · rw [hjn, hkn]
    · have := h.lt k ((hc k hkn).used hk)
      rw [hjn, hself, hother k hkn] at hjk
      omega
    · have := h.lt j ((hc j hjn).used hj)
      rw [hkn, hself, hother j hjn] at hjk
      omega
    · rw [hother j hjn, hother k hkn] at hjk
      exact h.inj j k ((hc j hjn).used hj) ((hc k hkn).used hk) hjk
  · exact fun r hr' => (h.gone r (hr ▸ hr')).step hborn
  · exact hr ▸ h.reapOnce
  · intro e he'
    rw [hn]
    exact (h.exitLt e (he ▸ he')).trans (Nat.lt_succ_self _)
  · exact he ▸ h.exitOnce
  · intro k hk hz e he'
    rw [he] at he'
    by_cases hkn : k = np
    · rw [hkn, hself]
      exact (h.exitLt e he').ne
    · rw [hother k hkn]
      exact h.busy k ((hc k hkn).used hk) ((hc k hkn).busy hk hz) e he'
  · intro k hk
    by_cases hkn : k = np
    · rw [hkn, hnew] at hk
      cases hk
    · obtain ⟨hz, hp⟩ := (hc k hkn).zombie hk
      rw [hother k hkn, he, hp]
      exact h.zombie k hz
  · exact fun r hr' => he ▸ h.reaped r (hr ▸ hr')

/-- A process exits. -/
theorem HistInv.exit (h : s.HistInv) (hborn : Born s t) (hrun : (s.proc p).state = .running)
    (hnew : (t.proc p).state = .zombie) (hpid : (t.proc p).pid = (s.proc p).pid)
    (hn : t.nextBirth = s.nextBirth) (hb : t.birth = s.birth)
    (he : t.exits = s.exits ++ [(s.birth p, (s.proc p).pid)]) (hr : t.reaps = s.reaps)
    (hc : ∀ k, k ≠ p → Carries (s.proc k) (t.proc k)) : t.HistInv := by
  have hup : (s.proc p).state ≠ .unused := by rw [hrun]; decide
  have hused : ∀ k, (t.proc k).state ≠ .unused → (s.proc k).state ≠ .unused := fun k hk => by
    by_cases hkp : k = p
    · exact hkp ▸ hup
    · exact (hc k hkp).used hk
  have hfresh := h.busy p hup (by rw [hrun]; decide)
  constructor
  · intro k hk
    rw [hb, hn]
    exact h.lt k (hused k hk)
  · intro j k hj hk hjk
    rw [hb] at hjk
    exact h.inj j k (hused j hj) (hused k hk) hjk
  · exact fun r hr' => (h.gone r (hr ▸ hr')).step hborn
  · exact hr ▸ h.reapOnce
  · intro e he'
    rw [he, mem_append, mem_singleton] at he'
    rw [hn]
    rcases he' with he' | rfl
    · exact h.exitLt e he'
    · exact h.lt p hup
  · rw [he, map_append]
    refine h.exitOnce.append (nodup_singleton _) fun b hb' hb'' => ?_
    obtain ⟨e, he', rfl⟩ := mem_map.1 hb'
    exact hfresh e he' (mem_singleton.1 hb'')
  · intro k hk hz e he'
    have hkp : k ≠ p := by
      rintro rfl
      exact hz hnew
    rw [he, mem_append, mem_singleton] at he'
    rw [hb]
    rcases he' with he' | rfl
    · exact h.busy k (hused k hk) ((hc k hkp).busy hk hz) e he'
    · exact fun hpk => hkp (h.inj p k hup (hused k hk) hpk).symm
  · intro k hk
    rw [hb, he, mem_append]
    by_cases hkp : k = p
    · rw [hkp, hpid]
      exact Or.inr (mem_singleton.2 rfl)
    · obtain ⟨hz, hp⟩ := (hc k hkp).zombie hk
      rw [hp]
      exact Or.inl (h.zombie k hz)
  · intro r hr'
    rw [he, mem_append]
    exact Or.inl (h.reaped r (hr ▸ hr'))

/-- `wait` reaps a process. -/
theorem HistInv.reap (h : s.HistInv) (hborn : Born s t) (hz : (s.proc z).state = .zombie)
    (hnew : (t.proc z).state = .unused) (hn : t.nextBirth = s.nextBirth) (hb : t.birth = s.birth)
    (he : t.exits = s.exits) (hr : t.reaps = s.reaps ++ [⟨s.birth z, p, z, (s.proc z).pid⟩])
    (hc : ∀ k, k ≠ z → Carries (s.proc k) (t.proc k)) : t.HistInv := by
  have huz : (s.proc z).state ≠ .unused := by rw [hz]; decide
  have hne : ∀ k, (t.proc k).state ≠ .unused → k ≠ z := by
    rintro k hk rfl
    exact hk hnew
  have hused : ∀ k, (t.proc k).state ≠ .unused → (s.proc k).state ≠ .unused := fun k hk =>
    (hc k (hne k hk)).used hk
  constructor
  · intro k hk
    rw [hb, hn]
    exact h.lt k (hused k hk)
  · intro j k hj hk hjk
    rw [hb] at hjk
    exact h.inj j k (hused j hj) (hused k hk) hjk
  · intro r hr'
    rw [hr, mem_append, mem_singleton] at hr'
    rcases hr' with hr' | rfl
    · exact (h.gone r hr').step hborn
    · exact h.gone_of_unused hborn huz hnew
  · rw [hr, map_append]
    refine h.reapOnce.append (nodup_singleton _) fun b hb' hb'' => ?_
    obtain ⟨r, hr', rfl⟩ := mem_map.1 hb'
    exact (h.gone r hr').2 z huz (mem_singleton.1 hb'').symm
  · exact fun e he' => hn ▸ h.exitLt e (he ▸ he')
  · exact he ▸ h.exitOnce
  · intro k hk hkz e he'
    rw [hb]
    exact h.busy k (hused k hk) ((hc k (hne k hk)).busy hk hkz) e (he ▸ he')
  · intro k hk
    obtain ⟨hkz, hp⟩ := (hc k (hne k (by rw [hk]; decide))).zombie hk
    rw [hb, he, hp]
    exact h.zombie k hkz
  · intro r hr'
    rw [hr, mem_append, mem_singleton] at hr'
    rw [he]
    rcases hr' with hr' | rfl
    · exact h.reaped r hr'
    · exact h.zombie z hz

theorem exitTable_keeps (p : ProcId) (u : Table) (k : ProcId) :
    (exitTable p u k).pid = (u k).pid ∧ (exitTable p u k).kstack = (u k).kstack ∧
      (exitTable p u k).pgdir = (u k).pgdir := by
  by_cases hk : k = p
  · subst hk
    have h := (woken_wakeup1 ((u k).parent.map .proc) u k).trans
      (woken_foldl_adopt k (List.finRange _) _ k)
    unfold exitTable
    simp only [update_self]
    exact ⟨h.pid, h.kstack, h.pgdir⟩
  · have h := woken_exitTable hk u
    exact ⟨h.pid, h.kstack, h.pgdir⟩

/-- A child of `fork` is neither new nor done. -/
theorem carries_child (hslot : ∀ k, k ≠ np → s.Keeps k (t.proc k))
    (hold : (s.proc np).state = .embryo) (hnew : (t.proc np).state ≠ .zombie) (k : ProcId) :
    Carries (s.proc k) (t.proc k) := by
  by_cases hk : k = np
  · subst hk
    exact Carries.of_busy (by rw [hold]; decide) (by rw [hold]; decide) hnew
  · exact (hslot k hk).carries

theorem HistInv.step (h : s.HistInv) (ht : Change s t) : t.HistInv := by
  have hborn := ht.born
  cases ht with
  | quiet hist slot => exact h.quiet hborn hist fun k => (slot k).carries
  | child p np hist slot run old new =>
    refine h.quiet hborn hist (carries_child slot old ?_)
    rcases new with hn | hn | ⟨hn, -⟩ <;> rw [hn] <;> decide
  | alloc np slot old new parent frees nextBirth birth exits reaps =>
    exact h.alloc hborn new nextBirth birth exits reaps fun k hk => (slot k hk).carries
  | exit p table run init nextBirth birth exits reaps =>
    refine h.exit hborn run ?_ ?_ nextBirth birth exits reaps fun k hk => ?_
    · rw [table]
      exact exitTable_self p s.proc
    · rw [table]
      exact (exitTable_keeps p s.proc p).1
    · rw [table]
      exact carries_of_woken (woken_exitTable hk s.proc)
  | reap c p z slot run lock old parent new nextBirth birth exits reaps =>
    exact h.reap hborn old (by rw [new]; rfl) nextBirth birth exits reaps fun k hk =>
      (slot k hk).carries

theorem histInv_boot : (boot : Sys C).HistInv where
  lt k _ := Nat.zero_lt_one
  inj j k hj hk _ := by
    have hinit : ∀ k, ((boot : Sys C).proc k).state ≠ .unused → k = initproc := fun k hk => by
      by_contra hne
      exact hk (by simp [boot, update_of_ne hne])
    rw [hinit j hj, hinit k hk]
  gone r hr := by simp [boot] at hr
  reapOnce := nodup_nil
  exitLt e he := by simp [boot] at he
  exitOnce := nodup_nil
  busy k _ _ e he := by simp [boot] at he
  zombie k hk := by
    by_cases hki : k = initproc
    · simp [boot, hki] at hk
    · simp [boot, update_of_ne hki] at hk
  reaped r hr := by simp [boot] at hr

/-- Who is freed had exited or not been started. -/
theorem Change.frees (h : Change s t) (hf : (s.proc z).Frees (t.proc z)) :
    ((s.proc z).state = .zombie ∨ (s.proc z).state = .embryo) ∧ (t.proc z).state = .unused := by
  have hkeep : ∀ {k}, s.Keeps k (t.proc k) → ¬(s.proc k).Frees (t.proc k) := fun hk =>
    Proc.not_frees hk.kstack hk.pgdir
  cases h with
  | quiet hist slot => exact absurd hf (hkeep (slot z))
  | child p np hist slot run old new parent frees =>
    by_cases hz : z = np
    · subst hz
      refine ⟨Or.inr old, ?_⟩
      by_contra hu
      exact frees hu hf
    · exact absurd hf (hkeep (slot z hz))
  | alloc np slot old new parent frees =>
    by_cases hz : z = np
    · subst hz
      exact absurd hf frees
    · exact absurd hf (hkeep (slot z hz))
  | exit p table =>
    have hk := exitTable_keeps p s.proc z
    rw [← table] at hk
    exact absurd hf (Proc.not_frees hk.2.1 hk.2.2)
  | reap c p y slot run lock old parent new =>
    by_cases hz : z = y
    · subst hz
      exact ⟨Or.inl old, by rw [new]; rfl⟩
    · exact absurd hf (hkeep (slot z hz))

/-! ## The result -/

/-- What is known after every step. -/
structure Inv (s : Sys C) : Prop where
  run : s.RunInv
  hist : s.HistInv

theorem Inv.step (h : s.Inv) {a : Act C} (ht : s.step a = some t) : t.Inv :=
  ⟨h.run.step ht, h.hist.step (step_change h.run ht)⟩

/-- Every state that is reached satisfies the invariant. -/
theorem inv_run {acts : List (Act C)} (h : exec step boot acts = some s) : s.Inv :=
  exec_invariant_all Inv (fun _ _ _ hs ht => hs.step ht) ⟨runInv_boot, histInv_boot⟩ h

/-- A process that is gone stays so in every run. -/
theorem Gone.run {b : ℕ} (h : s.Gone b) (hs : s.RunInv) {acts : List (Act C)}
    (ht : exec Sys.step s acts = some t) : t.Gone b := by
  refine (exec_invariant_all (fun s : Sys C => s.RunInv ∧ s.Gone b) ?_ ⟨hs, h⟩ ht).2
  rintro s a t ⟨hs, hg⟩ ht
  exact ⟨hs.step ht, hg.step (step_change hs ht).born⟩

/-- A CPU has only processes that have been started. -/
theorem RunInv.cpu_proc (h : s.RunInv) (hc : (s.cpu c).proc = some k) :
    (s.proc k).state ≠ .unused ∧ (s.proc k).state ≠ .embryo ∧
      ((s.cpu c).ctl = .run k ∨ s.lock = some c) := by
  have hck := h.cpu c
  cases hctl : (s.cpu c).ctl with
  | idle | scan i =>
    simp only [CpuOk, hctl] at hck
    rw [hck.1] at hc
    cases hc
  | picked j =>
    simp only [CpuOk, hctl] at hck
    obtain rfl : j = k := some.inj (hck.1.symm.trans hc)
    rw [hck.2.2]
    exact ⟨by decide, by decide, Or.inr hck.2.1⟩
  | run j =>
    simp only [CpuOk, hctl] at hck
    obtain rfl : j = k := some.inj (hck.1.symm.trans hc)
    rw [hck.2.1]
    exact ⟨by decide, by decide, Or.inl rfl⟩
  | back j =>
    simp only [CpuOk, hctl] at hck
    obtain rfl : j = k := some.inj (hck.1.symm.trans hc)
    refine ⟨?_, ?_, Or.inr hck.2.1⟩
    · intro he
      rw [he] at hck
      cases hck.2.2
    · intro he
      rw [he] at hck
      cases hck.2.2

/-- No CPU has a process whose stack or page directory a step frees. -/
theorem RunInv.not_cpu_of_frees (h : s.RunInv) (ht : Change s t) (hf : (s.proc z).Frees (t.proc z))
    (c : C) : (s.cpu c).proc ≠ some z := by
  intro hc
  obtain ⟨-, hne, hrun⟩ := h.cpu_proc hc
  have hz : (s.proc z).state = .zombie := (ht.frees hf).1.resolve_right hne
  have hctl : (s.cpu c).ctl ≠ .run z := fun hctl => by
    have := (h.run hctl).2.1
    rw [hz] at this
    cases this
  have hlock := hrun.resolve_left hctl
  have hkeep : s.Keeps z (t.proc z) → False := fun hk => Proc.not_frees hk.kstack hk.pgdir hf
  cases ht with
  | quiet hist slot => exact hkeep (slot z)
  | child p np hist slot run old =>
    refine hkeep (slot z ?_)
    rintro rfl
    exact hne old
  | alloc np slot old =>
    refine hkeep (slot z ?_)
    rintro rfl
    rw [hz] at old
    cases old
  | exit p table =>
    have hk := exitTable_keeps p s.proc z
    rw [← table] at hk
    exact Proc.not_frees hk.2.1 hk.2.2 hf
  | reap c' p y slot run lock =>
    -- the lock is free or with the CPU of `wait`, so `c` would be that CPU
    rw [hlock] at lock
    obtain rfl : c = c' := some.inj (lock.resolve_left (by simp))
    obtain rfl : p = z := some.inj ((h.run run).1.symm.trans hc)
    exact hctl run

/-- Whenever the lock is free, a process is running exactly when one CPU has it, and a CPU
has a running process or none. The process whose kernel stack or page directory a step frees
is on no CPU, and in no later state does a CPU have it. -/
theorem one_cpu {acts : List (Act C)} (h : exec step boot acts = some s) :
    (s.lock = none →
      (∀ k, (s.proc k).state = .running ↔ ∃! c, (s.cpu c).proc = some k) ∧
      ∀ c k, (s.cpu c).proc = some k → (s.proc k).state = .running) ∧
    ∀ a t z, s.step a = some t → (s.proc z).Frees (t.proc z) →
      (∀ c, (s.cpu c).proc ≠ some z) ∧
      ∀ more u, exec step t more = some u →
        ∀ c k, (u.cpu c).proc = some k → u.birth k ≠ s.birth z := by
  obtain ⟨hrun, hhist⟩ := inv_run h
  refine ⟨fun hl => ?_, fun a t z ht hf => ?_⟩
  · have hctl : ∀ c k, (s.cpu c).proc = some k → (s.cpu c).ctl = .run k := fun c k hc =>
      (hrun.cpu_proc hc).2.2.resolve_right (by simp [hl])
    have hst : ∀ c k, (s.cpu c).proc = some k → (s.proc k).state = .running := fun c k hc =>
      (hrun.run (hctl c k hc)).2.1
    refine ⟨fun k => ⟨fun hk => ?_, fun ⟨c, hc, _⟩ => hst c k hc⟩, hst⟩
    obtain ⟨c, hc⟩ := hrun.running k hk
    exact ⟨c, (hrun.run hc).1, fun c' hc' => hrun.unique c' c k (hctl c' k hc') hc⟩
  · have hch := step_change hrun ht
    refine ⟨hrun.not_cpu_of_frees hch hf, fun more u hu c k hc => ?_⟩
    have hz : (s.proc z).state ≠ .unused := by
      rcases (hch.frees hf).1 with he | he <;> rw [he] <;> decide
    have ht' := hrun.step ht
    have hgone := (hhist.gone_of_unused hch.born hz (hch.frees hf).2).run ht' hu
    have hu' := exec_invariant_all RunInv (fun _ _ _ hs hst => hs.step hst) ht' hu
    exact hgone.2 k (hu'.cpu_proc hc).1

/-- `init` forks, waits, the child exits, and `init` reaps it, on one CPU. -/
def reapRun : List (Act Unit) :=
  List.replicate 3 (.scheduler ()) ++ [.resume (), .forkAlloc (), .forkStack () true,
    .forkCopy () true, .forkRun (), .wait ()] ++ List.replicate 3 (.scheduler ()) ++
    [.resume (), .exit ()] ++ List.replicate 67 (.scheduler ())

theorem one_cpu_reap : ∃ s t : Sys Unit, exec step boot reapRun = some s ∧
    s.step (.resume ()) = some t ∧ (s.proc ⟨1, by decide⟩).Frees (t.proc ⟨1, by decide⟩) ∧
    (s.cpu ()).proc ≠ some ⟨1, by decide⟩ := by
  have h : ((exec step boot reapRun).bind fun s => (s.step (.resume ())).map fun t =>
      ((s.proc ⟨1, by decide⟩).kstack, (t.proc ⟨1, by decide⟩).kstack)) = some (true, false) := by
    decide +kernel
  obtain ⟨s, hs, h⟩ := bind_eq_some_iff.1 h
  obtain ⟨t, ht, he⟩ := map_eq_some_iff.1 h
  have hf : (s.proc ⟨1, by decide⟩).Frees (t.proc ⟨1, by decide⟩) := Or.inl (Prod.mk.inj he)
  exact ⟨s, t, hs, ht, hf, ((one_cpu hs).2 _ t _ ht hf).1 ()⟩

end Sys

end Xv6.Ptable
