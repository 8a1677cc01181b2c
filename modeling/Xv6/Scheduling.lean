import Xv6.ProcTable
import Mathlib.Tactic.Common

/-!
# A process runs on at most one CPU

`RunInv` says where every CPU and every thread of a process is, at every point of
`scheduler`, `sched`, `yield`, `sleep`, `exit`, `wait` and `fork`, with the lock held or
free. `Does` says once what a step can do (`step_does`), and every invariant of the machine is
proved from that.

Here this is `RunInv` (`RunInv.step`). A step wakes sleeping processes (`RunInv.wake`), it is one
in which a process gets a CPU, goes on or gives it up (`RunInv.cpuStep`), it is a step of `fork`
(`RunInv.forkStep`) or a step of `scheduler` that changes no process (`RunInv.setCpu`).
-/

set_option linter.unusedSectionVars false

namespace Xv6.Ptable

open Function Option

/-! ## What the sections do to one slot -/

variable {a b x : Proc} {pc : Pc} {u : Table}

/-- The slot keeps its state, or it slept and was made runnable. -/
structure Woken (a b : Proc) : Prop where
  state : b.state = a.state ∨ a.state = .sleeping ∧ b.state = .runnable
  chan : b.chan = a.chan
  pid : b.pid = a.pid
  kstack : b.kstack = a.kstack
  pgdir : b.pgdir = a.pgdir

theorem Woken.refl (a : Proc) : Woken a a := ⟨Or.inl rfl, rfl, rfl, rfl, rfl⟩

theorem Woken.trans {c : Proc} (h : Woken a b) (h' : Woken b c) : Woken a c := by
  refine ⟨?_, h'.chan.trans h.chan, h'.pid.trans h.pid, h'.kstack.trans h.kstack,
    h'.pgdir.trans h.pgdir⟩
  rcases h.state with h1 | ⟨h1, h2⟩ <;> rcases h'.state with h3 | ⟨h3, h4⟩
  · exact Or.inl (h3.trans h1)
  · exact Or.inr ⟨h1 ▸ h3, h4⟩
  · exact Or.inr ⟨h1, h3.trans h2⟩
  · exact absurd (h2.symm.trans h3) (by decide)

theorem Woken.running_iff (h : Woken a b) :
    b.state = .running ↔ a.state = .running := by
  rcases h.state with hs | ⟨hs, hb⟩
  · rw [hs]
  · rw [hs, hb]
    decide

theorem Woken.embryo_iff (h : Woken a b) : b.state = .embryo ↔ a.state = .embryo := by
  rcases h.state with hs | ⟨hs, hb⟩
  · rw [hs]
  · rw [hs, hb]
    decide

theorem Woken.runnable (h : Woken a b) (ha : a.state = .runnable) :
    b.state = .runnable := by
  rcases h.state with hs | ⟨hs, hb⟩
  · rw [hs, ha]
  · exact hb

theorem Woken.ready (h : Woken a b) (ha : a.state.ready = true) :
    b.state.ready = true := by
  rcases h.state with hs | ⟨hs, hb⟩
  · rw [hs, ha]
  · rw [hb]
    rfl

theorem Woken.parked (h : Woken a b) (ha : a.state.parked = true) :
    b.state.parked = true := by
  rcases h.state with hs | ⟨hs, hb⟩
  · rw [hs, ha]
  · rw [hb]
    rfl

/-- `wakeup1` only wakes up. -/
theorem woken_wakeup1 (chan : Option Chan) (t : Table) (k : ProcId) :
    Woken (t k) (wakeup1 chan t k) := by
  unfold wakeup1
  split_ifs with h
  · exact ⟨Or.inr ⟨h.1, rfl⟩, rfl, rfl, rfl, rfl⟩
  · exact Woken.refl _

theorem woken_adopt (p : ProcId) (t : Table) (j k : ProcId) : Woken (t k) (adopt p t j k) := by
  unfold adopt
  have hset : Woken (t k) (update t j { t j with parent := some initproc } k) :=
    update_cases k ⟨Or.inl rfl, rfl, rfl, rfl, rfl⟩ fun _ => Woken.refl _
  split_ifs
  · simp only
    split_ifs
    · exact hset.trans (woken_wakeup1 ..)
    · exact hset
  · exact Woken.refl _

theorem woken_foldl_adopt (p : ProcId) : ∀ (js : List ProcId) (t : Table) (k : ProcId),
    Woken (t k) (js.foldl (adopt p) t k)
  | [], _, _ => Woken.refl _
  | j :: js, t, k => (woken_adopt p t j k).trans (woken_foldl_adopt p js (adopt p t j) k)

/-- At an `exit` the others are only woken up. -/
theorem woken_exitTable {p k : ProcId} (hk : k ≠ p) (t : Table) :
    Woken (t k) (exitTable p t k) := by
  unfold exitTable
  simp only
  rw [update_of_ne hk]
  exact (woken_wakeup1 ..).trans (woken_foldl_adopt p _ _ k)

theorem exitTable_self (p : ProcId) (t : Table) : (exitTable p t p).state = .zombie := by
  unfold exitTable
  simp

/-- `kill` only wakes up. -/
theorem woken_kill (pid : Int32) (t : Table) (k : ProcId) : Woken (t k) ((kill pid t).2 k) := by
  unfold kill
  split
  · exact Woken.refl _
  · rename_i j _
    simp only
    refine update_cases k ?_ fun _ => Woken.refl _
    split_ifs with hs
    · exact ⟨Or.inr ⟨hs, rfl⟩, rfl, rfl, rfl, rfl⟩
    · exact ⟨Or.inl rfl, rfl, rfl, rfl, rfl⟩

/-- `setnice` changes no state. -/
theorem woken_setnice (pid nice : Int32) (t : Table) (k : ProcId) :
    Woken (t k) ((setnice pid nice t).2 k) := by
  unfold setnice
  split_ifs
  · exact Woken.refl _
  · split
    · exact Woken.refl _
    · rename_i j _
      simp only
      exact update_cases k ⟨Or.inl rfl, rfl, rfl, rfl, rfl⟩ fun _ => Woken.refl _

/-! ## Where CPUs and threads are -/

namespace Sys

variable {C : Type} [DecidableEq C] {s t : Sys C} {c : C} {p np : ProcId}

/-- What is known about a CPU. -/
def CpuOk (s : Sys C) (c : C) : Prop :=
  match (s.cpu c).ctl with
  | .idle => (s.cpu c).proc = none ∧ s.lock ≠ some c
  | .scan _ => (s.cpu c).proc = none ∧ s.lock = some c
  | .picked k => (s.cpu c).proc = some k ∧ s.lock = some c ∧ (s.proc k).state = .runnable
  | .run k => (s.cpu c).proc = some k ∧ (s.proc k).state = .running ∧ s.pc k ≠ .dead ∧
      ((s.pc k).resuming = true ↔ s.lock = some c)
  | .back k => (s.cpu c).proc = some k ∧ s.lock = some c ∧ (s.proc k).state.parked = true

/-- What is known about the thread of a process that does not run. -/
def PcOk (p : Proc) (pc : Pc) (k : ProcId) : Prop :=
  match p.state with
  | .sleeping => pc = .slept ∧ (∃ n, p.chan = some (.other n)) ∨
      pc = .waiting ∧ p.chan = some (.proc k)
  | .runnable => pc.resuming = true
  | .zombie => pc = .dead
  | _ => True

/-- Where every CPU and every thread is. -/
structure RunInv (s : Sys C) : Prop where
  cpu : ∀ c, s.CpuOk c
  unique : ∀ c c' k, (s.cpu c).ctl = .run k → (s.cpu c').ctl = .run k → c = c'
  running : ∀ k, (s.proc k).state = .running → ∃ c, (s.cpu c).ctl = .run k
  pc : ∀ k, PcOk (s.proc k) (s.pc k) k
  fork : ∀ p np, (s.pc p).child = some np →
    (s.proc p).state.ready = true ∧ (s.proc np).state = .embryo
  forkOne : ∀ p q np, (s.pc p).child = some np → (s.pc q).child = some np → p = q

theorem enter_eq_some :
    s.enter c = some p ↔ (s.cpu c).ctl = .run p ∧ s.pc p = .work .user ∧ s.lock = none := by
  unfold enter
  grind

theorem running_eq_some : s.running c = some p ↔ (s.cpu c).ctl = .run p := by
  unfold running
  grind

/-- What is known about a CPU on which a process runs. -/
theorem RunInv.run (h : s.RunInv) (hc : (s.cpu c).ctl = .run p) :
    (s.cpu c).proc = some p ∧ (s.proc p).state = .running ∧ s.pc p ≠ .dead ∧
      ((s.pc p).resuming = true ↔ s.lock = some c) := by
  have := h.cpu c
  unfold CpuOk at this
  rwa [hc] at this

theorem PcOk.wake {k : ProcId} (h : PcOk a pc k) (hw : Woken a b) :
    PcOk b pc k := by
  unfold PcOk at h ⊢
  rcases hw.state with hs | ⟨hs, hb⟩
  · rw [hs, hw.chan]
    exact h
  · rw [hs] at h
    rw [hb]
    rcases h with ⟨rfl, -⟩ | ⟨rfl, -⟩ <;> rfl

/-- A step that wakes sleeping processes. -/
theorem RunInv.wake (h : s.RunInv) (hw : ∀ k, Woken (s.proc k) (u k)) :
    { s with proc := u }.RunInv :=
  { h with
    cpu := fun c => by
      have hck := h.cpu c
      cases hc : (s.cpu c).ctl with
      | idle | scan i => simpa only [CpuOk, hc] using hck
      | picked k =>
        simp only [CpuOk, hc] at hck ⊢
        exact ⟨hck.1, hck.2.1, (hw k).runnable hck.2.2⟩
      | run k =>
        simp only [CpuOk, hc] at hck ⊢
        exact ⟨hck.1, (hw k).running_iff.2 hck.2.1, hck.2.2⟩
      | back k =>
        simp only [CpuOk, hc] at hck ⊢
        exact ⟨hck.1, hck.2.1, (hw k).parked hck.2.2⟩
    running := fun k hk => h.running k ((hw k).running_iff.1 hk)
    pc := fun k => (h.pc k).wake (hw k)
    fork := fun p np hp => by
      obtain ⟨h1, h2⟩ := h.fork p np hp
      exact ⟨(hw p).ready h1, (hw np).embryo_iff.2 h2⟩ }

/-- What a step may do to a process that does not take it. -/
structure Rests (a b : Proc) : Prop where
  running : b.state = .running ↔ a.state = .running
  embryo : a.state = .embryo → b.state = .embryo
  ready : a.state.ready = true → b.state.ready = true
  pc : ∀ {pc k}, PcOk a pc k → PcOk b pc k

theorem rests_of_woken (h : Woken a b) : Rests a b :=
  ⟨h.running_iff, h.embryo_iff.2, h.ready, fun hpc => hpc.wake h⟩

/-- `wait` frees a slot. -/
theorem rests_freeSlot (h : a.state = .zombie) : Rests a (freeSlot a) where
  running := by
    rw [h]
    simp [freeSlot]
  embryo he := by
    rw [h] at he
    cases he
  ready he := by
    rw [h] at he
    cases he
  pc _ := trivial

theorem rests_update {k j : ProcId} (hj : j ≠ k) :
    Rests (u j) (update u k x j) := by
  rw [update_of_ne hj]
  exact rests_of_woken (Woken.refl _)

/-- A step of `c`, at which no other CPU has the lock, in which `p` gets the CPU, goes on or gives
it up. -/
theorem RunInv.cpuStep (h : s.RunInv) (hl : s.lock = none ∨ s.lock = some c)
    (hl' : t.lock = none ∨ t.lock = some c) (hcpu : ∀ c', c' ≠ c → t.cpu c' = s.cpu c')
    (hpc : ∀ k, k ≠ p → t.pc k = s.pc k) (hw : ∀ k, k ≠ p → Rests (s.proc k) (t.proc k))
    (hs : ∀ c' k, (s.cpu c').ctl = .run k → (c' = c ↔ k = p)) (hemb : (s.proc p).state ≠ .embryo)
    (hc : t.CpuOk c) (ht : ∀ k, (t.cpu c).ctl = .run k ↔ k = p ∧ (t.proc p).state = .running)
    (hp : PcOk (t.proc p) (t.pc p) p) (hch : ∀ np, (t.pc p).child = some np →
      (s.pc p).child = some np ∧ (t.proc p).state.ready = true) : t.RunInv := by
  have hlock : ∀ {l : Option C} c', c' ≠ c → l = none ∨ l = some c → l ≠ some c' := by
    rintro l c' hne (rfl | rfl) he
    · cases he
    · exact hne (some.inj he).symm
  have hrun : ∀ c' k, (t.cpu c').ctl = .run k →
      c' = c ∧ k = p ∨ c' ≠ c ∧ k ≠ p ∧ (s.cpu c').ctl = .run k := by
    intro c' k hk
    by_cases hcc : c' = c
    · subst hcc
      exact Or.inl ⟨rfl, ((ht k).1 hk).1⟩
    · rw [hcpu c' hcc] at hk
      exact Or.inr ⟨hcc, fun hkp => hcc ((hs c' k hk).2 hkp), hk⟩
  have hchild : ∀ q np, (t.pc q).child = some np → (s.pc q).child = some np := by
    intro q np hq
    by_cases hqp : q = p
    · subst hqp
      exact (hch np hq).1
    · rwa [hpc q hqp] at hq
  refine ⟨fun c' => ?_, fun c₁ c₂ k h₁ h₂ => ?_, fun k hk => ?_, fun k => ?_, fun q np hq => ?_,
    fun q r np hq hr => h.forkOne q r np (hchild q np hq) (hchild r np hr)⟩
  · by_cases hcc : c' = c
    · exact hcc ▸ hc
    -- without the lock the other CPU is idle or in a process
    have hck := h.cpu c'
    have hno := hlock c' hcc hl
    have hno' := hlock c' hcc hl'
    unfold CpuOk at hck ⊢
    rw [hcpu c' hcc]
    cases hk : (s.cpu c').ctl with
    | idle =>
      rw [hk] at hck
      exact ⟨hck.1, hno'⟩
    | scan i =>
      rw [hk] at hck
      exact absurd hck.2 hno
    | picked k | back k =>
      rw [hk] at hck
      exact absurd hck.2.1 hno
    | run k =>
      rw [hk] at hck
      have hkp : k ≠ p := fun hkp => hcc ((hs c' k hk).2 hkp)
      simp only [hpc k hkp]
      refine ⟨hck.1, (hw k hkp).running.2 hck.2.1, hck.2.2.1, ?_⟩
      rw [hck.2.2.2]
      exact ⟨fun he => absurd he hno, fun he => absurd he hno'⟩
  · rcases hrun c₁ k h₁ with ⟨h₁, hk₁⟩ | ⟨-, hk₁, h₁⟩ <;>
      rcases hrun c₂ k h₂ with ⟨h₂, hk₂⟩ | ⟨-, hk₂, h₂⟩
    · rw [h₁, h₂]
    · exact absurd hk₁ hk₂
    · exact absurd hk₂ hk₁
    · exact h.unique c₁ c₂ k h₁ h₂
  · by_cases hkp : k = p
    · exact ⟨c, (ht k).2 ⟨hkp, hkp ▸ hk⟩⟩
    · obtain ⟨c', hc'⟩ := h.running k ((hw k hkp).running.1 hk)
      exact ⟨c', by rw [hcpu c' fun hcc => hkp ((hs c' k hc').1 hcc), hc']⟩
  · by_cases hkp : k = p
    · exact hkp ▸ hp
    · rw [hpc k hkp]
      exact (hw k hkp).pc (h.pc k)
  · obtain ⟨h₁, h₂⟩ := h.fork q np (hchild q np hq)
    have hnp : np ≠ p := by
      rintro rfl
      exact hemb h₂
    refine ⟨?_, (hw np hnp).embryo h₂⟩
    by_cases hqp : q = p
    · subst hqp
      exact (hch np hq).2
    · exact (hw q hqp).ready h₁

/-- A CPU has the process `p` exactly if it is `c`. -/
theorem RunInv.run_iff (h : s.RunInv) (hc : (s.cpu c).ctl = .run p) (c' : C) (k : ProcId)
    (hk : (s.cpu c').ctl = .run k) : c' = c ↔ k = p := by
  constructor
  · rintro rfl
    rw [hc] at hk
    injection hk with hk
    exact hk.symm
  · rintro rfl
    exact h.unique c' c k hk hc

/-- A process that runs on `c` and has no lock, or the lock, gives up the CPU. -/
theorem RunInv.sched (h : s.RunInv) (hc : (s.cpu c).ctl = .run p)
    (hl : s.lock = none ∨ s.lock = some c) (hw : ∀ k, k ≠ p → Rests (s.proc k) (u k))
    (hu : (u p).state.parked = true) (hpc : PcOk (u p) pc p) (hch : pc.child = (s.pc p).child)
    (hready : pc.child = none ∨ (u p).state = .runnable) :
    ({ s with proc := u }.sched c p pc).RunInv := by
  have hrun := h.run hc
  refine h.cpuStep hl (Or.inr rfl) (fun c' hcc => update_of_ne hcc _ _)
    (fun k hk => update_of_ne hk _ _) hw (h.run_iff hc) (by rw [hrun.2.1]; decide) ?_ (fun k => ?_)
    ?_ fun np hnp => ?_
  · simp only [CpuOk, Sys.sched, setCpu, setPc, update_self]
    exact ⟨hrun.1, trivial, hu⟩
  · simp only [Sys.sched, setCpu, setPc, update_self]
    constructor
    · intro he
      cases he
    · intro he
      rw [he.2] at hu
      cases hu
  · simpa only [Sys.sched, setCpu, setPc, update_self] using hpc
  · simp only [Sys.sched, setCpu, setPc, update_self] at hnp ⊢
    refine ⟨hch ▸ hnp, ?_⟩
    rw [hready.resolve_left fun he => by rw [he] at hnp; cases hnp]
    rfl

/-- A process that runs on `c` and has no lock, or the lock, goes on without it. -/
theorem RunInv.leave (h : s.RunInv) (hc : (s.cpu c).ctl = .run p)
    (hl : s.lock = none ∨ s.lock = some c) {w : Work} (hw : ∀ k, k ≠ p → Rests (s.proc k) (u k))
    (hu : (u p).state = .running) (hch : w.child = (s.pc p).child) :
    ({ s with proc := u }.leave p w).RunInv := by
  have hrun := h.run hc
  refine h.cpuStep hl (Or.inl rfl) (fun _ _ => rfl) (fun k hk => update_of_ne hk _ _) hw
    (h.run_iff hc) (by rw [hrun.2.1]; decide) ?_ (fun k => ?_) ?_ fun np hnp => ?_
  · simp only [CpuOk, Sys.leave, setPc, hc, update_self]
    exact ⟨hrun.1, hu, by simp, by simp [Pc.resuming]⟩
  · simp only [Sys.leave, setPc, hc, Ctl.run.injEq, hu, and_true]
    exact eq_comm
  · simp only [PcOk, Sys.leave, setPc, hu]
  · simp only [Sys.leave, setPc, update_self] at hnp ⊢
    exact ⟨hch ▸ hnp, by rw [hu]; rfl⟩

/-- The scheduler of `c` switches to the process it has picked. -/
theorem RunInv.swtch (h : s.RunInv) (hc : (s.cpu c).ctl = .picked p) :
    ((s.setProc p { s.proc p with state := .running }).setCpu c
      (s.cpu c).proc (.run p)).RunInv := by
  have hpick := h.cpu c
  simp only [CpuOk, hc] at hpick
  obtain ⟨hproc, hlock, hst⟩ := hpick
  have hres : (s.pc p).resuming = true := by
    have := h.pc p
    simpa only [PcOk, hst] using this
  refine h.cpuStep (Or.inr hlock) (Or.inr hlock) (fun c' hcc => update_of_ne hcc _ _)
    (fun _ _ => rfl) (fun k hk => rests_update hk) (fun c' k hk => ?_) (by rw [hst]; decide) ?_
    (fun k => ?_) ?_ fun np hnp => ⟨hnp, ?_⟩
  · refine ⟨?_, ?_⟩
    · rintro rfl
      rw [hc] at hk
      cases hk
    · rintro rfl
      have := (h.run hk).2.1
      rw [hst] at this
      cases this
  · simp only [CpuOk, Sys.setCpu, setProc, update_self]
    refine ⟨hproc, trivial, ?_, by simp [hres, hlock]⟩
    intro hd
    rw [hd] at hres
    cases hres
  · simp only [Sys.setCpu, setProc, update_self, Ctl.run.injEq, and_true]
    exact eq_comm
  · simp only [PcOk, Sys.setCpu, setProc, update_self]
  · simp [Sys.setCpu, setProc, ProcState.ready]

/-- A step of `fork`, which changes the child `np` and the threads of both. -/
theorem RunInv.forkStep (h : s.RunInv) (hc : (s.cpu c).ctl = .run p)
    (hold : (s.pc p).resuming = false)
    (hnp : (s.proc np).state = .embryo ∨ (s.proc np).state = .unused)
    (hmine : ∀ q, (s.pc q).child = some np → q = p) {w : ProcId → Pc}
    (hw : ∀ k, k ≠ p → k ≠ np → w k = s.pc k) (hres : (w p).resuming = false) (hdead : w p ≠ .dead)
    (hx : x.state ≠ .running) (hpc : PcOk x (w np) np) (hch : (w np).child = none)
    (hchild : (w p).child = none ∨ (w p).child = some np ∧ x.state = .embryo) :
    { s with proc := update s.proc np x, pc := w }.RunInv := by
  have hrun := h.run hc
  have hother : ∀ k, (s.proc k).state ≠ .embryo → (s.proc k).state ≠ .unused → k ≠ np := by
    rintro k h₁ h₂ rfl
    exact hnp.elim h₁ h₂
  have hno : s.lock ≠ some c := by
    rw [Ne, ← hrun.2.2.2, hold]
    decide
  -- `p` may have a child now, and the other processes have those that they had
  have hcase : ∀ q np', (w q).child = some np' → q ≠ np ∧
      (q = p ∧ np' = np ∧ x.state = .embryo ∨ np' ≠ np ∧ (s.pc q).child = some np') := by
    intro q np' hq
    have hqn : q ≠ np := by
      rintro rfl
      rw [hch] at hq
      cases hq
    refine ⟨hqn, ?_⟩
    by_cases hqp : q = p
    · subst hqp
      rcases hchild with h₁ | ⟨h₁, h₂⟩ <;> rw [h₁] at hq <;> cases hq
      exact .inl ⟨rfl, rfl, h₂⟩
    · rw [hw q hqp hqn] at hq
      refine .inr ⟨?_, hq⟩
      rintro rfl
      exact hqp (hmine q hq)
  refine ⟨fun c' => ?_, h.unique, fun k => ?_, fun k => ?_, fun q np' hq => ?_,
    fun q r np' hq hr => ?_⟩
  · have hck := h.cpu c'
    cases hk : (s.cpu c').ctl with
    | idle | scan i => simpa only [CpuOk, hk] using hck
    | picked k =>
      simp only [CpuOk, hk] at hck ⊢
      rwa [update_of_ne (hother k (by simp [hck.2.2]) (by simp [hck.2.2]))]
    | run k =>
      simp only [CpuOk, hk] at hck ⊢
      have hkn := hother k (by simp [hck.2.1]) (by simp [hck.2.1])
      rw [update_of_ne hkn]
      by_cases hkp : k = p
      · subst hkp
        obtain rfl := h.unique c' c k hk hc
        exact ⟨hck.1, hck.2.1, hdead, by rw [hres]; simp [hno]⟩
      · rw [hw k hkp hkn]
        exact hck
    | back k =>
      simp only [CpuOk, hk] at hck ⊢
      have hkn : k ≠ np := by
        rintro rfl
        rcases hnp with h₁ | h₁ <;> rw [h₁] at hck <;> cases hck.2.2
      rwa [update_of_ne hkn]
  · dsimp only
    exact update_cases k (fun hk => absurd hk hx) fun _ => h.running k
  · dsimp only
    refine update_cases k hpc fun hkn => ?_
    by_cases hkp : k = p
    · subst hkp
      simp only [PcOk, hrun.2.1]
    · rw [hw k hkp hkn]
      exact h.pc k
  · obtain ⟨hqn, ⟨rfl, rfl, hx'⟩ | ⟨hn, hq⟩⟩ := hcase q np' hq
    · simp only [update_self, update_of_ne hqn, hrun.2.1]
      exact ⟨rfl, hx'⟩
    · simp only [update_of_ne hqn, update_of_ne hn]
      exact h.fork q np' hq
  · obtain ⟨-, ⟨hqp, hn, -⟩ | ⟨hn, hq⟩⟩ := hcase q np' hq <;>
      obtain ⟨-, ⟨hrp, hn', -⟩ | ⟨hn', hr⟩⟩ := hcase r np' hr
    · rw [hqp, hrp]
    · exact absurd hn hn'
    · exact absurd hn' hn
    · exact h.forkOne q r np' hq hr

/-- A step of the scheduler that changes no process. -/
theorem RunInv.setCpu (h : s.RunInv) {l : Option C} {proc : Option ProcId} {ctl : Ctl}
    (hold : ∀ k, (s.cpu c).ctl ≠ .run k) (hnew : ∀ k, ctl ≠ .run k)
    (hc : ({ s with lock := l }.setCpu c proc ctl).CpuOk c)
    (hl : ∀ c', c' ≠ c → (l = some c' ↔ s.lock = some c')) :
    ({ s with lock := l }.setCpu c proc ctl).RunInv := by
  have hrunc : ∀ c' k, (update s.cpu c ⟨proc, ctl⟩ c').ctl = .run k →
      c' ≠ c ∧ (s.cpu c').ctl = .run k := fun c' =>
    update_cases c' (fun k hk => absurd hk (hnew k)) fun hcc _ hk => ⟨hcc, hk⟩
  refine ⟨fun c' => ?_, fun c1 c2 k h1 h2 => ?_, fun k hk => ?_, h.pc, h.fork, h.forkOne⟩
  · by_cases hcc : c' = c
    · exact hcc ▸ hc
    · have hck := h.cpu c'
      have hlc := hl c' hcc
      unfold CpuOk at hck ⊢
      simp only [Sys.setCpu, update_of_ne hcc, Ne, hlc]
      exact hck
  · exact h.unique c1 c2 k (hrunc c1 k h1).2 (hrunc c2 k h2).2
  · obtain ⟨c', hc'⟩ := h.running k hk
    have hcc : c' ≠ c := by
      rintro rfl
      exact hold k hc'
    exact ⟨c', by simpa only [Sys.setCpu, update_of_ne hcc] using hc'⟩

/-- The history does not matter. -/
theorem RunInv.history (h : s.RunInv) (nextpid : Int32) (nextBirth : ℕ) (birth : ProcId → ℕ)
    (exits : List (ℕ × Int32)) (reaps : List Reap) :
    { s with
      nextpid := nextpid, nextBirth := nextBirth, birth := birth, exits := exits,
      reaps := reaps }.RunInv :=
  { h with }

/-- `wait` reaps a child that is a zombie. -/
theorem waitScan_reaped {z : ProcId} (h : waitScan p u = .reaped z) :
    (u z).parent = some p ∧ (u z).state = .zombie := by
  unfold waitScan at h
  split at h
  · rename_i k hk
    cases h
    simpa using firstSlot_eq_some hk
  · split_ifs at h

/-- `wait` sleeps only if there is no child to reap. -/
theorem waitScan_sleep (h : waitScan p u = .sleep) (z : ProcId) (hz : (u z).state = .zombie) :
    (u z).parent ≠ some p := by
  unfold waitScan at h
  split at h
  · cases h
  · rename_i hnone
    intro hp
    have := firstSlot_eq_none hnone z
    simp [hp, hz] at this

theorem allocproc_eq_some {nextpid : Int32} {u' : Table} (h : allocproc nextpid u = some (np, u')) :
    (u np).state = .unused ∧ u' = update u np { u np with state := .embryo, pid := nextpid } := by
  obtain ⟨k, hk, he⟩ := map_eq_some_iff.1 h
  simp only [Prod.mk.injEq] at he
  obtain ⟨rfl, rfl⟩ := he
  exact ⟨by simpa using firstSlot_eq_some hk, rfl⟩

/-- What is known about the child a running process is making. -/
theorem RunInv.child (h : s.RunInv) (hp : (s.pc p).child = some np) :
    (s.proc np).state = .embryo ∧ np ≠ p ∧ (s.pc np).child = none := by
  obtain ⟨h1, h2⟩ := h.fork p np hp
  have hne : np ≠ p := by
    rintro rfl
    rw [h2] at h1
    cases h1
  refine ⟨h2, hne, ?_⟩
  cases hc : (s.pc np).child with
  | none => rfl
  | some j =>
    have := (h.fork np j hc).1
    rw [h2] at this
    cases this

/-- A step of `fork` without the lock. -/
theorem RunInv.forkMove (h : s.RunInv) (hc : (s.cpu c).ctl = .run p) {v w : Work}
    (hv : s.pc p = .work v) (hp : v.child = some np)
    (hx : x.state = .embryo ∧ w.child = some np ∨ x.state = .unused ∧ w.child = none) :
    ((s.setProc np x).setPc p (.work w)).RunInv := by
  have hpc : (s.pc p).child = some np := by rw [hv]; exact hp
  obtain ⟨hemb, hne, hno⟩ := h.child hpc
  have hxs : x.state = .embryo ∨ x.state = .unused := hx.imp And.left And.left
  refine RunInv.forkStep h hc (by rw [hv]; rfl) (Or.inl hemb)
    (fun q hq => h.forkOne q p np hq hpc) (w := update s.pc p (.work w))
    (fun j hj _ => update_of_ne hj _ _) (by rw [update_self]; rfl)
    (by rw [update_self]; simp) ?_ ?_ (by rw [update_of_ne hne]; exact hno) ?_
  · rcases hxs with h1 | h1 <;> rw [h1] <;> decide
  · rcases hxs with h1 | h1 <;> simp only [PcOk, h1]
  · rw [update_self]
    rcases hx with ⟨h1, h2⟩ | ⟨h1, h2⟩
    · exact Or.inr ⟨h2, h1⟩
    · exact Or.inl h2

/-- `fork` takes a slot. -/
theorem RunInv.forkTake (h : s.RunInv) (hc : (s.cpu c).ctl = .run p) (hpc : s.pc p = .work .user)
    (hun : (s.proc np).state = .unused) (hx : x.state = .embryo) :
    { s with proc := update s.proc np x, pc := update s.pc p (.work (.forking np)) }.RunInv := by
  have hst := (h.run hc).2.1
  have hkp : np ≠ p := by
    rintro rfl
    rw [hst] at hun
    cases hun
  have hnofork : ∀ q, (s.pc q).child ≠ some np := fun q hq => by
    have := (h.fork q np hq).2
    rw [hun] at this
    cases this
  have hchild : (s.pc np).child = none := by
    cases hck : (s.pc np).child with
    | none => rfl
    | some j =>
      have := (h.fork np j hck).1
      rw [hun] at this
      cases this
  exact RunInv.forkStep h hc (by rw [hpc]; rfl) (Or.inr hun) (fun q hq => absurd hq (hnofork q))
    (w := update s.pc p (.work (.forking np))) (fun j hj _ => update_of_ne hj _ _)
    (by rw [update_self]; rfl) (by rw [update_self]; simp) (by rw [hx]; decide)
    (by simp only [PcOk, hx]) (by rw [update_of_ne hkp]; exact hchild)
    (Or.inr ⟨by rw [update_self]; rfl, hx⟩)

/-- `fork` makes the child runnable. -/
theorem RunInv.forkRun (h : s.RunInv) (hc : (s.cpu c).ctl = .run p)
    (hpc : s.pc p = .work (.linking np)) :
    (((s.setProc np { s.proc np with state := .runnable }).setPc p (.work .user)).setPc np
      .forkret).RunInv := by
  have hchild : (s.pc p).child = some np := by rw [hpc]; rfl
  obtain ⟨hemb, hne, hno⟩ := h.child hchild
  refine RunInv.forkStep h hc (by rw [hpc]; rfl) (Or.inl hemb)
    (fun q hq => h.forkOne q p np hq hchild) (w := update (update s.pc p (.work .user)) np .forkret)
    (fun j hj hj' => by rw [update_of_ne hj', update_of_ne hj]) ?_ ?_ (by simp) ?_ ?_ ?_
  · rw [update_of_ne hne.symm, update_self]
    rfl
  · rw [update_of_ne hne.symm, update_self]
    simp
  · rw [update_self]
    simp [PcOk, Pc.resuming]
  · rw [update_self]
    rfl
  · rw [update_of_ne hne.symm, update_self]
    exact Or.inl rfl

/-! ## What a step does -/

theorem setProc_self (s : Sys C) (p : ProcId) : s.setProc p (s.proc p) = s := by simp [setProc]

theorem child_of_links (h : pc.links = some np) : pc.child = some np := by
  unfold Pc.links at h
  split at h
  · exact h
  · exact h
  · cases h

theorem links_of_child (h : pc.child = none) : pc.links = none := by
  cases hl : pc.links with
  | none => rfl
  | some np =>
    rw [child_of_links hl] at h
    cases h

/-- What a step does. -/
inductive Does (s : Sys C) : Act C → Sys C → Prop where
  /-- The scheduler takes or releases the lock, or goes to another slot. -/
  | seek (c : C) (l : Option C) (proc : Option ProcId) (ctl : Ctl)
      (old : ∀ k, (s.cpu c).ctl ≠ .run k) (new : ∀ k, ctl ≠ .run k)
      (ok : ({ s with lock := l }.setCpu c proc ctl).CpuOk c)
      (lock : ∀ c', c' ≠ c → (l = some c' ↔ s.lock = some c')) :
      Does s (.scheduler c) ({ s with lock := l }.setCpu c proc ctl)
  /-- The scheduler switches to the process it has picked. -/
  | swtch (c : C) (p : ProcId) (ctl : (s.cpu c).ctl = .picked p)
      (old : (s.proc p).state = .runnable) :
      Does s (.scheduler c)
        ((s.setProc p { s.proc p with state := .running }).setCpu c (s.cpu c).proc (.run p))
  /-- A process goes on without the lock. -/
  | leave (a : Act C) (c : C) (p : ProcId) (chan : Option Chan) (w : Work)
      (act : a = .resume c ∨ a = .wait c) (run : (s.cpu c).ctl = .run p)
      (lock : s.lock = none ∨ s.lock = some c) (child : w.child = (s.pc p).child)
      (links : (Pc.work w).links = (s.pc p).links) :
      Does s a ((s.setProc p { s.proc p with chan := chan }).leave p w)
  /-- A process gives up the CPU, in `yield`, `sleep` or `wait`. -/
  | sched (a : Act C) (c : C) (p : ProcId) (st : ProcState) (chan : Option Chan) (pc : Pc)
      (act : a = .resume c ∨ a = .wait c ∨ a = .yield c ∨ ∃ n, a = .sleep c n)
      (run : (s.cpu c).ctl = .run p) (lock : s.lock = none ∨ s.lock = some c)
      (alive : st = .runnable ∨ st = .sleeping ∧ pc.child = none)
      (ok : PcOk { s.proc p with state := st, chan := chan } pc p)
      (child : pc.child = (s.pc p).child) (links : pc.links = (s.pc p).links)
      (sleep : st = .sleeping → chan = some (.proc p) →
        ∀ z, (s.proc z).state = .zombie → (s.proc z).parent ≠ some p) :
      Does s a ((s.setProc p { s.proc p with state := st, chan := chan }).sched c p pc)
  | exit (c : C) (p : ProcId) (run : (s.cpu c).ctl = .run p) (pc : s.pc p = .work .user)
      (lock : s.lock = none) (init : p ≠ initproc) :
      Does s (.exit c) { { s with proc := exitTable p s.proc }.sched c p .dead with
        exits := s.exits ++ [(s.birth p, (s.proc p).pid)] }
  /-- `wait` reaps a child. -/
  | reap (a : Act C) (c : C) (p z : ProcId) (chan : Option Chan)
      (act : a = .resume c ∨ a = .wait c) (run : (s.cpu c).ctl = .run p)
      (lock : s.lock = none ∨ s.lock = some c) (child : (s.pc p).child = none) (ne : z ≠ p)
      (old : (s.proc z).state = .zombie) (parent : (s.proc z).parent = some p) :
      Does s a { ((s.setProc p { s.proc p with chan := chan }).setProc z
        (freeSlot (s.proc z))).leave p .user with
          reaps := s.reaps ++ [⟨s.birth z, p, z, (s.proc z).pid⟩] }
  /-- `getnice`, or a `fork` that finds no slot. -/
  | same (a : Act C) (act : (∃ c, a = .forkAlloc c ∧ allocproc s.nextpid s.proc = none) ∨
      ∃ c pid, a = .getnice c pid) : Does s a s
  /-- `fork` takes a slot. -/
  | alloc (c : C) (p np : ProcId) (u : Table) (enter : s.enter c = some p)
      (find : allocproc s.nextpid s.proc = some (np, u)) :
      Does s (.forkAlloc c) { s with
        proc := update s.proc np { s.proc np with state := .embryo, pid := s.nextpid }
        nextpid := s.nextpid + 1
        pc := update s.pc p (.work (.forking np))
        nextBirth := s.nextBirth + 1
        birth := update s.birth np s.nextBirth }
  /-- `fork` works on its child without the lock. -/
  | child (c : C) (p np : ProcId) (v w : Work) (k d : Bool) (par : Option ProcId) (a : Act C)
      (act : a = .forkStack c true ∧ v = .forking np ∧ w = .copying np ∧
          (k = true ∧ d = (s.proc np).pgdir) ∧ par = (s.proc np).parent ∨
        a = .forkCopy c true ∧ v = .copying np ∧ w = .linking np ∧
          (k = (s.proc np).kstack ∧ d = true) ∧ par = some p)
      (run : (s.cpu c).ctl = .run p) (pc : s.pc p = .work v) :
      Does s a ((s.setProc np { s.proc np with kstack := k, pgdir := d, parent := par }).setPc p
        (.work w))
  /-- `fork` fails and gives the slot back. -/
  | fail (c : C) (p np : ProcId) (v : Work) (k : Bool) (a : Act C)
      (act : a = .forkStack c false ∧ v = .forking np ∨ a = .forkCopy c false ∧ v = .copying np)
      (run : (s.cpu c).ctl = .run p) (pc : s.pc p = .work v) :
      Does s a ((s.setProc np { s.proc np with kstack := k, state := .unused }).setPc p
        (.work .user))
  /-- `fork` makes the child runnable. -/
  | run (c : C) (p np : ProcId) (run : (s.cpu c).ctl = .run p)
      (pc : s.pc p = .work (.linking np)) (lock : s.lock = none) :
      Does s (.forkRun c) (((s.setProc np { s.proc np with state := .runnable }).setPc p
        (.work .user)).setPc np .forkret)
  | wakeup (chan : ℕ) : Does s (.wakeup chan) { s with proc := wakeup1 (some (.other chan)) s.proc }
  | kill (c : C) (pid : Int32) : Does s (.kill c pid) { s with proc := (Ptable.kill pid s.proc).2 }
  | setnice (c : C) (pid nice : Int32) :
      Does s (.setnice c pid nice) { s with proc := (Ptable.setnice pid nice s.proc).2 }

theorem scheduler_does (h : s.RunInv) (ht : s.scheduler c = some t) : Does s (.scheduler c) t := by
  have hck := h.cpu c
  unfold Sys.scheduler at ht
  cases hc : (s.cpu c).ctl with
  | idle =>
    simp only [hc] at ht
    split_ifs at ht with hl
    obtain rfl := some.inj ht
    refine .seek c _ _ _ (by simp [hc]) (by simp) ?_ fun c' hcc => ?_
    · simp [CpuOk, setCpu]
    · simp [hl, hcc.symm]
  | scan i =>
    simp only [hc] at ht
    simp only [CpuOk, hc] at hck
    split_ifs at ht with hi hr
    · obtain rfl := some.inj ht
      refine .seek c s.lock _ _ (by simp [hc]) (by simp) ?_ fun _ _ => Iff.rfl
      simp [CpuOk, setCpu, hck.2, hr]
    · obtain rfl := some.inj ht
      refine .seek c s.lock _ _ (by simp [hc]) (by simp) ?_ fun _ _ => Iff.rfl
      simp [CpuOk, setCpu, hck.2]
    · obtain rfl := some.inj ht
      refine .seek c _ _ _ (by simp [hc]) (by simp) ?_ fun c' hcc => ?_
      · simp [CpuOk, setCpu]
      · simp [hck.2, hcc.symm]
  | picked k =>
    simp only [hc] at ht
    simp only [CpuOk, hc] at hck
    obtain rfl := some.inj ht
    exact .swtch c k hc hck.2.2
  | run k => simp [hc] at ht
  | back k =>
    simp only [hc] at ht
    simp only [CpuOk, hc] at hck
    obtain rfl := some.inj ht
    refine .seek c s.lock _ _ (by simp [hc]) (by simp) ?_ fun _ _ => Iff.rfl
    simp [CpuOk, setCpu, hck.2.1]

theorem waitLoop_does (h : s.RunInv) {a : Act C} (ha : a = .resume c ∨ a = .wait c)
    (hc : (s.cpu c).ctl = .run p) (hl : s.lock = none ∨ s.lock = some c)
    (hch : (s.pc p).child = none) (chan : Option Chan) :
    Does s a ((s.setProc p { s.proc p with chan := chan }).waitLoop c p) := by
  have hst := (h.run hc).2.1
  have hsame : ∀ z, (s.proc z).state = .zombie →
      update s.proc p { s.proc p with chan := chan } z = s.proc z := by
    intro z hz
    refine update_of_ne ?_ _ _
    rintro rfl
    rw [hst] at hz
    cases hz
  unfold Sys.waitLoop
  split
  · rename_i z hz
    obtain ⟨hpar, hzz⟩ := waitScan_reaped hz
    have hzp : z ≠ p := by
      rintro rfl
      simp only [setProc, update_self, hst] at hzz
      cases hzz
    simp only [setProc, update_of_ne hzp] at hpar hzz ⊢
    exact .reap a c p z chan ha hc hl hch hzp hzz hpar
  · exact .leave a c p chan .user ha hc hl hch.symm (links_of_child hch).symm
  · rename_i hscan
    have hno : ∀ z, (s.proc z).state = .zombie → (s.proc z).parent ≠ some p := fun z hz => by
      have := waitScan_sleep hscan z
      simp only [setProc, hsame z hz] at this
      exact this hz
    simp only [setProc, update_idem, update_self]
    exact .sched a c p .sleeping (some (.proc p)) .waiting (ha.imp id Or.inl) hc hl
      (Or.inr ⟨rfl, rfl⟩) (Or.inr ⟨rfl, rfl⟩) hch.symm (links_of_child hch).symm fun _ _ => hno

theorem resume_does (h : s.RunInv) (ht : s.resume c = some t) : Does s (.resume c) t := by
  unfold Sys.resume at ht
  cases hc : (s.cpu c).ctl with
  | run p =>
    simp only [hc] at ht
    split_ifs at ht with hl
    have hleave := fun chan w => Does.leave (s := s) (.resume c) c p chan w (Or.inl rfl) hc
      (Or.inr hl)
    split at ht
    · rename_i hpc
      obtain rfl := some.inj ht
      have := hleave (s.proc p).chan .user (by rw [hpc]; rfl) (by rw [hpc]; rfl)
      rwa [setProc_self] at this
    · rename_i w hpc
      obtain rfl := some.inj ht
      have := hleave (s.proc p).chan w (by rw [hpc]; rfl) (by rw [hpc]; cases w <;> rfl)
      rwa [setProc_self] at this
    · rename_i hpc
      obtain rfl := some.inj ht
      exact hleave none .user (by rw [hpc]; rfl) (by rw [hpc]; rfl)
    · rename_i hpc
      obtain rfl := some.inj ht
      exact waitLoop_does h (Or.inl rfl) hc (Or.inr hl) (by rw [hpc]; rfl) none
    · cases ht
  | idle | scan i | picked k | back k => simp [hc] at ht

/-- What every step does. -/
theorem step_does (h : s.RunInv) {a : Act C} (ht : s.step a = some t) : Does s a t := by
  cases a with
  | scheduler c => exact scheduler_does h ht
  | resume c => exact resume_does h ht
  | yield c =>
    obtain ⟨p, hp, ht⟩ := bind_eq_some_iff.1 ht
    rw [running_eq_some] at hp
    split at ht
    · rename_i w hpc
      split_ifs at ht with hl
      obtain rfl := some.inj ht
      exact .sched _ c p .runnable (s.proc p).chan (.yielded w) (by simp) hp (Or.inl hl)
        (Or.inl rfl) (by simp [PcOk, Pc.resuming]) (by rw [hpc]; rfl) (by rw [hpc]; cases w <;> rfl)
        (by simp)
    · cases ht
  | sleep c n =>
    obtain ⟨p, hp, rfl⟩ := map_eq_some_iff.1 ht
    obtain ⟨hc, hpc, hl⟩ := enter_eq_some.1 hp
    exact .sched _ c p .sleeping (some (.other n)) .slept (by simp) hc (Or.inl hl)
      (Or.inr ⟨rfl, rfl⟩) (by simp [PcOk]) (by rw [hpc]; rfl) (by rw [hpc]; rfl) (by simp)
  | exit c =>
    obtain ⟨p, hp, ht⟩ := bind_eq_some_iff.1 ht
    obtain ⟨hc, hpc, hl⟩ := enter_eq_some.1 hp
    split_ifs at ht with hinit
    obtain rfl := some.inj ht
    exact .exit c p hc hpc hl hinit
  | wait c =>
    obtain ⟨p, hp, rfl⟩ := map_eq_some_iff.1 ht
    obtain ⟨hc, hpc, hl⟩ := enter_eq_some.1 hp
    have := waitLoop_does h (a := .wait c) (Or.inr rfl) hc (Or.inl hl) (by rw [hpc]; rfl)
      (s.proc p).chan
    rwa [setProc_self] at this
  | forkAlloc c =>
    obtain ⟨p, hp, rfl⟩ := map_eq_some_iff.1 ht
    cases hu : allocproc s.nextpid s.proc with
    | none => exact .same _ (Or.inl ⟨c, rfl, hu⟩)
    | some x =>
      obtain ⟨np, u⟩ := x
      obtain ⟨-, rfl⟩ := allocproc_eq_some hu
      exact .alloc c p np _ hp hu
  | forkStack c ok =>
    obtain ⟨p, hp, ht⟩ := bind_eq_some_iff.1 ht
    rw [running_eq_some] at hp
    split at ht
    · rename_i np hpc
      cases ok with
      | true =>
        obtain rfl := some.inj ht
        exact .child c p np _ _ _ _ _ _ (Or.inl ⟨rfl, rfl, rfl, ⟨rfl, rfl⟩, rfl⟩) hp hpc
      | false =>
        obtain rfl := some.inj ht
        exact .fail c p np _ _ _ (Or.inl ⟨rfl, rfl⟩) hp hpc
    · cases ht
  | forkCopy c ok =>
    obtain ⟨p, hp, ht⟩ := bind_eq_some_iff.1 ht
    rw [running_eq_some] at hp
    split at ht
    · rename_i np hpc
      cases ok with
      | true =>
        obtain rfl := some.inj ht
        exact .child c p np _ _ _ _ _ _ (Or.inr ⟨rfl, rfl, rfl, ⟨rfl, rfl⟩, rfl⟩) hp hpc
      | false =>
        obtain rfl := some.inj ht
        exact .fail c p np _ _ _ (Or.inr ⟨rfl, rfl⟩) hp hpc
    · cases ht
  | forkRun c =>
    obtain ⟨p, hp, ht⟩ := bind_eq_some_iff.1 ht
    rw [running_eq_some] at hp
    split at ht
    · rename_i np hpc
      split_ifs at ht with hl
      obtain rfl := some.inj ht
      exact .run c p np hp hpc hl
    · cases ht
  | wakeup chan =>
    simp only [Sys.step] at ht
    split_ifs at ht
    obtain rfl := some.inj ht
    exact .wakeup chan
  | kill c pid =>
    obtain ⟨p, -, rfl⟩ := map_eq_some_iff.1 ht
    exact .kill c pid
  | setnice c pid nice =>
    obtain ⟨p, -, rfl⟩ := map_eq_some_iff.1 ht
    exact .setnice c pid nice
  | getnice c pid =>
    obtain ⟨p, -, rfl⟩ := map_eq_some_iff.1 ht
    exact .same _ (Or.inr ⟨c, pid, rfl⟩)

/-- Every step keeps track of all CPUs and threads. -/
theorem RunInv.step (h : s.RunInv) {a : Act C} (ht : s.step a = some t) : t.RunInv := by
  cases step_does h ht with
  | seek c l proc ctl old new ok lock => exact h.setCpu old new ok lock
  | swtch c p ctl => exact h.swtch ctl
  | leave _ c p chan w _ run lock child =>
    refine RunInv.leave (u := update s.proc p _) h run lock (fun k hk => rests_update hk) ?_ child
    rw [update_self]
    exact (h.run run).2.1
  | sched _ c p st chan pc _ run lock alive ok child =>
    refine RunInv.sched (u := update s.proc p _) h run lock (fun k hk => rests_update hk) ?_ ?_
      child ?_
    · rcases alive with rfl | ⟨rfl, -⟩ <;> rw [update_self] <;> rfl
    · rwa [update_self]
    · rcases alive with rfl | ⟨rfl, hno⟩
      · exact Or.inr (by rw [update_self])
      · exact Or.inl hno
  | exit c p run pc lock =>
    have hz := exitTable_self p s.proc
    exact (RunInv.sched (u := exitTable p s.proc) h run (Or.inl lock)
      (fun k hk => rests_of_woken (woken_exitTable hk s.proc)) (by rw [hz]; rfl)
      (by simp [PcOk, hz])
      (by rw [pc]; rfl) (Or.inl rfl)).history ..
  | reap _ c p z chan _ run lock child ne old =>
    refine (RunInv.leave (u := update (update s.proc p _) z _) (w := .user) h run lock
      (fun k hk => update_cases k (rests_freeSlot old) fun _ => rests_update hk) ?_
      child.symm).history ..
    · rw [update_of_ne ne.symm, update_self]
      exact (h.run run).2.1
  | same => exact h
  | alloc c p np u enter find =>
    obtain ⟨hc, hpc, -⟩ := enter_eq_some.1 enter
    obtain ⟨hun, -⟩ := allocproc_eq_some find
    exact (h.forkTake hc hpc hun rfl).history ..
  | child c p np v w k d par _ act run pc =>
    have hv : v.child = some np ∧ w.child = some np := by
      rcases act with ⟨-, rfl, rfl, -⟩ | ⟨-, rfl, rfl, -⟩ <;> exact ⟨rfl, rfl⟩
    exact h.forkMove run pc hv.1 (Or.inl ⟨(h.child (by rw [pc]; exact hv.1)).1, hv.2⟩)
  | fail c p np v k _ act run pc =>
    have hv : v.child = some np := by
      rcases act with ⟨-, rfl⟩ | ⟨-, rfl⟩ <;> rfl
    exact h.forkMove run pc hv (Or.inr ⟨rfl, rfl⟩)
  | run c p np run pc => exact h.forkRun run pc
  | wakeup => exact h.wake fun k => woken_wakeup1 ..
  | kill => exact h.wake fun k => woken_kill ..
  | setnice => exact h.wake fun k => woken_setnice ..

theorem runInv_boot : (boot : Sys C).RunInv where
  cpu c := by simp [CpuOk, boot]
  unique c c' k h := by simp [boot] at h
  running k h := by
    simp only [boot] at h
    by_cases hk : k = initproc
    · simp [hk] at h
    · simp [hk] at h
  pc k := by
    by_cases hk : k = initproc
    · simp [hk, boot, PcOk, Pc.resuming]
    · simp [hk, boot, PcOk]
  fork p np h := by
    by_cases hp : p = initproc
    · simp [hp, boot, Pc.child] at h
    · simp [hp, boot, Pc.child, Work.child] at h
  forkOne p q np h := by
    by_cases hp : p = initproc
    · simp [hp, boot, Pc.child] at h
    · simp [hp, boot, Pc.child, Work.child] at h

end Sys

end Xv6.Ptable
