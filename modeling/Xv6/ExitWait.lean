import Xv6.Reaping

/-!
# `exit` and `wait`

`exit` wakes the parent of the process, passes its children to `init` and wakes `init` if
one of them has exited already. So every process has a parent that has not exited, and
nobody sleeps in `wait` with a child to reap (`ParentInv`), whatever other processes do in
between.

`exit_wait` puts this together with the history : every exited process is reaped at most
once, by its parent.
-/

set_option linter.unusedSectionVars false

namespace Xv6.Ptable

open Function List Option

/-! ## `exit` and the table -/

/-- The process sleeps in `wait`, as process `i`. -/
def Proc.WaitsAs (a : Proc) (i : ProcId) : Prop := a.state = .sleeping ∧ a.chan = some (.proc i)

theorem Woken.waitsAs {a b : Proc} (h : Woken a b) {i : ProcId} (hb : b.WaitsAs i) :
    a.WaitsAs i := by
  rcases h.state with hs | ⟨-, hs⟩
  · exact ⟨hs.symm.trans hb.1, h.chan.symm.trans hb.2⟩
  · exact absurd (hs.symm.trans hb.1) (by decide)

theorem Woken.alive_eq {a b : Proc} (h : Woken a b) : b.state.alive = a.state.alive := by
  rcases h.state with hs | ⟨hs, hb⟩
  · rw [hs]
  · rw [hs, hb]
    rfl

theorem Woken.started {a b : Proc} (h : Woken a b) (hb : b.state ≠ .unused)
    (hb' : b.state ≠ .embryo) : a.state ≠ .unused ∧ a.state ≠ .embryo := by
  rcases h.state with hs | ⟨hs, -⟩
  · exact ⟨hs ▸ hb, hs ▸ hb'⟩
  · rw [hs]
    decide

theorem not_waitsAs_wakeup1 (i : ProcId) (u : Table) (k : ProcId) :
    ¬(wakeup1 (some (.proc i)) u k).WaitsAs i := by
  unfold wakeup1
  split_ifs with h
  · rintro ⟨hs, -⟩
    cases hs
  · exact h

theorem adopt_parent (p : ProcId) (u : Table) (j k : ProcId) :
    (adopt p u j k).parent =
      if k = j ∧ (u k).parent = some p then some initproc else (u k).parent := by
  have hset : (update u j { u j with parent := some initproc } k).parent =
      if k = j then some initproc else (u k).parent :=
    update_cases k (if_pos rfl).symm fun hk => (if_neg hk).symm
  unfold adopt
  by_cases hj : (u j).parent = some p
  · have hif : (k = j ∧ (u k).parent = some p) ↔ k = j := by
      refine ⟨And.left, ?_⟩
      rintro rfl
      exact ⟨rfl, hj⟩
    simp only [if_pos hj, hif]
    split_ifs <;> simp_all [wakeup1_parent]
  · have hif : ¬(k = j ∧ (u k).parent = some p) := by
      rintro ⟨rfl, h⟩
      exact hj h
    rw [if_neg hj, if_neg hif]

theorem foldl_adopt_parent {p : ProcId} (hp : p ≠ initproc) : ∀ (js : List ProcId) (u : Table)
    (k : ProcId), (js.foldl (adopt p) u k).parent =
      if k ∈ js ∧ (u k).parent = some p then some initproc else (u k).parent
  | [], u, k => by simp
  | j :: js, u, k => by
    rw [foldl_cons, foldl_adopt_parent hp js, adopt_parent]
    by_cases hpar : (u k).parent = some p
    · by_cases hk : k = j
      · subst hk
        simp [hpar]
      · simp [hpar, hk]
    · simp [hpar]

theorem adopt_wakes {p : ProcId} {u : Table} {z : ProcId} (hpar : (u z).parent = some p)
    (hz : (u z).state = .zombie) (i : ProcId) : ¬(adopt p u z i).WaitsAs initproc := by
  have hz' : (update u z { u z with parent := some initproc } z).state = .zombie := by
    rw [update_self, hz]
  unfold adopt
  simp only [if_pos hpar, if_pos hz']
  exact not_waitsAs_wakeup1 initproc _ i

/-- If an abandoned child has exited, `init` is woken. -/
theorem foldl_adopt_wakes {p : ProcId} : ∀ (js : List ProcId) (u : Table) (z : ProcId), z ∈ js →
    (u z).parent = some p → (u z).state = .zombie →
      ∀ i, ¬(js.foldl (adopt p) u i).WaitsAs initproc
  | j :: js, u, z, hmem, hpar, hz, i => by
    rw [foldl_cons]
    by_cases hj : z = j
    · subst hj
      exact fun hi => adopt_wakes hpar hz i ((woken_foldl_adopt p js _ i).waitsAs hi)
    · refine foldl_adopt_wakes js _ z ((mem_cons.1 hmem).resolve_left hj) ?_ ?_ i
      · rw [adopt_parent, if_neg fun h => hj h.1, hpar]
      · rcases (woken_adopt p u j z).state with hs | ⟨hs, -⟩
        · rw [hs, hz]
        · rw [hz] at hs
          cases hs

theorem exitTable_parent {p : ProcId} (hp : p ≠ initproc) (u : Table) (k : ProcId) :
    (exitTable p u k).parent =
      if (u k).parent = some p then some initproc else (u k).parent := by
  have h := foldl_adopt_parent hp (List.finRange NPROC) (wakeup1 ((u p).parent.map .proc) u) k
  rw [wakeup1_parent] at h
  simp only [mem_finRange, true_and] at h
  rw [← h]
  unfold exitTable
  by_cases hk : k = p
  · rw [hk]
    simp only [update_self]
  · simp only [update_of_ne hk]

/-- The parent of the process that exits is awake, ... -/
theorem exitTable_wakes_parent {p i : ProcId} {u : Table} (hi : i ≠ p)
    (hpar : (u p).parent = some i) : ¬(exitTable p u i).WaitsAs i := by
  intro h
  unfold exitTable at h
  simp only [update_of_ne hi, hpar, map_some] at h
  exact not_waitsAs_wakeup1 i u i ((woken_foldl_adopt p (List.finRange _) _ i).waitsAs h)

/-- ... and so is `init`, if an abandoned child has exited. -/
theorem exitTable_wakes_init {p i z : ProcId} {u : Table} (hi : i ≠ p)
    (hpar : (u z).parent = some p) (hz : (u z).state = .zombie) :
    ¬(exitTable p u i).WaitsAs initproc := by
  unfold exitTable
  simp only [update_of_ne hi]
  refine foldl_adopt_wakes (List.finRange NPROC) _ z (mem_finRange z) ?_ ?_ i
  · rw [wakeup1_parent, hpar]
  · rcases (woken_wakeup1 ((u p).parent.map .proc) u z).state with hs | ⟨hs, -⟩
    · rw [hs, hz]
    · rw [hz] at hs
      cases hs

/-! ## Parents -/

namespace Sys

variable {C : Type} [DecidableEq C] {s t : Sys C} {c : C} {p k : ProcId}

/-- Every process has a parent that lives, and nobody sleeps in `wait` in vain. -/
structure ParentInv (s : Sys C) : Prop where
  init : (s.proc initproc).state.alive = true
  root : (s.proc initproc).parent = none
  parent : ∀ k, k ≠ initproc → (s.proc k).state ≠ .unused → (s.proc k).state ≠ .embryo →
    ∃ q, (s.proc k).parent = some q ∧ (s.proc q).state.alive = true
  self : ∀ k, (s.proc k).parent ≠ some k
  link : ∀ p np, (s.pc p).links = some np → (s.proc np).parent = some p
  wait : ∀ i, (s.proc i).WaitsAs i → ∀ z, (s.proc z).state = .zombie → (s.proc z).parent ≠ some i

theorem Keeps.alive {b : Proc} (h : s.Keeps k b) (hk : (s.proc k).state.alive = true) :
    b.state.alive = true := by
  rcases h.state with hs | ⟨-, hb⟩
  · rw [hs, hk]
  · exact hb

/-- A process that has been started had been. -/
theorem Keeps.started {b : Proc} (h : s.Keeps k b) (hb : b.state ≠ .unused)
    (hb' : b.state ≠ .embryo) : (s.proc k).state ≠ .unused ∧ (s.proc k).state ≠ .embryo := by
  rcases h.state with hs | ⟨ha, -⟩
  · exact ⟨hs ▸ hb, hs ▸ hb'⟩
  · constructor <;> intro he <;> rw [he] at ha <;> cases ha

/-- `k` has a parent, and sleeps in `wait` only if it must. -/
theorem ParentInv.keeps (h : s.ParentInv) {b : Proc} (hk : s.Keeps k b) {u : Table}
    (hu : u k = b) (halive : ∀ q, (s.proc q).state.alive = true → (u q).state.alive = true)
    (hzombie : ∀ z, (u z).state = .zombie →
      (s.proc z).state = .zombie ∧ (u z).parent = (s.proc z).parent) :
    (k ≠ initproc → (u k).state ≠ .unused → (u k).state ≠ .embryo →
      ∃ q, (u k).parent = some q ∧ (u q).state.alive = true) ∧
    ((u k).WaitsAs k → ∀ z, (u z).state = .zombie → (u z).parent ≠ some k) := by
  subst hu
  refine ⟨fun hne hst hst' => ?_, fun hw z hz => ?_⟩
  · obtain ⟨h1, h2⟩ := hk.started hst hst'
    obtain ⟨q, hq, hqa⟩ := h.parent k hne h1 h2
    exact ⟨q, hk.parent.trans hq, halive q hqa⟩
  · obtain ⟨hz', hp⟩ := hzombie z hz
    rw [hp]
    rcases hk.sleep hw.1 hw.2 with hs | hs
    · exact h.wait k hs z hz'
    · exact hs z hz'

/-- A step in which every process but `np` goes on, and `np` is not alive before and no
zombie after. -/
theorem ParentInv.frame (h : s.ParentInv) {np : ProcId}
    (hslot : ∀ k, k ≠ np → s.Keeps k (t.proc k)) (hold : (s.proc np).state.alive = false)
    (hnew : (t.proc np).state ≠ .zombie)
    (hstart : (t.proc np).state ≠ .unused → (t.proc np).state ≠ .embryo →
      ∃ q, (t.proc np).parent = some q ∧ (s.proc q).state.alive = true)
    (hawake : (t.proc np).state ≠ .sleeping) (hself : (t.proc np).parent ≠ some np)
    (hlink : ∀ p j, (t.pc p).links = some j → (t.proc j).parent = some p) : t.ParentInv := by
  have hne : ∀ k, (s.proc k).state.alive = true → k ≠ np := by
    rintro k hk rfl
    rw [hold] at hk
    cases hk
  have halive : ∀ q, (s.proc q).state.alive = true → (t.proc q).state.alive = true := fun q hq =>
    (hslot q (hne q hq)).alive hq
  have hzombie : ∀ z, (t.proc z).state = .zombie →
      (s.proc z).state = .zombie ∧ (t.proc z).parent = (s.proc z).parent := by
    intro z hz
    have hzn : z ≠ np := by
      rintro rfl
      exact hnew hz
    exact ⟨((hslot z hzn).carries.zombie hz).1, (hslot z hzn).parent⟩
  have hinit : initproc ≠ np := hne _ h.init
  refine ⟨halive _ h.init, (hslot _ hinit).parent.trans h.root, fun k hk hst hst' => ?_,
    fun k => ?_, hlink, fun k hw => ?_⟩
  · by_cases hkn : k = np
    · subst hkn
      obtain ⟨q, hq, hqa⟩ := hstart hst hst'
      exact ⟨q, hq, halive q hqa⟩
    · exact (h.keeps (hslot k hkn) rfl halive hzombie).1 hk hst hst'
  · by_cases hkn : k = np
    · exact hkn ▸ hself
    · rw [(hslot k hkn).parent]
      exact h.self k
  · by_cases hkn : k = np
    · exact absurd (hkn ▸ hw.1) hawake
    · exact (h.keeps (hslot k hkn) rfl halive hzombie).2 hw

/-- A step in which every process goes on. -/
theorem ParentInv.quiet (h : s.ParentInv) (hslot : ∀ k, s.Keeps k (t.proc k))
    (hlink : ∀ q, (t.pc q).links = (s.pc q).links) : t.ParentInv := by
  have halive : ∀ q, (s.proc q).state.alive = true → (t.proc q).state.alive = true := fun q =>
    (hslot q).alive
  have hzombie : ∀ z, (t.proc z).state = .zombie →
      (s.proc z).state = .zombie ∧ (t.proc z).parent = (s.proc z).parent := fun z hz =>
    ⟨((hslot z).carries.zombie hz).1, (hslot z).parent⟩
  refine ⟨halive _ h.init, (hslot _).parent.trans h.root,
    fun k => (h.keeps (hslot k) rfl halive hzombie).1, fun k => ?_, fun p np hp => ?_,
    fun k => (h.keeps (hslot k) rfl halive hzombie).2⟩
  · rw [(hslot k).parent]
    exact h.self k
  · rw [(hslot np).parent]
    exact h.link p np (hlink p ▸ hp)

/-- A process other than `init` exits. -/
theorem ParentInv.exit (h : s.ParentInv) (ht : t.proc = exitTable p s.proc)
    (hrun : (s.proc p).state = .running) (hp : p ≠ initproc) (hno : (s.pc p).links = none)
    (hlink : ∀ q, (t.pc q).links = (s.pc q).links) : t.ParentInv := by
  have hself : (t.proc p).state = .zombie := by
    rw [ht]
    exact exitTable_self p s.proc
  have hw : ∀ k, k ≠ p → Woken (s.proc k) (t.proc k) := fun k hk => by
    rw [ht]
    exact woken_exitTable hk s.proc
  have hpar : ∀ k, (t.proc k).parent =
      if (s.proc k).parent = some p then some initproc else (s.proc k).parent := fun k => by
    rw [ht]
    exact exitTable_parent hp s.proc k
  have halive : ∀ q, q ≠ p → (s.proc q).state.alive = true → (t.proc q).state.alive = true :=
    fun q hq ha => by rw [(hw q hq).alive_eq, ha]
  have hinit := halive initproc hp.symm h.init
  refine ⟨hinit, ?_, fun k hk hst hst' => ?_, fun k => ?_, fun q np hq => ?_, fun i hi z hz => ?_⟩
  · rw [hpar, h.root]
    rfl
  · have hs : (s.proc k).state ≠ .unused ∧ (s.proc k).state ≠ .embryo := by
      by_cases hkp : k = p
      · rw [hkp, hrun]
        decide
      · exact (hw k hkp).started hst hst'
    obtain ⟨q, hq, hqa⟩ := h.parent k hk hs.1 hs.2
    rw [hpar, hq]
    by_cases hqp : q = p
    · exact ⟨initproc, by rw [if_pos (by rw [hqp])], hinit⟩
    · exact ⟨q, by rw [if_neg fun he => hqp (some.inj he)], halive q hqp hqa⟩
  · rw [hpar]
    split_ifs with hk
    · intro he
      rw [← some.inj he, h.root] at hk
      cases hk
    · exact h.self k
  · rw [hlink] at hq
    have hqp : q ≠ p := by
      rintro rfl
      rw [hno] at hq
      cases hq
    have hnp := h.link q np hq
    rw [hpar, hnp, if_neg fun he => hqp (some.inj he)]
  · have hip : i ≠ p := by
      rintro rfl
      rw [hi.1] at hself
      cases hself
    rw [hpar]
    by_cases hzp : z = p
    · -- the parent of the process that exits has been woken
      subst hzp
      rw [if_neg (h.self z)]
      intro hzi
      rw [ht] at hi
      exact exitTable_wakes_parent hip hzi hi
    · have hz' : (s.proc z).state = .zombie := by
        rcases (hw z hzp).state with hs | ⟨-, hs⟩
        · rw [← hs, hz]
        · rw [hz] at hs
          cases hs
      split_ifs with hzpar
      · -- the child has been passed to `init`
        intro he
        obtain rfl := some.inj he
        rw [ht] at hi
        exact exitTable_wakes_init hip hzpar hz' hi
      · exact h.wait i ((hw i hip).waitsAs hi) z hz'

theorem ParentInv.step (h : s.ParentInv) (hr : s.RunInv) (ht : Change s t) : t.ParentInv := by
  cases ht with
  | quiet hist slot link => exact h.quiet slot link
  | child p np hist slot run old new parent frees link =>
    have hpn : p ≠ np := by
      rintro rfl
      rw [run] at old
      cases old
    refine h.frame slot (by rw [old]; rfl) ?_ (fun h1 h2 => ?_) ?_ ?_ fun q j hj => ?_
    · rcases new with hn | hn | ⟨hn, -⟩ <;> rw [hn] <;> decide
    · have hl : (s.pc p).links = some np := by
        rcases new with hn | hn | ⟨-, hn⟩
        · exact absurd hn h2
        · exact absurd hn h1
        · exact hn
      refine ⟨p, ?_, by rw [run]; rfl⟩
      rcases parent with hpar | ⟨hpar, -⟩
      · rw [hpar, h.link p np hl]
      · exact hpar
    · rcases new with hn | hn | ⟨hn, -⟩ <;> rw [hn] <;> decide
    · rcases parent with hpar | ⟨hpar, -⟩
      · rw [hpar]
        exact h.self np
      · rw [hpar]
        exact fun he => hpn (some.inj he)
    · rcases link q j hj with ⟨hj', hne⟩ | ⟨rfl, hpar⟩
      · rw [(slot j hne).parent]
        exact h.link q j hj'
      · exact hpar
  | alloc np slot old new parent frees nextBirth birth exits reaps link =>
    refine h.frame slot (by rw [old]; rfl) (by rw [new]; decide) (fun _ h2 => absurd new h2)
      (by rw [new]; decide) (by rw [parent]; exact h.self np) fun q j hj => ?_
    have hj' := h.link q j (link q ▸ hj)
    by_cases hjn : j = np
    · subst hjn
      rw [parent, hj']
    · rw [(slot j hjn).parent, hj']
  | exit p table run init nextBirth birth exits reaps nolink link =>
    exact h.exit table run init nolink link
  | reap c p z slot run lock old parent new nextBirth birth exits reaps link =>
    refine h.frame slot (by rw [old]; rfl) (by rw [new]; simp [freeSlot])
      (fun h1 _ => absurd (by rw [new]; rfl) h1) (by rw [new]; simp [freeSlot])
      (by rw [new]; simp [freeSlot]) fun q j hj => ?_
    rw [link] at hj
    have hjz : j ≠ z := by
      rintro rfl
      have := (hr.fork q j (child_of_links hj)).2
      rw [old] at this
      cases this
    rw [(slot j hjz).parent]
    exact h.link q j hj

theorem parentInv_boot : (boot : Sys C).ParentInv where
  init := by simp [boot, ProcState.alive]
  root := by simp [boot]
  parent k hk hst := by simp [boot, update_of_ne hk] at hst
  self k := by
    by_cases hk : k = initproc
    · simp [boot, hk]
    · simp [boot, update_of_ne hk]
  link p np h := by
    by_cases hp : p = initproc
    · simp [boot, hp, Pc.links] at h
    · simp [boot, update_of_ne hp, Pc.links] at h
  wait i hi := by
    have := hi.1
    by_cases hk : i = initproc
    · simp [boot, hk] at this
    · simp [boot, update_of_ne hk] at this

theorem parentInv_run {acts : List (Act C)} (h : exec step boot acts = some s) : s.ParentInv := by
  refine (exec_invariant_all (fun s : Sys C => s.RunInv ∧ s.ParentInv) ?_
    ⟨runInv_boot, parentInv_boot⟩ h).2
  rintro s a t ⟨hr, hp⟩ ht
  exact ⟨hr.step ht, hp.step hr (step_change hr ht)⟩

/-- In every state that is reached : every process but `init` has a parent that has not
exited, nobody sleeps in `wait` with a child to reap, and every process exits at most once
and is reaped at most once, after it exited, by a `wait` that returns its pid. The step that
reaps it is one of its parent and leaves its slot unused. -/
theorem exit_wait {acts : List (Act C)} (h : exec step boot acts = some s) :
    (∀ k, k ≠ initproc → (s.proc k).state ≠ .unused → (s.proc k).state ≠ .embryo →
      ∃ q, (s.proc k).parent = some q ∧ (s.proc q).state ≠ .unused ∧ (s.proc q).state ≠ .zombie) ∧
    (∀ i z, (s.proc i).state = .sleeping → (s.proc i).chan = some (.proc i) →
      (s.proc z).state = .zombie → (s.proc z).parent ≠ some i) ∧
    (s.exits.map Prod.fst).Nodup ∧ (s.reaps.map Reap.birth).Nodup ∧
    (∀ r ∈ s.reaps, (r.birth, r.pid) ∈ s.exits) ∧
    ∀ a t, s.step a = some t → t.reaps = s.reaps ∨
      ∃ c p z, (s.cpu c).ctl = .run p ∧ (s.proc z).parent = some p ∧
        (s.proc z).state = .zombie ∧ (t.proc z).state = .unused ∧
        t.reaps = s.reaps ++ [⟨s.birth z, p, z, (s.proc z).pid⟩] := by
  obtain ⟨hrun, hhist⟩ := inv_run h
  have hpar := parentInv_run h
  refine ⟨fun k hk hst hst' => ?_, fun i z hi hc hz => hpar.wait i ⟨hi, hc⟩ z hz, hhist.exitOnce,
    hhist.reapOnce, hhist.reaped, fun a t ht => ?_⟩
  · obtain ⟨q, hq, ha⟩ := hpar.parent k hk hst hst'
    refine ⟨q, hq, ?_, ?_⟩ <;> intro he <;> rw [he] at ha <;> cases ha
  · cases step_change hrun ht with
    | quiet hist => exact Or.inl hist.reaps
    | child p np hist => exact Or.inl hist.reaps
    | alloc np slot old new parent frees nextBirth birth exits reaps => exact Or.inl reaps
    | exit p table run init nextBirth birth exits reaps => exact Or.inl reaps
    | reap c p z slot run lock old parent new nextBirth birth exits reaps =>
      exact Or.inr ⟨c, p, z, run, parent, old, by rw [new]; rfl, reaps⟩

/-- The child of `init` is reaped, with pid 2, and by nobody else. -/
theorem exit_wait_reap : ∃ s : Sys Unit, exec step boot (reapRun ++ [.resume ()]) = some s ∧
    s.reaps.map Reap.pid = [2] ∧ (s.reaps.map Reap.birth).Nodup := by
  have h : (exec step boot (reapRun ++ [.resume ()])).map (fun s => s.reaps.map Reap.pid) =
      some [2] := by
    decide +kernel
  obtain ⟨s, hs, he⟩ := map_eq_some_iff.1 h
  exact ⟨s, hs, he, (exit_wait hs).2.2.2.1⟩

end Sys

end Xv6.Ptable
