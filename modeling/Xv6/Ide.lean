import Xv6.Monitor
import Xv6.Linked
import Xv6.Param
import Mathlib.Data.Fintype.Basic

/-!
# The disk queue

`iderw` and `ideintr` of `ide.c`, as a monitor under `idelock`, for any number of processes and
buffers. The queue is threaded through the buffers, and the loop of `iderw` that looks for its
end is a loop here. A buffer that `iderw` is called with has the fields its caller has given it;
the sectors themselves are left out.

The queue has a history that no step reads : the requests in the order of their arrival, the
commands given to the disk, the requests completed, and the number of interrupts. A request is
known by its place among the arrivals. `disk_queue` says that the disk works on the head of the
queue and that requests are completed in the order of their arrival, before `iderw` returns,
if every interrupt answers a command and no buffer is used by two calls of `iderw` at a time.
-/

set_option linter.unusedSectionVars false

namespace Xv6.Ide

open Function Monitor List Option

/-- The fields of `struct buf` that the driver reads. -/
structure Fields where
  dev : ℕ
  blockno : ℕ
  /-- `B_VALID`. -/
  valid : Bool
  /-- `B_DIRTY`. -/
  dirty : Bool
deriving DecidableEq

/-- The queue and the fields of the buffers, with the history. -/
structure Data (B : Type*) where
  idequeue : Option B
  qnext : B → Option B
  buf : B → Fields
  /-- The requests in the order of their arrival. -/
  arrived : List B
  /-- The commands given to the disk. -/
  started : List B
  completed : List B
  /-- The number of interrupts. -/
  interrupts : ℕ

variable {P B : Type*} [DecidableEq P] [DecidableEq B]
variable {pp : Option B}

/-- The start : no request yet. -/
def init : Data B := ⟨none, fun _ => none, fun _ => ⟨0, 0, false, false⟩, [], [], [], 0⟩

/-- `(b->flags & (B_VALID|B_DIRTY)) == B_VALID`. -/
def Fields.done (x : Fields) : Bool := x.valid && !x.dirty

/-- Where a process or an interrupt handler is. -/
inductive Loc (B : Type*) where
  | out
  /-- `iderw`, called with a buffer that has these fields. -/
  | rwEnter (b : B) (x : Fields)
  | rwQueue (b : B) (x : Fields)
  /-- The loop that looks for the end of the queue; `pp` is `&idequeue`, or `&c->qnext`. -/
  | rwFind (b : B) (pp : Option B)
  /-- The loop that waits for the request, the `k`-th to arrive. -/
  | rwTest (b : B) (k : ℕ)
  | rwDoze (b : B) (k : ℕ)
  | rwRet (b : B) (k : ℕ)
  /-- `ideintr`. -/
  | intrEnter
  | intr
  | intrWake (b : B)
  | intrNext
  | intrRet
  /-- `panic` with `idelock` held. -/
  | panic
deriving DecidableEq

variable {l n : Loc B} {s : State P (Data B) (Loc B) B}

/-- `idestart`, for a buffer at the head of the queue. -/
def idestart (b : B) (next : Loc B) (d : Data B) : Data B × Loc B :=
  if FSSIZE ≤ (d.buf b).blockno then (d, .panic)
  else ({ d with started := d.started ++ [b] }, next)

/-- `b->qnext = 0`, at the start of the section of `iderw`. -/
def rwQueue (b : B) (x : Fields) (d : Data B) : Data B × Loc B :=
  ({ d with buf := update d.buf b x, qnext := update d.qnext b none }, .rwFind b none)

/-- `*pp = b`. -/
def setPtr (pp : Option B) (b : B) (d : Data B) : Data B :=
  match pp with
  | none => { d with idequeue := some b }
  | some c => { d with qnext := update d.qnext c (some b) }

/-- The request is in the queue. The disk is started if there is no other. -/
def rwStart (b : B) (d : Data B) : Data B × Loc B :=
  let k := d.arrived.length
  let d := { d with arrived := d.arrived ++ [b] }
  if d.idequeue = some b then idestart b (.rwTest b k) d else (d, .rwTest b k)

/-- `*pp`. -/
def ptr (pp : Option B) (d : Data B) : Option B :=
  match pp with
  | none => d.idequeue
  | some c => d.qnext c

/-- A pass of the loop that looks for the end of the queue. -/
def rwFind (b : B) (pp : Option B) (d : Data B) : Data B × Loc B :=
  match ptr pp d with
  | some c => (d, .rwFind b (some c))
  | none => rwStart b (setPtr pp b d)

/-- A pass of the loop that waits for the request. -/
def rwTest (b : B) (k : ℕ) (d : Data B) : Data B × Loc B :=
  if (d.buf b).done then (d, .rwRet b k) else (d, .rwDoze b k)

/-- `ideintr` up to `wakeup`. -/
def intr (d : Data B) : Data B × Loc B :=
  let d := { d with interrupts := d.interrupts + 1 }
  match d.idequeue with
  | none => (d, .intrRet)
  | some b =>
    ({ d with
      idequeue := d.qnext b
      buf := update d.buf b { d.buf b with valid := true, dirty := false }
      completed := d.completed ++ [b] }, .intrWake b)

/-- `ideintr` starts the disk on the next buffer in the queue. -/
def intrNext (d : Data B) : Data B × Loc B :=
  match d.idequeue with
  | none => (d, .intrRet)
  | some b => idestart b .intrRet d

/-- `iderw` panics before it takes the lock. -/
def Fields.refused (havedisk1 : Bool) (x : Fields) : Bool :=
  x.done || (x.dev ≠ 0 && !havedisk1)

variable (havedisk1 : Bool)

/-- The code of the two functions. Processes sleep on their buffers. -/
def code : Loc B → Instr P (Data B) (Loc B) B
  | .out => .idle
  | .rwEnter b x => if x.refused havedisk1 then .idle else .acquire (.rwQueue b x)
  | .rwQueue b x => .act fun _ _ d => rwQueue b x d
  | .rwFind b pp => .act fun _ _ d => rwFind b pp d
  | .rwTest b k => .act fun _ _ d => rwTest b k d
  | .rwDoze b k => .sleep b (.rwTest b k)
  | .rwRet _ _ => .release .out
  | .intrEnter => .acquire .intr
  | .intr => .act fun _ _ d => intr d
  | .intrWake b => .wakeup b .intrNext
  | .intrNext => .act fun _ _ d => intrNext d
  | .intrRet => .release .out
  | .panic => .act fun _ _ d => (d, .panic)

/-- Anything can be called at any time. -/
def calls : Loc B → Loc B → Bool
  | .out, .rwEnter _ _ => true
  | .out, .intrEnter => true
  | _, _ => false

variable (P B) in
/-- The driver. -/
def ide : Monitor P (Data B) (Loc B) B := ⟨code havedisk1, calls⟩

namespace Loc

/-- The buffer that a call of `iderw` is about. -/
def buf : Loc B → Option B
  | rwEnter b _ => some b
  | rwQueue b _ => some b
  | rwFind b _ => some b
  | rwTest b _ => some b
  | rwDoze b _ => some b
  | rwRet b _ => some b
  | _ => none

/-- The request that a call of `iderw` has queued. -/
def request : Loc B → Option (B × ℕ)
  | rwTest b k => some (b, k)
  | rwDoze b k => some (b, k)
  | rwRet b k => some (b, k)
  | _ => none

end Loc

/-- `iderw` is called with a buffer that no other call uses, as its lock ensures, and an
interrupt comes for every command. -/
def Proper (s : State P (Data B) (Loc B) B) : Act P (Loc B) → Prop
  | .call _ l => ∀ b ∈ l.buf, ∀ q, (s.loc q).buf ≠ some b
  | .run p => s.mode p = .awake → s.loc p = .intr → s.data.interrupts < s.data.started.length
  | .kill _ => True

/-! ## The calls in progress -/

/-- The queue `q` and the calls in progress. -/
structure Calls (d : Data B) (loc : P → Loc B) (q : List B) : Prop where
  chain : Chain d.qnext d.idequeue q
  arrived : d.arrived = d.completed ++ q
  interrupts : d.interrupts = d.completed.length
  /-- No two calls use one buffer. -/
  distinct : ∀ p p' b, (loc p).buf = some b → (loc p').buf = some b → p = p'
  /-- A request is done exactly if it is completed. -/
  request : ∀ p b k, (loc p).request = some (b, k) → d.arrived[k]? = some b ∧
    (k < d.completed.length ↔ (d.buf b).done = true)
  /-- Every request in the queue has a call that waits for it. -/
  pending : ∀ k b, d.completed.length ≤ k → d.arrived[k]? = some b →
    ∃ p, (loc p).request = some (b, k)
  ret : ∀ p b k, loc p = .rwRet b k → (d.buf b).done = true
  /-- There is something to do when `iderw` has taken the lock. -/
  todo : ∀ p b x, loc p = .rwQueue b x → x.done = false
  /-- A request that looks for its place ends the queue. -/
  fresh : ∀ p b pp, loc p = .rwFind b pp → d.qnext b = none ∧ (d.buf b).done = false

/-- The commands given to the disk, where the holder of the lock is. -/
def Phase (d : Data B) (q : List B) : Option (Loc B) → Prop
  | some (.rwFind _ pp) => d.started = d.completed ++ q.take 1 ∧ ∀ c, pp = some c → c ∈ q
  | some (.intrWake _) => d.started = d.completed
  | some .intrNext => d.started = d.completed
  | _ => d.started = d.completed ++ q.take 1

theorem request_buf {b : B} {k : ℕ} (h : l.request = some (b, k)) :
    l.buf = some b := by
  cases l <;> simp [Loc.request] at h <;> obtain ⟨rfl, rfl⟩ := h <;> rfl

namespace Calls

variable {d d' : Data B} {loc : P → Loc B} {q q' : List B} {p : P} {b : B}

section

variable (h : Calls d loc q)

include h

/-- The place of the `i`-th request of the queue among the arrivals. -/
theorem getElem?_arrived {i : ℕ} (hi : i < q.length) :
    d.arrived[d.completed.length + i]? = some q[i] := by
  rw [h.arrived, List.getElem?_append_right (by omega), Nat.add_sub_cancel_left,
    List.getElem?_eq_getElem hi]

/-- A buffer whose call has not queued it yet is not in the queue. -/
theorem notMem (hb : (loc p).buf = some b) (hr : (loc p).request = none) :
    b ∉ q := by
  intro hm
  obtain ⟨i, hi, rfl⟩ := getElem_of_mem hm
  obtain ⟨p', hp'⟩ := h.pending _ _ (by omega) (h.getElem?_arrived hi)
  obtain rfl := h.distinct p p' _ hb (request_buf hp')
  rw [hr] at hp'
  cases hp'

/-- The queue has no duplicates. -/
theorem nodup : q.Nodup := by
  rw [nodup_iff_injective_getElem]
  rintro ⟨i, hi⟩ ⟨j, hj⟩ he
  obtain ⟨p, hp⟩ := h.pending _ _ (by omega) (h.getElem?_arrived hi)
  obtain ⟨p', hp'⟩ := h.pending _ _ (by omega) (h.getElem?_arrived hj)
  simp only at he
  rw [he] at hp
  obtain rfl := h.distinct p p' _ (request_buf hp) (request_buf hp')
  rw [hp] at hp'
  simp only [some.injEq, Prod.mk.injEq, true_and] at hp'
  exact Fin.ext (add_left_cancel hp')

/-- A call goes on. -/
theorem move (hb : ∀ b, l.buf = some b → (loc p).buf = some b ∨ ∀ p', (loc p').buf ≠ some b)
    (hr : l.request = (loc p).request ∨ l.request = none ∧ ∀ b k, (loc p).request = some (b, k) →
      k < d.completed.length)
    (hret : ∀ b k, l = .rwRet b k → (d.buf b).done = true)
    (htodo : ∀ b x, l = .rwQueue b x → x.done = false)
    (hfresh : ∀ b pp, l = .rwFind b pp → d.qnext b = none ∧ (d.buf b).done = false) :
    Calls d (update loc p l) q := by
  have hown : ∀ i b, (update loc p l i).buf = some b →
      (loc i).buf = some b ∨ i = p ∧ ∀ j, (loc j).buf ≠ some b := fun i =>
    update_cases i (fun b hl => (hb b hl).imp id fun hb => ⟨rfl, hb⟩) fun _ _ => Or.inl
  refine ⟨h.chain, h.arrived, h.interrupts, fun i j b hi hj => ?_, ?_, fun k b hk hkb => ?_,
    fun i => update_cases i hret fun _ => h.ret i,
    fun i => update_cases i htodo fun _ => h.todo i,
    fun i => update_cases i hfresh fun _ => h.fresh i⟩
  · rcases hown i b hi with hi | ⟨hip, hi⟩ <;> rcases hown j b hj with hj | ⟨hjp, hj⟩
    · exact h.distinct i j b hi hj
    · exact absurd hi (hj i)
    · exact absurd hj (hi j)
    · rw [hip, hjp]
  · refine fun i => update_cases i (fun b k hl => ?_) fun _ => h.request i
    rcases hr with hr | ⟨hr, -⟩
    · exact h.request p b k (hr ▸ hl)
    · rw [hr] at hl
      cases hl
  · obtain ⟨i, hi⟩ := h.pending k b hk hkb
    refine ⟨i, ?_⟩
    by_cases hip : i = p
    · rw [hip] at hi ⊢
      rw [update_self]
      rcases hr with hr | ⟨-, hr⟩
      · exact hr.trans hi
      · exact absurd (hr b k hi) (by omega)
    · rw [update_of_ne hip]
      exact hi

/-- A call goes on with the same buffer and request. -/
theorem go (hb : l.buf = (loc p).buf) (hr : l.request = (loc p).request)
    (hret : ∀ b k, l ≠ .rwRet b k) (htodo : ∀ b x, l ≠ .rwQueue b x)
    (hfresh : ∀ b pp, l ≠ .rwFind b pp) :
    Calls d (update loc p l) q :=
  h.move (fun _ hl => Or.inl (hb ▸ hl)) (Or.inl hr) (fun b k hl => absurd hl (hret b k))
    (fun b x hl => absurd hl (htodo b x)) fun b pp hl => absurd hl (hfresh b pp)

/-- The buffer of another call is another buffer. -/
theorem ne_of_ne (hb : (loc p).buf = some b) {p' : P} (hp : p' ≠ p) {b' : B}
    (hb' : (loc p').buf = some b') : b' ≠ b := by
  rintro rfl
  exact hp (h.distinct p' p b' hb' hb)

/-- `iderw` takes its buffer. -/
theorem rwQueue {x : Fields} (hl : loc p = .rwQueue b x) :
    Calls (Ide.rwQueue b x d).1 (update loc p (Ide.rwQueue b x d).2) q := by
  have hbuf : (loc p).buf = some b := by rw [hl]; rfl
  have hreq : (loc p).request = none := by rw [hl]; rfl
  have hx := h.todo p b x hl
  have hother : ∀ {p' : P} {b' : B}, p' ≠ p → (loc p').buf = some b' →
      update d.buf b x b' = d.buf b' := fun hp hb' => update_of_ne (h.ne_of_ne hbuf hp hb') _ _
  have hcalls : Calls { d with buf := update d.buf b x, qnext := update d.qnext b none } loc q := by
    refine ⟨h.chain.update_of_notMem (h.notMem hbuf hreq) none, h.arrived, h.interrupts, h.distinct,
      ?_, h.pending, ?_, h.todo, ?_⟩
    · intro i b' k hi
      have hip : i ≠ p := by
        rintro rfl
        rw [hreq] at hi
        cases hi
      simp only [hother hip (request_buf hi)]
      exact h.request i b' k hi
    · intro i b' k hi
      have hip : i ≠ p := by
        rintro rfl
        rw [hl] at hi
        cases hi
      simp only [hother hip (by rw [hi]; rfl)]
      exact h.ret i b' k hi
    · intro i b' pp hi
      have hip : i ≠ p := by
        rintro rfl
        rw [hl] at hi
        cases hi
      have hbi : (loc i).buf = some b' := by rw [hi]; rfl
      simp only [hother hip hbi, update_of_ne (h.ne_of_ne hbuf hip hbi)]
      exact h.fresh i b' pp hi
  refine hcalls.move (fun b' hb' => Or.inl ?_) (Or.inl hreq.symm) ?_ ?_ ?_
  · rw [hbuf]
    exact hb'
  · intro b' k he
    cases he
  · intro b' x' he
    cases he
  · intro b' pp he
    cases he
    simpa using hx

end

@[simp] theorem setPtr_buf (pp : Option B) : (setPtr pp b d).buf = d.buf := by
  cases pp <;> rfl

@[simp] theorem setPtr_arrived (pp : Option B) : (setPtr pp b d).arrived = d.arrived := by
  cases pp <;> rfl

@[simp] theorem setPtr_started (pp : Option B) : (setPtr pp b d).started = d.started := by
  cases pp <;> rfl

@[simp] theorem setPtr_completed (pp : Option B) : (setPtr pp b d).completed = d.completed := by
  cases pp <;> rfl

@[simp] theorem setPtr_interrupts (pp : Option B) :
    (setPtr pp b d).interrupts = d.interrupts := by
  cases pp <;> rfl

theorem chain_setPtr (hc : Chain d.qnext d.idequeue q) (hb : b ∉ q) (hn : d.qnext b = none)
    (hpp : ∀ c, pp = some c → c ∈ q) (hnull : ptr pp d = none) :
    Chain (setPtr pp b d).qnext (setPtr pp b d).idequeue (q ++ [b]) := by
  cases pp with
  | none =>
    obtain rfl := hc.eq_none_iff.1 hnull
    exact ⟨rfl, hn⟩
  | some c => exact hc.append hn (hpp c rfl) hnull hb

/-- `iderw` has found the end of the queue. -/
theorem enqueue (h : Calls d loc q) (hl : loc p = .rwFind b pp) (hpp : ∀ c, pp = some c → c ∈ q)
    (hnull : ptr pp d = none) :
    Calls { setPtr pp b d with arrived := d.arrived ++ [b] }
      (update loc p (.rwTest b d.arrived.length)) (q ++ [b]) := by
  have hbuf : (loc p).buf = some b := by rw [hl]; rfl
  have hreq : (loc p).request = none := by rw [hl]; rfl
  obtain ⟨hn, hdone⟩ := h.fresh p b pp hl
  have hlen : d.completed.length ≤ d.arrived.length := by
    rw [h.arrived]
    simp
  have hnew : (d.arrived ++ [b])[d.arrived.length]? = some b := by simp
  have hold : ∀ {k b'}, d.arrived[k]? = some b' → (d.arrived ++ [b])[k]? = some b' :=
    fun hk => by rw [List.getElem?_append_left (List.getElem?_eq_some_iff.1 hk).1, hk]
  refine ⟨chain_setPtr h.chain (h.notMem hbuf hreq) hn hpp hnull, ?_, ?_, ?_, ?_, ?_, ?_, ?_, ?_⟩
  · simp only [setPtr_completed, h.arrived, append_assoc]
  · simp only [setPtr_completed, setPtr_interrupts, h.interrupts]
  · intro i j b' hi hj
    have hp : ∀ i, (update loc p (.rwTest b d.arrived.length) i).buf = (loc i).buf := fun i =>
      update_cases i hbuf.symm fun _ => rfl
    rw [hp] at hi hj
    exact h.distinct i j b' hi hj
  · simp only [setPtr_completed, setPtr_buf]
    refine fun i => update_cases i (fun b' k hi => ?_) fun _ b' k hi => ?_
    · obtain ⟨rfl, rfl⟩ := Prod.mk.inj (some.inj hi)
      refine ⟨hnew, fun hlt => absurd hlt (by omega), fun hd => ?_⟩
      rw [hdone] at hd
      cases hd
    · obtain ⟨h1, h2⟩ := h.request i b' k hi
      exact ⟨hold h1, h2⟩
  · intro k b' hk hkb
    simp only [setPtr_completed] at hk
    rcases lt_or_ge k d.arrived.length with hlt | hge
    · rw [List.getElem?_append_left hlt] at hkb
      obtain ⟨i, hi⟩ := h.pending k b' hk hkb
      have hip : i ≠ p := by
        rintro rfl
        rw [hreq] at hi
        cases hi
      exact ⟨i, by rw [update_of_ne hip, hi]⟩
    · obtain rfl : k = d.arrived.length := by
        have := (List.getElem?_eq_some_iff.1 hkb).1
        simp at this
        omega
      simp only [hnew, some.injEq] at hkb
      exact ⟨p, by rw [update_self, hkb]; rfl⟩
  · simp only [setPtr_buf]
    exact fun i => update_cases i (by simp) fun _ => h.ret i
  · exact fun i => update_cases i (by simp) fun _ => h.todo i
  · refine fun i => update_cases i (by simp) fun _ b' pp' hi => ?_
    have hb' : b' ∉ q := h.notMem (p := i) (by rw [hi]; rfl) (by rw [hi]; rfl)
    obtain ⟨h1, h2⟩ := h.fresh i b' pp' hi
    simp only [setPtr_buf]
    refine ⟨?_, h2⟩
    cases pp with
    | none => exact h1
    | some c =>
      have hcb : b' ≠ c := by
        rintro rfl
        exact hb' (hpp b' rfl)
      simpa only [setPtr, update_of_ne hcb] using h1

/-- `ideintr` completes the request at the head of the queue. -/
theorem complete (h : Calls d loc (b :: q)) (hl : loc p = .intr) :
    Calls { d with
        interrupts := d.interrupts + 1
        idequeue := d.qnext b
        buf := update d.buf b { d.buf b with valid := true, dirty := false }
        completed := d.completed ++ [b] } (update loc p (.intrWake b)) q := by
  have hdone : (update d.buf b { d.buf b with valid := true, dirty := false } b).done = true := by
    simp [Fields.done]
  have hother : ∀ {b'}, b' ≠ b →
      update d.buf b { d.buf b with valid := true, dirty := false } b' = d.buf b' :=
    fun hb => update_of_ne hb _ _
  have hhead : d.arrived[d.completed.length]? = some b := h.getElem?_arrived (i := 0) (by simp)
  obtain ⟨p₀, hp₀⟩ := h.pending _ b le_rfl hhead
  have hcalls : Calls { d with
      interrupts := d.interrupts + 1
      idequeue := d.qnext b
      buf := update d.buf b { d.buf b with valid := true, dirty := false }
      completed := d.completed ++ [b] } loc q := by
    refine ⟨h.chain.2, ?_, ?_, h.distinct, ?_, ?_, ?_, h.todo, ?_⟩
    · simp [h.arrived]
    · simp [h.interrupts]
    · intro i b' k hi
      obtain ⟨h1, h2⟩ := h.request i b' k hi
      refine ⟨h1, ?_⟩
      simp only [length_append, length_singleton]
      by_cases hb' : b' = b
      · -- the only request for the buffer is the one at the head
        subst hb'
        obtain rfl := h.distinct i p₀ b' (request_buf hi) (request_buf hp₀)
        obtain ⟨-, rfl⟩ := Prod.mk.inj (some.inj (hi.symm.trans hp₀))
        simp only [hdone, iff_true]
        omega
      · rw [hother hb', ← h2]
        have hne : k ≠ d.completed.length := by
          rintro rfl
          exact hb' (some.inj (h1.symm.trans hhead))
        omega
    · intro k b' hk hkb
      simp only [length_append, length_singleton] at hk
      exact h.pending k b' (by omega) hkb
    · intro i b' k hi
      by_cases hb' : b' = b
      · rw [hb']
        exact hdone
      · simp only [hother hb']
        exact h.ret i b' k hi
    · intro i b' pp hi
      have hb' : b' ≠ b := by
        rintro rfl
        exact h.notMem (p := i) (by rw [hi]; rfl) (by rw [hi]; rfl) mem_cons_self
      simp only [hother hb']
      exact h.fresh i b' pp hi
  exact hcalls.go (by rw [hl]; rfl) (by rw [hl]; rfl) (by simp) (by simp) (by simp)

end Calls

/-! ## Runs -/

section Run

variable {havedisk1} {d : Data B} {loc : P → Loc B} {p : P}

theorem code_rwEnter {b : B} {x : Fields} (i : Instr P (Data B) (Loc B) B) :
    (ide P B havedisk1).code (.rwEnter b x) = i ↔
      x.refused havedisk1 = true ∧ i = .idle ∨
        x.refused havedisk1 = false ∧ i = .acquire (.rwQueue b x) := by
  simp only [ide, code]
  cases x.refused havedisk1 <;> simp [eq_comm]

theorem idestart_inside {b : B} (hl : (ide P B havedisk1).inside l = true) :
    (ide P B havedisk1).inside (idestart b l d).2 = true := by
  unfold idestart
  split_ifs
  · rfl
  · exact hl

theorem idestart_here {b : B} {d' : Data B} (hdoze : ∀ b' k, l ≠ .rwDoze b' k)
    (hqueue : ∀ b' x, l ≠ .rwQueue b' x) :
    (∀ b' k, (idestart b l d).2 = .rwDoze b' k → (d'.buf b').done = false) ∧
      ∀ b' x, (idestart b l d).2 = .rwQueue b' x → x.done = false := by
  unfold idestart
  split_ifs
  · simp
  · exact ⟨fun b' k he => absurd he (hdoze b' k), fun b' x he => absurd he (hqueue b' x)⟩

variable (P B havedisk1) in
/-- A process about to sleep has seen that its request is not done, and one that takes its buffer
has something to do. -/
def outline : Outline (ide P B havedisk1) where
  free _ := True
  here l d := (∀ b k, l = .rwDoze b k → (d.buf b).done = false) ∧
    ∀ b x, l = .rwQueue b x → x.done = false
  call {l n} h := by
    simp only [ide] at h
    unfold calls at h
    split at h
    · refine ⟨rfl, ?_⟩
      simp only [inside, ide, code]
      split_ifs <;> rfl
    · exact ⟨rfl, rfl⟩
    · cases h
  acquire {l n} h := by
    cases l with
    | rwEnter b x =>
      rcases (code_rwEnter _).1 h with ⟨-, h⟩ | ⟨hx, h⟩
      · cases h
      · cases h
        refine ⟨rfl, fun _ _ => ⟨by simp, fun b' x' he => ?_⟩⟩
        cases he
        exact (Bool.or_eq_false_iff.1 hx).1
    | intrEnter =>
      cases h
      exact ⟨rfl, by simp⟩
    | _ => cases h
  act {l f} h p killed d hd := by
    cases l with
    | rwEnter b x => rcases (code_rwEnter _).1 h with ⟨-, h⟩ | ⟨-, h⟩ <;> cases h
    | rwQueue b x =>
      cases h
      exact ⟨rfl, by simp [rwQueue]⟩
    | rwFind b pp =>
      cases h
      simp only [rwFind, rwStart]
      split
      · exact ⟨rfl, by simp⟩
      · split_ifs
        · exact ⟨idestart_inside rfl, idestart_here (by simp) (by simp)⟩
        · exact ⟨rfl, by simp⟩
    | rwTest b k =>
      cases h
      simp only [rwTest]
      split_ifs with hdone
      · exact ⟨rfl, by simp⟩
      · refine ⟨rfl, fun b' k' he => ?_, by simp⟩
        cases he
        simpa using hdone
    | intr =>
      cases h
      simp only [intr]
      split
      · exact ⟨rfl, by simp⟩
      · exact ⟨rfl, by simp⟩
    | intrNext =>
      cases h
      simp only [intrNext]
      split
      · exact ⟨rfl, by simp⟩
      · exact ⟨idestart_inside rfl, idestart_here (by simp) (by simp)⟩
    | panic =>
      cases h
      exact ⟨rfl, by simp⟩
    | _ => cases h
  wakeup {l c n} h := by
    cases l with
    | rwEnter b x => rcases (code_rwEnter _).1 h with ⟨-, h⟩ | ⟨-, h⟩ <;> cases h
    | intrWake b =>
      cases h
      exact ⟨rfl, by simp⟩
    | _ => cases h
  sleep {l c n} h := by
    cases l with
    | rwEnter b x => rcases (code_rwEnter _).1 h with ⟨-, h⟩ | ⟨-, h⟩ <;> cases h
    | rwDoze b k =>
      cases h
      exact ⟨rfl, fun _ _ => trivial, by simp⟩
    | _ => cases h
  release {l n} h := by
    cases l with
    | rwEnter b x => rcases (code_rwEnter _).1 h with ⟨-, h⟩ | ⟨-, h⟩ <;> cases h
    | rwRet b k | intrRet =>
      cases h
      exact ⟨rfl, fun _ _ => trivial⟩
    | _ => cases h

/-- Somebody has panicked with the lock, or the queue and the commands agree. -/
def Good (d : Data B) (loc : P → Loc B) (lk : Option P) : Prop :=
  (∃ p, lk = some p ∧ loc p = .panic) ∨ ∃ q, Calls d loc q ∧ Phase d q (lk.map loc)

theorem good_start : Good (init : Data B) (fun _ : P => .out) none := by
  refine Or.inr ⟨[], ⟨rfl, rfl, rfl, ?_, ?_, ?_, ?_, ?_, ?_⟩, rfl⟩
  · intro p p' b h
    cases h
  · intro p b k h
    cases h
  · intro k b _ h
    cases h
  · intro p b k h
    cases h
  · intro p b x h
    cases h
  · intro p b pp h
    cases h

theorem map_update_of_ne {lk : Option P} (h : lk ≠ some p) (l : Loc B) :
    lk.map (update loc p l) = lk.map loc := by
  cases lk with
  | none => rfl
  | some p' =>
    have hp : p' ≠ p := fun he => h (congrArg some he)
    simp [update_of_ne hp]

theorem calls_eq_true (h : (ide P B havedisk1).calls l n = true) :
    l = .out ∧ ((∃ b x, n = .rwEnter b x) ∨ n = .intrEnter) := by
  simp only [ide] at h
  unfold calls at h
  split at h
  · exact ⟨rfl, Or.inl ⟨_, _, rfl⟩⟩
  · exact ⟨rfl, Or.inr rfl⟩
  · cases h

/-- A process enters the driver. -/
theorem Good.call (hc : (ide P B havedisk1).calls (s.loc p) n = true) (hok : Proper s (.call p n))
    (hlk : s.lk ≠ some p) (h : Good s.data s.loc s.lk) : Good s.data (update s.loc p n) s.lk := by
  obtain ⟨hl, hn⟩ := calls_eq_true hc
  rcases h with ⟨p', hp', hpanic⟩ | ⟨q, hq, hph⟩
  · have hne : p' ≠ p := by
      rintro rfl
      exact hlk hp'
    exact Or.inl ⟨p', hp', by rw [update_of_ne hne, hpanic]⟩
  · refine Or.inr ⟨q, ?_, by rwa [map_update_of_ne hlk]⟩
    rcases hn with ⟨b, x, rfl⟩ | rfl
    · exact hq.move (fun b' hb' => Or.inr (hok b' hb')) (Or.inl (by rw [hl]; rfl)) (by simp)
        (by simp) (by simp)
    · exact hq.go (by rw [hl]; rfl) (by rw [hl]; rfl) (by simp) (by simp) (by simp)

theorem Good.acquire (hc : (ide P B havedisk1).code (loc p) = .acquire n) (h : Good d loc none) :
    Good d (update loc p n) (some p) := by
  obtain ⟨p', hp', -⟩ | ⟨q, hq, hph⟩ := h
  · cases hp'
  · refine Or.inr ⟨q, ?_⟩
    rw [map_some, update_self]
    cases hl : loc p with
    | rwEnter b x =>
      rw [hl] at hc
      rcases (code_rwEnter _).1 hc with ⟨-, he⟩ | ⟨hx, he⟩
      · cases he
      · cases he
        refine ⟨hq.move (fun b' hb' => Or.inl (by rw [hl]; exact hb')) (Or.inl (by rw [hl]; rfl))
          (by simp) (fun b' x' he => ?_) (by simp), hph⟩
        cases he
        simp only [Fields.refused, Bool.or_eq_false_iff] at hx
        exact hx.1
    | intrEnter =>
      rw [hl] at hc
      cases hc
      exact ⟨hq.go (by rw [hl]; rfl) (by rw [hl]; rfl) (by simp) (by simp) (by simp), hph⟩
    | _ =>
      rw [hl] at hc
      cases hc

theorem Good.go {c : B}
    (hc : (ide P B havedisk1).code (loc p) = .wakeup c n ∨
      (ide P B havedisk1).code (loc p) = .sleep c n)
    (h : Good d loc (some p)) :
    Good d (update loc p n) (some p) := by
  obtain ⟨p', hp', hpanic⟩ | ⟨q, hq, hph⟩ := h
  · obtain rfl := some.inj hp'
    rw [hpanic] at hc
    rcases hc with hc | hc <;> cases hc
  · refine Or.inr ⟨q, ?_⟩
    rw [map_some] at hph ⊢
    rw [update_self]
    cases hl : loc p with
    | rwEnter b x =>
      rw [hl, code_rwEnter, code_rwEnter] at hc
      simp at hc
    | intrWake b =>
      rw [hl] at hc hph
      rcases hc with hc | hc
      · cases hc
        exact ⟨hq.go (by rw [hl]; rfl) (by rw [hl]; rfl) (by simp) (by simp) (by simp), hph⟩
      · cases hc
    | rwDoze b k =>
      rw [hl] at hc hph
      rcases hc with hc | hc
      · cases hc
      · cases hc
        exact ⟨hq.go (by rw [hl]; rfl) (by rw [hl]; rfl) (by simp) (by simp) (by simp), hph⟩
    | _ =>
      rw [hl] at hc
      rcases hc with hc | hc <;> cases hc

theorem Good.release (hc : (ide P B havedisk1).code (loc p) = .release n)
    (h : Good d loc (some p)) :
    Good d (update loc p n) none := by
  obtain ⟨p', hp', hpanic⟩ | ⟨q, hq, hph⟩ := h
  · obtain rfl := some.inj hp'
    rw [hpanic] at hc
    cases hc
  · refine Or.inr ⟨q, ?_⟩
    rw [map_some] at hph
    cases hl : loc p with
    | rwEnter b x =>
      rw [hl, code_rwEnter] at hc
      simp at hc
    | rwRet b k =>
      rw [hl] at hc hph
      cases hc
      refine ⟨hq.move (by simp [Loc.buf]) (Or.inr ⟨rfl, fun b' k' he => ?_⟩) (by simp) (by simp)
        (by simp), hph⟩
      rw [hl] at he
      cases he
      exact (hq.request p b k (by rw [hl]; rfl)).2.2 (hq.ret p b k hl)
    | intrRet =>
      rw [hl] at hc hph
      cases hc
      exact ⟨hq.go (by rw [hl]; rfl) (by rw [hl]; rfl) (by simp) (by simp) (by simp), hph⟩
    | _ =>
      rw [hl] at hc
      cases hc

theorem Good.back {c : B} (hc : (ide P B havedisk1).code l = .sleep c (loc p)) :
    Good d loc (some p) ↔ Good d loc none := by
  obtain ⟨b, k, hl⟩ : ∃ b k, loc p = .rwTest b k := by
    cases l with
    | rwEnter b x =>
      rw [code_rwEnter] at hc
      simp at hc
    | rwDoze b k =>
      simp only [ide, code, Instr.sleep.injEq] at hc
      exact ⟨b, k, hc.2.symm⟩
    | _ => cases hc
  simp only [Good, map_some, map_none, hl, some.injEq]
  constructor
  · rintro (⟨p', rfl, hp'⟩ | h)
    · rw [hl] at hp'
      cases hp'
    · exact Or.inr h
  · rintro (⟨p', hp', -⟩ | h)
    · cases hp'
    · exact Or.inr h

/-- `idestart` on the head of the queue, which no command is for yet. -/
theorem Good.idestart {q : List B} {b : B} (hq : Calls d (update loc p l) (b :: q))
    (hst : d.started = d.completed)
    (hl : ∀ d q, Phase d q (some l) ↔ d.started = d.completed ++ q.take 1) :
    Good (Ide.idestart b l d).1 (update loc p (Ide.idestart b l d).2) (some p) := by
  unfold Ide.idestart
  split_ifs
  · exact Or.inl ⟨p, rfl, update_self _ _ _⟩
  · refine Or.inr ⟨b :: q, { hq with }, ?_⟩
    rw [map_some, update_self, hl]
    simp [hst]

/-- `iderw` has found the end of the queue. -/
theorem Good.rwStart {q : List B} {b : B} (hq : Calls d loc q) (hl : loc p = .rwFind b pp)
    (hst : d.started = d.completed ++ q.take 1) (hpp : ∀ c, pp = some c → c ∈ q)
    (hnull : ptr pp d = none) :
    Good (Ide.rwStart b (setPtr pp b d)).1
      (update loc p (Ide.rwStart b (setPtr pp b d)).2) (some p) := by
  have hnew := hq.enqueue hl hpp hnull
  have hb : b ∉ q := hq.notMem (p := p) (by rw [hl]; rfl) (by rw [hl]; rfl)
  simp only [Ide.rwStart, Calls.setPtr_arrived]
  cases q with
  | nil =>
    rw [if_pos hnew.chain.1]
    exact Good.idestart hnew (by simpa using hst) fun _ _ => Iff.rfl
  | cons c q =>
    have hcb : c ≠ b := fun he => hb (he ▸ mem_cons_self)
    have hne : (setPtr pp b d).idequeue ≠ some b := by
      rw [hnew.chain.1]
      simpa using hcb
    rw [if_neg hne]
    refine Or.inr ⟨_, hnew, ?_⟩
    simpa [Phase] using hst

/-- A section under `idelock`. -/
theorem Good.act {f : P → Bool → Data B → Data B × Loc B} (hm : s.mode p = .awake)
    (hc : (ide P B havedisk1).code (s.loc p) = .act f) (hok : Proper s (.run p))
    (h : Good s.data s.loc (some p)) :
    Good (f p (s.killed p) s.data).1 (update s.loc p (f p (s.killed p) s.data).2) (some p) := by
  obtain ⟨p', hp', hpanic⟩ | ⟨q, hq, hph⟩ := h
  · obtain rfl := some.inj hp'
    rw [hpanic] at hc
    cases hc
    exact Or.inl ⟨p, rfl, update_self _ _ _⟩
  rw [map_some] at hph
  cases hl : s.loc p with
  | rwEnter b x =>
    rw [hl] at hc
    rcases (code_rwEnter _).1 hc with ⟨-, h⟩ | ⟨-, h⟩ <;> cases h
  | rwQueue b x =>
    rw [hl] at hc hph
    cases hc
    refine Or.inr ⟨q, hq.rwQueue hl, ?_⟩
    rw [map_some, update_self]
    exact ⟨hph, by simp⟩
  | rwFind b pp =>
    rw [hl] at hc hph
    cases hc
    obtain ⟨hst, hpp⟩ := hph
    simp only [rwFind]
    cases hptr : ptr pp s.data with
    | none => exact Good.rwStart hq hl hst hpp hptr
    | some c =>
      refine Or.inr ⟨q, hq.move (fun b' hb' => Or.inl (by rw [hl]; exact hb'))
        (Or.inl (by rw [hl]; rfl)) (by simp) (by simp) (fun b' pp' he => ?_), ?_⟩
      · cases he
        exact hq.fresh p b pp hl
      · rw [map_some, update_self]
        refine ⟨hst, fun c' hc' => ?_⟩
        obtain rfl := some.inj hc'
        cases pp with
        | none =>
          have hchain := hq.chain
          rw [show s.data.idequeue = some c from hptr] at hchain
          obtain ⟨t, rfl, -⟩ := hchain.eq_some
          exact mem_cons_self
        | some c₀ => exact hq.chain.next_mem (hpp c₀ rfl) hptr
  | rwTest b k =>
    rw [hl] at hc hph
    cases hc
    simp only [rwTest]
    refine Or.inr ⟨q, ?_⟩
    rw [map_some]
    split_ifs with hdone
    · refine ⟨hq.move (fun b' hb' => Or.inl (by rw [hl]; exact hb')) (Or.inl (by rw [hl]; rfl))
        (fun b' k' he => ?_) (by simp) (by simp), by rw [update_self]; exact hph⟩
      cases he
      exact hdone
    · exact ⟨hq.go (by rw [hl]; rfl) (by rw [hl]; rfl) (by simp) (by simp) (by simp),
        by rw [update_self]; exact hph⟩
  | intr =>
    rw [hl] at hc hph
    cases hc
    simp only [intr]
    cases q with
    | nil =>
      -- an interrupt that answers no command
      have hlt := hok hm hl
      have hst : s.data.started = s.data.completed := by simpa [Phase] using hph
      rw [hq.interrupts, hst] at hlt
      exact absurd hlt (lt_irrefl _)
    | cons b q =>
      rw [hq.chain.1]
      refine Or.inr ⟨q, hq.complete hl, ?_⟩
      rw [map_some, update_self]
      simpa [Phase] using hph
  | intrNext =>
    rw [hl] at hc hph
    cases hc
    have hgo := hq.go (p := p) (l := .intrRet) (by rw [hl]; rfl) (by rw [hl]; rfl) (by simp)
      (by simp) (by simp)
    simp only [intrNext]
    cases q with
    | nil =>
      rw [hq.chain.eq_none_iff.2 rfl]
      refine Or.inr ⟨[], hgo, ?_⟩
      rw [map_some, update_self]
      simpa [Phase] using hph
    | cons b q =>
      rw [hq.chain.1]
      exact Good.idestart hgo hph fun _ _ => Iff.rfl
  | panic =>
    rw [hl] at hc
    cases hc
    exact Or.inl ⟨p, rfl, update_self _ _ _⟩
  | _ =>
    rw [hl] at hc
    cases hc

/-- The queue is in order in every run. -/
theorem good_run {acts : List (Act P (Loc B))}
    (ha : Along (ide P B havedisk1).step Proper (State.start init .out) acts)
    (h : exec (ide P B havedisk1).step (State.start init .out) acts = some s) :
    Good s.data s.loc s.lk :=
  (outline P B havedisk1).lock_run Good (fun _ _ _ => Good.call) (fun _ _ _ _ => Good.acquire)
    (fun _ _ _ => Good.act) (fun _ _ _ _ _ => Good.go) (fun _ _ _ _ => Good.release)
    (fun _ _ _ _ _ => Good.back) trivial rfl good_start ha h

theorem idestart_data {b : B} : (idestart b l d).1.buf = d.buf := by
  unfold idestart
  split_ifs <;> rfl

variable (P B havedisk1) in
/-- Processes sleep on a buffer until its request is done. `ideintr` owes them a `wakeup` from
then on. -/
def waits : (outline P B havedisk1).Waits where
  wait b d := (d.buf b).done = false
  owes b l := l = .intrWake b
  act {l f} h p killed d c hd hw := by
    have hkeep : ∀ {l' : Loc B} {d' : Data B}, d'.buf = d.buf → (∀ b, l ≠ .intrWake b) →
        (d'.buf c).done = false ∨ l' = .intrWake c := fun hbuf hl =>
      Or.inl (hbuf ▸ hw.resolve_right (hl c))
    cases l with
    | rwEnter b x => rcases (code_rwEnter _).1 h with ⟨-, h⟩ | ⟨-, h⟩ <;> cases h
    | rwQueue b x =>
      cases h
      have hx := hd.2 b x rfl
      have hw := hw.resolve_right (by simp)
      refine Or.inl ?_
      by_cases hcb : c = b
      · simpa [rwQueue, hcb] using hx
      · simpa [rwQueue, hcb] using hw
    | rwFind b pp =>
      cases h
      refine hkeep ?_ (by simp)
      simp only [rwFind, rwStart]
      split
      · rfl
      · split_ifs
        · rw [idestart_data]
          exact Calls.setPtr_buf pp
        · exact Calls.setPtr_buf pp
    | rwTest b k =>
      cases h
      refine hkeep ?_ (by simp)
      simp only [rwTest]
      split_ifs <;> rfl
    | intr =>
      cases h
      have hw := hw.resolve_right (by simp)
      simp only [intr]
      split
      · exact Or.inl hw
      · rename_i b _
        by_cases hcb : c = b
        · exact Or.inr (by rw [hcb])
        · exact Or.inl (by simpa [hcb] using hw)
    | intrNext =>
      cases h
      refine hkeep ?_ (by simp)
      simp only [intrNext]
      split
      · rfl
      · exact idestart_data
    | panic =>
      cases h
      exact hkeep rfl (by simp)
    | _ => cases h
  wakeup {l c n c'} h hne ho := by
    subst ho
    cases h
    exact absurd rfl hne
  sleep {l c n} h := by
    cases l with
    | rwEnter b x => rcases (code_rwEnter _).1 h with ⟨-, h⟩ | ⟨-, h⟩ <;> cases h
    | rwDoze b k =>
      cases h
      exact ⟨fun d hd => hd.1 c k rfl, by simp⟩
    | _ => cases h

/-- The lock is never released before the `wakeup`. -/
theorem along_pays (s : State P (Data B) (Loc B) B) (acts : List (Act P (Loc B))) :
    Along (ide P B havedisk1).step (waits P B havedisk1).Pays s acts := by
  refine along_true.mono fun s a _ => ?_
  cases a with
  | run p =>
    intro _ n hc c ho
    rw [show s.loc p = .intrWake c from ho] at hc
    cases hc
  | call p l => trivial
  | kill p => trivial

theorem Phase.started_cases {q : List B} {l : Option (Loc B)} (h : Phase d q l) :
    d.started = d.completed ∨ d.started = d.completed ++ q.take 1 := by
  unfold Phase at h
  split at h
  · exact Or.inr h.1
  · exact Or.inl h
  · exact Or.inl h
  · exact Or.inr h

/-- The disk queue. Unless `idestart` has panicked, `idequeue` is a list without duplicates of the
requests that have arrived and are not completed, in the order of their arrival, and the commands
given to the disk are the first requests, each once. With the lock free, a command is in
progress for the head of the queue and nothing else, and nobody sleeps on a buffer that is done.
A call of `iderw` that returns has had its request completed. -/
theorem disk_queue {acts : List (Act P (Loc B))} {s : State P (Data B) (Loc B) B}
    (ha : Along (ide P B havedisk1).step Proper (State.start init .out) acts)
    (h : exec (ide P B havedisk1).step (State.start init .out) acts = some s) :
    ((∃ p, s.lk = some p ∧ s.loc p = .panic) ∨
      ∃ q, Chain s.data.qnext s.data.idequeue q ∧ q.Nodup ∧ s.data.arrived = s.data.completed ++ q ∧
        s.data.interrupts = s.data.completed.length ∧ s.data.started <+: s.data.arrived ∧
        (s.lk = none → s.data.started = s.data.completed ++ q.take 1)) ∧
    (∀ p b k, s.mode p = .awake → s.loc p = .rwRet b k → s.data.arrived[k]? = some b ∧
      k < s.data.completed.length ∧ (s.data.buf b).valid = true ∧ (s.data.buf b).dirty = false) ∧
    (s.lk = none → ∀ p b, (s.mode p).Sleeps b → (s.data.buf b).done = false) := by
  have hgood := good_run ha h
  have hinv := Outline.inv_run (O := outline P B havedisk1) trivial rfl h
  have hwait := Outline.Waits.run (W := waits P B havedisk1) trivial rfl (along_pays _ _) h
  refine ⟨?_, ?_, fun hl p b hp => hwait.wait hl hp⟩
  · refine hgood.imp id ?_
    rintro ⟨q, hq, hph⟩
    refine ⟨q, hq.chain, hq.nodup, hq.arrived, hq.interrupts, ?_, fun hl => ?_⟩
    · rw [hq.arrived]
      rcases hph.started_cases with he | he <;> rw [he]
      · exact prefix_append _ _
      · exact (prefix_append_right_inj _).2 ( take_prefix _ _)
    · rw [hl] at hph
      exact hph
  · intro p b k hm hl
    have hlk : s.lk = some p := (hinv.lk p).2 (Or.inl ⟨hm, by rw [hl]; rfl⟩)
    obtain ⟨p', hp', hpanic⟩ | ⟨q, hq, -⟩ := hgood
    · obtain rfl := some.inj (hlk.symm.trans hp')
      rw [hl] at hpanic
      cases hpanic
    · obtain ⟨harr, hdone⟩ := hq.request p b k (by rw [hl]; rfl)
      have hret := hq.ret p b k hl
      refine ⟨harr, hdone.2 hret, ?_⟩
      simpa [Fields.done] using hret

instance [Fintype P] (s : State P (Data B) (Loc B) B) : ∀ a, Decidable (Proper s a)
  | .call _ l => inferInstanceAs (Decidable (∀ b ∈ l.buf, ∀ q, (s.loc q).buf ≠ some b))
  | .run p => inferInstanceAs
      (Decidable (s.mode p = .awake → s.loc p = .intr → s.data.interrupts < s.data.started.length))
  | .kill _ => isTrue trivial

/-- A request to read and one to write : the disk has completed the first, has been started on
the second, and the first call is about to return. -/
def readAndWrite (p q r : Fin 3) : List (Act (Fin 3) (Loc Bool)) :=
  .call p (.rwEnter false ⟨1, 7, false, false⟩) :: List.replicate 7 (.run p) ++
    .call q (.rwEnter true ⟨1, 8, true, true⟩) :: List.replicate 8 (.run q) ++
    .call r .intrEnter :: List.replicate 5 (.run r) ++ List.replicate 3 (.run p)

theorem disk_queue_read : ∃ s : State (Fin 3) (Data Bool) (Loc Bool) Bool,
    exec (ide (Fin 3) Bool true).step (State.start init .out) (readAndWrite 0 1 2) = some s ∧
      s.loc 0 = .rwRet false 0 ∧ (s.mode 1).Sleeps true ∧ s.data.started = [false, true] ∧
      s.data.arrived[0]? = some false ∧ 0 < s.data.completed.length := by
  have ha : Along (ide (Fin 3) Bool true).step Proper (State.start init .out)
      (readAndWrite 0 1 2) := by
    decide +kernel
  have h : (exec (ide (Fin 3) Bool true).step (State.start init .out) (readAndWrite 0 1 2)).map
      (fun s => (s.mode 0, s.loc 0, s.mode 1, s.data.started)) =
        some (.awake, .rwRet false 0, .asleep true, [false, true]) := by
    decide +kernel
  obtain ⟨s, hs, he⟩ := map_eq_some_iff.1 h
  simp only [Prod.mk.injEq] at he
  obtain ⟨hm, hl, hm', hst⟩ := he
  have hret := (disk_queue ha hs).2.1 0 false 0 hm hl
  exact ⟨s, hs, hl, Or.inr hm', hst, hret.1, hret.2.1⟩

end Run

end Xv6.Ide
