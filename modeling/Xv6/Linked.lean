import Mathlib.Data.List.Nodup
import Mathlib.Logic.Function.Basic
import Mathlib.Tactic.Common

/-!
# Lists linked by pointers

`Chain next h l` says that `l` is the list that starts at `h` and goes on along `next` to a
null pointer. A new element is stored in the pointer at the end (`Chain.append`).

`Links.Ring k l` says that the elements of `l` and a head are linked in a circle, each once,
forwards by `next` and backwards by `prev`. `Ring.insert` and `Ring.unlink` are the usual
four and two assignments, and `Ring.scan` says that a loop along `next` from the head ends and
finds what `List.find?` finds. The circle is the same the other way round (`Ring.swap`).
-/

namespace Xv6

open Function List Option

variable {α : Type*}

/-- The list from a pointer on. -/
def Chain (next : α → Option α) : Option α → List α → Prop
  | h, [] => h = none
  | h, a :: l => h = some a ∧ Chain next (next a) l

namespace Chain

variable {next : α → Option α} {h : Option α} {l : List α} {a b : α}

theorem eq_none_iff (hc : Chain next h l) : h = none ↔ l = [] := by
  cases l with
  | nil => simpa [Chain] using hc
  | cons a l => simp [hc.1]

theorem eq_some (hc : Chain next (some a) l) : ∃ t, l = a :: t ∧ Chain next (next a) t := by
  cases l with
  | nil => cases hc
  | cons b t =>
    obtain ⟨he, ht⟩ := hc
    cases he
    exact ⟨t, rfl, ht⟩

/-- The element after one of the list is in the list. -/
theorem next_mem : ∀ {h : Option α} {l : List α}, Chain next h l → a ∈ l → next a = some b → b ∈ l
  | _, [], _, ha, _ => by cases ha
  | _, c :: l, ⟨_, ht⟩, ha, hn => by
    rcases mem_cons.1 ha with rfl | ha
    · rw [hn] at ht
      obtain ⟨t, rfl, -⟩ := ht.eq_some
      simp
    · exact mem_cons_of_mem _ (next_mem ht ha hn)

variable [DecidableEq α]

/-- A pointer that is not in the list does not matter. -/
theorem update_of_notMem : ∀ {h : Option α} {l : List α}, Chain next h l → b ∉ l →
    ∀ x, Chain (update next b x) h l
  | _, [], hc, _, _ => hc
  | _, a :: l, ⟨he, ht⟩, hb, x => by
    have hab : a ≠ b := by
      rintro rfl
      exact hb mem_cons_self
    refine ⟨he, ?_⟩
    rw [update_of_ne hab]
    exact ht.update_of_notMem (fun hm => hb (mem_cons_of_mem _ hm)) x

/-- The null pointer at the end of the list is replaced. -/
theorem append (hb : next b = none) : ∀ {h : Option α} {l : List α}, Chain next h l → a ∈ l →
    next a = none → b ∉ l → Chain (update next a (some b)) h (l ++ [b])
  | _, [], _, ha, _, _ => by cases ha
  | _, c :: l, ⟨he, ht⟩, ha, hn, hbl => by
    refine ⟨he, ?_⟩
    by_cases hca : c = a
    · -- the list ends here
      subst hca
      rw [hn] at ht
      obtain rfl := ht.eq_none_iff.1 rfl
      have hbc : b ≠ c := by
        rintro rfl
        exact hbl mem_cons_self
      simp [Chain, update_of_ne hbc, hb]
    · rw [update_of_ne hca]
      have ha' : a ∈ l := by
        rcases mem_cons.1 ha with rfl | ha
        · exact absurd rfl hca
        · exact ha
      exact append hb ht ha' hn fun hm => hbl (mem_cons_of_mem _ hm)

end Chain

/-! ## Circular lists -/

/-- The pointers of a circular list with a head; `none` is the head. -/
structure Links (α : Type*) where
  next : Option α → Option α
  prev : Option α → Option α

namespace Links

variable {k k' : Links α} {a b : Option α} {l m : List α} {x : α}

/-- The same circle the other way round. -/
def swap (k : Links α) : Links α := ⟨k.prev, k.next⟩

/-- From `a` over the elements of `l` to `b`, and back. -/
def Path (k : Links α) : Option α → List α → Option α → Prop
  | a, [], b => k.next a = b ∧ k.prev b = a
  | a, x :: l, b => (k.next a = some x ∧ k.prev (some x) = a) ∧ Path k (some x) l b

/-- The elements of `l` and the head are linked in a circle. -/
structure Ring (k : Links α) (l : List α) : Prop where
  nodup : l.Nodup
  path : k.Path none l none

/-- A loop along `next` that stops at the head or where `p` holds, with a bound on its
passes. -/
def scan (next : Option α → Option α) (p : α → Bool) : ℕ → Option α → Option (Option α)
  | 0, _ => none
  | _ + 1, none => some none
  | n + 1, some x => if p x then some (some x) else scan next p n (next (some x))

theorem path_append : ∀ {l : List α} {a : Option α},
    k.Path a (l ++ x :: m) b ↔ k.Path a l (some x) ∧ k.Path (some x) m b
  | [], _ => Iff.rfl
  | y :: l, a => by
    simp only [cons_append, Path, path_append (l := l), and_assoc]

namespace Path

theorem swap : ∀ {l : List α} {a : Option α}, k.Path a l b → k.swap.Path b l.reverse a
  | [], _, h => ⟨h.2, h.1⟩
  | x :: l, a, ⟨hx, hl⟩ => by
    rw [reverse_cons, path_append]
    exact ⟨hl.swap, hx.2, hx.1⟩

/-- A path is kept if the pointers along it are. -/
theorem congr : ∀ {l : List α} {a : Option α}, k.Path a l b →
    (∀ y, y = a ∨ (∃ x ∈ l, y = some x) → k'.next y = k.next y) →
    (∀ y, y = b ∨ (∃ x ∈ l, y = some x) → k'.prev y = k.prev y) → k'.Path a l b
  | [], a, ⟨h1, h2⟩, hn, hp => ⟨(hn a (Or.inl rfl)).trans h1, (hp b (Or.inl rfl)).trans h2⟩
  | x :: l, a, ⟨⟨h1, h2⟩, hl⟩, hn, hp => by
    refine ⟨⟨(hn a (Or.inl rfl)).trans h1, ?_⟩, hl.congr (fun y hy => ?_) fun y hy => ?_⟩
    · exact (hp (some x) (Or.inr ⟨x, mem_cons_self, rfl⟩)).trans h2
    · refine hn y (Or.inr ?_)
      rcases hy with rfl | ⟨z, hz, rfl⟩
      · exact ⟨x, mem_cons_self, rfl⟩
      · exact ⟨z, mem_cons_of_mem _ hz, rfl⟩
    · refine hp y (hy.imp_right ?_)
      rintro ⟨z, hz, rfl⟩
      exact ⟨z, mem_cons_of_mem _ hz, rfl⟩

/-- Where a path ends, it comes from its start or one of its elements. -/
theorem prev_mem : ∀ {l : List α} {a : Option α}, k.Path a l b →
    k.prev b = a ∨ ∃ x ∈ l, k.prev b = some x
  | [], _, h => Or.inl h.2
  | x :: l, _, ⟨_, hl⟩ => by
    rcases hl.prev_mem with he | ⟨y, hy, he⟩
    · exact Or.inr ⟨x, mem_cons_self, he⟩
    · exact Or.inr ⟨y, mem_cons_of_mem _ hy, he⟩

variable [DecidableEq α]

/-- The end of a path is moved from `b` to `c`. -/
theorem retarget {c : Option α} : ∀ {l : List α} {a : Option α}, k.Path a l b → l.Nodup →
    (∀ x ∈ l, a ≠ some x ∧ c ≠ some x) →
    (⟨update k.next (k.prev b) c, update k.prev c (k.prev b)⟩ : Links α).Path a l c
  | [], a, ⟨_, h2⟩, _, _ => by
    rw [h2]
    exact ⟨update_self .., update_self ..⟩
  | x :: l, a, ⟨⟨h1, h2⟩, hl⟩, hnd, hne => by
    obtain ⟨hx, hnd⟩ := nodup_cons.1 hnd
    have ha : a ≠ k.prev b := by
      rcases hl.prev_mem with he | ⟨y, hy, he⟩ <;> rw [he]
      · exact (hne x mem_cons_self).1
      · exact (hne y (mem_cons_of_mem _ hy)).1
    refine ⟨⟨(update_of_ne ha ..).trans h1, ?_⟩, hl.retarget hnd fun y hy => ⟨?_, ?_⟩⟩
    · exact (update_of_ne (hne x mem_cons_self).2.symm ..).trans h2
    · intro he
      exact hx (some.inj he ▸ hy)
    · exact (hne y (mem_cons_of_mem _ hy)).2

end Path

/-- A loop along a path. -/
theorem scan_path (p : α → Bool) : ∀ {l : List α} {a : Option α} {n : ℕ}, k.Path a l none →
    l.length < n → scan k.next p n (k.next a) = some (l.find? p)
  | [], _, n + 1, ⟨h1, _⟩, _ => by
    rw [h1]
    rfl
  | x :: l, a, n + 1, ⟨⟨h1, _⟩, hl⟩, hn => by
    rw [h1, scan, List.find?_cons]
    cases p x with
    | true => rfl
    | false => exact scan_path p hl (Nat.lt_of_succ_lt_succ hn)

namespace Ring

theorem swap (h : k.Ring l) : k.swap.Ring l.reverse :=
  ⟨nodup_reverse.2 h.nodup, h.path.swap⟩

/-- A loop from the head along `next`. -/
theorem scan (h : k.Ring l) (p : α → Bool) {n : ℕ} (hn : l.length < n) :
    Links.scan k.next p n (k.next none) = some (l.find? p) :=
  scan_path p h.path hn

/-- The empty circle. -/
theorem nil : (⟨fun _ => none, fun _ => none⟩ : Links α).Ring [] := ⟨nodup_nil, rfl, rfl⟩

end Ring

variable [DecidableEq α]

/-- Put an element at the head of the list. -/
def insert (k : Links α) (x : α) : Links α :=
  let k := { k with next := update k.next (some x) (k.next none) }
  let k := { k with prev := update k.prev (some x) none }
  let k := { k with prev := update k.prev (k.next none) (some x) }
  { k with next := update k.next none (some x) }

/-- Take an element out of the list. -/
def unlink (k : Links α) (x : α) : Links α :=
  let k := { k with prev := update k.prev (k.next (some x)) (k.prev (some x)) }
  { k with next := update k.next (k.prev (some x)) (k.next (some x)) }

namespace Ring

theorem insert (h : k.Ring l) (hx : x ∉ l) : (k.insert x).Ring (x :: l) := by
  refine ⟨nodup_cons.2 ⟨hx, h.nodup⟩, ?_⟩
  have hne : ∀ y ∈ l, y ≠ x := fun y hy he => hx (he ▸ hy)
  cases l with
  | nil =>
    have hn : k.next none = none := h.path.1
    simp [Links.insert, Path, hn]
  | cons y l =>
    obtain ⟨⟨hn, -⟩, hl⟩ := h.path
    have hyl : y ∉ l := (nodup_cons.1 h.nodup).1
    have hyx : y ≠ x := hne y mem_cons_self
    refine ⟨?_, ?_, hl.congr (fun z hz => ?_) fun z hz => ?_⟩
    · simp [Links.insert, hn, hyx.symm]
    · simp [Links.insert, hn]
    · rcases hz with rfl | ⟨w, hw, rfl⟩
      · simp [Links.insert, hyx]
      · simp [Links.insert, hne w (mem_cons_of_mem _ hw)]
    · rcases hz with rfl | ⟨w, hw, rfl⟩
      · simp [Links.insert, hn]
      · have hwy : w ≠ y := fun he => hyl (he ▸ hw)
        simp [Links.insert, hn, hwy, hne w (mem_cons_of_mem _ hw)]

theorem unlink (h : k.Ring (l ++ x :: m)) : (k.unlink x).Ring (l ++ m) := by
  obtain ⟨hnd, hpath⟩ := h
  obtain ⟨hl, hm⟩ := path_append.1 hpath
  obtain ⟨hndl, hndm, hdisj⟩ := nodup_append.1 hnd
  obtain ⟨hxm, hndm'⟩ := nodup_cons.1 hndm
  refine ⟨hnd.sublist ((sublist_cons_self x m).append_left l), ?_⟩
  have heq : k.next (some x) ≠ some x → k.unlink x =
      ⟨update k.next (k.prev (some x)) (k.next (some x)),
        update k.prev (k.next (some x)) (k.prev (some x))⟩ := fun hne => by
    simp [Links.unlink, update_of_ne hne.symm]
  cases m with
  | nil =>
    have hn : k.next (some x) = none := hm.1
    rw [heq (by simp [hn]), hn, append_nil]
    exact hl.retarget hndl fun y _ => ⟨by simp, by simp⟩
  | cons y m =>
    obtain ⟨⟨hn, -⟩, hm⟩ := hm
    have hyx : y ≠ x := fun he => hxm (he ▸ mem_cons_self)
    have hym : y ∉ m := (nodup_cons.1 hndm').1
    have hlm : ∀ z ∈ l, z ≠ y ∧ z ∉ m := fun z hz =>
      ⟨hdisj z hz y (by simp), fun hzm => hdisj z hz z (by simp [hzm]) rfl⟩
    rw [heq (by simpa [hn] using hyx), hn, path_append]
    refine ⟨hl.retarget hndl fun z hz => ⟨by simp, ?_⟩, hm.congr (fun z hz => ?_) fun z hz => ?_⟩
    · simpa using (hlm z hz).1.symm
    · refine update_of_ne (fun he => ?_) _ _
      -- the pointer that changes is before the element
      have hz' : z = some y ∨ ∃ w ∈ m, z = some w := hz
      rcases hl.prev_mem with hp | ⟨w, hw, hp⟩ <;> rw [hp] at he <;> subst he
      · simp at hz'
      · rcases hz' with hz' | ⟨v, hv, hz'⟩ <;> obtain rfl := some.inj hz'
        · exact (hlm w hw).1 rfl
        · exact (hlm w hw).2 hv
    · refine update_of_ne ?_ _ _
      rcases hz with rfl | ⟨w, hw, rfl⟩
      · simp
      · intro he
        exact hym (some.inj he ▸ hw)

end Ring

end Links

end Xv6
