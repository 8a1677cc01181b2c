import Mathlib.Data.Nat.Digits.Lemmas
import Mathlib.Logic.Function.Basic

/-!
# Printing integers

`printint` of `console.c` and of `printf.c`. Both fill a buffer of 16 bytes from the lowest digit
up and print it backwards. An index outside of the buffer or of the table of digits is `none`.

The buffer has the digits of the number (`digitLoop_eq`). So the output denotes the number, without
leading zeros (`Numeral`), and both functions print the same but for the case of the letters
(`printint_exact`).
-/

namespace Xv6.Print

open Function List Option

/-! ## The code -/

variable {base n : ℕ} {digits : List Char} {f : ℕ → Char}

/-- `char buf[16]`. -/
abbrev Buf := Fin 16 → Char

/-- `buf[i] = c`. -/
def Buf.put (buf : Buf) (i : ℕ) (c : Char) : Option Buf :=
  if h : i < 16 then some (update buf ⟨i, h⟩ c) else none

/-- `buf[i]`. -/
def Buf.get (buf : Buf) (i : ℕ) : Option Char := if h : i < 16 then some (buf ⟨i, h⟩) else none

/-- The loop that stores the digits. The first argument bounds the rounds : the store of the
seventeenth is outside of the buffer. -/
def digitLoop (digits : List Char) (base : UInt32) : ℕ → UInt32 → ℕ → Buf → Option (ℕ × Buf)
  | 0, _, _, _ => none
  | n + 1, x, i, buf => do
    let c ← digits[(x % base).toNat]?
    let buf ← buf.put i c
    let x := x / base
    if x ≠ 0 then digitLoop digits base n x (i + 1) buf else some (i + 1, buf)

/-- The loop that prints the buffer. -/
def printLoop (buf : Buf) : ℕ → Option (List Char)
  | 0 => some []
  | i + 1 => do
    let c ← buf.get i
    let cs ← printLoop buf i
    some (c :: cs)

/-- `printint` of `console.c` : the characters that it passes to `consputc`. The parameter `sign`
is reused for the sign of the number. -/
def Kernel.printint (buf : Buf) (xx : Int32) (base : UInt32) (sign : Bool) :
    Option (List Char) := do
  let digits := "0123456789abcdef".toList
  let sign := sign && decide (xx < 0)
  let x := if sign then (-xx).toUInt32 else xx.toUInt32
  let (i, buf) ← digitLoop digits base 17 x 0 buf
  if sign then do
    let buf ← buf.put i '-'
    printLoop buf (i + 1)
  else printLoop buf i

/-- `printint` of `printf.c` : the characters that it passes to `putc`. -/
def User.printint (buf : Buf) (xx : Int32) (base : UInt32) (sgn : Bool) : Option (List Char) := do
  let digits := "0123456789ABCDEF".toList
  let (neg, x) := if sgn ∧ xx < 0 then (true, (-xx).toUInt32) else (false, xx.toUInt32)
  let (i, buf) ← digitLoop digits base 17 x 0 buf
  if neg then do
    let buf ← buf.put i '-'
    printLoop buf (i + 1)
  else printLoop buf i

/-! ## The buffer -/

variable {buf : Buf} {cs : List Char} {c : Char}

/-- The first cells of the buffer. -/
def Buf.Holds (buf : Buf) (cs : List Char) : Prop := ∀ i < cs.length, buf.get i = cs[i]?

theorem Buf.holds_nil (buf : Buf) : buf.Holds [] := fun _ h => absurd h (Nat.not_lt_zero _)

theorem Buf.Holds.put (h : buf.Holds cs) (hlen : cs.length < 16) (c : Char) :
    ∃ buf', buf.put cs.length c = some buf' ∧ Buf.Holds buf' (cs ++ [c]) := by
  refine ⟨_, dif_pos hlen, fun i hi => ?_⟩
  rw [length_append, length_singleton] at hi
  unfold Buf.get
  rw [dif_pos (by omega)]
  by_cases he : i = cs.length
  · subst he
    rw [update_self, List.getElem?_concat_length]
  · have hlt : i < cs.length := by omega
    rw [update_of_ne (fun h => he (Fin.val_eq_of_eq h)), List.getElem?_append_left hlt, ← h i hlt,
      Buf.get, dif_pos (by omega)]

theorem printLoop_eq (h : buf.Holds cs) : printLoop buf cs.length = some cs.reverse := by
  have hloop : ∀ i ≤ cs.length, printLoop buf i = some (cs.take i).reverse := by
    intro i
    induction i with
    | zero => exact fun _ => rfl
    | succ i ih =>
      intro hi
      have hget : buf.get i = some cs[i] := by rw [h i hi, List.getElem?_eq_getElem]
      rw [printLoop, hget, ih (by omega), take_add_one, List.getElem?_eq_getElem hi,
        reverse_append]
      rfl
  rw [hloop _ le_rfl, take_length]

/-! ## The digits -/

/-- The digits of a number, the lowest first. -/
def numerals (base n : ℕ) : List ℕ := if n = 0 then [0] else Nat.digits base n

theorem numerals_of_lt (h : n < base) : numerals base n = [n] := by
  unfold numerals
  split_ifs with h0
  · rw [h0]
  · exact Nat.digits_of_lt base n h0 h

theorem numerals_of_le (hb : 1 < base) (h : base ≤ n) :
    numerals base n = n % base :: numerals base (n / base) := by
  have hn : n ≠ 0 := by omega
  have hdiv : n / base ≠ 0 := (Nat.div_pos h (by omega)).ne'
  rw [numerals, if_neg hn, numerals, if_neg hdiv, Nat.digits_def' hb (by omega)]

theorem length_numerals {k : ℕ} (hb : 1 < base) (hk : 0 < k) (h : n < base ^ k) :
    (numerals base n).length ≤ k := by
  unfold numerals
  split_ifs
  · exact hk
  · exact (Nat.digits_length_le_iff hb n).2 h

theorem ofDigits_numerals (base n : ℕ) : Nat.ofDigits base (numerals base n) = n := by
  unfold numerals
  split_ifs with h
  · rw [h, Nat.ofDigits_singleton]
  · exact Nat.ofDigits_digits base n

theorem lt_of_mem_numerals {d : ℕ} (hb : 1 < base) (h : d ∈ numerals base n) : d < base := by
  unfold numerals at h
  split_ifs at h
  · rw [mem_singleton.1 h]
    omega
  · exact Nat.digits_lt_base hb h

/-- The digits are stored from the lowest up, and fit if the number is small. -/
theorem digitLoop_eq {base : UInt32} (hd : ∀ k < base.toNat, digits[k]? = some (f k))
    (hb : 1 < base.toNat) :
    ∀ (n : ℕ) (x : UInt32) (cs : List Char) (buf : Buf), buf.Holds cs →
      (numerals base.toNat x.toNat).length ≤ n →
      cs.length + (numerals base.toNat x.toNat).length ≤ 16 →
      ∃ buf', digitLoop digits base n x cs.length buf =
          some ((cs ++ (numerals base.toNat x.toNat).map f).length, buf') ∧
        Buf.Holds buf' (cs ++ (numerals base.toNat x.toNat).map f) := by
  intro n
  induction n with
  | zero =>
    intro x cs buf _ hn _
    have hpos : 0 < (numerals base.toNat x.toNat).length := by
      rcases lt_or_ge x.toNat base.toNat with hlt | hge
      · rw [numerals_of_lt hlt]
        exact one_pos
      · rw [numerals_of_le hb hge]
        exact Nat.succ_pos _
    omega
  | succ n ih =>
    intro x cs buf hbuf hn hfit
    have hmod : digits[(x % base).toNat]? = some (f (x.toNat % base.toNat)) := by
      rw [UInt32.toNat_mod]
      exact hd _ (Nat.mod_lt _ (by omega))
    have hlen : cs.length < 16 := by
      rcases lt_or_ge x.toNat base.toNat with hlt | hge
      · rw [numerals_of_lt hlt] at hfit
        exact hfit
      · rw [numerals_of_le hb hge, length_cons] at hfit
        omega
    obtain ⟨buf₁, hput, hbuf₁⟩ := hbuf.put hlen (f (x.toNat % base.toNat))
    have hzero : x / base ≠ 0 ↔ base.toNat ≤ x.toNat := by
      rw [ne_eq, ← UInt32.toNat_inj, UInt32.toNat_div, UInt32.toNat_zero,
        Nat.div_eq_zero_iff_lt (by omega), not_lt]
    rw [digitLoop, hmod, bind_eq_bind, bind_some, hput, bind_eq_bind,
      bind_some]
    by_cases hge : base.toNat ≤ x.toNat
    · rw [if_pos (hzero.2 hge)]
      rw [numerals_of_le hb hge] at hn hfit ⊢
      rw [← UInt32.toNat_div] at hn hfit ⊢
      have hnext := ih (x / base) (cs ++ [f (x.toNat % base.toNat)]) buf₁ hbuf₁
        (Nat.le_of_succ_le_succ hn) (by
          rw [length_append, length_singleton]
          rw [length_cons] at hfit
          omega)
      rwa [append_assoc, length_append, length_singleton] at hnext
    · rw [if_neg (mt hzero.1 hge), numerals_of_lt (not_le.1 hge),
        Nat.mod_eq_of_lt (not_le.1 hge)] at *
      exact ⟨buf₁, by rw [length_append]; rfl, hbuf₁⟩

/-! ## What the output denotes -/

/-- The value of a digit, in either case. -/
def digitVal (c : Char) : Option ℕ :=
  if '0' ≤ c ∧ c ≤ '9' then some (c.toNat - '0'.toNat)
  else if 'a' ≤ c ∧ c ≤ 'f' then some (c.toNat - 'a'.toNat + 10)
  else if 'A' ≤ c ∧ c ≤ 'F' then some (c.toNat - 'A'.toNat + 10)
  else none

/-- The characters are the number `n` in the base, without leading zeros. -/
structure Numeral (base : ℕ) (cs : List Char) (n : ℕ) : Prop where
  value : ∃ ds : List ℕ, cs.map digitVal = ds.map some ∧ (∀ d ∈ ds, d < base) ∧
    Nat.ofDigits base ds.reverse = n
  ne_nil : cs ≠ []
  leading : cs.head? = some '0' → cs = ['0']

/-- The characters `f 0`, ..., `f 15` are the digits. -/
structure Table (digits : List Char) (f : ℕ → Char) : Prop where
  get : ∀ k < 16, digits[k]? = some (f k)
  val : ∀ k < 16, digitVal (f k) = some k

theorem Table.eq_zero (h : Table digits f) {k : ℕ} (hk : k < 16) (he : f k = '0') : k = 0 := by
  have hval := h.val k hk
  rw [he] at hval
  exact (some.inj hval).symm

/-- The digits backwards are the number. -/
theorem numeral_reverse (h : Table digits f) (hb : 1 < base) (hb' : base ≤ 16) :
    Numeral base ((numerals base n).map f).reverse n where
  value := by
    refine ⟨(numerals base n).reverse, ?_, fun d hd => ?_, ?_⟩
    · rw [List.map_reverse, List.map_map, List.map_reverse]
      refine congrArg List.reverse (map_congr_left fun d hd => ?_)
      exact h.val d ((lt_of_mem_numerals hb hd).trans_le hb')
    · exact lt_of_mem_numerals hb (mem_reverse.1 hd)
    · rw [reverse_reverse, ofDigits_numerals]
  ne_nil := by
    unfold numerals
    split_ifs with hn
    · simp
    · simpa [Nat.digits_eq_nil_iff_eq_zero] using hn
  leading hz := by
    rw [List.head?_reverse, List.getLast?_map] at hz
    obtain ⟨d, hd, hdz⟩ := map_eq_some_iff.1 hz
    unfold numerals at hd ⊢
    split_ifs at hd ⊢ with hn
    · rw [← some.inj hd] at hdz
      exact congrArg (fun c => [c]) hdz
    · have hmem := mem_of_getLast? hd
      have hd0 := h.eq_zero ((Nat.digits_lt_base hb hmem).trans_le hb') hdz
      have hne : Nat.digits base n ≠ [] := Nat.digits_ne_nil_iff_ne_zero.2 hn
      rw [List.getLast?_eq_some_getLast hne] at hd
      exact absurd ((some.inj hd).trans hd0) (Nat.getLast_digit_ne_zero base hn)

/-- What both functions do with the number. -/
theorem print_digits (h : Table digits f) (base : UInt32) (hb : 1 < base.toNat)
    (hb' : base.toNat ≤ 16) (buf : Buf) {x : UInt32} (hfit : x.toNat < base.toNat ^ 15)
    (neg : Bool) :
    (do
      let (i, buf) ← digitLoop digits base 17 x 0 buf
      if neg then do
        let buf ← buf.put i '-'
        printLoop buf (i + 1)
      else printLoop buf i) =
    some ((if neg then ['-'] else []) ++ ((numerals base.toNat x.toNat).map f).reverse) := by
  have hlen := length_numerals hb (by decide) hfit
  obtain ⟨buf₁, hloop, hbuf₁⟩ := digitLoop_eq (fun k hk => h.get k (hk.trans_le hb')) hb 17 x []
    buf buf.holds_nil (by omega) (by rw [length_nil]; omega)
  rw [nil_append] at hloop hbuf₁
  rw [length_nil] at hloop
  rw [hloop, bind_eq_bind, bind_some]
  cases neg with
  | false => exact printLoop_eq hbuf₁
  | true =>
    obtain ⟨buf₂, hput, hbuf₂⟩ := hbuf₁.put (by rw [length_map]; omega) '-'
    have hprint := printLoop_eq hbuf₂
    rw [length_append, length_singleton, reverse_append] at hprint
    simp only [if_true, hput, bind_eq_bind, bind_some]
    exact hprint

theorem table_kernel : Table "0123456789abcdef".toList
    fun k => "0123456789abcdef".toList.getD k '0' := by
  constructor <;> decide

theorem table_user : Table "0123456789ABCDEF".toList
    fun k => "0123456789ABCDEF".toList.getD k '0' := by
  constructor <;> decide

/-- The absolute value, also of the most negative number. -/
theorem toNat_neg {xx : Int32} (h : xx < 0) : (-xx).toUInt32.toNat = xx.toInt.natAbs := by
  have hneg : xx.toInt < 0 := Int32.lt_iff_toInt_lt.1 h
  have hnat : (-xx).toUInt32.toNat = (-xx.toBitVec).toNat := rfl
  have hint : xx.toInt = xx.toBitVec.toInt := rfl
  rw [hint, BitVec.toInt_eq_toNat_cond] at hneg
  rw [hnat, hint, BitVec.toNat_neg, BitVec.toInt_eq_toNat_cond]
  split_ifs at hneg ⊢ <;> omega

theorem toNat_nonneg {xx : Int32} (h : ¬ xx < 0) : xx.toUInt32.toNat = xx.toInt.natAbs := by
  have hpos : ¬ xx.toInt < 0 := fun hlt => h (Int32.lt_iff_toInt_lt.2 hlt)
  have hnat : xx.toUInt32.toNat = xx.toBitVec.toNat := rfl
  have hint : xx.toInt = xx.toBitVec.toInt := rfl
  rw [hint, BitVec.toInt_eq_toNat_cond] at hpos
  rw [hnat, hint, BitVec.toInt_eq_toNat_cond]
  split_ifs at hpos ⊢ <;> omega

theorem toNat_lt_pow {base : UInt32} (hb : 10 ≤ base.toNat) (x : UInt32) :
    x.toNat < base.toNat ^ 15 :=
  calc x.toNat < 2 ^ 32 := x.toNat_lt
    _ ≤ 10 ^ 15 := by decide
    _ ≤ base.toNat ^ 15 := Nat.pow_le_pow_left hb 15

/-- The output of `printint` of `console.c`. -/
theorem kernel_printint (buf : Buf) (xx : Int32) (base : UInt32) (hb : 10 ≤ base.toNat)
    (hb' : base.toNat ≤ 16) (sign : Bool) : Kernel.printint buf xx base sign =
      some ((if sign ∧ xx < 0 then ['-'] else []) ++ ((numerals base.toNat
        (if sign ∧ xx < 0 then xx.toInt.natAbs else xx.toUInt32.toNat)).map
          fun k => "0123456789abcdef".toList.getD k '0').reverse) := by
  have hprint := fun neg x => print_digits table_kernel base (by omega) hb' buf
    (toNat_lt_pow hb x) neg
  unfold Kernel.printint
  by_cases h : sign ∧ xx < 0
  · simp only [h, decide_true, and_self, Bool.and_self, if_true]
    rw [← toNat_neg h.2]
    exact hprint true _
  · have hsign : (sign && decide (xx < 0)) = false := by simpa using h
    simp only [hsign, h, if_false, Bool.false_eq_true]
    exact hprint false _

/-- The most negative number. -/
example : Kernel.printint (fun _ => ' ') (-2147483648) 10 true = some "-2147483648".toList := by
  decide +kernel

/-- The output of `printint` of `printf.c`. -/
theorem user_printint (buf : Buf) (xx : Int32) (base : UInt32) (hb : 10 ≤ base.toNat)
    (hb' : base.toNat ≤ 16) (sgn : Bool) : User.printint buf xx base sgn =
      some ((if sgn ∧ xx < 0 then ['-'] else []) ++ ((numerals base.toNat
        (if sgn ∧ xx < 0 then xx.toInt.natAbs else xx.toUInt32.toNat)).map
          fun k => "0123456789ABCDEF".toList.getD k '0').reverse) := by
  have hprint := fun neg x => print_digits table_user base (by omega) hb' buf
    (toNat_lt_pow hb x) neg
  unfold User.printint
  by_cases h : sgn ∧ xx < 0
  · simp only [h, and_self, if_true]
    rw [← toNat_neg h.2]
    exact hprint true _
  · simp only [h, if_false]
    exact hprint false _

/-- Both functions print exactly the number, and the same characters up to their case. -/
theorem printint_exact (kbuf ubuf : Buf) (xx : Int32) :
    (∃ ds, Kernel.printint kbuf xx 10 true = some ((if xx < 0 then ['-'] else []) ++ ds) ∧
      User.printint ubuf xx 10 true = some ((if xx < 0 then ['-'] else []) ++ ds) ∧
      Numeral 10 ds xx.toInt.natAbs) ∧
    ∃ lower upper, Kernel.printint kbuf xx 16 false = some lower ∧
      User.printint ubuf xx 16 false = some upper ∧ lower.map Char.toUpper = upper ∧
      Numeral 16 lower xx.toUInt32.toNat ∧ Numeral 16 upper xx.toUInt32.toNat := by
  have h10 : (10 : UInt32).toNat = 10 := rfl
  have h16 : (16 : UInt32).toNat = 16 := rfl
  constructor
  · have hmag : (if xx < 0 then xx.toInt.natAbs else xx.toUInt32.toNat) = xx.toInt.natAbs := by
      split_ifs with h
      · rfl
      · exact toNat_nonneg h
    have hk := kernel_printint kbuf xx 10 (by decide) (by decide) true
    have hu := user_printint ubuf xx 10 (by decide) (by decide) true
    simp only [true_and, h10, hmag] at hk hu
    refine ⟨_, hk, hu.trans ?_, numeral_reverse table_kernel (by decide) (by decide)⟩
    -- The tables agree on the decimal digits.
    have hsame : ∀ d < 10, "0123456789ABCDEF".toList.getD d '0' =
        "0123456789abcdef".toList.getD d '0' := by decide
    rw [map_congr_left fun d hd => hsame d (lt_of_mem_numerals (by decide) hd)]
  · have hk := kernel_printint kbuf xx 16 (by decide) (by decide) false
    have hu := user_printint ubuf xx 16 (by decide) (by decide) false
    simp only [Bool.false_eq_true, false_and, if_false, nil_append, h16] at hk hu
    refine ⟨_, _, hk, hu, ?_, numeral_reverse table_kernel (by decide) (by decide),
      numeral_reverse table_user (by decide) (by decide)⟩
    have hupper : ∀ d < 16, ("0123456789abcdef".toList.getD d '0').toUpper =
        "0123456789ABCDEF".toList.getD d '0' := by decide
    rw [List.map_reverse, List.map_map]
    refine congrArg List.reverse (map_congr_left fun d hd => ?_)
    exact hupper d (lt_of_mem_numerals (by decide) hd)

end Xv6.Print
