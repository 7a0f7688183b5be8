import Mathlib.Algebra.Group.Nat.Defs
import GraphGrammar.Json.Numeral

/-!
# Numerals are read as they were written

The decimal digits of a number are digits, without a leading zero unless they are this zero, and
stand for the number. An exponent is written behind the letter for it, with its sign.

## Main results

* `GraphGrammar.Numeral.ofText?_text` — a numeral is read from its text.
* `GraphGrammar.Numeral.isFinite_integer` — numbers of 64 bits are finite as doubles.
-/

namespace GraphGrammar

/-! ### Decimal digits -/

theorem toList_toString_nat (n : Nat) : (toString n).toList = Nat.toDigits 10 n := by
  rw [Nat.toString_eq_ofList_toDigits, String.toList_ofList]

theorem ofDigits_toDigits (n : Nat) : ofDigits (Nat.toDigits 10 n) = n :=
  Nat.ofDigitChars_eq_foldl.symm.trans Nat.ofDigitChars_ten_toDigits

theorem isDigit_of_mem_toDigits {n : Nat} {c : Char} (h : c ∈ Nat.toDigits 10 n) :
    c.isDigit = true :=
  Nat.isDigit_of_mem_toDigits (by decide) (Nat.le_refl _) h

theorem exists_toDigits_eq_cons (n : Nat) :
    ∃ c rest, Nat.toDigits 10 n = c :: rest ∧ c.isDigit = true := by
  obtain ⟨c, rest, hcons⟩ := List.exists_cons_of_ne_nil (Nat.toDigits_ne_nil (n := n) (b := 10))
  exact ⟨c, rest, hcons, isDigit_of_mem_toDigits (hcons ▸ List.mem_cons_self ..)⟩

/-- The first digit of a number is not zero, unless it is the number. -/
theorem head?_toDigits {n : Nat} (h : n ≠ 0) : (Nat.toDigits 10 n).head? ≠ some '0' := by
  induction n using Nat.strongRecOn with
  | ind n ih =>
    rw [Nat.toDigits_eq_if (by decide)]
    split
    · next hlt =>
      have hdigit : ∀ d < 10, d ≠ 0 → Nat.digitChar d ≠ '0' := by decide
      simpa using hdigit n hlt h
    · next hge =>
      have hfirst := ih (n / 10) (by omega) (by omega)
      obtain ⟨c, rest, hcons, -⟩ := exists_toDigits_eq_cons (n / 10)
      rw [hcons] at hfirst ⊢
      exact hfirst

namespace Numeral

/-! ### Reading what was written -/

theorem takeWhile_toDigits (n : Nat) (rest : List Char)
    (hrest : rest.head?.all fun c => !c.isDigit) :
    (Nat.toDigits 10 n ++ rest).takeWhile (·.isDigit) = Nat.toDigits 10 n ∧
      (Nat.toDigits 10 n ++ rest).dropWhile (·.isDigit) = rest := by
  rw [List.takeWhile_append_of_pos fun c => isDigit_of_mem_toDigits,
    List.dropWhile_append_of_pos fun c => isDigit_of_mem_toDigits]
  cases rest with
  | nil => exact ⟨List.append_nil _, rfl⟩
  | cons c rest =>
    have hc : c.isDigit = false := by simpa using hrest
    rw [List.takeWhile_cons, List.dropWhile_cons, hc]
    exact ⟨List.append_nil _, rfl⟩

/-- The digits of a number are not refused as the whole part of a numeral. -/
theorem isWhole_toDigits (n : Nat) : ((Nat.toDigits 10 n).isEmpty ||
    ((Nat.toDigits 10 n).head? == some '0' && 1 < (Nat.toDigits 10 n).length)) = false := by
  rw [Bool.or_eq_false_iff, List.isEmpty_eq_false_iff]
  refine ⟨Nat.toDigits_ne_nil, ?_⟩
  by_cases h : n = 0
  · subst h
    rfl
  · rw [beq_false_of_ne (head?_toDigits h), Bool.false_and]

theorem ofUnsigned?_toDigits (negative : Bool) (n : Nat) :
    ofUnsigned? negative (Nat.toDigits 10 n) = some (integer negative n) := by
  obtain ⟨htake, hdrop⟩ := takeWhile_toDigits n [] rfl
  rw [List.append_nil] at htake hdrop
  simp only [ofUnsigned?, htake, hdrop, isWhole_toDigits, Bool.false_eq_true, if_false,
    ofDigits_toDigits]

theorem ofUnsigned?_toDigits_append (negative : Bool) (n : Nat) (rest : List Char) :
    ofUnsigned? negative (Nat.toDigits 10 n ++ 'e' :: rest) =
      (exponentOf? ('e' :: rest)).map (scaled negative n) := by
  obtain ⟨htake, hdrop⟩ := takeWhile_toDigits n ('e' :: rest) rfl
  simp only [ofUnsigned?, htake, hdrop, isWhole_toDigits, Bool.false_eq_true, if_false,
    ofDigits_toDigits, Option.map_eq_bind]
  rfl

theorem ne_minus_of_isDigit {c : Char} (h : c.isDigit = true) : c ≠ '-' := by
  rintro rfl
  cases h

theorem all_isDigit_toDigits (n : Nat) : (Nat.toDigits 10 n).all (·.isDigit) = true :=
  List.all_eq_true.mpr fun _ => isDigit_of_mem_toDigits

theorem isEmpty_toDigits (n : Nat) : (Nat.toDigits 10 n).isEmpty = false :=
  List.isEmpty_eq_false_iff.mpr Nat.toDigits_ne_nil

theorem exponentOf?_toDigits (n : Nat) :
    exponentOf? ('e' :: Nat.toDigits 10 n) = some (n : Int) := by
  obtain ⟨c, rest, hcons, hdigit⟩ := exists_toDigits_eq_cons n
  have hall := all_isDigit_toDigits n
  have hvalue := ofDigits_toDigits n
  rw [hcons] at hall hvalue ⊢
  rw [exponentOf?]
  · simp [hall, hvalue]
  · exact fun _ heq => ne_minus_of_isDigit hdigit (List.cons.inj heq).1
  · rintro _ heq
    rw [(List.cons.inj heq).1] at hdigit
    cases hdigit

theorem exponentOf?_minus_toDigits (n : Nat) :
    exponentOf? ('e' :: '-' :: Nat.toDigits 10 n) = some (-(n : Int)) := by
  simp [exponentOf?, all_isDigit_toDigits, ofDigits_toDigits, isEmpty_toDigits]

theorem exponentOf?_toString (exponent : Int) :
    exponentOf? ('e' :: (toString exponent).toList) = some exponent := by
  have htext : toString exponent = exponent.repr := rfl
  rw [htext, Int.repr_eq_if]
  split
  · next hpos =>
    rw [Nat.repr_eq_ofList_toDigits, String.toList_ofList, exponentOf?_toDigits,
      Int.toNat_of_nonneg hpos]
  · next hneg =>
    simp only [String.toList_append, Nat.repr_eq_ofList_toDigits, String.toList_ofList]
    refine (exponentOf?_minus_toDigits _).trans ?_
    rw [Int.toNat_of_nonneg (by omega), Int.neg_neg]

theorem toList_text (n : Numeral) : n.text.toList = match n with
    | integer negative magnitude => (signText negative).toList ++ Nat.toDigits 10 magnitude
    | scaled negative digits exponent =>
      (signText negative).toList ++
        (Nat.toDigits 10 digits ++ 'e' :: (toString exponent).toList) := by
  cases n with
  | integer negative magnitude => rw [text, String.toList_append, toList_toString_nat]
  | scaled negative digits exponent =>
    have hletter : ("e" : String).toList = ['e'] := rfl
    simp only [text, String.toList_append, toList_toString_nat, hletter, List.append_assoc,
      List.singleton_append]

theorem ofText?_signText (negative : Bool) {c : Char} {rest : List Char} (hc : c ≠ '-') :
    ofText? ((signText negative).toList ++ c :: rest) = ofUnsigned? negative (c :: rest) := by
  cases negative with
  | true => rfl
  | false =>
    have hempty : (signText false).toList = [] := rfl
    rw [hempty, List.nil_append, ofText?]
    exact fun rest' heq => hc (List.cons.inj heq).1

/-- **A numeral** is read from its text. -/
theorem ofText?_text (n : Numeral) : ofText? n.text.toList = some n := by
  rw [toList_text]
  cases n with
  | integer negative magnitude =>
    obtain ⟨c, rest, hcons, hdigit⟩ := exists_toDigits_eq_cons magnitude
    dsimp only
    rw [hcons, ofText?_signText negative (ne_minus_of_isDigit hdigit), ← hcons,
      ofUnsigned?_toDigits]
  | scaled negative digits exponent =>
    obtain ⟨c, rest, hcons, hdigit⟩ := exists_toDigits_eq_cons digits
    dsimp only
    rw [hcons, List.cons_append, ofText?_signText negative (ne_minus_of_isDigit hdigit),
      ← List.cons_append, ← hcons, ofUnsigned?_toDigits_append, exponentOf?_toString,
      Option.map_some]

/-! ### Numbers of 64 bits -/

theorem roundToDouble_le (n : Nat) : roundToDouble n ≤ n + 1 <<< (n.log2 - 52) := by
  have hle := Nat.div_mul_le_self n (1 <<< (n.log2 - 52))
  simp only [roundToDouble]
  split
  · rw [Nat.add_mul, Nat.one_mul]
    exact Nat.add_le_add_right hle _
  · exact Nat.le_trans hle (Nat.le_add_right ..)

/-- **Numbers of 64 bits** are finite as doubles. -/
theorem isFinite_integer {n : Nat} (h : n < 2 ^ 64) (negative : Bool) :
    (integer negative n).isFinite = true := by
  have hlength : (toString n).length ≤ 20 := by
    rw [← String.length_toList, toList_toString_nat,
      Nat.length_toDigits_le_iff (by decide) (by decide)]
    exact Nat.lt_trans h (by decide)
  -- All digits are kept, and their power of ten is one.
  have hexcess : excessDigits n = 0 := by
    have hzero : (toString n).length - 20 = 0 := by omega
    have hpow : n / Nat.pow 10 0 < 1 <<< 64 := by
      rw [show Nat.pow 10 0 = 1 from rfl, Nat.div_one]
      exact h
    rw [excessDigits, hzero, if_pos hpow]
  have hround : roundToDouble n * roundToDouble 1 < doubleLimit := by
    have hlog : n.log2 - 52 ≤ 12 := by
      by_cases hzero : n = 0
      · subst hzero
        decide
      · have := (Nat.log2_lt hzero).mpr h
        omega
    have hunit : 1 <<< (n.log2 - 52) ≤ 2 ^ 12 := by
      rw [Nat.one_shiftLeft]
      exact Nat.pow_le_pow_right (by decide) hlog
    have hle := roundToDouble_le n
    have hone : roundToDouble 1 = 1 := by decide
    rw [hone, Nat.mul_one]
    refine Nat.lt_of_lt_of_le (m := 2 ^ 65) (by omega) ?_
    decide +kernel
  rw [isFinite, isFinite.isFiniteProduct, hexcess]
  simp [hround]

end Numeral

end GraphGrammar
