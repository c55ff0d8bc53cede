import Mathlib.Data.Nat.Digits.Defs
import Mathlib.Data.Nat.Log
import Mathlib.Tactic.Ring
import ArkLang.Token.Lexeme
import ArkLang.Tree.Printer

/-!
# Numbers read back from their text

The decimal digits of a natural number denote that number, and the text of a binary64 value, with a
point in it, denotes that value. Reading a decimal only depends on the ratio it stands for, so zeros
at either end of its digits may be moved between the digits and the exponent.
-/

namespace ArkLang

open List

/-! ### Digits -/

theorem decimalValue_eq_ofDigitChars (ds : List Char) :
    decimalValue ds = Nat.ofDigitChars 10 ds 0 := rfl

/-- The digits of a number denote it. -/
theorem decimalValue_toDigits (n : Nat) : decimalValue (Nat.toDigits 10 n) = n := by
  rw [decimalValue_eq_ofDigitChars]
  exact Nat.ofDigitChars_toDigits (by decide) (by decide)

theorem decimalValue_append_singleton (ds : List Char) (d : Char) :
    decimalValue (ds ++ [d]) = 10 * decimalValue ds + (d.toNat - '0'.toNat) := by
  simp only [decimalValue, foldl_append, foldl_cons, foldl_nil]

theorem decimalValue_append_zeros (ds : List Char) (n : Nat) :
    decimalValue (ds ++ List.replicate n '0') = decimalValue ds * 10 ^ n := by
  induction n with
  | zero => simp
  | succ n ih =>
    rw [replicate_succ', ← append_assoc, decimalValue_append_singleton, ih, pow_succ]
    simp only [Nat.sub_self, Nat.add_zero]
    ring

theorem decimalValue_zeros_append (ds : List Char) (n : Nat) :
    decimalValue (List.replicate n '0' ++ ds) = decimalValue ds := by
  have zeros : decimalValue (List.replicate n '0') = 0 := by
    simpa [decimalValue] using decimalValue_append_zeros [] n
  simp only [decimalValue, foldl_append] at zeros ⊢
  rw [zeros]

theorem isDigit_of_mem_toDigits {n : Nat} {c : Char} (h : c ∈ Nat.toDigits 10 n) : c.isDigit :=
  Nat.isDigit_of_mem_toDigits (by decide) (by decide) h

theorem toDigits_ne_nil (n : Nat) : Nat.toDigits 10 n ≠ [] := by
  rw [Nat.toDigits_eq_if (by decide)]
  split <;> simp

/-! ### Rounding a ratio -/

theorem roundHalfEven_mul_left {k : Nat} (hk : 0 < k) (a b : Nat) :
    roundHalfEven (k * a) (k * b) = roundHalfEven a b := by
  have below : 2 * (k * (a % b)) < k * b ↔ 2 * (a % b) < b := by
    rw [Nat.mul_left_comm]
    exact Nat.mul_lt_mul_left hk
  have above : k * b < 2 * (k * (a % b)) ↔ b < 2 * (a % b) := by
    rw [Nat.mul_left_comm]
    exact Nat.mul_lt_mul_left hk
  simp only [roundHalfEven, Nat.mul_div_mul_left _ _ hk, Nat.mul_mod_mul_left, below, above]

theorem roundHalfEven_mul {d : Nat} (hd : 0 < d) (q : Nat) : roundHalfEven (q * d) d = q := by
  simp [roundHalfEven, Nat.mul_div_cancel _ hd, hd]

namespace Binary64

theorem unitDenominator_pos : 0 < unitDenominator :=
  Nat.two_pow_pos _

theorem ofRatio?_mul_left {k : Nat} (hk : 0 < k) (n d : Nat) :
    ofRatio? (k * n) (k * d) = ofRatio? n d := by
  have quotient : k * n * unitDenominator / (k * d) = n * unitDenominator / d := by
    rw [Nat.mul_assoc, Nat.mul_div_mul_left _ _ hk]
  have rounded (s : Nat) : roundHalfEven (k * n * unitDenominator) (k * d * Nat.pow 2 s) =
      roundHalfEven (n * unitDenominator) (d * Nat.pow 2 s) := by
    rw [Nat.mul_assoc, Nat.mul_assoc, roundHalfEven_mul_left hk]
  simp only [ofRatio?, quotient, rounded]

theorem scale_mul_add_significand (x : Binary64) :
    x.scale * Nat.pow 2 52 + x.significand = x.bits := by
  have least : x.scale * Nat.pow 2 52 ≤ x.bits := by
    refine Nat.le_trans (Nat.mul_le_mul_right _ (Nat.sub_le _ _)) ?_
    exact Nat.div_mul_le_self _ _
  simp only [significand]
  omega

theorem significand_lt (x : Binary64) : x.significand < 2 ^ 53 := by
  simp only [significand, scale, show Nat.pow 2 52 = 2 ^ 52 from rfl]
  omega

theorem le_significand (x : Binary64) (h : 0 < x.scale) : 2 ^ 52 ≤ x.significand := by
  simp only [significand, scale, show Nat.pow 2 52 = 2 ^ 52 from rfl] at h ⊢
  omega

theorem log2_units (x : Binary64) : Nat.log2 x.units - 52 = x.scale := by
  have upper : x.units < 2 ^ (53 + x.scale) := by
    rw [units, pow_add]
    exact Nat.mul_lt_mul_of_pos_right x.significand_lt (Nat.pow_pos (by decide))
  rcases Nat.eq_zero_or_pos x.scale with flat | scaled
  · rcases Nat.eq_zero_or_pos x.units with none | some
    · rw [none, flat]
      rfl
    · have := (Nat.log2_lt (Nat.pos_iff_ne_zero.mp some)).mpr upper
      omega
  · have lower : 2 ^ (52 + x.scale) ≤ x.units := by
      rw [units, pow_add]
      exact Nat.mul_le_mul_right _ (x.le_significand scaled)
    have nonzero : x.units ≠ 0 := by
      have := Nat.pow_pos (n := 52 + x.scale) (show 0 < 2 by decide)
      omega
    have := (Nat.log2_eq_iff nonzero).mpr ⟨lower, by rw [Nat.add_right_comm]; exact upper⟩
    omega

/-- A binary64 value is read back from its exact ratio. -/
theorem ofRatio?_units (x : Binary64) : ofRatio? x.units unitDenominator = some x := by
  have rounded : roundHalfEven (x.units * unitDenominator)
      (unitDenominator * Nat.pow 2 x.scale) = x.significand := by
    rw [units, Nat.mul_assoc, Nat.mul_comm (Nat.pow 2 x.scale)]
    exact roundHalfEven_mul (Nat.mul_pos unitDenominator_pos (Nat.pow_pos (by decide))) _
  simp only [ofRatio?, Nat.mul_div_cancel _ unitDenominator_pos, log2_units, rounded,
    scale_mul_add_significand, x.finite, dif_pos]

/-! ### Reading decimals -/

theorem ofDecimal?_mul_ten (digits : Nat) (exponent : Int) :
    ofDecimal? (digits * 10) exponent = ofDecimal? digits (exponent + 1) := by
  simp only [ofDecimal?]
  rcases Int.lt_or_le exponent 0 with negative | positive
  · -- the factor cancels one of the denominator
    obtain ⟨n, places⟩ : ∃ n : Nat, (-exponent).toNat = n + 1 := ⟨(-exponent).toNat - 1, by omega⟩
    have above : exponent.toNat = 0 := by omega
    have above' : (exponent + 1).toNat = 0 := by omega
    have places' : (-(exponent + 1)).toNat = n := by omega
    rw [places, places', above, above']
    have numerator : digits * 10 * Nat.pow 10 0 = 10 * (digits * Nat.pow 10 0) := by
      rw [Nat.mul_right_comm, Nat.mul_comm]
    have denominator : Nat.pow 10 (n + 1) = 10 * Nat.pow 10 n := by
      rw [Nat.mul_comm]; rfl
    rw [numerator, denominator, ofRatio?_mul_left (by decide)]
  · have above : (exponent + 1).toNat = exponent.toNat + 1 := by omega
    have places : (-exponent).toNat = 0 := by omega
    have places' : (-(exponent + 1)).toNat = 0 := by omega
    rw [above, places, places']
    congr 1
    rw [Nat.mul_assoc, Nat.mul_comm 10]
    rfl

theorem ofDecimal?_mul_pow (digits n : Nat) (exponent : Int) :
    ofDecimal? (digits * 10 ^ n) exponent = ofDecimal? digits (exponent + n) := by
  induction n generalizing exponent with
  | zero => simp
  | succ n ih =>
    rw [pow_succ, ← Nat.mul_assoc, ofDecimal?_mul_ten, ih]
    congr 1
    push_cast
    ring

theorem ofDecimal?_trim (limit : Nat) (d : Decimal) :
    ofDecimal? (d.trim limit).digits (d.trim limit).exponent = ofDecimal? d.digits d.exponent := by
  induction limit generalizing d with
  | zero => rfl
  | succ limit ih =>
    rw [Decimal.trim]
    split
    case isTrue zero =>
      rw [ih, ← ofDecimal?_mul_ten, Nat.div_mul_cancel (Nat.dvd_of_mod_eq_zero zero.2)]
    case isFalse => rfl

theorem ofDecimal?_mul_five_pow (n places : Nat) :
    ofDecimal? (n * Nat.pow 5 places) (-(places : Int)) = ofRatio? n (Nat.pow 2 places) := by
  have denominator : Nat.pow 10 places = Nat.pow 5 places * Nat.pow 2 places :=
    Nat.mul_pow 5 2 places
  have numerator : n * Nat.pow 5 places * Nat.pow 10 0 = Nat.pow 5 places * n := by
    rw [show Nat.pow 10 0 = 1 from rfl, Nat.mul_one, Nat.mul_comm]
  simp only [ofDecimal?, Int.neg_neg, Int.toNat_natCast, Int.toNat_neg_natCast]
  have positive : 0 < Nat.pow 5 places := Nat.pow_pos (by decide)
  rw [numerator, denominator, ofRatio?_mul_left positive]

theorem ofDecimal?_exact (x : Binary64) :
    ofDecimal? x.exact.digits x.exact.exponent = some x := by
  rw [← x.ofRatio?_units]
  exact ofDecimal?_mul_five_pow x.units 1074

theorem ofDecimal?_zero {x : Binary64} (h : x.bits = 0) : ofDecimal? 0 0 = some x := by
  have units : x.units = unitDenominator * 0 := by
    simp [Binary64.units, significand, h]
  have ratio := ofRatio?_mul_left unitDenominator_pos 0 1
  rw [Nat.mul_one, ← units, ofRatio?_units] at ratio
  exact ratio.symm

theorem readsBack_of_onGrid? {x : Binary64} {exponent : Int} {d : Decimal}
    (h : x.onGrid? exponent = some d) : x.readsBack d := by
  simp only [onGrid?] at h
  exact find?_some h

theorem shortest_eq_trim (x : Binary64) :
    ∃ limit d, x.shortest = Decimal.trim limit d ∧ ofDecimal? d.digits d.exponent = some x := by
  rw [shortest]
  split
  case isTrue zero => exact ⟨0, ⟨0, 0⟩, rfl, ofDecimal?_zero zero⟩
  case isFalse =>
    refine ⟨_, _, rfl, ?_⟩
    cases found : List.findSome? x.onGrid?
        ((List.range 17).map fun (n : Nat) => x.magnitude - 1 - (n : Int)) with
    | none => exact x.ofDecimal?_exact
    | some d =>
      obtain ⟨exponent, -, hit⟩ := exists_of_findSome?_eq_some found
      exact beq_iff_eq.mp (readsBack_of_onGrid? hit)

/-- The shortest digits of a value denote it. -/
theorem ofDecimal?_shortest (x : Binary64) :
    ofDecimal? x.shortest.digits x.shortest.exponent = some x := by
  obtain ⟨limit, d, eq, reads⟩ := x.shortest_eq_trim
  rw [eq, ofDecimal?_trim, reads]

/-! ### The text of a value -/

theorem positional_of_nonneg {d : Decimal} (h : 0 ≤ d.exponent) :
    (∀ c ∈ d.positional, c.isDigit) ∧ d.positional ≠ [] ∧
      ofDecimal? (decimalValue (d.positional ++ ['0'])) (-1) = ofDecimal? d.digits d.exponent := by
  have text : d.positional = Nat.toDigits 10 d.digits ++ List.replicate d.exponent.toNat '0' := by
    simp only [Decimal.positional, Decimal.digitText, h, if_true]
  rw [text]
  refine ⟨?_, ?_, ?_⟩
  · intro c hc
    rcases List.mem_append.mp hc with digit | zero
    · exact isDigit_of_mem_toDigits digit
    · rw [eq_of_mem_replicate zero]
      rfl
  · exact append_ne_nil_of_left_ne_nil (toDigits_ne_nil _) _
  · have value : decimalValue (Nat.toDigits 10 d.digits ++ List.replicate d.exponent.toNat '0' ++
        ['0']) = d.digits * 10 ^ (d.exponent.toNat + 1) := by
      rw [append_assoc, ← replicate_succ', decimalValue_append_zeros,
        decimalValue_toDigits]
    rw [value, ofDecimal?_mul_pow]
    congr 1
    push_cast
    omega

theorem positional_of_neg {d : Decimal} (h : d.exponent < 0) :
    ∃ whole fraction : List Char, d.positional = whole ++ '.' :: fraction ∧
      whole ≠ [] ∧ fraction ≠ [] ∧ (∀ c ∈ whole ++ fraction, c.isDigit) ∧
      decimalValue (whole ++ fraction) = d.digits ∧ -(fraction.length : Int) = d.exponent := by
  obtain ⟨places, hplaces⟩ : ∃ n : Nat, d.exponent = -(n : Int) :=
    ⟨(-d.exponent).toNat, by omega⟩
  have nonneg : ¬ 0 ≤ d.exponent := by omega
  simp only [Decimal.positional, Decimal.digitText, nonneg, if_false]
  simp only [hplaces, Int.neg_neg, Int.toNat_natCast]
  -- the zeros in front leave at least one digit before the point
  generalize hpad : List.replicate (places + 1 - (Nat.toDigits 10 d.digits).length) '0' ++
    Nat.toDigits 10 d.digits = padded
  have size : places + 1 ≤ padded.length := by
    rw [← hpad, length_append, length_replicate]
    omega
  refine ⟨padded.take (padded.length - places), padded.drop (padded.length - places), rfl, ?_, ?_,
    ?_, ?_, ?_⟩
  · rw [← length_pos_iff, length_take]
    omega
  · rw [← length_pos_iff, length_drop]
    omega
  · intro c hc
    rw [take_append_drop, ← hpad] at hc
    rcases List.mem_append.mp hc with zero | digit
    · rw [eq_of_mem_replicate zero]
      rfl
    · exact isDigit_of_mem_toDigits digit
  · rw [take_append_drop, ← hpad, decimalValue_zeros_append, decimalValue_toDigits]
  · rw [length_drop]
    omega

/-- The text of a value has a point, and denotes the value. -/
theorem print_reads_back (x : Binary64) :
    ∃ whole fraction : List Char, x.print.toList = whole ++ '.' :: fraction ∧
      whole ≠ [] ∧ fraction ≠ [] ∧ (∀ c ∈ whole, c.isDigit) ∧ (∀ c ∈ fraction, c.isDigit) ∧
      ofDecimal? (decimalValue (whole ++ fraction)) (-(fraction.length : Int)) = some x := by
  have text : x.positionalText.toList = x.shortest.positional := by simp [positionalText]
  rcases Int.lt_or_le x.shortest.exponent 0 with negative | nonneg
  · obtain ⟨whole, fraction, layout, hw, hf, digits, value, places⟩ := positional_of_neg negative
    have point : x.positionalText.toList.contains '.' = true := by
      rw [text, layout]
      simp
    refine ⟨whole, fraction, ?_, hw, hf, ?_, ?_, ?_⟩
    · rw [print, if_pos point, text, layout]
    · exact fun c hc => digits c (mem_append_left _ hc)
    · exact fun c hc => digits c (mem_append_right _ hc)
    · rw [value, places, ofDecimal?_shortest]
  · obtain ⟨digits, nonempty, value⟩ := positional_of_nonneg nonneg
    have noPoint : ¬ x.positionalText.toList.contains '.' = true := by
      rw [text, contains_iff_mem]
      intro point
      exact absurd (digits _ point) (by decide)
    have zero : ∀ c ∈ ['0'], c.isDigit := by
      intro c hc
      rw [List.mem_singleton.mp hc]
      decide
    refine ⟨x.shortest.positional, ['0'], ?_, nonempty, by simp, digits, zero, ?_⟩
    · rw [print, if_neg noPoint, String.toList_append, text]
      rfl
    · rw [← x.ofDecimal?_shortest, ← value]
      rfl

end Binary64

end ArkLang
