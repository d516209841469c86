import ScriptSyntax.Proofs.Number.Digits
import ScriptSyntax.Proofs.Number.Rounding

/-!
The parts of a number: its whole digits, a fraction and an exponent. A number is read part by part,
and the bounds on a read exponent never change the double.
-/

namespace ScriptSyntax

open Text Lexeme

/-- A point and the digits behind it, or neither. -/
inductive IsFraction : List UInt8 → Prop
  | none : IsFraction []
  | point {ds} : (∀ b ∈ ds, isDigit b) → IsFraction ('.'.toUInt8 :: ds)

/-- An exponent with its mark and its value, or neither. -/
inductive IsExponent : List UInt8 → Int → Prop
  | none : IsExponent [] 0
  | positive {ds} : ds ≠ [] → (∀ b ∈ ds, isDigit b) →
    IsExponent ('e'.toUInt8 :: ds) (digitsValue ds)
  | negative {ds} : ds ≠ [] → (∀ b ∈ ds, isDigit b) →
    IsExponent ('e'.toUInt8 :: '-'.toUInt8 :: ds) (-digitsValue ds)

structure NumberParts (whole fraction exponent : List UInt8) (value : Int) : Prop where
  nonempty : whole ≠ []
  digits : ∀ b ∈ whole, isDigit b
  fraction : IsFraction fraction
  exponent : IsExponent exponent value

/-- Bytes that a number in front of them does not go on into. -/
def NumberEnds (rest : List UInt8) : Prop :=
  ∀ b ∈ rest.head?, isDigit b = false ∧ b ≠ '.'.toUInt8 ∧ b ≠ 'e'.toUInt8

section Lengths

variable {ds whole fraction exponent rest : List UInt8} {value : Int}

theorem digitsLength_append (h : ∀ b ∈ ds, isDigit b)
    (hr : ∀ b ∈ rest.head?, isDigit b = false) : digitsLength (ds ++ rest) = ds.length := by
  rw [digitsLength, takeWhile_run h hr]

theorem IsExponent.head (h : IsExponent exponent value) (hr : NumberEnds rest) :
    ∀ b ∈ (exponent ++ rest).head?, isDigit b = false ∧ b ≠ '.'.toUInt8 := by
  cases h with
  | none => exact fun b hb => ⟨(hr b hb).1, (hr b hb).2.1⟩
  | positive => rintro b ⟨⟩; decide
  | negative => rintro b ⟨⟩; decide

theorem fractionLength_append (hf : IsFraction fraction)
    (hr : ∀ b ∈ rest.head?, isDigit b = false ∧ b ≠ '.'.toUInt8) :
    fractionLength (fraction ++ rest) = fraction.length := by
  cases hf with
  | none =>
    cases rest with
    | nil => rfl
    | cons b rest => simp [fractionLength, (hr b rfl).2]
  | @point ds hds =>
    have hnext : (ds ++ rest).head? ≠ some '.'.toUInt8 := by
      cases ds with
      | nil => exact fun h => (hr _ h).2 rfl
      | cons b ds =>
        rintro ⟨⟩
        exact absurd (hds _ List.mem_cons_self) (by decide)
    have hlength := digitsLength_append hds fun b hb => (hr b hb).1
    rw [List.cons_append, fractionLength, if_pos ⟨rfl, hnext⟩, hlength, List.length_cons]

theorem signLength_digits (hne : ds ≠ []) (h : ∀ b ∈ ds, isDigit b) : signLength ds = 0 := by
  cases ds with
  | nil => contradiction
  | cons b ds =>
    have hb := h b List.mem_cons_self
    have hplus : b ≠ '+'.toUInt8 := by rintro rfl; revert hb; decide
    have hminus : b ≠ '-'.toUInt8 := by rintro rfl; revert hb; decide
    simp [signLength, hplus, hminus]

theorem exponentLength_append (hx : IsExponent exponent value) (hr : NumberEnds rest) :
    exponentLength (exponent ++ rest) = exponent.length := by
  cases hx with
  | none =>
    cases rest with
    | nil => rfl
    | cons b rest => simp [exponentLength, (hr b rfl).2.2]
  | @positive ds hne hds =>
    have hsign : signLength (ds ++ rest) = 0 := by
      rw [← signLength_digits hne hds]
      cases ds with
      | nil => contradiction
      | cons b ds => rfl
    have hlength := digitsLength_append hds fun b hb => (hr b hb).1
    simp [exponentLength, hsign, hlength]
  | @negative ds hne hds =>
    have hsign : signLength ('-'.toUInt8 :: (ds ++ rest)) = 1 := rfl
    have hlength := digitsLength_append hds fun b hb => (hr b hb).1
    simp [exponentLength, hsign, hlength]

/-- The lengths of the digits and the fraction are theirs, if nothing behind goes on with them. -/
theorem numberLengths_append (hw : ∀ b ∈ whole, isDigit b) (hf : IsFraction fraction)
    (hr : ∀ b ∈ rest.head?, isDigit b = false ∧ b ≠ '.'.toUInt8) :
    numberLengths (whole ++ (fraction ++ rest)) =
      (whole.length, fraction.length, exponentLength rest) := by
  have hwhole : digitsLength (whole ++ (fraction ++ rest)) = whole.length := by
    refine digitsLength_append hw ?_
    cases hf with
    | none => exact fun b hb => (hr b hb).1
    | point => rintro b ⟨⟩; decide
  have hdrop : (whole ++ (fraction ++ rest)).drop (whole.length + fraction.length) = rest := by
    rw [← List.drop_drop, List.drop_left, List.drop_left]
  simp only [numberLengths, hwhole, List.drop_left, hdrop, fractionLength_append hf hr]

/-- The three lengths are those of the parts. -/
theorem NumberParts.lengths (h : NumberParts whole fraction exponent value)
    (hr : NumberEnds rest) : numberLengths (whole ++ (fraction ++ (exponent ++ rest))) =
      (whole.length, fraction.length, exponent.length) := by
  rw [numberLengths_append h.digits h.fraction (h.exponent.head hr),
    exponentLength_append h.exponent hr]

end Lengths

/-- What stands behind the mark of an exponent is its value. -/
theorem IsExponent.value {exponent value} (h : IsExponent exponent value) :
    exponentValue? exponent = some value := by
  cases h with
  | none => rfl
  | @positive ds hne hds =>
    have hsign := signLength_digits hne hds
    have hminus : ds.head? ≠ some '-'.toUInt8 := by
      intro h
      rw [(List.head?_eq_some_iff.1 h).choose_spec] at hds
      exact absurd (hds _ List.mem_cons_self) (by decide)
    simp [exponentValue?, hsign, hne, hminus]
  | @negative ds hne hds =>
    have hsign : signLength ('-'.toUInt8 :: ds) = 1 := rfl
    simp [exponentValue?, hsign, hne]

/-- A text in parts has the value of its parts, or none if its exponent has none. -/
theorem doubleLiteral?_append {whole fraction exponent : List UInt8} {text : String}
    (hne : whole ≠ []) (hw : ∀ b ∈ whole, isDigit b) (hf : IsFraction fraction)
    (hhead : ∀ b ∈ exponent.head?, isDigit b = false ∧ b ≠ '.'.toUInt8)
    (he : exponentLength exponent = exponent.length)
    (ht : bytes text = whole ++ (fraction ++ exponent)) :
    doubleLiteral? text = (exponentValue? exponent).map fun e => .ofDecimal
      (.ofParts (whole ++ fraction.drop 1) (fraction.length - 1) e) := by
  have hlengths : numberLengths (bytes text) =
      (whole.length, fraction.length, exponent.length) := by
    rw [ht, numberLengths_append hw hf hhead, he]
  have hwhole : whole.length ≠ 0 := fun h' => hne (List.length_eq_zero_iff.1 h')
  have htotal : whole.length + fraction.length + exponent.length = (bytes text).length := by
    simp only [ht, List.length_append]
    omega
  have hdrop : (bytes text).drop (whole.length + fraction.length) = exponent := by
    rw [ht, ← List.drop_drop, List.drop_left, List.drop_left]
  have htake : (bytes text).take whole.length = whole := by rw [ht, List.take_left]
  have hfraction : ((bytes text).drop whole.length).take fraction.length = fraction := by
    rw [ht, List.drop_left, List.take_left]
  simp only [doubleLiteral?, hlengths, hwhole, htotal, hdrop, htake, hfraction, ne_eq,
    not_true_eq_false, or_self, if_false]

theorem NumberParts.read {whole fraction exponent value} {text : String}
    (h : NumberParts whole fraction exponent value)
    (ht : bytes text = whole ++ (fraction ++ exponent)) :
    doubleLiteral? text = some (.ofDecimal
      (.ofParts (whole ++ fraction.drop 1) (fraction.length - 1) value)) := by
  have hend : NumberEnds [] := nofun
  have hhead := h.exponent.head hend
  have hlength := exponentLength_append h.exponent hend
  rw [List.append_nil] at hhead hlength
  rw [doubleLiteral?_append h.nonempty h.digits h.fraction hhead hlength ht, h.exponent.value,
    Option.map_some]

theorem isNegative_doubleLiteral? {text : String} {x : Double} (h : doubleLiteral? text = some x) :
    x.isNegative = false := by
  simp only [doubleLiteral?, Option.ite_none_left_eq_some, Option.map_eq_some_iff] at h
  obtain ⟨-, e, -, rfl⟩ := h
  exact Double.isNegative_ofRatio _ _

theorem two_pow_le_ten_pow {m n : Nat} (h : m ≤ 3 * n) : 2 ^ m ≤ 10 ^ n :=
  calc 2 ^ m ≤ 2 ^ (3 * n) := Nat.pow_le_pow_right Nat.two_pos h
    _ = (2 ^ 3) ^ n := Nat.pow_mul 2 3 n
    _ ≤ 10 ^ n := Nat.pow_le_pow_left (by decide) n

/-- A number from 10 ^ 400 on is infinite as a double. -/
theorem ofDecimal_large {digits : Nat} {exponent : Int} (hd : 0 < digits) (he : 400 ≤ exponent) :
    Double.ofDecimal ⟨digits, exponent⟩ = .ofMagnitude Double.infinity := by
  refine Double.ofRatio_eq_infinity (Double.ten_pow_pos _) ?_
  have hbound : 2 ^ 1024 ≤ 10 ^ exponent.toNat := two_pow_le_ten_pow (by omega)
  rw [Int.toNat_of_nonpos (show -exponent ≤ 0 by omega), Nat.pow_eq, Nat.pow_eq, Nat.pow_zero,
    Nat.one_mul]
  exact Nat.le_trans hbound (Nat.le_mul_of_pos_left _ hd)

/-- A number below 10 ^ -400 is zero as a double. -/
theorem ofDecimal_small {digits places : Nat} {exponent : Int} (hd : digits < 10 ^ places)
    (he : exponent ≤ -(400 + places)) :
    Double.ofDecimal ⟨digits, exponent⟩ = .ofMagnitude 0 := by
  refine Double.ofRatio_eq_zero ?_
  have hunits : 2 * Double.unitsOfOne ≤ 10 ^ 400 := by
    obtain ⟨p, hp, hle⟩ : ∃ p, Double.unitsOfOne = 2 ^ p ∧ p + 1 ≤ 3 * 400 :=
      ⟨1074, Double.unitsOfOne_eq, by decide⟩
    rw [hp, Nat.mul_comm, ← Nat.pow_succ]
    exact two_pow_le_ten_pow hle
  rw [Int.toNat_of_nonpos (show exponent ≤ 0 by omega), Nat.pow_eq, Nat.pow_eq, Nat.pow_zero,
    Nat.mul_one]
  calc 2 * (digits * Double.unitsOfOne) = digits * (2 * Double.unitsOfOne) := by ring
    _ < 10 ^ places * (2 * Double.unitsOfOne) :=
      Nat.mul_lt_mul_of_pos_right hd (Nat.mul_pos Nat.two_pos Double.unitsOfOne_pos)
    _ ≤ 10 ^ places * 10 ^ 400 := Nat.mul_le_mul_left _ hunits
    _ = 10 ^ (places + 400) := by rw [Nat.pow_add]
    _ ≤ 10 ^ (-exponent).toNat := Nat.pow_le_pow_right (by decide) (by omega)

/-- The exponent of a read number may be cut short. -/
theorem ofDecimal_ofParts {digits : List UInt8} (h : ∀ b ∈ digits, isDigit b) (places : Nat)
    (exponent : Int) : Double.ofDecimal (.ofParts digits places exponent) =
      Double.ofDecimal ⟨digitsValue digits, exponent - places⟩ := by
  have hlt := digitsValue_lt h
  unfold Decimal.ofParts
  rcases Nat.eq_zero_or_pos (digitsValue digits) with hzero | hpos
  · rw [hzero, Double.ofDecimal_zero, Double.ofDecimal_zero]
  rcases Int.lt_or_le 400 (exponent - places) with hlarge | hle
  · rw [ofDecimal_large hpos (by omega), ofDecimal_large hpos (by omega)]
  rcases Int.lt_or_le (exponent - places) (-(400 + digits.length)) with hsmall | hge
  · rw [ofDecimal_small hlt (by omega), ofDecimal_small hlt (by omega)]
  · rw [show max (-(400 + (digits.length : Int))) (min 400 (exponent - places)) =
      exponent - places by omega]

end ScriptSyntax
