import Mathlib.Tactic.Ring
import ScriptSyntax.Number.Shortest

/-!
The nearest double of a quotient depends on the value of the quotient alone. Every finite double is
the nearest one to its own value, so its shortest decimal reads back as itself.
-/

namespace ScriptSyntax.Double

theorem leading_pos : 0 < leading := by decide

theorem unitsOfOne_eq : unitsOfOne = 2 ^ 1074 := by
  unfold unitsOfOne
  generalize 1074 = n
  rfl

theorem unitsOfOne_pos : 0 < unitsOfOne := by
  unfold unitsOfOne
  generalize 1074 = n
  exact Nat.two_pow_pos n

theorem roundHalfEven_mul {n d k : Nat} (hk : 0 < k) :
    roundHalfEven (n * k) (d * k) = roundHalfEven n d := by
  have hq : n * k / (d * k) = n / d := Nat.mul_div_mul_right n d hk
  have hr : n * k % (d * k) = n % d * k := Nat.mul_mod_mul_right k n d
  have hbelow : 2 * (n % d * k) < d * k ↔ 2 * (n % d) < d := by
    rw [← Nat.mul_assoc, Nat.mul_lt_mul_right hk]
  have habove : d * k < 2 * (n % d * k) ↔ d < 2 * (n % d) := by
    rw [← Nat.mul_assoc, Nat.mul_lt_mul_right hk]
  simp only [roundHalfEven, hq, hr, hbelow, habove]

theorem roundHalfEven_multiple {q d : Nat} (hd : 0 < d) : roundHalfEven (q * d) d = q := by
  simp [roundHalfEven, Nat.mul_div_cancel q hd, hd]

theorem le_roundHalfEven (n d : Nat) : n / d ≤ roundHalfEven n d := by
  unfold roundHalfEven
  dsimp only
  split
  · exact Nat.le_refl _
  split <;> omega

theorem ofRatio_mul {n d k : Nat} (hk : 0 < k) : ofRatio (n * k) (d * k) = ofRatio n d := by
  have hn : n * k * unitsOfOne = n * unitsOfOne * k := by ring
  have hd (m : Nat) : d * k * m = d * m * k := by ring
  simp only [ofRatio, hn, hd, Nat.mul_div_mul_right _ _ hk, roundHalfEven_mul hk]

/-- Equal quotients have the same nearest double. -/
theorem ofRatio_congr {n d n' d' : Nat} (hd : 0 < d) (hd' : 0 < d') (h : n * d' = n' * d) :
    ofRatio n d = ofRatio n' d' := by
  rw [← ofRatio_mul hd', h, Nat.mul_comm d d', ofRatio_mul hd]

/-- From 2 ^ 1024 on the nearest double is infinite. -/
theorem ofRatio_eq_infinity {n d : Nat} (hd : 0 < d) (h : d * 2 ^ 1024 ≤ n) :
    ofRatio n d = ofMagnitude infinity := by
  have hquotient : 2 ^ 2098 ≤ n * unitsOfOne / d := by
    rw [Nat.le_div_iff_mul_le hd, unitsOfOne_eq]
    calc 2 ^ 2098 * d = d * 2 ^ 1024 * 2 ^ 1074 := by
          rw [Nat.mul_assoc, ← Nat.pow_add, Nat.mul_comm]
      _ ≤ n * 2 ^ 1074 := Nat.mul_le_mul_right _ h
  have hne : n * unitsOfOne / d ≠ 0 := by
    generalize 2098 = k at hquotient
    exact Nat.ne_of_gt (Nat.lt_of_lt_of_le (Nat.two_pow_pos k) hquotient)
  have hlog : 2098 ≤ (n * unitsOfOne / d).log2 := by
    generalize 2098 = k at hquotient ⊢
    exact (Nat.le_log2 hne).2 hquotient
  obtain ⟨shift, hshift⟩ : ∃ shift, (n * unitsOfOne / d).log2 = shift + 52 :=
    ⟨_, (Nat.sub_add_cancel (Nat.le_trans (by decide) hlog)).symm⟩
  have hrounded : leading ≤ roundHalfEven (n * unitsOfOne) (d * Nat.pow 2 shift) := by
    refine Nat.le_trans ?_ (le_roundHalfEven _ _)
    rw [Nat.pow_eq, ← Nat.div_div_eq_div_mul, Nat.le_div_iff_mul_le (Nat.pow_pos Nat.two_pos)]
    calc leading * 2 ^ shift = 2 ^ (n * unitsOfOne / d).log2 := by
          rw [hshift, Nat.add_comm, Nat.pow_add]; rfl
      _ ≤ n * unitsOfOne / d := Nat.log2_self_le hne
  have hlarge :
      infinity ≤ shift * leading + roundHalfEven (n * unitsOfOne) (d * Nat.pow 2 shift) := by
    have := Nat.mul_le_mul_right leading (show 2046 ≤ shift by omega)
    simp only [infinity]
    omega
  simp only [ofRatio, hshift, Nat.add_sub_cancel, Nat.min_eq_left hlarge]

/-- Below half a unit the nearest double is zero. -/
theorem ofRatio_eq_zero {n d : Nat} (h : 2 * (n * unitsOfOne) < d) :
    ofRatio n d = ofMagnitude 0 := by
  have hlt : n * unitsOfOne < d := by omega
  simp [ofRatio, Nat.div_eq_of_lt hlt, roundHalfEven, Nat.mod_eq_of_lt hlt, h]

theorem isNegative_ofMagnitude {m : Nat} (h : m < signBit) :
    (ofMagnitude m).isNegative = false := by
  have hbits : (ofMagnitude m).bits.toNat = m :=
    UInt64.toNat_ofNat_of_lt' (Nat.lt_trans h (by decide))
  simp [isNegative, hbits, h]

theorem ofMagnitude_magnitude {x : Double} (hx : x.isNegative = false) :
    ofMagnitude x.magnitude = x := by
  have hlt : x.bits.toNat < signBit := by simpa [isNegative] using hx
  rw [magnitude, Nat.mod_eq_of_lt hlt, ofMagnitude, UInt64.ofNat_toNat]

theorem eq_of_magnitude {x y : Double} (hx : x.isNegative = false) (hy : y.isNegative = false)
    (h : x.magnitude = y.magnitude) : x = y := by
  rw [← ofMagnitude_magnitude hx, h, ofMagnitude_magnitude hy]

theorem isNegative_ofRatio (n d : Nat) : (ofRatio n d).isNegative = false :=
  isNegative_ofMagnitude (Nat.lt_of_le_of_lt (Nat.min_le_left _ _) (by decide))

/-- Units below the leading digit are the magnitude itself. -/
theorem ofRatio_subnormal {m : Nat} (hm : m < leading) : ofRatio m unitsOfOne = ofMagnitude m := by
  have hlog : m.log2 - 52 = 0 := by
    rcases Nat.eq_zero_or_pos m with rfl | hpos
    · decide
    · have := (Nat.log2_lt (Nat.ne_of_gt hpos)).2 (show m < 2 ^ 52 from hm)
      omega
  have hle : m ≤ infinity := Nat.le_trans (Nat.le_of_lt hm) (by decide)
  have hrounded : roundHalfEven (m * unitsOfOne) (unitsOfOne * Nat.pow 2 0) = m := by
    rw [Nat.pow_eq, Nat.pow_zero, Nat.mul_one, roundHalfEven_multiple unitsOfOne_pos]
  simp only [ofRatio, Nat.mul_div_cancel m unitsOfOne_pos, hlog, hrounded, Nat.zero_mul,
    Nat.zero_add, Nat.min_eq_right hle]

/-- A leading digit with its fraction, moved up by an exponent, adds up to the magnitude. -/
theorem ofRatio_normal {fraction shift : Nat} (hf : fraction < leading) (hs : shift < 2046) :
    ofRatio ((leading + fraction) * Nat.pow 2 shift) unitsOfOne =
      ofMagnitude (shift * leading + (leading + fraction)) := by
  have hpos : 0 < 2 ^ shift := Nat.two_pow_pos shift
  have hlog : ((leading + fraction) * 2 ^ shift).log2 = shift + 52 := by
    rw [Nat.log2_eq_iff (Nat.ne_of_gt (Nat.mul_pos (Nat.add_pos_left leading_pos _) hpos))]
    constructor
    · rw [Nat.pow_add, Nat.mul_comm]
      exact Nat.mul_le_mul_right _ (Nat.le_add_right leading fraction)
    · rw [Nat.add_assoc, Nat.pow_add, Nat.mul_comm]
      refine Nat.mul_lt_mul_of_pos_left ?_ hpos
      calc leading + fraction < leading + leading := Nat.add_lt_add_left hf _
        _ = 2 ^ (52 + 1) := by decide
  have hrounded : roundHalfEven ((leading + fraction) * 2 ^ shift * unitsOfOne)
      (unitsOfOne * 2 ^ shift) = leading + fraction := by
    rw [Nat.mul_assoc, Nat.mul_comm unitsOfOne,
      roundHalfEven_multiple (Nat.mul_pos hpos unitsOfOne_pos)]
  have hle : shift * leading + (leading + fraction) ≤ infinity := by
    have := Nat.mul_le_mul_right leading (show shift ≤ 2045 by omega)
    simp only [infinity]
    omega
  simp only [ofRatio, Nat.pow_eq, Nat.mul_div_cancel _ unitsOfOne_pos, hlog, Nat.add_sub_cancel,
    hrounded, Nat.min_eq_right hle]

/-- A finite double is the nearest one to its own value. -/
theorem ofRatio_units {x : Double} (hx : x.isNegative = false) (hfinite : x.isFinite = true) :
    ofRatio x.units unitsOfOne = x := by
  have hlt : x.magnitude < infinity := by simpa [isFinite] using hfinite
  conv_rhs => rw [← ofMagnitude_magnitude hx]
  by_cases hm : x.magnitude < leading
  · rw [units, if_pos hm, ofRatio_subnormal hm]
  · rw [units, if_neg hm]
    have hone : 1 ≤ x.magnitude / leading :=
      (Nat.le_div_iff_mul_le leading_pos).2 (by omega)
    have hbound : x.magnitude / leading < 2047 := (Nat.div_lt_iff_lt_mul leading_pos).2 hlt
    rw [ofRatio_normal (Nat.mod_lt _ leading_pos) (by omega)]
    have hsum : (x.magnitude / leading - 1) * leading + (leading + x.magnitude % leading) =
        x.magnitude := by
      rw [← Nat.add_assoc, ← Nat.succ_mul, Nat.succ_eq_add_one, Nat.sub_add_cancel hone,
        Nat.mul_comm, Nat.div_add_mod]
    rw [hsum]

theorem ten_pow_pos (n : Nat) : 0 < Nat.pow 10 n := Nat.pow_pos (by decide)

/-- Zeros at the end of the digits may be counted by the exponent. -/
theorem ofDecimal_zeros (digits zeros : Nat) (exponent : Int) :
    ofDecimal ⟨digits * 10 ^ zeros, exponent⟩ = ofDecimal ⟨digits, exponent + zeros⟩ := by
  refine ofRatio_congr (ten_pow_pos _) (ten_pow_pos _) ?_
  simp only [Nat.pow_eq, Nat.mul_assoc, ← Nat.pow_add]
  congr 2
  omega

theorem ofDecimal_zero (exponent : Int) : ofDecimal ⟨0, exponent⟩ = ofMagnitude 0 := by
  refine ofRatio_eq_zero ?_
  simp only [Nat.zero_mul, Nat.mul_zero]
  exact ten_pow_pos _

/-- A fraction of a power of two has as many decimal places as the power. -/
theorem ofDecimal_places (numerator n : Nat) :
    ofDecimal ⟨numerator * Nat.pow 5 n, -(n : Int)⟩ = ofRatio numerator (2 ^ n) := by
  refine ofRatio_congr (ten_pow_pos _) (Nat.two_pow_pos n) ?_
  have hten : Nat.pow 10 n = Nat.pow 5 n * 2 ^ n := Nat.mul_pow 5 2 n
  have hone : Nat.pow 10 (-(n : Int)).toNat = 1 := by
    rw [Int.toNat_of_nonpos (by omega), Nat.pow_eq, Nat.pow_zero]
  rw [Int.neg_neg, Int.toNat_natCast, hten, hone, Nat.mul_one, Nat.mul_assoc]

theorem readsAs_of_neighbour? {x : Double} {exponent : Int} {d : Decimal}
    (h : x.neighbour? exponent = some d) : readsAs d x = true := by
  unfold neighbour? at h
  dsimp only at h
  split at h
  · next hbelow => cases h; exact hbelow.1
  split at h
  · next habove => cases h; exact habove
  · contradiction

/-- The shortest decimal of a double reads back as the double. -/
theorem ofDecimal_shortest {x : Double} (hx : x.isNegative = false) (hfinite : x.isFinite = true) :
    ofDecimal x.shortest = x := by
  unfold shortest
  dsimp only
  split
  · next hunits =>
    rw [ofDecimal_zero, ← ofRatio_units hx hfinite, hunits, ofRatio_eq_zero]
    rw [Nat.zero_mul, Nat.mul_zero]
    exact unitsOfOne_pos
  · cases hfound : (List.range 17).findSome? fun n : Nat =>
        x.neighbour? (x.decimalPlaces - (n + 1)) with
    | none =>
      have hexponent : (-1074 : Int) = -((1074 : Nat) : Int) := rfl
      have hunits := unitsOfOne_eq
      rw [Option.getD_none, hexponent]
      -- The power stays a power: nothing below needs its value.
      generalize 1074 = n at hunits ⊢
      rw [ofDecimal_places, ← hunits, ofRatio_units hx hfinite]
    | some d =>
      obtain ⟨n, _, hd⟩ := List.exists_of_findSome?_eq_some hfound
      have hreads := readsAs_of_neighbour? hd
      rw [Option.getD_some]
      exact eq_of_magnitude (isNegative_ofRatio _ _) hx (by simpa [readsAs] using hreads)

/-- Only zero is written without a digit other than zero. -/
theorem digits_shortest {x : Double} (hx : x.isNegative = false) (hfinite : x.isFinite = true)
    (h : x.shortest.digits = 0) : x.shortest.exponent = 0 := by
  have hzero : x = ofMagnitude 0 := by
    rw [← ofDecimal_shortest hx hfinite, ← ofDecimal_zero x.shortest.exponent, ← h]
  have hunits : x.units = 0 := by rw [hzero]; decide
  simp [shortest, hunits]

end ScriptSyntax.Double
