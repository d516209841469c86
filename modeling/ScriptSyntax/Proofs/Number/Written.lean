import Mathlib.Data.List.TakeWhile
import ScriptSyntax.Proofs.Number.Parts

/-!
The text of a finite double reads back as the double. A decimal is written with a point, or with
an exponent, or both.
-/

namespace ScriptSyntax

open Text

/-- Characters that write a decimal as a number with a point or an exponent. -/
def Writes (cs : List Char) (d : Decimal) : Prop :=
  ∃ whole fraction exponent value, NumberParts whole fraction exponent value ∧
    fraction ++ exponent ≠ [] ∧
    bytes (String.ofList cs) = whole ++ (fraction ++ exponent) ∧
    Double.ofDecimal ⟨digitsValue (whole ++ fraction.drop 1), value - (fraction.length - 1 : Nat)⟩ =
      Double.ofDecimal d

theorem Writes.congr {cs d d'} (h : Writes cs d) (hd : Double.ofDecimal d = Double.ofDecimal d') :
    Writes cs d' := by
  obtain ⟨whole, fraction, exponent, value, hp, hne, hb, hv⟩ := h
  exact ⟨whole, fraction, exponent, value, hp, hne, hb, hv.trans hd⟩

theorem Writes.read {cs d} (h : Writes cs d) :
    doubleLiteral? (String.ofList cs) = some (.ofDecimal d) := by
  obtain ⟨whole, fraction, exponent, value, hp, -, hb, hd⟩ := h
  have hfraction : ∀ b ∈ fraction.drop 1, isDigit b := by
    cases hp.fraction with
    | none => exact nofun
    | point hds => exact hds
  have hdigits : ∀ b ∈ whole ++ fraction.drop 1, isDigit b :=
    List.forall_mem_append.2 ⟨hp.digits, hfraction⟩
  rw [hp.read hb, ofDecimal_ofParts hdigits, hd]

variable {cs ds : List Char}

theorem isDigit_of_mem_map (h : ∀ c ∈ cs, c.isDigit) : ∀ b ∈ cs.map Char.toUInt8, isDigit b := by
  intro b hb
  obtain ⟨c, hc, rfl⟩ := List.mem_map.1 hb
  exact isDigit_toUInt8 (h c hc)

theorem ascii_of_isDigit (h : ∀ c ∈ cs, c.isDigit) : ∀ c ∈ cs, c.toNat < 128 := by
  intro c hc
  have := toNat_of_isDigit (h c hc)
  omega

theorem writes_point (cs ds : List Char) (hne : cs ≠ []) (hcs : ∀ c ∈ cs, c.isDigit)
    (hds : ∀ c ∈ ds, c.isDigit) :
    Writes (cs ++ '.' :: ds) ⟨Nat.ofDigitChars 10 (cs ++ ds) 0, -ds.length⟩ := by
  have hall : ∀ c ∈ cs ++ ds, c.isDigit := List.forall_mem_append.2 ⟨hcs, hds⟩
  have hascii : ∀ c ∈ cs ++ '.' :: ds, c.toNat < 128 :=
    List.forall_mem_append.2 ⟨ascii_of_isDigit hcs,
      List.forall_mem_cons.2 ⟨by decide, ascii_of_isDigit hds⟩⟩
  refine ⟨cs.map Char.toUInt8, '.'.toUInt8 :: ds.map Char.toUInt8, [], 0, ⟨?_, ?_, ?_, .none⟩,
    nofun, ?_, ?_⟩
  · simpa using hne
  · exact isDigit_of_mem_map hcs
  · exact .point (isDigit_of_mem_map hds)
  · rw [bytes_ofList_ascii hascii, List.map_append, List.map_cons, List.append_nil]
  · rw [List.drop_succ_cons, List.drop_zero, ← List.map_append, digitsValue_map hall]
    simp

/-- An exponent is written with a sign only if it is negative. -/
theorem isExponent_toString (k : Int) :
    IsExponent ('e'.toUInt8 :: (toString k).toList.map Char.toUInt8) k ∧
      ∀ c ∈ (toString k).toList, c.toNat < 128 := by
  cases k with
  | ofNat n =>
    have htext : (toString (Int.ofNat n)).toList = Nat.toDigits 10 n := Nat.toList_repr
    rw [htext]
    refine ⟨?_, ascii_of_isDigit fun c hc => isDigit_of_mem_toDigits hc⟩
    have := IsExponent.positive (digitsOf_ne_nil n) fun b hb => isDigit_of_mem_digitsOf hb
    rwa [digitsValue_digitsOf] at this
  | negSucc n =>
    have htext : (toString (Int.negSucc n)).toList = '-' :: Nat.toDigits 10 (n + 1) := by
      change ("-" ++ (n + 1).repr).toList = _
      rw [String.toList_append, Nat.toList_repr]
      rfl
    rw [htext]
    constructor
    · have := IsExponent.negative (digitsOf_ne_nil (n + 1)) fun b hb => isDigit_of_mem_digitsOf hb
      rwa [digitsValue_digitsOf] at this
    · exact List.forall_mem_cons.2
        ⟨by decide, ascii_of_isDigit fun c hc => isDigit_of_mem_toDigits hc⟩

theorem writes_exponent {c : Char} (hc : c.isDigit) (hds : ∀ d ∈ ds, d.isDigit) (k : Int) :
    Writes (c :: (if ds = [] then [] else '.' :: ds) ++ 'e' :: (toString k).toList)
      ⟨Nat.ofDigitChars 10 (c :: ds) 0, k - ds.length⟩ := by
  obtain ⟨hk, hascii⟩ := isExponent_toString k
  have hall : ∀ d ∈ c :: ds, d.isDigit := List.forall_mem_cons.2 ⟨hc, hds⟩
  have hpoint : ∀ d ∈ if ds = [] then [] else '.' :: ds, d.toNat < 128 := by
    split
    · exact nofun
    · exact List.forall_mem_cons.2 ⟨by decide, ascii_of_isDigit hds⟩
  have hmark : ∀ d ∈ 'e' :: (toString k).toList, d.toNat < 128 :=
    List.forall_mem_cons.2 ⟨by decide, hascii⟩
  have hall_ascii : ∀ d ∈ c :: (if ds = [] then [] else '.' :: ds) ++ 'e' :: (toString k).toList,
      d.toNat < 128 :=
    List.forall_mem_append.2 ⟨List.forall_mem_cons.2
      ⟨ascii_of_isDigit hall c List.mem_cons_self, hpoint⟩, hmark⟩
  have hfraction : IsFraction ((if ds = [] then [] else '.' :: ds).map Char.toUInt8) := by
    split
    · exact .none
    · exact .point (isDigit_of_mem_map hds)
  refine ⟨[c.toUInt8], (if ds = [] then [] else '.' :: ds).map Char.toUInt8,
    'e'.toUInt8 :: (toString k).toList.map Char.toUInt8, k, ⟨nofun, ?_, hfraction, hk⟩, ?_, ?_, ?_⟩
  · rintro b (_ | ⟨_, ⟨⟩⟩)
    exact isDigit_toUInt8 hc
  · simp
  · rw [bytes_ofList_ascii hall_ascii]
    simp
  · rw [← digitsValue_map hall]
    split
    · next hnil => simp [hnil]
    · simp

theorem trailing_zeros (cs : List Char) :
    ∃ n, cs = (cs.reverse.dropWhile (· = '0')).reverse ++ List.replicate n '0' := by
  have hzeros : ∀ c ∈ cs.reverse.takeWhile (· = '0'), c = '0' := fun c hc => by
    simpa using List.mem_takeWhile_imp hc
  refine ⟨(cs.reverse.takeWhile (· = '0')).length, ?_⟩
  rw [← List.reverse_replicate, ← List.eq_replicate_of_mem hzeros, ← List.reverse_append,
    List.takeWhile_append_dropWhile, List.reverse_reverse]

theorem isDigit_of_mem_zeros (k : Nat) : ∀ c ∈ List.replicate k '0', c.isDigit := by
  intro c hc
  rw [List.eq_of_mem_replicate hc]
  rfl

/-- Digits behind the point, after as many zeros as it takes. -/
theorem writes_behind_point (hds : ∀ c ∈ ds, c.isDigit) (k : Nat) :
    Writes ('0' :: '.' :: List.replicate k '0' ++ ds)
      ⟨Nat.ofDigitChars 10 ds 0, -(k + ds.length : Nat)⟩ := by
  have hw := writes_point ['0'] (List.replicate k '0' ++ ds) nofun (isDigit_of_mem_zeros 1)
    (List.forall_mem_append.2 ⟨isDigit_of_mem_zeros k, hds⟩)
  simpa [Nat.ofDigitChars_cons, Nat.ofDigitChars_append] using hw

/-- Digits in front of the point, before as many zeros as it takes. -/
theorem writes_before_point (hds : ∀ c ∈ ds, c.isDigit) {k : Nat} (hk : 0 < ds.length + k) :
    Writes (ds ++ List.replicate k '0' ++ ['.', '0']) ⟨Nat.ofDigitChars 10 ds 0, k⟩ := by
  have hne : ds ++ List.replicate k '0' ≠ [] := by
    apply List.ne_nil_of_length_pos
    rwa [List.length_append, List.length_replicate]
  have hw := writes_point (ds ++ List.replicate k '0') ['0'] hne
    (List.forall_mem_append.2 ⟨hds, isDigit_of_mem_zeros k⟩) (isDigit_of_mem_zeros 1)
  refine hw.congr ?_
  have hvalue : Nat.ofDigitChars 10 (ds ++ List.replicate k '0' ++ ['0']) 0 =
      Nat.ofDigitChars 10 ds 0 * 10 ^ (k + 1) := by
    rw [List.append_assoc, ← List.replicate_succ', Nat.ofDigitChars_append,
      Nat.ofDigitChars_replicate_zero, Nat.mul_comm]
  rw [hvalue, Double.ofDecimal_zeros]
  congr 2
  simp only [List.length_singleton]
  omega

/-- Digits on both sides of the point. -/
theorem writes_around_point (hds : ∀ c ∈ ds, c.isDigit) {k : Nat} (hk : 0 < k)
    (hlt : k < ds.length) :
    Writes (ds.take k ++ '.' :: ds.drop k)
      ⟨Nat.ofDigitChars 10 ds 0, -(ds.length - k : Nat)⟩ := by
  have hne : ds.take k ≠ [] := List.ne_nil_of_length_pos (by rw [List.length_take]; omega)
  have hw := writes_point (ds.take k) (ds.drop k) hne
    (fun c hc => hds c (List.mem_of_mem_take hc)) (fun c hc => hds c (List.mem_of_mem_drop hc))
  rwa [List.take_append_drop, List.length_drop] at hw

/-- A decimal is written so that it reads back as its nearest double. -/
theorem Decimal.writes_text {d : Decimal} (h : d.digits = 0 → d.exponent = 0) :
    ∃ cs, d.text = String.ofList cs ∧ Writes cs d := by
  obtain ⟨n, hn⟩ := trailing_zeros (Nat.toDigits 10 d.digits)
  refine ⟨_, rfl, ?_⟩
  -- The digits are `ds` with `n` zeros behind them, which the exponent can count instead.
  generalize ((Nat.toDigits 10 d.digits).reverse.dropWhile (· = '0')).reverse = ds at hn ⊢
  have hds : ∀ c ∈ ds, c.isDigit := fun c hc =>
    isDigit_of_mem_toDigits (n := d.digits) (hn ▸ List.mem_append_left _ hc)
  have hlength : (Nat.toDigits 10 d.digits).length = ds.length + n := by
    rw [hn, List.length_append, List.length_replicate]
  have hvalue : d.digits = Nat.ofDigitChars 10 ds 0 * 10 ^ n := by
    rw [← Nat.ofDigitChars_ten_toDigits (n := d.digits), hn, Nat.ofDigitChars_append,
      Nat.ofDigitChars_replicate_zero, Nat.mul_comm]
  have hd : Double.ofDecimal d = Double.ofDecimal ⟨Nat.ofDigitChars 10 ds 0, d.exponent + n⟩ := by
    rw [← Double.ofDecimal_zeros, ← hvalue]
  rw [hlength]
  split
  · next hpoint =>
    cases ds with
    | nil =>
      -- Only zero has no digit left, and its exponent is zero: it is not written with one.
      have hzero : d.digits = 0 := by simpa using hvalue
      rw [hzero] at hlength
      rw [h hzero, ← hlength] at hpoint
      simp at hpoint
    | cons c ds =>
      obtain ⟨hc, hds⟩ := List.forall_mem_cons.1 hds
      have hfraction : (if (c :: ds).length ≤ 1 then [] else '.' :: (c :: ds).drop 1) =
          if ds = [] then [] else '.' :: ds := by
        cases ds <;> rfl
      have hw := writes_exponent hc hds (((c :: ds).length + n : Nat) + d.exponent - 1)
      rw [hfraction]
      refine hw.congr (.trans ?_ hd.symm)
      congr 2
      simp only [List.length_cons]
      omega
  split
  · refine (writes_behind_point hds _).congr (.trans ?_ hd.symm)
    congr 2
    omega
  split
  · next hle =>
    refine (writes_before_point hds (by omega)).congr (.trans ?_ hd.symm)
    congr 2
    omega
  · next hlt =>
    refine (writes_around_point hds (by omega) (Nat.lt_of_not_le hlt)).congr (.trans ?_ hd.symm)
    congr 2
    omega

namespace Double

variable {x : Double}

theorem isNaN_of_isFinite (h : x.isFinite = true) : x.isNaN = false := by
  simp only [isFinite, isNaN, decide_eq_true_eq, decide_eq_false_iff_not] at h ⊢
  omega

theorem writes_text (hx : x.isNegative = false) (hfinite : x.isFinite = true) :
    ∃ cs, x.text = String.ofList cs ∧ Writes cs x.shortest := by
  obtain ⟨cs, hcs, hw⟩ := Decimal.writes_text (digits_shortest hx hfinite)
  refine ⟨cs, ?_, hw⟩
  rw [text, isNaN_of_isFinite hfinite, hx, hfinite, ← hcs]
  exact String.empty_append

/-- A finite double is read back from its text. -/
theorem doubleLiteral?_text (hx : x.isNegative = false) (hfinite : x.isFinite = true) :
    doubleLiteral? x.text = some x := by
  obtain ⟨cs, hcs, hw⟩ := writes_text hx hfinite
  rw [hcs, hw.read, ofDecimal_shortest hx hfinite]

end Double

end ScriptSyntax
