import Mathlib.Data.List.Induction
import Mathlib.Tactic.Ring
import ScriptSyntax.Number.Literal

/-!
Runs of digits as characters and as bytes: both have the same value, and a number written in
decimal digits is read back.
-/

namespace ScriptSyntax

namespace Text

theorem bytes_ofList (cs : List Char) :
    bytes (String.ofList cs) = cs.flatMap String.utf8EncodeChar := by
  simp [bytes, List.utf8Encode]

theorem bytes_eq_flatMap (text : String) :
    bytes text = text.toList.flatMap String.utf8EncodeChar := by
  rw [← bytes_ofList, String.ofList_toList]

/-- Characters below 128 are bytes. -/
theorem bytes_ofList_ascii {cs : List Char} (h : ∀ c ∈ cs, c.toNat < 128) :
    bytes (String.ofList cs) = cs.map Char.toUInt8 := by
  rw [bytes_ofList]
  induction cs with
  | nil => rfl
  | cons c cs ih =>
    have hc : c.utf8Size = 1 := Char.utf8Size_eq_one_iff.2 (by
      have := h c List.mem_cons_self
      rw [UInt32.le_iff_toNat_le]
      change c.toNat ≤ 127
      omega)
    rw [List.flatMap_cons, String.utf8EncodeChar_eq_singleton hc, List.map_cons,
      ih fun d hd => h d (List.mem_cons_of_mem _ hd)]
    rfl

/-- A run ends in front of the first byte that is not of its class. -/
theorem takeWhile_run {p : UInt8 → Bool} {run rest : List UInt8} (h : ∀ b ∈ run, p b)
    (hr : ∀ b ∈ rest.head?, p b = false) : (run ++ rest).takeWhile p = run := by
  rw [List.takeWhile_append_of_pos h]
  cases rest with
  | nil => simp
  | cons b rest => simp [hr b rfl]

theorem toNat_toUInt8 {c : Char} (h : c.toNat < 128) : c.toUInt8.toNat = c.toNat := by
  change c.val.toNat % 256 = c.val.toNat
  exact Nat.mod_eq_of_lt (Nat.lt_trans h (by decide))

theorem toNat_of_isDigit {c : Char} (h : c.isDigit) : 48 ≤ c.toNat ∧ c.toNat ≤ 57 :=
  Char.isDigit_iff_toNat.1 h

theorem isDigit_toUInt8 {c : Char} (h : c.isDigit) : isDigit c.toUInt8 := by
  obtain ⟨hl, hu⟩ := toNat_of_isDigit h
  have hc := toNat_toUInt8 (show c.toNat < 128 by omega)
  have hzero : '0'.toUInt8.toNat = 48 := rfl
  have hnine : '9'.toUInt8.toNat = 57 := rfl
  simp only [isDigit, UInt8.le_iff_toNat_le, hc, hzero, hnine, hl, hu, decide_true, Bool.and_self]

end Text

open Text

theorem digitsValue_append (ds es : List UInt8) :
    digitsValue (ds ++ es) = digitsValue ds * 10 ^ es.length + digitsValue es := by
  induction es using List.reverseRecOn with
  | nil => simp [digitsValue]
  | append_singleton es b ih =>
    simp only [digitsValue, ← List.append_assoc, List.foldl_append, List.foldl_cons,
      List.foldl_nil, List.length_append, List.length_singleton] at ih ⊢
    rw [ih, Nat.pow_succ]
    ring

theorem digitsValue_lt {ds : List UInt8} (h : ∀ b ∈ ds, isDigit b) :
    digitsValue ds < 10 ^ ds.length := by
  induction ds with
  | nil => exact Nat.one_pos
  | cons b ds ih =>
    have hds := ih fun b hb => h b (List.mem_cons_of_mem _ hb)
    have hb : b.toNat ≤ 57 := by
      have := h b List.mem_cons_self
      simp only [isDigit, Bool.and_eq_true, decide_eq_true_eq, UInt8.le_iff_toNat_le] at this
      exact this.2
    have hvalue := digitsValue_append [b] ds
    have hone : digitsValue [b] ≤ 9 := by
      change 10 * 0 + (b.toNat - 48) ≤ 9
      omega
    have := Nat.mul_le_mul_right (10 ^ ds.length) hone
    rw [List.singleton_append] at hvalue
    rw [List.length_cons, Nat.pow_succ]
    omega

theorem digitsValue_map {cs : List Char} (h : ∀ c ∈ cs, c.isDigit) :
    digitsValue (cs.map Char.toUInt8) = Nat.ofDigitChars 10 cs 0 := by
  have hfold (n : Nat) : (cs.map Char.toUInt8).foldl
      (fun n b => 10 * n + (b.toNat - '0'.toUInt8.toNat)) n = Nat.ofDigitChars 10 cs n := by
    induction cs generalizing n with
    | nil => rfl
    | cons c cs ih =>
      have hc := toNat_of_isDigit (h c List.mem_cons_self)
      have hvalue : c.toUInt8.toNat = c.toNat := toNat_toUInt8 (by omega)
      rw [List.map_cons, List.foldl_cons, Nat.ofDigitChars_cons, hvalue]
      exact ih (fun d hd => h d (List.mem_cons_of_mem _ hd)) _
  exact hfold 0

/-- The digits of a number, as bytes. -/
def digitsOf (n : Nat) : List UInt8 := (Nat.toDigits 10 n).map Char.toUInt8

theorem isDigit_of_mem_toDigits {n : Nat} {c : Char} (h : c ∈ Nat.toDigits 10 n) : c.isDigit :=
  Nat.isDigit_of_mem_toDigits (by decide) (by decide) h

theorem isDigit_of_mem_digitsOf {n : Nat} {b : UInt8} (h : b ∈ digitsOf n) : isDigit b := by
  obtain ⟨c, hc, rfl⟩ := List.mem_map.1 h
  exact isDigit_toUInt8 (isDigit_of_mem_toDigits hc)

theorem digitsOf_ne_nil (n : Nat) : digitsOf n ≠ [] := by
  simp [digitsOf, Nat.toDigits_ne_nil]

theorem digitsValue_digitsOf (n : Nat) : digitsValue (digitsOf n) = n := by
  rw [digitsOf, digitsValue_map fun c hc => isDigit_of_mem_toDigits hc,
    Nat.ofDigitChars_ten_toDigits]

theorem bytes_toString (n : Nat) : bytes (toString n) = digitsOf n := by
  rw [Nat.toString_eq_ofList_toDigits, bytes_ofList_ascii, digitsOf]
  intro c hc
  have := toNat_of_isDigit (isDigit_of_mem_toDigits hc)
  omega

/-- A written integer is read back, if it fits. -/
theorem intLiteral?_toString {n : Nat} (h : n < Nat.pow 2 63) :
    intLiteral? (toString n) = some (n : Int) := by
  have hall : (digitsOf n).all isDigit := List.all_eq_true.2 fun b hb => isDigit_of_mem_digitsOf hb
  simp only [intLiteral?, bytes_toString, digitsValue_digitsOf]
  exact if_pos ⟨digitsOf_ne_nil n, hall, h⟩

theorem intLiteral?_bounds {text : String} {value : Int} (h : intLiteral? text = some value) :
    0 ≤ value ∧ value < 2 ^ 63 := by
  simp only [intLiteral?, Option.ite_none_right_eq_some, Option.some.injEq] at h
  obtain ⟨⟨-, -, hlt⟩, rfl⟩ := h
  exact ⟨Int.natCast_nonneg _, Int.ofNat_lt.2 hlt⟩

end ScriptSyntax
