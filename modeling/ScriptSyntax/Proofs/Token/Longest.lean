import ScriptSyntax.Proofs.Token.Lexical

/-!
The lexemes of a text without the way in which they are found: each is the longest text of its class
in front of what is left.
-/

namespace ScriptSyntax

open Text

/-- The longest text of a class in front of some bytes. -/
structure Longest (P : List UInt8 → Prop) (front l : List UInt8) : Prop where
  inFront : l <+: front
  holds : P l
  longest : ∀ {m}, m <+: front → P m → m.length ≤ l.length

theorem Longest.unique {P : List UInt8 → Prop} {front l m : List UInt8} (h : Longest P front l)
    (h' : Longest P front m) : l = m := by
  have hle := h'.longest h.inFront h.holds
  have hge := h.longest h'.inFront h'.holds
  exact (List.prefix_of_prefix_length_le h.inFront h'.inFront hle).eq_of_length
    (Nat.le_antisymm hle hge)

/-- A letter or an underscore, and letters, underscores and digits behind it. -/
def IsWordRun (l : List UInt8) : Prop := (∃ b ∈ l.head?, isWordStart b) ∧ ∀ b ∈ l, isWordByte b

/-- The mark of an exponent, and a sign and digits behind it, each of which may be missing. -/
inductive IsScale : List UInt8 → Prop
  | none : IsScale []
  | unsigned {ds} : (∀ b ∈ ds, isDigit b) → IsScale ('e'.toUInt8 :: ds)
  | signed {b ds} : b = '+'.toUInt8 ∨ b = '-'.toUInt8 → (∀ b ∈ ds, isDigit b) →
    IsScale ('e'.toUInt8 :: b :: ds)

/-- What may stand behind the whole digits of a number. -/
def IsTail (l : List UInt8) : Prop := ∃ f e, IsFraction f ∧ IsScale e ∧ l = f ++ e

def IsNumeral (l : List UInt8) : Prop :=
  ∃ whole t, whole ≠ [] ∧ (∀ b ∈ whole, isDigit b) ∧ IsTail t ∧ l = whole ++ t

/-- A number with a point or an exponent is a double. -/
def numeralKind (l : List UInt8) : TokenKind :=
  if '.'.toUInt8 ∈ l ∨ 'e'.toUInt8 ∈ l then .doubleLiteral else .intLiteral

/-- What stands between quotes, and the bytes that are meant. -/
inductive IsQuoted : List UInt8 → List UInt8 → Prop
  | nil : IsQuoted [] []
  | plain {b body value} : b ≠ 0 → b ≠ '\''.toUInt8 → b ≠ '\\'.toUInt8 → IsQuoted body value →
    IsQuoted (b :: body) (b :: value)
  | escaped {b body value} : b ≠ 0 → IsQuoted body value →
    IsQuoted ('\\'.toUInt8 :: b :: body) (Lexeme.unescape b :: value)

/-- The bytes `l` in front of `rest` are a lexeme of that kind and text. In front of two points, a
number does without the point that it would end in. -/
inductive IsLexeme : (l rest : List UInt8) → TokenKind → String → Prop
  | identifier {l rest text} : Longest IsWordRun (l ++ rest) l → bytes text = l →
    (∀ k : Keyword, k.text ≠ text) → IsLexeme l rest .identifier text
  | keyword {rest} (k : Keyword) : Longest IsWordRun (bytes k.text ++ rest) (bytes k.text) →
    IsLexeme (bytes k.text) rest k k.text
  | number {l rest text} : Longest IsNumeral (l ++ rest) l → bytes text = l →
    ¬ (l.getLast? = some '.'.toUInt8 ∧ rest.head? = some '.'.toUInt8) →
    IsLexeme l rest (numeralKind l) text
  | numberOfRange {l rest text} :
    Longest IsNumeral (l ++ '.'.toUInt8 :: '.'.toUInt8 :: rest) (l ++ ['.'.toUInt8]) →
    bytes text = l → IsLexeme l ('.'.toUInt8 :: '.'.toUInt8 :: rest) (numeralKind l) text
  | string {body rest value} : IsQuoted body value →
    IsLexeme ('\''.toUInt8 :: body ++ ['\''.toUInt8]) rest .stringLiteral (ofBytes value)
  | symbol {rest} (s : Symbol) :
    Longest (fun m => ∃ t : Symbol, m = bytes t.text) (bytes s.text ++ rest) (bytes s.text) →
    IsLexeme (bytes s.text) rest s s.text

theorem IsScale.head {e : List UInt8} (h : IsScale e) : ∀ b ∈ e.head?, b = 'e'.toUInt8 := by
  cases h with
  | none => exact nofun
  | unsigned | signed => rintro _ ⟨⟩; rfl

theorem IsTail.head {t : List UInt8} (h : IsTail t) :
    ∀ b ∈ t.head?, b = '.'.toUInt8 ∨ b = 'e'.toUInt8 := by
  obtain ⟨f, e, hf, he, rfl⟩ := h
  cases hf with
  | none => exact fun b hb => .inr (he.head b hb)
  | point => rintro _ ⟨⟩; exact .inl rfl

theorem IsScale.point_not_mem {e : List UInt8} (h : IsScale e) : '.'.toUInt8 ∉ e := by
  have hdigits : ∀ {ds : List UInt8}, (∀ b ∈ ds, isDigit b) → '.'.toUInt8 ∉ ds :=
    fun hds hmem => absurd (hds _ hmem) (by decide)
  cases h with
  | none => exact List.not_mem_nil
  | unsigned hds => exact List.not_mem_cons_of_ne_of_not_mem (by decide) (hdigits hds)
  | signed hs hds =>
    refine List.not_mem_cons_of_ne_of_not_mem (by decide)
      (List.not_mem_cons_of_ne_of_not_mem ?_ (hdigits hds))
    rcases hs with rfl | rfl <;> decide

/-- Only a point by itself ends in a point. -/
theorem IsTail.eq_point {t : List UInt8} (h : IsTail t) (hlast : t.getLast? = some '.'.toUInt8) :
    t = ['.'.toUInt8] := by
  obtain ⟨f, e, hf, he, rfl⟩ := h
  cases hlaste : e.getLast? with
  | some b =>
    rw [List.getLast?_append, hlaste] at hlast
    cases hlast
    exact absurd (List.mem_of_getLast? hlaste) he.point_not_mem
  | none =>
    rw [List.getLast?_eq_none_iff] at hlaste
    subst hlaste
    rw [List.append_nil] at hlast ⊢
    cases hf with
    | none => contradiction
    | @point ds hds =>
      cases hds' : ds.getLast? with
      | none => rw [List.getLast?_eq_none_iff.1 hds']
      | some b =>
        rw [List.getLast?_cons, hds'] at hlast
        cases hlast
        exact absurd (hds _ (List.mem_of_getLast? hds')) (by decide)

/-- Digits end in no point, so the one that a number ends in is all that stands behind them. -/
theorem IsTail.eq_point_of_getLast? {whole t : List UInt8} (hd : ∀ b ∈ whole, isDigit b)
    (ht : IsTail t) (hlast : (whole ++ t).getLast? = some '.'.toUInt8) : t = ['.'.toUInt8] := by
  rw [List.getLast?_append] at hlast
  cases htlast : t.getLast? with
  | none =>
    rw [htlast] at hlast
    exact absurd (hd _ (List.mem_of_getLast? hlast)) (by decide)
  | some c =>
    rw [htlast] at hlast
    cases hlast
    exact ht.eq_point htlast

theorem isTail_nil : IsTail [] := ⟨[], [], .none, .none, rfl⟩

theorem isNumeral_digits {l : List UInt8} (hne : l ≠ []) (hd : ∀ b ∈ l, isDigit b) : IsNumeral l :=
  ⟨l, [], hne, hd, isTail_nil, (List.append_nil l).symm⟩

/-- The point that a number in front of a range is without was all that stood behind its digits. -/
theorem IsNumeral.digits_of_point {l : List UInt8} (h : IsNumeral (l ++ ['.'.toUInt8])) :
    l ≠ [] ∧ ∀ b ∈ l, isDigit b := by
  obtain ⟨whole, t, hne, hd, ht, heq⟩ := h
  obtain rfl := ht.eq_point_of_getLast? hd (by rw [← heq, List.getLast?_concat])
  obtain rfl := List.append_cancel_right heq
  exact ⟨hne, hd⟩

theorem IsNumeral.of_point {l : List UInt8} (h : IsNumeral (l ++ ['.'.toUInt8])) :
    IsNumeral l :=
  isNumeral_digits h.digits_of_point.1 h.digits_of_point.2

theorem numeralKind_append {whole t : List UInt8} (hd : ∀ b ∈ whole, isDigit b) (ht : IsTail t) :
    numeralKind (whole ++ t) = if t.length = 0 then .intLiteral else .doubleLiteral := by
  unfold numeralKind
  cases t with
  | nil =>
    have hpoint : '.'.toUInt8 ∉ whole := fun h => absurd (hd _ h) (by decide)
    have hmark : 'e'.toUInt8 ∉ whole := fun h => absurd (hd _ h) (by decide)
    rw [List.append_nil, if_neg (not_or.2 ⟨hpoint, hmark⟩), List.length_nil, if_pos rfl]
  | cons b t =>
    have hmem : b ∈ whole ++ b :: t := List.mem_append_right _ List.mem_cons_self
    have hmark : '.'.toUInt8 ∈ whole ++ b :: t ∨ 'e'.toUInt8 ∈ whole ++ b :: t := by
      rcases ht.head b rfl with rfl | rfl
      · exact .inl hmem
      · exact .inr hmem
    rw [if_pos hmark, List.length_cons, if_neg (Nat.succ_ne_zero _)]

theorem toNat_of_isDigit_byte {b : UInt8} (h : isDigit b) : b.toNat < 128 :=
  toNat_of_isWordByte (by simp [isWordByte, h])

/-- What holds of digits and of the marks and signs of a number holds of all that is behind its whole
digits. -/
theorem IsTail.forall (p : UInt8 → Prop) (hdigit : ∀ b, isDigit b → p b)
    (hmark : p '.'.toUInt8 ∧ p 'e'.toUInt8 ∧ p '+'.toUInt8 ∧ p '-'.toUInt8) {t : List UInt8}
    (h : IsTail t) : ∀ b ∈ t, p b := by
  obtain ⟨f, e, hf, he, rfl⟩ := h
  intro b hb
  rcases List.mem_append.1 hb with hb | hb
  · cases hf with
    | none => contradiction
    | point hds =>
      rcases List.mem_cons.1 hb with rfl | hb
      · exact hmark.1
      · exact hdigit b (hds b hb)
  · cases he with
    | none => contradiction
    | unsigned hds =>
      rcases List.mem_cons.1 hb with rfl | hb
      · exact hmark.2.1
      · exact hdigit b (hds b hb)
    | signed hs hds =>
      rcases List.mem_cons.1 hb with rfl | hb
      · exact hmark.2.1
      rcases List.mem_cons.1 hb with rfl | hb
      · rcases hs with rfl | rfl
        · exact hmark.2.2.1
        · exact hmark.2.2.2
      · exact hdigit b (hds b hb)

/-- A number is read as the text that it is. -/
theorem bytes_ofBytes_numeral {whole t : List UInt8} (hd : ∀ b ∈ whole, isDigit b)
    (ht : IsTail t) : bytes (ofBytes (whole ++ t)) = whole ++ t := by
  refine bytes_ofBytes_ascii fun b hb => ?_
  rcases List.mem_append.1 hb with hb | hb
  · exact toNat_of_isDigit_byte (hd b hb)
  · exact ht.forall _ (fun _ => toNat_of_isDigit_byte) (by decide) b hb

open Lexeme

variable {front rest l : List UInt8}

section Words

theorem longest_word {b : UInt8} (hb : isWordStart b) (rest : List UInt8) :
    Longest IsWordRun (b :: rest) ((b :: rest).takeWhile isWordByte) where
  inFront := List.takeWhile_prefix _
  holds := by
    have hb' : isWordByte b := by simp [isWordByte, hb]
    refine ⟨⟨b, ?_, hb⟩, fun c hc => List.mem_takeWhile_imp hc⟩
    rw [List.takeWhile_cons_of_pos hb']
    rfl
  longest := by
    rintro m ⟨r, hr⟩ ⟨-, hm⟩
    rw [← hr, List.takeWhile_append_of_pos hm, List.length_append]
    exact Nat.le_add_right _ _

theorem Longest.isWord {text : String} (h : Longest IsWordRun (l ++ rest) l)
    (ht : bytes text = l) : IsWord text ∧ ∀ b ∈ rest.head?, isWordByte b = false := by
  obtain ⟨⟨b, hb, hstart⟩, hall⟩ := h.holds
  refine ⟨⟨?_, ?_, by rwa [ht]⟩, fun c hc => ?_⟩
  · rw [ht]
    rintro rfl
    exact nomatch hb
  · rw [ht, hb]
    rintro _ ⟨⟩
    exact hstart
  · -- One more byte of a word would make it longer.
    by_contra hword
    have hword : isWordByte c = true := by simpa using hword
    obtain ⟨r, rfl⟩ := List.head?_eq_some_iff.1 hc
    have hle := h.longest (m := l ++ [c]) ⟨r, by simp⟩
      ⟨⟨b, by rw [List.head?_append, hb]; rfl, hstart⟩, by
        intro d hd
        rcases List.mem_append.1 hd with hd | hd
        · exact hall d hd
        · rwa [List.mem_singleton.1 hd]⟩
    rw [List.length_append, List.length_singleton] at hle
    omega

theorem isLexeme_word {b : UInt8} (hb : isWordStart b) (bs : List UInt8) :
    ∃ l rest, b :: bs = l ++ rest ∧ l.length = (word (b :: bs)).length ∧
      IsLexeme l rest (word (b :: bs)).kind (word (b :: bs)).text := by
  have happend := (b :: bs).takeWhile_append_dropWhile (p := isWordByte)
  have hlongest : Longest IsWordRun
      ((b :: bs).takeWhile isWordByte ++ (b :: bs).dropWhile isWordByte)
      ((b :: bs).takeWhile isWordByte) := by
    rw [happend]
    exact longest_word hb bs
  have hbytes : bytes (ofBytes ((b :: bs).takeWhile isWordByte)) = (b :: bs).takeWhile isWordByte :=
    bytes_ofBytes_ascii fun c hc => toNat_of_isWordByte (hlongest.holds.2 c hc)
  refine ⟨_, _, happend.symm, rfl, ?_⟩
  unfold word
  dsimp only
  split
  · next k hk =>
    have htext := Keyword.text_of_ofText? hk
    rw [htext] at hbytes ⊢
    rw [← hbytes] at hlongest ⊢
    exact .keyword k hlongest
  · next hk =>
    refine .identifier hlongest hbytes fun k hk' => ?_
    rw [← hk', Keyword.ofText?_text] at hk
    contradiction

end Words

section Numbers

/-- Digits in front end where the digits of the bytes do, unless nothing stands behind them. -/
theorem digits_or_nil {ds e : List UInt8} (h : ds ++ e <+: front) (hds : ∀ b ∈ ds, isDigit b)
    (he : ∀ b ∈ e.head?, isDigit b = false) :
    e = [] ∨ ds = front.takeWhile isDigit ∧ e <+: front.dropWhile isDigit := by
  obtain ⟨r, rfl⟩ := h
  cases e with
  | nil => exact .inl rfl
  | cons b e =>
    have hb : isDigit b = false := he b rfl
    right
    rw [List.append_assoc, List.takeWhile_append_of_pos hds, List.dropWhile_append_of_pos hds,
      List.cons_append, List.takeWhile_cons_of_neg (by simp [hb]),
      List.dropWhile_cons_of_neg (by simp [hb]), List.append_nil]
    exact ⟨rfl, r, rfl⟩

theorem length_le_digitsLength {ds : List UInt8} (h : ds <+: front) (hds : ∀ b ∈ ds, isDigit b) :
    ds.length ≤ digitsLength front := by
  obtain ⟨r, rfl⟩ := h
  rw [digitsLength, List.takeWhile_append_of_pos hds, List.length_append]
  exact Nat.le_add_right _ _

theorem digits_takeWhile (front : List UInt8) : ∀ b ∈ front.takeWhile isDigit, isDigit b :=
  fun _ hb => List.mem_takeWhile_imp hb

theorem longest_scale_none (h : front.head? ≠ some 'e'.toUInt8) : Longest IsScale front [] := by
  refine ⟨List.nil_prefix, .none, ?_⟩
  rintro m ⟨r, rfl⟩ hm
  cases hm with
  | none => exact Nat.le_refl _
  | unsigned | signed => exact absurd rfl h

theorem longest_scale_unsigned (h : signLength rest = 0) :
    Longest IsScale ('e'.toUInt8 :: rest) ('e'.toUInt8 :: rest.takeWhile isDigit) := by
  refine ⟨(List.prefix_cons_inj _).2 (List.takeWhile_prefix _),
    .unsigned (digits_takeWhile rest), ?_⟩
  intro m hfront hm
  cases hm with
  | none => exact Nat.zero_le _
  | unsigned hds =>
    exact Nat.succ_le_succ (length_le_digitsLength ((List.prefix_cons_inj _).1 hfront) hds)
  | signed hs hds =>
    obtain ⟨r, rfl⟩ := (List.prefix_cons_inj _).1 hfront
    simp [signLength, hs] at h

theorem longest_scale_signed {s : UInt8} (hs : s = '+'.toUInt8 ∨ s = '-'.toUInt8) :
    Longest IsScale ('e'.toUInt8 :: s :: rest) ('e'.toUInt8 :: s :: rest.takeWhile isDigit) := by
  refine ⟨(List.prefix_cons_inj _).2 ((List.prefix_cons_inj _).2 (List.takeWhile_prefix _)),
    .signed hs (digits_takeWhile rest), ?_⟩
  intro m hfront hm
  cases hm with
  | none => exact Nat.zero_le _
  | unsigned hds =>
    have hdigit : isDigit s = false := by rcases hs with rfl | rfl <;> decide
    have hle := length_le_digitsLength ((List.prefix_cons_inj _).1 hfront) hds
    simp only [digitsLength, List.takeWhile_cons, hdigit] at hle
    exact Nat.succ_le_succ (Nat.le_trans hle (Nat.zero_le _))
  | signed _ hds =>
    obtain ⟨r, hr⟩ := (List.prefix_cons_inj _).1 hfront
    cases hr
    exact Nat.succ_le_succ (Nat.succ_le_succ (length_le_digitsLength ⟨r, rfl⟩ hds))

theorem longest_scale (front : List UInt8) :
    ∃ e, e.length = exponentLength front ∧ Longest IsScale front e := by
  cases front with
  | nil => exact ⟨[], rfl, longest_scale_none nofun⟩
  | cons b rest =>
    by_cases hb : b = 'e'.toUInt8
    · subst hb
      cases rest with
      | nil => exact ⟨_, rfl, longest_scale_unsigned rfl⟩
      | cons s rest =>
        by_cases hs : s = '+'.toUInt8 ∨ s = '-'.toUInt8
        · exact ⟨_, by simp [exponentLength, signLength, hs, digitsLength], longest_scale_signed hs⟩
        · have hsign : signLength (s :: rest) = 0 := by simp [signLength, hs]
          exact ⟨_, by simp [exponentLength, hsign, digitsLength], longest_scale_unsigned hsign⟩
    · exact ⟨[], by simp [exponentLength, hb], longest_scale_none (by simpa using hb)⟩

theorem longest_tail_point {e : List UInt8} (he : Longest IsScale (rest.dropWhile isDigit) e) :
    Longest IsTail ('.'.toUInt8 :: rest) ('.'.toUInt8 :: (rest.takeWhile isDigit ++ e)) := by
  refine ⟨?_, ⟨_, e, .point (digits_takeWhile rest), he.holds, rfl⟩, ?_⟩
  · obtain ⟨r, hr⟩ := he.inFront
    exact ⟨r, by simp [hr]⟩
  · rintro m hm ⟨f, e', hf, he', rfl⟩
    have hdigit : ∀ b ∈ e'.head?, isDigit b = false := by
      intro b hb
      rw [he'.head b hb]
      decide
    cases hf with
    | none =>
      -- A point is no mark of an exponent.
      cases he' with
      | none => exact Nat.zero_le _
      | unsigned | signed => obtain ⟨r, hr⟩ := hm; cases hr
    | @point ds hds =>
      have hm : ds ++ e' <+: rest := (List.prefix_cons_inj _).1 hm
      rw [List.cons_append, List.length_cons, List.length_cons, List.length_append,
        List.length_append]
      rcases digits_or_nil hm hds hdigit with rfl | ⟨rfl, hdrop⟩
      · rw [List.append_nil] at hm
        have hle := length_le_digitsLength hm hds
        rw [digitsLength] at hle
        rw [List.length_nil]
        omega
      · have hle := he.longest hdrop he'
        omega

theorem longest_tail_none {e : List UInt8} (h : front.head? ≠ some '.'.toUInt8)
    (he : Longest IsScale front e) : Longest IsTail front e := by
  refine ⟨he.inFront, ⟨[], e, .none, he.holds, rfl⟩, ?_⟩
  rintro m hm ⟨f, e', hf, he', rfl⟩
  cases hf with
  | none => exact he.longest hm he'
  | point =>
    obtain ⟨r, rfl⟩ := hm
    exact absurd rfl h

theorem longest_tail (h : ∀ r, front ≠ '.'.toUInt8 :: '.'.toUInt8 :: r) :
    ∃ t, t.length = fractionLength front + exponentLength (front.drop (fractionLength front)) ∧
      Longest IsTail front t := by
  by_cases hpoint : front.head? = some '.'.toUInt8
  · obtain ⟨rest, rfl⟩ := List.head?_eq_some_iff.1 hpoint
    have hnext : rest.head? ≠ some '.'.toUInt8 := by
      intro hr
      obtain ⟨r, rfl⟩ := List.head?_eq_some_iff.1 hr
      exact h r rfl
    have hdrop : rest.drop (digitsLength rest) = rest.dropWhile isDigit := by
      rw [digitsLength]
      nth_rewrite 2 [← rest.takeWhile_append_dropWhile (p := isDigit)]
      rw [List.drop_left]
    obtain ⟨e, hlength, he⟩ := longest_scale (rest.dropWhile isDigit)
    refine ⟨_, ?_, longest_tail_point he⟩
    rw [fractionLength, if_pos ⟨rfl, hnext⟩, List.drop_succ_cons, hdrop, List.length_cons,
      List.length_append, hlength, digitsLength]
    omega
  · obtain ⟨e, hlength, he⟩ := longest_scale front
    refine ⟨e, ?_, longest_tail_none hpoint he⟩
    have hzero : fractionLength front = 0 := by
      cases front with
      | nil => rfl
      | cons b rest =>
        have hb : b ≠ '.'.toUInt8 := fun hb => hpoint (hb ▸ rfl)
        simp [fractionLength, hb]
    rw [hzero, Nat.zero_add, List.drop_zero, hlength]

theorem Longest.numeral {whole t : List UInt8} (hne : whole ≠ []) (hd : ∀ b ∈ whole, isDigit b)
    (hr : ∀ b ∈ rest.head?, isDigit b = false) (ht : Longest IsTail rest t) :
    Longest IsNumeral (whole ++ rest) (whole ++ t) := by
  refine ⟨(List.prefix_append_right_inj _).2 ht.inFront, ⟨whole, t, hne, hd, ht.holds, rfl⟩, ?_⟩
  rintro m hm ⟨whole', t', -, hd', ht', rfl⟩
  have hdigit : ∀ b ∈ t'.head?, isDigit b = false := by
    intro b hb
    rcases ht'.head b hb with rfl | rfl <;> decide
  rw [List.length_append, List.length_append]
  rcases digits_or_nil hm hd' hdigit with rfl | ⟨hwhole, hdrop⟩
  · rw [List.append_nil] at hm
    have hle := length_le_digitsLength hm hd'
    rw [digitsLength_append hd hr] at hle
    rw [List.length_nil]
    omega
  · rw [takeWhile_run hd hr] at hwhole
    have hrest : (whole ++ rest).dropWhile isDigit = rest := by
      have happend := (whole ++ rest).takeWhile_append_dropWhile (p := isDigit)
      rw [takeWhile_run hd hr] at happend
      exact List.append_cancel_left happend
    rw [hrest] at hdrop
    have hle := ht.longest hdrop ht'
    rw [hwhole]
    omega

/-- A digit in front begins a run of digits that ends before something else. -/
theorem exists_digits_front {b : UInt8} (hb : isDigit b) (bs : List UInt8) :
    ∃ whole rest, whole ≠ [] ∧ (∀ b ∈ whole, isDigit b) ∧
      (∀ b ∈ rest.head?, isDigit b = false) ∧ b :: bs = whole ++ rest := by
  refine ⟨_, _, ?_, digits_takeWhile (b :: bs), ?_,
    (List.takeWhile_append_dropWhile (p := isDigit)).symm⟩
  · rw [List.takeWhile_cons_of_pos hb]
    exact List.cons_ne_nil _ _
  · intro c hc
    have hnot := List.head?_dropWhile_not isDigit (b :: bs)
    rw [Option.mem_def.1 hc] at hnot
    exact hnot

section Digits

variable {whole : List UInt8}

theorem number_append (hd : ∀ b ∈ whole, isDigit b) (hr : ∀ b ∈ rest.head?, isDigit b = false) :
    number (whole ++ rest) =
      ⟨if fractionLength rest + exponentLength (rest.drop (fractionLength rest)) = 0
        then .intLiteral else .doubleLiteral,
        ofBytes ((whole ++ rest).take (whole.length + fractionLength rest +
          exponentLength (rest.drop (fractionLength rest)))),
        whole.length + fractionLength rest +
          exponentLength (rest.drop (fractionLength rest))⟩ := by
  have hwhole : digitsLength (whole ++ rest) = whole.length := digitsLength_append hd hr
  simp only [number, numberLengths, hwhole, List.drop_left, ← List.drop_drop]

/-- In front of two points the number ends at the digits, though a point may end a number. -/
theorem number_range (hne : whole ≠ []) (hd : ∀ b ∈ whole, isDigit b) (r : List UInt8) :
    number (whole ++ '.'.toUInt8 :: '.'.toUInt8 :: r) =
        ⟨numeralKind whole, ofBytes whole, whole.length⟩ ∧
      Longest IsNumeral (whole ++ '.'.toUInt8 :: '.'.toUInt8 :: r) (whole ++ ['.'.toUInt8]) := by
  have hr : ∀ b ∈ ('.'.toUInt8 :: '.'.toUInt8 :: r).head?, isDigit b = false := by
    rintro b ⟨rfl⟩
    decide
  constructor
  · have hfraction : fractionLength ('.'.toUInt8 :: '.'.toUInt8 :: r) = 0 := by
      simp [fractionLength]
    have hexponent : exponentLength ('.'.toUInt8 :: '.'.toUInt8 :: r) = 0 := by
      rw [exponentLength, if_neg (by decide)]
    have hkind := numeralKind_append hd isTail_nil
    rw [List.append_nil] at hkind
    rw [number_append hd hr, hfraction, List.drop_zero, hexponent, hkind, Nat.add_zero,
      Nat.add_zero, List.take_left]
    rfl
  · have hscale : Longest IsScale (List.dropWhile isDigit ('.'.toUInt8 :: r)) [] := by
      apply longest_scale_none
      rw [List.dropWhile_cons_of_neg (by decide)]
      exact fun h => absurd (Option.some.inj h) (by decide)
    exact Longest.numeral hne hd hr (longest_tail_point hscale)

end Digits

/-- The number in front is the longest one, or all of it but the point in front of another. -/
theorem number_longest {b : UInt8} (hb : isDigit b) (bs : List UInt8) :
    (∃ l rest, b :: bs = l ++ rest ∧ number (b :: bs) = ⟨numeralKind l, ofBytes l, l.length⟩ ∧
      bytes (ofBytes l) = l ∧ Longest IsNumeral (l ++ rest) l ∧
      ¬ (l.getLast? = some '.'.toUInt8 ∧ rest.head? = some '.'.toUInt8)) ∨
    ∃ l rest, b :: bs = l ++ '.'.toUInt8 :: '.'.toUInt8 :: rest ∧
      number (b :: bs) = ⟨numeralKind l, ofBytes l, l.length⟩ ∧ bytes (ofBytes l) = l ∧
      Longest IsNumeral (l ++ '.'.toUInt8 :: '.'.toUInt8 :: rest) (l ++ ['.'.toUInt8]) := by
  obtain ⟨whole, rest, hne, hd, hr, hfront⟩ := exists_digits_front hb bs
  rw [hfront]
  by_cases hrange : ∃ r, rest = '.'.toUInt8 :: '.'.toUInt8 :: r
  · obtain ⟨r, rfl⟩ := hrange
    obtain ⟨hnumber, hlongest⟩ := number_range hne hd r
    have hbytes := bytes_ofBytes_numeral hd isTail_nil
    rw [List.append_nil] at hbytes
    exact .inr ⟨whole, r, rfl, hnumber, hbytes, hlongest⟩
  · left
    obtain ⟨t, hlength, ht⟩ := longest_tail fun r h => hrange ⟨r, h⟩
    rw [number_append hd hr, Nat.add_assoc, ← hlength, ← List.length_append]
    obtain ⟨rest', rfl⟩ := ht.inFront
    refine ⟨whole ++ t, rest', ?_, ?_, bytes_ofBytes_numeral hd ht.holds, ?_, ?_⟩
    · rw [List.append_assoc]
    · rw [← List.append_assoc, List.take_left, numeralKind_append hd ht.holds]
    · rw [List.append_assoc]
      exact Longest.numeral hne hd hr ht
    · rintro ⟨hlast, hnext⟩
      obtain rfl := ht.holds.eq_point_of_getLast? hd hlast
      obtain ⟨r, rfl⟩ := List.head?_eq_some_iff.1 hnext
      exact hrange ⟨r, rfl⟩

end Numbers

section Quoted

variable {body value : List UInt8}

theorem IsQuoted.quoted (h : IsQuoted body value) :
    quoted (body ++ '\''.toUInt8 :: rest) = .ok (value, body.length + 1) := by
  induction h with
  | nil => exact quoted_close
  | plain h₀ hq he _ ih => exact quoted_plain h₀ hq he ih
  | escaped h₀ _ ih => exact quoted_escaped h₀ ih

theorem isQuoted_of_quoted {length : Nat} (h : Lexeme.quoted front = .ok (value, length)) :
    ∃ body rest, front = body ++ '\''.toUInt8 :: rest ∧ length = body.length + 1 ∧
      IsQuoted body value := by
  fun_induction Lexeme.quoted front generalizing value length with
  | case1 => contradiction
  | case2 => cases h; exact ⟨[], [], rfl, rfl, .nil⟩
  | case3 => contradiction
  | case4 => contradiction
  | case5 => cases h; exact ⟨[], _, rfl, rfl, .nil⟩
  | case6 b next rest hb hq he v n hr ih =>
    cases h
    obtain ⟨body, r, rfl, rfl, hbody⟩ := ih hr
    obtain ⟨rfl, hnext⟩ := he
    exact ⟨'\\'.toUInt8 :: next :: body, r, rfl, rfl, .escaped hnext hbody⟩
  | case7 => contradiction
  | case8 b next rest hb hq he v n hr ih =>
    cases h
    obtain ⟨body, r, hfront, rfl, hbody⟩ := ih hr
    refine ⟨b :: body, r, by rw [hfront]; rfl, rfl, .plain hb hq ?_ hbody⟩
    -- A backslash in front of a zero byte would not have been read to a closing quote.
    rintro rfl
    have hnext : next = 0 := by simpa using he
    subst hnext
    cases rest with
    | nil =>
      rw [Lexeme.quoted, if_neg (by decide)] at hr
      contradiction
    | cons c rest =>
      rw [Lexeme.quoted, if_pos rfl] at hr
      contradiction
  | case9 => contradiction

end Quoted

section Symbols

theorem symbols_sorted :
    Symbol.all.Pairwise fun s t => (bytes t.text).length ≤ (bytes s.text).length := by
  decide

theorem longest_symbol {s : Symbol} (h : symbol? front = some s) :
    Longest (fun m => ∃ t : Symbol, m = bytes t.text) front (bytes s.text) := by
  obtain ⟨hs, before, after, hall, hbefore⟩ := List.find?_eq_some_iff_append.1 h
  refine ⟨List.isPrefixOf_iff_prefix.1 hs, ⟨s, rfl⟩, ?_⟩
  rintro m hm ⟨t, rfl⟩
  have hsorted := symbols_sorted
  rw [hall, List.pairwise_append] at hsorted
  -- The symbols in front of `s` in the list do not fit, and those behind are no longer.
  have hmem := t.mem_all
  rw [hall, List.mem_append] at hmem
  rcases hmem with hmem | hmem
  · have hnot := hbefore t hmem
    rw [List.isPrefixOf_iff_prefix.2 hm] at hnot
    contradiction
  · rcases List.mem_cons.1 hmem with rfl | hmem
    · exact Nat.le_refl _
    · exact List.rel_of_pairwise_cons hsorted.2.1 hmem

theorem Longest.symbol {s : Symbol}
    (h : Longest (fun m => ∃ t : Symbol, m = bytes t.text) front (bytes s.text)) :
    symbol? front = some s := by
  cases hfound : symbol? front with
  | none =>
    have hnot := List.find?_eq_none.1 hfound s s.mem_all
    exact absurd (List.isPrefixOf_iff_prefix.2 h.inFront) hnot
  | some t =>
    have htext := bytes_injective ((longest_symbol hfound).unique h)
    have hkind := TokenKind.ofText_symbol t
    rw [htext, TokenKind.ofText_symbol] at hkind
    cases hkind
    rfl

end Symbols

/-- Whatever is found in front is a lexeme. -/
theorem isLexeme_of_first {front : List UInt8} {x : Lexeme} (h : first front = .ok x) :
    ∃ l rest, front = l ++ rest ∧ l.length = x.length ∧ IsLexeme l rest x.kind x.text := by
  unfold first at h
  split at h
  · contradiction
  -- Words, numbers, quoted strings and symbols, in the order in which they are tried.
  split at h
  · next hw =>
    cases h
    exact isLexeme_word hw _
  split at h
  · next hd =>
    cases h
    rcases number_longest hd _ with ⟨l, rest, hfront, hnumber, hbytes, hlongest, hrange⟩ |
      ⟨l, rest, hfront, hnumber, hbytes, hlongest⟩
    · rw [hnumber]
      exact ⟨l, rest, hfront, rfl, .number hlongest hbytes hrange⟩
    · rw [hnumber]
      exact ⟨l, _, hfront, rfl, .numberOfRange hlongest hbytes⟩
  split at h
  · next hq =>
    split at h
    · next value length hquoted =>
      cases h
      obtain ⟨body, rest, rfl, rfl, hbody⟩ := isQuoted_of_quoted hquoted
      subst hq
      exact ⟨_, rest, by simp, by simp, .string hbody⟩
    · contradiction
  split at h
  · next s hs =>
    cases h
    have hlongest := longest_symbol hs
    obtain ⟨rest, hrest⟩ := hlongest.inFront
    rw [← hrest] at hlongest ⊢
    exact ⟨_, rest, rfl, rfl, .symbol s hlongest⟩
  · contradiction

theorem first_numeral {m : List UInt8} (h : Longest IsNumeral front m) :
    ∃ b bs, front = b :: bs ∧ isDigit b ∧ first front = .ok (number front) := by
  obtain ⟨whole, t, hne, hd, -, rfl⟩ := h.holds
  obtain ⟨r, rfl⟩ := h.inFront
  obtain ⟨b, whole, rfl⟩ := List.exists_cons_of_ne_nil hne
  have hb := hd b List.mem_cons_self
  refine ⟨b, whole ++ t ++ r, rfl, hb, ?_⟩
  rw [List.cons_append, List.cons_append, first, if_neg (not_isWordStart_of_isDigit hb), if_pos hb]

/-- Every lexeme is found, whatever is behind it. -/
theorem IsLexeme.first {kind : TokenKind} {text : String} (h : IsLexeme l rest kind text) :
    first (l ++ rest) = .ok ⟨kind, text, l.length⟩ := by
  cases h with
  | identifier hl ht hk =>
    obtain ⟨hword, hends⟩ := hl.isWord ht
    have hkind : wordKind text = .identifier := by
      unfold wordKind
      split
      · next k hk' => exact absurd (Keyword.text_of_ofText? hk').symm (hk k)
      · rfl
    rw [← ht, first_word hword hends, hkind]
  | keyword k hl =>
    obtain ⟨hword, hends⟩ := hl.isWord rfl
    rw [first_word hword hends, wordKind, Keyword.ofText?_text]
  | number hl ht hrange =>
    obtain ⟨b, bs, hfront, hb, hfirst⟩ := first_numeral hl
    rw [hfront] at hl
    rw [hfirst, hfront]
    rcases number_longest hb bs with ⟨l', rest', hfront', hnumber, -, hl', -⟩ |
      ⟨l', rest', hfront', hnumber, -, hl'⟩
    · rw [← hfront'] at hl'
      rw [hnumber, ← hl.unique hl', ← ht, ofBytes_bytes]
    · rw [← hfront'] at hl'
      obtain rfl := hl.unique hl'
      have hrest := hfront.trans hfront'
      rw [List.append_assoc] at hrest
      cases List.append_cancel_left hrest
      exact absurd ⟨by simp, rfl⟩ hrange
  | @numberOfRange _ rest _ hl ht =>
    obtain ⟨-, -, -, -, hfirst⟩ := first_numeral hl
    obtain ⟨hne, hd⟩ := hl.holds.digits_of_point
    rw [hfirst, (number_range hne hd rest).1, ← ht, ofBytes_bytes]
  | @string body _ value hbody =>
    have hq : isWordStart '\''.toUInt8 = false ∧ isDigit '\''.toUInt8 = false := by decide
    rw [List.cons_append, List.cons_append, List.append_assoc, List.singleton_append]
    simp only [Lexeme.first, hq, if_false, Bool.false_eq_true, if_true, hbody.quoted]
    simp
  | symbol s hl =>
    obtain ⟨⟨b, bs, hb, hw, hd, hq, -⟩, -⟩ := symbol_bytes s
    have hs := hl.symbol
    rw [hb, List.cons_append] at hs ⊢
    simp only [Lexeme.first, hw, hd, hq, hs, if_false, Bool.false_eq_true]
    rw [hb]

end ScriptSyntax
