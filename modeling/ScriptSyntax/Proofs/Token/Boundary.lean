import ScriptSyntax.Proofs.Token.Context

/-!
The scan never stops inside a character: what it has passed over and what is left are texts of their
own, since everything it passes over ends in a byte below 128.
-/

namespace ScriptSyntax

open Text

theorem Text.utf8EncodeChar_ascii {c : Char} (h : c.toNat < 128) :
    String.utf8EncodeChar c = [c.toUInt8] := by
  have hbytes : bytes (String.ofList [c]) = [c.toUInt8] :=
    bytes_ofList_ascii (by simpa using h)
  rwa [bytes_ofList, List.flatMap_singleton] at hbytes

/-- Bytes that encode a text. -/
def IsText (bs : List UInt8) : Prop := ∃ s : String, bytes s = bs

variable {front rest l t : List UInt8} {kind : TokenKind} {text : String}

namespace IsText

theorem nil : IsText [] := ⟨"", rfl⟩

theorem append (hl : IsText l) (ht : IsText t) : IsText (l ++ t) := by
  obtain ⟨s, rfl⟩ := hl
  obtain ⟨u, rfl⟩ := ht
  exact ⟨s ++ u, bytes_append s u⟩

theorem ascii (h : ∀ b ∈ l, b.toNat < 128) : IsText l := ⟨ofBytes l, bytes_ofBytes_ascii h⟩

theorem singleton {b : UInt8} (h : b.toNat < 128) : IsText [b] := ascii (by simpa using h)

theorem character (c : Char) : IsText (String.utf8EncodeChar c) :=
  ⟨String.ofList [c], by rw [bytes_ofList, List.flatMap_singleton]⟩

/-- A byte below 128 is a character of its own, so it does not stand inside another. -/
theorem split {b : UInt8} (h : IsText (l ++ b :: rest)) (hb : b.toNat < 128) :
    IsText l ∧ IsText rest := by
  obtain ⟨s, hs⟩ := h
  rw [← s.ofList_toList, bytes_ofList] at hs
  generalize s.toList = cs at hs
  induction cs generalizing l with
  | nil => simp at hs
  | cons c cs ih =>
    have hcs : IsText (cs.flatMap String.utf8EncodeChar) := ⟨String.ofList cs, bytes_ofList cs⟩
    rw [List.flatMap_cons] at hs
    rcases List.append_eq_append_iff.1 hs with ⟨l', rfl, hbehind⟩ | ⟨r, hc, hbehind⟩
    · obtain ⟨hl, hrest⟩ := ih hbehind
      exact ⟨(character c).append hl, hrest⟩
    cases r with
    | nil =>
      obtain ⟨-, hrest⟩ := ih (l := []) hbehind.symm
      rw [List.append_nil] at hc
      exact ⟨hc ▸ character c, hrest⟩
    | cons b' r =>
      -- The byte is one of the character's, which then has no other.
      obtain ⟨rfl, rfl⟩ := List.cons.inj hbehind
      have hmem : b ∈ String.utf8EncodeChar c := by
        rw [hc]
        exact List.mem_append_right l List.mem_cons_self
      rcases byte_of_mem_utf8EncodeChar hmem with ⟨hlt, -⟩ | hge
      · rw [utf8EncodeChar_ascii hlt] at hc
        cases l with
        | nil =>
          cases hc
          exact ⟨.nil, hcs⟩
        | cons d l => simp at hc
      · omega

end IsText

/-- A comment that does not go on to the end goes on to a newline. -/
theorem Trivia.isText (h : Trivia rest t) (htext : IsText (t ++ rest)) :
    IsText t ∧ IsText rest := by
  induction h with
  | nil => exact ⟨.nil, htext⟩
  | @blank b t hb _ ih =>
    have hascii : b.toNat < 128 := by
      simp only [isBlank, Bool.or_eq_true, decide_eq_true_eq] at hb
      rcases hb with ((rfl | rfl) | rfl) | rfl <;> decide
    obtain ⟨-, hbehind⟩ := IsText.split (l := []) htext hascii
    obtain ⟨ht, hrest⟩ := ih hbehind
    exact ⟨(IsText.singleton hascii).append ht, hrest⟩
  | @comment run t _ hnext _ ih =>
    obtain ⟨hcomment, hbehind⟩ :
        IsText ('/'.toUInt8 :: '/'.toUInt8 :: run) ∧ IsText (t ++ rest) := by
      have htext : IsText ('/'.toUInt8 :: '/'.toUInt8 :: run ++ (t ++ rest)) := by
        simpa using htext
      cases hbehind : t ++ rest with
      | nil =>
        rw [hbehind, List.append_nil] at htext
        exact ⟨htext, .nil⟩
      | cons b behind =>
        rw [hbehind] at htext hnext
        obtain rfl := hnext b rfl
        obtain ⟨hcomment, hbehind⟩ := htext.split (by decide)
        have hnewline : IsText ['\n'.toUInt8] := .singleton (by decide)
        exact ⟨hcomment, hnewline.append hbehind⟩
    obtain ⟨ht, hrest⟩ := ih hbehind
    exact ⟨hcomment.append ht, hrest⟩

section Lexemes

theorem IsWordRun.ascii (h : IsWordRun l) : ∀ b ∈ l, b.toNat < 128 := fun b hb =>
  toNat_of_isWordByte (h.2 b hb)

theorem IsNumeral.ascii (h : IsNumeral l) : ∀ b ∈ l, b.toNat < 128 := by
  obtain ⟨whole, t, -, hd, ht, rfl⟩ := h
  intro b hb
  rcases List.mem_append.1 hb with hb | hb
  · exact toNat_of_isDigit_byte (hd b hb)
  · exact ht.forall _ (fun _ => toNat_of_isDigit_byte) (by decide) b hb

theorem Symbol.ascii (s : Symbol) : ∀ b ∈ bytes s.text, b.toNat < 128 := by
  cases s <;> decide +kernel

/-- A word, a number or a symbol is below 128 throughout, and a string ends in a quote. -/
theorem IsLexeme.last_ascii (h : IsLexeme l rest kind text) :
    ∃ init b, l = init ++ [b] ∧ b.toNat < 128 := by
  have hlast : (∀ b ∈ l, b.toNat < 128) → ∃ init b, l = init ++ [b] ∧ b.toNat < 128 := by
    intro hascii
    have hl := List.dropLast_append_getLast h.ne_nil
    exact ⟨_, _, hl.symm, hascii _ (List.getLast_mem h.ne_nil)⟩
  cases h with
  | identifier hl _ _ => exact hlast hl.holds.ascii
  | keyword k hl => exact hlast hl.holds.ascii
  | number hl _ _ => exact hlast hl.holds.ascii
  | numberOfRange hl _ => exact hlast hl.holds.of_point.ascii
  | string => exact ⟨_, _, rfl, by decide⟩
  | symbol s => exact hlast s.ascii

theorem IsLexeme.isText (h : IsLexeme l rest kind text) (htext : IsText (l ++ rest)) :
    IsText l ∧ IsText rest := by
  obtain ⟨init, b, rfl, hb⟩ := h.last_ascii
  rw [List.append_assoc] at htext
  obtain ⟨hinit, hrest⟩ := htext.split hb
  exact ⟨hinit.append (.singleton hb), hrest⟩

end Lexemes

end ScriptSyntax
