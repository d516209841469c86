import ScriptSyntax.Proofs.Token.Lexemes
import ScriptSyntax.Proofs.Token.Scanned

/-!
What the scan guarantees of a token: names are words but no keywords, strings hold no zero byte,
and symbols and keywords have their own texts.
-/

namespace ScriptSyntax

open Text Lexeme

namespace Text

/-- Bytes below 128 encode a text. -/
theorem bytes_ofBytes_ascii {run : List UInt8} (h : ∀ b ∈ run, b.toNat < 128) :
    bytes (ofBytes run) = run := by
  have hchar : ∀ b ∈ run, (Char.ofNat b.toNat).toNat = b.toNat := fun b hb => by
    rw [Char.ofNat, dif_pos (Or.inl (Nat.lt_trans (h b hb) (by decide)))]
    exact UInt32.toNat_ofNatLT
  have htext : bytes (String.ofList (run.map fun b => Char.ofNat b.toNat)) = run := by
    rw [bytes_ofList_ascii, List.map_map]
    · refine (List.map_congr_left fun b hb => ?_).trans (List.map_id run)
      have hlt := h b hb
      rw [← hchar b hb] at hlt
      exact UInt8.toNat_inj.1 ((toNat_toUInt8 hlt).trans (hchar b hb))
    · intro c hc
      obtain ⟨b, hb, rfl⟩ := List.mem_map.1 hc
      rw [hchar b hb]
      exact h b hb
  rw [← htext, ofBytes_bytes]

theorem bytes_ofBytes (bs : List UInt8) : bytes (ofBytes bs) = bs ∨ bytes (ofBytes bs) = [] := by
  unfold ofBytes String.fromUTF8?
  split
  · exact .inl rfl
  · exact .inr rfl

theorem toNat_of_isWordByte {b : UInt8} (h : isWordByte b) : b.toNat < 128 := by
  simp only [isWordByte, isWordStart, isDigit, Bool.and_eq_true, Bool.or_eq_true, decide_eq_true_eq,
    UInt8.le_iff_toNat_le, ← UInt8.toNat_inj] at h
  have hz : 'z'.toUInt8.toNat = 122 := rfl
  have hZ : 'Z'.toUInt8.toNat = 90 := rfl
  have hnine : '9'.toUInt8.toNat = 57 := rfl
  have hunderscore : '_'.toUInt8.toNat = 95 := rfl
  omega

end Text

/-- What holds of a token by its kind. -/
def Token.Lexical (t : Token) : Prop :=
  match t.kind with
  | .undefined | .endOfInput => False
  | .identifier => IsWord t.text ∧ Keyword.ofText? t.text = none
  | .stringLiteral => 0 ∉ bytes t.text
  | .symbol s => t.text = s.text
  | .keyword k => t.text = k.text
  | .intLiteral | .doubleLiteral => True

theorem Keyword.text_of_ofText? {text : String} {k : Keyword} (h : Keyword.ofText? text = some k) :
    text = k.text := by
  have := List.find?_some h
  exact (of_decide_eq_true this).symm

theorem unescape_ne_zero {b : UInt8} (h : b ≠ 0) : unescape b ≠ 0 := by
  unfold unescape
  split
  · decide
  split
  · decide
  split
  · decide
  · exact h

theorem quoted_nonzero {front value : List UInt8} {length : Nat}
    (h : quoted front = .ok (value, length)) : 0 ∉ value := by
  fun_induction quoted front generalizing value length with
  | case1 => contradiction
  | case2 => cases h; exact nofun
  | case3 => contradiction
  | case4 => contradiction
  | case5 => cases h; exact nofun
  | case6 b next rest hb hq he v n hr ih =>
    cases h
    simpa [Ne.symm (unescape_ne_zero he.2)] using ih hr
  | case7 => contradiction
  | case8 b next rest hb hq he v n hr ih =>
    cases h
    simpa [Ne.symm hb] using ih hr
  | case9 => contradiction

theorem lexical_word {b : UInt8} (hb : isWordStart b) (rest : List UInt8) (location : Location) :
    (⟨(word (b :: rest)).kind, (word (b :: rest)).text, location⟩ : Token).Lexical := by
  have hb' : isWordByte b := by simp [isWordByte, hb]
  have hrun : (b :: rest).takeWhile isWordByte = b :: rest.takeWhile isWordByte :=
    List.takeWhile_cons_of_pos hb'
  have hall : ∀ c ∈ (b :: rest).takeWhile isWordByte, isWordByte c := fun c hc =>
    List.mem_takeWhile_imp hc
  have hbytes : bytes (ofBytes ((b :: rest).takeWhile isWordByte)) =
      (b :: rest).takeWhile isWordByte :=
    bytes_ofBytes_ascii fun c hc => toNat_of_isWordByte (hall c hc)
  unfold word
  dsimp only
  split
  · next k hk => exact Keyword.text_of_ofText? hk
  · next hk =>
    refine ⟨⟨?_, ?_, ?_⟩, hk⟩
    · rw [hbytes, hrun]
      exact List.cons_ne_nil _ _
    · rw [hbytes, hrun]
      rintro c ⟨⟩
      exact hb
    · rw [hbytes]
      exact hall

theorem lexical_first {front : List UInt8} {l : Lexeme} (h : Lexeme.first front = .ok l)
    (location : Location) : (⟨l.kind, l.text, location⟩ : Token).Lexical := by
  unfold Lexeme.first at h
  split at h
  · contradiction
  -- Words, numbers, quoted strings and symbols, in the order in which they are tried.
  split at h
  · next hw =>
    cases h
    exact lexical_word hw _ _
  split at h
  · cases h
    simp only [number]
    split <;> trivial
  split at h
  · split at h
    · next value length hq =>
      cases h
      change 0 ∉ bytes (ofBytes value)
      -- Bytes that encode no text are read as the empty one.
      rcases bytes_ofBytes value with hb | hb
      · rw [hb]
        exact quoted_nonzero hq
      · rw [hb]
        exact List.not_mem_nil
    · contradiction
  split at h
  · cases h
    rfl
  · contradiction

/-- What holds of every lexeme wherever it stands holds of every token, also of those in front of a
failure. -/
theorem TokenList.forall_scan {P : Token → Prop} (hP : ∀ {front : List UInt8} {l : Lexeme},
    Lexeme.first front = .ok l → ∀ location, P ⟨l.kind, l.text, location⟩) (source : String) :
    ∀ i < (scan source).1.size, P ((scan source).1.get i) := by
  have hall : ∀ c l, (∀ t ∈ l.toList, P t) → ∀ t ∈ (scanFrom c l).1.toList, P t := by
    intro c l
    induction c, l using scanFrom.induct with
    | case1 c l c' hend =>
      rw [scanFrom, if_pos hend]
      exact id
    | case2 c l c' hend lexeme hf ih =>
      intro h
      rw [scanFrom_token l hf]
      apply ih
      intro t ht
      rw [toList, push, Array.toList_push, List.mem_append, List.mem_singleton] at ht
      rcases ht with ht | rfl
      · exact h t ht
      · exact hP hf _
    | case3 c l c' hend cause length hf =>
      rw [scanFrom, if_neg hend]
      split
      · next hl =>
        rw [hf] at hl
        contradiction
      · exact id
  intro i hi
  exact hall (.start source) {} (by simp [toList]) _ (List.mem_of_getElem? (getElem?_toList hi))

/-- The tokens of a list are as the scan makes them. -/
def TokenList.Lexical (T : TokenList) : Prop := ∀ i < T.size, (T.get i).Lexical

/-- No token has the kind of the end. -/
theorem TokenList.eq_size_of_end {T : TokenList} {j : Nat} (hT : T.Lexical) (hj : j ≤ T.size)
    (hend : (T.get j).kind = .endOfInput) : j = T.size := by
  refine Nat.le_antisymm hj (Nat.le_of_not_lt fun hlt => ?_)
  have hlexical := hT j hlt
  rw [Token.Lexical, hend] at hlexical
  exact hlexical

/-- Also a text that cannot be read to its end has such tokens in front of the failure. -/
theorem TokenList.lexical_scan (source : String) : (scan source).1.Lexical :=
  forall_scan (P := Token.Lexical) lexical_first source

theorem TokenList.lexical_of_tokenize {source : String} {T : TokenList}
    (h : tokenize source = .ok T) : T.Lexical := by
  have hscan := lexical_scan source
  unfold tokenize at h
  split at h
  · next T' hT =>
    cases h
    rwa [hT] at hscan
  · exact nomatch h

end ScriptSyntax
