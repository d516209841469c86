import ScriptSyntax.Proofs.Token.Boundary

/-!
A scan that fails keeps the tokens of what stands in front of the failure. It fails in front of a
character that begins no token, or of a string without an end.
-/

namespace ScriptSyntax

open Text Lexeme

variable {before gap good rest l : List UInt8} {ts : List Token} {e : Failure} {kind : TokenKind}
  {text : String}

/-- A scan that stands behind `before` reads the tokens of `good` and fails in front of `rest`. -/
structure Stops (before good rest : List UInt8) (ts : List Token) (e : Failure) : Prop where
  segments : Segments before good ts (place (before ++ good))
  plain : Plain rest
  nonempty : rest ≠ []
  fails : ∃ cause n, first rest = .error (cause, n) ∧
    e = ⟨cause, place (before ++ good ++ rest.take n)⟩
  isText : IsText (good ++ rest) → IsText good ∧ IsText rest

namespace Lexeme

theorem length_le_of_quoted {front : List UInt8} {n : Nat} (h : quoted front = .error n) :
    n ≤ front.length := by
  fun_induction quoted front generalizing n with
  | case1 => cases h; exact Nat.le_refl _
  | case2 => contradiction
  | case3 => cases h; split <;> simp
  | case4 => cases h; exact Nat.zero_le _
  | case5 => contradiction
  | case6 => contradiction
  | case7 _ _ _ _ _ _ _ hr ih =>
    cases h
    exact Nat.add_le_add_right (ih hr) 2
  | case8 => contradiction
  | case9 _ _ _ _ _ _ _ hr ih =>
    cases h
    exact Nat.succ_le_succ (ih hr)

/-- What is read before a lexeme proves wrong is there to be read. -/
theorem length_le_of_first {front : List UInt8} {cause : Cause} {n : Nat}
    (h : first front = .error (cause, n)) : n ≤ front.length := by
  unfold first at h
  split at h
  · cases h
    exact Nat.le_refl _
  split at h
  · contradiction
  split at h
  · contradiction
  split at h
  · split at h
    · contradiction
    · next n hq =>
      cases h
      exact Nat.succ_le_succ (length_le_of_quoted hq)
  split at h
  · contradiction
  · cases h
    exact Nat.zero_le _

/-- Either a string has no end, or no class of lexemes begins with the byte. -/
theorem first_error {b : UInt8} {bs : List UInt8} {cause : Cause} {n : Nat}
    (h : first (b :: bs) = .error (cause, n)) :
    (b = '\''.toUInt8 ∧ cause = .unexpectedEnd ∧ 0 < n) ∨
    (isWordStart b = false ∧ isDigit b = false ∧ b ≠ '\''.toUInt8 ∧ symbol? (b :: bs) = none ∧
      cause = .undefinedToken (String.ofList ((ofBytes (b :: bs)).toList.take 1)) ∧ n = 0) := by
  unfold first at h
  dsimp only at h
  split at h
  · contradiction
  next hw =>
  split at h
  · contradiction
  next hd =>
  split at h
  · next hq =>
    split at h
    · contradiction
    · cases h
      exact .inl ⟨hq, rfl, Nat.succ_pos _⟩
  next hq =>
  split at h
  · contradiction
  · next hs =>
    cases h
    exact .inr ⟨by simpa using hw, by simpa using hd, hq, hs, rfl, rfl⟩

end Lexeme

theorem Cursor.skip_take {n : Nat} (h : n ≤ rest.length) :
    (behind before rest).skip n = behind (before ++ rest.take n) (rest.drop n) := by
  have hskip : (behind before (rest.take n ++ rest.drop n)).skip (rest.take n).length =
      behind (before ++ rest.take n) (rest.drop n) := skip_behind
  rwa [List.take_append_drop, List.length_take_of_le h] at hskip

section Steps

/-- No text consists of a point alone, so that no number in front of it ends anew. -/
theorem not_segments_point {finish : Location} : ¬ Segments before ['.'.toUInt8] ts finish := by
  intro h
  have hskip : (Cursor.behind before ['.'.toUInt8]).skipBlank.rest = ['.'.toUInt8] := rfl
  cases h.scanned with
  | done hend =>
    rw [hskip] at hend
    contradiction
  | token hfirst _ =>
    rw [hskip] at hfirst
    contradiction

theorem Stops.here {cause : Cause} {n : Nat} (hgap : Trivia rest gap) (hplain : Plain rest)
    (hne : rest ≠ []) (hfirst : first rest = .error (cause, n)) :
    Stops before gap rest [] ⟨cause, place (before ++ gap ++ rest.take n)⟩ where
  segments := .done (hgap.congr nofun)
  plain := hplain
  nonempty := hne
  fails := ⟨cause, n, hfirst, rfl⟩
  isText := hgap.isText

/-- A token in front of what is read is read alike in front of less. -/
theorem Stops.token (hgap : Trivia (l ++ (good ++ rest)) gap)
    (hcomment : ¬ BeginsComment (l ++ (good ++ rest))) (hl : IsLexeme l (good ++ rest) kind text)
    (h : Stops (before ++ gap ++ l) good rest ts e) :
    Stops before (gap ++ (l ++ good)) rest (⟨kind, text, place (before ++ gap)⟩ :: ts) e where
  segments := by
    have hgap := hgap.in_front hl.ne_nil good
    have hcomment : ¬ BeginsComment (l ++ good) := fun hbegins =>
      hcomment (hbegins.trans ⟨rest, List.append_assoc l good rest⟩)
    have hl : IsLexeme l good kind text := hl.cut <| by
      rintro rfl
      exact not_segments_point h.segments
    have hsegments := h.segments
    have hplace : before ++ gap ++ l ++ good = before ++ (gap ++ (l ++ good)) := by simp
    rw [hplace] at hsegments
    exact .token hgap hcomment hl hsegments
  plain := h.plain
  nonempty := h.nonempty
  fails := by
    obtain ⟨cause, n, hfirst, he⟩ := h.fails
    exact ⟨cause, n, hfirst, by simpa using he⟩
  isText htext := by
    have htext : IsText (gap ++ (l ++ (good ++ rest))) := by simpa using htext
    obtain ⟨hgap, htext⟩ := hgap.isText htext
    obtain ⟨hl, htext⟩ := hl.isText htext
    obtain ⟨hgood, hrest⟩ := h.isText htext
    exact ⟨hgap.append (hl.append hgood), hrest⟩

/-- A scan that fails stops somewhere. The list holds the tokens up to there, and its end is as it
was. -/
theorem stops_of_scanFrom {c : Cursor} {L T : TokenList} (h : TokenList.scanFrom c L = (T, some e))
    {before front : List UInt8} (hc : c = .behind before front) :
    ∃ good rest ts, front = good ++ rest ∧ Stops before good rest ts e ∧
      T = ⟨L.tokens ++ ts, L.finish⟩ := by
  induction c, L using TokenList.scanFrom.induct generalizing before front with
  | case1 c L c' hend =>
    rw [TokenList.scanFrom, if_pos hend] at h
    cases h
  | case2 c L c' hend lexeme hfirst ih =>
    subst hc
    rw [TokenList.scanFrom_token L hfirst] at h
    obtain ⟨⟨gap, behind, rfl, hgap, hplain⟩, -⟩ := exists_trivia front
    have hskip : c' = .behind (before ++ gap) behind := Cursor.skipBlank_behind before hgap hplain
    have hbehind : c'.rest = behind := congrArg Cursor.rest hskip
    obtain ⟨l, behind, rfl, hlength, hl⟩ := isLexeme_of_first (hbehind ▸ hfirst)
    obtain ⟨good, rest, ts, rfl, hstops, rfl⟩ := ih h (by rw [hskip, ← hlength, Cursor.skip_behind])
    refine ⟨gap ++ (l ++ good), rest, _, by simp, .token hgap hplain.comment hl hstops, ?_⟩
    simp [TokenList.push, hskip, Cursor.location, Cursor.behind, place]
  | case3 c L c' hend cause n hfirst =>
    subst hc
    obtain ⟨⟨gap, rest, rfl, hgap, hplain⟩, -⟩ := exists_trivia front
    have hskip : (Cursor.behind before (gap ++ rest)).skipBlank = .behind (before ++ gap) rest :=
      Cursor.skipBlank_behind before hgap hplain
    have hne : rest ≠ [] := by
      rintro rfl
      exact hend (congrArg Cursor.atEnd hskip)
    have hfirst : first rest = .error (cause, n) := by
      rw [← hfirst]
      exact congrArg (fun c => first c.rest) hskip.symm
    rw [TokenList.scanFrom_error L (by rw [hskip]; exact hne) (by rw [hskip]; exact hfirst), hskip,
      Cursor.skip_take (length_le_of_first hfirst)] at h
    cases h
    exact ⟨gap, rest, [], rfl, .here hgap hplain hne hfirst, by simp⟩

end Steps

section Characters

variable {c : Char}

theorem toNat_of_isAlpha (h : c.isAlpha) :
    97 ≤ c.toNat ∧ c.toNat ≤ 122 ∨ 65 ≤ c.toNat ∧ c.toNat ≤ 90 := by
  rcases Bool.or_eq_true_iff.1 h with hupper | hlower
  · obtain ⟨hA, hZ⟩ := of_decide_eq_true hupper
    exact .inr ⟨UInt32.le_iff_toNat_le.1 hA, UInt32.le_iff_toNat_le.1 hZ⟩
  · obtain ⟨ha, hz⟩ := Bool.and_eq_true_iff.1 hlower
    exact .inl ⟨UInt32.le_iff_toNat_le.1 (of_decide_eq_true ha),
      UInt32.le_iff_toNat_le.1 (of_decide_eq_true hz)⟩

theorem isWordStart_toUInt8 (h : c.isAlpha) : isWordStart c.toUInt8 := by
  have hbounds := toNat_of_isAlpha h
  have hc := toNat_toUInt8 (show c.toNat < 128 by omega)
  have ha : 'a'.toUInt8.toNat = 97 := rfl
  have hz : 'z'.toUInt8.toNat = 122 := rfl
  have hA : 'A'.toUInt8.toNat = 65 := rfl
  have hZ : 'Z'.toUInt8.toNat = 90 := rfl
  simp only [isWordStart, UInt8.le_iff_toNat_le, hc, ha, hz, hA, hZ, Bool.or_eq_true,
    Bool.and_eq_true, decide_eq_true_eq]
  exact .inl hbounds

/-- The first byte of a text is of its first character. -/
theorem mem_utf8EncodeChar_of_head {b : UInt8} {bs : List UInt8} {cs : List Char}
    (h : bytes (String.ofList (c :: cs)) = b :: bs) : b ∈ String.utf8EncodeChar c := by
  rw [bytes_ofList, List.flatMap_cons] at h
  obtain ⟨d, ds, hd⟩ := List.exists_cons_of_ne_nil (String.utf8EncodeChar_ne_nil (c := c))
  rw [hd] at h ⊢
  exact (List.cons.inj h).1 ▸ List.mem_cons_self

/-- What no lexeme is in front of begins with a character that begins none, or with a quote. -/
theorem reason_of_first {u : String} {cause : Cause} {n : Nat} (hplain : Plain (bytes u))
    (hne : bytes u ≠ []) (h : first (bytes u) = .error (cause, n)) :
    (∃ c cs, u.toList = c :: cs ∧ ¬ c.isWhitespace ∧ ¬ c.isAlpha ∧ ¬ c.isDigit ∧ c ≠ '_' ∧
      c ≠ '\'' ∧ (∀ (s : Symbol) (v : String), u ≠ s.text ++ v) ∧
      cause = .undefinedToken (String.singleton c) ∧ n = 0) ∨
    ((∃ cs, u.toList = '\'' :: cs) ∧ cause = .unexpectedEnd ∧ 0 < n) := by
  obtain ⟨c, cs, hu⟩ : ∃ c cs, u.toList = c :: cs := by
    refine List.exists_cons_of_ne_nil fun hnil => hne ?_
    rw [← u.ofList_toList, hnil]
    rfl
  obtain ⟨b, bs, hb⟩ := List.exists_cons_of_ne_nil hne
  have hmem : b ∈ String.utf8EncodeChar c :=
    mem_utf8EncodeChar_of_head (by rw [← hu, u.ofList_toList, hb])
  have hhead : c.toNat < 128 → b = c.toUInt8 := by
    intro hlt
    rw [utf8EncodeChar_ascii hlt] at hmem
    exact List.mem_singleton.1 hmem
  have hblank : isBlank b = false := hplain.blank b (by rw [hb]; rfl)
  rw [hb] at h
  rcases first_error h with ⟨hq, hcause, hn⟩ | ⟨hw, hd, hq, hs, hcause, hn⟩
  · right
    have hc : c = '\'' := by
      rcases byte_of_mem_utf8EncodeChar hmem with ⟨hlt, hbyte⟩ | hge
      · exact toUInt8_inj hlt (by decide) (hbyte.symm.trans hq)
      · exact absurd hge (by rw [hq]; decide)
    exact ⟨⟨cs, by rw [hu, hc]⟩, hcause, hn⟩
  · left
    refine ⟨c, cs, hu, fun hc => ?_, fun hc => ?_, fun hc => ?_, ?_, ?_, fun s v hv => ?_, ?_, hn⟩
    · simp only [Char.isWhitespace, Bool.or_eq_true, decide_eq_true_eq] at hc
      rcases hc with ((rfl | rfl) | rfl) | rfl <;>
        exact absurd hblank (by rw [hhead (by decide)]; decide)
    · have hlt : c.toNat < 128 := by
        have := toNat_of_isAlpha hc
        omega
      have hword := isWordStart_toUInt8 hc
      rw [← hhead hlt, hw] at hword
      contradiction
    · have hlt : c.toNat < 128 := by
        have := toNat_of_isDigit hc
        omega
      have hdigit := isDigit_toUInt8 hc
      rw [← hhead hlt, hd] at hdigit
      contradiction
    · rintro rfl
      exact absurd hw (by rw [hhead (by decide)]; decide)
    · rintro rfl
      exact hq (hhead (by decide))
    · have hnot := List.find?_eq_none.1 hs s s.mem_all
      rw [← hb, hv, bytes_append] at hnot
      exact hnot (List.isPrefixOf_iff_prefix.2 (List.prefix_append _ _))
    · rw [hcause, ← hb, ofBytes_bytes, hu]
      rfl

end Characters

/-- A scan that fails leaves exactly the tokens of what stands in front of the failure, which is a
text of its own, whatever the list held before. What is left begins with a character that is no
blank and begins no token, and it is this character that is reported, at its place; or it begins
with a quote, and the scan stops somewhere behind that, at the latest at the end. -/
theorem failed_scan_keeps_prefix {source : String} {L T : TokenList} {e : Failure}
    (h : TokenList.scanInto source L = (T, some e)) :
    ∃ good rest : String, source = good ++ rest ∧ rest ≠ "" ∧
      (∃ G, tokenize good = .ok G ∧ G.toList = T.toList) ∧
      T.get T.size = .ofKind .endOfInput .unknown ∧
      ((∃ c cs, rest.toList = c :: cs ∧ ¬ c.isWhitespace ∧ ¬ c.isAlpha ∧ ¬ c.isDigit ∧ c ≠ '_' ∧
          c ≠ '\'' ∧ (∀ (s : Symbol) (v : String), rest ≠ s.text ++ v) ∧
          e = ⟨.undefinedToken (String.singleton c), place (bytes good)⟩) ∨
        (∃ cs, rest.toList = '\'' :: cs) ∧ ∃ n, 0 < n ∧ n ≤ (bytes rest).length ∧
          e = ⟨.unexpectedEnd, place (bytes good ++ (bytes rest).take n)⟩) := by
  obtain ⟨good, rest, ts, hsource, hstops, rfl⟩ :=
    stops_of_scanFrom h (Eq.refl (Cursor.behind [] (bytes source)))
  -- Both parts are texts, since the scan passes over whole characters only.
  obtain ⟨⟨good, rfl⟩, rest, rfl⟩ := hstops.isText ⟨source, hsource⟩
  obtain ⟨cause, n, hfirst, rfl⟩ := hstops.fails
  refine ⟨good, rest, bytes_injective (by rw [hsource, bytes_append]), ?_, ?_, ?_, ?_⟩
  · rintro rfl
    exact hstops.nonempty rfl
  · refine ⟨⟨⟨ts⟩, _⟩, tokenize_ok.2 hstops.segments.scanned, ?_⟩
    simp [TokenList.toList, TokenList.clear]
  · rw [TokenList.get_size]
    rfl
  · rcases reason_of_first hstops.plain hstops.nonempty hfirst with
      ⟨c, cs, hrest, hw, ha, hd, hu, hq, hs, rfl, rfl⟩ | ⟨hrest, rfl, hn⟩
    · exact .inl ⟨c, cs, hrest, hw, ha, hd, hu, hq, hs, by simp⟩
    · exact .inr ⟨hrest, n, hn, length_le_of_first hfirst, by simp⟩

/-- The range in front of the character is read as without it, and the comma is given up. The string
is noticed behind its last byte. -/
theorem failed_scan_keeps_prefix_range :
    (∃ T, TokenList.scanInto "a=1..é'" ⟨#[.ofKind Symbol.comma (.known 3 3)], .known 7 7⟩ =
        (T, some ⟨.undefinedToken "é", .known 0 5⟩) ∧
      T.toList = [⟨.identifier, "a", .known 0 0⟩, .ofKind Symbol.assign (.known 0 1),
        ⟨.intLiteral, "1", .known 0 2⟩, .ofKind Symbol.range (.known 0 3)] ∧
      ∃ good rest, "a=1..é'" = good ++ rest ∧ rest ≠ "" ∧
        ∃ G, tokenize good = .ok G ∧ G.toList = T.toList) ∧
    ∃ T, TokenList.scanInto "1.\n'é\\" {} = (T, some ⟨.unexpectedEnd, .known 1 4⟩) ∧
      T.toList = [⟨.doubleLiteral, "1.", .known 0 0⟩] ∧
      ∃ good rest, "1.\n'é\\" = good ++ rest ∧ rest ≠ "" ∧
        ∃ G, tokenize good = .ok G ∧ G.toList = T.toList := by
  have hcharacter :
      TokenList.scanInto "a=1..é'" ⟨#[.ofKind Symbol.comma (.known 3 3)], .known 7 7⟩ =
      (⟨#[⟨.identifier, "a", .known 0 0⟩, .ofKind Symbol.assign (.known 0 1),
        ⟨.intLiteral, "1", .known 0 2⟩, .ofKind Symbol.range (.known 0 3)], .unknown⟩,
        some ⟨.undefinedToken "é", .known 0 5⟩) := by decide +kernel
  have hstring : TokenList.scanInto "1.\n'é\\" {} =
      (⟨#[⟨.doubleLiteral, "1.", .known 0 0⟩], .unknown⟩,
        some ⟨.unexpectedEnd, .known 1 4⟩) := by decide +kernel
  obtain ⟨good, rest, hsource, hne, hgood, -⟩ := failed_scan_keeps_prefix hcharacter
  obtain ⟨good', rest', hsource', hne', hgood', -⟩ := failed_scan_keeps_prefix hstring
  exact ⟨⟨_, hcharacter, rfl, good, rest, hsource, hne, hgood⟩, _, hstring, rfl, good', rest',
    hsource', hne', hgood'⟩

end ScriptSyntax
