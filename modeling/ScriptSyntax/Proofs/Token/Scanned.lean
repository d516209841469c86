import ScriptSyntax.Token.Scan

/-!
The scan of a text as a relation: the tokens from a cursor on, and the place where the text ends.
-/

namespace ScriptSyntax

/-- The tokens from `c` on; the text ends at `finish`. -/
inductive Scanned : Cursor → List Token → Location → Prop
  | done {c} : c.skipBlank.rest = [] → Scanned c [] c.skipBlank.location
  | token {c lexeme ts finish} : Lexeme.first c.skipBlank.rest = .ok lexeme →
    Scanned (c.skipBlank.skip lexeme.length) ts finish →
    Scanned c (⟨lexeme.kind, lexeme.text, c.skipBlank.location⟩ :: ts) finish

namespace TokenList

theorem getElem?_toList {T : TokenList} {i : Nat} (h : i < T.size) :
    T.toList[i]? = some (T.get i) := by
  rw [toList, Array.getElem?_toList, getElem?_eq_get h]

theorem drop_eq {T : TokenList} {i : Nat} (h : i < T.size) :
    T.toList.drop i = T.get i :: T.toList.drop (i + 1) := by
  obtain ⟨hlt, hget⟩ := List.getElem?_eq_some_iff.1 (getElem?_toList h)
  rw [List.drop_eq_getElem_cons hlt, hget]

theorem scanFrom_done {c : Cursor} (l : TokenList) (h : c.skipBlank.rest = []) :
    scanFrom c l = (l.setFinish c.skipBlank.location, none) := by
  rw [scanFrom, if_pos (Cursor.atEnd_iff.2 h)]

theorem scanFrom_token {c : Cursor} (l : TokenList) {lexeme : Lexeme}
    (h : Lexeme.first c.skipBlank.rest = .ok lexeme) :
    scanFrom c l = scanFrom (c.skipBlank.skip lexeme.length)
      (l.push ⟨lexeme.kind, lexeme.text, c.skipBlank.location⟩) := by
  have hend : ¬ c.skipBlank.atEnd := by
    intro hend
    rw [Cursor.atEnd_iff.1 hend] at h
    contradiction
  rw [scanFrom, if_neg hend]
  split
  · next l' hl =>
    rw [h] at hl
    cases hl
    rfl
  · next hl =>
    rw [h] at hl
    contradiction

/-- What is no lexeme ends the scan, and the list stays as it is. -/
theorem scanFrom_error {c : Cursor} (l : TokenList) {cause : Cause} {length : Nat}
    (hne : c.skipBlank.rest ≠ []) (h : Lexeme.first c.skipBlank.rest = .error (cause, length)) :
    scanFrom c l = (l, some ⟨cause, (c.skipBlank.skip length).location⟩) := by
  rw [scanFrom, if_neg (mt Cursor.atEnd_iff.1 hne)]
  split
  · next hl =>
    rw [h] at hl
    contradiction
  · next hl =>
    rw [h] at hl
    cases hl
    rfl

/-- Whatever the list holds stays in front. -/
theorem tokens_scanFrom (c : Cursor) (l : TokenList) :
    ∃ ts, (scanFrom c l).1.tokens = l.tokens ++ ts := by
  induction c, l using scanFrom.induct with
  | case1 c l c' hend =>
    rw [scanFrom, if_pos hend]
    exact ⟨#[], (Array.append_empty).symm⟩
  | case2 c l c' hend lexeme hf ih =>
    rw [scanFrom_token l hf]
    obtain ⟨ts, hts⟩ := ih
    exact ⟨_, by rw [hts, push, Array.push_eq_append, Array.append_assoc]⟩
  | case3 c l c' hend cause length hf =>
    rw [scanFrom_error l (mt Cursor.atEnd_iff.2 hend) hf]
    exact ⟨#[], (Array.append_empty).symm⟩

theorem scanFrom_of_scanned {c : Cursor} {ts : List Token} {finish : Location}
    (h : Scanned c ts finish) (l : TokenList) :
    scanFrom c l = (⟨l.tokens ++ ts, finish⟩, none) := by
  induction h generalizing l with
  | done h =>
    rw [scanFrom_done l h]
    simp [setFinish]
  | token h _ ih =>
    rw [scanFrom_token l h, ih]
    simp [push]

theorem scanned_of_scanFrom {c : Cursor} {l T : TokenList} (h : scanFrom c l = (T, none)) :
    ∃ ts, Scanned c ts T.finish ∧ T.tokens = l.tokens ++ ts := by
  induction c, l using scanFrom.induct with
  | case1 c l c' hend =>
    rw [scanFrom_done l (Cursor.atEnd_iff.1 hend)] at h
    cases h
    exact ⟨[], .done (Cursor.atEnd_iff.1 hend), by simp [setFinish]⟩
  | case2 c l c' hend lexeme hf ih =>
    rw [scanFrom_token l hf] at h
    obtain ⟨ts, hts, hT⟩ := ih h
    exact ⟨_, .token hf hts, by rw [hT]; simp [push, c']⟩
  | case3 c l c' hend cause length hf =>
    rw [scanFrom, if_neg hend] at h
    split at h
    · next hl => rw [hf] at hl; exact nomatch hl
    · exact nomatch h

end TokenList

theorem tokenize_ok {source : String} {T : TokenList} :
    tokenize source = .ok T ↔ Scanned (.start source) T.toList T.finish := by
  unfold tokenize
  rw [TokenList.scan_eq_scanFrom]
  constructor
  · intro h
    split at h
    · next T' hT =>
      cases h
      obtain ⟨ts, hts, hT⟩ := TokenList.scanned_of_scanFrom hT
      rw [TokenList.toList, hT]
      simpa using hts
    · exact nomatch h
  · intro h
    rw [TokenList.scanFrom_of_scanned h]
    rcases T with ⟨⟨T⟩, finish⟩
    simp [TokenList.toList]

end ScriptSyntax
