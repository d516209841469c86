import ScriptSyntax.Proofs.Token.Scanned

/-!
The tokens of a text stand in the order of their places, and in front of the place where it ends.
-/

namespace ScriptSyntax

theorem Coordinate.lt_irrefl (a : Coordinate) : ¬ a < a := by
  cases a with
  | known n => exact Nat.lt_irrefl n
  | unknown => exact id

theorem Coordinate.lt_trans {a b c : Coordinate} (h : a < b) (h' : b < c) : a < c := by
  cases a with
  | unknown => exact h.elim
  | known l =>
    cases b with
    | unknown => exact h'.elim
    | known m =>
      cases c with
      | unknown => trivial
      | known n => exact Nat.lt_trans (show l < m from h) (show m < n from h')

namespace Location

variable {a b c : Location}

theorem lt_irrefl (a : Location) : ¬ a < a := by
  rintro (h | ⟨_, h⟩) <;> exact Coordinate.lt_irrefl _ h

theorem lt_trans (h : a < b) (h' : b < c) : a < c := by
  rcases h with h | ⟨he, h⟩ <;> rcases h' with h' | ⟨he', h'⟩
  · exact Or.inl (Coordinate.lt_trans h h')
  · exact Or.inl (he' ▸ h)
  · exact Or.inl (he ▸ h')
  · exact Or.inr ⟨he.trans he', Coordinate.lt_trans h h'⟩

theorem lt_asymm (h : a < b) : ¬ b < a := fun h' => lt_irrefl a (lt_trans h h')

theorem lt_of_le_of_lt (h : a ≤ b) (h' : b < c) : a < c := by
  rcases h with h | rfl
  · exact lt_trans h h'
  · exact h'

theorem le_of_lt (h : a < b) : a ≤ b := Or.inl h

theorem le_refl (a : Location) : a ≤ a := Or.inr rfl

theorem le_trans (h : a ≤ b) (h' : b ≤ c) : a ≤ c := by
  rcases h' with h' | rfl
  · exact le_of_lt (lt_of_le_of_lt h h')
  · exact h

end Location

namespace Cursor

theorem location_lt_step (c : Cursor) : c.location < c.step.location := by
  unfold step
  split
  · exact Or.inl (Nat.lt_succ_self c.line)
  · exact Or.inr ⟨rfl, Nat.lt_succ_self c.offset⟩

theorem location_le_skip (n : Nat) (c : Cursor) : c.location ≤ (c.skip n).location := by
  induction n generalizing c with
  | zero => exact Location.le_refl _
  | succ n ih => exact Location.le_trans (Location.le_of_lt c.location_lt_step) (ih _)

theorem location_lt_skip {n : Nat} (hn : 0 < n) (c : Cursor) :
    c.location < (c.skip n).location := by
  obtain ⟨m, rfl⟩ : ∃ m, n = m + 1 := ⟨n - 1, by omega⟩
  rcases location_le_skip m c.step with h | h
  · exact Location.lt_trans c.location_lt_step h
  · exact (show c.step.location = (c.skip (m + 1)).location from h) ▸ c.location_lt_step

end Cursor

theorem Scanned.ordered {c : Cursor} {ts : List Token} {finish : Location}
    (h : Scanned c ts finish) :
    (∀ l ∈ ts.map Token.location ++ [finish], c.location ≤ l) ∧
      (ts.map Token.location ++ [finish]).Pairwise (· < ·) := by
  induction h with
  | @done c h =>
    refine ⟨fun l hl => ?_, List.pairwise_singleton ..⟩
    rw [List.mem_singleton.1 hl]
    exact c.location_le_skip _
  | @token c lexeme ts finish h hs ih =>
    have hlt := Cursor.location_lt_skip (Lexeme.length_pos_of_first h) c.skipBlank
    refine ⟨fun l hl => ?_, List.pairwise_cons.2 ⟨fun l hl => ?_, ih.2⟩⟩
    · have hle : c.location ≤ c.skipBlank.location := c.location_le_skip _
      rcases List.mem_cons.1 hl with rfl | hl
      · exact hle
      · exact Location.le_trans hle
          (Location.le_trans (Location.le_of_lt hlt) (ih.1 l hl))
    · rcases ih.1 l hl with hl | rfl
      · exact Location.lt_trans hlt hl
      · exact hlt

namespace TokenList

/-- The places of the slots ascend up to the end of the input. -/
def Ordered (T : TokenList) : Prop :=
  ∀ {i j}, i < j → j ≤ T.size → (T.get i).location < (T.get j).location

theorem getElem?_locations (T : TokenList) {i : Nat} (h : i ≤ T.size) :
    (T.toList.map Token.location ++ [T.finish])[i]? = some (T.get i).location := by
  rcases Nat.lt_or_eq_of_le h with h | rfl
  · rw [List.getElem?_append_left (by simpa [toList, size] using h), List.getElem?_map,
      getElem?_toList h]
    rfl
  · rw [List.getElem?_append_right (by simp [toList, size]), get_size]
    simp [toList, size, Token.ofKind]

theorem ordered_of_tokenize {source : String} {T : TokenList} (h : tokenize source = .ok T) :
    T.Ordered := by
  intro i j hij hj
  have hp := (tokenize_ok.1 h).ordered.2
  have hi := T.getElem?_locations (i := i) (by omega)
  have hj := T.getElem?_locations hj
  rw [List.getElem?_eq_some_iff] at hi hj
  obtain ⟨hi, hi'⟩ := hi
  obtain ⟨hj, hj'⟩ := hj
  rw [← hi', ← hj']
  exact List.pairwise_iff_getElem.1 hp i j hi hj hij

end TokenList

end ScriptSyntax
