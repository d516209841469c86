import ScriptSyntax.Proofs.Grammar.Following
import ScriptSyntax.Proofs.Grammar.Located
import ScriptSyntax.Proofs.Grammar.Moving
import ScriptSyntax.Proofs.Program.MovedLayout
import ScriptSyntax.Proofs.Program.Unplaced
import ScriptSyntax.Proofs.Token.Order

/-!
How a text is laid out does not matter: two texts with the same tokens are read alike. Both readings
are that of one list whose tokens stand at their own numbers, moved to where each text has them.
-/

namespace ScriptSyntax

namespace Coordinate

/-- A coordinate further on by `n`. -/
def shifted (n : Nat) : Coordinate → Coordinate
  | known m => known (n + m)
  | unknown => unknown

theorem shifted_lt {n : Nat} {a b : Coordinate} (h : a < b) : a.shifted n < b.shifted n := by
  cases a with
  | unknown => exact h.elim
  | known l =>
    cases b with
    | unknown => trivial
    | known m => exact Nat.add_lt_add_left (show l < m from h) n

theorem lt_trichotomy (a b : Coordinate) : a < b ∨ a = b ∨ b < a := by
  cases a with
  | known l =>
    cases b with
    | known m =>
      rcases Nat.lt_trichotomy l m with h | rfl | h
      · exact Or.inl h
      · exact Or.inr (Or.inl rfl)
      · exact Or.inr (Or.inr h)
    | unknown => exact Or.inl trivial
  | unknown =>
    cases b with
    | known m => exact Or.inr (Or.inr trivial)
    | unknown => exact Or.inr (Or.inl rfl)

end Coordinate

namespace Location

theorem lt_trichotomy (a b : Location) : a < b ∨ a = b ∨ b < a := by
  rcases Coordinate.lt_trichotomy a.line b.line with h | hl | h
  · exact Or.inl (Or.inl h)
  · rcases Coordinate.lt_trichotomy a.offset b.offset with h | ho | h
    · exact Or.inl (Or.inr ⟨hl, h⟩)
    · cases a
      cases b
      cases hl
      cases ho
      exact Or.inr (Or.inl rfl)
    · exact Or.inr (Or.inr (Or.inr ⟨hl.symm, h⟩))
  · exact Or.inr (Or.inr (Or.inl h))

/-- A map that keeps the order of places also reflects it. -/
theorem lt_iff_of_strictMono {φ : Location → Location} (h : ∀ a b, a < b → φ a < φ b)
    (a b : Location) : φ a < φ b ↔ a < b := by
  constructor
  · intro hlt
    rcases lt_trichotomy a b with hab | rfl | hba
    · exact hab
    · exact absurd hlt (lt_irrefl _)
    · exact absurd (h b a hba) (lt_asymm hlt)
  · exact h a b

/-- A place some lines further on. -/
def shifted (n : Nat) (a : Location) : Location := ⟨a.line.shifted n, a.offset⟩

theorem shifted_lt {n : Nat} {a b : Location} (h : a < b) : a.shifted n < b.shifted n := by
  rcases h with h | ⟨hl, h⟩
  · exact Or.inl (Coordinate.shifted_lt h)
  · exact Or.inr ⟨congrArg (Coordinate.shifted n) hl, h⟩

end Location

namespace TokenList

variable {T : TokenList}

/-- The same tokens, each at its own number on the first line. -/
def numbered (T : TokenList) : TokenList :=
  ⟨T.tokens.mapIdx fun i t => { t with location := .known 0 i }, .known 0 T.size⟩

/-- The slot that a place on the first line is the number of. -/
def slot? (T : TokenList) : Location → Option Nat
  | ⟨.known 0, .known i⟩ => if i ≤ T.size then some i else none
  | _ => none

/-- Where the numbered tokens stand in `T`. All other places come behind its `lines` lines. -/
def placeOf (T : TokenList) (lines : Nat) (a : Location) : Location :=
  match T.slot? a with
  | some i => (T.get i).location
  | none => a.shifted lines

theorem slot?_eq_some {a : Location} {i : Nat} :
    T.slot? a = some i ↔ a = .known 0 i ∧ i ≤ T.size := by
  constructor
  · intro h
    unfold slot? at h
    split at h
    · split at h
      · next hi =>
        cases h
        exact ⟨rfl, hi⟩
      · exact nomatch h
    · exact nomatch h
  · rintro ⟨rfl, hi⟩
    exact if_pos hi

theorem placeOf_known {lines i : Nat} (h : i ≤ T.size) :
    T.placeOf lines (.known 0 i) = (T.get i).location := by
  rw [placeOf, slot?_eq_some.2 ⟨rfl, h⟩]

theorem placeOf_unknown {lines : Nat} : T.placeOf lines .unknown = .unknown := rfl

/-- The order of the numbers is that of the tokens, and what is no number is behind them all. -/
theorem placeOf_lt {lines offset : Nat} (hT : T.Ordered) (hfinish : T.finish = .known lines offset)
    {a b : Location} (h : a < b) : T.placeOf (lines + 1) a < T.placeOf (lines + 1) b := by
  have hlast : ∀ {i}, i ≤ T.size → (T.get i).location ≤ .known lines offset := by
    intro i hi
    have hend : (T.get T.size).location = .known lines offset := by
      rw [get_size]
      exact hfinish
    rcases Nat.lt_or_eq_of_le hi with hlt | rfl
    · exact Or.inl (hend ▸ hT hlt (Nat.le_refl _))
    · exact Or.inr hend
  unfold placeOf
  cases ha : T.slot? a with
  | some i =>
    obtain ⟨rfl, hi⟩ := slot?_eq_some.1 ha
    cases hb : T.slot? b with
    | some j =>
      obtain ⟨rfl, hj⟩ := slot?_eq_some.1 hb
      have hij : i < j := by
        rcases h with h | ⟨-, h⟩
        · exact absurd (show (0 : Nat) < 0 from h) (Nat.lt_irrefl 0)
        · exact h
      exact hT hij hj
    | none =>
      apply Location.lt_of_le_of_lt (hlast hi)
      apply Or.inl
      dsimp only [Location.shifted, Location.known]
      cases b.line with
      | known l =>
        change lines < lines + 1 + l
        omega
      | unknown => trivial
  | none =>
    cases hb : T.slot? b with
    | some j =>
      -- In front of a number there are only numbers.
      obtain ⟨rfl, hj⟩ := slot?_eq_some.1 hb
      obtain ⟨line, offset⟩ := a
      have hnumber : ∃ i, (⟨line, offset⟩ : Location) = .known 0 i ∧ i < j := by
        rcases h with h | ⟨hl, h⟩
        · cases line with
          | known l => exact absurd (show l < 0 from h) (Nat.not_lt_zero l)
          | unknown => exact h.elim
        · cases offset with
          | known i => exact ⟨i, congrArg (Location.mk · _) hl, h⟩
          | unknown => exact h.elim
      obtain ⟨i, hi, hij⟩ := hnumber
      rw [slot?_eq_some.2 ⟨hi, by omega⟩] at ha
      exact nomatch ha
    | none => exact Location.shifted_lt h

theorem moved_numbered {lines : Nat} : T.numbered.moved (T.placeOf lines) = T := by
  have htokens : T.numbered.tokens.map (Token.moved (T.placeOf lines)) = T.tokens := by
    apply Array.ext
    · simp [numbered]
    · intro i hi hi'
      have hget : T.get i = T.tokens[i] := by
        have hsome := getElem?_eq_get hi'
        rw [Array.getElem?_eq_getElem hi'] at hsome
        exact (Option.some.inj hsome).symm
      have hplace : T.placeOf lines (.known 0 i) = (T.get i).location :=
        placeOf_known (Nat.le_of_lt hi')
      simp only [numbered, Array.getElem_map, Array.getElem_mapIdx, Token.moved]
      rw [hplace, hget]
  have hfinish : T.placeOf lines T.numbered.finish = T.finish := by
    rw [numbered, placeOf_known (Nat.le_refl _), get_size]
    rfl
  rw [moved, htokens, hfinish]

theorem size_numbered : T.numbered.size = T.size := by
  simp [numbered, size]

theorem get_numbered {i : Nat} (h : i ≤ T.size) : (T.numbered.get i).location = .known 0 i := by
  rcases Nat.lt_or_eq_of_le h with hlt | rfl
  · have hsome := T.numbered.getElem?_eq_get (size_numbered.symm ▸ hlt)
    simp only [numbered, Array.getElem?_mapIdx, getElem?_eq_get hlt, Option.map_some] at hsome
    rw [numbered, ← Option.some.inj hsome]
  · have hend := get_size T.numbered
    rw [size_numbered] at hend
    rw [hend]
    rfl

/-- Numbered, lists of the same tokens are one. -/
theorem numbered_congr {T' : TokenList} (h : T.toList.map (fun t => (t.kind, t.text)) =
    T'.toList.map fun t => (t.kind, t.text)) : T.numbered = T'.numbered := by
  have hsize : T.size = T'.size := by
    simpa [toList, size] using congrArg List.length h
  have htokens : T.numbered.tokens = T'.numbered.tokens := by
    apply Array.ext
    · simpa [numbered, size] using hsize
    · intro i hi hi'
      have ht := congrArg (·[i]?) h
      simp only [numbered, Array.size_mapIdx] at hi hi'
      simp [toList, hi, hi'] at ht
      simp [numbered, ht]
  have hfinish : T.numbered.finish = T'.numbered.finish := congrArg (Location.known 0) hsize
  exact (TokenList.mk.injEq ..).mpr ⟨htokens, hfinish⟩

end TokenList

theorem Scanned.finish_known {c : Cursor} {ts : List Token} {finish : Location}
    (h : Scanned c ts finish) : ∃ line offset, finish = .known line offset := by
  induction h with
  | done _ => exact ⟨_, _, rfl⟩
  | token _ _ ih => exact ih

/-- The reading of numbered tokens, moved to a text. -/
theorem parse_numbered {source : String} {T : TokenList} (limit : Nat)
    (h : tokenize source = .ok T) :
    ∃ φ : Location → Location, φ .unknown = .unknown ∧ (∀ a b, φ a < φ b ↔ a < b) ∧
      (∀ i ≤ T.size, φ (.known 0 i) = (T.get i).location) ∧
      parse limit source =
        match Parser.topLevel limit ⟨T.numbered, limit, Arena.root⟩ ⟨0, .fresh⟩ with
        | .ok f t => .ok (Program.moved φ ⟨t.arena, f, Arena.root⟩)
        | .error e _ => .error (e.moved φ) := by
  obtain ⟨lines, offset, hfinish⟩ := (tokenize_ok.1 h).finish_known
  let φ := T.placeOf (lines + 1)
  have hlt : ∀ a b, a < b → φ a < φ b :=
    fun a b => TokenList.placeOf_lt (TokenList.ordered_of_tokenize h) hfinish
  refine ⟨φ, TokenList.placeOf_unknown, Location.lt_iff_of_strictMono hlt,
    fun i hi => TokenList.placeOf_known hi, ?_⟩
  have hrun := Parser.moves_topLevel (φ := φ) TokenList.placeOf_unknown limit
    ⟨T.numbered, limit, Arena.root⟩ ⟨0, .fresh⟩
  have hcontext : Context.moved φ ⟨T.numbered, limit, Arena.root⟩ = ⟨T, limit, Arena.root⟩ := by
    rw [Context.moved, TokenList.moved_numbered]
  have hprogress : Progress.moved φ ⟨0, .fresh⟩ = ⟨0, .fresh⟩ := by
    simp [Progress.moved, Arena.moved, Arena.fresh, Arena.pushScope]
  rw [hcontext, hprogress] at hrun
  rw [parse_of_tokenize limit h, hrun]
  cases Parser.topLevel limit ⟨T.numbered, limit, Arena.root⟩ ⟨0, .fresh⟩ <;> rfl

/-- Two texts with the same tokens, however they are laid out, make the same program and are printed
alike, or fail for the same reason at the same token. -/
theorem layout_irrelevant {source source' : String} {T T' : TokenList} (limit : Nat)
    (hT : tokenize source = .ok T) (hT' : tokenize source' = .ok T')
    (h : T.toList.map (fun t => (t.kind, t.text)) = T'.toList.map fun t => (t.kind, t.text)) :
    (∃ p p', parse limit source = .ok p ∧ parse limit source' = .ok p' ∧
      p'.unplaced = p.unplaced ∧ p'.text = p.text) ∨
    ∃ cause i, i ≤ T.size ∧ parse limit source = .error ⟨cause, (T.get i).location⟩ ∧
      parse limit source' = .error ⟨cause, (T'.get i).location⟩ := by
  obtain ⟨φ, hφ, horder, hplace, hparse⟩ := parse_numbered limit hT
  obtain ⟨φ', hφ', horder', hplace', hparse'⟩ := parse_numbered limit hT'
  have hnumbered := TokenList.numbered_congr h
  have hsize : T.size = T'.size := by
    rw [← T.size_numbered, hnumbered, T'.size_numbered]
  rw [← hnumbered] at hparse'
  have hstays := Parser.stays_topLevel (T := T.numbered) limit 0 (Nat.zero_le _) limit Arena.root
    .fresh
  rcases hstays.result with ⟨f, t, hrun, -⟩ | ⟨e, t, hrun, k, hk, he⟩
  · rw [hrun] at hparse hparse'
    refine Or.inl ⟨_, _, hparse, hparse', ?_, ?_⟩
    · rw [Program.unplaced_moved, Program.unplaced_moved]
    · rw [Program.text_moved hφ' horder', Program.text_moved hφ horder]
  · -- The failure is at a token of the numbered list, and moves to that token of each text.
    rw [TokenList.size_numbered] at hk
    rw [TokenList.get_numbered hk] at he
    rw [hrun] at hparse hparse'
    refine Or.inr ⟨e.cause, k, hk, ?_, ?_⟩
    · rw [hparse, ← hplace k hk, ← he]
      rfl
    · rw [hparse', ← hplace' k (hsize ▸ hk), ← he]
      rfl

/-- A function and a statement stay in their order on one line, on three, and behind a comment. -/
theorem layout_irrelevant_comment :
    (∃ p p', parse 8 "f(); function void f() { }" = .ok p ∧
      parse 8 "
  f ( ) ; // called first
 function void f(){}" = .ok p' ∧
      p'.unplaced = p.unplaced ∧ p'.text = p.text) ∧
    ∃ cause i T T', tokenize "x = 1;" = .ok T ∧ tokenize "// none
 x
=1 ;" = .ok T' ∧
      parse 8 "x = 1;" = .error ⟨cause, (T.get i).location⟩ ∧
      parse 8 "// none
 x
=1 ;" = .error ⟨cause, (T'.get i).location⟩ := by
  constructor
  · have h : (match tokenize "f(); function void f() { }",
          tokenize "
  f ( ) ; // called first
 function void f(){}" with
        | .ok T, .ok T' => decide (T.toList.map (fun t => (t.kind, t.text)) =
            T'.toList.map fun t => (t.kind, t.text))
        | _, _ => false) = true := by decide +kernel
    have hok : (parse 8 "f(); function void f() { }").isOk = true := by decide +kernel
    split at h
    · next T T' hT hT' =>
      rcases layout_irrelevant 8 hT hT' (of_decide_eq_true h) with hp | ⟨cause, i, -, he, -⟩
      · exact hp
      · rw [he] at hok
        exact nomatch hok
    · contradiction
  · have h : (match tokenize "x = 1;", tokenize "// none
 x
=1 ;" with
        | .ok T, .ok T' => decide (T.toList.map (fun t => (t.kind, t.text)) =
            T'.toList.map fun t => (t.kind, t.text))
        | _, _ => false) = true := by decide +kernel
    have herror : (parse 8 "x = 1;").isOk = false := by decide +kernel
    split at h
    · next T T' hT hT' =>
      rcases layout_irrelevant 8 hT hT' (of_decide_eq_true h) with
        ⟨p, _, hp, -⟩ | ⟨cause, i, -, he, he'⟩
      · rw [hp] at herror
        exact nomatch herror
      · exact ⟨cause, i, T, T', hT, hT', he, he'⟩
    · contradiction

end ScriptSyntax
