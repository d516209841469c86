import ScriptSyntax.Proofs.Token.Longest
import ScriptSyntax.Proofs.Token.Order
import ScriptSyntax.Proofs.Token.Rescan

/-!
The scan cuts a text into its lexemes and what stands between them, and there is no other way to cut
it. Each token has the place where its lexeme begins.
-/

namespace ScriptSyntax

open Text

/-- Blanks and comments in front of `rest`. A comment goes on to the next newline or to the end. -/
inductive Trivia (rest : List UInt8) : List UInt8 → Prop
  | nil : Trivia rest []
  | blank {b t} : isBlank b → Trivia rest t → Trivia rest (b :: t)
  | comment {run t} : '\n'.toUInt8 ∉ run → (∀ b ∈ (t ++ rest).head?, b = '\n'.toUInt8) →
    Trivia rest t → Trivia rest ('/'.toUInt8 :: '/'.toUInt8 :: (run ++ t))

def BeginsComment (front : List UInt8) : Prop := ['/'.toUInt8, '/'.toUInt8] <+: front

/-- The place behind some bytes: the newlines among them, and the bytes since the last of these. -/
def place (before : List UInt8) : Location :=
  .known (before.count '\n'.toUInt8) (before.reverse.takeWhile (· ≠ '\n'.toUInt8)).length

/-- The tokens of `front`, which stands behind `before`, and the place where the text ends. -/
inductive Segments : (before front : List UInt8) → List Token → Location → Prop
  | done {before t} : Trivia [] t → Segments before t [] (place (before ++ t))
  | token {before t l rest kind text ts finish} : Trivia (l ++ rest) t →
    ¬ BeginsComment (l ++ rest) → IsLexeme l rest kind text →
    Segments (before ++ t ++ l) rest ts finish →
    Segments before (t ++ (l ++ rest)) (⟨kind, text, place (before ++ t)⟩ :: ts) finish

section Blanks

variable {front rest run t : List UInt8}

/-- What neither a blank nor a comment begins. -/
structure Plain (front : List UInt8) : Prop where
  blank : ∀ b ∈ front.head?, isBlank b = false
  comment : ¬ BeginsComment front

theorem plain_nil : Plain [] := ⟨nofun, by rintro ⟨r, hr⟩; contradiction⟩

theorem blankLength_plain (h : Plain front) : blankLength false front = 0 := by
  cases front with
  | nil => rfl
  | cons b bs =>
    refine blankLength_eq_zero (h.blank b rfl) fun hb hnext => h.comment ?_
    obtain ⟨r, rfl⟩ := List.head?_eq_some_iff.1 hnext
    exact ⟨r, by rw [hb]; rfl⟩

/-- A newline that ends a comment is passed over as a blank. -/
theorem blankLength_comment (hrun : '\n'.toUInt8 ∉ run)
    (h : ∀ b ∈ rest.head?, b = '\n'.toUInt8) :
    blankLength true (run ++ rest) = run.length + blankLength false rest := by
  induction run with
  | nil =>
    rw [List.nil_append, List.length_nil, Nat.zero_add]
    cases rest with
    | nil => rfl
    | cons b rest =>
      rw [h b rfl]
      rfl
  | cons b run ih =>
    obtain ⟨hb, hrun⟩ := List.ne_and_not_mem_of_not_mem_cons hrun
    have hgo : decide (b ≠ '\n'.toUInt8) = true := decide_eq_true hb.symm
    rw [List.cons_append, blankLength, if_pos rfl, hgo, ih hrun, List.length_cons]
    omega

theorem Trivia.blankLength_eq (h : Trivia rest t) (hr : Plain rest) :
    blankLength false (t ++ rest) = t.length := by
  induction h with
  | nil => exact blankLength_plain hr
  | blank hb _ ih => simp [blankLength, hb, ih]
  | @comment run t hrun hnext _ ih =>
    have hslash : isBlank '/'.toUInt8 = false := by decide
    have hrun' : '\n'.toUInt8 ∉ '/'.toUInt8 :: run :=
      List.not_mem_cons_of_ne_of_not_mem (by decide) hrun
    have hlength := blankLength_comment hrun' hnext
    rw [ih] at hlength
    rw [List.cons_append, List.cons_append, List.append_assoc, ← List.cons_append, blankLength,
      if_neg Bool.false_ne_true, hslash, if_neg Bool.false_ne_true, if_pos ⟨rfl, rfl⟩, hlength]
    simp only [List.length_cons, List.length_append]
    omega

/-- In front of all bytes stand blanks and comments, if only none, and then what neither begins. The
second part is about the inside of a comment. -/
theorem exists_trivia (front : List UInt8) :
    (∃ t rest, front = t ++ rest ∧ Trivia rest t ∧ Plain rest) ∧
    ∃ run t rest, front = run ++ (t ++ rest) ∧ '\n'.toUInt8 ∉ run ∧
      (∀ b ∈ (t ++ rest).head?, b = '\n'.toUInt8) ∧ Trivia rest t ∧ Plain rest := by
  induction front with
  | nil => exact ⟨⟨[], [], rfl, .nil, plain_nil⟩, [], [], [], rfl, nofun, nofun, .nil, plain_nil⟩
  | cons b bs ih =>
    obtain ⟨⟨t, rest, hbs, ht, hplain⟩, run, t', rest', hbs', hrun, hnext, ht', hplain'⟩ := ih
    refine ⟨?_, ?_⟩
    · by_cases hb : isBlank b
      · exact ⟨b :: t, rest, by rw [hbs]; rfl, .blank hb ht, hplain⟩
      · by_cases hcomment : b = '/'.toUInt8 ∧ bs.head? = some '/'.toUInt8
        · obtain ⟨rfl, hslash⟩ := hcomment
          rw [hbs'] at hslash
          -- The second slash stands inside the comment, so the run begins with it.
          cases run with
          | nil => exact absurd (hnext _ hslash) (by decide)
          | cons c run =>
            cases hslash
            exact ⟨'/'.toUInt8 :: '/'.toUInt8 :: (run ++ t'), rest', by simp [hbs'],
              .comment (List.not_mem_of_not_mem_cons hrun) hnext ht', hplain'⟩
        · have hblank : isBlank b = false := by simpa using hb
          refine ⟨[], b :: bs, rfl, .nil, fun c hc => by cases hc; exact hblank, ?_⟩
          rintro ⟨r, hr⟩
          cases hr
          exact hcomment ⟨rfl, rfl⟩
    · by_cases hb : b = '\n'.toUInt8
      · subst hb
        exact ⟨[], '\n'.toUInt8 :: t, rest, by rw [hbs]; rfl, List.not_mem_nil,
          by rintro _ ⟨⟩; rfl, .blank (by decide) ht, hplain⟩
      · exact ⟨b :: run, t', rest', by rw [hbs']; rfl,
          List.not_mem_cons_of_ne_of_not_mem (Ne.symm hb) hrun, hnext, ht', hplain'⟩

end Blanks

namespace Cursor

def behind (before rest : List UInt8) : Cursor :=
  ⟨rest, before.count '\n'.toUInt8, (before.reverse.takeWhile (· ≠ '\n'.toUInt8)).length⟩

variable {before rest : List UInt8}

theorem step_behind {b : UInt8} : (behind before (b :: rest)).step = behind (before ++ [b]) rest := by
  have hpeek : (behind before (b :: rest)).peek 0 = b := rfl
  rw [step, hpeek]
  by_cases hb : b = '\n'.toUInt8
  · simp [behind, hb]
  · simp [behind, hb]

theorem skip_behind {l : List UInt8} :
    (behind before (l ++ rest)).skip l.length = behind (before ++ l) rest := by
  induction l generalizing before with
  | nil => rw [List.append_nil]; rfl
  | cons b l ih =>
    rw [List.length_cons, skip, List.cons_append, step_behind, ih, List.append_assoc]
    rfl

end Cursor

theorem Cursor.skipBlank_behind (before : List UInt8) {t rest : List UInt8} (h : Trivia rest t)
    (hr : Plain rest) : (Cursor.behind before (t ++ rest)).skipBlank = .behind (before ++ t) rest := by
  have hlength : blankLength false (Cursor.behind before (t ++ rest)).rest = t.length :=
    h.blankLength_eq hr
  rw [Cursor.skipBlank, hlength, Cursor.skip_behind]

/-- No lexeme begins with a blank. -/
theorem not_blank_of_first {front : List UInt8} {x : Lexeme} (h : Lexeme.first front = .ok x) :
    ∀ b ∈ front.head?, isBlank b = false := by
  cases front with
  | nil => exact nofun
  | cons b bs =>
    rintro _ ⟨⟩
    cases hblank : isBlank b with
    | false => rfl
    | true =>
      have hother : isWordStart b = false ∧ isDigit b = false ∧ b ≠ '\''.toUInt8 := by
        simp only [isBlank, Bool.or_eq_true, decide_eq_true_eq] at hblank
        rcases hblank with ((rfl | rfl) | rfl) | rfl <;> decide
      obtain ⟨hw, hd, hq⟩ := hother
      have hs : Lexeme.symbol? (b :: bs) = none := by
        refine List.find?_eq_none.2 fun s _ hs => ?_
        obtain ⟨⟨c, cs, hc, -, -, -, hnot, -⟩, -⟩ := Lexeme.symbol_bytes s
        rw [hc, List.isPrefixOf_cons_cons] at hs
        have hcb : c = b := by simpa using (Bool.and_eq_true_iff.1 hs).1
        rw [hcb, hblank] at hnot
        contradiction
      simp [Lexeme.first, hw, hd, hq, hs] at h

theorem segments_of_scanned {c : Cursor} {ts : List Token} {finish : Location}
    (h : Scanned c ts finish) {before front : List UInt8} (hc : c = .behind before front) :
    Segments before front ts finish := by
  induction h generalizing before front with
  | @done c hend =>
    subst hc
    obtain ⟨⟨t, rest, rfl, ht, hr⟩, -⟩ := exists_trivia front
    rw [Cursor.skipBlank_behind before ht hr] at hend ⊢
    obtain rfl : rest = [] := hend
    rw [List.append_nil]
    exact .done ht
  | @token c x ts finish hfirst _ ih =>
    subst hc
    obtain ⟨⟨t, rest, rfl, ht, hr⟩, -⟩ := exists_trivia front
    rw [Cursor.skipBlank_behind before ht hr] at hfirst ih ⊢
    obtain ⟨l, rest, rfl, hlength, hl⟩ := isLexeme_of_first hfirst
    rw [← hlength, Cursor.skip_behind] at ih
    exact .token ht hr.comment hl (ih rfl)

theorem Segments.scanned {before front : List UInt8} {ts : List Token} {finish : Location}
    (h : Segments before front ts finish) : Scanned (.behind before front) ts finish := by
  induction h with
  | @done before t ht =>
    have hskip := Cursor.skipBlank_behind before ht plain_nil
    rw [List.append_nil] at hskip
    have hdone : Scanned (.behind before t) [] (Cursor.behind before t).skipBlank.location :=
      .done (by rw [hskip]; rfl)
    rwa [hskip] at hdone
  | @token before t l rest kind text ts finish ht hcomment hl _ ih =>
    have hfirst := hl.first
    have hskip := Cursor.skipBlank_behind before ht
      ⟨not_blank_of_first hfirst, hcomment⟩
    have htoken : Scanned (.behind before (t ++ (l ++ rest)))
        (⟨kind, text, (Cursor.behind before (t ++ (l ++ rest))).skipBlank.location⟩ :: ts)
        finish := by
      have hfound : Lexeme.first (Cursor.behind before (t ++ (l ++ rest))).skipBlank.rest =
          .ok ⟨kind, text, l.length⟩ := by
        rw [hskip]
        exact hfirst
      refine .token hfound ?_
      rw [hskip, Cursor.skip_behind]
      exact ih
    rwa [hskip] at htoken

theorem Segments.finish_eq {before front : List UInt8} {ts : List Token} {finish : Location}
    (h : Segments before front ts finish) : finish = place (before ++ front) := by
  induction h with
  | done => rfl
  | token _ _ _ _ ih => rw [ih, List.append_assoc, List.append_assoc]

/-- A text has the tokens by which it is cut into lexemes, and fails if it cannot be cut. Lexemes
are the longest of their classes, between them stand blanks and comments and nothing else, a token
has the place where its lexeme begins, and the slot behind the last one has the place where the text
ends. All these places ascend. -/
theorem tokens_segment_source (source : String) (T : TokenList) :
    (tokenize source = .ok T ↔ Segments [] (bytes source) T.toList T.finish) ∧
    (tokenize source = .ok T →
      (T.get T.size).location = place (bytes source) ∧
      ∀ i j, i < j → j ≤ T.size → (T.get i).location < (T.get j).location) := by
  have hiff : tokenize source = .ok T ↔ Segments [] (bytes source) T.toList T.finish :=
    tokenize_ok.trans ⟨fun h => segments_of_scanned h rfl, Segments.scanned⟩
  refine ⟨hiff, fun h => ⟨?_, fun i j => TokenList.ordered_of_tokenize h⟩⟩
  rw [TokenList.get_size]
  exact (hiff.1 h).finish_eq

/-- The number in front of the range has none of its points, and the comment and the newline inside
the string count for the places behind them. -/
theorem tokens_segment_source_range :
    ∃ T, tokenize "a = 1..2e; // ..\n'x\\'\ny' in" = .ok T ∧
      T.toList = [⟨.identifier, "a", .known 0 0⟩, .ofKind Symbol.assign (.known 0 2),
        ⟨.intLiteral, "1", .known 0 4⟩, .ofKind Symbol.range (.known 0 5),
        ⟨.doubleLiteral, "2e", .known 0 7⟩, .ofKind Symbol.semicolon (.known 0 9),
        ⟨.stringLiteral, "x'\ny", .known 1 0⟩, .ofKind Keyword.inKw (.known 2 3)] ∧
      Segments [] (bytes "a = 1..2e; // ..\n'x\\'\ny' in") T.toList T.finish ∧
      (T.get T.size).location = .known 2 5 ∧ (T.get 6).location < (T.get 7).location := by
  have h : tokenize "a = 1..2e; // ..\n'x\\'\ny' in" = .ok ⟨#[⟨.identifier, "a", .known 0 0⟩,
      .ofKind Symbol.assign (.known 0 2), ⟨.intLiteral, "1", .known 0 4⟩,
      .ofKind Symbol.range (.known 0 5), ⟨.doubleLiteral, "2e", .known 0 7⟩,
      .ofKind Symbol.semicolon (.known 0 9), ⟨.stringLiteral, "x'\ny", .known 1 0⟩,
      .ofKind Keyword.inKw (.known 2 3)], .known 2 5⟩ := by decide +kernel
  obtain ⟨hiff, hplaces⟩ := tokens_segment_source "a = 1..2e; // ..\n'x\\'\ny' in" _
  exact ⟨_, h, rfl, hiff.1 h, rfl, (hplaces h).2 6 7 (by decide) (by decide)⟩

end ScriptSyntax
