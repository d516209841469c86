import ScriptSyntax.Proofs.Grammar.Depth
import ScriptSyntax.Proofs.NestingLimit
import ScriptSyntax.Proofs.RoundTrip

/-!
Under which limits the printed form of a program is read again. Every operation is in parentheses
there, so that it may be nested deeper than the text that the program was read from.
-/

namespace ScriptSyntax

open ScriptSyntax.Parser

variable {limit : Nat} {source : String} {p : Program} {T : TokenList} {cs : List Clause}

/-- A text that says what it says as it would be printed is read under the limits that its clauses
are not too deep for. -/
theorem ProgramAt.parse_iff (h : ProgramAt T cs p) (hT : tokenize source = .ok T)
    (hs : Spells T 0 (Clause.piecesOf 0 cs) T.size) (levels : Nat) :
    parse levels source = .ok p ↔ Clause.depthOf cs ≤ levels := by
  cases h with
  | mk h hj =>
    have hend : (T.get T.size).kind = .endOfInput := by rw [TokenList.get_size]; rfl
    obtain ⟨-, hitems⟩ := h.takes levels hs endClose_none
      (endClose_ok.2 (.inl ⟨hj, rfl, rfl⟩)) (by rw [hend]; decide)
    have hmany := Takes.many (hitems _ (by dsimp only; omega))
    constructor
    · -- Whatever program the text is read as, its statements were read with these levels.
      intro hp
      obtain ⟨T', t, hT', htop, -⟩ := parse_ok.1 hp
      rw [hT] at hT'
      cases hT'
      obtain ⟨r, u, hr, -⟩ := topLevel_ok.1 htop
      exact ((hmany ..).1 hr).1
    · intro hl
      exact parse_ok.2 ⟨T, _, hT, topLevel_ok.2 ⟨_, _, hmany.run hl, rfl, rfl⟩, rfl⟩

/-- The printed form of a program without infinite numbers is read again, as the program it was
printed from but for its places, and is printed alike, by the parsers whose limit its clauses are
not too deep for. All others find it too deep. -/
theorem printed_read_iff_shallow (h : parse limit source = .ok p) (hfinite : p.isFinite) :
    ∃ cs q, p.pieces = Clause.piecesOf 0 cs ∧ q.unplaced = p.unplaced ∧ q.text = p.text ∧
      ∀ levels, (Clause.depthOf cs ≤ levels → parse levels p.text = .ok q) ∧
        (levels < Clause.depthOf cs →
          ∃ l, parse levels p.text = .error ⟨.nestingTooDeep levels, l⟩) := by
  obtain ⟨T, T', cs, hp⟩ := printed_of_parse h hfinite
  obtain ⟨q, hq, hu, htext⟩ := hp.reread
  have hparse := hq.parse_iff hp.text (hp.pieces ▸ hp.spells)
  refine ⟨cs, q, hp.pieces, hu, htext, fun levels => ⟨(hparse levels).2, fun hl => ?_⟩⟩
  -- A parser that does not find it too deep reads `q`, as the one with enough levels does.
  rcases parse_deepened p.text (Nat.le_of_lt hl) with hdeep | ⟨hsame, -⟩
  · exact hdeep
  · have hread := (hparse _).2 (Nat.le_refl (Clause.depthOf cs))
    rw [hsame, hparse levels] at hread
    exact absurd hl (Nat.not_lt.2 hread)

example : Clause.depthOf [.expression (.binary .add (.int 1) (.int 2))] = 3 := by decide

/-- The sum of two numbers under a limit that lets in its text as it was written. -/
theorem printed_read_iff_shallow_sum :
    ∃ p, parse 2 "1+2;" = .ok p ∧ p.isFinite ∧
      ∃ cs q, p.pieces = Clause.piecesOf 0 cs ∧ q.unplaced = p.unplaced ∧ q.text = p.text ∧
        ∀ levels, (Clause.depthOf cs ≤ levels → parse levels p.text = .ok q) ∧
          (levels < Clause.depthOf cs →
            ∃ l, parse levels p.text = .error ⟨.nestingTooDeep levels, l⟩) := by
  have h : (match parse 2 "1+2;" with
      | .ok p => p.isFinite
      | .error _ => false) = true := by decide +kernel
  split at h
  · next p hp => exact ⟨p, hp, h, printed_read_iff_shallow hp h⟩
  · contradiction

/-- The parser that reads a program need not read its printed form: the parentheses around a sum
are one level more, and a number too great for a double is printed as a name. -/
theorem printed_not_read_again :
    (∃ p, parse 2 "1+2;" = .ok p ∧ p.text = "(1 + 2);\n" ∧
      parse 2 p.text = .error ⟨.nestingTooDeep 2, .known 0 5⟩) ∧
    (∃ p, parse 128 "1e999;" = .ok p ∧ p.text = "inf;\n" ∧
      parse 128 p.text = .error ⟨.unknownVariable "inf", .known 0 0⟩) ∧
    ¬ ∀ limit source p, parse limit source = .ok p → ∃ q, parse limit p.text = .ok q := by
  have hsum : (match parse 2 "1+2;" with
      | .ok p => decide (p.text = "(1 + 2);\n")
      | .error _ => false) = true := by decide +kernel
  have hinf : (match parse 128 "1e999;" with
      | .ok p => decide (p.text = "inf;\n")
      | .error _ => false) = true := by decide +kernel
  have hdeep : parse 2 "(1 + 2);\n" = .error ⟨.nestingTooDeep 2, .known 0 5⟩ := by decide +kernel
  have hunknown : parse 128 "inf;\n" = .error ⟨.unknownVariable "inf", .known 0 0⟩ := by
    decide +kernel
  split at hsum
  · next p hp =>
    have hp' := of_decide_eq_true hsum
    split at hinf
    · next q hq =>
      have hq' := of_decide_eq_true hinf
      refine ⟨⟨p, hp, hp', by rw [hp', hdeep]⟩, ⟨q, hq, hq', by rw [hq', hunknown]⟩, fun hall => ?_⟩
      obtain ⟨r, hr⟩ := hall 2 _ p hp
      rw [hp', hdeep] at hr
      contradiction
    · contradiction
  · contradiction

end ScriptSyntax
