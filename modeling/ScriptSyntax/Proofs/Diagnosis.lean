import ScriptSyntax.Proofs.Arrangement
import ScriptSyntax.Proofs.Interruption

/-!
What is wrong with a text is noticed at a place of the text. A scan stops within it, and a parser
fails at a token or at the end of the input, never at a slot behind that.
-/

namespace ScriptSyntax

open Text

/-- A place in front of a text, within it or behind it. -/
def PlaceWithin (text : List UInt8) (l : Location) : Prop :=
  ∃ before, before <+: text ∧ l = place before

section Places

variable {before front text : List UInt8} {l : Location}

theorem PlaceWithin.exists_take (h : PlaceWithin text l) :
    ∃ n ≤ text.length, l = place (text.take n) := by
  obtain ⟨before, hbefore, rfl⟩ := h
  exact ⟨before.length, hbefore.length_le, by rw [← List.prefix_iff_eq_take.1 hbefore]⟩

/-- The newlines in front of a place and the bytes behind the last of them are different bytes. -/
theorem place_known (before : List UInt8) :
    ∃ line offset, place before = .known line offset ∧ line + offset ≤ before.length := by
  let run := before.reverse.takeWhile (· ≠ '\n'.toUInt8)
  let older := before.reverse.dropWhile (· ≠ '\n'.toUInt8)
  have hsplit : run ++ older = before.reverse := List.takeWhile_append_dropWhile
  have hrun : run.count '\n'.toUInt8 = 0 :=
    List.count_eq_zero.2 fun hmem => by simpa using List.mem_takeWhile_imp hmem
  have hcount : before.count '\n'.toUInt8 ≤ older.length := by
    rw [← List.count_reverse, ← hsplit, List.count_append, hrun, Nat.zero_add]
    exact List.count_le_length
  have hlength : run.length + older.length = before.length := by
    rw [← List.length_append, hsplit, List.length_reverse]
  exact ⟨_, run.length, rfl, by omega⟩

theorem PlaceWithin.known (h : PlaceWithin text l) :
    ∃ line offset, l = .known line offset ∧ line + offset ≤ text.length := by
  obtain ⟨before, hbefore, rfl⟩ := h
  obtain ⟨line, offset, hplace, hle⟩ := place_known before
  exact ⟨line, offset, hplace, hle.trans hbefore.length_le⟩

theorem placeWithin_append : PlaceWithin (before ++ front) (place before) :=
  ⟨before, List.prefix_append _ _, rfl⟩

end Places

section Scanning

theorem Segments.placeWithin {before front : List UInt8} {ts : List Token} {finish : Location}
    (h : Segments before front ts finish) {t : Token} (ht : t ∈ ts) :
    PlaceWithin (before ++ front) t.location := by
  induction h with
  | done => exact absurd ht List.not_mem_nil
  | @token before gap lexeme rest kind text ts finish _ _ _ _ ih =>
    rcases List.mem_cons.1 ht with rfl | ht
    · rw [← List.append_assoc]
      exact placeWithin_append
    · have hin := ih ht
      rwa [List.append_assoc, List.append_assoc] at hin

theorem TokenList.IsPlace.placeWithin {source : String} {T : TokenList} {l : Location}
    (h : T.IsPlace l) (hT : tokenize source = .ok T) : PlaceWithin (bytes source) l := by
  have hsegments : Segments [] (bytes source) T.toList T.finish :=
    segments_of_scanned (tokenize_ok.1 hT) rfl
  obtain ⟨k, hk, rfl⟩ := h
  rcases Nat.lt_or_eq_of_le hk with hlt | rfl
  · exact hsegments.placeWithin (List.mem_of_getElem? (getElem?_toList hlt))
  · rw [get_size]
    exact ⟨bytes source, List.prefix_rfl, hsegments.finish_eq⟩

theorem Stops.placeWithin {before good rest : List UInt8} {ts : List Token} {e : Failure}
    (h : Stops before good rest ts e) : PlaceWithin (before ++ (good ++ rest)) e.location := by
  obtain ⟨cause, n, -, rfl⟩ := h.fails
  refine ⟨before ++ good ++ rest.take n, ?_, rfl⟩
  rw [← List.append_assoc]
  exact (List.prefix_append_right_inj _).2 (List.take_prefix n rest)

theorem stops_of_tokenize {source : String} {e : Failure} (h : tokenize source = .error e) :
    ∃ good rest ts, bytes source = good ++ rest ∧ Stops [] good rest ts e := by
  unfold tokenize at h
  split at h
  · contradiction
  · next hscan =>
    cases h
    obtain ⟨good, rest, ts, hsource, hstops, -⟩ :=
      stops_of_scanFrom hscan (Eq.refl (Cursor.behind [] (bytes source)))
    exact ⟨good, rest, ts, hsource, hstops⟩

theorem placeWithin_of_tokenize {source : String} {e : Failure} (h : tokenize source = .error e) :
    PlaceWithin (bytes source) e.location := by
  obtain ⟨good, rest, ts, hsource, hstops⟩ := stops_of_tokenize h
  rw [hsource]
  exact hstops.placeWithin

end Scanning

/-- Every failure is noticed at a place of the text, with a line and an offset. If the text has
tokens, it is the place of one of them or of the end, and of no slot behind. -/
theorem failure_located {limit : Nat} {source : String} {e : Failure}
    (h : parse limit source = .error e) :
    (∃ n ≤ (bytes source).length, e.location = place ((bytes source).take n)) ∧
    (∃ line offset, e.location = .known line offset ∧ line + offset ≤ (bytes source).length) ∧
    ∀ T, tokenize source = .ok T →
      (∃ k ≤ T.size, e.location = (T.get k).location) ∧
      ∀ k, T.size < k → e.location ≠ (T.get k).location := by
  have hplace : ∀ T, tokenize source = .ok T → T.IsPlace e.location := by
    intro T hT
    rw [parse_of_tokenize limit hT] at h
    have hstays := Parser.stays_topLevel (T := T) limit 0 (Nat.zero_le _) limit Arena.root .fresh
    rcases hstays.result with ⟨f, t, hrun, -⟩ | ⟨e', t, hrun, hplace⟩
    · rw [hrun] at h
      contradiction
    · rw [hrun] at h
      cases h
      exact hplace
  have hwithin : PlaceWithin (bytes source) e.location := by
    cases hscan : tokenize source with
    | ok T => exact (hplace T hscan).placeWithin hscan
    | error f =>
      rw [parse_of_tokenize_error limit hscan] at h
      cases h
      exact placeWithin_of_tokenize hscan
  refine ⟨hwithin.exists_take, hwithin.known, fun T hT => ⟨hplace T hT, fun k hk hslot => ?_⟩⟩
  obtain ⟨line, offset, hknown, -⟩ := hwithin.known
  rw [TokenList.get_of_size_lt hk, hknown] at hslot
  cases hslot

/-- A string that is not closed is noticed behind the last byte, and a missing parameter at the end,
although its type would be taken before it is looked at. -/
theorem failure_located_at_end :
    (∃ e, parse 8 "print\n'a\\" = .error e ∧ e.location = .known 1 3 ∧
      ∃ n ≤ 9, e.location = place ((bytes "print\n'a\\").take n)) ∧
    ∃ e T, parse 8 "// f\nfunction void f(" = .error e ∧
      tokenize "// f\nfunction void f(" = .ok T ∧ T.size = 4 ∧
      e.location = (T.get 4).location ∧ e.location ≠ (T.get 5).location := by
  have hopen : parse 8 "print\n'a\\" = .error ⟨.unexpectedEnd, .known 1 3⟩ := by decide +kernel
  have htype : parse 8 "// f\nfunction void f(" = .error ⟨.typeExpected "eof", .known 1 16⟩ := by
    decide +kernel
  have htokens : tokenize "// f\nfunction void f(" = .ok ⟨#[.ofKind Keyword.functionKw (.known 1 0),
      .ofKind Keyword.voidKw (.known 1 9), ⟨.identifier, "f", .known 1 14⟩,
      .ofKind Symbol.leftParen (.known 1 15)], .known 1 16⟩ := by decide +kernel
  exact ⟨⟨_, hopen, rfl, (failure_located hopen).1⟩, _, _, htype, htokens, rfl, rfl,
    ((failure_located htype).2.2 _ htokens).2 5 (by decide)⟩

end ScriptSyntax
