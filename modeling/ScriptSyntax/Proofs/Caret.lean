import ScriptSyntax.CommandLine
import ScriptSyntax.Proofs.ClosingQuote
import ScriptSyntax.Proofs.Continuation
import ScriptSyntax.Proofs.Diagnosis

/-!
The line shown for a failure, and the caret below it. The caret is set by counting the bytes in front
of the failure, and stands too far right if a character in front of it has more than one.
-/

namespace ScriptSyntax

open Text

section Lines

variable {c : Char} {line front rest text : List Char}

/-- The line begun where a text ends. Its first line begins with `line`. -/
def lineBegun (line front : List Char) : List Char :=
  front.foldl (fun line c => if c = '\n' then [] else line ++ [c]) line

theorem lineBegun_concat (line front : List Char) (c : Char) :
    lineBegun line (front ++ [c]) = if c = '\n' then [] else lineBegun line front ++ [c] :=
  List.foldl_concat _ _ _ _

/-- The line begun is the first line of what follows, and every newline has ended one before. -/
theorem getElem?_linesFrom (line front rest : List Char) :
    (linesFrom line (front ++ rest))[front.count '\n']? =
      (linesFrom (lineBegun line front) rest).head? := by
  induction front generalizing line with
  | nil => exact List.head?_eq_getElem?.symm
  | cons c front ih =>
    rw [List.cons_append, linesFrom]
    by_cases hc : c = '\n'
    · have hbegun : lineBegun line (c :: front) = lineBegun [] front := by simp [lineBegun, hc]
      rw [if_pos hc, hbegun, hc, List.count_cons_self, List.getElem?_cons_succ, ih]
    · have hbegun : lineBegun line (c :: front) = lineBegun (line ++ [c]) front := by
        simp [lineBegun, hc]
      rw [if_neg hc, hbegun, List.count_cons_of_ne hc, ih]

theorem endedLine_prefix_self : endedLine line <+: line := by
  unfold endedLine
  split
  · exact List.dropLast_prefix line
  · exact List.prefix_rfl

/-- A carriage return that is taken off is the last character. -/
theorem prefix_endedLine_concat : line <+: endedLine (line ++ [c]) := by
  unfold endedLine
  split
  · exact ⟨[], by rw [List.dropLast_concat, List.append_nil]⟩
  · exact List.prefix_append line [c]

theorem endedLine_prefix_of_head (h : (linesFrom line rest).head? = some text) :
    endedLine line <+: text := by
  induction rest generalizing line with
  | nil =>
    rw [linesFrom] at h
    split at h
    · contradiction
    · cases h
      exact endedLine_prefix_self
  | cons c rest ih =>
    rw [linesFrom] at h
    split at h
    · cases h
      exact List.prefix_rfl
    · exact endedLine_prefix_self.trans (prefix_endedLine_concat.trans (ih h))

/-- A line that no newline ends yet is all there where it goes on. -/
theorem prefix_of_head (hrest : ∀ c ∈ rest.head?, c ≠ '\n')
    (h : (linesFrom line rest).head? = some text) : line <+: text := by
  cases rest with
  | nil =>
    rw [linesFrom] at h
    split at h
    · cases h
    · cases h
      exact List.prefix_rfl
  | cons c rest =>
    rw [linesFrom, if_neg (hrest c rfl)] at h
    exact prefix_endedLine_concat.trans (endedLine_prefix_of_head h)

theorem newline_not_mem_linesFrom (hline : '\n' ∉ line) (h : text ∈ linesFrom line rest) :
    '\n' ∉ text := by
  induction rest generalizing line with
  | nil =>
    rw [linesFrom] at h
    split at h
    · contradiction
    · rwa [List.mem_singleton.1 h]
  | cons c rest ih =>
    rw [linesFrom] at h
    split at h
    · rcases List.mem_cons.1 h with rfl | h
      · exact fun hmem => hline (endedLine_prefix_self.subset hmem)
      · exact ih List.not_mem_nil h
    · next hc =>
      exact ih (by simpa [hline] using Ne.symm hc) h

end Lines

section Places

variable {before good front rest u v : List UInt8} {source : String} {ts : List Token}
  {finish : Location} {e : Failure}

theorem place_append_newline (before : List UInt8) :
    place (before ++ ['\n'.toUInt8]) = .known (before.count '\n'.toUInt8 + 1) 0 := by
  simp [place]

theorem place_append {run : List UInt8} (h : '\n'.toUInt8 ∉ run) {line offset : Nat}
    (hplace : place before = .known line offset) :
    place (before ++ run) = .known line (offset + run.length) := by
  cases hplace
  have hrun : ∀ b ∈ run.reverse, decide (b ≠ '\n'.toUInt8) = true := fun b hb =>
    decide_eq_true fun heq => h (heq ▸ List.mem_reverse.1 hb)
  rw [place, List.count_append, List.count_eq_zero.2 h, Nat.add_zero, List.reverse_append,
    List.takeWhile_append_of_pos hrun, List.length_append, List.length_reverse,
    Nat.add_comm run.length]

/-- The scan counts the newlines and the bytes behind the last of them. -/
theorem place_bytes (cs : List Char) : place (bytes (String.ofList cs)) =
    .known (cs.count '\n') (bytes (String.ofList (lineBegun [] cs))).length := by
  induction cs using List.reverseRecOn with
  | nil => rfl
  | append_singleton cs c ih =>
    have hbytes : ∀ front, bytes (String.ofList (front ++ [c])) =
        bytes (String.ofList front) ++ String.utf8EncodeChar c := fun front => by
      rw [String.ofList_append, bytes_append, bytes_ofList [c], List.flatMap_singleton]
    rw [hbytes, lineBegun_concat, List.count_append, List.count_singleton]
    by_cases hc : c = '\n'
    · subst hc
      rw [utf8EncodeChar_ascii (by decide), place_append_newline, count_newline,
        String.toList_ofList]
      rfl
    · have hnewline : '\n'.toUInt8 ∉ String.utf8EncodeChar c := by
        rw [← List.count_eq_zero, count_utf8EncodeChar, if_neg hc]
      rw [place_append hnewline ih, if_neg hc, hbytes, List.length_append]
      simp [hc]

/-- A place between two characters of a text or at its end, and not in front of a newline. -/
def CharacterPlace (source : String) (l : Location) : Prop :=
  ∃ front rest : String, source = front ++ rest ∧ (∀ c ∈ rest.toList.head?, c ≠ '\n') ∧
    l = place (bytes front)

theorem CharacterPlace.of_bytes (hsource : bytes source = u ++ v) (hu : IsText u) (hv : IsText v)
    (hhead : ∀ b ∈ v.head?, b ≠ '\n'.toUInt8) : CharacterPlace source (place u) := by
  obtain ⟨front, rfl⟩ := hu
  obtain ⟨rest, rfl⟩ := hv
  refine ⟨front, rest, bytes_injective (by rw [hsource, bytes_append]), ?_, rfl⟩
  rintro c hc rfl
  obtain ⟨cs, hcs⟩ := List.head?_eq_some_iff.1 hc
  refine hhead '\n'.toUInt8 ?_ rfl
  rw [← rest.ofList_toList, hcs, bytes_ofList]
  rfl

theorem not_newline_of_not_blank (h : ∀ b ∈ front.head?, isBlank b = false) :
    ∀ b ∈ front.head?, b ≠ '\n'.toUInt8 := by
  rintro b hb rfl
  exact absurd (h _ hb) (by decide)

/-- A token begins with a character, which is no blank. -/
theorem Segments.characterPlace (h : Segments before front ts finish)
    (hsource : bytes source = before ++ front) (hbefore : IsText before) (hfront : IsText front)
    {t : Token} (ht : t ∈ ts) : CharacterPlace source t.location := by
  induction h with
  | done => exact absurd ht List.not_mem_nil
  | @token before gap l rest kind text ts finish hgap _ hl _ ih =>
    obtain ⟨hgap, htext⟩ := hgap.isText hfront
    obtain ⟨hlexeme, hrest⟩ := hl.isText htext
    rcases List.mem_cons.1 ht with rfl | ht
    · exact .of_bytes (by simpa using hsource) (hbefore.append hgap) htext
        (not_newline_of_not_blank (not_blank_of_first hl.first))
    · exact ih (by simpa using hsource) ((hbefore.append hgap).append hlexeme) hrest ht

/-- A string that is not closed ends where the text does or in front of a zero. -/
theorem CharacterPlace.of_unclosed {good : String} {cs : List Char} {cause : Cause} {n : Nat}
    (hsource : source = good ++ String.ofList ('\'' :: cs))
    (h : Lexeme.first (bytes (String.ofList ('\'' :: cs))) = .error (cause, n)) :
    CharacterPlace source
      (place (bytes good ++ (bytes (String.ofList ('\'' :: cs))).take n)) := by
  have hopen : Unclosed (untilZero cs) := by
    by_contra hclosed
    obtain ⟨body, hbody⟩ := exists_closedBehind hclosed
    obtain ⟨length, hfirst⟩ := first_closed hbody
    rw [h] at hfirst
    contradiction
  rw [first_unclosed hopen] at h
  cases h
  rw [take_untilZero, ← bytes_append]
  refine ⟨_, String.ofList (cs.dropWhile (· ≠ '\x00')), ?_, ?_, rfl⟩
  · rw [hsource, String.append_assoc, ← String.ofList_append, List.cons_append, untilZero,
      List.takeWhile_append_dropWhile]
  · rintro c hc rfl
    rw [String.toList_ofList] at hc
    have := List.head?_dropWhile_not (· ≠ '\x00') cs
    rw [hc] at this
    simp at this

theorem Stops.characterPlace (h : Stops [] good rest ts e) (hsource : bytes source = good ++ rest) :
    CharacterPlace source e.location := by
  obtain ⟨⟨good, rfl⟩, rest, rfl⟩ := h.isText ⟨source, hsource⟩
  have hsource : source = good ++ rest := bytes_injective (by rw [hsource, bytes_append])
  obtain ⟨cause, n, hfirst, rfl⟩ := h.fails
  -- What begins no token is reported where it stands, and a string where the reading stopped.
  rcases reason_of_first h.plain h.nonempty hfirst with
    ⟨-, -, -, -, -, -, -, -, -, -, rfl⟩ | ⟨⟨cs, hcs⟩, -, -⟩
  · rw [List.take_zero, List.append_nil]
    exact .of_bytes (by rw [hsource, bytes_append]; rfl) ⟨good, rfl⟩ ⟨rest, rfl⟩
      (not_newline_of_not_blank h.plain.blank)
  · obtain rfl : rest = String.ofList ('\'' :: cs) := by rw [← hcs, rest.ofList_toList]
    exact .of_unclosed hsource hfirst

theorem TokenList.IsPlace.characterPlace {T : TokenList} {l : Location} (h : T.IsPlace l)
    (hT : tokenize source = .ok T) : CharacterPlace source l := by
  have hsegments : Segments [] (bytes source) T.toList T.finish :=
    segments_of_scanned (tokenize_ok.1 hT) rfl
  obtain ⟨k, hk, rfl⟩ := h
  rcases Nat.lt_or_eq_of_le hk with hlt | rfl
  · exact hsegments.characterPlace rfl .nil ⟨source, rfl⟩
      (List.mem_of_getElem? (getElem?_toList hlt))
  · rw [get_size]
    exact ⟨source, "", String.append_empty.symm, nofun, hsegments.finish_eq⟩

/-- What is wrong with a text is noticed at a character of it, or at its end. -/
theorem characterPlace_of_parse {limit : Nat} (h : parse limit source = .error e) :
    CharacterPlace source e.location := by
  cases hscan : tokenize source with
  | ok T =>
    have hstays := Parser.stays_topLevel (T := T) limit 0 (Nat.zero_le _) limit Arena.root .fresh
    rw [parse_of_tokenize limit hscan] at h
    unfold Parser.Ends at hstays
    split at h
    · contradiction
    · next hrun =>
      rw [hrun] at hstays
      cases h
      exact hstays.characterPlace hscan
  | error f =>
    rw [parse_of_tokenize_error limit hscan] at h
    cases h
    obtain ⟨good, rest, ts, hsource, hstops⟩ := stops_of_tokenize hscan
    exact hstops.characterPlace hsource

/-- What is shown of a line begins with what stands in front of a place in it. -/
theorem CharacterPlace.front_of_line {line offset : Nat} {text : String}
    (h : CharacterPlace source (.known line offset)) (hline : (lines source)[line]? = some text) :
    ∃ front back, text = front ++ back ∧ (bytes front).length = offset := by
  obtain ⟨before, rest, rfl, hrest, hplace⟩ := h
  rw [← before.ofList_toList, place_bytes] at hplace
  cases hplace
  rw [lines, List.getElem?_map, String.toList_append, getElem?_linesFrom] at hline
  obtain ⟨chars, hchars, rfl⟩ := Option.map_eq_some_iff.1 hline
  obtain ⟨back, rfl⟩ := prefix_of_head hrest hchars
  exact ⟨_, _, String.ofList_append, rfl⟩

end Places

section Columns

/-- A text has a byte for each character, and more unless all characters are below 128. -/
theorem Text.length_le_length_bytes (s : String) : s.length ≤ (bytes s).length ∧
    ((bytes s).length = s.length ↔ ∀ c ∈ s.toList, c.toNat < 128) := by
  rw [bytes_eq_flatMap, ← String.length_toList]
  induction s.toList with
  | nil => exact ⟨Nat.le_refl _, by simp⟩
  | cons c cs ih =>
    obtain ⟨hle, hiff⟩ := ih
    have hpos := c.utf8Size_pos
    have hone : c.utf8Size = 1 ↔ c.toNat < 128 := by
      rw [Char.utf8Size_eq_one_iff, UInt32.le_iff_toNat_le]
      exact Nat.lt_succ_iff.symm
    rw [List.flatMap_cons, List.length_append, String.length_utf8EncodeChar, List.length_cons,
      List.forall_mem_cons, ← hiff, ← hone]
    omega

/-- Two lines: the first ends with a text, and the second with a caret, its only one. -/
structure Marks (shown lead text pad : String) : Prop where
  eq : shown = lead ++ text ++ "\n" ++ pad ++ "^\n"
  first : '\n' ∉ (lead ++ text).toList
  second : '\n' ∉ pad.toList ∧ '^' ∉ pad.toList

/-- The caret below a text stands in the column of the character that begins at a byte of it, or
behind the last character. -/
def CaretUnder (shown text : String) (offset : Nat) : Prop :=
  ∃ lead pad front back, Marks shown lead text pad ∧ text = front ++ back ∧
    (bytes front).length = offset ∧ pad.length = (lead ++ front).length

variable {shown lead lead' text pad pad' front front' back back' : String}

theorem Marks.unique (h : Marks shown lead text pad) (h' : Marks shown lead' text pad') :
    lead = lead' ∧ pad = pad' := by
  have hsplit : ∀ l p : String,
      (l ++ text ++ "\n" ++ p).toList = (l ++ text).toList ++ '\n' :: p.toList := fun l p => by
    rw [String.toList_append, String.toList_append, List.append_assoc]
    rfl
  have heq : lead ++ text ++ "\n" ++ pad = lead' ++ text ++ "\n" ++ pad' :=
    (String.append_left_inj _).1 (h.eq.symm.trans h'.eq)
  rw [← String.toList_inj, hsplit, hsplit,
    List.append_cons_inj_of_notMem h.first h.second.1] at heq
  obtain ⟨hlead, -, hpad⟩ := heq
  exact ⟨(String.append_left_inj _).1 (String.toList_inj.1 hlead), String.toList_inj.1 hpad⟩

theorem front_unique (h : front ++ back = front' ++ back')
    (hlength : (bytes front).length = (bytes front').length) : front = front' := by
  have hbytes := congrArg bytes h
  rw [bytes_append, bytes_append] at hbytes
  exact bytes_injective (List.append_inj hbytes hlength).1

theorem Marks.caretUnder_iff (h : Marks shown lead (front ++ back) pad) :
    CaretUnder shown (front ++ back) (bytes front).length ↔
      pad.length = (lead ++ front).length := by
  refine ⟨?_, fun hpad => ⟨lead, pad, front, back, h, rfl, rfl, hpad⟩⟩
  rintro ⟨lead', pad', front', back', h', htext, hlength, hpad⟩
  obtain ⟨rfl, rfl⟩ := h.unique h'
  rwa [front_unique htext hlength.symm]

end Columns

namespace CommandLine

variable {source text : String} {line offset width : Nat} {c : Char}

theorem length_flushRight (h : text.length ≤ width) : (flushRight width text).length = width := by
  rw [flushRight, String.length_append, String.length_ofList, List.length_replicate]
  omega

theorem not_mem_flushRight (hspace : c ≠ ' ') (h : c ∉ text.toList) :
    c ∉ (flushRight width text).toList := by
  rw [flushRight, String.toList_append, String.toList_ofList, List.mem_append]
  rintro (hmem | hmem)
  · exact hspace (List.eq_of_mem_replicate hmem)
  · exact h hmem

theorem flushRight_caret (offset : Nat) :
    flushRight (offset + 1) "^" = String.ofList (List.replicate offset ' ') ++ "^" := rfl

theorem newline_not_mem_toString (n : Nat) : '\n' ∉ (toString n).toList := by
  rw [Nat.toString_eq_ofList_toDigits, String.toList_ofList]
  exact fun hmem => absurd (isDigit_of_mem_toDigits hmem) (by decide)

theorem newline_not_mem_lines (h : (lines source)[line]? = some text) : '\n' ∉ text.toList := by
  obtain ⟨t, ht, rfl⟩ := List.mem_map.1 (List.mem_of_getElem? h)
  rw [String.toList_ofList]
  exact newline_not_mem_linesFrom List.not_mem_nil ht

/-- The columns in front of the line and in front of the caret's are as many, whatever the number of
the line. -/
theorem marks_excerpt (status : Status) (hplace : status.location = .known line offset)
    (hline : (lines source)[line]? = some text) :
    ∃ lead pad, Marks (excerpt status source) lead text pad ∧
      pad.length = lead.length + offset := by
  have hcoordinates : status.location.coordinates? = some (line, offset) := by
    rw [hplace]
    rfl
  let number := toString (line + 1)
  let width := number.length + 2
  have hnumber : (number ++ " |").length ≤ width := (String.length_append _ _).le
  have hbar : "|".length ≤ width := Nat.le_add_left 1 (number.length + 1)
  have hpad : ∀ c, c ≠ ' ' → c ≠ '|' →
      c ∉ (flushRight width "|" ++ " " ++ String.ofList (List.replicate offset ' ')).toList := by
    intro c hspace hc
    have hmargin : c ∉ (flushRight width "|").toList :=
      not_mem_flushRight hspace (by simpa using hc)
    simp only [String.toList_append, String.toList_ofList, List.mem_append, not_or]
    exact ⟨⟨hmargin, by simpa using hspace⟩, fun hmem => hspace (List.eq_of_mem_replicate hmem)⟩
  refine ⟨flushRight width (number ++ " |") ++ " ",
    flushRight width "|" ++ " " ++ String.ofList (List.replicate offset ' '),
    ⟨?_, ?_, hpad '\n' (by decide) (by decide), hpad '^' (by decide) (by decide)⟩, ?_⟩
  · rw [excerpt, hcoordinates]
    dsimp only
    rw [hline, flushRight_caret]
    simp [String.append_assoc, number, width]
  · have hlead : '\n' ∉ (flushRight width (number ++ " |")).toList := by
      refine not_mem_flushRight (by decide) ?_
      rw [String.toList_append, List.mem_append]
      exact not_or.2 ⟨newline_not_mem_toString (line + 1), by decide⟩
    simp [hlead, newline_not_mem_lines hline]
  · simp only [String.length_append, length_flushRight hnumber, length_flushRight hbar,
      String.length_ofList, List.length_replicate]

end CommandLine

/-- The caret has as many columns in front of it as the line, and one for each byte of the line in
front of the failure. It never stands too far left, and it stands under the character that the
failure is noticed at if and only if all characters in front of that one are below 128. -/
theorem caret_counts_bytes {limit : Nat} {source text : String} {e : Failure} {line offset : Nat}
    (h : parse limit source = .error e) (hplace : e.location = .known line offset)
    (hline : (lines source)[line]? = some text) :
    let shown := CommandLine.excerpt (.ofFailure e) source
    ∃ lead pad front back, Marks shown lead text pad ∧ text = front ++ back ∧
      (bytes front).length = offset ∧ pad.length = lead.length + offset ∧
      (lead ++ front).length ≤ pad.length ∧
      (CaretUnder shown text offset ↔ ∀ c ∈ front.toList, c.toNat < 128) := by
  intro shown
  obtain ⟨lead, pad, hmarks, hpad⟩ :=
    CommandLine.marks_excerpt (.ofFailure e) hplace hline
  have hcharacter := characterPlace_of_parse h
  rw [hplace] at hcharacter
  obtain ⟨front, back, rfl, rfl⟩ := hcharacter.front_of_line hline
  obtain ⟨hle, hascii⟩ := length_le_length_bytes front
  refine ⟨lead, pad, front, back, hmarks, rfl, rfl, hpad, ?_, ?_⟩
  · rw [hpad, String.length_append]
    exact Nat.add_le_add_left hle lead.length
  · rw [hmarks.caretUnder_iff, hpad, String.length_append, Nat.add_left_cancel_iff, hascii]

/-- Ten lines down the number has two digits. -/
theorem caret_counts_bytes_ascii :
    ∃ e, parse 8 "\n\n\n\n\n\n\n\n\nx = #" = .error e ∧ e.location = .known 9 4 ∧
      (lines "\n\n\n\n\n\n\n\n\nx = #")[9]? = some "x = #" ∧
      CommandLine.excerpt (.ofFailure e) "\n\n\n\n\n\n\n\n\nx = #" =
        "10 | x = #\n   |     ^\n" ∧
      CaretUnder (CommandLine.excerpt (.ofFailure e) "\n\n\n\n\n\n\n\n\nx = #") "x = #" 4 := by
  have h : parse 8 "\n\n\n\n\n\n\n\n\nx = #" = .error ⟨.undefinedToken "#", .known 9 4⟩ := by
    decide +kernel
  have hline : (lines "\n\n\n\n\n\n\n\n\nx = #")[9]? = some "x = #" := by decide +kernel
  obtain ⟨-, -, front, back, -, htext, -, -, -, hiff⟩ := caret_counts_bytes h rfl hline
  refine ⟨_, h, rfl, hline, by decide +kernel, hiff.2 fun c hc => ?_⟩
  have hmem : c ∈ "x = #".toList := by
    rw [htext, String.toList_append]
    exact List.mem_append_left _ hc
  have hascii : ∀ c ∈ "x = #".toList, c.toNat < 128 := by simp
  exact hascii c hmem

/-- The character in front has two bytes, and the caret stands behind the last character. -/
theorem caret_misses_character :
    parse 8 "'é' #" = .error ⟨.undefinedToken "#", .known 0 5⟩ ∧
      (lines "'é' #")[0]? = some "'é' #" ∧
      CommandLine.excerpt (.ofFailure ⟨.undefinedToken "#", .known 0 5⟩) "'é' #" =
        "1 | 'é' #\n  |      ^\n" ∧
      ¬ CaretUnder (CommandLine.excerpt (.ofFailure ⟨.undefinedToken "#", .known 0 5⟩) "'é' #")
        "'é' #" 5 := by
  have hmarks : Marks (CommandLine.excerpt (.ofFailure ⟨.undefinedToken "#", .known 0 5⟩) "'é' #")
      "1 | " ("'é' " ++ "#") "  |      " :=
    ⟨by decide +kernel, by decide, by decide, by decide⟩
  refine ⟨by decide +kernel, by decide +kernel, by decide +kernel, fun hcaret => ?_⟩
  have hcolumn := hmarks.caretUnder_iff.1 hcaret
  exact absurd hcolumn (by decide)

end ScriptSyntax
