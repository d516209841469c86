import ScriptSyntax.Proofs.Segmentation

/-!
What stands behind a lexeme matters only as far as it could go on with it. A text may be cut off
behind any of its lexemes, and whatever follows behind a newline leaves them as they are.
-/

namespace ScriptSyntax

open Text

variable {P : List UInt8 → Prop} {front rest l m t : List UInt8} {kind : TokenKind} {text : String}

section Separators

/-- What is without a byte ends in front of it. -/
theorem prefix_of_not_mem {s : UInt8} (hm : m <+: front ++ s :: rest) (hs : s ∉ m) :
    m <+: front := by
  have hle : m.length ≤ front.length := by
    by_contra hlt
    have hfront : front ++ [s] <+: front ++ s :: rest :=
      (List.prefix_append_right_inj front).2 ⟨rest, rfl⟩
    have hlength : (front ++ [s]).length ≤ m.length := by
      rw [List.length_append, List.length_singleton]
      omega
    have hinside := List.prefix_of_prefix_length_le hfront hm hlength
    exact hs (hinside.subset (List.mem_append_right front List.mem_cons_self))
  exact List.prefix_of_prefix_length_le hm (List.prefix_append _ _) hle

theorem not_isWordByte_of_isBlank {b : UInt8} (h : isBlank b) : isWordByte b = false := by
  simp only [isBlank, Bool.or_eq_true, decide_eq_true_eq] at h
  rcases h with ((rfl | rfl) | rfl) | rfl <;> decide

theorem IsWordRun.not_mem_of_isBlank (h : IsWordRun l) {b : UInt8} (hb : isBlank b) : b ∉ l := by
  intro hmem
  have hword := h.2 b hmem
  rw [not_isWordByte_of_isBlank hb] at hword
  contradiction

theorem IsNumeral.not_mem_of_isBlank (h : IsNumeral l) {b : UInt8} (hb : isBlank b) : b ∉ l := by
  obtain ⟨whole, t, -, hd, ht, rfl⟩ := h
  have hdigit : ∀ c, isDigit c → isBlank c = false := by
    intro c hc
    by_contra hblank
    have hword := not_isWordByte_of_isBlank (Bool.eq_true_of_not_eq_false hblank)
    simp [isWordByte, hc] at hword
  intro hmem
  have hblank : isBlank b = false := by
    rcases List.mem_append.1 hmem with hmem | hmem
    · exact hdigit _ (hd _ hmem)
    · exact ht.forall (fun c => isBlank c = false) hdigit (by decide) _ hmem
  rw [hblank] at hb
  contradiction

theorem Symbol.newline_not_mem (s : Symbol) : '\n'.toUInt8 ∉ bytes s.text := by
  cases s <;> decide

end Separators

section Cut

theorem Longest.cut (h : Longest P (l ++ (m ++ rest)) l) : Longest P (l ++ m) l where
  inFront := List.prefix_append l m
  holds := h.holds
  longest hk := h.longest (hk.trans ⟨rest, List.append_assoc l m rest⟩)

theorem IsLexeme.ne_nil (h : IsLexeme l rest kind text) : l ≠ [] :=
  List.length_pos_iff.1 (Lexeme.length_pos_of_first h.first)

/-- Only the first byte behind blanks and comments has a say in where they end. -/
theorem Trivia.congr (h : Trivia rest t)
    (hm : ∀ b ∈ m.head?, b ∈ rest.head? ∨ b = '\n'.toUInt8) : Trivia m t := by
  induction h with
  | nil => exact .nil
  | blank hb _ ih => exact .blank hb ih
  | @comment run t hrun hnext _ ih =>
    refine .comment hrun (fun b hb => ?_) ih
    cases t with
    | nil =>
      rcases hm b hb with hb | hb
      · exact hnext b hb
      · exact hb
    | cons c t => exact hnext b hb

theorem Trivia.in_front (h : Trivia (l ++ rest) t) (hl : l ≠ []) (m : List UInt8) :
    Trivia (l ++ m) t := by
  refine h.congr fun b hb => .inl ?_
  obtain ⟨c, l, rfl⟩ := List.exists_cons_of_ne_nil hl
  exact hb

/-- A single point is no lexeme by itself, and a number in front of it would take it in. -/
theorem IsLexeme.cut (h : IsLexeme l (m ++ rest) kind text) (hm : m ≠ ['.'.toUInt8]) :
    IsLexeme l m kind text := by
  generalize hbehind : m ++ rest = behind at h
  cases h with
  | identifier hl ht hk =>
    subst hbehind
    exact .identifier hl.cut ht hk
  | keyword k hl =>
    subst hbehind
    exact .keyword k hl.cut
  | number hl ht hrange =>
    subst hbehind
    refine .number hl.cut ht fun ⟨hlast, hhead⟩ => hrange ⟨hlast, ?_⟩
    rw [List.head?_append, hhead]
    rfl
  | numberOfRange hl ht =>
    match m, hm with
    | [], _ =>
      -- Nothing is left of the range, and the number is whole without its point.
      refine .number ⟨List.prefix_append l [], hl.holds.of_point, fun hk _ => ?_⟩ ht nofun
      simpa using hk.length_le
    | [b], hm =>
      cases hbehind
      exact absurd rfl hm
    | b :: c :: m, _ =>
      cases hbehind
      have hcut : Longest IsNumeral (l ++ ['.'.toUInt8] ++ ('.'.toUInt8 :: m ++ rest))
          (l ++ ['.'.toUInt8]) := by simpa using hl
      exact .numberOfRange (by simpa using hcut.cut) ht
  | string hbody => exact .string hbody
  | symbol s hl =>
    subst hbehind
    exact .symbol s hl.cut

end Cut

section Extend

theorem Longest.extend {s : UInt8} (h : Longest P front l) (hP : ∀ m, P m → s ∉ m)
    (rest : List UInt8) : Longest P (front ++ s :: rest) l where
  inFront := h.inFront.trans (List.prefix_append _ _)
  holds := h.holds
  longest {m} hm hPm := h.longest (prefix_of_not_mem hm (hP m hPm)) hPm

/-- Whatever stands behind a newline leaves the lexemes in front of it as they are. -/
theorem IsLexeme.extend (h : IsLexeme l rest kind text) (b : List UInt8) :
    IsLexeme l (rest ++ '\n'.toUInt8 :: b) kind text := by
  have hnewline : isBlank '\n'.toUInt8 := by decide
  have hword : ∀ m, IsWordRun m → '\n'.toUInt8 ∉ m := fun m hm => hm.not_mem_of_isBlank hnewline
  have hnumeral : ∀ m, IsNumeral m → '\n'.toUInt8 ∉ m := fun m hm => hm.not_mem_of_isBlank hnewline
  cases h with
  | identifier hl ht hk =>
    have hl := hl.extend hword b
    rw [List.append_assoc] at hl
    exact .identifier hl ht hk
  | keyword k hl =>
    have hl := hl.extend hword b
    rw [List.append_assoc] at hl
    exact .keyword k hl
  | number hl ht hrange =>
    have hl := hl.extend hnumeral b
    rw [List.append_assoc] at hl
    refine .number hl ht fun ⟨hlast, hhead⟩ => ?_
    cases rest with
    | nil => exact absurd (Option.some.inj hhead) (by decide)
    | cons c rest => exact hrange ⟨hlast, hhead⟩
  | numberOfRange hl ht =>
    have hl := hl.extend hnumeral b
    rw [List.append_assoc] at hl
    exact .numberOfRange hl ht
  | string hbody => exact .string hbody
  | symbol s hl =>
    have hl := hl.extend (by rintro _ ⟨t, rfl⟩; exact t.newline_not_mem) b
    rw [List.append_assoc] at hl
    exact .symbol s hl

end Extend

end ScriptSyntax
