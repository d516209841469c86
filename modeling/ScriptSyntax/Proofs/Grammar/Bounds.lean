import ScriptSyntax.Proofs.Grammar.Soundness

/-!
The bound of a loop is never what ends it: what is repeated takes a token or fails, so that every
bound that covers the tokens left gives the same run.
-/

namespace ScriptSyntax.Parser

variable {α β : Type} {c : Context} {s : Progress}

/-- A success of `p` leaves the cursor where it was, or further on. -/
def Forward (p : Parser α) : Prop :=
  ∀ ⦃c s a t⦄, p c s = .ok a t → s.position ≤ t.position

/-- A success of `p` takes a token. -/
def Consumes (p : Parser α) : Prop :=
  ∀ ⦃c s a t⦄, p c s = .ok a t → s.position < c.tokens.size ∧ s.position < t.position

/-- Where `close` finds no end, it takes and declares nothing. -/
def Steady (close : Parser (Option β)) : Prop := ∀ ⦃c s t⦄, close c s = .ok none t → t = s

/-- All bounds that cover the tokens left give the same run. -/
def Settles (f : Nat → Parser α) : Prop :=
  ∀ ⦃c s bound⦄, c.tokens.size ≤ bound + s.position →
    f bound c s = f (c.tokens.size - s.position) c s

section Cursor

variable {p : Parser α} {f : α → Parser β}

theorem Consumes.forward (h : Consumes p) : Forward p := fun _ _ _ _ hp => Nat.le_of_lt (h hp).2

theorem forward_pure {a : α} : Forward (pure a) := by
  intro c s b t h
  obtain ⟨-, rfl⟩ := pure_ok.1 h
  exact Nat.le_refl _

theorem Forward.bind (h : Forward p) (hf : ∀ a, Forward (f a)) : Forward (p >>= f) := by
  intro c s b t hb
  obtain ⟨a, u, ha, hb⟩ := bind_ok.1 hb
  exact Nat.le_trans (h ha) (hf a hb)

/-- The first token taken is enough. -/
theorem Consumes.bind (h : Consumes p) (hf : ∀ a, Forward (f a)) : Consumes (p >>= f) := by
  intro c s b t hb
  obtain ⟨a, u, ha, hb⟩ := bind_ok.1 hb
  obtain ⟨hsize, hlt⟩ := h ha
  exact ⟨hsize, Nat.lt_of_lt_of_le hlt (hf a hb)⟩

theorem forward_separator : Forward separator := by
  intro c s u t h
  exact (separatorAt_of_ok h).1.le

theorem steady_parenClose : Steady parenClose := by
  intro c s t h
  obtain ⟨-, hl, -⟩ | ⟨-, -, rfl⟩ := parenClose_ok.1 h
  · exact nomatch hl
  · rfl

theorem steady_braceClose : Steady braceClose := by
  intro c s t h
  obtain ⟨-, hl, -⟩ | ⟨-, -, rfl⟩ := braceClose_ok.1 h
  · exact nomatch hl
  · rfl

theorem steady_endClose : Steady endClose := by
  intro c s t h
  obtain ⟨-, hl, -⟩ | ⟨-, -, rfl⟩ := endClose_ok.1 h
  · exact nomatch hl
  · rfl

end Cursor

section Constructs

theorem consumes_tooDeep : Consumes (tooDeep : Parser Node) :=
  fun _ _ _ _ h => (tooDeep_ok.1 h).elim

theorem consumes_expression (levels least : Nat) : Consumes (expression levels least) := by
  intro c s n t h
  obtain ⟨e, he, -⟩ := readsChain_expression levels least h
  exact ⟨Nat.lt_of_lt_of_le he.lt he.le_size, he.lt⟩

theorem consumes_statement (levels : Nat) :
    Consumes (statement (block levels) (expression levels 1)) := by
  intro c s o t h
  obtain ⟨cl, hcl⟩ :=
    readsStatement_statement (readsBlock_block levels) (readsChain_expression levels 1) h
  exact ⟨Nat.lt_of_lt_of_le hcl.lt hcl.le_size, hcl.lt⟩

theorem Consumes.statementItem {p : Parser (Option Node)} (h : Consumes p) :
    Consumes (statementItem p) := by
  intro c s ns t hitem
  obtain ⟨hk, -, rfl⟩ | ⟨-, o, ho, -⟩ := statementItem_ok.1 hitem
  · exact ⟨TokenList.lt_size_of_kind hk (by decide), Nat.lt_succ_self _⟩
  · exact h ho

theorem consumes_parameter : Consumes parameter := by
  intro c s p t h
  obtain ⟨type, ht, -, -, u, hs, -⟩ := parameter_ok.1 h
  have hle := (separatorAt_of_ok hs).1.le
  exact ⟨TokenList.lt_size_of_type ht, by dsimp only at hle; omega⟩

end Constructs

section Bounds

variable {close : Parser (Option β)} {item : Parser (List α)}

/-- What comes behind an item matters only where one was taken. -/
theorem closeOr_congr (hclose : Steady close) (hitem : Consumes item)
    {more more' : Parser (List α × β)}
    (h : ∀ t, s.position < c.tokens.size → s.position < t.position → more c t = more' c t) :
    closeOr close item more c s = closeOr close item more' c s := by
  unfold closeOr
  rw [bind_run, bind_run]
  cases hc : close c s with
  | error e t => rfl
  | ok o t =>
    cases o with
    | some finish => rfl
    | none =>
      obtain rfl := hclose hc
      dsimp only
      rw [bind_run, bind_run]
      cases hi : item c t with
      | error e u => rfl
      | ok items u =>
        obtain ⟨hsize, hlt⟩ := hitem hi
        dsimp only
        rw [bind_run, bind_run, h u hsize hlt]

theorem manyFrom_congr (hclose : Steady close) (hitem : Consumes item) {m n : Nat}
    (hm : c.tokens.size ≤ m + s.position) (hn : c.tokens.size ≤ n + s.position) :
    manyFrom close item m c s = manyFrom close item n c s := by
  induction m generalizing n s with
  | zero =>
    cases n with
    | zero => rfl
    | succ n => exact closeOr_congr hclose hitem fun t hsize _ => by omega
  | succ m ih =>
    cases n with
    | zero => exact closeOr_congr hclose hitem fun t hsize _ => by omega
    | succ n => exact closeOr_congr hclose hitem fun t _ hlt => ih (by omega) (by omega)

theorem settles_manyFrom (hclose : Steady close) (hitem : Consumes item) :
    Settles (manyFrom close item) :=
  fun _ _ _ h => manyFrom_congr hclose hitem h (by omega)

variable {right : Nat → Parser Node}

/-- Behind the tokens there is no operator. -/
theorem climb_end (h : c.tokens.size ≤ s.position) (least bound : Nat) (left : Node) :
    climb right least bound left c s = .ok left s := by
  cases bound with
  | zero => rfl
  | succ bound =>
    rw [climb, bind_run, peek_run]
    dsimp only
    rw [Nat.add_zero, if_neg]
    · rfl
    · rintro ⟨hk, -⟩
      rcases TokenList.kind_of_size_le h with hend | hend <;> rw [hend] at hk <;> contradiction

theorem climb_congr (hright : ∀ least, Forward (right least)) {least m n : Nat} {left : Node}
    (hm : c.tokens.size ≤ m + s.position) (hn : c.tokens.size ≤ n + s.position) :
    climb right least m left c s = climb right least n left c s := by
  induction m generalizing n left s with
  | zero => rw [climb_end (by omega), climb_end (by omega)]
  | succ m ih =>
    cases n with
    | zero => rw [climb_end (by omega), climb_end (by omega)]
    | succ n =>
      rw [climb, climb, bind_run, bind_run, peek_run]
      dsimp only
      split
      · rw [bind_run, bind_run, advance_run]
        dsimp only
        rw [bind_run, bind_run]
        cases hother : right _ c { s with position := s.position + 1 } with
        | error e t => rfl
        | ok other t =>
          have hle : s.position + 1 ≤ t.position := hright _ hother
          dsimp only
          rw [bind_run, bind_run]
          cases hcombined : combined (c.tokens.get s.position) left other c t with
          | error e u => rfl
          | ok joined u =>
            obtain ⟨rfl, -⟩ := combined_ok.1 hcombined
            exact ih (by omega) (by omega)
      · rfl

theorem settles_climb (hright : ∀ least, Forward (right least)) (least : Nat) (left : Node) :
    Settles fun bound => climb right least bound left :=
  fun _ _ _ h => climb_congr hright h (by omega)

end Bounds

end ScriptSyntax.Parser
