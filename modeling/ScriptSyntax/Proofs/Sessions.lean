import ScriptSyntax.Proofs.Grammar.Following

/-!
What any sequence of operations leaves of a session: no level of nesting is open, the current scope
is the root that all scopes are inside of, and the next text is read as if it were the first.
-/

namespace ScriptSyntax

namespace Arena

variable {a b : Arena} {s t : ScopeId}

/-- The scope that all others are inside of. -/
structure IsRoot (a : Arena) (s : ScopeId) : Prop where
  lt : s.index < a.scopeCount
  owner : (a.scopeAt s).owner = none
  inside : ∀ {t : ScopeId}, t.index < a.scopeCount → t ≠ s →
    ∃ u : ScopeId, (a.scopeAt t).owner = some u ∧ u.index < t.index

namespace IsRoot

theorem fresh : IsRoot .fresh root where
  lt := Nat.one_pos
  owner := rfl
  inside ht hne := absurd (ScopeId.ext (Nat.lt_one_iff.1 ht)) hne

theorem keep {o : Option ScopeId} (h : a.IsRoot s) (he : Enclosed o a b) : b.IsRoot s where
  lt := Nat.lt_of_lt_of_le h.lt he.scopeCount
  owner := (he.owner h.lt).trans h.owner
  inside {t} ht hne := by
    rcases Nat.lt_or_ge t.index a.scopeCount with ha | ha
    · rw [he.owner ha]
      exact h.inside ha hne
    · exact he.inside ha ht

/-- Closing one scope after the other leads to the root. -/
theorem getLast?_chain (h : a.IsRoot s) (ht : t.index < a.scopeCount) :
    (a.chain t).getLast? = some s := by
  obtain ⟨n⟩ := t
  induction n using Nat.strongRecOn with
  | _ n ih =>
    by_cases hts : (⟨n⟩ : ScopeId) = s
    · rw [chain, hts, h.owner]
      rfl
    · obtain ⟨⟨m⟩, howner, hm⟩ := h.inside ht hts
      have hlast := ih m hm (Nat.lt_trans hm ht)
      rw [chain, howner]
      dsimp only
      rw [dif_pos hm, List.getLast?_cons, hlast]
      rfl

end IsRoot

end Arena

/-- What can be asked of a session. -/
inductive Operation where
  | parse (source : String)
  | parseStatus (source : String)
  | clear
  | advance
  | accept (kind : TokenKind)
  | expect (kind : TokenKind) (what : String)
  | read (c : Construct)

namespace Session

/-- The session that an operation leaves, whether it succeeds or fails. -/
def after (s : Session) : Operation → Session
  | .parse source => (s.parse source).2
  | .parseStatus source => (s.parseStatus source).2
  | .clear => s.clear
  | .advance => (s.run Parser.advance).2
  | .accept kind => (s.run (Parser.accept kind)).2
  | .expect kind what => (s.run (Parser.expect kind what)).2
  | .read c => (s.read c).2

/-- The session that operations one after the other leave of a new one. -/
def history (limit : Nat) (operations : List Operation) : Session :=
  operations.foldl after (new limit)

/-- The same scope and as many levels are open in `t` as in `s`, over the same tokens. -/
structure Restored (s t : Session) : Prop where
  limit : t.limit = s.limit
  tokens : t.tokens = s.tokens
  scope : t.scope = s.scope
  depth : t.depth = s.depth

theorem restored_run {α : Type} (s : Session) (p : Parser α) : s.Restored (s.run p).2 := by
  rw [run_lift]
  split <;> exact ⟨rfl, rfl, rfl, rfl⟩

/-- Whatever is open, reading a construct closes what it opens and no more, and so it does where it
fails. -/
theorem restored_read (s : Session) (c : Construct) : s.Restored (s.read c).2 := by
  rw [read_eq]
  exact restored_run s _

variable {limit : Nat} {s : Session}

/-- No level of nesting is in use, and no scope but the root is open. -/
structure Balanced (limit : Nat) (s : Session) : Prop where
  limit : s.limit = limit
  depth : s.depth = 0
  scope : s.scope = Arena.root
  root : s.arena.IsRoot s.scope

theorem balanced_new (limit : Nat) : (new limit).Balanced limit := ⟨rfl, rfl, rfl, .fresh⟩

theorem Balanced.run {α : Type} {p : Parser α} (h : s.Balanced limit) (hp : p.Keeps) :
    (s.run p).2.Balanced limit := by
  have hrestored := s.restored_run p
  have henclosed : Arena.Enclosed (some s.scope) s.arena (s.run p).2.arena :=
    run_of_ends (hp _ _ h.root.lt)
  exact {
    limit := hrestored.limit.trans h.limit
    depth := hrestored.depth.trans h.depth
    scope := hrestored.scope.trans h.scope
    root := hrestored.scope ▸ h.root.keep henclosed }

/-- Whatever comes of a text, its declarations are gone from the session. -/
theorem parse_after (s : Session) (source : String) :
    (s.parse source).2.limit = s.limit ∧ (s.parse source).2.depth = 0 ∧
      (s.parse source).2.scope = Arena.root ∧ (s.parse source).2.arena = .fresh := by
  rw [parse_eq]
  rcases TokenList.scan source with ⟨T, _ | failure⟩
  · dsimp only
    cases Parser.topLevel s.limit ⟨T, s.limit, Arena.root⟩ ⟨0, .fresh⟩ <;>
      exact ⟨rfl, rfl, rfl, rfl⟩
  · exact ⟨rfl, rfl, rfl, rfl⟩

theorem parseStatus_after (s : Session) (source : String) :
    (s.parseStatus source).2 = (s.parse source).2 := by
  unfold parseStatus
  cases h : s.parse source with
  | mk r t => cases r <;> rfl

theorem balanced_parse (h : s.limit = limit) (source : String) :
    (s.parse source).2.Balanced limit := by
  obtain ⟨hlimit, hdepth, hscope, harena⟩ := s.parse_after source
  exact ⟨hlimit.trans h, hdepth, hscope, by rw [harena, hscope]; exact .fresh⟩

/-- Each operation leaves the session as balanced as it was. -/
theorem Balanced.after (h : s.Balanced limit) (o : Operation) : (s.after o).Balanced limit := by
  cases o with
  | parse source => exact balanced_parse h.limit source
  | parseStatus source =>
    rw [Session.after, parseStatus_after]
    exact balanced_parse h.limit source
  | clear => exact h.limit ▸ balanced_new s.limit
  | advance => exact h.run Parser.congruence_keeps.advance
  | accept kind => exact h.run (Parser.congruence_keeps.accept kind)
  | expect kind what => exact h.run (Parser.congruence_keeps.expect kind what)
  | read c =>
    rw [Session.after, read_eq]
    exact h.run (Parser.congruence_keeps.within s.levels c)

theorem balanced_history (limit : Nat) (operations : List Operation) :
    (history limit operations).Balanced limit := by
  have hall : ∀ (operations : List Operation) (s : Session), s.Balanced limit →
      (operations.foldl Session.after s).Balanced limit := by
    intro operations
    induction operations with
    | nil => exact fun s h => h
    | cons o operations ih => exact fun s h => ih _ (h.after o)
  exact hall operations _ (balanced_new limit)

end Session

/-- After any operations, failed or not, no level of nesting is open, and the current scope is the
root: the scope that has no owner, and to which closing leads from all others. What restores both is
each construct by itself: from any session, whatever is open in it, reading one ends with the same
depth and in the same scope, on success and on failure. A text leaves no declarations behind, and is
read as by a new session. -/
theorem sessions_stay_balanced (limit : Nat) (operations : List Operation) :
    let s := Session.history limit operations
    (s.limit = limit ∧ s.depth = 0 ∧ s.scope = Arena.root) ∧
    (s.scope.index < s.arena.scopeCount ∧ (s.arena.scopeAt s.scope).owner = none ∧
      ∀ t : ScopeId, t.index < s.arena.scopeCount → (s.arena.chain t).getLast? = some s.scope) ∧
    (∀ (t : Session) (c : Construct),
      (t.read c).2.depth = t.depth ∧ (t.read c).2.scope = t.scope) ∧
    (∀ source, (s.parse source).2.arena = { scopes := #[{}] } ∧
      (s.parseStatus source).2.arena = { scopes := #[{}] }) ∧
    ∀ source, s.parse source = (Session.new limit).parse source ∧
      s.parseStatus source = (Session.new limit).parseStatus source := by
  intro s
  have h : s.Balanced limit := Session.balanced_history limit operations
  have hparse : ∀ source, s.parse source = (Session.new limit).parse source := by
    intro source
    rw [Session.parse_eq, Session.parse_eq, h.limit]
    rfl
  refine ⟨⟨h.limit, h.depth, h.scope⟩, ⟨h.root.lt, h.root.owner, fun t => h.root.getLast?_chain⟩,
    fun t c => ?_, fun source => ?_, fun source => ⟨hparse source, ?_⟩⟩
  · have hrestored := t.restored_read c
    exact ⟨hrestored.depth, hrestored.scope⟩
  · obtain ⟨-, -, -, harena⟩ := s.parse_after source
    exact ⟨harena, by rw [Session.parseStatus_after, harena]; rfl⟩
  · unfold Session.parseStatus
    rw [hparse]

/-- The body of `f` fails with three scopes and three levels open, and its inner block fails again
when it is read by itself, two scopes and three levels deep. Each leaves open what was before. -/
theorem sessions_stay_balanced_failed :
    ∃ s t : Session,
      s = Session.history 5
        [.parse "x; function void f(int b) \x7b \x7b int c = d; \x7d \x7d",
          .accept Symbol.semicolon, .read .functionDeclaration] ∧
      t = { s with position := 10, depth := 3, scope := ⟨2⟩ } ∧
      s.position = 15 ∧ s.current.text = ";" ∧ s.depth = 0 ∧ s.scope = Arena.root ∧
      3 < s.arena.scopeCount ∧ (s.arena.chain ⟨3⟩).getLast? = some s.scope ∧
      (t.read .block).1.isOk = false ∧ (t.read .block).2.position = 15 ∧
      (t.read .block).2.depth = 3 ∧ (t.read .block).2.scope = ⟨2⟩ ∧
      (s.parse "int y = 1;").1.isOk = true ∧
      s.parse "int y = 1;" = (Session.new 5).parse "int y = 1;" := by
  obtain ⟨⟨-, hdepth, hscope⟩, ⟨-, -, hchain⟩, hread, -, hparse⟩ := sessions_stay_balanced 5
    [.parse "x; function void f(int b) \x7b \x7b int c = d; \x7d \x7d",
      .accept Symbol.semicolon, .read .functionDeclaration]
  refine ⟨_, _, rfl, rfl, ?_, ?_, hdepth, hscope, ?_, hchain ⟨3⟩ ?_, ?_, ?_, (hread _ _).1,
    (hread _ _).2, ?_, (hparse _).1⟩
  all_goals decide +kernel

end ScriptSyntax
