import ScriptSyntax.Proofs.Scope.Change

/-!
Bindings in which a name may be bound again: every name stands for one declaration, of that name,
and newer ones stand behind. No declaration is bound in two scopes.
-/

namespace ScriptSyntax

variable {Id : Type} {index : Id → Nat} {n : Nat} {nameOf nameOf' : Id → String}

namespace Bindings

variable {b : Bindings Id} {name x : String} {id : Id}

theorem get?_bind_of_ne (h : x ≠ name) : (b.bind name id).get? x = b.get? x := by
  have hold : ∀ es : List (String × Id), (es.filter (·.1 ≠ name)).lookup x = es.lookup x := by
    intro es
    induction es with
    | nil => rfl
    | cons e es ih =>
      obtain ⟨y, v⟩ := e
      by_cases hy : y = name
      · have hxy : (x == y) = false := by simpa [hy] using h
        rw [List.filter_cons_of_neg (by simpa using hy), List.lookup_cons, hxy, ih]
      · rw [List.filter_cons_of_pos (by simpa using hy), List.lookup_cons, List.lookup_cons, ih]
  have hnew : [(name, id)].lookup x = none := by simpa using h
  rw [get?, bind, List.lookup_append, hold, hnew, Option.or_none]
  rfl

/-- The bindings are of some of the first `n` declarations, under their names. -/
structure Lists (index : Id → Nat) (n : Nat) (nameOf : Id → String) (b : Bindings Id) : Prop where
  named : ∀ e ∈ b.entries, index e.2 < n ∧ nameOf e.2 = e.1
  ascending : b.entries.Pairwise fun e e' => index e.2 < index e'.2
  once : b.entries.Pairwise fun e e' => e.1 ≠ e'.1

theorem mem_entries_bind {e : String × Id} :
    e ∈ (b.bind name id).entries ↔ e ∈ b.entries ∧ e.1 ≠ name ∨ e = (name, id) := by
  simp only [bind, List.mem_append, List.mem_filter, decide_eq_true_eq, List.mem_singleton]

namespace Lists

theorem empty : Lists index n nameOf {} := ⟨nofun, .nil, .nil⟩

theorem get?_eq_some (h : b.Lists index n nameOf) :
    b.get? name = some id ↔ (name, id) ∈ b.entries := by
  refine ⟨mem_of_get?, fun hmem => ?_⟩
  obtain ⟨before, after, hentries⟩ := List.append_of_mem hmem
  have honce := h.once
  rw [hentries] at honce
  refine List.lookup_eq_some_iff.2 ⟨before, after, hentries, fun e he => ?_⟩
  have hne := (List.pairwise_append.1 honce).2.2 e he _ List.mem_cons_self
  simpa using hne.symm

/-- Every handle is bound, and only these. -/
theorem mem_ids (h : b.Lists index n nameOf) : id ∈ b.ids ↔ ∃ name, b.get? name = some id := by
  constructor
  · intro hid
    obtain ⟨name, hmem⟩ := exists_of_mem_ids hid
    exact ⟨name, h.get?_eq_some.2 hmem⟩
  · rintro ⟨name, hget⟩
    exact List.mem_map.2 ⟨_, mem_of_get? hget, rfl⟩

theorem ids_ascending (h : b.Lists index n nameOf) : b.ids.Pairwise fun v w => index v < index w :=
  List.pairwise_map.2 h.ascending

/-- Declarations are added, and those that were there keep their names. -/
theorem mono (h : b.Lists index n nameOf) {m : Nat} (hm : n ≤ m)
    (hname : ∀ v, index v < n → nameOf' v = nameOf v) : b.Lists index m nameOf' where
  named e he := by
    obtain ⟨hlt, heq⟩ := h.named e he
    exact ⟨Nat.lt_of_lt_of_le hlt hm, (hname e.2 hlt).trans heq⟩
  ascending := h.ascending
  once := h.once

/-- The name of the new declaration is bound again, whatever it stood for. -/
theorem bind (h : b.Lists index n nameOf) (hid : index id = n) (hnew : nameOf' id = name)
    (hname : ∀ v, index v < n → nameOf' v = nameOf v) :
    (b.bind name id).Lists index (n + 1) nameOf' where
  named e he := by
    rcases mem_entries_bind.1 he with ⟨he, -⟩ | rfl
    · exact (h.mono (Nat.le_succ n) hname).named e he
    · exact ⟨by rw [hid]; exact Nat.lt_succ_self n, hnew⟩
  ascending := by
    refine List.pairwise_append.2 ⟨h.ascending.filter _, List.pairwise_singleton _ _, ?_⟩
    intro e he e' he'
    rw [List.mem_singleton.1 he', hid]
    exact (h.named e (List.mem_filter.1 he).1).1
  once := by
    refine List.pairwise_append.2 ⟨h.once.filter _, List.pairwise_singleton _ _, ?_⟩
    intro e he e' he'
    rw [List.mem_singleton.1 he']
    exact of_decide_eq_true (List.mem_filter.1 he).2

end Lists

end Bindings

/-- What each scope binds are some of the first `n` declarations, and no two scopes share one. -/
structure Allotted (index : Id → Nat) (n : Nat) (nameOf : Id → String)
    (bindings : ScopeId → Bindings Id) : Prop where
  lists : ∀ t, (bindings t).Lists index n nameOf
  apart : ∀ {t u x y v}, (x, v) ∈ (bindings t).entries → (y, v) ∈ (bindings u).entries → t = u

namespace Allotted

variable {bindings bindings' : ScopeId → Bindings Id} {t u s : ScopeId} {x y : String} {v : Id}

theorem empty (h : ∀ t, bindings t = {}) : Allotted index n nameOf bindings where
  lists t := by
    rw [h t]
    exact .empty
  apart {t} _ _ _ _ ht := by
    rw [h t] at ht
    exact nomatch ht

theorem mono (h : Allotted index n nameOf bindings) {m : Nat} (hm : n ≤ m)
    (hname : ∀ v, index v < n → nameOf' v = nameOf v) (hsame : ∀ t, bindings' t = bindings t) :
    Allotted index m nameOf' bindings' where
  lists t := by
    rw [hsame]
    exact (h.lists t).mono hm hname
  apart {t u _ _ _} ht hu := by
    rw [hsame] at ht hu
    exact h.apart ht hu

/-- A new declaration is bound in one scope. -/
theorem bind (h : Allotted index n nameOf bindings) (hv : index v = n) (hnew : nameOf' v = x)
    (hname : ∀ w, index w < n → nameOf' w = nameOf w)
    (hs : bindings' s = (bindings s).bind x v) (helse : ∀ t, t ≠ s → bindings' t = bindings t) :
    Allotted index (n + 1) nameOf' bindings' := by
  have hmem : ∀ {t e}, e ∈ (bindings' t).entries →
      e ∈ (bindings t).entries ∨ t = s ∧ e = (x, v) := by
    intro t e he
    by_cases hts : t = s
    · subst hts
      rw [hs] at he
      rcases Bindings.mem_entries_bind.1 he with ⟨he, -⟩ | he
      · exact .inl he
      · exact .inr ⟨rfl, he⟩
    · rw [helse t hts] at he
      exact .inl he
  -- The new handle is not among the older ones.
  have hfresh : ∀ {t y}, (y, v) ∉ (bindings t).entries := by
    intro t y he
    have hlt := ((h.lists t).named _ he).1
    rw [hv] at hlt
    exact Nat.lt_irrefl n hlt
  refine ⟨fun t => ?_, fun {t u y z w} ht hu => ?_⟩
  · by_cases hts : t = s
    · rw [hts, hs]
      exact (h.lists s).bind hv hnew hname
    · rw [helse t hts]
      exact (h.lists t).mono (Nat.le_succ n) hname
  · rcases hmem ht with ht | ⟨rfl, ht⟩
    · rcases hmem hu with hu | ⟨-, hu⟩
      · exact h.apart ht hu
      · cases hu
        exact absurd ht hfresh
    · cases ht
      rcases hmem hu with hu | ⟨rfl, -⟩
      · exact absurd hu hfresh
      · rfl

theorem named (h : Allotted index n nameOf bindings) (hget : (bindings t).get? x = some v) :
    index v < n ∧ nameOf v = x :=
  (h.lists t).named _ (Bindings.mem_of_get? hget)

theorem unique (h : Allotted index n nameOf bindings) (ht : (bindings t).get? x = some v)
    (hu : (bindings u).get? y = some v) : t = u ∧ x = y :=
  ⟨h.apart (Bindings.mem_of_get? ht) (Bindings.mem_of_get? hu),
    (h.named ht).2.symm.trans (h.named hu).2⟩

end Allotted

end ScriptSyntax
