import ScriptSyntax.Proofs.Grammar.Completeness
import ScriptSyntax.Proofs.Grammar.Passage

/-!
The scopes of a program are nested as its blocks are, and numbered in the order in which the text
opens them.
-/

namespace ScriptSyntax

open Arena

variable {T : TokenList}

section Scopes

/-- The scope of the parameters lies in the one the function is declared in. -/
theorem HeadAt.owner {s i a g f q j d} (h : HeadAt T s i a g f q j d) (hc : a.Coherent)
    (hs : s.index < a.scopeCount) : (d.scopeAt q).owner = some s := by
  cases h with
  | mk _ _ _ _ _ hp hps hd =>
    have hp := scopePushed hp hs
    obtain ⟨hf, _⟩ := hps.frame (hc.pushScope hp) hp.lt
    have hdefined := Frame.defineFunction (functionDefined hd)
    rw [hdefined.owner (Nat.lt_of_lt_of_le hp.lt hf.scopeCount), hf.owner hp.lt, hp.new]

mutual

/-- The scopes are numbered as they are opened. -/
theorem Passage.scopes {s i a ns L j b} (h : Passage T s i a ns L j b) (hc : a.Coherent)
    (hs : s.index < a.scopeCount) : ∃ n, b.scopeCount = a.scopeCount + n ∧
      (L.flatMap Site.openings).map (·.scope.index) = List.range' a.scopeCount n := by
  match h with
  | .quiet _ => exact ⟨0, rfl, rfl⟩
  | .declare _ _ _ hd => exact ⟨0, (variableDefined hd).scopeCount, rfl⟩
  | .block h => exact h.scopes hc hs
  | .function hh _ h =>
    have hd := hh.declared hc hs
    obtain ⟨n, hn, hscopes⟩ := h.scopes hd.coherent hd.lt
    rw [hd.scopeCount] at hn hscopes
    refine ⟨n + 1, hn.trans (by omega), ?_⟩
    rw [List.range'_succ, ← hscopes]
    exact congrArg (· :: _) hd.scope
  | .append h h' =>
    obtain ⟨hf, hcb⟩ := h.frame hc hs
    obtain ⟨m, hm, hscopes⟩ := h.scopes hc hs
    obtain ⟨n, hn, hscopes'⟩ := h'.scopes hcb (Nat.lt_of_lt_of_le hs hf.scopeCount)
    refine ⟨m + n, by omega, ?_⟩
    rw [List.flatMap_append, List.map_append, hscopes, hscopes', hm]
    exact List.range'_append_1

theorem Enclosure.scopes {s i a block L j b} (h : Enclosure T s i a block L j b)
    (hc : a.Coherent) (hs : s.index < a.scopeCount) : ∃ n, b.scopeCount = a.scopeCount + n ∧
      (block.opening s :: L.flatMap Site.openings).map (·.scope.index) =
        List.range' a.scopeCount n := by
  match h with
  | .mk _ hp h =>
    have hp := scopePushed hp hs
    obtain ⟨n, hn, hscopes⟩ := h.scopes (hc.pushScope hp) hp.lt
    rw [hp.scopeCount] at hn hscopes
    refine ⟨n + 1, hn.trans (by omega), ?_⟩
    rw [List.range'_succ, ← hscopes]
    exact congrArg (· :: _) hp.id

end

/-- The places of the tokens at slots `i` up to `j`. -/
def TokenList.places (T : TokenList) (i j : Nat) : List Location :=
  (List.range' i (j - i)).map fun k => (T.get k).location

namespace TokenList

variable {i j k m : Nat} {ls : List Location}

theorem places_append (hij : i ≤ j) (hjk : j ≤ k) :
    T.places i j ++ T.places j k = T.places i k := by
  have hsplit := List.range'_append_1 (s := i) (m := j - i) (n := k - j)
  rw [Nat.add_sub_cancel' hij, show j - i + (k - j) = k - i by omega] at hsplit
  rw [places, places, ← List.map_append, hsplit, places]

theorem mem_places (hij : i < j) : (T.get i).location ∈ T.places i j :=
  List.mem_map_of_mem (List.mem_range'_1.2 ⟨Nat.le_refl i, by omega⟩)

/-- One place in front of others. -/
theorem cons_sublist_places (h : ls.Sublist (T.places j k)) (hij : i < j) (hjk : j ≤ k)
    (hkm : k ≤ m) : ((T.get i).location :: ls).Sublist (T.places i m) := by
  have hfirst : [(T.get i).location].Sublist (T.places i j) :=
    List.singleton_sublist.2 (mem_places hij)
  rw [← places_append (Nat.le_of_lt hij) (Nat.le_trans hjk hkm), ← places_append hjk hkm]
  exact hfirst.append (h.trans (List.sublist_append_left _ _))

theorem Ordered.pairwise_places (hT : T.Ordered) (hj : j ≤ T.size) :
    (T.places i j).Pairwise (· < ·) := by
  unfold places
  rw [List.pairwise_map]
  refine (List.pairwise_lt_range' _).imp_of_mem fun {k m} hk hm hkm => ?_
  have hm := List.mem_range'_1.1 hm
  exact (hT.lt_iff (by omega) (by omega)).2 hkm

end TokenList

mutual

/-- The places where scopes are opened follow one another. -/
theorem Passage.places {s i a ns L j b} (h : Passage T s i a ns L j b) :
    ((L.flatMap Site.openings).map (·.place)).Sublist (T.places i j) := by
  match h with
  | .quiet _ | .declare _ _ _ _ => exact List.nil_sublist _
  | .block h => exact h.places
  | .function hh _ h =>
    exact TokenList.cons_sublist_places h.places hh.lt (Nat.le_of_lt h.lt) (Nat.le_refl _)
  | .append h h' =>
    rw [List.flatMap_append, List.map_append, ← TokenList.places_append h.le h'.le]
    exact h.places.append h'.places

theorem Enclosure.places {s i a block L j b} (h : Enclosure T s i a block L j b) :
    ((block.opening s :: L.flatMap Site.openings).map (·.place)).Sublist (T.places i j) := by
  match h with
  | .mk hi _ h => exact TokenList.cons_sublist_places h.places hi h.le (Nat.le_succ _)

end

-- A scope is given its owner when it is opened, and what is read behind it keeps the owners of all
-- scopes that exist by then.
mutual

theorem Passage.owners {s i a ns L j b} (h : Passage T s i a ns L j b) (hc : a.Coherent)
    (hs : s.index < a.scopeCount) : ∀ o ∈ L.flatMap Site.openings,
      o.scope.index < b.scopeCount ∧ (b.scopeAt o.scope).owner = some o.owner := by
  match h with
  | .quiet _ | .declare _ _ _ _ => exact fun o ho => absurd ho List.not_mem_nil
  | .block h => exact h.owners hc hs
  | .function hh _ h =>
    have hd := hh.declared hc hs
    obtain ⟨hf, _⟩ := h.frame hd.coherent hd.lt
    intro o ho
    rcases List.mem_cons.1 ho with rfl | ho
    · exact ⟨Nat.lt_of_lt_of_le hd.lt hf.scopeCount, (hf.owner hd.lt).trans (hh.owner hc hs)⟩
    · exact h.owners hd.coherent hd.lt o ho
  | .append h h' =>
    obtain ⟨hf, hcb⟩ := h.frame hc hs
    have hsb := Nat.lt_of_lt_of_le hs hf.scopeCount
    obtain ⟨hf', _⟩ := h'.frame hcb hsb
    intro o ho
    rw [List.flatMap_append, List.mem_append] at ho
    rcases ho with ho | ho
    · obtain ⟨hlt, howner⟩ := h.owners hc hs o ho
      exact ⟨Nat.lt_of_lt_of_le hlt hf'.scopeCount, (hf'.owner hlt).trans howner⟩
    · exact h'.owners hcb hsb o ho

theorem Enclosure.owners {s i a block L j b} (h : Enclosure T s i a block L j b)
    (hc : a.Coherent) (hs : s.index < a.scopeCount) :
    ∀ o ∈ block.opening s :: L.flatMap Site.openings,
      o.scope.index < b.scopeCount ∧ (b.scopeAt o.scope).owner = some o.owner := by
  match h with
  | .mk _ hp h =>
    have hp := scopePushed hp hs
    obtain ⟨hf, _⟩ := h.frame (hc.pushScope hp) hp.lt
    intro o ho
    rcases List.mem_cons.1 ho with rfl | ho
    · refine ⟨Nat.lt_of_lt_of_le hp.lt hf.scopeCount, (hf.owner hp.lt).trans ?_⟩
      rw [hp.new]
      rfl
    · exact h.owners (hc.pushScope hp) hp.lt o ho

end

end Scopes

section Spans

/-- The span from slot `k` to slot `m`. -/
def TokenList.span (T : TokenList) (k m : Nat) : Span := ⟨(T.get k).location, (T.get m).location⟩

theorem TokenList.Ordered.le_iff {i k : Nat} (hT : T.Ordered) (hi : i ≤ T.size) (hk : k ≤ T.size) :
    (T.get i).location ≤ (T.get k).location ↔ i ≤ k := by
  constructor
  · rintro (h | h)
    · exact Nat.le_of_lt ((hT.lt_iff hi hk).1 h)
    · refine Nat.le_of_not_lt fun hki => ?_
      have := (hT.lt_iff hk hi).2 hki
      rw [h] at this
      exact Location.lt_irrefl _ this
  · intro h
    rcases Nat.lt_or_eq_of_le h with h | rfl
    · exact Or.inl ((hT.lt_iff hi hk).2 h)
    · exact Or.inr rfl

/-- One stretch of tokens holds another. -/
theorem TokenList.Ordered.encloses_iff {k m k' m' : Nat} (hT : T.Ordered) (hm : m ≤ T.size)
    (hk : k ≤ m) (hm' : m' ≤ T.size) (hk' : k' ≤ m') :
    (T.span k m).Encloses (T.span k' m') ↔ k ≤ k' ∧ m' ≤ m :=
  and_congr (hT.le_iff (Nat.le_trans hk hm) (Nat.le_trans hk' hm')) (hT.le_iff hm' hm)

/-- A span whose tokens stand at slots `i` up to `j`. -/
def TokenList.Spans (T : TokenList) (i j : Nat) (t : Span) : Prop :=
  ∃ k m, i ≤ k ∧ k ≤ m ∧ m < j ∧ t = T.span k m

theorem TokenList.Spans.mono {i j i' j' : Nat} {t : Span} (h : T.Spans i j t) (hi : i' ≤ i)
    (hj : j ≤ j') : T.Spans i' j' t := by
  obtain ⟨k, m, hk, hkm, hm, ht⟩ := h
  exact ⟨k, m, by omega, hkm, by omega, ht⟩

/-- What stands apart does not enclose. -/
theorem TokenList.Spans.not_encloses {i j k l : Nat} {t u : Span} (hT : T.Ordered)
    (ht : T.Spans i j t) (hu : T.Spans k l u) (hj : j ≤ T.size) (hl : l ≤ T.size)
    (h : j ≤ k ∨ l ≤ i) : ¬ t.Encloses u := by
  obtain ⟨k₁, m₁, hk₁, hkm₁, hm₁, rfl⟩ := ht
  obtain ⟨k₂, m₂, hk₂, hkm₂, hm₂, rfl⟩ := hu
  rw [hT.encloses_iff (by omega) hkm₁ (by omega) hkm₂]
  omega

mutual

theorem Passage.spans {s i a ns L j b} (h : Passage T s i a ns L j b) :
    ∀ t ∈ L.flatMap Site.spans, T.Spans i j t := by
  match h with
  | .quiet _ | .declare _ _ _ _ => exact fun t ht => absurd ht List.not_mem_nil
  | .block h => exact h.spans
  | .function hh _ h =>
    have hi := hh.lt
    have hspans := h.spans
    intro t ht
    rcases List.mem_cons.1 ht with rfl | ht
    · obtain ⟨k, m, hk, hkm, hm, hbody⟩ := hspans _ List.mem_cons_self
      exact ⟨i, m, Nat.le_refl i, by omega, hm, by rw [hbody]; rfl⟩
    · exact (hspans t ht).mono (Nat.le_of_lt hi) (Nat.le_refl _)
  | .append h h' =>
    intro t ht
    rw [List.flatMap_append, List.mem_append] at ht
    rcases ht with ht | ht
    · exact (h.spans t ht).mono (Nat.le_refl _) h'.le
    · exact (h'.spans t ht).mono h.le (Nat.le_refl _)

theorem Enclosure.spans {s i a block L j b} (h : Enclosure T s i a block L j b) :
    ∀ t ∈ block.span :: L.flatMap Site.spans, T.Spans i j t := by
  match h with
  | .mk hi _ h =>
    have hj := h.le
    intro t ht
    rcases List.mem_cons.1 ht with rfl | ht
    · exact ⟨i, _, Nat.le_refl i, by omega, Nat.lt_succ_self _, rfl⟩
    · exact (h.spans t ht).mono (Nat.le_of_lt hi) (Nat.le_succ _)

end

end Spans

section Functions

variable {s : ScopeId} {f : Function} {block : Block} {bs cs : List Block} {L : List Site}

theorem span_mem_spans (h : block ∈ L.flatMap Site.blocks) :
    block.span ∈ L.flatMap Site.spans := by
  obtain ⟨site, hsite, hblock⟩ := List.mem_flatMap.1 h
  refine List.mem_flatMap.2 ⟨site, hsite, ?_⟩
  cases site with
  | block =>
    obtain rfl := List.mem_singleton.1 hblock
    exact List.mem_cons_self
  | declare => exact absurd hblock List.not_mem_nil
  | function =>
    obtain rfl := List.mem_singleton.1 hblock
    exact List.mem_cons_of_mem _ List.mem_cons_self

/-- The function stands outside of the blocks, in scope `s`, or its owner is the scope of the
innermost one around it. -/
def DeclaredIn (s : ScopeId) (bs : List Block) (f : Function) : Prop :=
  (f.owner = s ∧ ∀ c ∈ bs, ¬ c.span.Encloses f.span) ∨
    ∃ b, Innermost bs f.span b ∧ b.scope = f.owner

/-- Other blocks that do not enclose the function make no difference. -/
theorem DeclaredIn.among (h : DeclaredIn s bs f) (hsub : bs ⊆ cs)
    (hnew : ∀ c ∈ cs, c ∈ bs ∨ ¬ c.span.Encloses f.span) : DeclaredIn s cs f := by
  rcases h with ⟨hs, hnone⟩ | ⟨b, hb, hscope⟩
  · exact Or.inl ⟨hs, fun c hc => (hnew c hc).elim (hnone c) id⟩
  · refine Or.inr ⟨b, ⟨hsub hb.mem, hb.encloses, fun c hc he => ?_⟩, hscope⟩
    rcases hnew c hc with hc | hc
    · exact hb.inside c hc he
    · exact absurd he hc

/-- In a block, what stands outside of the blocks inside is declared in the scope of the block. -/
theorem DeclaredIn.close (h : DeclaredIn s bs f) (hblock : block.scope = s)
    (hf : block.span.Encloses f.span) (hbs : ∀ c ∈ bs, block.span.Encloses c.span) :
    ∃ b, Innermost (block :: bs) f.span b ∧ b.scope = f.owner := by
  rcases h with ⟨hs, hnone⟩ | ⟨b, hb, hscope⟩
  · refine ⟨block, ⟨List.mem_cons_self, hf, fun c hc he => ?_⟩, hblock.trans hs.symm⟩
    rcases List.mem_cons.1 hc with rfl | hc
    · exact ⟨Location.le_refl _, Location.le_refl _⟩
    · exact absurd he (hnone c hc)
  · refine ⟨b, ⟨List.mem_cons_of_mem _ hb.mem, hb.encloses, fun c hc he => ?_⟩, hscope⟩
    rcases List.mem_cons.1 hc with rfl | hc
    · exact hbs b hb.mem
    · exact hb.inside c hc he

/-- A block encloses all that stands between its braces. -/
theorem TokenList.Spans.enclosed {i j k m : Nat} {t : Span} (hT : T.Ordered) (h : T.Spans i j t)
    (hi : k ≤ i) (hj : j ≤ m) (hm : m ≤ T.size) (hkm : k ≤ m) : (T.span k m).Encloses t := by
  obtain ⟨k', m', hk', hkm', hm', rfl⟩ := h
  exact (hT.encloses_iff hm hkm (by omega) hkm').2 ⟨by omega, by omega⟩

-- What stands next to one another encloses nothing of each other, so putting passages together adds
-- only blocks that make no difference; a pair of braces adds the block around all of them.
mutual

theorem Passage.nested {s i a ns L j b} (h : Passage T s i a ns L j b) (hT : T.Ordered)
    (hj : j ≤ T.size) :
    ∀ f, Site.function f ∈ L → DeclaredIn s (L.flatMap Site.blocks) f := by
  match h with
  | .quiet _ => exact fun f hf => absurd hf List.not_mem_nil
  | .declare _ _ _ _ =>
    intro f hf
    cases List.mem_singleton.1 hf
  | .block h =>
    intro f hf
    rcases List.mem_cons.1 hf with hf | hf
    · cases hf
    · exact Or.inr (h.nested hT hj f hf)
  | .function hh _ h =>
    intro f hf
    rcases List.mem_cons.1 hf with hf | hf
    · -- No block begins in front of the function, which begins in front of its body.
      cases hf
      refine Or.inl ⟨rfl, fun c hc => ?_⟩
      have hi := hh.lt
      obtain ⟨k, m, hk, hkm, hm, hspan⟩ := h.spans _ List.mem_cons_self
      have hc : T.Spans _ _ c.span := h.spans _ (by
        rcases List.mem_cons.1 hc with rfl | hc
        · exact List.mem_cons_self
        · exact List.mem_cons_of_mem _ (span_mem_spans hc))
      obtain ⟨k', m', hk', hkm', hm', hspan'⟩ := hc
      rw [hspan, hspan']
      exact fun he => by
        have := (hT.encloses_iff (by omega) hkm' (by omega) (by omega)).1 he
        omega
    · exact Or.inr (h.nested hT hj f hf)
  | .append h h' =>
    have hij := h.le
    have hjk := h'.le
    intro f hf
    rw [List.flatMap_append]
    rcases List.mem_append.1 hf with hf | hf
    · have hspan := h.spans _ (List.mem_flatMap.2 ⟨_, hf, List.mem_cons_self⟩)
      refine (h.nested hT (by omega) f hf).among (List.subset_append_left _ _) fun c hc => ?_
      refine (List.mem_append.1 hc).imp_right fun hc => ?_
      exact (h'.spans _ (span_mem_spans hc)).not_encloses hT hspan hj (by omega)
        (Or.inr (Nat.le_refl _))
    · have hspan := h'.spans _ (List.mem_flatMap.2 ⟨_, hf, List.mem_cons_self⟩)
      refine (h'.nested hT hj f hf).among (List.subset_append_right _ _) fun c hc => ?_
      refine (List.mem_append.1 hc).symm.imp_right fun hc => ?_
      exact (h.spans _ (span_mem_spans hc)).not_encloses hT hspan (by omega) hj
        (Or.inl (Nat.le_refl _))

theorem Enclosure.nested {s i a block L j b} (h : Enclosure T s i a block L j b)
    (hT : T.Ordered) (hj : j ≤ T.size) : ∀ f, Site.function f ∈ L →
      ∃ b, Innermost (block :: L.flatMap Site.blocks) f.span b ∧ b.scope = f.owner := by
  match h with
  | .mk hi _ h =>
    have hl := h.le
    have hinside : ∀ t ∈ L.flatMap Site.spans, (T.span i _).Encloses t := fun t ht =>
      (h.spans t ht).enclosed hT (Nat.le_of_lt hi) (Nat.le_refl _) (by omega) (by omega)
    intro f hf
    apply (h.nested hT (by omega) f hf).close rfl
    · exact hinside _ (List.mem_flatMap.2 ⟨_, hf, List.mem_cons_self⟩)
    · exact fun c hc => hinside _ (span_mem_spans hc)

end

end Functions

section Program

variable {ns : List Node} {L : List Site} {j : Nat} {b : Arena} {p : Program}

/-- Scopes and places grow together. -/
theorem Passage.ordered {s i a} (h : Passage T s i a ns L j b) (hT : T.Ordered) (hj : j ≤ T.size)
    (hc : a.Coherent) (hs : s.index < a.scopeCount) :
    (L.flatMap Site.openings).Pairwise fun o o' => o.scope < o'.scope ∧ o.place < o'.place := by
  obtain ⟨n, -, hscopes⟩ := h.scopes hc hs
  have hlt : ((L.flatMap Site.openings).map (·.scope.index)).Pairwise (· < ·) :=
    hscopes ▸ List.pairwise_lt_range' _
  have hplaces := (hT.pairwise_places hj).sublist h.places
  exact (List.pairwise_map.1 hlt).and (List.pairwise_map.1 hplaces)

theorem scope_lt_iff {os : List ScopeOpening}
    (h : os.Pairwise fun o o' => o.scope < o'.scope ∧ o.place < o'.place) {o o' : ScopeOpening}
    (ho : o ∈ os) (ho' : o' ∈ os) : o.scope < o'.scope ↔ o.place < o'.place := by
  refine List.Pairwise.forall_of_forall_of_flip (R := fun o o' : ScopeOpening =>
    o.scope < o'.scope ↔ o.place < o'.place) (fun o _ => ?_) (h.imp fun h => ?_)
    (h.imp fun h => ?_) ho ho'
  · exact iff_of_false (Nat.lt_irrefl _) (Location.lt_irrefl _)
  · exact iff_of_true h.1 h.2
  · exact iff_of_false (Nat.lt_asymm h.1) (Location.lt_asymm h.2)

/-- The scopes that are opened on the way are all those but the root. -/
theorem Passage.all_scopes (h : Passage T root 0 .fresh ns L j b) :
    (root :: (L.flatMap Site.openings).map (·.scope)) =
      (List.range b.scopeCount).map ScopeId.mk := by
  obtain ⟨n, hn, hscopes⟩ := h.scopes .fresh (by decide)
  have hcount : b.scopeCount = n + 1 := hn.trans (Nat.add_comm 1 n)
  have hmap : (L.flatMap Site.openings).map (·.scope) = (List.range' 1 n).map ScopeId.mk := by
    have := congrArg (List.map ScopeId.mk) hscopes
    rwa [List.map_map] at this
  rw [hmap, hcount, List.range_eq_range', List.range'_succ, List.map_cons]
  rfl

/-- What encloses everything is the block of the top level. -/
theorem Passage.innermost (h : Passage T root 0 .fresh ns L j b) (hT : T.Ordered)
    (hj : j ≤ T.size) {f : Function} (hf : Site.function f ∈ L) :
    ∃ c, Innermost ((topOf T ns j).body :: L.flatMap Site.blocks) f.span c ∧
      c.scope = f.owner := by
  have hinside : ∀ t ∈ L.flatMap Site.spans, (topOf T ns j).body.span.Encloses t := fun t ht =>
    (h.spans t ht).enclosed hT (Nat.le_refl _) (Nat.le_refl _) hj (Nat.zero_le _)
  apply (h.nested hT hj f hf).close rfl
  · exact hinside _ (List.mem_flatMap.2 ⟨_, hf, List.mem_cons_self⟩)
  · exact fun c hc => hinside _ (span_mem_spans hc)

theorem Innermost.congr {bs cs : List Block} {t : Span} {c : Block} (h : Innermost bs t c)
    (hbs : ∀ d, d ∈ bs ↔ d ∈ cs) : Innermost cs t c :=
  ⟨(hbs c).1 h.mem, h.encloses, fun d hd => h.inside d ((hbs d).2 hd)⟩

/-- The scopes of a program are the root, which belongs to the block of the top level, and one for
each other block and for the parameters of each function. A scope lies in that of the block around
it, or the scope of a body in that of the parameters. All hang together by way of children, and
their numbers grow in the order of the text. -/
theorem scopes_mirror_blocks {limit : Nat} {source : String} {p : Program}
    (h : parse limit source = .ok p) :
    p.topLevel.body.scope = p.root ∧
      (p.root :: p.openings.map (·.scope)).Perm
        ((List.range p.arena.scopeCount).map ScopeId.mk) ∧
      (∀ o ∈ p.openings, (p.arena.scopeAt o.scope).owner = some o.owner) ∧
      (∀ f ∈ p.functions, ∃ b, Innermost p.blocks f.span b ∧ b.scope = f.owner) ∧
      (∀ s : ScopeId, s.index < p.arena.scopeCount →
        Relation.ReflTransGen (fun o c => c ∈ (p.arena.scopeAt o).children) p.root s) ∧
      ∀ o ∈ p.openings, p.root < o.scope ∧
        ∀ o' ∈ p.openings, o.scope < o'.scope ↔ o.place < o'.place := by
  obtain ⟨T, cs, hT, hp⟩ := Parser.programAt_of_parse h
  have hT : T.Ordered := TokenList.ordered_of_tokenize hT
  obtain ⟨ns, j, b, L, rfl, hj, hpassage, -, hsites⟩ := hp.passage
  have hopenings := hsites.flatMap_right Site.openings
  have hblocks := hsites.flatMap_right Site.blocks
  have hall := hpassage.all_scopes
  refine ⟨by rw [topLevel_programOf]; rfl, ?_, fun o ho => ?_, fun f hf => ?_, fun s hs => ?_,
    fun o ho => ⟨?_, fun o' ho' => ?_⟩⟩
  · exact ((hopenings.map _).cons _).trans (.of_eq hall)
  · exact (hpassage.owners .fresh (by decide) o (hopenings.mem_iff.1 ho)).2
  · have hf : Site.function f ∈ L :=
      hsites.mem_iff.1 (List.mem_append_right _ (List.mem_map_of_mem hf))
    obtain ⟨c, hc, hscope⟩ := hpassage.innermost hT hj hf
    refine ⟨c, hc.congr fun d => ?_, hscope⟩
    rw [Program.blocks, topLevel_programOf]
    exact (hblocks.cons _).symm.mem_iff
  · exact ((hpassage.steps .fresh (by decide)).keep Rooted.step .fresh).reachable hs
  · obtain ⟨n, -, hscopes⟩ := hpassage.scopes .fresh (by decide)
    have hmem := List.mem_map_of_mem (f := (·.scope.index)) (hopenings.mem_iff.1 ho)
    rw [hscopes] at hmem
    exact (List.mem_range'_1.1 hmem).1
  · exact scope_lt_iff (hpassage.ordered hT hj .fresh (by decide)) (hopenings.mem_iff.1 ho)
      (hopenings.mem_iff.1 ho')

/-- A block, in it a function with its parameters and its body, and in that two blocks more. -/
theorem scopes_mirror_blocks_function :
    ∃ p, parse 8 "\x7b function void f(int x) \x7b if (x) \x7b \x7d else \x7b \x7d \x7d \x7d" =
        .ok p ∧
      (p.root :: p.openings.map (·.scope)).Perm [⟨0⟩, ⟨1⟩, ⟨2⟩, ⟨3⟩, ⟨4⟩, ⟨5⟩] ∧
      ∃ f ∈ p.functions, ∃ b, Innermost p.blocks f.span b ∧ b.scope = f.owner := by
  have h : (match parse 8
        "\x7b function void f(int x) \x7b if (x) \x7b \x7d else \x7b \x7d \x7d \x7d" with
      | .ok p => decide (p.arena.scopeCount = 6 ∧ p.functions ≠ [])
      | .error _ => false) = true := by decide +kernel
  split at h
  · next p hp =>
    obtain ⟨hcount, hfunctions⟩ := of_decide_eq_true h
    obtain ⟨-, hscopes, -, hfunction, -⟩ := scopes_mirror_blocks hp
    obtain ⟨f, hf⟩ := List.exists_mem_of_ne_nil _ hfunctions
    rw [hcount] at hscopes
    exact ⟨p, hp, hscopes, f, hf, hfunction f hf⟩
  · contradiction

end Program

end ScriptSyntax
