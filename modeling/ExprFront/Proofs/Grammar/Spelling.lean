import ExprFront.Proofs.Expr.Shape

/-!
# Tokens that spell an expression

`Spells e u` says that the tokens `u` spell the expression `e`, spans included: every node covers
the tokens from its first to its last. `Spells.kinds` and `Spells.wellFormed` say what spelled
expressions and their tokens look like, and `exists_spells` that all tokens of the right kinds spell
some expression, equal up to spans.
-/

namespace ExprFront

namespace Grammar

mutual

/-- The tokens spell the expression. -/
inductive Spells : Expr → TokenList → Prop where
  | identifier {name s} :
    Spells (.identifier name s) [⟨.ident name, s⟩]
  | literal {l s} (h : l.IsRead) :
    Spells (.literal l s) [⟨l.tokenKind, s⟩]
  | selfRef {s} :
    Spells (.selfRef s) [⟨.keyword .self, s⟩]
  | method {r name s d t} :
    Spells (.method r name (s.merge t))
      [⟨.keyword r.keyword, s⟩, ⟨.punct .dot, d⟩, ⟨.ident name, t⟩]
  | initializer {r s d t} :
    Spells (.initializer r (s.merge t))
      [⟨.keyword r.keyword, s⟩, ⟨.punct .dot, d⟩, ⟨.keyword .init, t⟩]
  | subscript {r args s o u c} (h : SpellsAll args u) :
    Spells (.subscript r args (s.merge (o.merge c)))
      (⟨.keyword r.keyword, s⟩ :: ⟨.punct .lbracket, o⟩ :: (u ++ [⟨.punct .rbracket, c⟩]))

/-- The tokens spell the expressions, at least one, with a comma between two of them. -/
inductive SpellsAll : List Expr → TokenList → Prop where
  | last {e u} (h : Spells e u) :
    SpellsAll [e] u
  | more {e u c es v} (h : Spells e u) (hs : SpellsAll es v) :
    SpellsAll (e :: es) (u ++ ⟨.punct .comma, c⟩ :: v)

end

/-- Induction over the tokens that spell an expression: `Q` is what is shown of lists. -/
theorem Spells.induct {motive : ∀ e u, Spells e u → Prop} {Q : ∀ es u, SpellsAll es u → Prop}
    (identifier : ∀ name s, motive _ _ (@Spells.identifier name s))
    (literal : ∀ l s h, motive _ _ (@Spells.literal l s h))
    (selfRef : ∀ s, motive _ _ (@Spells.selfRef s))
    (method : ∀ r name s d t, motive _ _ (@Spells.method r name s d t))
    (initializer : ∀ r s d t, motive _ _ (@Spells.initializer r s d t))
    (subscript : ∀ r args s o u c h, Q args u h → motive _ _ (@Spells.subscript r args s o u c h))
    (last : ∀ e u h, motive e u h → Q _ _ (@SpellsAll.last e u h))
    (more : ∀ e u c es v h hs, motive e u h → Q es v hs → Q _ _ (@SpellsAll.more e u c es v h hs))
    {e : Expr} {u : TokenList} (h : Spells e u) : motive e u h :=
  @Spells.rec motive Q @identifier @literal @selfRef @method @initializer @subscript @last @more
    e u h

/-- Only a list with elements is spelled. -/
lemma SpellsAll.ne_nil {es : List Expr} {u : TokenList} (h : SpellsAll es u) : es ≠ [] := by
  cases h <;> exact List.cons_ne_nil _ _

/-- The kinds of the tokens that spell an expression are those it is written with. -/
lemma Spells.kinds {e : Expr} {u : TokenList} (h : Spells e u) : u.kinds = e.flatten := by
  induction h using Spells.induct (Q := fun es u _ => u.kinds = Expr.flattenAll es) with
  | identifier => rfl
  | literal => rfl
  | selfRef => rfl
  | method => rfl
  | initializer => rfl
  | subscript r args s o u c h ih =>
    simp only [TokenList.kinds] at ih
    simp [TokenList.kinds, Expr.flatten, ih]
  | last e u h ih => exact ih
  | more e u c es v h hs ih ihs =>
    obtain ⟨e', es', rfl⟩ := List.exists_cons_of_ne_nil hs.ne_nil
    simp only [TokenList.kinds] at ih ihs
    simp [TokenList.kinds, Expr.flattenAll, ih, ihs]

/-- Every tree that is spelled is well formed. -/
lemma Spells.wellFormed {e : Expr} {u : TokenList} (h : Spells e u) : e.WellFormed := by
  induction h using Spells.induct (Q := fun es _ _ => ∀ e ∈ es, Expr.WellFormed e) with
  | identifier => exact .identifier trivial
  | literal l s h => exact .literal h
  | selfRef => exact .selfRef
  | method => exact .method trivial
  | initializer => exact .initializer
  | subscript r args s o u c h ih => exact .subscript h.ne_nil ih
  | last e u h ih =>
    rename_i he
    rw [List.mem_singleton.1 he]
    exact ih
  | more e u c es v h hs ih ihs =>
    rename_i he
    cases List.mem_cons.1 he with
    | inl he => exact he ▸ ih
    | inr he => exact ihs _ he

/-- A spelling has as many tokens as the tree is written with. -/
lemma Spells.length_eq {e : Expr} {u : TokenList} (h : Spells e u) :
    u.length = e.flatten.length := by
  rw [← h.kinds]
  simp [TokenList.kinds]

/-- No token of an expression is the end of file. -/
lemma Spells.kind_ne_eof {e : Expr} {u : TokenList} (h : Spells e u) : ∀ t ∈ u, t.kind ≠ .eof := by
  intro t ht heof
  apply e.eof_not_mem_flatten
  rw [← h.kinds, ← heof]
  exact List.mem_map_of_mem ht

/-- No tree is spelled without tokens. -/
lemma Spells.ne_nil {e : Expr} {u : TokenList} (h : Spells e u) : u ≠ [] := by
  cases h <;> exact List.cons_ne_nil _ _

/-- Tokens whose kinds are those of trees spell trees equal up to spans, if this holds for each
single one of the trees. -/
lemma exists_spellsAll {es : List Expr} (hne : es ≠ [])
    (ih : ∀ e ∈ es, ∀ u : TokenList, u.kinds = e.flatten →
      ∃ e', e'.eraseSpans = e.eraseSpans ∧ Spells e' u)
    {u : TokenList} (hu : u.kinds = Expr.flattenAll es) :
    ∃ es', es'.map Expr.eraseSpans = es.map Expr.eraseSpans ∧ SpellsAll es' u := by
  induction es generalizing u with
  | nil => exact absurd rfl hne
  | cons e es ihs =>
    cases es with
    | nil =>
      obtain ⟨e', he, hspell⟩ := ih e List.mem_cons_self u hu
      exact ⟨[e'], by simp [he], .last hspell⟩
    | cons e₂ es =>
      simp only [Expr.flattenAll, TokenList.kinds] at hu
      obtain ⟨v, w, rfl, hv, hw⟩ := List.map_eq_append_iff.1 hu
      obtain ⟨⟨_, c⟩, x, rfl, rfl, hx⟩ := List.map_eq_cons_iff.1 hw
      obtain ⟨e', he, hspell⟩ := ih e List.mem_cons_self v hv
      obtain ⟨es', hes, hspells⟩ :=
        ihs (List.cons_ne_nil _ _) (fun e₃ h₃ => ih e₃ (List.mem_cons_of_mem _ h₃)) hx
      refine ⟨e' :: es', ?_, .more hspell hspells⟩
      rw [List.map_cons, List.map_cons, he, hes]

/-- Tokens whose kinds are those of a well-formed tree spell a tree equal to it up to spans. -/
lemma exists_spells {e : Expr} (hwf : e.WellFormed) {u : TokenList} (hu : u.kinds = e.flatten) :
    ∃ e', e'.eraseSpans = e.eraseSpans ∧ Spells e' u := by
  induction hwf generalizing u with
  | identifier =>
    obtain ⟨⟨_, s⟩, rfl, rfl⟩ := List.map_eq_singleton_iff.1 hu
    exact ⟨.identifier _ s, rfl, .identifier⟩
  | literal h =>
    obtain ⟨⟨_, s⟩, rfl, rfl⟩ := List.map_eq_singleton_iff.1 hu
    exact ⟨.literal _ s, rfl, .literal h⟩
  | selfRef =>
    obtain ⟨⟨_, s⟩, rfl, rfl⟩ := List.map_eq_singleton_iff.1 hu
    exact ⟨.selfRef s, rfl, .selfRef⟩
  | method =>
    obtain ⟨⟨_, s⟩, v, rfl, rfl, hv⟩ := List.map_eq_cons_iff.1 hu
    obtain ⟨⟨_, d⟩, w, rfl, rfl, hw⟩ := List.map_eq_cons_iff.1 hv
    obtain ⟨⟨_, t⟩, rfl, rfl⟩ := List.map_eq_singleton_iff.1 hw
    exact ⟨.method _ _ (s.merge t), rfl, .method⟩
  | initializer =>
    obtain ⟨⟨_, s⟩, v, rfl, rfl, hv⟩ := List.map_eq_cons_iff.1 hu
    obtain ⟨⟨_, d⟩, w, rfl, rfl, hw⟩ := List.map_eq_cons_iff.1 hv
    obtain ⟨⟨_, t⟩, rfl, rfl⟩ := List.map_eq_singleton_iff.1 hw
    exact ⟨.initializer _ (s.merge t), rfl, .initializer⟩
  | subscript hne _ ih =>
    obtain ⟨⟨_, s⟩, v, rfl, rfl, hv⟩ := List.map_eq_cons_iff.1 hu
    obtain ⟨⟨_, o⟩, w, rfl, rfl, hw⟩ := List.map_eq_cons_iff.1 hv
    obtain ⟨x, y, rfl, hx, hy⟩ := List.map_eq_append_iff.1 hw
    obtain ⟨⟨_, c⟩, rfl, rfl⟩ := List.map_eq_singleton_iff.1 hy
    obtain ⟨args', hargs, hspells⟩ := exists_spellsAll hne (fun e he _ hu => ih e he hu) hx
    exact ⟨.subscript _ args' (s.merge (o.merge c)), by simp [hargs], .subscript hspells⟩

end Grammar

end ExprFront
