import ExprFront.Proofs.Grammar.Exact
import ExprFront.Proofs.Grammar.GivingUp
import ExprFront.Proofs.Lexical.Spacing
import ExprFront.Proofs.Parser.Run

/-!
# Respacing

Recognition and the explanation of a failure look at kinds only: token lists of the same kinds end
the reading of a list in the same way (`elements_alike`), and their failures are explained by errors
of the same kind (`kind_explain_congr`).

So two runs of the parser over tokens of the same kinds go alike: in every call both fail with
errors of one kind, or both give an expression, the same up to spans, and step over as many tokens
(`Cursor.Alike`). Writing the tokens of a source with other gaps between them changes nothing
(`parse_respaced`).
-/

namespace ExprFront

/-- The kinds of the tokens that are left are the kinds that are left. -/
lemma TokenList.kinds_drop (n : Nat) (ts : TokenList) : kinds (ts.drop n) = ts.kinds.drop n :=
  List.map_drop

/-- Token lists of the same kinds are both empty, or have heads of one kind. -/
lemma TokenList.cases_of_kinds_eq {ts us : TokenList} (h : ts.kinds = us.kinds) :
    (ts = [] ∧ us = []) ∨ ∃ k s s' ts' us', ts = ⟨k, s⟩ :: ts' ∧ us = ⟨k, s'⟩ :: us' ∧
      kinds ts' = kinds us' := by
  cases ts with
  | nil => exact .inl ⟨rfl, (List.map_eq_nil_iff.1 h.symm)⟩
  | cons t ts =>
    obtain ⟨⟨_, s'⟩, us', rfl, rfl, hrest⟩ := List.map_eq_cons_iff.1 h.symm
    exact .inr ⟨t.kind, t.span, s', ts, us', rfl, rfl, hrest.symm⟩

namespace Grammar

/-- Two lists ended in the same way, before tokens of the same kinds. -/
inductive ListEnd.Alike : ListEnd → ListEnd → Prop where
  | closed {es es' s s' p p'} : Alike (.closed es s p) (.closed es' s' p')
  | noElement {n n' ts us} (h : TokenList.kinds ts = TokenList.kinds us) :
    Alike (.noElement n ts) (.noElement n' us)
  | noSeparator {p p' ts us} (h : TokenList.kinds ts = TokenList.kinds us) :
    Alike (.noSeparator p ts) (.noSeparator p' us)

/-- Tokens of the same kinds are matched alike. -/
lemma primary_congr {ts us : TokenList} (h : ts.kinds = us.kinds) :
    ((primary ts).value = .noMatch ∧ (primary us).value = .noMatch) ∨
      ∃ e e' n, (primary ts).value = .matched e n ∧ (primary us).value = .matched e' n ∧
        e.eraseSpans = e'.eraseSpans := by
  have hcongr := expression_congr h
  rw [value_expression, value_expression] at hcongr
  cases hts : (primary ts).value with
  | noMatch =>
    rw [hts] at hcongr
    cases hus : (primary us).value with
    | noMatch => exact .inl ⟨rfl, rfl⟩
    | matched e' m =>
      rw [hus] at hcongr
      cases hcongr
  | matched e n =>
    rw [hts] at hcongr
    cases hus : (primary us).value with
    | noMatch =>
      rw [hus] at hcongr
      cases hcongr
    | matched e' m =>
      rw [hus] at hcongr
      obtain ⟨he, rfl⟩ := Recognized.matched.inj hcongr
      exact .inr ⟨e, e', n, rfl, rfl, he⟩

/-- How the reading of a list ends depends on kinds only. -/
theorem elements_alike {ts us : TokenList} (h : ts.kinds = us.kinds) {done done' : List Expr}
    {position position' : Nat} {log log' : Log} :
    ListEnd.Alike (elements done position log ts).value
      (elements done' position' log' us).value := by
  obtain ⟨hts, hus⟩ | ⟨e, e', n, hts, hus, -⟩ := primary_congr h
  · rw [elements_noElement hts, elements_noElement hus]
    exact .noElement h
  -- after the element the same kind follows in both lists, and only a comma goes on
  have hdrop : TokenList.kinds (ts.drop n) = TokenList.kinds (us.drop n) := by
    rw [TokenList.kinds_drop, TokenList.kinds_drop, h]
  have hstuck : (∀ t ∈ (ts.drop n).head?, t.kind ≠ .punct .comma ∧ t.kind ≠ .punct .rbracket) →
      (∀ t ∈ (us.drop n).head?, t.kind ≠ .punct .comma ∧ t.kind ≠ .punct .rbracket) →
      ListEnd.Alike (elements done position log ts).value
        (elements done' position' log' us).value := by
    intro hnext hnext'
    rw [elements_noSeparator hts hnext, elements_noSeparator hus hnext']
    exact .noSeparator hdrop
  obtain ⟨hnil, hnil'⟩ | ⟨k, s, s', rest, rest', hrest, hrest', hkinds⟩ :=
    TokenList.cases_of_kinds_eq hdrop
  · apply hstuck <;> simp [hnil, hnil']
  by_cases hcomma : k = .punct .comma
  · subst hcomma
    rw [elements_comma hts hrest, elements_comma hus hrest']
    exact elements_alike hkinds
  by_cases hclose : k = .punct .rbracket
  · subst hclose
    rw [elements_rbracket hts hrest, elements_rbracket hus hrest']
    exact .closed
  · apply hstuck <;> simp [hrest, hrest', hcomma, hclose]
termination_by ts.length
decreasing_by
  have hlen := congrArg List.length hrest
  simp only [List.length_drop, List.length_cons] at hlen
  omega

/-- Lists that ended in the same way have faults of one kind. -/
lemma ListEnd.Alike.kind_error_fault {x y : ListEnd} (h : ListEnd.Alike x y) (s s' : Span) :
    (x.fault.error s).kind = (y.fault.error s').kind := by
  cases h with
  | closed => rfl
  | noElement h =>
    obtain ⟨rfl, rfl⟩ | ⟨k, s, s', rest, rest', rfl, rfl, -⟩ := TokenList.cases_of_kinds_eq h
    · rfl
    · rfl
  | noSeparator h =>
    obtain ⟨rfl, rfl⟩ | ⟨k, s, s', rest, rest', rfl, rfl, -⟩ := TokenList.cases_of_kinds_eq h
    · rfl
    · rfl

/-- A list of the same kinds fails for the same reason. -/
lemma kind_explainList_congr {ts us : TokenList} (h : ts.kinds = us.kinds) (s s' : Span) :
    (explainList s ts).value.kind = (explainList s' us).value.kind := by
  dsimp only [explainList]
  rw [listFault_eq [] 1 .none ts, listFault_eq [] 1 .none us]
  exact (elements_alike h).kind_error_fault s s'

/-- Whether a bracket closes depends on the kinds of the tokens only. -/
lemma any_rbracket_eq (ts : TokenList) :
    (ts.any fun t => t.kind = .punct .rbracket) = ts.kinds.any fun k => k = .punct .rbracket := by
  rw [TokenList.kinds, List.any_map]
  rfl

/-- A `super` with the same kinds behind it fails for the same reason. -/
lemma kind_explainSuperclass_congr {ts us : TokenList} (h : ts.kinds = us.kinds) (n n' : UInt32) :
    (explainSuperclass n ts).value.kind = (explainSuperclass n' us).value.kind := by
  obtain ⟨rfl, rfl⟩ | ⟨k, s, s', ts, us, rfl, rfl, hrest⟩ := TokenList.cases_of_kinds_eq h
  · rfl
  by_cases hopen : k = .punct .lbracket
  · subst hopen
    simp only [explainSuperclass, any_rbracket_eq, hrest, if_true]
    split
    · exact kind_explainList_congr hrest _ _
    · rfl
  · simp only [explainSuperclass, hopen, if_false]
    by_cases hdot : k = .punct .dot
    · subst hdot
      obtain ⟨rfl, rfl⟩ | ⟨k, s, s', ts, us, rfl, rfl, -⟩ := TokenList.cases_of_kinds_eq hrest
      · rfl
      · rfl
    · cases k with
      | punct p =>
        cases p with
        | dot => exact absurd rfl hdot
        | _ => rfl
      | _ => rfl

/-- The kind of the error that explains a failure depends on kinds only. -/
theorem kind_explain_congr {ts us : TokenList} (h : ts.kinds = us.kinds) (s s' : Span) :
    (explain ts s).value.kind = (explain us s').value.kind := by
  obtain ⟨rfl, rfl⟩ | ⟨k, s, s', ts, us, rfl, rfl, hrest⟩ := TokenList.cases_of_kinds_eq h
  · rfl
  by_cases hsuper : k = .keyword .super
  · subst hsuper
    exact kind_explainSuperclass_congr hrest _ _
  · cases k with
    | keyword w =>
      cases w with
      | super => exact absurd rfl hsuper
      | _ => rfl
    | _ => rfl

end Grammar

namespace Cursor

/-- Both outcomes are expressions, equal up to spans, or both are errors of one kind. -/
def SameOutcome : Except ParseError Expr → Except ParseError Expr → Prop
  | .ok e, .ok e' => e.eraseSpans = e'.eraseSpans
  | .error err, .error err' => err.kind = err'.kind
  | _, _ => False

/-- The cursors stand at the same position in tokens of the same kinds. -/
structure Alike (c d : Cursor) : Prop where
  position : c.position = d.position
  kinds : c.tokens.kinds = d.tokens.kinds

namespace Alike

variable {c d : Cursor}

/-- Cursors that are alike have the same kinds before them. -/
lemma remaining (h : Alike c d) : c.remaining.kinds = d.remaining.kinds := by
  rw [Cursor.remaining, Cursor.remaining, TokenList.kinds_drop, TokenList.kinds_drop, h.position,
    h.kinds]

/-- Cursors that are alike move on by the same count. -/
lemma consumed (h : Alike c d) : c.consumed = d.consumed := by
  rw [Cursor.consumed, Cursor.consumed, Grammar.value_expression, Grammar.value_expression]
  rcases Grammar.primary_congr h.remaining with ⟨hc, hd⟩ | ⟨e, e', n, hc, hd, -⟩
  · rw [hc, hd]
  · rw [hc, hd]
    rfl

/-- Cursors that are alike have the same outcome. -/
lemma outcome (h : Alike c d) : SameOutcome c.outcome d.outcome := by
  rw [Cursor.outcome, Cursor.outcome, value_parseExpression, value_parseExpression,
    Grammar.value_expression, Grammar.value_expression]
  rcases Grammar.primary_congr h.remaining with ⟨hc, hd⟩ | ⟨e, e', n, hc, hd, he⟩
  · rw [hc, hd]
    exact Grammar.kind_explain_congr h.remaining c.currentSpan d.currentSpan
  · rw [hc, hd]
    exact he

/-- Cursors that are alike stay alike. -/
lemma next (h : Alike c d) : Alike c.next d.next where
  position := by rw [position_next, position_next, h.position, h.consumed]
  kinds := by rw [tokens_next, tokens_next, h.kinds]

/-- Cursors that are alike stay alike over any number of calls. -/
lemma after (h : Alike c d) (k : Nat) : Alike (c.after k) (d.after k) := by
  induction k with
  | zero => exact h
  | succ k ih => exact ih.next

end Alike

end Cursor

/-- Other gaps between the tokens of a source change nothing. A source without errors is a spacing
of its tokens. Every other spacing of them, where no gap between two tokens is empty but those that
were before, is lexed as tokens of the same kinds, and the calls of a run on either source give, one
by one, expressions that are equal up to spans or errors of one kind, at equal positions. -/
theorem parse_respaced {source : List Char} {ks : List TokenKind}
    (hlex : (lex source).kinds = ks ++ [.eof]) (herror : .error ∉ ks) :
    (∃ s : Spacing ks, s.text = source) ∧
    ∀ s s' : Spacing ks, s.text = source → s.KeepsApart s' →
      (lex s'.text).kinds = (lex source).kinds ∧
      ∀ k, Cursor.SameOutcome ((Cursor.start (lex source)).after k).outcome
          ((Cursor.start (lex s'.text)).after k).outcome ∧
        ((Cursor.start (lex source)).after k).position =
          ((Cursor.start (lex s'.text)).after k).position := by
  have hkinds : tokenKinds source = ks := by
    rw [kinds_lex] at hlex
    exact List.append_cancel_right hlex
  refine ⟨Spacing.exists_text_eq hkinds herror, ?_⟩
  rintro s s' rfl hapart
  have hsame : (lex s'.text).kinds = (lex s.text).kinds := by
    rw [kinds_lex, kinds_lex, (Spacing.respaced herror hkinds hapart).1, hkinds]
  refine ⟨hsame, fun k => ?_⟩
  have halike : Cursor.Alike (.start (lex s.text)) (.start (lex s'.text)) := ⟨rfl, hsame.symm⟩
  exact ⟨(halike.after k).outcome, (halike.after k).position⟩

/-- A comment on a line of its own in `self.a` does not change what is parsed. -/
theorem parse_respaced_comment :
    (lex "self.a".toList).kinds = [.keyword .self, .punct .dot, .ident "a"] ++ [.eof] ∧
    (lex "self .// x\n a".toList).kinds = (lex "self.a".toList).kinds ∧
      Cursor.SameOutcome ((Cursor.start (lex "self.a".toList)).after 0).outcome
        ((Cursor.start (lex "self .// x\n a".toList)).after 0).outcome := by
  have hlex : (lex "self.a".toList).kinds =
      [.keyword .self, .punct .dot, .ident "a"] ++ [.eof] := by
    cbv
  let s : Spacing [.keyword .self, .punct .dot, .ident "a"] :=
    .before [] .nil (.before [] .nil (.before [] .nil (.last [] .nil)))
  have hbody : '\n' ∉ [' ', 'x'] := by decide
  have hcomment : IsGap False "// x\n ".toList :=
    .lineComment hbody (.inl rfl) (.blank rfl (.blank rfl .nil))
  let s' : Spacing [.keyword .self, .punct .dot, .ident "a"] :=
    .before [] .nil (.before [' '] (.blank rfl .nil) (.before _ hcomment (.last [] .nil)))
  have h := (parse_respaced hlex (by decide)).2 s s' rfl ⟨fun _ => rfl, fun _ => rfl, trivial⟩
  exact ⟨hlex, h.1, (h.2 0).1⟩

end ExprFront
