import ExprFront.Proofs.Grammar.GivingUp
import ExprFront.Proofs.Parser.Failure
import ExprFront.Proofs.Parser.Run

/-!
# Tokens without an end of file

No recognizer reads an end of file, so one more behind the tokens changes nothing: the same
expression is found (`primary_append_eof`), or recognition gives up in the same place
(`GivesUp.append_eof`).

A call of the parser on tokens without an end of file and one on the same tokens with an end of file
behind them find the same expression or fail both. They fail with the same error except where the
tokens are cut short behind `super.`, or in a list after a bracket that does not close it
(`outcome_withEof_iff`).
-/

namespace ExprFront

/-- The end of a list with one more token behind the ones that were not read. -/
def ListEnd.append (z : Token) : ListEnd → ListEnd
  | closed es bracket position => .closed es bracket position
  | noElement count rest => .noElement count (rest ++ [z])
  | noSeparator position rest => .noSeparator position (rest ++ [z])

namespace Grammar

variable {z : Token}

/-- What holds of the kind that comes next, if one does, and of the end of file holds of the next
kind if an end of file is behind the tokens. -/
lemma forall_head?_append_eof {P : TokenKind → Prop} {ts : TokenList} (hz : z.kind = .eof)
    (h : ∀ t ∈ ts.head?, P t.kind) (heof : P .eof) : ∀ t ∈ (ts ++ [z]).head?, P t.kind := by
  cases ts with
  | nil => simpa [hz] using heof
  | cons t ts => exact h

/-- No expression starts with the end of file. -/
lemma not_startsExpression_eof : ¬ StartsExpression .eof := by
  rintro (⟨name, h⟩ | ⟨r, h⟩ | ⟨l, h⟩)
  · cases h
  · cases h
  · cases h

mutual

/-- With an end of file behind the tokens the same expression is found. -/
theorem primary_append_eof (hz : z.kind = .eof) (ts : TokenList) :
    (primary (ts ++ [z])).value = (primary ts).value := by
  cases ts with
  | nil =>
    rw [value_primary_nil]
    apply primary_noMatch_of_not_starts
    simpa [hz] using not_startsExpression_eof
  | cons t ts =>
    obtain ⟨kind, s⟩ := t
    rw [List.cons_append]
    by_cases hname : ∃ name, kind = .ident name
    · obtain ⟨name, rfl⟩ := hname
      rw [value_primary_identifier, value_primary_identifier]
    by_cases hreceiver : ∃ r : Receiver, kind = .keyword r.keyword
    · obtain ⟨r, rfl⟩ := hreceiver
      rw [value_primary_receiver, value_primary_receiver, continuation_append_eof hz ts]
    · have hname' : ∀ name, kind ≠ .ident name := fun name hk => hname ⟨name, hk⟩
      have hreceiver' : ∀ r : Receiver, kind ≠ .keyword r.keyword := fun r hk => hreceiver ⟨r, hk⟩
      rw [value_primary_literal _ hname' hreceiver', value_primary_literal _ hname' hreceiver']
termination_by 3 * ts.length + 1

/-- With an end of file behind the tokens a receiver is continued in the same way. -/
theorem continuation_append_eof (hz : z.kind = .eof) (ts : TokenList) :
    (continuation (ts ++ [z])).value = (continuation ts).value := by
  cases ts with
  | nil => rw [List.nil_append, value_continuation_eof hz, value_continuation_other (by simp)]
  | cons t ts =>
    obtain ⟨kind, s⟩ := t
    rw [List.cons_append]
    by_cases hdot : kind = .punct .dot
    · subst hdot
      cases ts with
      | nil =>
        rw [List.nil_append, value_continuation_dot (by simp [hz]),
          value_continuation_dot (by simp)]
      | cons member ts =>
        rw [List.cons_append, value_continuation_member, value_continuation_member s member ts]
    by_cases hopen : kind = .punct .lbracket
    · subst hopen
      rw [value_continuation_subscript, value_continuation_subscript,
        elements_append_eof hz [] 1 .none .none ts]
      cases (elements [] 1 .none ts).value <;> rfl
    · rw [value_continuation_other (by simp [hdot, hopen]),
        value_continuation_other (by simp [hdot, hopen])]
termination_by 3 * ts.length

/-- With an end of file behind the tokens the reading of a list ends in the same place. -/
theorem elements_append_eof (hz : z.kind = .eof) (done : List Expr) (position : Nat)
    (log log' : Log) (ts : TokenList) :
    (elements done position log (ts ++ [z])).value =
      (elements done position log' ts).value.append z := by
  have hsame := primary_append_eof hz ts
  obtain ⟨h, hstep⟩ | ⟨e, u, rest, hts, h, -, hnext⟩ := elements_step done position log' ts
  · rw [hstep, elements_noElement (hsame.trans h)]
    rfl
  have h' := hsame.trans h
  rw [hts, List.append_assoc] at h'
  -- what follows the element is the same, but for the end of file where nothing did
  obtain ⟨c, v, hrest, hstep⟩ | ⟨c, v, hrest, hstep⟩ | ⟨hnext, hstep⟩ := hnext
  · rw [hrest] at h' hts
    rw [hstep, hts, List.append_assoc, elements_comma h' List.drop_left]
    exact elements_append_eof hz (e :: done) _ _ _ v
  · rw [hrest] at h' hts
    rw [hstep, hts, List.append_assoc, elements_rbracket h' List.drop_left]
    rfl
  · have hnext' := forall_head?_append_eof
      (P := fun k => k ≠ .punct .comma ∧ k ≠ .punct .rbracket) hz hnext (by simp)
    rw [hstep, hts, List.append_assoc, elements_noSeparator h' (by rwa [List.drop_left]),
      List.drop_left]
    rfl
termination_by 3 * ts.length + 2

end

/-- A match is found in the same way with an end of file behind the tokens. -/
lemma primary_matched_append_eof {u rest : TokenList} {e : Expr} {n : Nat} (hz : z.kind = .eof)
    (h : (primary (u ++ rest)).value = .matched e n) :
    (primary (u ++ (rest ++ [z]))).value = .matched e n := by
  rw [← List.append_assoc, primary_append_eof hz, h]

/-- The reading of a list gives up in the same place. -/
lemma ListGivesUp.append_eof {u rest : TokenList} {r : Required} (h : ListGivesUp u rest r)
    (hz : z.kind = .eof) : ListGivesUp u (rest ++ [z]) r := by
  induction h with
  | element h => exact .element ((primary_append_eof hz _).trans h)
  | separator h hnext =>
    refine .separator (primary_matched_append_eof hz h) (forall_head?_append_eof
      (P := fun k => k ≠ .punct .comma ∧ k ≠ .punct .rbracket) hz hnext (by simp))
  | later h hrest ih =>
    have h' := primary_matched_append_eof hz h
    rw [List.cons_append, List.append_assoc] at h'
    exact .later h' ih

/-- With an end of file behind the tokens recognition gives up in the same place. -/
lemma GivesUp.append_eof {u rest : TokenList} {r : Required} (h : GivesUp u rest r)
    (hz : z.kind = .eof) : GivesUp u (rest ++ [z]) r := by
  cases h with
  | head h =>
    exact .head (forall_head?_append_eof
      (P := fun k => ¬ StartsExpression k) hz h not_startsExpression_eof)
  | continuation h =>
    exact .continuation (forall_head?_append_eof
      (P := fun k => k ≠ .punct .dot ∧ k ≠ .punct .lbracket) hz h (by simp))
  | member h =>
    exact .member (forall_head?_append_eof
      (P := fun k => k ≠ .keyword .init ∧ ∀ name, k ≠ .ident name) hz h (by simp))
  | list h => exact .list (h.append_eof hz)

/-- The tokens end in a place where a failure is explained by different errors without and with an
end of file behind them. -/
inductive CutShort (ts : TokenList) : ParseError → ParseError → Prop where
  /-- Behind `super.` the dot is reported, and not that a name has to follow it. -/
  | member {s d} (hts : ts = [⟨.keyword .super, s⟩, ⟨.punct .dot, d⟩]) :
    CutShort ts ⟨.unexpectedToken "`super`" "`.` or `[`" "`.`", d⟩
      ⟨.unexpectedToken "`super.`" "identifier or `init`" "end of file", .point ts.stop⟩
  /-- Where an element of a list is missing the place of the error is lost. -/
  | element {s o v} (hts : ts = ⟨.keyword .super, s⟩ :: ⟨.punct .lbracket, o⟩ :: v)
    (h : ListGivesUp v [] .expression) (hbracket : ∃ t ∈ v, t.kind = .punct .rbracket)
    (hstop : ts.stop ≠ 0) :
    CutShort ts (.noExpression .eof .dummy) (.noExpression .eof (.point ts.stop))
  /-- Behind an element of a list the bracket that opened the list is reported. -/
  | separator {s o v} (hts : ts = ⟨.keyword .super, s⟩ :: ⟨.punct .lbracket, o⟩ :: v)
    (h : ListGivesUp v [] .separator) (hbracket : ∃ t ∈ v, t.kind = .punct .rbracket) :
    CutShort ts ⟨.unclosedDelimiter '[', o⟩
      ⟨.unexpectedToken "subscript argument" "`,` or `]`" "end of file", .point ts.stop⟩

variable {ts : TokenList} {e e' : ParseError} {fallback : Span}

/-- The fault of a list that the tokens are too few for. -/
def Required.faultAtEnd : Required → ListFault
  | separator => .notClosed
  | _ => .noElementAtEnd

/-- A list that is given up at the end is at fault there. -/
lemma ListGivesUp.value_listFault_end {v : TokenList} {r : Required} (h : ListGivesUp v [] r) :
    (listFault .none v).value = r.faultAtEnd := by
  have hfault := h.value_listFault .none
  rw [List.append_nil] at hfault
  obtain ⟨rfl, n, hfault⟩ | ⟨rfl, p, hfault⟩ := hfault
  · exact hfault
  · exact hfault

/-- With an end of file behind it the list is reported at this token. -/
lemma value_explain_list_append {s o : Span} {v : TokenList} {r : Required} {z : Token}
    (h : ListGivesUp v [] r) (hbracket : ∃ t ∈ v, t.kind = .punct .rbracket) (hz : z.kind = .eof) :
    (explain (⟨.keyword .super, s⟩ :: ⟨.punct .lbracket, o⟩ :: (v ++ [z])) fallback).value =
      r.error (v.length + 2) z := by
  obtain ⟨t, ht, hk⟩ := hbracket
  exact (h.append_eof hz).value_explain ⟨t, List.mem_append_left _ ht, hk⟩

namespace CutShort

/-- The two errors are different. -/
lemma ne (h : CutShort ts e e') : e ≠ e' := by
  cases h with
  | member => simp
  | element _ _ _ hstop =>
    intro heq
    exact hstop (congrArg (fun e => e.span.stop) heq).symm
  | separator => exact nofun

/-- Recognition gives up at the end of tokens that are cut short. -/
lemma givesUp (h : CutShort ts e e') : ∃ r, GivesUp ts [] r := by
  cases h with
  | member hts =>
    subst hts
    exact ⟨_, .member nofun⟩
  | element hts h | separator hts h =>
    subst hts
    exact ⟨_, .list h⟩

/-- Without an end of file the first error is reported. -/
lemma value_explain (h : CutShort ts e e') : (explain ts fallback).value = e := by
  cases h with
  | member hts =>
    subst hts
    rfl
  | element hts h hbracket | separator hts h hbracket =>
    subst hts
    rw [value_explain_list hbracket, h.value_listFault_end]
    rfl

/-- With an end of file behind the tokens the error is about that. -/
lemma value_explain_append (h : CutShort ts e e') :
    (explain (ts ++ [.eofAt ts.stop]) fallback).value = e' := by
  cases h with
  | member hts =>
    subst hts
    rfl
  | element hts h hbracket | separator hts h hbracket =>
    subst hts
    exact value_explain_list_append h hbracket rfl

end CutShort

/-- An end of file closes no list. -/
lemma isUnclosed_append_eof_iff {z : Token} {b : Span} (hz : z.kind = .eof) :
    IsUnclosed (ts ++ [z]) b ↔ IsUnclosed ts b := by
  constructor
  · rintro ⟨s, rest, hts, hrest⟩
    obtain _ | ⟨t, _ | ⟨t', v⟩⟩ := ts
    · cases hts
    · cases hts
      cases hz
    · cases hts
      exact ⟨s, v, rfl, fun t ht => hrest t (List.mem_append_left _ ht)⟩
  · rintro ⟨s, rest, rfl, hrest⟩
    refine ⟨s, rest ++ [z], rfl, List.forall_mem_append.2 ⟨hrest, ?_⟩⟩
    simp [hz]

/-- Where the tokens end, the error is the same without and with an end of file behind them, or they
are cut short. -/
lemma GivesUp.value_explain_eq_or_cutShort {r : Required} (h : GivesUp ts [] r)
    (hclosed : ∀ b, ¬ IsUnclosed ts b) :
    (explain ts (Cursor.start ts).currentSpan).value =
        (explain (ts ++ [.eofAt ts.stop]) fallback).value ∨
      ∃ e e', CutShort ts e e' := by
  cases h with
  | head | continuation => exact .inl rfl
  | member => exact .inr ⟨_, _, .member rfl⟩
  | @list s o v _ _ h =>
    have hbracket : ∃ t ∈ v, t.kind = .punct .rbracket := by
      have hopen := hclosed o
      rw [isUnclosed_list_iff] at hopen
      simpa using hopen
    obtain ⟨rfl, -⟩ | ⟨rfl, -⟩ := h.value_elements [] 1 .none
    · by_cases hstop : TokenList.stop (⟨.keyword .super, s⟩ :: ⟨.punct .lbracket, o⟩ :: v) = 0
      · left
        rw [value_explain_list hbracket, h.value_listFault_end, hstop, List.cons_append,
          List.cons_append, value_explain_list_append h hbracket rfl]
        rfl
      · exact .inr ⟨_, _, .element rfl h hbracket hstop⟩
    · exact .inr ⟨_, _, .separator rfl h hbracket⟩

/-- A failure is explained by the same error without and with an end of file behind the tokens, or
they are cut short. -/
lemma value_explain_eq_or_cutShort (h : (primary ts).value = .noMatch) :
    (explain ts (Cursor.start ts).currentSpan).value =
        (explain (ts ++ [.eofAt ts.stop]) fallback).value ∨
      ∃ e e', CutShort ts e e' := by
  by_cases hclosed : ∀ b, ¬ IsUnclosed ts b
  · obtain ⟨u, rest, r, rfl, hgives⟩ := primary_eq_noMatch_iff.1 h
    cases rest with
    | nil =>
      rw [List.append_nil] at hclosed ⊢
      exact hgives.value_explain_eq_or_cutShort hclosed
    | cons t v =>
      -- the token that recognition stops at is none that was added
      have hclosed' :
          ∀ b, ¬ IsUnclosed (u ++ t :: v ++ [.eofAt (TokenList.stop (u ++ t :: v))]) b :=
        fun b hb => hclosed b ((isUnclosed_append_eof_iff rfl).1 hb)
      left
      rw [List.append_assoc, List.cons_append] at hclosed' ⊢
      rw [hgives.value_explain hclosed]
      exact ((hgives.append_eof rfl).value_explain hclosed').symm
  · obtain ⟨b, hb⟩ : ∃ b, IsUnclosed ts b := by simpa using hclosed
    rw [hb.value_explain, ((isUnclosed_append_eof_iff rfl).2 hb).value_explain]
    exact .inl rfl

end Grammar

namespace Cursor

open Grammar

variable {ts : TokenList} {e e' : ParseError}

/-- Tokens without an end of file get one behind them. -/
lemma withEof_eq (h : ∀ t ∈ ts, t.kind ≠ .eof) : ts.withEof = ts ++ [.eofAt ts.stop] := by
  have heof : ¬ ts.endsWithEof = true := by
    rw [TokenList.endsWithEof_iff]
    rintro ⟨us, t, rfl, ht⟩
    exact h t (by simp) ht
  rw [TokenList.withEof, if_neg heof]

/-- Where the tokens are cut short each of the two errors is reported. -/
lemma outcome_of_cutShort (heof : ∀ t ∈ ts, t.kind ≠ .eof) (h : CutShort ts e e') :
    (start ts).outcome = .error e ∧ (start ts.withEof).outcome = .error e' := by
  obtain ⟨r, hgives⟩ := h.givesUp
  have hfound : (primary ts).value = .noMatch :=
    primary_eq_noMatch_iff.2 ⟨ts, [], r, ts.append_nil.symm, hgives⟩
  rw [withEof_eq heof]
  constructor
  · rw [outcome_of_noMatch (c := start ts) hfound]
    exact congrArg Except.error h.value_explain
  · rw [outcome_of_noMatch (c := start (ts ++ [_])) ((primary_append_eof rfl ts).trans hfound)]
    exact congrArg Except.error h.value_explain_append

/-- The outcomes are the same, or the tokens are cut short. -/
lemma outcome_eq_or_cutShort (heof : ∀ t ∈ ts, t.kind ≠ .eof) :
    (start ts).outcome = (start ts.withEof).outcome ∨ ∃ e e', CutShort ts e e' := by
  rw [withEof_eq heof]
  have hsame := primary_append_eof (z := .eofAt ts.stop) rfl ts
  cases hfound : (primary ts).value with
  | matched e n =>
    rw [outcome_of_matched (c := start ts) hfound,
      outcome_of_matched (c := start (ts ++ [_])) (hsame.trans hfound)]
    exact .inl rfl
  | noMatch =>
    rw [outcome_of_noMatch (c := start ts) hfound,
      outcome_of_noMatch (c := start (ts ++ [_])) (hsame.trans hfound)]
    exact (value_explain_eq_or_cutShort hfound).imp_left (congrArg Except.error)

/-- A missing end of file. Without it and with it a call of the parser finds the same expression and
moves to the same place, or fails. The outcomes differ exactly if the tokens are cut short, and then
the errors are the two that this says. -/
theorem outcome_withEof_iff (h : ∀ t ∈ ts, t.kind ≠ .eof) :
    (start ts).next.position = (start ts.withEof).next.position ∧
      ((start ts).outcome = (start ts.withEof).outcome ↔ ∀ e e', ¬ CutShort ts e e') ∧
      ∀ e e', CutShort ts e e' →
        (start ts).outcome = .error e ∧ (start ts.withEof).outcome = .error e' := by
  refine ⟨?_, ⟨fun heq e e' hcut => ?_, fun hnone => ?_⟩,
    fun e e' hcut => outcome_of_cutShort h hcut⟩
  · have hsame := congrArg Recognized.advancedBy (primary_append_eof (z := .eofAt ts.stop) rfl ts)
    rw [withEof_eq h, position_next, position_next]
    exact congrArg (0 + ·) hsame.symm
  · obtain ⟨he, he'⟩ := outcome_of_cutShort h hcut
    rw [he, he'] at heq
    exact hcut.ne (Except.error.inj heq)
  · obtain heq | ⟨e, e', hcut⟩ := outcome_eq_or_cutShort h
    · exact heq
    · exact absurd hcut (hnone e e')

/-- A list that is cut after a comma, behind an argument that is a closed list itself. -/
theorem outcome_withEof_iff_subscript :
    let ts : TokenList :=
      [⟨.keyword .super, ⟨0, 5⟩⟩, ⟨.punct .lbracket, ⟨5, 6⟩⟩, ⟨.keyword .self, ⟨6, 10⟩⟩,
        ⟨.punct .lbracket, ⟨10, 11⟩⟩, ⟨.keyword .self, ⟨11, 15⟩⟩, ⟨.punct .rbracket, ⟨15, 16⟩⟩,
        ⟨.punct .comma, ⟨16, 17⟩⟩]
    (∀ t ∈ ts, t.kind ≠ .eof) ∧ (start ts).next.position = (start ts.withEof).next.position ∧
      (start ts).outcome ≠ (start ts.withEof).outcome ∧
      (start ts).outcome = .error (.noExpression .eof .dummy) ∧
      (start ts.withEof).outcome = .error (.noExpression .eof (.point 17)) := by
  intro ts
  have h : ∀ t ∈ ts, t.kind ≠ .eof := by decide
  have hargument : ListGivesUp (ts.drop 2) [] .expression :=
    .later (u := (ts.drop 2).take 4) (v := []) (e := .subscript .self [.selfRef ⟨11, 15⟩] ⟨6, 16⟩)
      (by cbv) (.element (by cbv))
  have hcut : CutShort ts (.noExpression .eof .dummy) (.noExpression .eof (.point 17)) :=
    .element rfl hargument ⟨⟨.punct .rbracket, ⟨15, 16⟩⟩, by decide, rfl⟩ (by decide)
  obtain ⟨hposition, hsame, herrors⟩ := outcome_withEof_iff h
  exact ⟨h, hposition, fun heq => hsame.1 heq _ _ hcut, herrors _ _ hcut⟩

/-- Behind `super.` the outcomes differ. -/
theorem outcome_withEof_ne :
    let ts : TokenList := [⟨.keyword .super, ⟨0, 5⟩⟩, ⟨.punct .dot, ⟨5, 6⟩⟩]
    (∀ t ∈ ts, t.kind ≠ .eof) ∧
      (start ts).outcome = .error ⟨.unexpectedToken "`super`" "`.` or `[`" "`.`", ⟨5, 6⟩⟩ ∧
      (start ts.withEof).outcome =
        .error ⟨.unexpectedToken "`super.`" "identifier or `init`" "end of file", .point 6⟩ := by
  intro ts
  refine ⟨by decide, ?_, ?_⟩
  · cbv
  · cbv

end Cursor

end ExprFront
