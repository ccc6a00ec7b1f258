import ExprFront.Proofs.Grammar.GivingUp
import ExprFront.Proofs.Lexical.Layout
import ExprFront.Proofs.Parser.Run

/-!
# Speculation

When the continuation of a `self` fails, what was read behind it is thrown away and the `self`
stands for itself. Still no token is read twice. Only behind an opening bracket is there anything to
throw away (`heads_continuation_other`), that bracket is left over behind the bare `self`, and no
list goes on with it, so all lists around fail there (`heads_primary`). A failed parse reads the
elements of one list once more to explain the failure (`primaries_tried_in_order`).
-/

namespace ExprFront

/-- The token at which an event tries a primary expression. -/
def Event.head? : Event → Option Token
  | primaryTried head => some head
  | _ => none

/-- The start of the span that an event notes for a primary expression that is tried. -/
def Event.spanStart? (e : Event) : Option Nat :=
  if e.message = "recognize_primary" then
    match e.fields.lookup "span_start" with
    | some (.number n) => some n
    | _ => none
  else none

namespace Log

/-- The tokens at which primary expressions are tried, in the order of the events. -/
def heads (l : Log) : TokenList := l.events.filterMap Event.head?

/-- The starts that are noted for the primary expressions that are tried, in the order of the
events. -/
def spanStarts (l : Log) : List Nat := l.events.filterMap Event.spanStart?

/-- The empty log tries nothing. -/
@[simp]
lemma heads_none : (none : Log).heads = [] := rfl

/-- An event tries at most one token. -/
@[simp]
lemma heads_one (event : Event) : (one event).heads = event.head?.toList := by
  cases event <;> rfl

/-- The second log tries its tokens after those of the first. -/
@[simp]
lemma heads_append (l m : Log) : (l ++ m).heads = l.heads ++ m.heads := by
  rw [heads, events_append, List.filterMap_append]
  rfl

/-- The starts that a log notes are those of the tokens that it tries. -/
lemma spanStarts_eq (l : Log) : l.spanStarts = l.heads.map fun t => t.span.start.toNat := by
  rw [heads, List.map_filterMap, spanStarts]
  refine congrArg (List.filterMap · l.events) (funext fun e => ?_)
  cases e with
  | primaryTried head => rfl
  | _ => rfl

/-- Where the tokens that are tried are tokens of a list with increasing starts, in their order, the
starts that are noted increase, and no token is tried twice. -/
lemma spanStarts_pairwise {l : Log} {ts : TokenList} (hsub : l.heads.Sublist ts)
    (h : ts.Pairwise fun t u => t.span.start < u.span.start) :
    l.spanStarts.Pairwise (· < ·) ∧ ∀ t, l.heads.count t ≤ 1 := by
  have hheads := h.sublist hsub
  constructor
  · rw [spanStarts_eq, List.pairwise_map]
    exact hheads.imp UInt32.lt_iff_toNat_lt.1
  · intro t
    apply List.nodup_iff_count_le_one.1
    refine hheads.imp fun hlt heq => ?_
    rw [heq] at hlt
    exact UInt32.lt_irrefl _ hlt

end Log

namespace Grammar

/-- The value of a token tries nothing. -/
@[simp]
lemma heads_literalValue (kind : TokenKind) : (literalValue kind).log.heads = [] := by
  unfold literalValue
  split
  · rfl
  · rfl
  · rfl
  · split <;> rfl
  · split <;> rfl
  · rfl
  · rfl

/-- A literal tries nothing. -/
lemma heads_literal (ts : TokenList) : (literal ts).log.heads = [] := by
  cases ts with
  | nil => rfl
  | cons head rest =>
    rw [literal, Traced.log_bind, Log.heads_append, heads_literalValue]
    cases (literalValue head.kind).value <;> rfl

/-- A receiver is tried before what continues it. -/
lemma heads_primary_receiver (r : Receiver) (s : Span) (rest : TokenList) :
    (primary (⟨.keyword r.keyword, s⟩ :: rest)).log.heads =
      ⟨.keyword r.keyword, s⟩ :: (continuation rest).log.heads := by
  cases r with
  | super =>
    simp only [primary, Receiver.keyword, superReference]
    split <;> simp [Event.head?]
  | self =>
    simp only [primary, Receiver.keyword, selfReference]
    split <;> simp [Event.head?]

/-- Only behind a receiver anything is tried. -/
lemma heads_primary_other {head : Token} (rest : TokenList)
    (hr : ∀ r : Receiver, head.kind ≠ .keyword r.keyword) :
    (primary (head :: rest)).log.heads = [head] := by
  rw [primary]
  split
  next name h =>
    obtain ⟨kind, s⟩ := head
    obtain rfl : kind = .ident name := h
    rfl
  next h => exact absurd h (hr .super)
  next h => exact absurd h (hr .self)
  next => simp [heads_literal, Event.head?]

/-- A subscript tries its elements. -/
lemma heads_continuation_subscript (o : Span) (rest : TokenList) :
    (continuation (⟨.punct .lbracket, o⟩ :: rest)).log.heads =
      (elements [] 1 .none rest).log.heads := by
  simp only [continuation, bracketedList]
  split <;> simp [Event.head?]

/-- Nothing is tried behind a receiver that no opening bracket follows. -/
lemma heads_continuation_other {ts : TokenList}
    (h : ∀ t ∈ ts.head?, t.kind ≠ .punct .lbracket) : (continuation ts).log.heads = [] := by
  unfold continuation
  split
  · split <;> rfl
  · exact absurd rfl (h _ rfl)
  · rfl

mutual

/-- Primary expressions are tried at one token after another. Behind a match that leaves no opening
bracket over, all of these tokens belong to the match. -/
theorem heads_primary (ts : TokenList) :
    (primary ts).log.heads.Sublist ts ∧
      ∀ e n, (primary ts).value = .matched e n →
        (∀ t ∈ (ts.drop n).head?, t.kind ≠ .punct .lbracket) →
        (primary ts).log.heads.Sublist (ts.take n) := by
  cases ts with
  | nil =>
    rw [primary]
    exact ⟨List.Sublist.refl [], nofun⟩
  | cons head rest =>
    obtain ⟨kind, s⟩ := head
    by_cases hr : ∃ r : Receiver, kind = .keyword r.keyword
    · obtain ⟨r, rfl⟩ := hr
      obtain ⟨hall, hmatched⟩ := heads_continuation rest
      rw [heads_primary_receiver, value_primary_receiver]
      refine ⟨hall.cons_cons _, fun e n h hnext => ?_⟩
      split at h
      next hc =>
        cases h
        exact (hmatched _ _ hc).cons_cons _
      next => cases h
      next =>
        -- a bare `self` takes one token, and without a bracket nothing behind it was tried
        cases h
        have hnone : (continuation rest).log.heads = [] := heads_continuation_other hnext
        rw [hnone]
        exact List.Sublist.refl _
    · have hheads : (primary (⟨kind, s⟩ :: rest)).log.heads = [⟨kind, s⟩] :=
        heads_primary_other rest fun r hk => hr ⟨r, hk⟩
      rw [hheads]
      refine ⟨List.singleton_sublist.2 List.mem_cons_self, fun e n h _ => ?_⟩
      obtain ⟨u, v, huv, rfl, hspell⟩ := primary_spells h
      rw [huv, List.take_left]
      cases u with
      | nil => exact absurd rfl hspell.ne_nil
      | cons t u =>
        cases huv
        exact List.singleton_sublist.2 List.mem_cons_self
termination_by 3 * ts.length + 1

/-- Behind a receiver primary expressions are tried at one token after another, which belong to its
continuation if there is one. -/
theorem heads_continuation (ts : TokenList) :
    (continuation ts).log.heads.Sublist ts ∧
      ∀ found n, (continuation ts).value = .matched found n →
        (continuation ts).log.heads.Sublist (ts.take n) := by
  by_cases hopen : ∀ t ∈ ts.head?, t.kind ≠ .punct .lbracket
  · rw [heads_continuation_other hopen]
    exact ⟨List.nil_sublist _, fun _ _ _ => List.nil_sublist _⟩
  cases ts with
  | nil => exact absurd nofun hopen
  | cons t rest =>
    obtain ⟨kind, o⟩ := t
    obtain rfl : kind = .punct .lbracket := by simpa using hopen
    obtain ⟨hs, hheads, hall, hclosed⟩ := heads_elements [] 1 .none rest
    rw [heads_continuation_subscript, hheads, value_continuation_subscript]
    refine ⟨hall.cons _, fun found n h => ?_⟩
    split at h
    next es b p hend =>
      cases h
      obtain ⟨u, v, rfl, rfl, hu⟩ := hclosed es b p hend
      rw [List.take_succ_cons, Nat.add_comm, List.take_length_add_append]
      exact (hu.trans (List.sublist_append_left u _)).cons _
    next => cases h
termination_by 3 * ts.length

/-- In the rest of a list primary expressions are tried at one token after another, which stand in
front of its end if the list is closed. -/
theorem heads_elements (done : List Expr) (position : Nat) (log : Log) (ts : TokenList) :
    ∃ hs, (elements done position log ts).log.heads = log.heads ++ hs ∧ hs.Sublist ts ∧
      ∀ es b p, (elements done position log ts).value = .closed es b p →
        ∃ u rest, ts = u ++ ⟨.punct .rbracket, b⟩ :: rest ∧ p = position + u.length ∧
          hs.Sublist u := by
  obtain ⟨hall, hmatched⟩ := heads_primary ts
  obtain ⟨h, hstep⟩ | ⟨e, u, rest, hts, h, -, hnext⟩ := elements_step done position log ts
  · rw [hstep]
    exact ⟨_, Log.heads_append _ _, hall, nofun⟩
  have hu := hmatched e _ h
  rw [hts, List.drop_left, List.take_left, ← hts] at hu
  obtain ⟨c, v, hrest, hstep⟩ | ⟨c, v, hrest, hstep⟩ | ⟨-, hstep⟩ := hnext
  · -- a comma is no opening bracket, so all that was tried for the element belongs to it
    have hu := hu (by simp [hrest])
    obtain ⟨hs, hheads, hv, hclosed⟩ :=
      heads_elements (e :: done) (position + u.length + 1) (log ++ (primary ts).log) v
    rw [hstep, hheads, Log.heads_append, List.append_assoc]
    refine ⟨_, rfl, ?_, fun es b p hend => ?_⟩
    · have hsub := hu.append (hv.cons ⟨.punct .comma, c⟩)
      rwa [← hrest, ← hts] at hsub
    · obtain ⟨w, rest', hw, rfl, hsub⟩ := hclosed es b p hend
      refine ⟨u ++ ⟨.punct .comma, c⟩ :: w, rest', ?_, ?_, hu.append (hsub.cons _)⟩
      · simp [hts, hrest, hw]
      · simp only [List.length_append, List.length_cons]
        omega
  · rw [hstep]
    refine ⟨_, Log.heads_append _ _, hall, fun es b p hend => ?_⟩
    cases hend
    exact ⟨u, v, by rw [hts, hrest], rfl, hu (by simp [hrest])⟩
  · rw [hstep]
    exact ⟨_, Log.heads_append _ _, hall, nofun⟩
termination_by 3 * ts.length + 2
decreasing_by
  · omega
  · simp only [hts, hrest, List.length_append, List.length_cons]
    omega

end

/-- The tracing of an expression tries nothing more. -/
lemma heads_expression (ts : TokenList) :
    (expression ts).log.heads = (primary ts).log.heads := by
  simp [expression, Traced.note, Event.head?]

/-- An explanation reads at most one list once more, and no token of it twice. -/
lemma heads_explain (ts : TokenList) (fallback : Span) :
    (explain ts fallback).log.heads.Sublist ts := by
  cases ts with
  | nil => exact List.Sublist.refl []
  | cons head rest =>
    simp only [explain]
    split
    next => exact List.nil_sublist _
    next =>
      refine List.Sublist.cons head ?_
      unfold explainSuperclass
      split
      next => exact List.nil_sublist _
      next bracket tail =>
        split
        next =>
          split
          next =>
            obtain ⟨hs, hheads, hsub, -⟩ := heads_elements [] 1 .none tail
            rw [explainList, listFault_eq [] 1, hheads]
            exact hsub.cons bracket
          next => exact List.nil_sublist _
        next => split <;> exact List.nil_sublist _
    next => exact List.nil_sublist _

end Grammar

open Grammar

/-- A call that fails tries tokens to find an expression, and again to explain the failure. -/
lemma Cursor.heads_parseExpression {c : Cursor} {err : ParseError} (h : c.outcome = .error err) :
    c.parseExpression.log.heads =
      (expression c.remaining).log.heads ++ (explain c.remaining c.currentSpan).log.heads := by
  rw [parseExpression, Traced.log_bind, Log.heads_append, noMatch_of_outcome h]
  simp [Traced.note, Event.head?]

/-- Speculation reads no token twice. In a token list with increasing starts, the starts that the
recognizer notes for the primary expressions which it tries increase, so that it tries none twice at
one token. A call of the parser that fails goes over the tokens at most once more, again with
increasing starts, to explain the failure, and so tries none more than twice at one token. -/
theorem primaries_tried_in_order {ts : TokenList}
    (h : ts.Pairwise fun t u => t.span.start < u.span.start) :
    ((expression ts).log.spanStarts.Pairwise (· < ·) ∧ ∀ t, (expression ts).log.heads.count t ≤ 1) ∧
    ∀ p err, (Cursor.mk ts p).outcome = .error err →
      ∃ again, (Cursor.mk ts p).parseExpression.log.spanStarts =
          (expression (ts.drop p)).log.spanStarts ++ again ∧ again.Pairwise (· < ·) ∧
        ∀ t, (Cursor.mk ts p).parseExpression.log.heads.count t ≤ 2 := by
  have honce : ∀ us : TokenList, us.Sublist ts → (expression us).log.spanStarts.Pairwise (· < ·) ∧
      ∀ t, (expression us).log.heads.count t ≤ 1 := by
    intro us hus
    apply Log.spanStarts_pairwise _ (h.sublist hus)
    rw [heads_expression]
    exact (heads_primary us).1
  refine ⟨honce ts (List.Sublist.refl ts), fun p err herr => ?_⟩
  have hheads : (Cursor.mk ts p).parseExpression.log.heads = (expression (ts.drop p)).log.heads ++
      (explain (ts.drop p) (Cursor.mk ts p).currentSpan).log.heads :=
    Cursor.heads_parseExpression herr
  have hdrop : (ts.drop p).Sublist ts := List.drop_sublist p ts
  obtain ⟨hagain, htwice⟩ := Log.spanStarts_pairwise (heads_explain _ _) (h.sublist hdrop)
  refine ⟨_, ?_, hagain, fun t => ?_⟩
  · rw [Log.spanStarts_eq, hheads, List.map_append, ← Log.spanStarts_eq, ← Log.spanStarts_eq]
  · rw [hheads, List.count_append]
    exact Nat.add_le_add ((honce _ hdrop).2 t) (htwice t)

/-- Two nested `self[` are given up, and with them the lists around. No token is read twice before
the failure is explained, and all tokens of the list are read once more then. -/
theorem primaries_tried_in_order_nested :
    let ts := lex "super[self[self[1 2]]]".toList
    let log := (Cursor.start ts).parseExpression.log
    (ts.Pairwise fun t u => t.span.start < u.span.start) ∧
      (∃ err, (Cursor.start ts).outcome = .error err) ∧
      (expression ts).log.spanStarts = [0, 6, 11, 16] ∧
      log.spanStarts = [0, 6, 11, 16] ++ [6, 11, 16] ∧
      log.heads.count ⟨.int "1", ⟨16, 17⟩⟩ ≤ 2 := by
  intro ts log
  have hts : ts.Pairwise fun t u => t.span.start < u.span.start :=
    (laid_lex (by decide)).pairwise_start
  have herr : (Cursor.start (lex "super[self[self[1 2]]]".toList)).outcome = .error
      ⟨.unexpectedToken "subscript argument" "`,` or `]`" "`[`", ⟨10, 11⟩⟩ := by cbv
  have hstarts : (expression (lex "super[self[self[1 2]]]".toList)).log.spanStarts =
      [0, 6, 11, 16] := by cbv
  have hlog : (Cursor.start (lex "super[self[self[1 2]]]".toList)).parseExpression.log.spanStarts =
      [0, 6, 11, 16, 6, 11, 16] := by cbv
  obtain ⟨again, -, -, htwice⟩ := (primaries_tried_in_order hts).2 0 _ herr
  exact ⟨hts, ⟨_, herr⟩, hstarts, hlog, htwice _⟩

end ExprFront
