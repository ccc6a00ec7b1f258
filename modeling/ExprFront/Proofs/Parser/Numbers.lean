import ExprFront.Proofs.Grammar.GivingUp
import ExprFront.Proofs.Lexical.Boundary
import ExprFront.Proofs.Numeral.Literals
import ExprFront.Proofs.Parser.Run

/-!
# The values of numbers

The lexer and the grammar agree on numbers. An integer of a source is a literal with the number that
its text denotes as its value, if this fits in 64 bits with a sign; a floating point literal always
has a value, so no parse of a source finds one that is malformed (`literal_numbers`).

A number whose text has no value is noted by an event. The recognizers, and the explanation of a
failure, note such events for no other numbers than those of the tokens that they are given
(`refusesIn_expression`, `refusesIn_explain`).
-/

namespace ExprFront

/-- The event says that a number has no value. -/
def Event.IsRefusal : Event → Prop
  | integerOutOfRange _ | malformedFloat _ => True
  | _ => False

/-- Every number that is refused in the log is refused as a literal of one of the tokens. -/
def Log.RefusesIn (l : Log) (ts : TokenList) : Prop :=
  ∀ e ∈ l.events, e.IsRefusal → ∃ t ∈ ts, e ∈ (Grammar.literalValue t.kind).log.events

namespace Log

variable {l m : Log} {ts us : TokenList} {event : Event}

/-- The empty log refuses no number. -/
@[simp]
lemma refusesIn_none : (none : Log).RefusesIn ts := nofun

/-- An event that refuses no number refuses none in any tokens. -/
lemma refusesIn_one (h : ¬ event.IsRefusal) : (one event).RefusesIn ts := by
  intro e he hrefusal
  obtain rfl := List.mem_singleton.1 he
  exact absurd hrefusal h

/-- Two logs refuse what each of them does. -/
@[simp]
lemma refusesIn_append : (l ++ m).RefusesIn ts ↔ l.RefusesIn ts ∧ m.RefusesIn ts := by
  rw [RefusesIn, events_append]
  exact List.forall_mem_append

end Log

namespace Grammar

variable {ts us : TokenList}

/-- A literal refuses only the number of its token. -/
lemma refusesIn_literal (h : ts ⊆ us) : (literal ts).log.RefusesIn us := by
  cases ts with
  | nil => exact Log.refusesIn_none
  | cons head rest =>
    rw [literal, Traced.log_bind, Log.refusesIn_append]
    constructor
    · intro e he _
      exact ⟨head, h List.mem_cons_self, he⟩
    · cases (literalValue head.kind).value <;> exact Log.refusesIn_none

/-- What the log of a primary expression refuses is a literal at its front, or refused in the
continuation of a receiver. -/
lemma refusesIn_primary_of_continuation (h : ts ⊆ us)
    (hc : ∀ t rest, ts = t :: rest → (continuation rest).log.RefusesIn us) :
    (primary ts).log.RefusesIn us := by
  cases ts with
  | nil =>
    rw [primary]
    exact Log.refusesIn_none
  | cons head rest =>
    have hrest := hc head rest rfl
    rw [primary]
    refine Log.refusesIn_append.2 ⟨Log.refusesIn_one id, ?_⟩
    split
    · unfold identifier
      split <;> exact Log.refusesIn_none
    · unfold superReference
      split
      next heq =>
        obtain rfl := (List.cons.inj heq).2
        dsimp only
        split
        · exact hrest
        · exact Log.refusesIn_append.2 ⟨hrest, Log.refusesIn_one id⟩
      next => exact Log.refusesIn_none
    · unfold selfReference
      split
      next heq =>
        obtain rfl := (List.cons.inj heq).2
        dsimp only
        split <;> exact hrest
      next => exact Log.refusesIn_none
    · exact refusesIn_literal h

/-- A continuation refuses only what the elements of a list do. -/
lemma refusesIn_continuation_of_elements
    (he : ∀ t rest, ts = t :: rest → (elements [] 1 .none rest).log.RefusesIn us) :
    (continuation ts).log.RefusesIn us := by
  unfold continuation
  split
  · split <;> exact Log.refusesIn_none
  next span rest =>
    have hrest := he _ rest rfl
    simp only [bracketedList]
    split
    · exact hrest
    · exact Log.refusesIn_append.2 ⟨hrest, Log.refusesIn_one id⟩
    · exact Log.refusesIn_append.2 ⟨hrest, Log.refusesIn_one id⟩
  · exact Log.refusesIn_none

mutual

/-- Recognizers refuse no numbers but those of their tokens. -/
theorem refusesIn_primary {ts : TokenList} (h : ts ⊆ us) : (primary ts).log.RefusesIn us :=
  refusesIn_primary_of_continuation h fun t rest hts =>
    refusesIn_continuation (List.subset_of_cons_subset (hts ▸ h))
termination_by 3 * ts.length + 1
decreasing_by simp only [hts, List.length_cons]; omega

/-- A continuation refuses only numbers of its tokens. -/
theorem refusesIn_continuation {ts : TokenList} (h : ts ⊆ us) :
    (continuation ts).log.RefusesIn us :=
  refusesIn_continuation_of_elements fun t rest hts =>
    refusesIn_elements [] 1 Log.refusesIn_none (List.subset_of_cons_subset (hts ▸ h))
termination_by 3 * ts.length
decreasing_by simp only [hts, List.length_cons]; omega

/-- The elements of a list refuse only numbers of their tokens. -/
theorem refusesIn_elements (done : List Expr) (position : Nat) {log : Log} {ts : TokenList}
    (hlog : log.RefusesIn us) (h : ts ⊆ us) :
    (elements done position log ts).log.RefusesIn us := by
  have hboth : (log ++ (primary ts).log).RefusesIn us :=
    Log.refusesIn_append.2 ⟨hlog, refusesIn_primary h⟩
  obtain ⟨-, hstep⟩ | ⟨e, u, rest, hts, -, -, hnext⟩ := elements_step done position log ts
  · rw [hstep]
    exact hboth
  obtain ⟨c, v, hrest, hstep⟩ | ⟨c, v, -, hstep⟩ | ⟨-, hstep⟩ := hnext
  · rw [hstep]
    have hv : v ⊆ us := by
      intro t ht
      apply h
      simp [hts, hrest, ht]
    exact refusesIn_elements _ _ hboth hv
  · rw [hstep]
    exact hboth
  · rw [hstep]
    exact hboth
termination_by 3 * ts.length + 2
decreasing_by
  · omega
  · simp only [hts, hrest, List.length_append, List.length_cons]
    omega

end

/-- An expression refuses only numbers of its tokens. -/
lemma refusesIn_expression (h : ts ⊆ us) : (expression ts).log.RefusesIn us := by
  rw [expression, Traced.log_bind, Traced.log_bind, Log.refusesIn_append, Log.refusesIn_append]
  exact ⟨refusesIn_primary h, Log.refusesIn_one id, Log.refusesIn_none⟩

/-- The explanation of a failure refuses only numbers of the tokens. -/
lemma refusesIn_explain (h : ts ⊆ us) (fallback : Span) :
    (explain ts fallback).log.RefusesIn us := by
  cases ts with
  | nil => exact Log.refusesIn_none
  | cons head rest =>
    simp only [explain]
    split
    · exact Log.refusesIn_none
    · unfold explainSuperclass
      split
      · exact Log.refusesIn_none
      next bracket tail =>
        split
        · split
          · rw [explainList, listFault_eq [] 1]
            apply refusesIn_elements [] 1 Log.refusesIn_none
            exact List.subset_of_cons_subset (List.subset_of_cons_subset h)
          · exact Log.refusesIn_none
        · split <;> exact Log.refusesIn_none
    · exact Log.refusesIn_none

end Grammar

open Grammar Numeral

/-- The text of every token but the error is a word of its class. -/
lemma exists_word_of_mem_lex {source : List Char} {t : Token} (h : t ∈ lex source)
    (herror : t.kind ≠ .error) (heof : t.kind ≠ .eof) :
    ∃ c, WordClass.Language c t.kind.text.toList ∧ c.kind t.kind.text.toList = t.kind := by
  have hmem : t.kind ∈ (lex source).kinds := List.mem_map_of_mem h
  rw [kinds_lex, List.mem_append, List.mem_singleton, or_iff_left heof] at hmem
  obtain ⟨c, hw, hk⟩ := exists_word_of_mem_tokenKinds hmem herror
  exact ⟨c, hw.word, hk⟩

/-- The text of an integer token is an integer literal. -/
lemma isInt_of_mem_lex {source : List Char} {t : Token} {raw : String} (h : t ∈ lex source)
    (ht : t.kind = .int raw) : IsInt raw.toList := by
  obtain ⟨c, hw, hk⟩ := exists_word_of_mem_lex h (by simp [ht]) (by simp [ht])
  rw [ht] at hw hk
  cases c with
  | int => exact hw
  | _ => cases hk

/-- The text of a floating point token is a floating point literal. -/
lemma isFloat_of_mem_lex {source : List Char} {t : Token} {raw : String} (h : t ∈ lex source)
    (ht : t.kind = .float raw) : IsFloat raw.toList := by
  obtain ⟨c, hw, hk⟩ := exists_word_of_mem_lex h (by simp [ht]) (by simp [ht])
  rw [ht] at hw hk
  cases c with
  | float => exact hw
  | _ => cases hk

/-- An integer token has the value of its text. -/
lemma value_literalValue_int (raw : String) :
    (literalValue (.int raw)).value = (integer? raw.toList).map fun x => .integer x raw := by
  rw [literalValue]
  cases integer? raw.toList <;> rfl

/-- A floating point token has the value of its text. -/
lemma value_literalValue_float (raw : String) :
    (literalValue (.float raw)).value =
      (float? raw.toList).map fun x => .floatingPoint x raw := by
  rw [literalValue]
  cases float? raw.toList <;> rfl

/-- Only a floating point token without a value is malformed. -/
lemma malformedFloat_mem_literalValue {kind : TokenKind} {raw : String}
    (h : .malformedFloat raw ∈ (literalValue kind).log.events) :
    kind = .float raw ∧ float? raw.toList = none := by
  unfold literalValue at h
  split at h
  · cases h
  · cases h
  · cases h
  next raw' => split at h <;> simp at h
  next raw' =>
    split at h
    next => cases h
    next hnone =>
      obtain rfl : raw = raw' := by simpa using h
      exact ⟨rfl, hnone⟩
  · cases h
  · cases h

/-- An integer with the number `v` stands for a literal with this value if it fits. -/
lemma literal_int {t : Token} {raw : String} {v : Nat} (ht : t.kind = .int raw)
    (hv : DenotesInt raw.toList v) (rest : TokenList) :
    (v ≤ 2 ^ 63 - 1 → ∃ x : Int64, x.toInt = v ∧
      (literal (t :: rest)).value = .matched (.literal (.integer x raw) t.span) 1) ∧
    (2 ^ 63 - 1 < v → (literal (t :: rest)).value = .noMatch) := by
  rw [value_literal, ht, value_literalValue_int, hv.integer?_eq]
  constructor
  · intro hle
    obtain ⟨x, hx, hvalue⟩ := exists_int64?_eq hle
    refine ⟨x, hvalue, ?_⟩
    rw [hx]
    rfl
  · intro hlt
    rw [int64?_eq_none hlt]
    rfl

/-- A call of the parser refuses only numbers of its tokens. -/
lemma refusesIn_parseExpression (c : Cursor) : c.parseExpression.log.RefusesIn c.tokens := by
  have hsub : c.remaining ⊆ c.tokens := List.drop_subset _ _
  rw [Cursor.parseExpression, Traced.log_bind, Log.refusesIn_append]
  refine ⟨refusesIn_expression hsub, ?_⟩
  cases (expression c.remaining).value with
  | matched e n =>
    exact Log.refusesIn_append.2 ⟨Log.refusesIn_one id,
      Log.refusesIn_append.2 ⟨Log.refusesIn_one id, Log.refusesIn_none⟩⟩
  | noMatch =>
    exact Log.refusesIn_append.2 ⟨refusesIn_explain hsub _,
      Log.refusesIn_append.2 ⟨Log.refusesIn_one id, Log.refusesIn_none⟩⟩

/-- A run of the parser refuses only numbers of its tokens. -/
lemma refusesIn_parseAll (c : Cursor) (limit : Nat) :
    (parseAll c limit).log.RefusesIn c.tokens := by
  induction limit generalizing c with
  | zero => exact Log.refusesIn_none
  | succ limit ih =>
    have hnext : c.parseExpression.value.2.tokens = c.tokens := c.tokens_next
    rw [parseAll, Traced.log_bind, Log.refusesIn_append]
    refine ⟨refusesIn_parseExpression c, ?_⟩
    dsimp only
    split
    · exact Log.refusesIn_none
    · split
      · exact Log.refusesIn_none
      · rw [← hnext]
        exact Log.refusesIn_append.2 ⟨ih _, Log.refusesIn_none⟩

/-- Numbers of a source and their literals agree. The text of an integer denotes exactly one number,
and the token stands for the literal with this value and this text if the number fits in 64 bits
with a sign, and for no literal if it does not. The text of a floating point literal is a decimal
without its underscores, and the token stands for a literal with this text, so no run of the parser
over tokens of the source notes one that is malformed. -/
theorem literal_numbers (source : List Char) :
    (∀ t ∈ lex source, ∀ raw, t.kind = .int raw → ∃ v, (∀ n, DenotesInt raw.toList n ↔ n = v) ∧
      ∀ rest,
        (v ≤ 2 ^ 63 - 1 → ∃ x : Int64, x.toInt = v ∧
          (literal (t :: rest)).value = .matched (.literal (.integer x raw) t.span) 1) ∧
        (2 ^ 63 - 1 < v → (literal (t :: rest)).value = .noMatch)) ∧
    (∀ t ∈ lex source, ∀ raw, t.kind = .float raw → IsDecimal (bare raw.toList) ∧
      ∃ x, ∀ rest,
        (literal (t :: rest)).value = .matched (.literal (.floatingPoint x raw) t.span) 1) ∧
    ∀ c : Cursor, c.tokens ⊆ lex source → ∀ limit raw,
      .malformedFloat raw ∉ (parseAll c limit).log.events := by
  refine ⟨fun t hmem raw ht => ?_, fun t hmem raw ht => ?_, fun c hc limit raw hbad => ?_⟩
  · obtain ⟨v, hv⟩ := exists_denotesInt (isInt_of_mem_lex hmem ht)
    refine ⟨v, fun n => ⟨fun hn => hn.unique hv, ?_⟩, literal_int ht hv⟩
    rintro rfl
    exact hv
  · have hdecimal := isDecimal_bare (isFloat_of_mem_lex hmem ht)
    obtain ⟨x, hx⟩ := exists_float?_eq hdecimal
    refine ⟨hdecimal, x, fun rest => ?_⟩
    rw [value_literal, ht, value_literalValue_float, hx]
    rfl
  · obtain ⟨t, hmem, ht⟩ := refusesIn_parseAll c limit _ hbad trivial
    obtain ⟨hkind, hnone⟩ := malformedFloat_mem_literalValue ht
    obtain ⟨x, hx⟩ := exists_float?_eq (isDecimal_bare (isFloat_of_mem_lex (hc hmem) hkind))
    rw [hx] at hnone
    cases hnone

/-- A hexadecimal number, one that is too large by one, and a float with an underscore. -/
theorem literal_numbers_mixed :
    lex "0xff 9223372036854775808 1_0e-3".toList =
      [⟨.int "0xff", ⟨0, 4⟩⟩, ⟨.int "9223372036854775808", ⟨5, 24⟩⟩,
        ⟨.float "1_0e-3", ⟨25, 31⟩⟩, .eofAt 31] ∧
    (∃ x : Int64, x.toInt = (255 : Nat) ∧ (literal [⟨.int "0xff", ⟨0, 4⟩⟩]).value =
      .matched (.literal (.integer x "0xff") ⟨0, 4⟩) 1) ∧
    (literal [⟨.int "9223372036854775808", ⟨5, 24⟩⟩]).value = .noMatch ∧
    (∃ x, (literal [⟨.float "1_0e-3", ⟨25, 31⟩⟩]).value =
      .matched (.literal (.floatingPoint x "1_0e-3") ⟨25, 31⟩) 1) ∧
    .malformedFloat "1_0e-3" ∉
      (parseAll (.start (lex "0xff 9223372036854775808 1_0e-3".toList)) 3).log.events := by
  have hlex : lex "0xff 9223372036854775808 1_0e-3".toList =
      [⟨.int "0xff", ⟨0, 4⟩⟩, ⟨.int "9223372036854775808", ⟨5, 24⟩⟩,
        ⟨.float "1_0e-3", ⟨25, 31⟩⟩, .eofAt 31] := by cbv
  have hsmall : DenotesInt "0xff".toList 255 :=
    .prefixed (by decide) ((natural?_eq_some_iff (Nat.le_refl 16)).1 (by decide))
  have hlarge : DenotesInt "9223372036854775808".toList (2 ^ 63) :=
    .decimal ((natural?_eq_some_iff (by decide)).1 (by decide))
  obtain ⟨hint, hfloat, hrun⟩ := literal_numbers "0xff 9223372036854775808 1_0e-3".toList
  rw [hlex] at hint hfloat
  obtain ⟨v, hv, hread⟩ := hint _ List.mem_cons_self _ rfl
  obtain rfl := (hv 255).1 hsmall
  obtain ⟨w, hw, hread'⟩ := hint _ (List.mem_cons_of_mem _ List.mem_cons_self) _ rfl
  obtain rfl := (hw (2 ^ 63)).1 hlarge
  obtain ⟨-, x, hx⟩ := hfloat ⟨.float "1_0e-3", ⟨25, 31⟩⟩ (by simp) _ rfl
  exact ⟨hlex, (hread []).1 (by decide), (hread' []).2 (by decide), ⟨x, hx []⟩,
    hrun (.start _) (List.Subset.refl _) 3 _⟩

end ExprFront
