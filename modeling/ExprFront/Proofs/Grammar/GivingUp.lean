import ExprFront.Grammar
import ExprFront.Proofs.Grammar.Recognition

/-!
# Where recognition gives up

A list that does not match is read a second time to find its fault. Both readings recognize the same
elements and stop in the same place: the fault is the one that the first reading ended with
(`listFault_eq`), whatever that had read before.

`GivesUp u rest r` says that recognition at the front of the tokens `u ++ rest` gives up behind `u`,
where `r` is required. The recognizer finds nothing exactly if it gives up somewhere
(`primary_eq_noMatch_iff`), in one place only (`GivesUp.unique`), and no token in front of that
place is the end of file (`GivesUp.kind_ne_eof`).
-/

namespace ExprFront

/-- The fault with which the reading of a list ended. -/
def ListEnd.fault : ListEnd → ListFault
  | closed _ bracket _ => .closed ⟨.punct .rbracket, bracket⟩
  | noElement _ (t :: _) => .noElement t
  | noElement _ [] => .noElementAtEnd
  | noSeparator _ (t :: _) => .noSeparator t
  | noSeparator _ [] => .notClosed

namespace Grammar

/-- The second reading of a list ends like the first one, with the same events. -/
theorem listFault_eq (done : List Expr) (position : Nat) (log : Log) (ts : TokenList) :
    listFault log ts =
      ⟨(elements done position log ts).value.fault, (elements done position log ts).log⟩ := by
  rw [listFault.eq_def]
  dsimp only
  split
  next h =>
    rw [elements_noElement h]
    cases ts <;> rfl
  next e n h =>
    -- a comma goes on with a shorter list; everything else ends both readings
    split
    next t rest hrest =>
      obtain ⟨kind, span⟩ := t
      split
      next hcomma =>
        obtain rfl : kind = .punct .comma := hcomma
        rw [elements_comma h hrest]
        exact listFault_eq (e :: done) (position + n + 1) (log ++ (primary ts).log) rest
      next hcomma =>
        split
        next hclose =>
          obtain rfl : kind = .punct .rbracket := hclose
          rw [elements_rbracket h hrest]
          rfl
        next hclose =>
          rw [elements_noSeparator h (by simp [hrest, hcomma, hclose]), hrest]
          rfl
    next hrest =>
      rw [elements_noSeparator h (by simp [hrest]), hrest]
      rfl
termination_by ts.length
decreasing_by
  have hlen := congrArg List.length hrest
  simp only [List.length_drop, List.length_cons] at hlen
  omega

/-- What recognition requires in the place where it gives up. -/
inductive Required where
  /-- An expression: at the front, or as an element of a list. -/
  | expression
  /-- The dot or the opening bracket that continues `super`. -/
  | continuation
  /-- The name or the `init` behind `super.`. -/
  | member
  /-- The comma or the closing bracket behind an element of a list. -/
  | separator
  deriving DecidableEq, Repr

/-- Expressions start with names, receivers, and tokens that a literal is read from. -/
def StartsExpression (k : TokenKind) : Prop :=
  (∃ name, k = .ident name) ∨ (∃ r : Receiver, k = .keyword r.keyword) ∨
    ∃ l, (literalValue k).value = some l

/-- The reading of a list, from an element on, gives up between the tokens `u` and `rest`: where no
element is found, or behind an element where the list neither goes on nor ends. -/
inductive ListGivesUp : TokenList → TokenList → Required → Prop where
  | element {rest} (h : (primary rest).value = .noMatch) : ListGivesUp [] rest .expression
  | separator {u rest e} (h : (primary (u ++ rest)).value = .matched e u.length)
    (hnext : ∀ t ∈ rest.head?, t.kind ≠ .punct .comma ∧ t.kind ≠ .punct .rbracket) :
    ListGivesUp u rest .separator
  | later {u c v rest e r}
    (h : (primary (u ++ ⟨.punct .comma, c⟩ :: (v ++ rest))).value = .matched e u.length)
    (hrest : ListGivesUp v rest r) :
    ListGivesUp (u ++ ⟨.punct .comma, c⟩ :: v) rest r

/-- Recognition gives up between the tokens `u` and `rest`. -/
inductive GivesUp : TokenList → TokenList → Required → Prop where
  | head {rest} (h : ∀ t ∈ rest.head?, ¬ StartsExpression t.kind) : GivesUp [] rest .expression
  | continuation {s rest}
    (h : ∀ t ∈ rest.head?, t.kind ≠ .punct .dot ∧ t.kind ≠ .punct .lbracket) :
    GivesUp [⟨.keyword .super, s⟩] rest .continuation
  | member {s d rest}
    (h : ∀ t ∈ rest.head?, t.kind ≠ .keyword .init ∧ ∀ name, t.kind ≠ .ident name) :
    GivesUp [⟨.keyword .super, s⟩, ⟨.punct .dot, d⟩] rest .member
  | list {s o v rest r} (h : ListGivesUp v rest r) :
    GivesUp (⟨.keyword .super, s⟩ :: ⟨.punct .lbracket, o⟩ :: v) rest r

variable {ts u rest u' rest' : TokenList} {r r' : Required}

namespace ListGivesUp

/-- The reading of the list stops in front of the same tokens. -/
lemma value_elements (h : ListGivesUp u rest r) (done : List Expr) (position : Nat) (log : Log) :
    (r = .expression ∧
      ∃ n, (elements done position log (u ++ rest)).value = .noElement n rest) ∨
    (r = .separator ∧
      ∃ p, (elements done position log (u ++ rest)).value = .noSeparator p rest) := by
  induction h generalizing done position log with
  | @element rest h =>
    refine .inl ⟨rfl, done.length, ?_⟩
    rw [List.nil_append, elements_noElement h]
  | @separator u rest e h hnext =>
    refine .inr ⟨rfl, position + u.length, ?_⟩
    rw [elements_noSeparator h (by rwa [List.drop_left]), List.drop_left]
  | @later u c v rest e r h hrest ih =>
    rw [List.append_assoc, List.cons_append, elements_comma h List.drop_left]
    exact ih _ _ _

/-- A list whose reading gives up is not closed. -/
lemma value_ne_closed (h : ListGivesUp u rest r) {done : List Expr} {position p : Nat} {log : Log}
    {es : List Expr} {b : Span} :
    (elements done position log (u ++ rest)).value ≠ .closed es b p := by
  obtain ⟨-, n, hend⟩ | ⟨-, n, hend⟩ := h.value_elements done position log
  · rw [hend]
    exact nofun
  · rw [hend]
    exact nofun

/-- Two readings of the same tokens end in one place, where the same is required. -/
lemma unique (h : ListGivesUp u rest r) (h' : ListGivesUp u' rest' r')
    (hts : u ++ rest = u' ++ rest') : rest = rest' ∧ r = r' := by
  have hend := h.value_elements [] 1 .none
  have hend' := h'.value_elements [] 1 .none
  rw [← hts] at hend'
  obtain ⟨rfl, n, hn⟩ | ⟨rfl, n, hn⟩ := hend <;> obtain ⟨rfl, m, hm⟩ | ⟨rfl, m, hm⟩ := hend'
  · exact ⟨(ListEnd.noElement.inj (hn.symm.trans hm)).2, rfl⟩
  · cases hn.symm.trans hm
  · cases hn.symm.trans hm
  · exact ⟨(ListEnd.noSeparator.inj (hn.symm.trans hm)).2, rfl⟩

/-- The tokens that were read belong to elements, or are commas between them. -/
lemma kind_ne_eof (h : ListGivesUp u rest r) : ∀ t ∈ u, t.kind ≠ .eof := by
  have helement : ∀ {u v : TokenList} {e}, (primary (u ++ v)).value = .matched e u.length →
      ∀ t ∈ u, t.kind ≠ .eof := by
    intro u v e h
    obtain ⟨u', v', huv, hlen, hspell⟩ := primary_spells h
    obtain ⟨rfl, -⟩ := List.append_inj huv hlen
    exact hspell.kind_ne_eof
  induction h with
  | element h => exact nofun
  | separator h hnext => exact helement h
  | later h hrest ih =>
    rw [List.forall_mem_append, List.forall_mem_cons]
    exact ⟨helement h, nofun, ih⟩

end ListGivesUp

/-- The reading of elements that run into the end of file gives up there. -/
lemma SpellsAll.listGivesUp {z : Token} {v : TokenList} (hz : z.kind = .eof) :
    ∀ {es : List Expr} {u : TokenList}, SpellsAll es u → ListGivesUp u (z :: v) .separator
  | _, _, .last h => .separator (h.primary fun _ => value_continuation_eof hz v) (by simp [hz])
  | _, _, .more h hs => .later (h.primary fun _ => value_continuation_comma _ _) (hs.listGivesUp hz)

/-- A list is closed, or its reading gives up somewhere. -/
lemma closed_or_listGivesUp (done : List Expr) (position : Nat) (log : Log) (ts : TokenList) :
    (∃ es b p, (elements done position log ts).value = .closed es b p) ∨
      ∃ u rest r, ts = u ++ rest ∧ ListGivesUp u rest r := by
  obtain ⟨h, -⟩ | ⟨e, u, rest, hts, h, -, hnext⟩ := elements_step done position log ts
  · exact .inr ⟨[], ts, .expression, rfl, .element h⟩
  rw [hts] at h
  obtain ⟨c, v, hrest, hstep⟩ | ⟨c, v, -, hstep⟩ | ⟨hnext, -⟩ := hnext
  · -- behind a comma the list goes on with fewer tokens
    rw [hstep]
    refine (closed_or_listGivesUp _ _ _ v).imp_right ?_
    rintro ⟨w, rest', r, rfl, hw⟩
    rw [hrest] at h
    exact ⟨u ++ ⟨.punct .comma, c⟩ :: w, rest', r, by simp [hts, hrest], .later h hw⟩
  · rw [hstep]
    exact .inl ⟨_, _, _, rfl⟩
  · exact .inr ⟨u, rest, .separator, hts, .separator h hnext⟩
termination_by ts.length
decreasing_by
  simp only [hts, hrest, List.length_append, List.length_cons]
  omega

/-- No expression is found where none can start. -/
lemma primary_noMatch_of_not_starts (h : ∀ t ∈ ts.head?, ¬ StartsExpression t.kind) :
    (primary ts).value = .noMatch := by
  cases ts with
  | nil => exact value_primary_nil
  | cons t ts =>
    have ht : ¬ StartsExpression t.kind := h t rfl
    simp only [StartsExpression, not_or, not_exists] at ht
    obtain ⟨hname, hreceiver, hliteral⟩ := ht
    rw [value_primary_literal ts hname hreceiver]
    split
    next l hl => exact absurd hl (hliteral l)
    next => rfl

/-- Behind a dot only a name or `init` continues a receiver. -/
lemma value_continuation_dot {d : Span}
    (h : ∀ t ∈ rest.head?, t.kind ≠ .keyword .init ∧ ∀ name, t.kind ≠ .ident name) :
    (continuation (⟨.punct .dot, d⟩ :: rest)).value = .noMatch := by
  cases hc : (continuation (⟨.punct .dot, d⟩ :: rest)).value with
  | noMatch => rfl
  | matched found n =>
    obtain ⟨_, name, v, hts, -⟩ | ⟨_, v, hts, -⟩ | ⟨_, v, _, _, _, hts, -⟩ :=
      continuation_eq_matched hc
    · cases hts
      exact absurd rfl ((h _ rfl).2 name)
    · cases hts
      exact absurd rfl (h _ rfl).1
    · cases hts

/-- Behind `super` there is a match if it is continued. -/
lemma primary_super_eq_noMatch_iff {s : Span} :
    (primary (⟨.keyword .super, s⟩ :: rest)).value = .noMatch ↔
      (continuation rest).value = .noMatch := by
  have hv := value_primary_receiver .super s rest
  rw [Receiver.keyword] at hv
  rw [hv]
  split <;> simp_all

/-- Behind `super` recognition gives up if nothing continues it. -/
lemma exists_givesUp_super {s : Span} (h : (continuation ts).value = .noMatch) :
    ∃ u rest r, ⟨.keyword .super, s⟩ :: ts = u ++ rest ∧ GivesUp u rest r := by
  by_cases hnext : ∀ t ∈ ts.head?, t.kind ≠ .punct .dot ∧ t.kind ≠ .punct .lbracket
  · exact ⟨[_], ts, _, rfl, .continuation hnext⟩
  obtain ⟨⟨kind, span⟩, rest, rfl⟩ : ∃ t rest, ts = t :: rest := by
    cases ts with
    | nil => exact absurd nofun hnext
    | cons t rest => exact ⟨t, rest, rfl⟩
  by_cases hdot : kind = .punct .dot
  · subst hdot
    refine ⟨[_, _], rest, _, rfl, .member fun t ht => ?_⟩
    obtain ⟨v, rfl⟩ := List.head?_eq_some_iff.1 ht
    obtain ⟨kind, t⟩ := t
    constructor
    · rintro rfl
      rw [value_continuation_initializer] at h
      cases h
    · rintro name rfl
      rw [value_continuation_method] at h
      cases h
  · obtain rfl : kind = .punct .lbracket := by simpa [hdot] using hnext
    obtain ⟨es, b, p, hclosed⟩ | ⟨v, rest', r, rfl, hv⟩ := closed_or_listGivesUp [] 1 .none rest
    · rw [value_continuation_subscript, hclosed] at h
      cases h
    · exact ⟨_ :: _ :: v, rest', r, rfl, .list hv⟩

/-- The recognizer finds nothing exactly if it gives up somewhere. -/
theorem primary_eq_noMatch_iff :
    (primary ts).value = .noMatch ↔ ∃ u rest r, ts = u ++ rest ∧ GivesUp u rest r := by
  constructor
  · intro h
    by_cases hhead : ∀ t ∈ ts.head?, ¬ StartsExpression t.kind
    · exact ⟨[], ts, _, rfl, .head hhead⟩
    obtain ⟨⟨kind, s⟩, rest, rfl⟩ : ∃ t rest, ts = t :: rest := by
      cases ts with
      | nil => exact absurd nofun hhead
      | cons t rest => exact ⟨t, rest, rfl⟩
    -- of the tokens that start expressions only `super` has to be continued
    have hstarts : StartsExpression kind := by simpa using hhead
    obtain ⟨name, rfl⟩ | ⟨receiver, rfl⟩ | ⟨l, hl⟩ := hstarts
    · rw [value_primary_identifier] at h
      cases h
    · cases receiver with
      | super => exact exists_givesUp_super (primary_super_eq_noMatch_iff.1 h)
      | self =>
        rw [value_primary_receiver] at h
        split at h
        · cases h
        · contradiction
        · cases h
    · obtain rfl := Literal.tokenKind_of_value hl
      rw [value_primary_literal rest l.tokenKind_ne_ident l.tokenKind_ne_receiver, hl] at h
      cases h
  · rintro ⟨u, rest, r, rfl, h⟩
    cases h with
    | head h => exact primary_noMatch_of_not_starts h
    | continuation h => exact primary_super_eq_noMatch_iff.2 (value_continuation_other h)
    | member h => exact primary_super_eq_noMatch_iff.2 (value_continuation_dot h)
    | list h =>
      refine primary_super_eq_noMatch_iff.2 ?_
      show (continuation (⟨.punct .lbracket, _⟩ :: (_ ++ _))).value = _
      rw [value_continuation_subscript]
      split
      next hclosed => exact absurd hclosed h.value_ne_closed
      next => rfl

namespace GivesUp

/-- Behind `super` and an opening bracket recognition gives up in the list. -/
lemma list_inv {s o : Span} (h : GivesUp u rest r)
    (hts : u ++ rest = ⟨.keyword .super, s⟩ :: ⟨.punct .lbracket, o⟩ :: ts) :
    ∃ v, u = ⟨.keyword .super, s⟩ :: ⟨.punct .lbracket, o⟩ :: v ∧ ts = v ++ rest ∧
      ListGivesUp v rest r := by
  cases h with
  | head h =>
    obtain rfl : rest = _ := hts
    exact absurd (.inr (.inl ⟨.super, rfl⟩)) (h _ rfl)
  | continuation h =>
    cases hts
    exact absurd rfl (h _ rfl).2
  | member => cases hts
  | list h =>
    cases hts
    exact ⟨_, rfl, rfl, h⟩

/-- Recognition gives up in one place only. -/
lemma unique (h : GivesUp u rest r) (h' : GivesUp u' rest' r') (hts : u ++ rest = u' ++ rest') :
    u = u' ∧ rest = rest' ∧ r = r' := by
  have hsuper : StartsExpression (.keyword .super) := .inr (.inl ⟨.super, rfl⟩)
  cases h with
  | head h =>
    cases h' with
    | head => exact ⟨rfl, hts, rfl⟩
    | continuation | member | list =>
      obtain rfl := hts
      exact absurd hsuper (h _ rfl)
  | continuation h =>
    cases h' with
    | head h' =>
      obtain rfl := hts.symm
      exact absurd hsuper (h' _ rfl)
    | continuation =>
      cases hts
      exact ⟨rfl, rfl, rfl⟩
    | member =>
      cases hts
      exact absurd rfl (h _ rfl).1
    | list =>
      cases hts
      exact absurd rfl (h _ rfl).2
  | member h =>
    cases h' with
    | head h' =>
      obtain rfl := hts.symm
      exact absurd hsuper (h' _ rfl)
    | continuation h' =>
      cases hts
      exact absurd rfl (h' _ rfl).1
    | member =>
      cases hts
      exact ⟨rfl, rfl, rfl⟩
    | list => cases hts
  | list h =>
    obtain ⟨v, rfl, hlist, h'⟩ := h'.list_inv hts.symm
    obtain ⟨rfl, rfl⟩ := h.unique h' hlist
    rw [List.append_cancel_right hlist]
    exact ⟨rfl, rfl, rfl⟩

/-- What has been read before recognition gives up holds no end of file. -/
lemma kind_ne_eof (h : GivesUp u rest r) : ∀ t ∈ u, t.kind ≠ .eof := by
  cases h with
  | head => exact nofun
  | continuation | member => simp
  | list h => simpa using h.kind_ne_eof

end GivesUp

end Grammar

end ExprFront
