import ExprFront.Expr
import ExprFront.Proofs.Grammar.Recognition
import ExprFront.Proofs.Grammar.Spelling
import ExprFront.Proofs.Lexical.Layout
import ExprFront.Proofs.Lexical.Locality
import ExprFront.Proofs.Parser.Run
import Mathlib

/-!
# Nodes, their spans and their text

The tokens of a node stand together among the tokens of the tree (`Spells.exists_node`), and where
tokens come one after another a node covers them from the start of the first to the end of the last
(`Spells.span_eq`). So spans nest as the tree does: the arguments of a subscript lie between its
brackets, one behind the other (`expression_spans_nest`).

Tokens whose spans are changed spell the tree with its spans changed in the same way, if the change
keeps merges (`Spells.mapSpans`). The span of a node is the text that the node was parsed from:
lexed and parsed on its own, this text gives the node again, with its spans counted from the start
of the text (`parse_node_text`).
-/

namespace ExprFront

namespace Grammar

/-- The only node of a tree without arguments is spelled like it. -/
lemma Spells.exists_of_mem_singleton {e x : Expr} {u : TokenList} {depth d : Nat} (h : Spells e u)
    (hx : (d, x) ∈ [(depth, e)]) : ∃ a v b, u = a ++ v ++ b ∧ Spells x v := by
  cases List.mem_singleton.1 hx
  exact ⟨[], u, [], (List.append_nil u).symm, h⟩

/-- Every node of a tree is spelled by some of the tokens of the tree, which stand together. -/
lemma Spells.exists_node {e : Expr} {u : TokenList} (h : Spells e u) :
    ∀ depth d x, (d, x) ∈ e.nodesFrom depth → ∃ a v b, u = a ++ v ++ b ∧ Spells x v := by
  induction h using Spells.induct (Q := fun es u _ =>
    ∀ depth d x, (d, x) ∈ es.flatMap (Expr.nodesFrom depth) →
      ∃ a v b, u = a ++ v ++ b ∧ Spells x v) with
  | identifier name s => exact fun _ _ _ hx => exists_of_mem_singleton .identifier hx
  | literal l s h => exact fun _ _ _ hx => exists_of_mem_singleton (.literal h) hx
  | selfRef s => exact fun _ _ _ hx => exists_of_mem_singleton .selfRef hx
  | method r name s d t => exact fun _ _ _ hx => exists_of_mem_singleton .method hx
  | initializer r s d t => exact fun _ _ _ hx => exists_of_mem_singleton .initializer hx
  | subscript r args s o u c h ih =>
    intro depth d x hx
    rw [Expr.nodesFrom_subscript] at hx
    rcases List.mem_cons.1 hx with hx | hx
    · cases hx
      exact ⟨[], _, [], (List.append_nil _).symm, .subscript h⟩
    · obtain ⟨a, v, b, rfl, hv⟩ := ih _ d x hx
      exact ⟨⟨.keyword r.keyword, s⟩ :: ⟨.punct .lbracket, o⟩ :: a, v,
        b ++ [⟨.punct .rbracket, c⟩], by simp, hv⟩
  | last e u h ih =>
    rename_i depth d x hx
    rw [List.flatMap_singleton] at hx
    exact ih _ d x hx
  | more e u c es v h hs ih ihs =>
    rename_i depth d x hx
    rw [List.flatMap_cons] at hx
    rcases List.mem_append.1 hx with hx | hx
    · obtain ⟨a, w, b, rfl, hw⟩ := ih _ d x hx
      exact ⟨a, w, b ++ ⟨.punct .comma, c⟩ :: v, by simp, hw⟩
    · obtain ⟨a, w, b, rfl, hw⟩ := ihs _ d x hx
      exact ⟨u ++ ⟨.punct .comma, c⟩ :: a, w, b, by simp, hw⟩

/-- Two spans in order are merged from the start of one to the stop of the other. -/
lemma merge_of_le {s t : Span} (hstart : s.start ≤ t.start) (hstop : s.stop ≤ t.stop) :
    s.merge t = ⟨s.start, t.stop⟩ := by
  show Span.mk (if s.start ≤ t.start then s.start else t.start)
    (if s.stop ≤ t.stop then t.stop else s.stop) = _
  rw [if_pos hstart, if_pos hstop]

/-- A node covers its tokens, from the start of the first to the end of the last. -/
lemma Spells.span_eq {e : Expr} {u : TokenList} (h : Spells e u) (ho : u.InOrder) :
    ∃ t ∈ u.head?, ∃ z ∈ u.getLast?, e.span = ⟨t.span.start, z.span.stop⟩ := by
  have hpair := ho.pairwise
  have hle := ho.start_le_stop
  cases h with
  | identifier | literal | selfRef => exact ⟨_, rfl, _, rfl, rfl⟩
  | method | initializer =>
    simp only [List.mem_cons, List.pairwise_cons, List.not_mem_nil, or_false, forall_eq_or_imp,
      forall_eq] at hpair hle
    obtain ⟨⟨-, hst⟩, -⟩ := hpair
    refine ⟨_, rfl, _, rfl, merge_of_le ?_ ?_⟩
    · exact UInt32.le_trans hle.1 hst
    · exact UInt32.le_trans hst hle.2.2
  | @subscript r args s o u c h =>
    simp only [List.mem_cons, List.mem_append, List.pairwise_cons, List.not_mem_nil, or_false,
      forall_eq_or_imp] at hpair hle
    obtain ⟨⟨hso, hs⟩, ho, -⟩ := hpair
    have hsc : s.stop ≤ c.start := hs ⟨.punct .rbracket, c⟩ (.inr rfl)
    have hoc : o.stop ≤ c.start := ho ⟨.punct .rbracket, c⟩ (.inr rfl)
    have hc : c.start ≤ c.stop := hle.2.2 ⟨.punct .rbracket, c⟩ (.inr rfl)
    have hinner : o.merge c = ⟨o.start, c.stop⟩ :=
      merge_of_le (UInt32.le_trans hle.2.1 hoc) (UInt32.le_trans hoc hc)
    refine ⟨_, rfl, ⟨.punct .rbracket, c⟩, ?_, ?_⟩
    · rw [← List.cons_append, ← List.cons_append]
      exact List.getLast?_concat
    · rw [Expr.span, hinner]
      exact merge_of_le (UInt32.le_trans hle.1 hso) (UInt32.le_trans hsc hc)

/-- Changing spans by a function that keeps merges keeps which tokens spell an expression. -/
lemma Spells.mapSpans {f : Span → Span} {P : Span → Prop}
    (hmerge : ∀ s t, P s → P t → P (s.merge t) ∧ f (s.merge t) = (f s).merge (f t))
    {e : Expr} {u : TokenList} (h : Spells e u) (hP : ∀ t ∈ u, P t.span) :
    Spells (e.mapSpans f) (u.map (.mapSpan f)) := by
  induction h using Spells.induct (Q := fun es u _ => (∀ t ∈ u, P t.span) →
    SpellsAll (es.map (.mapSpans f)) (u.map (.mapSpan f))) with
  | identifier => exact .identifier
  | literal l s h => exact .literal h
  | selfRef => exact .selfRef
  | method r name s d t =>
    have hs : P s := hP ⟨.keyword r.keyword, s⟩ (by simp)
    have ht : P t := hP ⟨.ident name, t⟩ (by simp)
    rw [Expr.mapSpans, (hmerge s t hs ht).2]
    exact .method
  | initializer r s d t =>
    have hs : P s := hP ⟨.keyword r.keyword, s⟩ (by simp)
    have ht : P t := hP ⟨.keyword .init, t⟩ (by simp)
    rw [Expr.mapSpans, (hmerge s t hs ht).2]
    exact .initializer
  | subscript r args s o u c h ih =>
    have hs : P s := hP ⟨.keyword r.keyword, s⟩ (by simp)
    have ho : P o := hP ⟨.punct .lbracket, o⟩ (by simp)
    have hc : P c := hP ⟨.punct .rbracket, c⟩ (by simp)
    have hinner := hmerge o c ho hc
    have hargs := ih fun t ht => hP t (by simp [ht])
    rw [Expr.mapSpans, Expr.mapAllSpans_eq, (hmerge s _ hs hinner.1).2, hinner.2, List.map_cons,
      List.map_cons, List.map_append]
    exact .subscript hargs
  | last e u h ih =>
    rename_i hP
    exact .last (ih hP)
  | more e u c es v h hs ih ihs =>
    rename_i hP
    have he := ih fun t ht => hP t (by simp [ht])
    have hes := ihs fun t ht => hP t (by simp [ht])
    rw [List.map_append]
    exact .more he hes

end Grammar

/-- The span runs from the start of the first of the tokens to the end of the last. -/
def Span.RunsOver (s : Span) (u : TokenList) : Prop :=
  ∃ t ∈ u.head?, ∃ z ∈ u.getLast?, s = ⟨t.span.start, z.span.stop⟩

/-- Tokens that each end at or before the start of the next one come one after another. -/
lemma TokenList.inOrder_of_isChain {ts : TokenList} (hle : ∀ t ∈ ts, t.span.start ≤ t.span.stop)
    (hnext : ts.IsChain fun t u => t.span.stop ≤ u.span.start) : ts.InOrder where
  start_le_stop := hle
  pairwise := by
    induction ts with
    | nil => exact .nil
    | cons t ts ih =>
      obtain ⟨ht, hle⟩ := List.forall_mem_cons.1 hle
      have hrest := ih hle hnext.tail
      refine List.pairwise_cons.2 ⟨fun u hu => ?_, hrest⟩
      cases ts with
      | nil => cases hu
      | cons t' ts =>
        have hstart := (InOrder.mk hle hrest).start_le u hu
        exact UInt32.le_trans (List.isChain_cons_cons.1 hnext).1 hstart.1

namespace Grammar

/-- The tokens are those of the arguments in their order, with a comma between two of them, and the
span of each argument runs over its tokens. -/
inductive CoversAll : List Expr → TokenList → Prop where
  | last {x u} (hkinds : TokenList.kinds u = x.flatten) (hspan : x.span.RunsOver u) :
    CoversAll [x] u
  | more {x u c xs v} (hkinds : TokenList.kinds u = x.flatten) (hspan : x.span.RunsOver u)
    (h : CoversAll xs v) : CoversAll (x :: xs) (u ++ ⟨.punct .comma, c⟩ :: v)

/-- The subscript `s` of a receiver at `k` covers its tokens, and its arguments, which are
written with the tokens `v` between the brackets at `o` and at `c`, lie between these one behind
the other. -/
structure SubscriptNests (args : List Expr) (s k o : Span) (v : TokenList) (c : Span) : Prop where
  span_eq : s = ⟨k.start, c.stop⟩
  covers : CoversAll args v
  pairwise : args.Pairwise fun x y => x.span.stop ≤ y.span.start
  start_le_stop : ∀ x ∈ args, x.span.start ≤ x.span.stop
  between : ∀ x ∈ args, o.stop ≤ x.span.start ∧ x.span.stop ≤ c.start
  contains : ∀ x ∈ args, s.contains x.span = true

variable {es args : List Expr} {e : Expr} {ts u w : TokenList}

/-- The trees of a list cover the tokens that spell them. -/
lemma SpellsAll.coversAll : ∀ {es : List Expr} {u : TokenList}, SpellsAll es u → u.InOrder →
    CoversAll es u
  | _, _, .last h, ho => .last h.kinds (h.span_eq ho)
  | _, _, .more h hs, ho => by
    have hu := ho.sublist (List.sublist_append_left _ _)
    have hv := ho.sublist ((List.sublist_cons_self _ _).trans (List.sublist_append_right _ _))
    exact .more h.kinds (h.span_eq hu) (hs.coversAll hv)

/-- The span of an argument begins and ends with tokens of the list. -/
lemma CoversAll.exists_ends (h : CoversAll es u) (ho : u.InOrder) : ∀ x ∈ es,
    ∃ t ∈ u, ∃ z ∈ u, x.span = ⟨t.span.start, z.span.stop⟩ ∧ t.span.start ≤ z.span.stop := by
  have hends : ∀ {s : Span} {u : TokenList}, s.RunsOver u → u.InOrder →
      ∃ t ∈ u, ∃ z ∈ u, s = ⟨t.span.start, z.span.stop⟩ ∧ t.span.start ≤ z.span.stop := by
    rintro s u ⟨t, ht, z, hz, rfl⟩ ho
    have hmem := List.mem_of_getLast? hz
    obtain ⟨u', rfl⟩ := List.head?_eq_some_iff.1 ht
    exact ⟨t, List.mem_cons_self, z, hmem, rfl, (ho.start_le z hmem).2⟩
  induction h with
  | last _ hspan =>
    intro x hx
    rw [List.mem_singleton.1 hx]
    exact hends hspan ho
  | @more x u c xs v _ hspan _ ih =>
    have hu := ho.sublist (List.sublist_append_left u _)
    have hv : (v : TokenList).InOrder :=
      ho.sublist ((List.sublist_cons_self _ v).trans (List.sublist_append_right u _))
    refine List.forall_mem_cons.2 ⟨?_, fun y hy => ?_⟩
    · obtain ⟨t, ht, z, hz, heq⟩ := hends hspan hu
      exact ⟨t, List.mem_append_left _ ht, z, List.mem_append_left _ hz, heq⟩
    · obtain ⟨t, ht, z, hz, heq⟩ := ih hv y hy
      have hright : ∀ a ∈ v, a ∈ u ++ ⟨.punct .comma, c⟩ :: v :=
        fun a ha => List.mem_append_right u (List.mem_cons_of_mem _ ha)
      exact ⟨t, hright t ht, z, hright z hz, heq⟩

/-- The arguments lie one behind the other, as their tokens do. -/
lemma CoversAll.pairwise (h : CoversAll es u) (ho : u.InOrder) :
    es.Pairwise fun x y => x.span.stop ≤ y.span.start := by
  induction h with
  | last => exact List.pairwise_singleton _ _
  | @more x u c xs v _ hspan h ih =>
    have hv : (v : TokenList).InOrder :=
      ho.sublist ((List.sublist_cons_self _ v).trans (List.sublist_append_right u _))
    refine List.pairwise_cons.2 ⟨fun y hy => ?_, ih hv⟩
    obtain ⟨_, -, z, hz, hx⟩ := hspan
    obtain ⟨t, ht, _, -, hy, -⟩ := h.exists_ends hv y hy
    rw [hx, hy]
    exact (List.pairwise_append.1 ho.pairwise).2.2 z (List.mem_of_getLast? hz) t
      (List.mem_cons_of_mem _ ht)

/-- The arguments of a subscript nest between its brackets. -/
lemma Spells.subscriptNests {r : Receiver} {s : Span} (h : Spells (.subscript r args s) w)
    (ho : w.InOrder) : ∃ k o v c, w = ⟨.keyword r.keyword, k⟩ :: ⟨.punct .lbracket, o⟩ ::
      (v ++ [⟨.punct .rbracket, c⟩]) ∧ SubscriptNests args s k o v c := by
  obtain ⟨_, ht, _, hz, hspan⟩ := h.span_eq ho
  cases h with
  | @subscript _ _ k o v c hargs =>
    cases ht
    rw [← List.cons_append, ← List.cons_append, List.getLast?_concat] at hz
    cases hz
    obtain ⟨hk, hopen, hinner⟩ := List.pairwise_cons.1 ho.pairwise |>.imp_right List.pairwise_cons.1
    have hclose := (List.pairwise_append.1 hinner).2.2
    have hv : (v : TokenList).InOrder :=
      ho.sublist ((List.sublist_append_left v _).trans
        ((List.sublist_cons_self _ _).trans (List.sublist_cons_self _ _)))
    have hcovers := hargs.coversAll hv
    refine ⟨k, o, v, c, rfl, hspan, hcovers, hcovers.pairwise hv, fun x hx => ?_, fun x hx => ?_,
      fun x hx => ?_⟩
    all_goals obtain ⟨t, ht, z, hz, heq, hle⟩ := hcovers.exists_ends hv x hx
    all_goals rw [heq]
    · exact hle
    · exact ⟨hopen t (List.mem_append_left _ ht), hclose z hz _ List.mem_cons_self⟩
    · have hfirst := UInt32.le_trans (ho.start_le_stop _ List.mem_cons_self)
        (hk t (List.mem_cons_of_mem _ (List.mem_append_left _ ht)))
      have hlast := UInt32.le_trans (hclose z hz _ List.mem_cons_self)
        (ho.start_le_stop ⟨.punct .rbracket, c⟩ (by simp))
      rw [show k.merge (o.merge c) = ⟨k.start, c.stop⟩ from hspan]
      simp only [Span.contains, Bool.and_eq_true, decide_eq_true_eq]
      exact ⟨hfirst, hlast⟩

/-- Spans nest as the tree does. Take tokens that each end at or before the start of the next one. A
match spans the tokens that it steps over, from the start of the first to the end of the last; and
every subscript in it, at any depth, stands on tokens of its own, from its receiver to its closing
bracket. Its arguments cover the tokens between its brackets, each from its first to its last, and
so lie in order between the brackets without overlap, within the span of the subscript. -/
theorem expression_spans_nest (hle : ∀ t ∈ ts, t.span.start ≤ t.span.stop)
    (hnext : ts.IsChain fun t u => t.span.stop ≤ u.span.start) {n : Nat}
    (h : (expression ts).value = .matched e n) :
    n ≤ ts.length ∧ e.span.RunsOver (ts.take n) ∧
      ∀ d r args s, (d, .subscript r args s) ∈ e.nodes → ∃ a k o v c b,
        ts.take n = a ++ ⟨.keyword r.keyword, k⟩ :: ⟨.punct .lbracket, o⟩ ::
          (v ++ ⟨.punct .rbracket, c⟩ :: b) ∧ SubscriptNests args s k o v c := by
  have ho := TokenList.inOrder_of_isChain hle hnext
  obtain ⟨u, rest, rfl, rfl, hspell⟩ := primary_spells h
  have hu := ho.sublist (List.sublist_append_left u rest)
  rw [List.take_left]
  refine ⟨by simp, hspell.span_eq hu, fun d r args s hx => ?_⟩
  obtain ⟨a, w, b, rfl, hw⟩ := hspell.exists_node 0 d _ hx
  have hinfix := (List.sublist_append_right a w).trans (List.sublist_append_left _ b)
  obtain ⟨k, o, v, c, rfl, hnests⟩ := hw.subscriptNests (hu.sublist hinfix)
  exact ⟨a, k, o, v, c, b, by simp, hnests⟩

/-- The argument of an inner subscript lies between the inner brackets. -/
theorem expression_spans_nest_inner :
    let ts := lex "super[a, self[b]]".toList
    let inner : Expr := .subscript .self [.identifier "b" ⟨14, 15⟩] ⟨9, 16⟩
    let e : Expr := .subscript .super [.identifier "a" ⟨6, 7⟩, inner] ⟨0, 17⟩
    (∀ t ∈ ts, t.span.start ≤ t.span.stop) ∧
      (ts.IsChain fun t u => t.span.stop ≤ u.span.start) ∧
      (expression ts).value = .matched e 9 ∧ e.span.RunsOver (ts.take 9) ∧
      ∃ k o v c, SubscriptNests [.identifier "b" ⟨14, 15⟩] ⟨9, 16⟩ k o v c := by
  intro ts inner e
  have ho : ts.InOrder := (laid_lex (by decide)).inOrder
  have hfound : (expression (lex "super[a, self[b]]".toList)).value =
      .matched (.subscript .super [.identifier "a" ⟨6, 7⟩,
        .subscript .self [.identifier "b" ⟨14, 15⟩] ⟨9, 16⟩] ⟨0, 17⟩) 9 := by cbv
  have hinner : (1, inner) ∈ e.nodes := by
    simp [e, inner, Expr.nodes, Expr.nodesFrom_subscript]
  obtain ⟨-, hspan, hnests⟩ := expression_spans_nest ho.start_le_stop ho.pairwise.isChain hfound
  obtain ⟨_, k, o, v, c, _, -, hargs⟩ := hnests _ _ _ _ hinner
  exact ⟨ho.start_le_stop, ho.pairwise.isChain, hfound, hspan, k, o, v, c, hargs⟩

end Grammar

namespace Span

variable {d : UInt32} {s t : Span}

/-- The span lies at or above an offset. -/
def From (d : UInt32) (s : Span) : Prop := d ≤ s.start ∧ d ≤ s.stop

/-- A shift down keeps the order of offsets. -/
lemma sub_le_sub_iff {a b : UInt32} (ha : d ≤ a) (hb : d ≤ b) : a - d ≤ b - d ↔ a ≤ b := by
  rw [UInt32.le_iff_toNat_le] at ha hb
  rw [UInt32.le_iff_toNat_le, UInt32.le_iff_toNat_le, UInt32.toNat_sub_of_le _ _ ha,
    UInt32.toNat_sub_of_le _ _ hb]
  omega

/-- A shift down keeps the smaller of two offsets. -/
lemma min_sub {a b : UInt32} (ha : d ≤ a) (hb : d ≤ b) : min a b - d = min (a - d) (b - d) := by
  show (if a ≤ b then a else b) - d = if a - d ≤ b - d then a - d else b - d
  simp only [sub_le_sub_iff ha hb]
  split <;> rfl

/-- A shift down keeps the larger of two offsets. -/
lemma max_sub {a b : UInt32} (ha : d ≤ a) (hb : d ≤ b) : max a b - d = max (a - d) (b - d) := by
  show (if a ≤ b then b else a) - d = if a - d ≤ b - d then b - d else a - d
  simp only [sub_le_sub_iff ha hb]
  split <;> rfl

/-- Spans from an offset on are merged to one from there on. -/
lemma From.merge (hs : s.From d) (ht : t.From d) : (s.merge t).From d := by
  constructor
  · show d ≤ if s.start ≤ t.start then s.start else t.start
    split
    · exact hs.1
    · exact ht.1
  · show d ≤ if s.stop ≤ t.stop then t.stop else s.stop
    split
    · exact ht.2
    · exact hs.2

/-- It does not matter whether spans are shifted or merged first. -/
lemma From.shiftDown_merge (hs : s.From d) (ht : t.From d) :
    (s.merge t).shiftDown d = (s.shiftDown d).merge (t.shiftDown d) := by
  rw [Span.merge, Span.merge, shiftDown, shiftDown, shiftDown, min_sub hs.1 ht.1,
    max_sub hs.2 ht.2]

end Span

/-- Tokens of a source that spell an expression cover a text that is read as this expression. -/
lemma exists_text_of_spells {source : List Char} (hlen : byteLength source < UInt32.size)
    {ts v us : TokenList} (h : lex source = ts ++ v ++ us) {x : Expr} (hx : Grammar.Spells x v) :
    ∃ text, slice? source x.span = some text ∧ (∀ t ∈ lex text, t.kind ≠ .error) ∧
      (Cursor.start (lex text)).outcome = .ok (x.mapSpans (.shiftDown x.span.start)) ∧
      (Cursor.start (lex text)).next.isAtEnd = true := by
  have horder := inOrder_of_lex hlen h
  obtain ⟨t, ht, z, hz, hspan⟩ := hx.span_eq horder
  obtain ⟨text, hslice, hlex⟩ := lex_between hlen h ht hz hx.kind_ne_eof
  obtain ⟨v, rfl⟩ := List.head?_eq_some_iff.1 ht
  have hfrom : ∀ u ∈ t :: v, u.span.From t.span.start := horder.start_le
  have hspell := hx.mapSpans (fun _ _ hs ht => ⟨hs.merge ht, hs.shiftDown_merge ht⟩) hfrom
  rw [hspan]
  refine ⟨text, hslice, ?_, ?_⟩
  · intro u hu herror
    rw [hlex] at hu
    rcases List.mem_append.1 hu with hu | hu
    · obtain ⟨u', hu', rfl⟩ := List.mem_map.1 hu
      apply x.error_not_mem_flatten
      rw [← hx.kinds, ← herror]
      exact List.mem_map.2 ⟨u', hu', rfl⟩
    · rw [List.mem_singleton.1 hu] at herror
      cases herror
  · rw [hlex]
    exact Cursor.outcome_of_spells hspell rfl

/-- The span of a node is the text that it was parsed from. Take any node of an expression that any
call of a run gives, the expression itself or an argument at any depth. Its span covers a part of
the source that is lexed without errors, and parsing this part gives the node, with its spans
counted from the start of the part, and ends at its end. -/
theorem parse_node_text {source : List Char} (hlen : byteLength source < UInt32.size) {k : Nat}
    {e : Expr} (h : ((Cursor.start (lex source)).after k).outcome = .ok e) {d : Nat} {x : Expr}
    (hx : (d, x) ∈ e.nodes) :
    ∃ text, slice? source x.span = some text ∧ (∀ t ∈ lex text, t.kind ≠ .error) ∧
      (Cursor.start (lex text)).outcome = .ok (x.mapSpans (.shiftDown x.span.start)) ∧
      (Cursor.start (lex text)).next.isAtEnd = true := by
  obtain ⟨u, hu⟩ := Cursor.stepsOver_of_outcome h
  obtain ⟨a, v, b, rfl, hv⟩ := hu.spells.exists_node _ d x hx
  have htokens := ((Cursor.start (lex source)).after k).take_append_remaining
  rw [Cursor.tokens_after, hu.remaining] at htokens
  have hlex := htokens.symm
  rw [List.append_assoc a, List.append_assoc a, ← List.append_assoc, List.append_assoc v,
    ← List.append_assoc _ v] at hlex
  exact exists_text_of_spells hlen hlex hv

/-- The argument `1` of `super[x, 1]`, behind a comment with a character of two bytes. -/
theorem parse_node_text_argument :
    let e : Expr := .subscript .super
      [.identifier "x" ⟨15, 16⟩, .literal (.integer 1 "1") ⟨18, 19⟩] ⟨9, 20⟩
    byteLength "/* é */ super[x, 1]".toList < UInt32.size ∧
      ((Cursor.start (lex "/* é */ super[x, 1]".toList)).after 0).outcome = .ok e ∧
      ∃ text, slice? "/* é */ super[x, 1]".toList ⟨18, 19⟩ = some text ∧
        (Cursor.start (lex text)).outcome = .ok (.literal (.integer 1 "1") ⟨0, 1⟩) := by
  intro e
  have hlen : byteLength "/* é */ super[x, 1]".toList < UInt32.size := by decide
  have houtcome : ((Cursor.start (lex "/* é */ super[x, 1]".toList)).after 0).outcome =
      .ok (.subscript .super
        [.identifier "x" ⟨15, 16⟩, .literal (.integer 1 "1") ⟨18, 19⟩] ⟨9, 20⟩) := by cbv
  have hnode : (1, Expr.literal (.integer 1 "1") ⟨18, 19⟩) ∈ e.nodes := by
    rw [Expr.nodes, Expr.nodesFrom_subscript]
    exact List.mem_cons_of_mem _ (List.mem_cons_of_mem _ List.mem_cons_self)
  obtain ⟨text, hslice, -, hread, -⟩ := parse_node_text hlen houtcome hnode
  exact ⟨hlen, houtcome, text, hslice, hread⟩

end ExprFront
