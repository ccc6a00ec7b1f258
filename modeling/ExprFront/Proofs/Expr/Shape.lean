import ExprFront.Expr
import ExprFront.Grammar
import Mathlib.Tactic.Lemma

/-!
# Expressions up to spans

`mapSpans` changes every span of a tree, and `eraseSpans` forgets them: two trees are equal up to
spans when they are equal after `eraseSpans`. `Expr.Built` says that the names and the literals of a
tree satisfy given predicates and that no subscript is without arguments. `flatten` lists the kinds
of the tokens that a tree is written with.
-/

namespace ExprFront

/-- The keyword that a receiver is written with. -/
def Receiver.keyword : Receiver → Keyword
  | super => .super
  | self => .self

/-- A receiver is written as its keyword. -/
lemma Receiver.text_keyword (r : Receiver) : r.keyword.text = r.text := by
  cases r <;> rfl

namespace Literal

/-- The kind of the token that a literal is written with. -/
def tokenKind : Literal → TokenKind
  | nil => .keyword .nil
  | boolean true => .keyword .true
  | boolean false => .keyword .false
  | integer _ raw => .int raw
  | floatingPoint _ raw => .float raw
  | string value raw => .str value raw

/-- The value of a literal is the one that is read from its text. -/
def IsRead (l : Literal) : Prop := (Grammar.literalValue l.tokenKind).value = some l

/-- A literal is written as its token. -/
lemma text_tokenKind (l : Literal) : l.tokenKind.text = l.text := by
  cases l with
  | boolean b => cases b <;> rfl
  | _ => rfl

/-- No literal is read as a name. -/
lemma tokenKind_ne_ident (l : Literal) (name : String) : l.tokenKind ≠ .ident name := by
  cases l with
  | boolean b => cases b <;> simp [tokenKind]
  | _ => simp [tokenKind]

/-- No literal is read as a receiver. -/
lemma tokenKind_ne_receiver (l : Literal) (r : Receiver) : l.tokenKind ≠ .keyword r.keyword := by
  cases l with
  | boolean b => cases b <;> cases r <;> simp [tokenKind, Receiver.keyword]
  | _ => cases r <;> simp [tokenKind, Receiver.keyword]

/-- A literal that is read from a token kind is written with it. -/
lemma tokenKind_of_value {k : TokenKind} {l : Literal}
    (h : (Grammar.literalValue k).value = some l) : l.tokenKind = k := by
  cases k with
  | int raw =>
    simp only [Grammar.literalValue] at h
    split at h
    · cases h; rfl
    · cases h
  | float raw =>
    simp only [Grammar.literalValue] at h
    split at h
    · cases h; rfl
    · cases h
  | str value raw => cases h; rfl
  | keyword w => cases w <;> cases h <;> rfl
  | _ => cases h

end Literal

namespace Expr

/-- Induction over a tree, with a hypothesis for every argument of a subscript. -/
@[induction_eliminator]
theorem induction {motive : Expr → Prop}
    (identifier : ∀ name s, motive (.identifier name s))
    (literal : ∀ value s, motive (.literal value s))
    (selfRef : ∀ s, motive (.selfRef s))
    (method : ∀ r name s, motive (.method r name s))
    (initializer : ∀ r s, motive (.initializer r s))
    (subscript : ∀ r args s, (∀ e ∈ args, motive e) → motive (.subscript r args s)) :
    ∀ e, motive e
  | .identifier name s => identifier name s
  | .literal value s => literal value s
  | .selfRef s => selfRef s
  | .method r name s => method r name s
  | .initializer r s => initializer r s
  | .subscript r args s => subscript r args s fun e _ =>
    induction identifier literal selfRef method initializer subscript e
termination_by e => sizeOf e
decreasing_by
  have := List.sizeOf_lt_of_mem ‹_›
  simp only [Expr.subscript.sizeOf_spec]
  omega

mutual

/-- The tree with every span changed by a function. -/
def mapSpans (f : Span → Span) : Expr → Expr
  | identifier name s => .identifier name (f s)
  | literal value s => .literal value (f s)
  | selfRef s => .selfRef (f s)
  | method r name s => .method r name (f s)
  | initializer r s => .initializer r (f s)
  | subscript r args s => .subscript r (mapAllSpans f args) (f s)

/-- The trees with every span changed by a function. -/
def mapAllSpans (f : Span → Span) : List Expr → List Expr
  | [] => []
  | e :: es => mapSpans f e :: mapAllSpans f es

end

/-- The spans of several trees are changed in each of them. -/
lemma mapAllSpans_eq (f : Span → Span) (es : List Expr) :
    mapAllSpans f es = es.map (mapSpans f) := by
  induction es with
  | nil => rfl
  | cons e es ih => rw [mapAllSpans, ih, List.map_cons]

/-- The tree without its spans. -/
def eraseSpans (e : Expr) : Expr := e.mapSpans fun _ => .dummy

/-- The span of an identifier is erased. -/
@[simp]
lemma eraseSpans_identifier (name : String) (s : Span) :
    (identifier name s).eraseSpans = .identifier name .dummy := rfl

/-- The span of a literal is erased. -/
@[simp]
lemma eraseSpans_literal (l : Literal) (s : Span) :
    (literal l s).eraseSpans = .literal l .dummy := rfl

/-- The span of the current object is erased. -/
@[simp]
lemma eraseSpans_selfRef (s : Span) : (selfRef s).eraseSpans = .selfRef .dummy := rfl

/-- The span of a member is erased. -/
@[simp]
lemma eraseSpans_method (r : Receiver) (name : String) (s : Span) :
    (method r name s).eraseSpans = .method r name .dummy := rfl

/-- The span of an initializer is erased. -/
@[simp]
lemma eraseSpans_initializer (r : Receiver) (s : Span) :
    (initializer r s).eraseSpans = .initializer r .dummy := rfl

/-- The span of a subscript and those of its arguments are erased. -/
@[simp]
lemma eraseSpans_subscript (r : Receiver) (args : List Expr) (s : Span) :
    (subscript r args s).eraseSpans = .subscript r (args.map eraseSpans) .dummy := by
  rw [eraseSpans, mapSpans, mapAllSpans_eq]
  rfl

/-- The written form does not depend on spans. -/
@[simp]
lemma text_eraseSpans (e : Expr) : e.eraseSpans.text = e.text := by
  induction e with
  | subscript r args s ih =>
    have htexts : (args.map eraseSpans).map text = args.map text := by
      rw [List.map_map]
      exact List.map_congr_left ih
    rw [eraseSpans_subscript, text_subscript, text_subscript, htexts]
  | _ => simp

/-- The expression is the bare current object. -/
def IsSelfRef : Expr → Prop
  | selfRef _ => True
  | _ => False

/-- Which trees are a bare current object does not depend on spans. -/
@[simp]
lemma isSelfRef_eraseSpans (e : Expr) : e.eraseSpans.IsSelfRef ↔ e.IsSelfRef := by
  cases e <;> rfl

/-- The expression is a subscript of a receiver. -/
def IsSubscript : Expr → Prop
  | subscript _ _ _ => True
  | _ => False

/-- The names and literals of a tree satisfy the given predicates, and every subscript, at any
depth, has at least one argument. -/
inductive Built (N : String → Prop) (L : Literal → Prop) : Expr → Prop where
  | identifier {name s} (h : N name) : Built N L (.identifier name s)
  | literal {l s} (h : L l) : Built N L (.literal l s)
  | selfRef {s} : Built N L (.selfRef s)
  | method {r name s} (h : N name) : Built N L (.method r name s)
  | initializer {r s} : Built N L (.initializer r s)
  | subscript {r args s} (hne : args ≠ []) (h : ∀ e ∈ args, Built N L e) :
    Built N L (.subscript r args s)

/-- Well-formed trees: subscripts have arguments, and numbers have the values that are read from
their texts. -/
abbrev WellFormed : Expr → Prop := Built (fun _ => True) Literal.IsRead

/-- A tree that is built in a stricter way is built in a weaker one. -/
lemma Built.mono {N N' : String → Prop} {L L' : Literal → Prop} {e : Expr}
    (hN : ∀ name, N name → N' name) (hL : ∀ l, L l → L' l) (h : Built N L e) :
    Built N' L' e := by
  induction h with
  | identifier h => exact .identifier (hN _ h)
  | literal h => exact .literal (hL _ h)
  | selfRef => exact .selfRef
  | method h => exact .method (hN _ h)
  | initializer => exact .initializer
  | subscript hne _ ih => exact .subscript hne ih

mutual

/-- The kinds of the tokens that an expression is written with. -/
def flatten : Expr → List TokenKind
  | identifier name _ => [.ident name]
  | literal l _ => [l.tokenKind]
  | selfRef _ => [.keyword .self]
  | method r name _ => [.keyword r.keyword, .punct .dot, .ident name]
  | initializer r _ => [.keyword r.keyword, .punct .dot, .keyword .init]
  | subscript r args _ =>
    .keyword r.keyword :: .punct .lbracket :: (flattenAll args ++ [.punct .rbracket])

/-- The kinds of the tokens of expressions, with a comma between two of them. -/
def flattenAll : List Expr → List TokenKind
  | [] => []
  | [e] => flatten e
  | e :: e' :: es => flatten e ++ .punct .comma :: flattenAll (e' :: es)

end

/-- The tokens of expressions are those of each, and commas. -/
lemma mem_flattenAll_iff {k : TokenKind} {es : List Expr} :
    k ∈ flattenAll es ↔ (k = .punct .comma ∧ 1 < es.length) ∨ ∃ e ∈ es, k ∈ e.flatten := by
  induction es with
  | nil => simp [flattenAll]
  | cons e es ih =>
    cases es with
    | nil => simp [flattenAll]
    | cons e' es =>
      rw [flattenAll, List.mem_append, List.mem_cons, ih]
      simp only [List.length_cons, List.mem_cons, exists_eq_or_imp]
      grind

/-- Expressions are written with words: no token of theirs is an error or the end of file. -/
lemma kind_of_mem_flatten {k : TokenKind} {e : Expr} (h : k ∈ e.flatten) :
    k ≠ .error ∧ k ≠ .eof := by
  induction e with
  | literal l s =>
    obtain rfl := List.mem_singleton.1 h
    cases l with
    | boolean b => cases b <;> simp [Literal.tokenKind]
    | _ => simp [Literal.tokenKind]
  | subscript r args s ih =>
    simp only [flatten, List.mem_cons, List.mem_append, mem_flattenAll_iff, List.not_mem_nil,
      or_false] at h
    obtain rfl | rfl | (⟨rfl, -⟩ | ⟨e, he, hk⟩) | rfl := h
    · exact ⟨nofun, nofun⟩
    · exact ⟨nofun, nofun⟩
    · exact ⟨nofun, nofun⟩
    · exact ih e he hk
    · exact ⟨nofun, nofun⟩
  | identifier | selfRef | method | initializer =>
    simp only [flatten, List.mem_cons, List.not_mem_nil, or_false] at h
    grind

/-- No tree is written with an error token. -/
lemma error_not_mem_flatten (e : Expr) : TokenKind.error ∉ e.flatten :=
  fun h => (kind_of_mem_flatten h).1 rfl

/-- No tree is written with an end of file. -/
lemma eof_not_mem_flatten (e : Expr) : TokenKind.eof ∉ e.flatten :=
  fun h => (kind_of_mem_flatten h).2 rfl

/-- A closing bracket is written only for a subscript. -/
lemma rbracket_mem_flatten_iff {e : Expr} : .punct .rbracket ∈ e.flatten ↔ e.IsSubscript := by
  cases e with
  | literal l s =>
    cases l with
    | boolean b => cases b <;> simp [flatten, IsSubscript, Literal.tokenKind]
    | _ => simp [flatten, IsSubscript, Literal.tokenKind]
  | _ => simp [flatten, IsSubscript]

/-- A closing bracket is written in a list if one of its trees is a subscript. -/
lemma rbracket_mem_flattenAll_iff {es : List Expr} :
    .punct .rbracket ∈ flattenAll es ↔ ∃ e ∈ es, e.IsSubscript := by
  simp [mem_flattenAll_iff, rbracket_mem_flatten_iff]

/-- A well-formed tree is built from the names and the literals of its tokens. -/
lemma Built.of_flatten {N : String → Prop} {L : Literal → Prop} {e : Expr} (h : e.WellFormed)
    (hN : ∀ name, .ident name ∈ e.flatten → N name)
    (hL : ∀ l : Literal, l.IsRead → l.tokenKind ∈ e.flatten → L l) : e.Built N L := by
  induction h with
  | identifier => exact .identifier (hN _ (by simp [flatten]))
  | literal h => exact .literal (hL _ h (by simp [flatten]))
  | selfRef => exact .selfRef
  | method => exact .method (hN _ (by simp [flatten]))
  | initializer => exact .initializer
  | @subscript r args s hne _ ih =>
    have hsub : ∀ e ∈ args, ∀ k ∈ e.flatten, k ∈ (Expr.subscript r args s).flatten := by
      intro e he k hk
      have hall := mem_flattenAll_iff.2 (.inr ⟨e, he, hk⟩)
      simp [flatten, hall]
    exact .subscript hne fun e he => ih e he (fun name hname => hN name (hsub e he _ hname))
      fun l hread hl => hL l hread (hsub e he _ hl)

end Expr

end ExprFront
