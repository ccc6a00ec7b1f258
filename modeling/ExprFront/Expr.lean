import ExprFront.Numeral
import ExprFront.Token

/-!
# Expressions

Primary expressions: identifiers, literals, and what can be reached through `super` and `self`.
Every node carries its span. Numbers and strings keep the text they were written with.

Two expressions are equal when they have the same shape, spans, names and texts, and their values
are equal; floating point values are compared as numbers, so that an expression with a NaN is not
equal to itself. An expression is written the way it is read: `text_subscript` and its neighbours
give the written form of each node from those of its parts. The pre-order walk of a tree has a node
before its arguments, and these in order, each with all its own nodes.
-/

namespace ExprFront

/-- A literal value. -/
inductive Literal where
  | nil
  | boolean (value : Bool)
  | integer (value : Int64) (raw : String)
  | floatingPoint (value : Binary64) (raw : String)
  | string (value raw : String)
  deriving DecidableEq, Repr

namespace Literal

/-- The name of the kind of a literal. -/
def kindName : Literal → String
  | nil => "nil"
  | boolean _ => "boolean"
  | integer _ _ => "integer"
  | floatingPoint _ _ => "floating_point"
  | string _ _ => "string"

/-- The written form of a literal. -/
def text : Literal → String
  | nil => "nil"
  | boolean true => "true"
  | boolean false => "false"
  | integer _ raw => raw
  | floatingPoint _ raw => raw
  | string _ raw => raw

end Literal

/-- What a reference starts from: the superclass (`super`) or the current object (`self`). -/
inductive Receiver where
  | super
  | self
  deriving DecidableEq, Repr

/-- The spelling of a receiver. -/
def Receiver.text : Receiver → String
  | super => "super"
  | self => "self"

/-- An expression. -/
inductive Expr where
  /-- A variable or function: `foo`. -/
  | identifier (name : String) (span : Span)
  /-- A literal value. -/
  | literal (value : Literal) (span : Span)
  /-- The current object itself: `self`. -/
  | selfRef (span : Span)
  /-- A member of a receiver: `super.foo`. -/
  | method (receiver : Receiver) (name : String) (span : Span)
  /-- The initializer of a receiver: `self.init`. -/
  | initializer (receiver : Receiver) (span : Span)
  /-- A subscript of a receiver: `super[a, b]`. -/
  | subscript (receiver : Receiver) (arguments : List Expr) (span : Span)
  deriving Repr

namespace Expr

/-- The span of the node. -/
def span : Expr → Span
  | identifier _ s => s
  | literal _ s => s
  | selfRef s => s
  | method _ _ s => s
  | initializer _ s => s
  | subscript _ _ s => s

/-- The arguments of a subscript; other nodes have none. -/
def arguments : Expr → List Expr
  | subscript _ args _ => args
  | _ => []

/-- The name of the node in dumps. -/
def nodeName : Expr → String
  | identifier _ _ => "identifier_expr"
  | literal _ _ => "literal_expr"
  | selfRef _ => "self_expr"
  | method .super _ _ | initializer .super _ | subscript .super _ _ => "superclass_expr"
  | method .self _ _ | initializer .self _ | subscript .self _ _ => "self_expr"

end Expr

/-- Equality of kind, value and text, where floating point values are compared as numbers. -/
def Literal.equal : Literal → Literal → Bool
  | floatingPoint x raw, floatingPoint y raw' => x.equal y && raw == raw'
  | l, m => l == m

namespace Expr

mutual

/-- Equality of two trees, spans and texts included. Floating point values are compared as
numbers. -/
def equal : Expr → Expr → Bool
  | identifier n s, identifier n' s' => n == n' && s == s'
  | literal l s, literal l' s' => l.equal l' && s == s'
  | selfRef s, selfRef s' => s == s'
  | method r n s, method r' n' s' => r == r' && n == n' && s == s'
  | initializer r s, initializer r' s' => r == r' && s == s'
  | subscript r as s, subscript r' as' s' => r == r' && s == s' && equalAll as as'
  | _, _ => false

/-- Equality of two lists of trees, one by one. -/
def equalAll : List Expr → List Expr → Bool
  | [], [] => true
  | e :: es, e' :: es' => equal e e' && equalAll es es'
  | _, _ => false

end

mutual

/-- A text with the written form of an expression after it. -/
def appendTo (out : String) : Expr → String
  | identifier name _ => out ++ name
  | literal value _ => out ++ value.text
  | selfRef _ => out ++ "self"
  | method r name _ => out ++ r.text ++ "." ++ name
  | initializer r _ => out ++ r.text ++ ".init"
  | subscript r args _ => appendAllTo (out ++ r.text ++ "[") args ++ "]"

/-- A text with the written forms of expressions after it, a comma between two of them. -/
def appendAllTo (out : String) : List Expr → String
  | [] => out
  | [e] => appendTo out e
  | e :: e' :: es => appendAllTo (appendTo out e ++ ", ") (e' :: es)

end

/-- The written form of an expression. -/
def text (e : Expr) : String := e.appendTo ""

mutual

/-- The text of a tree is put behind what has been written. -/
theorem appendTo_eq (out : String) (e : Expr) : e.appendTo out = out ++ e.text := by
  cases e with
  | identifier name s => simp [text, appendTo]
  | literal value s => simp [text, appendTo]
  | selfRef s => simp [text, appendTo]
  | method r name s => simp [text, appendTo, String.append_assoc]
  | initializer r s => simp [text, appendTo, String.append_assoc]
  | subscript r args s =>
    simp only [text, appendTo, String.empty_append]
    rw [appendAllTo_eq _ args, appendAllTo_eq (r.text ++ "[") args]
    simp only [String.append_assoc]

/-- The texts of trees are put behind what has been written, with commas between them. -/
theorem appendAllTo_eq (out : String) (es : List Expr) :
    appendAllTo out es = out ++ ", ".intercalate (es.map text) := by
  match es with
  | [] => simp [appendAllTo]
  | [e] => simp [appendAllTo, appendTo_eq out e]
  | e :: e' :: es =>
    rw [appendAllTo, appendAllTo_eq _ (e' :: es), appendTo_eq out e]
    simp only [List.map_cons, String.intercalate_cons_cons, String.append_assoc]

end

/-- A name is written as it is. -/
@[simp]
theorem text_identifier (name : String) (s : Span) : (identifier name s).text = name := by
  simp [text, appendTo]

/-- A literal is written as its text. -/
@[simp]
theorem text_literal (value : Literal) (s : Span) : (literal value s).text = value.text := by
  simp [text, appendTo]

/-- The current object is written as the keyword. -/
@[simp]
theorem text_selfRef (s : Span) : (selfRef s).text = "self" := by
  simp [text, appendTo]

/-- A member is written behind the receiver and a dot. -/
@[simp]
theorem text_method (r : Receiver) (name : String) (s : Span) :
    (method r name s).text = r.text ++ "." ++ name := by
  simp [text, appendTo]

/-- An initializer is written behind the receiver and a dot. -/
@[simp]
theorem text_initializer (r : Receiver) (s : Span) :
    (initializer r s).text = r.text ++ ".init" := by
  simp [text, appendTo]

/-- The arguments of a subscript stand between brackets, separated by commas. -/
@[simp]
theorem text_subscript (r : Receiver) (args : List Expr) (s : Span) :
    (subscript r args s).text =
      r.text ++ "[" ++ ", ".intercalate (args.map text) ++ "]" := by
  simp [text, appendTo, appendAllTo_eq]

mutual

/-- The nodes of a tree in reverse pre-order, each with its depth, before those in `done`. -/
def nodesOnto (depth : Nat) (done : List (Nat × Expr)) : Expr → List (Nat × Expr)
  | subscript r args s => allNodesOnto (depth + 1) ((depth, subscript r args s) :: done) args
  | e => (depth, e) :: done

/-- The nodes of trees in reverse pre-order, each with its depth, before those in `done`. -/
def allNodesOnto (depth : Nat) (done : List (Nat × Expr)) : List Expr → List (Nat × Expr)
  | [] => done
  | e :: es => allNodesOnto depth (nodesOnto depth done e) es

end

/-- The nodes of a tree in pre-order, each with its depth; the root has the given one. -/
def nodesFrom (depth : Nat) (e : Expr) : List (Nat × Expr) := (nodesOnto depth [] e).reverse

/-- The nodes of a tree in pre-order, each with its depth. -/
def nodes (e : Expr) : List (Nat × Expr) := e.nodesFrom 0

mutual

/-- The nodes of a tree are put before those that have been listed. -/
theorem nodesOnto_eq (depth : Nat) (done : List (Nat × Expr)) (e : Expr) :
    nodesOnto depth done e = (e.nodesFrom depth).reverse ++ done := by
  cases e with
  | subscript r args s =>
    simp only [nodesFrom, nodesOnto, List.reverse_reverse]
    rw [allNodesOnto_eq _ _ args, allNodesOnto_eq _ [_] args]
    simp
  | _ => simp [nodesFrom, nodesOnto]

/-- The nodes of trees are put before those that have been listed. -/
theorem allNodesOnto_eq (depth : Nat) (done : List (Nat × Expr)) (es : List Expr) :
    allNodesOnto depth done es = (es.flatMap (nodesFrom depth)).reverse ++ done := by
  match es with
  | [] => simp [allNodesOnto]
  | e :: es =>
    rw [allNodesOnto, allNodesOnto_eq _ _ es, nodesOnto_eq _ done e]
    simp

end

/-- A subscript comes before the nodes of its arguments, one level up. -/
theorem nodesFrom_subscript (depth : Nat) (r : Receiver) (args : List Expr) (s : Span) :
    (subscript r args s).nodesFrom depth =
      (depth, subscript r args s) :: args.flatMap (nodesFrom (depth + 1)) := by
  simp [nodesFrom, nodesOnto, allNodesOnto_eq]

end Expr

end ExprFront
