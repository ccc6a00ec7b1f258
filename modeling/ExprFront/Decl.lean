import ExprFront.Expr

/-!
# Declarations

The parts of declarations as they are written, without meaning: types and attributes, patterns that
bind or test a value, the conditions of `if`, `guard` and `while`, and the signatures of functions.
Each of them has a written form.
-/

namespace ExprFront

/-- The written forms of several things, separated by commas. -/
def commaSeparated (texts : List String) : String := ", ".intercalate texts

/-- A written type. -/
inductive TypeExpr where
  /-- A name with generic arguments: `Int`, `Map<Key, Value>`. -/
  | named (name : String) (arguments : List TypeExpr)
  /-- An optional type: `Int?`. -/
  | optional (wrapped : TypeExpr)
  /-- An array type: `[Int]`. -/
  | array (element : TypeExpr)
  /-- A dictionary type: `[String: Int]`. -/
  | dictionary (key value : TypeExpr)
  /-- A tuple type: `(Int, String)`. -/
  | tuple (elements : List TypeExpr)
  deriving Repr, Inhabited

namespace TypeExpr

/-- The written form of a named type, given those of its arguments. -/
def genericText (name : String) (arguments : List String) : String :=
  if arguments.isEmpty then name else name ++ "<" ++ commaSeparated arguments ++ ">"

mutual

/-- The written form of a type. -/
def text : TypeExpr → String
  | named name args => genericText name (texts args)
  | optional t => text t ++ "?"
  | array t => "[" ++ text t ++ "]"
  | dictionary k v => "[" ++ text k ++ ": " ++ text v ++ "]"
  | tuple ts => "(" ++ commaSeparated (texts ts) ++ ")"

/-- The written forms of types. -/
def texts : List TypeExpr → List String
  | [] => []
  | t :: ts => text t :: texts ts

end

mutual

/-- Equality of types. -/
def equal : TypeExpr → TypeExpr → Bool
  | named n ts, named n' ts' => n == n' && equalAll ts ts'
  | optional t, optional t' => equal t t'
  | array t, array t' => equal t t'
  | dictionary k v, dictionary k' v' => equal k k' && equal v v'
  | tuple ts, tuple ts' => equalAll ts ts'
  | _, _ => false

/-- Equality of lists of types, one by one. -/
def equalAll : List TypeExpr → List TypeExpr → Bool
  | [], [] => true
  | t :: ts, t' :: ts' => equal t t' && equalAll ts ts'
  | _, _ => false

end

end TypeExpr

/-- An attribute: `@name` or `@name(argument)`. -/
structure Attribute where
  name : String
  argument : Option String
  deriving DecidableEq, Repr

namespace Attribute

/-- The written form of an attribute. -/
def text (a : Attribute) : String :=
  match a.argument with
  | none => "@" ++ a.name
  | some argument => "@" ++ a.name ++ "(" ++ argument ++ ")"

/-- The written form of attributes, separated by spaces. -/
def listText (as : List Attribute) : String := " ".intercalate (as.map text)

end Attribute

/-- A pattern. -/
inductive Pattern where
  /-- Anything: `_` or `_: Int`. -/
  | wildcard (type : Option TypeExpr)
  /-- A name: `x` or `x: Int`. -/
  | identifier (name : String) (type : Option TypeExpr)
  /-- A tuple: `(a, b)`. -/
  | tuple (elements : List Pattern)
  /-- A case of an enumeration: `.none`, `Shape.circle(r)`. -/
  | enumCase (typeName : Option String) (caseName : String) (associated : Option (List Pattern))
  /-- A value that is present: `x?`. -/
  | optional (wrapped : Pattern)
  /-- An expression to compare with. -/
  | expression (expr : Expr)

namespace Pattern

/-- The written form of a type after a pattern. -/
def annotation : Option TypeExpr → String
  | some t => ": " ++ t.text
  | none => ""

mutual

/-- The written form of a pattern. -/
def text : Pattern → String
  | wildcard type => "_" ++ annotation type
  | identifier name type => name ++ annotation type
  | tuple ps => "(" ++ commaSeparated (texts ps) ++ ")"
  | enumCase typeName caseName none => typeName.getD "" ++ "." ++ caseName
  | enumCase typeName caseName (some ps) =>
    typeName.getD "" ++ "." ++ caseName ++ "(" ++ commaSeparated (texts ps) ++ ")"
  | optional p => text p ++ "?"
  | expression e => e.text

/-- The written forms of patterns. -/
def texts : List Pattern → List String
  | [] => []
  | p :: ps => text p :: texts ps

end

/-- Equality of types that may be missing. -/
def equalAnnotation : Option TypeExpr → Option TypeExpr → Bool
  | none, none => true
  | some t, some t' => t.equal t'
  | _, _ => false

mutual

/-- Equality of patterns. -/
def equal : Pattern → Pattern → Bool
  | wildcard t, wildcard t' => equalAnnotation t t'
  | identifier n t, identifier n' t' => n == n' && equalAnnotation t t'
  | tuple ps, tuple ps' => equalAll ps ps'
  | enumCase t c none, enumCase t' c' none => t == t' && c == c'
  | enumCase t c (some ps), enumCase t' c' (some ps') => t == t' && c == c' && equalAll ps ps'
  | optional p, optional p' => equal p p'
  | expression e, expression e' => e.equal e'
  | _, _ => false

/-- Equality of lists of patterns, one by one. -/
def equalAll : List Pattern → List Pattern → Bool
  | [], [] => true
  | p :: ps, p' :: ps' => equal p p' && equalAll ps ps'
  | _, _ => false

end

end Pattern

/-- A pattern with its initial value, if it has one. -/
structure PatternInitializer where
  pattern : Pattern
  initializer : Option Expr

/-- The written form of a pattern with its initial value. -/
def PatternInitializer.text (i : PatternInitializer) : String :=
  match i.initializer with
  | some e => i.pattern.text ++ " = " ++ e.text
  | none => i.pattern.text

/-- An argument of an availability test: a platform with an optional version, or `*`. -/
inductive Platform where
  | named (name : String) (version : Option String)
  | all
  deriving DecidableEq, Repr

/-- The written form of an argument of an availability test. -/
def Platform.text : Platform → String
  | named name (some version) => name ++ " " ++ version
  | named name none => name
  | all => "*"

/-- The written form of an availability test. -/
def availabilityText (platforms : List Platform) : String :=
  "#available(" ++ commaSeparated (platforms.map Platform.text) ++ ")"

/-- The word that introduces a binding condition. -/
inductive BindingWord where
  | caseWord
  | letWord
  | varWord
  deriving DecidableEq, Repr

namespace BindingWord

/-- The spelling of the word. -/
def text : BindingWord → String
  | caseWord => "case"
  | letWord => "let"
  | varWord => "var"

/-- The label of the binding in dumps. -/
def label : BindingWord → String
  | caseWord => "case_binding"
  | letWord => "constant_optional_binding"
  | varWord => "variable_optional_binding"

end BindingWord

/-- A condition. -/
inductive Condition where
  /-- An expression that has to be true. -/
  | expression (expr : Expr)
  /-- A test for platforms. -/
  | availability (platforms : List Platform)
  /-- A pattern that has to match: `let x = e`. -/
  | binding (word : BindingWord) (pattern : Pattern) (expr : Expr)

namespace Condition

/-- The written form of a condition. -/
def text : Condition → String
  | expression e => e.text
  | availability platforms => availabilityText platforms
  | binding word pattern e => word.text ++ " " ++ pattern.text ++ " = " ++ e.text

/-- Equality of conditions. -/
def equal : Condition → Condition → Bool
  | expression e, expression e' => e.equal e'
  | availability ps, availability ps' => ps == ps'
  | binding w p e, binding w' p' e' => w == w' && p.equal p' && e.equal e'
  | _, _ => false

end Condition

/-- Whether and how a function passes errors on. -/
inductive Throwing where
  | nothrowing
  | throwing
  | rethrowing
  deriving DecidableEq, Repr, Inhabited

/-- The written form of a way of throwing. -/
def Throwing.text : Throwing → String
  | nothrowing => "nothrowing"
  | throwing => "throws"
  | rethrowing => "rethrows"

/-- A parameter: `external local: Type = default`. -/
structure Parameter where
  externalName : Option String
  localName : String
  type : TypeExpr
  defaultArgument : Option Expr
  variadic : Bool

namespace Parameter

/-- The written form of a parameter. -/
def text (p : Parameter) : String :=
  (match p.externalName with
    | some name => name ++ " "
    | none => "") ++
  p.localName ++ ": " ++ p.type.text ++
  (if p.variadic then "..." else "") ++
  (match p.defaultArgument with
    | some e => " = " ++ e.text
    | none => "")

/-- Equality of parameters. -/
def equal (p q : Parameter) : Bool :=
  p.externalName == q.externalName && p.localName == q.localName && p.type.equal q.type &&
  p.variadic == q.variadic &&
  match p.defaultArgument, q.defaultArgument with
  | none, none => true
  | some e, some e' => e.equal e'
  | _, _ => false

end Parameter

/-- The result of a function: `-> @attributes Type`. -/
structure FunctionResult where
  attributes : List Attribute
  type : TypeExpr

namespace FunctionResult

/-- The written form of a result. -/
def text (r : FunctionResult) : String :=
  "-> " ++ (if r.attributes.isEmpty then "" else Attribute.listText r.attributes ++ " ") ++
  r.type.text

/-- Equality of results. -/
def equal (r s : FunctionResult) : Bool := r.attributes == s.attributes && r.type.equal s.type

end FunctionResult

/-- The signature of a function. -/
structure Signature where
  parameters : List Parameter
  throwing : Throwing
  result : Option FunctionResult

namespace Signature

/-- The written form of a signature. -/
def text (s : Signature) : String :=
  "(" ++ commaSeparated (s.parameters.map Parameter.text) ++ ")" ++
  (if s.throwing = .nothrowing then "" else " " ++ s.throwing.text) ++
  (match s.result with
    | some r => " " ++ r.text
    | none => "")

/-- Equality of signatures. -/
def equal (s t : Signature) : Bool :=
  s.parameters.length == t.parameters.length &&
  (s.parameters.zip t.parameters).all (fun p => p.1.equal p.2) &&
  s.throwing == t.throwing &&
  match s.result, t.result with
  | none, none => true
  | some r, some r' => r.equal r'
  | _, _ => false

end Signature

end ExprFront
