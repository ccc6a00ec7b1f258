import ExprFront.Decl
import ExprFront.Diagnostic
import ExprFront.Source
import ExprFront.Text

/-!
# Dumps

A dump shows a tree line by line: a heading with the name and the range of a node, its fields, and
its children one level deeper, numbered from zero.

Headings may be colored. Color tags are escape sequences around a text, and can be removed again: a
sequence starts with the escape character and an opening bracket and ends with the next `m`.
-/

namespace ExprFront

/-- The colors of dumps. -/
inductive Color where
  | magenta
  | yellow
  deriving DecidableEq, Repr

/-- The sequence that turns a color on. -/
def Color.code : Color → String
  | magenta => "\x1b[35m"
  | yellow => "\x1b[33m"

/-- The sequence that turns colors off. -/
def colorReset : String := "\x1b[0m"

/-- A text in a color, if colors are enabled. -/
def colored (s : String) (color : Color) (enabled : Bool) : String :=
  if enabled then color.code ++ s ++ colorReset else s

/-- When dumps are colored. -/
inductive ColorMode where
  | auto
  | always
  | never
  deriving DecidableEq, Repr, Inhabited

/-- Whether a mode colors an output; only `auto` asks whether it is a terminal. -/
def ColorMode.usesColors (mode : ColorMode) (isTerminal : Bool) : Bool :=
  match mode with
  | auto => isTerminal
  | always => true
  | never => false

/-- How a dump is written. -/
structure DumpOptions where
  color : ColorMode := .auto
  isTerminal : Bool := false
  deriving DecidableEq, Repr

/-- Whether a dump is colored. -/
def DumpOptions.usesColors (o : DumpOptions) : Bool := o.color.usesColors o.isTerminal

/-- The characters outside color sequences, after `done` in reverse; `inside` says that the text
starts within a sequence. -/
def stripOnto (done : List Char) (inside : Bool) : List Char → List Char
  | [] => done.reverse
  | c :: cs =>
    if inside then stripOnto done (c ≠ 'm') cs
    else if c = '\x1b' ∧ cs.head? = some '[' then stripOnto done true cs
    else stripOnto (c :: done) false cs

/-- What has been kept stands before what is kept of the rest. -/
theorem stripOnto_eq (done : List Char) (inside : Bool) (cs : List Char) :
    stripOnto done inside cs = done.reverse ++ stripOnto [] inside cs := by
  induction cs generalizing done inside with
  | nil => simp [stripOnto]
  | cons c cs ih =>
    simp only [stripOnto]
    split
    · exact ih done _
    · split
      · exact ih done true
      · rw [ih, ih [c]]
        simp

/-- A text without its color sequences. A sequence without an end reaches to the end of the text. -/
def stripColors (s : String) : String := String.ofList (stripOnto [] false s.toList)

/-- What is needed to dump nodes of one source unit. -/
structure Dumper where
  source : SourceUnit
  colors : Bool

/-- A dump that cannot be made. -/
inductive DumpError where
  | emptyInitializers
  deriving DecidableEq, Repr

namespace DumpError

/-- The code of the error. -/
def code : DumpError → ErrorCode
  | emptyInitializers => .brokenInvariant

/-- The wording of the error. -/
def message : DumpError → String
  | emptyInitializers => "pattern initializer list is empty"

end DumpError

namespace Dumper

/-- The dumper for a unit. -/
def ofOptions (source : SourceUnit) (options : DumpOptions) : Dumper :=
  ⟨source, options.usesColors⟩

/-- The heading of a node. -/
def heading (d : Dumper) (name : String) (span : Span) : String :=
  colored name .magenta d.colors ++ " " ++
  colored ("<range: " ++ d.source.describe span ++ ">") .yellow d.colors

/-- The fields of an expression, on the lines after its heading; arguments come after them. -/
def fields : Expr → String
  | .identifier name _ => "identifier: `" ++ name ++ "`"
  | .literal value _ => "kind: `" ++ value.kindName ++ "`, literal: `" ++ value.text ++ "`"
  | .selfRef _ => "kind: `self`"
  | .method _ name _ => "kind: `method`, name: `" ++ name ++ "`"
  | .initializer _ _ => "kind: `initializer`"
  | .subscript _ _ _ => "kind: `subscript`\narguments:"

/-- The heading and fields of an expression. -/
def node (d : Dumper) (e : Expr) : Block :=
  (Block.ofText (d.heading e.nodeName e.span)).above (Block.ofText (fields e))

mutual

/-- The dump of an expression. -/
def expr (d : Dumper) : Expr → Block
  | .subscript r args s =>
    (d.node (.subscript r args s)).above (Block.indexed (exprs d args)).indent
  | e => d.node e

/-- The dumps of expressions. -/
def exprs (d : Dumper) : List Expr → List Block
  | [] => []
  | e :: es => expr d e :: exprs d es

end

/-- The dump of a list of expressions, numbered. -/
def expressions (d : Dumper) (es : List Expr) : Block := Block.indexed (d.exprs es)

/-- The dump of the result of a function. -/
def functionResult (r : FunctionResult) : Block :=
  let type := "return_type: `" ++ r.type.text ++ "`"
  Block.ofText <|
    if r.attributes.isEmpty then type
    else type ++ " with attributes `" ++ Attribute.listText r.attributes ++ "`"

/-- The dump of a signature: a part for each thing that it says. -/
def signature (s : Signature) : Block :=
  let parameters := if s.parameters.isEmpty then [] else
    [(Block.ofText "parameters:").above
      (Block.indexed (s.parameters.map fun p => Block.ofText p.text))]
  let throwing := if s.throwing = .nothrowing then [] else
    [Block.ofText ("throws_kind: `" ++ s.throwing.text ++ "`")]
  Block.stack (parameters ++ throwing ++ (s.result.map functionResult).toList)

/-- The dump of a condition. -/
def condition (d : Dumper) : Condition → Block
  | .expression e => d.expr e
  | .availability platforms => Block.ofText (availabilityText platforms)
  | .binding word pattern e =>
    (Block.ofText (word.label ++ ": `" ++ pattern.text ++ "`")).above (d.expr e).indent

/-- The dump of a list of conditions, numbered under a title. -/
def conditions (d : Dumper) (cs : List Condition) : Block :=
  (Block.ofText "conditions:").above (Block.indexed (cs.map d.condition))

/-- The dump of a pattern with its initial value. -/
def patternInitializer (d : Dumper) (i : PatternInitializer) : Block :=
  let pattern := Block.ofText ("pattern: " ++ i.pattern.text)
  match i.initializer with
  | some e => pattern.above (d.expr e).indent
  | none => pattern

/-- The dump of pattern initializers: a single one by itself, more of them numbered under a title. A
list without any comes from no source. -/
def patternInitializers? (d : Dumper) : List PatternInitializer → Except DumpError Block
  | [] => .error .emptyInitializers
  | [i] => .ok (d.patternInitializer i)
  | is => .ok <| (Block.ofText "pattern_initializers:").above
      (Block.indexed (is.map d.patternInitializer))

/-- What stands for an empty list of pattern initializers. -/
def noInitializers : String := "<no_pattern_initializers>"

/-- The dump of pattern initializers; an empty list is noted and shown by a marker. -/
def patternInitializers (d : Dumper) (is : List PatternInitializer) : Traced Block :=
  match d.patternInitializers? is with
  | .ok block => pure block
  | .error .emptyInitializers =>
    ⟨Block.ofText noInitializers, .one .initializersMissing⟩

end Dumper

/-- The dump of an expression whose spans point into a unit. -/
def dumpExpr (e : Expr) (source : SourceUnit) (options : DumpOptions) : String :=
  ((Dumper.ofOptions source options).expr e).text

end ExprFront
