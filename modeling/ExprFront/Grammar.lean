import ExprFront.Diagnostic
import ExprFront.Expr

/-!
# The expression grammar

An expression is a literal, an identifier, or a receiver with a continuation:

    primary      = literal | identifier | `super` continuation | `self` [continuation]
    continuation = `.` `init` | `.` identifier | `[` primary (`,` primary)* `]`

The rules look at the front of a token list and change nothing: they build a node and say how many
tokens it spans, or say that nothing matches there. A receiver `self` that no valid continuation
follows stands for itself.

Where no expression matches, the error says what stands in the way: usually the head token itself,
but after `super` the token that cannot continue it, and in a subscript the element or separator
that went wrong.
-/

namespace ExprFront

/-- The outcome of a recognizer. A match spans at least one token. -/
inductive Recognized (α : Type) where
  | matched (node : α) (advancedBy : Nat)
  | noMatch
  deriving DecidableEq, Repr

namespace Recognized

variable {α β : Type} {m : Type → Type}

/-- Whether there is a match. -/
def isMatch : Recognized α → Bool
  | matched _ _ => true
  | noMatch => false

/-- The number of tokens spanned; zero without a match. -/
def advancedBy : Recognized α → Nat
  | matched _ n => n
  | noMatch => 0

/-- The node of a match. -/
def node? : Recognized α → Option α
  | matched a _ => some a
  | noMatch => none

/-- The outcome with its node changed by a computation, which runs only on a match. -/
def mapM [Monad m] (f : α → m β) : Recognized α → m (Recognized β)
  | matched a n => do return matched (← f a) n
  | noMatch => pure noMatch

/-- The outcome with its node changed. -/
def map (f : α → β) : Recognized α → Recognized β
  | matched a n => matched (f a) n
  | noMatch => noMatch

/-- The outcome, or that of an alternative, which runs only without a match. -/
def orElseM [Monad m] (alternative : Unit → m (Recognized α)) :
    Recognized α → m (Recognized α)
  | matched a n => pure (matched a n)
  | noMatch => alternative ()

/-- The first match of several alternatives; those after it do not run. -/
def firstM [Monad m] : List (Unit → m (Recognized α)) → m (Recognized α)
  | [] => pure noMatch
  | alternative :: rest => do orElseM (fun _ => firstM rest) (← alternative ())

end Recognized

/-- What follows a receiver. -/
inductive Continuation where
  | method (name : String)
  | initializer
  | subscript (arguments : List Expr)

/-- A receiver with its continuation. -/
def Continuation.toExpr (receiver : Receiver) (span : Span) : Continuation → Expr
  | method name => .method receiver name span
  | initializer => .initializer receiver span
  | subscript args => .subscript receiver args span

/-- How the reading of a bracketed list ended. Positions count from the opening bracket. -/
inductive ListEnd where
  /-- At a closing bracket, after the given elements. -/
  | closed (elements : List Expr) (bracket : Span) (position : Nat)
  /-- Before `rest`, which does not start with an element, after `count` elements. -/
  | noElement (count : Nat) (rest : TokenList)
  /-- After an element, at a token that is neither a comma nor a closing bracket. -/
  | noSeparator (position : Nat) (rest : TokenList)

namespace Grammar

/-- The literal that a token stands for. -/
def literalValue (kind : TokenKind) : Traced (Option Literal) :=
  match kind with
  | .keyword .nil => pure (some .nil)
  | .keyword .true => pure (some (.boolean true))
  | .keyword .false => pure (some (.boolean false))
  | .int raw =>
    match Numeral.integer? raw.toList with
    | some n => pure (some (.integer n raw))
    | none => ⟨none, .one (.integerOutOfRange raw)⟩
  | .float raw =>
    match Numeral.float? raw.toList with
    | some x => pure (some (.floatingPoint x raw))
    | none => ⟨none, .one (.malformedFloat raw)⟩
  | .str value raw => pure (some (.string value raw))
  | _ => pure none

/-- A literal: `42`, `3.5`, `"text"`, `true`, `nil`. -/
def literal : TokenList → Traced (Recognized Expr)
  | [] => pure .noMatch
  | head :: _ => do
    match ← literalValue head.kind with
    | some value => pure (.matched (.literal value head.span) 1)
    | none => pure .noMatch

/-- An identifier: `foo`. -/
def identifier : TokenList → Traced (Recognized Expr)
  | ⟨.ident name, span⟩ :: _ => pure (.matched (.identifier name span) 1)
  | _ => pure .noMatch

mutual

/-- A primary expression. The head token decides which rule applies. -/
def primary : TokenList → Traced (Recognized Expr)
  | [] => pure .noMatch
  | head :: rest =>
    let found := match head.kind with
      | .ident _ => identifier (head :: rest)
      | .keyword .super => superReference (head :: rest)
      | .keyword .self => selfReference (head :: rest)
      | _ => literal (head :: rest)
    ⟨found.value, .one (.primaryTried head) ++ found.log⟩
termination_by ts => 4 * ts.length + 2

/-- A reference through `super`: `super.name`, `super[args]`, `super.init`. -/
def superReference : TokenList → Traced (Recognized Expr)
  | ⟨.keyword .super, span⟩ :: rest =>
    let found := continuation rest
    match found.value with
    | .matched (c, stop) n => ⟨.matched (c.toExpr .super (span.merge stop)) (n + 1), found.log⟩
    | .noMatch =>
      ⟨.noMatch, found.log ++ .one (.superNotContinued (rest.head?.map Token.kind))⟩
  | _ => pure .noMatch
termination_by ts => 4 * ts.length + 1

/-- A reference through `self`: `self`, `self.name`, `self[args]`, `self.init`. -/
def selfReference : TokenList → Traced (Recognized Expr)
  | ⟨.keyword .self, span⟩ :: rest =>
    let found := continuation rest
    match found.value with
    | .matched (c, stop) n => ⟨.matched (c.toExpr .self (span.merge stop)) (n + 1), found.log⟩
    | .noMatch => ⟨.matched (.selfRef span) 1, found.log⟩
  | _ => pure .noMatch
termination_by ts => 4 * ts.length + 1

/-- What follows a receiver, with the span of its last token. -/
def continuation : TokenList → Traced (Recognized (Continuation × Span))
  | ⟨.punct .dot, _⟩ :: member :: _ =>
    match member.kind with
    | .keyword .init => pure (.matched (.initializer, member.span) 2)
    | .ident name => pure (.matched (.method name, member.span) 2)
    | _ => pure .noMatch
  | ⟨.punct .lbracket, span⟩ :: rest =>
    let found := bracketedList (⟨.punct .lbracket, span⟩ :: rest)
    ⟨found.value.map fun list => (.subscript list.1, list.2), found.log⟩
  | _ => pure .noMatch
termination_by ts => 4 * ts.length + 1

/-- A list in brackets, with at least one element and no comma after the last. The node is the
elements with the span from bracket to bracket. -/
def bracketedList : TokenList → Traced (Recognized (List Expr × Span))
  | ⟨.punct .lbracket, span⟩ :: rest =>
    let found := elements [] 1 .none rest
    match found.value with
    | .closed es bracket position =>
      ⟨.matched (es, span.merge bracket) (position + 1), found.log⟩
    | .noElement count _ => ⟨.noMatch, found.log ++ .one (.elementRejected count)⟩
    | .noSeparator position _ => ⟨.noMatch, found.log ++ .one (.listNotClosed position)⟩
  | _ => pure .noMatch
termination_by ts => 4 * ts.length

/-- The rest of a list from an element on, at `position`, after the elements in `done` in reverse
and the events in `log`. -/
def elements (done : List Expr) (position : Nat) (log : Log) (ts : TokenList) : Traced ListEnd :=
  let found := primary ts
  match found.value with
  | .noMatch => ⟨.noElement done.length ts, log ++ found.log⟩
  | .matched e n =>
    match _rest : ts.drop n with
    | ⟨.punct .comma, _⟩ :: rest =>
      elements (e :: done) (position + n + 1) (log ++ found.log) rest
    | ⟨.punct .rbracket, span⟩ :: _ =>
      ⟨.closed (e :: done).reverse span (position + n), log ++ found.log⟩
    | rest => ⟨.noSeparator (position + n) rest, log ++ found.log⟩
termination_by 4 * ts.length + 3
decreasing_by
  · omega
  · have := congrArg List.length _rest
    simp only [List.length_drop, List.length_cons] at this
    omega

end

/-- An expression. -/
def expression (ts : TokenList) : Traced (Recognized Expr) := do
  let found ← primary ts
  Traced.note (.expressionTried found.isMatch found.advancedBy)
  return found

end Grammar

/-- What is wrong with a bracketed list. -/
inductive ListFault where
  /-- The token starts no element. -/
  | noElement (found : Token)
  /-- The tokens end where an element has to follow. -/
  | noElementAtEnd
  /-- The token after an element is neither a comma nor the closing bracket. -/
  | noSeparator (found : Token)
  /-- The tokens end after an element. -/
  | notClosed
  /-- Nothing: the token closes the list. -/
  | closed (bracket : Token)
  deriving DecidableEq, Repr

/-- The error for a fault of a list that was opened at `bracket`. -/
def ListFault.error (bracket : Span) : ListFault → ParseError
  | noElement found => .noExpression found.kind found.span
  | noElementAtEnd => .noExpression .eof .dummy
  | noSeparator found =>
    ⟨.unexpectedToken "subscript argument" "`,` or `]`" found.kind.displayName, found.span⟩
  | notClosed => ⟨.unclosedDelimiter '[', bracket⟩
  | closed bracket => .noExpression bracket.kind bracket.span

namespace Grammar

/-- The first fault in the rest of a list from an element on, after the events in `log`. The
elements are recognized one by one, but not kept. -/
def listFault (log : Log) (ts : TokenList) : Traced ListFault :=
  let found := primary ts
  match found.value with
  | .noMatch =>
    match ts with
    | t :: _ => ⟨.noElement t, log ++ found.log⟩
    | [] => ⟨.noElementAtEnd, log ++ found.log⟩
  | .matched _ n =>
    match _rest : ts.drop n with
    | t :: rest =>
      if t.kind = .punct .comma then listFault (log ++ found.log) rest
      else if t.kind = .punct .rbracket then ⟨.closed t, log ++ found.log⟩
      else ⟨.noSeparator t, log ++ found.log⟩
    | [] => ⟨.notClosed, log ++ found.log⟩
termination_by ts.length
decreasing_by
  have := congrArg List.length _rest
  simp only [List.length_drop, List.length_cons] at this
  omega

/-- The error for a subscript that was opened at `bracket` and does not match; `rest` follows the
bracket. -/
def explainList (bracket : Span) (rest : TokenList) : Traced ParseError :=
  let found := listFault .none rest
  ⟨found.value.error bracket, found.log⟩

/-- The error for a keyword `super` that ends at `stop` and is followed by `rest`. -/
def explainSuperclass (stop : UInt32) (rest : TokenList) : Traced ParseError :=
  match rest with
  | [] => pure ⟨.unexpectedToken "`super`" "`.` or `[`" TokenKind.eof.displayName, .point stop⟩
  | head :: tail =>
    if head.kind = .punct .lbracket then
      if tail.any fun t => t.kind = .punct .rbracket then explainList head.span tail
      else pure ⟨.unclosedDelimiter '[', head.span⟩
    else match head.kind, tail with
      | .punct .dot, member :: _ =>
        pure ⟨.unexpectedToken "`super.`" "identifier or `init`" member.kind.displayName,
          member.span⟩
      | _, _ =>
        pure ⟨.unexpectedToken "`super`" "`.` or `[`" head.kind.displayName, head.span⟩

/-- The error for a token list that no expression matches. Without tokens it is placed at
`fallback`. -/
def explain (ts : TokenList) (fallback : Span) : Traced ParseError :=
  match ts with
  | [] => pure (.noExpression .eof fallback)
  | head :: rest =>
    match head.kind with
    | .error => pure ⟨.invalidToken, head.span⟩
    | .keyword .super => explainSuperclass head.span.stop rest
    | kind => pure (.noExpression kind head.span)

end Grammar

end ExprFront
