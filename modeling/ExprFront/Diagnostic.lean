import ExprFront.Token

/-!
# Diagnostics

What the front end reports and notes down. Every problem that it reports has a stable code: a letter
and four digits, of which the first tells the phase. Codes that start with `E0` come from the lexer,
with `E1` from the parser, and with `E9` from a broken invariant. A parse error says what is wrong
where an expression was wanted, and where.

An event says what happened while the front end works; a log is the sequence of events of a
computation, and a traced value is the result of a computation with its log.
-/

namespace ExprFront

/-- The codes of the reported problems. -/
inductive ErrorCode where
  | invalidCharacter
  | unexpectedToken
  | expectedExpression
  | unclosedDelimiter
  | brokenInvariant
  deriving DecidableEq, Repr

namespace ErrorCode

/-- All codes, in order. -/
def all : List ErrorCode :=
  [invalidCharacter, unexpectedToken, expectedExpression, unclosedDelimiter, brokenInvariant]

/-- The code itself. -/
def text : ErrorCode → String
  | invalidCharacter => "E0001"
  | unexpectedToken => "E1001"
  | expectedExpression => "E1002"
  | unclosedDelimiter => "E1003"
  | brokenInvariant => "E9001"

/-- What a code stands for, in one line. -/
def description : ErrorCode → String
  | invalidCharacter => "invalid character in source"
  | unexpectedToken => "unexpected token"
  | expectedExpression => "expected expression"
  | unclosedDelimiter => "unclosed delimiter"
  | brokenInvariant => "internal invariant violated"

/-- Whether the parser reports a code. -/
def isParserError (c : ErrorCode) : Bool := ['E', '1'].isPrefixOf c.text.toList

/-- Whether a code means a broken invariant. -/
def isInternalError (c : ErrorCode) : Bool := ['E', '9'].isPrefixOf c.text.toList

/-- The code with a given text; ASCII letters match in either case. -/
def ofText? (s : String) : Option ErrorCode :=
  all.find? fun c => c.text.toList.map Char.toLower == s.toList.map Char.toLower

end ErrorCode

/-- What went wrong. -/
inductive ParseErrorKind where
  /-- A position that needs an expression holds something that starts none. -/
  | expectedExpression (found : String)
  /-- Something cannot be continued by the token after it. -/
  | unexpectedToken (after expected found : String)
  /-- An opening delimiter has no closing one. -/
  | unclosedDelimiter (delimiter : Char)
  /-- The lexer could read no token here. -/
  | invalidToken
  deriving DecidableEq, Repr

namespace ParseErrorKind

/-- The code of a kind of error. -/
def code : ParseErrorKind → ErrorCode
  | expectedExpression _ => .expectedExpression
  | unexpectedToken _ _ _ => .unexpectedToken
  | unclosedDelimiter _ => .unclosedDelimiter
  | invalidToken => .invalidCharacter

/-- The wording of a kind of error. -/
def message : ParseErrorKind → String
  | expectedExpression found => "expected expression, found " ++ found
  | unexpectedToken after expected found =>
    "expected " ++ expected ++ " after " ++ after ++ ", found " ++ found
  | unclosedDelimiter delimiter => "unclosed delimiter `" ++ delimiter.toString ++ "`"
  | invalidToken => "invalid character in source"

end ParseErrorKind

/-- A parse error and the span of the token it is about. -/
structure ParseError where
  kind : ParseErrorKind
  span : Span
  deriving DecidableEq, Repr

namespace ParseError

/-- The code of an error. -/
def code (e : ParseError) : ErrorCode := e.kind.code

/-- The wording of an error, with its code. -/
def message (e : ParseError) : String := "error[" ++ e.code.text ++ "]: " ++ e.kind.message

/-- The error for a token that starts no expression. -/
def noExpression (found : TokenKind) (span : Span) : ParseError :=
  ⟨.expectedExpression found.displayName, span⟩

end ParseError

/-- How important an event is. -/
inductive Level where
  | trace
  | debug
  | error
  deriving DecidableEq, Repr

/-- The name of a level. -/
def Level.text : Level → String
  | trace => "TRACE"
  | debug => "DEBUG"
  | error => "ERROR"

/-- The value of a field of an event. -/
inductive FieldValue where
  | number (n : Nat)
  | truth (b : Bool)
  | text (s : String)
  deriving DecidableEq, Repr

/-- Something that happened. -/
inductive Event where
  /-- A primary expression is tried at a token. -/
  | primaryTried (head : Token)
  /-- An integer literal does not fit in 64 bits. -/
  | integerOutOfRange (raw : String)
  /-- A floating point literal is not a number. -/
  | malformedFloat (raw : String)
  /-- The element of a list after `count` others is no expression. -/
  | elementRejected (count : Nat)
  /-- A list goes on with neither a comma nor its end, `position` tokens after its bracket. -/
  | listNotClosed (position : Nat)
  /-- The keyword `super` is followed by nothing that continues it. -/
  | superNotContinued (next : Option TokenKind)
  /-- An expression was tried. -/
  | expressionTried (matched : Bool) (advancedBy : Nat)
  /-- The cursor moved. -/
  | cursorMoved (start stop : Nat)
  /-- An expression was parsed. -/
  | expressionParsed (nodeName : String) (advancedBy position : Nat)
  /-- No expression was parsed. -/
  | expressionRefused (code : ErrorCode) (span : Span)
  /-- A list of pattern initializers is empty. -/
  | initializersMissing
  deriving DecidableEq, Repr

namespace Event

/-- How important an event is. -/
def level : Event → Level
  | primaryTried _ => .debug
  | integerOutOfRange _ => .trace
  | malformedFloat _ => .trace
  | elementRejected _ => .trace
  | listNotClosed _ => .trace
  | superNotContinued _ => .trace
  | expressionTried _ _ => .trace
  | cursorMoved _ _ => .trace
  | expressionParsed _ _ _ => .debug
  | expressionRefused _ _ => .debug
  | initializersMissing => .error

/-- The wording of an event. -/
def message : Event → String
  | primaryTried _ => "recognize_primary"
  | integerOutOfRange _ => "integer literal out of range"
  | malformedFloat _ => "malformed floating point literal"
  | elementRejected _ => "list element did not match"
  | listNotClosed _ => "list is not closed by `]`"
  | superNotContinued _ => "`super` without a valid continuation"
  | expressionTried _ _ => "recognize_expression"
  | cursorMoved _ _ => "advance_by"
  | expressionParsed _ _ _ => "parsed expression"
  | expressionRefused _ _ => "no expression"
  | initializersMissing => "pattern initializer list is empty"

/-- The named values of an event. -/
def fields : Event → List (String × FieldValue)
  | primaryTried head =>
    [("kind", .text head.kind.displayName), ("span_start", .number head.span.start.toNat),
      ("span_end", .number head.span.stop.toNat)]
  | integerOutOfRange raw => [("raw", .text raw)]
  | malformedFloat raw => [("raw", .text raw)]
  | elementRejected count => [("element", .number count)]
  | listNotClosed position => [("pos", .number position)]
  | superNotContinued next =>
    [("next", .text ((next.map TokenKind.displayName).getD "end of input"))]
  | expressionTried matched advancedBy =>
    [("matched", .truth matched), ("advanced_by", .number advancedBy)]
  | cursorMoved start stop => [("from", .number start), ("to", .number stop)]
  | expressionParsed nodeName advancedBy position =>
    [("node", .text nodeName), ("advanced_by", .number advancedBy),
      ("position", .number position)]
  | expressionRefused code span => [("code", .text code.text), ("span", .text span.text)]
  | initializersMissing => [("code", .text ErrorCode.brokenInvariant.text)]

end Event

/-- A sequence of events, kept as a tree so that logs are joined in constant time. -/
inductive Log where
  | none
  | one (event : Event)
  | join (l m : Log)
  deriving Repr

namespace Log

instance : Append Log := ⟨join⟩

/-- The events of a log, before those in `after`. -/
def eventsBefore (after : List Event) : Log → List Event
  | none => after
  | one event => event :: after
  | join l m => eventsBefore (eventsBefore after m) l

/-- The events of a log, in order. -/
def events (l : Log) : List Event := l.eventsBefore []

/-- Events that come later are put behind those of the log. -/
theorem eventsBefore_eq (l : Log) (after : List Event) :
    l.eventsBefore after = l.events ++ after := by
  induction l generalizing after with
  | none => rfl
  | one event => rfl
  | join l m ihl ihm =>
    simp only [events, eventsBefore]
    rw [ihl, ihl (eventsBefore [] m), ihm after, ihm []]
    simp

/-- No event took place in the empty log. -/
@[simp]
theorem events_none : (none : Log).events = [] := rfl

/-- The log of one event holds it alone. -/
@[simp]
theorem events_one (event : Event) : (one event).events = [event] := rfl

/-- The events of two logs come one after the other. -/
@[simp]
theorem events_append (l m : Log) : (l ++ m).events = l.events ++ m.events := by
  show eventsBefore (eventsBefore [] m) l = _
  rw [eventsBefore_eq]
  rfl

end Log

/-- A value with the log of the computation that made it. -/
structure Traced (α : Type) where
  value : α
  log : Log

namespace Traced

variable {α β : Type}

/-- A value that took no events. -/
def ofValue (a : α) : Traced α := ⟨a, .none⟩

/-- An event on its own. -/
def note (event : Event) : Traced Unit := ⟨(), .one event⟩

/-- One computation after another. -/
def andThen (x : Traced α) (f : α → Traced β) : Traced β :=
  ⟨(f x.value).value, x.log ++ (f x.value).log⟩

instance : Monad Traced where
  pure := ofValue
  bind := andThen

/-- A value on its own is kept. -/
@[simp]
theorem value_pure (a : α) : (pure a : Traced α).value = a := rfl

/-- A value on its own notes nothing. -/
@[simp]
theorem log_pure (a : α) : (pure a : Traced α).log = .none := rfl

/-- The second computation goes on with the value of the first. -/
@[simp]
theorem value_bind (x : Traced α) (f : α → Traced β) :
    (x >>= f).value = (f x.value).value := rfl

/-- The events of the first computation come before those of the second. -/
@[simp]
theorem log_bind (x : Traced α) (f : α → Traced β) :
    (x >>= f).log = x.log ++ (f x.value).log := rfl

end Traced

end ExprFront
