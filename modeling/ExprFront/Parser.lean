import ExprFront.Diagnostic
import ExprFront.Grammar

/-!
# Parsing

A cursor is a position in a token list. It never moves past an end-of-file token that closes the
list. A parse recognizes an expression at a cursor and moves the cursor past it. When nothing
matches, the cursor stays and the failure is explained.
-/

namespace ExprFront

/-- A position in a token list. -/
structure Cursor where
  tokens : TokenList
  position : Nat
  deriving DecidableEq, Repr

namespace Cursor

/-- The cursor at the start of a list. -/
def start (tokens : TokenList) : Cursor := ⟨tokens, 0⟩

/-- The token at the cursor, the end-of-file token included. -/
def token? (c : Cursor) : Option Token := c.tokens[c.position]?

/-- The token at the cursor, unless it is the end of file. -/
def current? (c : Cursor) : Option Token := c.token?.filter fun t => t.kind ≠ .eof

/-- The kind of the token `n` places on; the end of file past the end of the list. -/
def peekKind (c : Cursor) (n : Nat) : TokenKind :=
  ((c.tokens[c.position + n]?).map Token.kind).getD .eof

/-- The kind of the token `n` places on, if the place looked at is a 64-bit word. -/
def peekKind? (c : Cursor) (n : Nat) : Option TokenKind :=
  if c.position + n < UInt64.size then some (c.peekKind n) else none

/-- The kind of the token at the cursor. -/
def currentKind (c : Cursor) : TokenKind := c.peekKind 0

/-- The span of the token at the cursor; past the end of the list, the point after its last
token. -/
def currentSpan (c : Cursor) : Span :=
  match c.token? with
  | some t => t.span
  | none => .point c.tokens.stop

/-- The tokens from the cursor on. -/
def remaining (c : Cursor) : TokenList := c.tokens.drop c.position

/-- Whether no token but the end of file is left. -/
def isAtEnd (c : Cursor) : Bool := c.current?.isNone

/-- The last position that the cursor can reach. -/
def limit (c : Cursor) : Nat :=
  if c.tokens.endsWithEof then c.tokens.length - 1 else c.tokens.length

/-- The cursor at a position, or at its limit if that comes first. -/
def moveTo (c : Cursor) (target : Nat) : Traced Cursor :=
  let stop := min target c.limit
  ⟨{ c with position := stop }, .one (.cursorMoved c.position stop)⟩

/-- The cursor `n` places on, up to its limit. -/
def advanceBy (c : Cursor) (n : Nat) : Traced Cursor := c.moveTo (c.position + n)

/-- The cursor `n` places on, up to its limit, if the place that is asked for is a 64-bit word. -/
def advanceBy? (c : Cursor) (n : Nat) : Option (Traced Cursor) :=
  if c.position + n < UInt64.size then some (c.advanceBy n) else none

/-- Parses one expression at the cursor: the expression or the error, and the cursor after it. -/
def parseExpression (c : Cursor) : Traced (Except ParseError Expr × Cursor) := do
  match ← Grammar.expression c.remaining with
  | .matched e n =>
    let next ← c.advanceBy n
    Traced.note (.expressionParsed e.nodeName n next.position)
    return (.ok e, next)
  | .noMatch =>
    let error ← Grammar.explain c.remaining c.currentSpan
    Traced.note (.expressionRefused error.code error.span)
    return (.error error, c)

end Cursor

/-- Parses one expression at the start of a token list. -/
def parseExpression (tokens : TokenList) : Traced (Except ParseError Expr) := do
  return (← (Cursor.start tokens).parseExpression).1

/-- Parses expressions one after the other, up to `limit` of them, and stops after the first error.
After the first parse it also stops at the end of the tokens. Each result comes with the position
after it. -/
def parseAll (c : Cursor) : Nat → Traced (List (Except ParseError Expr × Nat))
  | 0 => pure []
  | limit + 1 => do
    let (result, next) ← c.parseExpression
    match result with
    | .error _ => return [(result, next.position)]
    | .ok _ =>
      if next.isAtEnd then return [(result, next.position)]
      else return (result, next.position) :: (← parseAll next limit)

end ExprFront
