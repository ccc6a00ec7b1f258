import ExprFront.Text

/-!
# Tokens

A token is a kind and the span it was read from. Spans are half-open ranges of byte offsets into one
source text; offsets are 32-bit words, and the functions that come from machine-size offsets say
what happens when an offset does not fit.

Keywords and punctuation marks are fixed words. The other kinds carry the text they were written
with; numbers are read later, so that a number out of range is an error of the grammar and not of
the lexer. A token list stands for one source text and, when it comes from the lexer, ends with an
end-of-file token.
-/

namespace ExprFront

/-- A half-open range of byte offsets. Nothing forces `start ≤ stop`: hand-built trees may carry
any pair. -/
structure Span where
  start : UInt32
  stop : UInt32
  deriving DecidableEq, Repr, Inhabited

/-- Why a range of offsets is not a span. -/
inductive SpanError where
  | startTooLarge (offset : Nat)
  | endTooLarge (offset : Nat)
  deriving DecidableEq, Repr

namespace SpanError

/-- The wording of a refused range. -/
def message : SpanError → String
  | startTooLarge offset => s!"span start {offset} exceeds u32::MAX ({UInt32.size - 1})"
  | endTooLarge offset => s!"span end {offset} exceeds u32::MAX ({UInt32.size - 1})"

end SpanError

/-- An offset as a 32-bit word; offsets that do not fit become the largest word. -/
def clampOffset (offset : Nat) : UInt32 :=
  if offset < UInt32.size then .ofNat offset else .ofNat (UInt32.size - 1)

namespace Span

/-- The span of trees and tokens that come from no source text. -/
def dummy : Span := ⟨0, 0⟩

/-- The empty span at an offset. -/
def point (offset : UInt32) : Span := ⟨offset, offset⟩

/-- The span of a range of offsets, if both ends fit; the start is checked first. -/
def ofOffsets (start stop : Nat) : Except SpanError Span :=
  if UInt32.size ≤ start then .error (.startTooLarge start)
  else if UInt32.size ≤ stop then .error (.endTooLarge stop)
  else .ok ⟨.ofNat start, .ofNat stop⟩

/-- The span of a range of offsets; a range that does not fit becomes the point at the largest
offset. -/
def ofOffsetsClamped (start stop : Nat) : Span :=
  match ofOffsets start stop with
  | .ok span => span
  | .error _ => point (.ofNat (UInt32.size - 1))

/-- The number of bytes covered, for a span whose ends are in order. -/
def length? (s : Span) : Option UInt32 :=
  if s.start ≤ s.stop then some (s.stop - s.start) else none

/-- A span is empty when its ends are equal. -/
def isEmpty (s : Span) : Bool := s.start == s.stop

/-- Whether the second span lies within the first. -/
def contains (s t : Span) : Bool := s.start ≤ t.start && t.stop ≤ s.stop

/-- The smallest span that covers both. -/
def merge (s t : Span) : Span := ⟨min s.start t.start, max s.stop t.stop⟩

/-- The written form `start..stop`. -/
def text (s : Span) : String := s!"{s.start}..{s.stop}"

end Span

/-- The reserved words. -/
inductive Keyword where
  | super | self | init | «let» | var | «case» | true | false | nil | throws | rethrows
  deriving DecidableEq, Repr

namespace Keyword

/-- The spelling of a keyword. -/
def text : Keyword → String
  | super => "super"
  | self => "self"
  | init => "init"
  | «let» => "let"
  | var => "var"
  | «case» => "case"
  | true => "true"
  | false => "false"
  | nil => "nil"
  | throws => "throws"
  | rethrows => "rethrows"

/-- What error messages call a keyword. -/
def displayName : Keyword → String
  | super => "`super`"
  | self => "`self`"
  | init => "`init`"
  | «let» => "`let`"
  | var => "`var`"
  | «case» => "`case`"
  | true => "`true`"
  | false => "`false`"
  | nil => "`nil`"
  | throws => "`throws`"
  | rethrows => "`rethrows`"

/-- Error messages quote the spelling of a keyword. -/
theorem displayName_eq (k : Keyword) : k.displayName = "`" ++ k.text ++ "`" := by
  cases k <;> rfl

/-- The name under which a keyword is shown for debugging. -/
def debugName : Keyword → String
  | super => "Super"
  | self => "SelfLower"
  | init => "Init"
  | «let» => "Let"
  | var => "Var"
  | «case» => "Case"
  | true => "True"
  | false => "False"
  | nil => "Nil"
  | throws => "Throws"
  | rethrows => "Rethrows"

end Keyword

/-- The punctuation marks. -/
inductive Punct where
  | dot | comma | colon | lparen | rparen | lbracket | rbracket | lbrace | rbrace | arrow | equals
  | question | bang | atSign | hash | star | ellipsis | underscore
  deriving DecidableEq, Repr

namespace Punct

/-- The spelling of a punctuation mark. -/
def text : Punct → String
  | dot => "."
  | comma => ","
  | colon => ":"
  | lparen => "("
  | rparen => ")"
  | lbracket => "["
  | rbracket => "]"
  | lbrace => "\x7b"
  | rbrace => "\x7d"
  | arrow => "->"
  | equals => "="
  | question => "?"
  | bang => "!"
  | atSign => "@"
  | hash => "#"
  | star => "*"
  | ellipsis => "..."
  | underscore => "_"

/-- What error messages call a punctuation mark. -/
def displayName : Punct → String
  | dot => "`.`"
  | comma => "`,`"
  | colon => "`:`"
  | lparen => "`(`"
  | rparen => "`)`"
  | lbracket => "`[`"
  | rbracket => "`]`"
  | lbrace => "`\x7b`"
  | rbrace => "`\x7d`"
  | arrow => "`->`"
  | equals => "`=`"
  | question => "`?`"
  | bang => "`!`"
  | atSign => "`@`"
  | hash => "`#`"
  | star => "`*`"
  | ellipsis => "`...`"
  | underscore => "`_`"

/-- Error messages quote the spelling of a punctuation mark. -/
theorem displayName_eq (p : Punct) : p.displayName = "`" ++ p.text ++ "`" := by
  cases p <;> rfl

/-- The name under which a punctuation mark is shown for debugging. -/
def debugName : Punct → String
  | dot => "Dot"
  | comma => "Comma"
  | colon => "Colon"
  | lparen => "LParen"
  | rparen => "RParen"
  | lbracket => "LBracket"
  | rbracket => "RBracket"
  | lbrace => "LBrace"
  | rbrace => "RBrace"
  | arrow => "Arrow"
  | equals => "Eq"
  | question => "Question"
  | bang => "Bang"
  | atSign => "At"
  | hash => "Hash"
  | star => "Star"
  | ellipsis => "Ellipsis"
  | underscore => "Underscore"

end Punct

/-- What a token is. String literals carry both their value and their text with the quotes. -/
inductive TokenKind where
  | int (raw : String)
  | float (raw : String)
  | str (value raw : String)
  | ident (name : String)
  | keyword (word : Keyword)
  | punct (mark : Punct)
  | error
  | eof
  deriving DecidableEq, Repr

namespace TokenKind

/-- The kind of a reserved word. -/
def keyword? : String → Option TokenKind
  | "super" => some (keyword .super)
  | "self" => some (keyword .self)
  | "init" => some (keyword .init)
  | "let" => some (keyword .«let»)
  | "var" => some (keyword .var)
  | "case" => some (keyword .«case»)
  | "true" => some (keyword .true)
  | "false" => some (keyword .false)
  | "nil" => some (keyword .nil)
  | "throws" => some (keyword .throws)
  | "rethrows" => some (keyword .rethrows)
  | _ => none

/-- The word of a keyword is read as this keyword. -/
theorem keyword?_text (k : Keyword) : keyword? k.text = some (keyword k) := by
  cases k <;> rfl

/-- A reserved word is the spelling of a keyword, and its kind is that keyword. -/
theorem keyword?_eq_some_iff {word : String} {kind : TokenKind} :
    keyword? word = some kind ↔ ∃ k : Keyword, word = k.text ∧ keyword k = kind := by
  constructor
  · intro h
    unfold keyword? at h
    split at h <;> cases h
    all_goals
      refine ⟨_, ?_, rfl⟩
      rfl
  · rintro ⟨k, rfl, rfl⟩
    exact keyword?_text k

/-- Literals are numbers, strings, the truth values and `nil`. -/
def isLiteral : TokenKind → Bool
  | int _ | float _ | str _ _ => Bool.true
  | keyword .true | keyword .false | keyword .nil => Bool.true
  | _ => Bool.false

/-- The text of a token of this kind. -/
def text : TokenKind → String
  | int raw => raw
  | float raw => raw
  | str _ raw => raw
  | ident name => name
  | keyword word => word.text
  | punct mark => mark.text
  | error => "<error>"
  | eof => "<eof>"

/-- What error messages call a token of this kind. -/
def displayName : TokenKind → String
  | int _ => "integer literal"
  | float _ => "floating point literal"
  | str _ _ => "string literal"
  | ident _ => "identifier"
  | keyword word => word.displayName
  | punct mark => mark.displayName
  | error => "invalid token"
  | eof => "end of file"

/-- The kind with all it carries, for debugging. -/
def debugText : TokenKind → String
  | int raw => "Int(" ++ Quoted.quote raw ++ ")"
  | float raw => "Float(" ++ Quoted.quote raw ++ ")"
  | str value raw =>
    "Str \x7b value: " ++ Quoted.quote value ++ ", raw: " ++ Quoted.quote raw ++ " \x7d"
  | ident name => "Ident(" ++ Quoted.quote name ++ ")"
  | keyword word => word.debugName
  | punct mark => mark.debugName
  | error => "Error"
  | eof => "Eof"

end TokenKind

/-- A token: its kind and its place in the source. -/
structure Token where
  kind : TokenKind
  span : Span
  deriving DecidableEq, Repr

namespace Token

/-- A token that comes from no source text. -/
def dummy (kind : TokenKind) : Token := ⟨kind, .dummy⟩

/-- The token with its span, for debugging. -/
def debugText (t : Token) : String := t.kind.debugText ++ " @ " ++ t.span.text

/-- The end-of-file token at an offset. -/
def eofAt (offset : UInt32) : Token := ⟨.eof, .point offset⟩

end Token

/-- The tokens of one source text, in order. -/
abbrev TokenList := List Token

namespace TokenList

/-- The kinds of the tokens. -/
def kinds (ts : TokenList) : List TokenKind := ts.map Token.kind

/-- Whether the last token is the end of file. -/
def endsWithEof (ts : TokenList) : Bool := ts.getLast?.any fun t => t.kind = .eof

/-- The offset just past the last token, zero without one. -/
def stop (ts : TokenList) : UInt32 := (ts.getLast?.map fun t => t.span.stop).getD 0

/-- The list with an end-of-file token at its end, added if it is missing. -/
def withEof (ts : TokenList) : TokenList :=
  if endsWithEof ts then ts else ts ++ [.eofAt (stop ts)]

end TokenList

end ExprFront
