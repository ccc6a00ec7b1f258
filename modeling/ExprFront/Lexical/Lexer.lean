import ExprFront.Lexical.Regex
import ExprFront.Numeral
import ExprFront.Text
import ExprFront.Token

/-!
# From source text to tokens

A source text is cut into lexemes, from front to back and without loss: blanks, comments, words of
the lexical rules, and stretches that no rule reads. Each rule has a class of tokens and the regular
expression of its words; the longest word wins, and the earlier rule among equals, so keywords and
the underscore come before identifiers.

Every lexeme but blanks and comments makes a token whose span is the lexeme's place in the source;
an end-of-file token closes the list. The body of a string literal is read unit by unit: a backslash
and what follows it stand for one character when they form a known escape, and are kept as written
when they do not.
-/

namespace ExprFront

namespace Escape

/-- The character that the text between the braces of `\u` denotes: a hexadecimal number, with one
plus sign allowed before it, that is the code point of a character. -/
def scalar? (cs : List Char) : Option Char :=
  let digits := match cs with
    | '+' :: rest => rest
    | cs => cs
  match Numeral.natural? 16 digits with
  | some n => if n.isValidChar then some (.ofNat n) else none
  | none => none

/-- The character that a backslash and one letter stand for. -/
def short? : Char → Option Char
  | 'n' => some '\n'
  | 't' => some '\t'
  | 'r' => some '\r'
  | '0' => some '\x00'
  | '\\' => some '\\'
  | '"' => some '"'
  | '\'' => some '\''
  | _ => none

/-- One unit at the front of a body: what it stands for, and the text after it. An escape in braces
runs to the first closing brace, or to the end; when it denotes no character it is written back
with a closing brace. -/
def unit (c : Char) (cs : List Char) : List Char × List Char :=
  if c ≠ '\\' then ([c], cs)
  else match cs with
    | [] => (['\\'], [])
    | 'u' :: '{' :: rest =>
      let digits := rest.takeWhile (· ≠ '}')
      let after := (rest.dropWhile (· ≠ '}')).drop 1
      match scalar? digits with
      | some x => ([x], after)
      | none => (['\\', 'u', '{'] ++ digits ++ ['}'], after)
    | x :: rest =>
      match short? x with
      | some y => ([y], rest)
      | none => (['\\', x], rest)

/-- Every unit takes at least one character. -/
theorem length_unit_le (c : Char) (cs : List Char) : (unit c cs).2.length ≤ cs.length := by
  unfold unit
  split
  · simp
  · split
    · simp
    · rename_i rest
      have h := (List.dropWhile_suffix (l := rest) (· ≠ '}')).length_le
      dsimp only
      split <;> simp only [List.length_drop, List.length_cons] <;> omega
    · split <;> simp

/-- The text that a body stands for, after `out` in reverse. -/
def resolveOnto (out : List Char) : List Char → List Char
  | [] => out.reverse
  | c :: cs => resolveOnto ((unit c cs).1.reverse ++ out) (unit c cs).2
termination_by cs => cs.length
decreasing_by
  have := length_unit_le c cs
  simp only [List.length_cons]
  omega

/-- The text that the body of a string literal stands for. -/
def resolve (body : List Char) : List Char := resolveOnto [] body

/-- What has been resolved stands before what follows. -/
theorem resolveOnto_eq (out cs : List Char) :
    resolveOnto out cs = out.reverse ++ resolve cs := by
  suffices h : ∀ out acc, resolveOnto (out ++ acc) cs = acc.reverse ++ resolveOnto out cs by
    simpa [resolve] using h [] out
  intro out acc
  fun_induction resolveOnto out cs generalizing acc with
  | case1 out => simp [resolveOnto]
  | case2 out c cs ih => rw [resolveOnto, ← List.append_assoc, ih]

/-- Nothing is resolved to nothing. -/
@[simp]
theorem resolve_nil : resolve [] = [] := by simp [resolve, resolveOnto]

/-- A body is resolved unit by unit. -/
theorem resolve_cons (c : Char) (cs : List Char) :
    resolve (c :: cs) = (unit c cs).1 ++ resolve (unit c cs).2 := by
  rw [resolve, resolveOnto, resolveOnto_eq]
  simp

end Escape

/-- What a lexical rule reads. -/
inductive WordClass where
  | keyword (word : Keyword)
  | punct (mark : Punct)
  | int
  | float
  | str
  | ident
  deriving DecidableEq, Repr

/-- A lexical rule: the words of a class. -/
structure Rule where
  wordClass : WordClass
  pattern : Regex

namespace Rule

/-- Decimal digits. -/
def isDigit (c : Char) : Bool := '0' ≤ c && c ≤ '9'

/-- Hexadecimal digits of either case. -/
def isHexDigit (c : Char) : Bool := isDigit c || ('a' ≤ c && c ≤ 'f') || ('A' ≤ c && c ≤ 'F')

/-- Octal digits. -/
def isOctalDigit (c : Char) : Bool := '0' ≤ c && c ≤ '7'

/-- Binary digits. -/
def isBinaryDigit (c : Char) : Bool := c == '0' || c == '1'

/-- Characters that start an identifier. -/
def isWordStart (c : Char) : Bool :=
  ('a' ≤ c && c ≤ 'z') || ('A' ≤ c && c ≤ 'Z') || c == '_'

/-- Characters that continue an identifier. -/
def isWordPart (c : Char) : Bool := isWordStart c || isDigit c

/-- A digit and then digits and underscores. -/
def digits (isDigit : Char → Bool) : Regex :=
  .seq (.one isDigit) (.star (.one fun c => isDigit c || c == '_'))

/-- Digits behind a prefix that names their base. -/
def prefixed (mark : Char) (isDigit : Char → Bool) : Regex :=
  .seq (.char '0') (.seq (.char mark) (digits isDigit))

/-- Integer literals in base 16, 8, 2 or 10. -/
def intPattern : Regex :=
  .alt (prefixed 'x' isHexDigit) (.alt (prefixed 'o' isOctalDigit)
    (.alt (prefixed 'b' isBinaryDigit) (digits isDigit)))

/-- The exponent of a floating point literal. -/
def exponentPattern : Regex :=
  .seq (.one fun c => c == 'e' || c == 'E')
    (.seq (.opt (.one fun c => c == '+' || c == '-')) (digits isDigit))

/-- Floating point literals: a fraction, an exponent, or both. -/
def floatPattern : Regex :=
  .alt (.seq (digits isDigit) (.seq (.char '.') (.seq (digits isDigit) (.opt exponentPattern))))
    (.seq (digits isDigit) exponentPattern)

/-- What may stand between the quotes of a string literal: plain characters, and a backslash with
any character but a line feed. -/
def stringBody : Regex :=
  .star (.alt (.one fun c => c != '"' && c != '\\' && c != '\n' && c != '\r')
    (.seq (.char '\\') (.one fun c => c != '\n')))

/-- A string literal without its closing quote. -/
def openString : Regex := .seq (.char '"') stringBody

/-- String literals. -/
def stringPattern : Regex := .seq (.char '"') (.seq stringBody (.char '"'))

/-- Identifiers, and all words that are spelled like one. -/
def identPattern : Regex := .seq (.one isWordStart) (.star (.one isWordPart))

/-- The words that a rule gives letter by letter, each with its class. -/
def fixedWords : List (WordClass × String) :=
  [(.keyword .super, "super"),
    (.keyword .self, "self"),
    (.keyword .init, "init"),
    (.keyword .«let», "let"),
    (.keyword .var, "var"),
    (.keyword .«case», "case"),
    (.keyword .true, "true"),
    (.keyword .false, "false"),
    (.keyword .nil, "nil"),
    (.keyword .throws, "throws"),
    (.keyword .rethrows, "rethrows"),
    (.punct .ellipsis, "..."),
    (.punct .dot, "."),
    (.punct .comma, ","),
    (.punct .colon, ":"),
    (.punct .lparen, "("),
    (.punct .rparen, ")"),
    (.punct .lbracket, "["),
    (.punct .rbracket, "]"),
    (.punct .lbrace, "\x7b"),
    (.punct .rbrace, "\x7d"),
    (.punct .arrow, "->"),
    (.punct .equals, "="),
    (.punct .question, "?"),
    (.punct .bang, "!"),
    (.punct .atSign, "@"),
    (.punct .hash, "#"),
    (.punct .star, "*"),
    (.punct .underscore, "_")]

/-- The rules of the language, in order of preference. -/
def all : List Rule :=
  fixedWords.map (fun w => ⟨w.1, .word w.2.toList⟩) ++
  [⟨.int, intPattern⟩, ⟨.float, floatPattern⟩, ⟨.str, stringPattern⟩, ⟨.ident, identPattern⟩]

/-- The longer of the best match so far and the match of one more rule; the earlier one if they are
equally long. -/
def better (cs : List Char) (best : Option (WordClass × Nat)) (rule : Rule) :
    Option (WordClass × Nat) :=
  match rule.pattern.longest cs, best with
  | none, best => best
  | some n, none => some (rule.wordClass, n)
  | some n, some (w, m) => if m < n then some (rule.wordClass, n) else some (w, m)

/-- The class and length of the longest word at the front of a text, by the first rule that reads
that much. -/
def longest (cs : List Char) : Option (WordClass × Nat) := all.foldl (better cs) none

end Rule

/-- The token kind of a word of a class. -/
def WordClass.kind (w : WordClass) (text : List Char) : TokenKind :=
  match w with
  | keyword k => .keyword k
  | punct p => .punct p
  | int => .int (String.ofList text)
  | float => .float (String.ofList text)
  | str => .str (String.ofList (Escape.resolve text.tail.dropLast)) (String.ofList text)
  | ident => .ident (String.ofList text)

/-- What a lexeme is. -/
inductive LexemeKind where
  | blank
  | comment
  | word (w : WordClass)
  | invalid
  deriving DecidableEq, Repr

/-- A piece of source text. -/
structure Lexeme where
  kind : LexemeKind
  text : List Char
  deriving DecidableEq, Repr

namespace Lexeme

/-- The characters between tokens: space, tab, carriage return, line feed and form feed. -/
def isBlank (c : Char) : Bool :=
  c == ' ' || c == '\t' || c == '\r' || c == '\n' || c == '\x0c'

/-- The number of characters through the first end of a block comment, after `n` of them. -/
def blockEndFrom? (n : Nat) : List Char → Option Nat
  | [] => none
  | c :: cs =>
    match c, cs with
    | '*', '/' :: _ => some (n + 2)
    | _, cs => blockEndFrom? (n + 1) cs

/-- The number of characters through the first end of a block comment. -/
def blockEnd? (cs : List Char) : Option Nat := blockEndFrom? 0 cs

/-- The kind and length of a comment at the front of a text. A block comment without an end is an
invalid lexeme that takes the rest of the source. -/
def comment? : List Char → Option (LexemeKind × Nat)
  | '/' :: '/' :: cs => some (.comment, (cs.takeWhile (· != '\n')).length + 2)
  | '/' :: '*' :: cs =>
    match blockEnd? cs with
    | some n => some (.comment, n + 2)
    | none => some (.invalid, cs.length + 2)
  | _ => none

/-- The length of the invalid lexeme at the front of a text that no rule reads: an open string
reaches as far as its body does, anything else is one character. -/
def invalidLength (cs : List Char) : Nat := (Rule.openString.longest cs).getD 1

/-- The kind and length of the lexeme at the front of a text. -/
def front (cs : List Char) : LexemeKind × Nat :=
  match (cs.takeWhile isBlank).length with
  | n + 1 => (.blank, n + 1)
  | 0 =>
    match comment? cs with
    | some lexeme => lexeme
    | none =>
      match Rule.longest cs with
      | some (w, n) => (.word w, n)
      | none => (.invalid, invalidLength cs)

/-- The lexemes of a text, after `done` in reverse. Every lexeme takes at least one character. -/
def splitOnto (done : List Lexeme) : List Char → List Lexeme
  | [] => done.reverse
  | c :: cs =>
    let found := front (c :: cs)
    splitOnto (⟨found.1, c :: cs.take (found.2 - 1)⟩ :: done) (cs.drop (found.2 - 1))
termination_by cs => cs.length
decreasing_by simp only [List.length_drop, List.length_cons]; omega

/-- The lexemes of a source text, in order. -/
def split (source : List Char) : List Lexeme := splitOnto [] source

/-- The lexeme at the front of a text that starts with `c`. -/
def first (c : Char) (cs : List Char) : Lexeme :=
  let found := front (c :: cs)
  ⟨found.1, c :: cs.take (found.2 - 1)⟩

/-- The lexemes that have been cut off stand before those that follow. -/
theorem splitOnto_eq (done : List Lexeme) (cs : List Char) :
    splitOnto done cs = done.reverse ++ split cs := by
  suffices h : ∀ done acc, splitOnto (done ++ acc) cs = acc.reverse ++ splitOnto done cs by
    simpa [split] using h [] done
  intro done acc
  fun_induction splitOnto done cs generalizing acc with
  | case1 done => simp [splitOnto]
  | case2 done c cs found ih => rw [splitOnto, ← List.cons_append, ih]

/-- The empty text has no lexemes. -/
@[simp]
theorem split_nil : split [] = [] := by simp [split, splitOnto]

/-- A text is its first lexeme and the lexemes of what follows. -/
theorem split_cons (c : Char) (cs : List Char) :
    split (c :: cs) = first c cs :: split (cs.drop ((front (c :: cs)).2 - 1)) := by
  rw [split, splitOnto, splitOnto_eq]
  rfl

/-- Nothing is lost: the texts of the lexemes make up the source. -/
theorem flatMap_text_split (cs : List Char) : (split cs).flatMap text = cs := by
  match cs with
  | [] => simp
  | c :: cs =>
    rw [split_cons, List.flatMap_cons, flatMap_text_split]
    simp [first, List.take_append_drop]
termination_by cs.length
decreasing_by simp only [List.length_drop, List.length_cons]; omega

/-- The kind of the token that a lexeme makes; blanks and comments make none. -/
def tokenKind? (l : Lexeme) : Option TokenKind :=
  match l.kind with
  | .blank => none
  | .comment => none
  | .word w => some (w.kind l.text)
  | .invalid => some .error

end Lexeme

/-- The tokens of lexemes that start at `offset`, after `done` in reverse. -/
def placeOnto (done : TokenList) (offset : Nat) : List Lexeme → TokenList
  | [] => (.eofAt (clampOffset offset) :: done).reverse
  | l :: ls =>
    let stop := offset + byteLength l.text
    match l.tokenKind? with
    | some kind => placeOnto (⟨kind, .ofOffsetsClamped offset stop⟩ :: done) stop ls
    | none => placeOnto done stop ls

/-- The tokens of lexemes that start at `offset`, with the end of file after them. -/
def place (offset : Nat) (ls : List Lexeme) : TokenList := placeOnto [] offset ls

/-- The tokens that have been placed stand before those that follow. -/
theorem placeOnto_eq (done : TokenList) (offset : Nat) (ls : List Lexeme) :
    placeOnto done offset ls = done.reverse ++ place offset ls := by
  suffices h : ∀ done acc, placeOnto (done ++ acc) offset ls =
      acc.reverse ++ placeOnto done offset ls by
    simpa [place] using h [] done
  intro done acc
  fun_induction placeOnto done offset ls generalizing acc with
  | case1 done offset => simp [placeOnto]
  | case2 done offset l ls stop kind hk ih =>
    rw [placeOnto]
    simp only [hk]
    rw [← List.cons_append, ih]
  | case3 done offset l ls stop hk ih =>
    rw [placeOnto]
    simp only [hk]
    exact ih acc

/-- Behind the last lexeme stands the end of file. -/
@[simp]
theorem place_nil (offset : Nat) : place offset [] = [.eofAt (clampOffset offset)] := rfl

/-- A lexeme makes at most one token, and the next one starts where it stops. -/
theorem place_cons (offset : Nat) (l : Lexeme) (ls : List Lexeme) :
    place offset (l :: ls) =
      (l.tokenKind?.map fun kind =>
        ⟨kind, .ofOffsetsClamped offset (offset + byteLength l.text)⟩).toList ++
      place (offset + byteLength l.text) ls := by
  rw [place, placeOnto]
  cases h : l.tokenKind? with
  | none => simp [place]
  | some kind => simp [placeOnto_eq]

/-- The tokens of a source text. -/
def lex (source : List Char) : TokenList := place 0 (Lexeme.split source)

end ExprFront
