import ExprFront.Text
import ExprFront.Token

/-!
# Source units

A source unit is a named source text. It describes spans into that text by line and column, both
counted from one; columns count characters. The line table of a text holds the byte offset at which
each line starts; a byte offset is turned into a line by searching this table.
-/

namespace ExprFront

/-- The sum of two words, if it is a word itself. -/
def checkedAdd (a b : UInt32) : Option UInt32 :=
  if a.toNat + b.toNat < UInt32.size then some (a + b) else none

/-- The difference of two words, if the second is not larger. -/
def checkedSub (a b : UInt32) : Option UInt32 :=
  if b ≤ a then some (a - b) else none

/-- How the search for a value in an ordered list ends. -/
inductive SearchEnd where
  /-- At an index that holds the value. -/
  | found (index : Nat)
  /-- Without the value, at the index where it could be put in. -/
  | missing (index : Nat)
  deriving DecidableEq, Repr

/-- The ends that a search for `x` may have: at any of the entries that hold it, and if there is
none, behind all smaller values. -/
inductive SearchEnds (values : List UInt32) (x : UInt32) : SearchEnd → Prop where
  | found {index : Nat} (h : values[index]? = some x) : SearchEnds values x (.found index)
  | missing (h : x ∉ values) : SearchEnds values x (.missing (values.countP (· < x)))

/-- The search for a value in an ordered list. Of several equal values it finds the first. -/
def search (values : List UInt32) (x : UInt32) : SearchEnd :=
  let index := values.countP (· < x)
  if values[index]? = some x then .found index else .missing index

/-- The index of the line that holds an offset, by the end of the search for it: the line that
starts there, or the one before the place where such a start could be put in. -/
def SearchEnd.lineIndex : SearchEnd → Nat
  | found index => index
  | missing index => index - 1

/-- Where the lines of a text start, in increasing order. The table of a text starts with 0; the
empty table knows no line. -/
structure LineTable where
  starts : List UInt32
  deriving DecidableEq, Repr

namespace LineTable

/-- The table without lines. -/
def empty : LineTable := ⟨[]⟩

/-- The starts of the lines that begin after a line feed, from `offset` on and after `done` in
reverse. -/
def startsOnto (done : List UInt32) (offset : Nat) : List Char → List UInt32
  | [] => done.reverse
  | c :: cs =>
    let next := offset + c.utf8Size
    startsOnto (if c = '\n' then clampOffset next :: done else done) next cs

/-- The starts that have been found stand before those that follow. -/
theorem startsOnto_eq (done : List UInt32) (offset : Nat) (cs : List Char) :
    startsOnto done offset cs = done.reverse ++ startsOnto [] offset cs := by
  induction cs generalizing done offset with
  | nil => simp [startsOnto]
  | cons c cs ih =>
    simp only [startsOnto]
    rw [ih, ih (if c = '\n' then _ else _)]
    split <;> simp

/-- The line table of a text. -/
def ofText (source : List Char) : LineTable := ⟨startsOnto [0] 0 source⟩

/-- The number of lines. -/
def lineCount (t : LineTable) : Nat := t.starts.length

/-- A count of what comes before, as an ordinal from one, if there is such a word. A count that is
no word itself makes the largest ordinal. -/
def ordinal? (before : Nat) : Option UInt32 :=
  checkedAdd (if before < UInt32.size then .ofNat before else .ofNat (UInt32.size - 2)) 1

/-- A count of what comes before, as an ordinal from one; zero if there is none. -/
def ordinal (before : Nat) : UInt32 := (ordinal? before).getD 0

/-- The index of the line that holds an offset. -/
def lineIndex (t : LineTable) (offset : UInt32) : Nat := (search t.starts offset).lineIndex

/-- The number of the line that holds an offset, if counting it does not overflow. -/
def line? (t : LineTable) (offset : UInt32) : Option UInt32 := ordinal? (t.lineIndex offset)

/-- The number of the line that holds an offset. -/
def line (t : LineTable) (offset : UInt32) : UInt32 := ordinal (t.lineIndex offset)

/-- The number of characters of a text between two offsets; the number of bytes if the text has no
such range. -/
def width (source : List Char) (start stop : Nat) : Nat :=
  (charsBetween? source start stop).getD (stop - start)

/-- The line and column of an offset into a text that is on the line with a given index, if no sum
and no difference on the way overflows. Offsets past the end count as the end. -/
def lineColumnAt? (t : LineTable) (source : List Char) (offset : UInt32) (index : Nat) :
    Option (UInt32 × UInt32) := do
  let line ← ordinal? index
  let before ← checkedSub line 1
  let start := (t.starts[before.toNat]?).getD 0
  let column ← ordinal? (width source start.toNat (min offset.toNat (byteLength source)))
  return (line, column)

/-- The line and column of an offset into a text, if no sum and no difference on the way
overflows. -/
def lineColumn? (t : LineTable) (source : List Char) (offset : UInt32) :
    Option (UInt32 × UInt32) :=
  t.lineColumnAt? source offset (t.lineIndex offset)

/-- The line and column of an offset into a text; zeros where they overflow. -/
def lineColumn (t : LineTable) (source : List Char) (offset : UInt32) : UInt32 × UInt32 :=
  (t.lineColumn? source offset).getD (0, 0)

end LineTable

/-- A line and a column, counted from one. -/
structure SourceLocation where
  line : UInt32
  column : UInt32
  deriving DecidableEq, Repr

namespace SourceLocation

/-- The written form `line:column`. -/
def text (l : SourceLocation) : String := s!"{l.line}:{l.column}"

end SourceLocation

/-- The locations of both ends of a span. -/
structure SourceRange where
  start : SourceLocation
  stop : SourceLocation
  deriving DecidableEq, Repr

namespace SourceRange

/-- The written form `line:column-line:column`. -/
def text (r : SourceRange) : String := r.start.text ++ "-" ++ r.stop.text

end SourceRange

/-- A named source text with its line table. -/
structure SourceUnit where
  name : String
  source : List Char
  lines : LineTable := .ofText source

namespace SourceUnit

/-- The unit of a name and a text. -/
def ofText (name : String) (source : List Char) : SourceUnit := { name, source }

/-- The location of an offset. -/
def location (u : SourceUnit) (offset : UInt32) : SourceLocation :=
  match u.lines.lineColumn u.source offset with
  | (line, column) => ⟨line, column⟩

/-- The locations of both ends of a span. -/
def range (u : SourceUnit) (s : Span) : SourceRange := ⟨u.location s.start, u.location s.stop⟩

/-- A span with the name of the unit, as dumps show it. -/
def describe (u : SourceUnit) (s : Span) : String := u.name ++ ":" ++ (u.range s).text

end SourceUnit

end ExprFront
