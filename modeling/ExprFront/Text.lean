/-!
# Text

Source text is a list of characters, and positions in it are byte offsets of its UTF-8 form. This
module counts the bytes of a text, finds the character index of a byte offset, and quotes raw text
the way diagnostics show it.

Text that is written out is put together from blocks. A block is a non-empty sequence of lines:
blocks are stacked, numbered and indented, and written out once at the end, with a line feed between
two lines.
-/

namespace ExprFront

/-- The number of bytes of a text in UTF-8. -/
def byteLength (cs : List Char) : Nat := cs.foldl (fun n c => n + c.utf8Size) 0

/-- The empty text has no bytes. -/
@[simp]
theorem byteLength_nil : byteLength [] = 0 := rfl

/-- Bytes are added to those that have been counted. -/
theorem foldl_utf8Size (n : Nat) (cs : List Char) :
    cs.foldl (fun n c => n + c.utf8Size) n = n + byteLength cs := by
  induction cs generalizing n with
  | nil => rfl
  | cons c cs ih =>
    simp only [byteLength, List.foldl_cons]
    rw [ih, ih (0 + c.utf8Size)]
    omega

/-- The first character counts with its own bytes. -/
@[simp]
theorem byteLength_cons (c : Char) (cs : List Char) :
    byteLength (c :: cs) = c.utf8Size + byteLength cs := by
  simp only [byteLength, List.foldl_cons]
  rw [foldl_utf8Size]
  simp [byteLength]

/-- The bytes of two texts add up. -/
@[simp]
theorem byteLength_append (cs ds : List Char) :
    byteLength (cs ++ ds) = byteLength cs + byteLength ds := by
  induction cs with
  | nil => simp
  | cons c cs ih => simp [ih, Nat.add_assoc]

/-- The number of characters before a byte offset; `none` for an offset inside a character or past
the end. -/
def charIndex? (cs : List Char) (offset : Nat) : Option Nat := go 0 cs offset
where
  /-- Counts on from `n` characters already passed. -/
  go (n : Nat) : List Char → Nat → Option Nat
    | _, 0 => some n
    | [], _ + 1 => none
    | c :: cs, offset + 1 =>
      if c.utf8Size ≤ offset + 1 then go (n + 1) cs (offset + 1 - c.utf8Size) else none

/-- The number of characters between two byte offsets, if they are in order and both on character
boundaries. -/
def charsBetween? (cs : List Char) (start stop : Nat) : Option Nat :=
  if start ≤ stop then
    match charIndex? cs start, charIndex? cs stop with
    | some i, some j => some (j - i)
    | _, _ => none
  else none

namespace Quoted

/-- Control characters: the ASCII ones, delete, and the block that follows it. -/
def isControl (c : Char) : Bool := c.val < 0x20 || (0x7f ≤ c.val && c.val < 0xa0)

/-- The lower-case hexadecimal digits of a code point, without leading zeros. -/
def hexDigits (c : Char) : String := String.ofList (Nat.toDigits 16 c.toNat)

/-- How one character is written between the quotes. -/
def charText (c : Char) : String :=
  match c with
  | '"' => "\\\""
  | '\\' => "\\\\"
  | '\n' => "\\n"
  | '\r' => "\\r"
  | '\t' => "\\t"
  | '\x00' => "\\0"
  | c => if isControl c then "\\u\x7b" ++ hexDigits c ++ "\x7d" else c.toString

/-- The quoted form of a text. -/
def quote (s : String) : String :=
  "\"" ++ String.join (s.toList.map charText) ++ "\""

end Quoted

namespace Lines

/-- The first line of a text and the lines after it, without the line feeds. -/
def split (cs : List Char) : List Char × List (List Char) :=
  cs.foldr (fun c ls => if c = '\n' then ([], ls.1 :: ls.2) else (c :: ls.1, ls.2)) ([], [])

/-- The empty text is one empty line. -/
@[simp]
theorem split_nil : split [] = ([], []) := rfl

/-- A line feed ends the first line, and any other character belongs to it. -/
theorem split_cons (c : Char) (cs : List Char) :
    split (c :: cs) =
      if c = '\n' then ([], (split cs).1 :: (split cs).2) else (c :: (split cs).1, (split cs).2) :=
  rfl

/-- The lines of a text with a line feed before each but the first make up the text. -/
theorem append_flatMap_split (cs : List Char) :
    (split cs).1 ++ (split cs).2.flatMap ('\n' :: ·) = cs := by
  induction cs with
  | nil => rfl
  | cons c cs ih =>
    rw [split_cons]
    split
    · simp_all
    · simp [ih]

/-- What stands before an indented line, once per level. -/
def pad : String := "  "

/-- A line one level deeper; an empty line stays empty. -/
def indentLine (line : String) : String := if line.isEmpty then line else pad ++ line

end Lines

/-- A non-empty sequence of lines, none of them holding its line break. -/
structure Block where
  first : String
  rest : List String
  deriving DecidableEq, Repr

namespace Block

/-- The lines of a block. -/
def lines (b : Block) : List String := b.first :: b.rest

/-- The block of a text, split at its line feeds. -/
def ofText (s : String) : Block :=
  let ls := Lines.split s.toList
  ⟨String.ofList ls.1, ls.2.map String.ofList⟩

/-- The text of a block, a line feed between two lines. -/
def text (b : Block) : String := "\n".intercalate b.lines

/-- One block above another. -/
def above (a b : Block) : Block := ⟨a.first, a.rest ++ b.lines⟩

/-- Blocks from top to bottom; no blocks at all make one empty line. -/
def stack : List Block → Block
  | [] => ⟨"", []⟩
  | b :: bs => ⟨b.first, b.rest ++ bs.flatMap lines⟩

/-- A text put before the first line. -/
def label (s : String) (b : Block) : Block := { b with first := s ++ b.first }

/-- The block one level deeper. -/
def indent (b : Block) : Block := ⟨Lines.indentLine b.first, b.rest.map Lines.indentLine⟩

/-- The blocks from top to bottom, each labelled by its index. -/
def indexed (bs : List Block) : Block := stack (bs.mapIdx fun i b => b.label s!"{i}: ")

end Block

/-- A text one level deeper: every line that is not empty gets two spaces. -/
def indent (s : String) : String := (Block.ofText s).indent.text

end ExprFront
