import ExprFront.Lexical.Lexer
import ExprFront.Proofs.Lexical.Scan

/-!
# Boundaries of words

Where a word that is read on its own is also read in front of other text: a separator ends every
word, a character that no name has ends the words that begin like names, and marks of one character
end by themselves. `tokenKinds` lists the kinds of the tokens of a text.
-/

namespace ExprFront

open Lexeme Rule

namespace IsLongestWord

variable {c : WordClass} {w rest : List Char}

/-- A word is read on its own, and a name if no other class has it. -/
lemma of_word (h : c.Language w)
    (hname : c = .ident → ∀ c', WordClass.Language c' w → c' = .ident) :
    IsLongestWord c w [] where
  word := h
  longest _ v v' heq _ := by
    have hlen := congrArg List.length heq
    simp only [List.length_append, List.length_nil] at hlen
    omega
  name := hname

/-- The longest word in front of a text is the longest one on its own. -/
lemma alone (h : IsLongestWord c w rest) : IsLongestWord c w [] := of_word h.word h.name

/-- A word is read in front of other text if no word goes on there. -/
lemma append (h : IsLongestWord c w [])
    (hno : ∀ x u, rest.head? = some x → ∀ c' : WordClass, ¬ c'.Language (w ++ x :: u)) :
    IsLongestWord c w rest where
  word := h.word
  longest c' v v' heq hv := by
    obtain ⟨u, rfl, hrest⟩ | ⟨u, rfl, -⟩ := List.append_eq_append_iff.1 heq
    · cases u with
      | nil => simp
      | cons x u =>
        rw [hrest] at hno
        exact absurd hv (hno x u rfl c')
    · simp
  name := h.name

/-- A separator behind a word does not make it longer. -/
lemma append_separator (h : IsLongestWord c w []) (hrest : ∀ x ∈ rest.head?, isSeparator x = true) :
    IsLongestWord c w rest :=
  h.append fun x _ hx _ => h.word.not_append List.mem_cons_self (hrest x hx)

/-- A word that begins like a name ends before every character that no name has. -/
lemma append_not_isWordPart {a : Char} (h : IsLongestWord c (a :: w) []) (ha : isWordStart a = true)
    (hrest : ∀ x ∈ rest.head?, isWordPart x = false) : IsLongestWord c (a :: w) rest := by
  refine h.append fun x u hx c' hword => ?_
  have hpart := hword.isWordPart ha x (List.mem_append_right w List.mem_cons_self)
  rw [hrest x hx] at hpart
  exact Bool.false_ne_true hpart

/-- On its own the word of a keyword is read as the keyword. -/
lemma keyword_alone (k : Keyword) : IsLongestWord (.keyword k) k.text.toList [] :=
  of_word rfl nofun

/-- The word of a keyword is read as the keyword if no part of a word follows. -/
lemma keyword (k : Keyword) (hrest : ∀ x ∈ rest.head?, isWordPart x = false) :
    IsLongestWord (.keyword k) k.text.toList rest := by
  obtain ⟨a, v, hk, ha, -⟩ := exists_keyword_text_eq k
  have h := keyword_alone k
  rw [hk] at h ⊢
  exact h.append_not_isWordPart ha hrest

/-- A mark that is a separator ends by itself. -/
lemma separator {p : Punct} {x : Char} (hp : p.text.toList = [x]) (hx : isSeparator x = true) :
    IsLongestWord (.punct p) [x] rest := by
  have hword : WordClass.Language (.punct p) [x] := hp.symm
  refine (of_word hword nofun).append fun y u _ c' h => ?_
  obtain rfl | hu := h.of_isSeparator List.mem_cons_self hx
  · exact hword.starts.2.1 h.starts
  · cases hu

/-- A string literal ends at its closing quote. -/
lemma str (h : IsString w) : IsLongestWord .str w rest := by
  have hword : WordClass.Language .str w := h
  refine (of_word hword nofun).append fun x u _ c' h' => ?_
  obtain ⟨body, rfl, -⟩ := h
  have hs := h'.starts
  -- no other word begins with a quote
  cases c' with
  | str => exact absurd (IsString.append_eq_nil hword h') (List.cons_ne_nil x u)
  | punct p => exact hs.2.1 rfl
  | keyword k => exact absurd hs.1 (by decide)
  | int | float => exact absurd (show isDigit '"' = true from hs) (by decide)
  | ident => exact absurd (show isWordStart '"' = true from hs) (by decide)

/-- A dot ends before everything but another dot. -/
lemma dot (hrest : ∀ x ∈ rest.head?, x ≠ '.') : IsLongestWord (.punct .dot) ['.'] rest := by
  have hword : WordClass.Language (.punct .dot) ['.'] := rfl
  refine (of_word hword nofun).append fun x u hx c' h => ?_
  -- only marks begin with a dot, and the dot and the ellipsis are the only ones that do
  have hs := h.starts
  cases c' with
  | punct p =>
    have hall : ∀ q ∈ Punct.all, q.text.toList.head? = some '.' →
        q.text.toList.tail.head?.all (· == '.') = true := by decide
    have hp : '.' :: x :: u = p.text.toList := h
    have hdot := hall p (Punct.mem_all p)
    rw [← hp] at hdot
    exact hrest x hx (by simpa using hdot rfl)
  | keyword k => exact absurd hs.1 (by decide)
  | str => exact absurd (show '.' = '"' from hs) (by decide)
  | int | float => exact absurd (show isDigit '.' = true from hs) (by decide)
  | ident => exact absurd (show isWordStart '.' = true from hs) (by decide)

end IsLongestWord

/-- The kinds of the tokens of a text, without the end of file. -/
def tokenKinds (cs : List Char) : List TokenKind := (split cs).filterMap tokenKind?

/-- The kinds of placed tokens are those of the lexemes, and the end of file. -/
lemma kinds_place (offset : Nat) (ls : List Lexeme) :
    (place offset ls).kinds = ls.filterMap tokenKind? ++ [.eof] := by
  induction ls generalizing offset with
  | nil => rfl
  | cons l ls ih =>
    rw [place_cons, TokenList.kinds, List.map_append, ← TokenList.kinds, ← TokenList.kinds, ih,
      List.filterMap_cons]
    cases l.tokenKind? <;> rfl

/-- The end of file closes the tokens of a source. -/
lemma kinds_lex (source : List Char) : (lex source).kinds = tokenKinds source ++ [.eof] :=
  kinds_place 0 _

/-- The empty text has no tokens but the end of file. -/
@[simp]
lemma tokenKinds_nil : tokenKinds [] = [] := by
  rw [tokenKinds, split_nil]
  rfl

/-- The kind of the first lexeme comes before the kinds of the rest. -/
lemma tokenKinds_append {l : Lexeme} {rest : List Char} (h : Stands l rest) :
    tokenKinds (l.text ++ rest) = l.tokenKind?.toList ++ tokenKinds rest := by
  rw [tokenKinds, h.split, List.filterMap_cons]
  cases l.tokenKind? <;> rfl

/-- The kind of the first word comes before the kinds of the rest. -/
lemma tokenKinds_word {c : WordClass} {w rest : List Char} (h : IsLongestWord c w rest) :
    tokenKinds (w ++ rest) = c.kind w :: tokenKinds rest :=
  tokenKinds_append (.word h)

/-- A space at the front is no token. -/
lemma tokenKinds_space {rest : List Char} (h : ∀ x ∈ rest.head?, isBlank x = false) :
    tokenKinds (' ' :: rest) = tokenKinds rest :=
  tokenKinds_append (l := ⟨.blank, [' ']⟩) (.blank (List.cons_ne_nil _ _) (by simp [isBlank]) h)

/-- Every kind but the error is that of a longest word in the text. -/
lemma exists_of_mem_tokenKinds {cs : List Char} {k : TokenKind} (h : k ∈ tokenKinds cs)
    (hk : k ≠ .error) : ∃ u c w v, cs = u ++ w ++ v ∧ IsLongestWord c w v ∧ k = c.kind w := by
  have hs : Scans cs (split cs) := scans_iff.2 rfl
  rw [tokenKinds] at h
  generalize split cs = ls at hs h
  induction hs with
  | finish => exact absurd h List.not_mem_nil
  | @lexeme l rest ls hl _ ih =>
    obtain ⟨l', hl', hkind⟩ := List.mem_filterMap.1 h
    obtain rfl | hl' := List.mem_cons.1 hl'
    · cases hl with
      | blank | lineComment | blockComment => cases hkind
      | openComment | openString | stray =>
        cases hkind
        exact absurd rfl hk
      | @word c w _ hw =>
        cases hkind
        exact ⟨[], c, w, rest, rfl, hw, rfl⟩
    · obtain ⟨u, c, w, v, rfl, hw, rfl⟩ := ih (List.mem_filterMap.2 ⟨l', hl', hkind⟩)
      exact ⟨l.text ++ u, c, w, v, by simp only [List.append_assoc], hw, rfl⟩

/-- A token that is no error is written as a word, which is read as this token on its own. -/
lemma exists_word_of_mem_tokenKinds {cs : List Char} {k : TokenKind} (h : k ∈ tokenKinds cs)
    (hk : k ≠ .error) :
    ∃ c, IsLongestWord c k.text.toList [] ∧ c.kind k.text.toList = k := by
  obtain ⟨u, c, w, v, -, hw, rfl⟩ := exists_of_mem_tokenKinds h hk
  rw [hw.word.text_kind]
  exact ⟨c, hw.alone, rfl⟩

end ExprFront
