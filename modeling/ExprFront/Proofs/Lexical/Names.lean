import ExprFront.Proofs.Lexical.Boundary
import ExprFront.Proofs.Lexical.Locality
import ExprFront.Proofs.Lexical.Scan
import Mathlib

/-!
# Names and reserved words

A word that is spelled like a name is one token, and the table of keywords says of which kind
(`TokenKind.ofWord`). The lexer never splits such a word: where it reads a name, a keyword or an
underscore, the source goes on with a character that no name has (`lex_names`).
-/

namespace ExprFront

open Lexeme

namespace TokenKind

/-- The kind of a word that is spelled like a name. -/
def ofWord (word : String) : TokenKind :=
  match keyword? word with
  | some kind => kind
  | none => if word = "_" then .punct .underscore else .ident word

/-- Names, keywords and the underscore are spelled like names. -/
def IsWord : TokenKind → Prop
  | ident _ | keyword _ | punct .underscore => True
  | _ => False

/-- The word of a keyword is read as the keyword. -/
lemma ofWord_keyword (k : Keyword) : ofWord k.text = keyword k := by
  rw [ofWord, keyword?_eq_some_iff.2 ⟨k, rfl, rfl⟩]

/-- A word is read as a name if it is no keyword and no lone underscore. -/
lemma ofWord_eq_ident_iff {word name : String} :
    ofWord word = .ident name ↔ word = name ∧ keyword? word = none ∧ word ≠ "_" := by
  unfold ofWord
  split
  next kind h =>
    obtain ⟨k, -, rfl⟩ := keyword?_eq_some_iff.1 h
    simp [h]
  next h => split <;> simp_all

/-- A word that is read as a keyword is one. -/
lemma keyword?_of_ofWord {word : String} {k : Keyword} (h : ofWord word = .keyword k) :
    keyword? word = some (.keyword k) := by
  unfold ofWord at h
  split at h
  next hk => rw [hk, h]
  next => split at h <;> cases h

end TokenKind

/-- Keywords are spelled like names. -/
lemma Keyword.isName_text (k : Keyword) : IsName k.text.toList := by
  obtain ⟨a, v, hk, ha, -, hv⟩ := exists_keyword_text_eq k
  exact ⟨a, v, hk, ha, hv⟩

/-- What is read as a keyword, a name or an underscore is spelled like a name. -/
lemma WordClass.Language.isName {c : WordClass} {w : List Char} (h : c.Language w)
    (hk : (c.kind w).IsWord) : IsName w := by
  cases c with
  | keyword k =>
    obtain rfl : w = k.text.toList := h
    exact k.isName_text
  | punct p =>
    cases p with
    | underscore =>
      obtain rfl : w = ['_'] := h
      exact ⟨'_', [], rfl, by decide, nofun⟩
    | _ => exact hk.elim
  | int | float | str => exact hk.elim
  | ident => exact h

/-- Only keywords, the underscore and names have words that are spelled like names. -/
lemma WordClass.Language.isWord {c : WordClass} {w : List Char} (h : c.Language w) (hw : IsName w) :
    (c.kind w).IsWord := by
  obtain ⟨a, v, rfl, ha, -⟩ := hw
  have hs := h.starts
  cases c with
  | keyword k => trivial
  | punct p =>
    obtain rfl := hs.2.2 ha
    have hall : ∀ q ∈ Punct.all, q.text.toList.head? = some '_' → q = .underscore := by decide
    have hp : '_' :: v = p.text.toList := h
    obtain rfl := hall p (Punct.mem_all p) (by rw [← hp]; rfl)
    trivial
  | int | float =>
    rw [Rule.not_isWordStart_of_isDigit hs] at ha
    cases ha
  | str =>
    obtain rfl : a = '"' := hs
    exact absurd ha (by decide)
  | ident => trivial

/-- A word that is spelled like a name is read as a whole. -/
lemma IsName.exists_isLongestWord {w : List Char} (h : IsName w) : ∃ c, IsLongestWord c w [] := by
  by_cases hother : ∃ c : WordClass, c.Language w ∧ c ≠ .ident
  · obtain ⟨c, hc, hne⟩ := hother
    exact ⟨c, .of_word hc fun heq => absurd heq hne⟩
  · refine ⟨.ident, .of_word h fun _ c' hc' => ?_⟩
    by_contra hne
    exact hother ⟨c', hc', hne⟩

namespace IsLongestWord

variable {c : WordClass} {w rest : List Char}

/-- The rules of the lexer and the table of keywords say the same of a word. -/
lemma kind_eq_ofWord (h : IsLongestWord c w rest) (hw : IsName w) :
    c.kind w = .ofWord (String.ofList w) := by
  have hkind := h.word.isWord hw
  cases c with
  | keyword k =>
    obtain rfl : w = k.text.toList := h.word
    rw [String.ofList_toList, TokenKind.ofWord_keyword]
    rfl
  | punct p =>
    cases p with
    | underscore =>
      obtain rfl : w = ['_'] := h.word
      decide
    | _ => exact hkind.elim
  | int | float | str => exact hkind.elim
  | ident =>
    -- a word that another class has is not read as a name
    refine (TokenKind.ofWord_eq_ident_iff.2 ⟨rfl, ?_, ?_⟩).symm
    · rw [Option.eq_none_iff_forall_ne_some]
      intro kind hk
      obtain ⟨k, hword, -⟩ := TokenKind.keyword?_eq_some_iff.1 hk
      obtain rfl : w = k.text.toList := by rw [← hword, String.toList_ofList]
      cases h.name rfl (.keyword k) rfl
    · intro hword
      obtain rfl : w = ['_'] := by rw [← String.toList_ofList (l := w), hword]; rfl
      cases h.name rfl (.punct .underscore) rfl

/-- A word that is spelled like a name ends before a character that no name has. -/
lemma not_isWordPart (h : IsLongestWord c w rest) (hw : IsName w) :
    ∀ x ∈ rest.head?, Rule.isWordPart x = false := by
  intro x hx
  obtain ⟨rest, rfl⟩ := List.head?_eq_some_iff.1 hx
  rw [Bool.eq_false_iff]
  intro hpart
  obtain ⟨a, v, rfl, ha, hv⟩ := hw
  have hlonger : IsName (a :: (v ++ [x])) :=
    ⟨a, v ++ [x], rfl, ha, List.forall_mem_append.2 ⟨hv, List.forall_mem_singleton.2 hpart⟩⟩
  have hle := h.longest .ident (a :: (v ++ [x])) rest (by simp) hlonger
  simp only [List.length_cons, List.length_append, List.length_nil] at hle
  omega

end IsLongestWord

/-- A token of a source that is neither an error nor the end of file is made by the longest word at
its place. -/
lemma exists_readAt {source : List Char} {ts us : TokenList} {t : Token}
    (h : lex source = ts ++ t :: us) (herror : t.kind ≠ .error) (heof : t.kind ≠ .eof) :
    ∃ u c w v, source = u ++ w ++ v ∧ IsLongestWord c w v ∧ t.kind = c.kind w ∧
      t.ReadAt us u w v := by
  obtain ⟨ls, l, ms, hsplit, -, ht, hus⟩ := exists_lexeme h heof
  have hs := scans_split source
  rw [hsplit] at hs
  obtain ⟨u, _, rfl, hu, hs⟩ := hs.exists_append
  rw [Nat.zero_add, hu.flatMap_text] at ht hus
  cases hs with
  | @lexeme _ v _ hl hms =>
    have hspan := span_eq_of_tokensAt ht
    obtain ⟨kind, s⟩ := t
    cases hl with
    | blank | lineComment | blockComment => cases ht
    | openComment | openString | stray =>
      cases ht
      exact absurd rfl herror
    | @word c w _ hw =>
      cases ht
      rw [scans_iff.1 hms, ← byteLength_append] at hus
      subst hus
      refine ⟨u, c, w, v, by rw [List.append_assoc], hw, rfl, hw.readAt ?_⟩
      rw [byteLength_append]

/-- A word that is spelled like a name is read as one token, of the kind that the table says. -/
lemma lex_name {w : List Char} (h : IsName w) :
    lex w = [⟨.ofWord (String.ofList w), .ofOffsetsClamped 0 (byteLength w)⟩,
      .eofAt (clampOffset (byteLength w))] := by
  obtain ⟨c, hc⟩ := h.exists_isLongestWord
  have hlex := lex_word hc
  rwa [List.append_nil, hc.kind_eq_ofWord h, split_nil, place_nil] at hlex

/-- The lexer and the table of keywords agree on words, and no word is split. Where a source has a
name, a keyword or an underscore, a word that is spelled like a name stands, with no letter, digit
or underscore after it. It is a keyword if the table has it, and else a name or the underscore. Any
such word alone is one token of its kind. -/
theorem lex_names :
    (∀ source ts t us, lex source = ts ++ t :: us → t.kind.IsWord →
      ∃ u w v, source = u ++ w ++ v ∧ t.ReadAt us u w v ∧ IsName w ∧
        (∀ name, t.kind = .ident name →
          name = String.ofList w ∧ name ≠ "_" ∧ TokenKind.keyword? name = none) ∧
        (∀ k, t.kind = .keyword k → TokenKind.keyword? (String.ofList w) = some t.kind) ∧
        ∀ x ∈ v.head?, Rule.isWordPart x = false) ∧
    ∀ w, IsName w → lex w = [⟨.ofWord (String.ofList w), .ofOffsetsClamped 0 (byteLength w)⟩,
      .eofAt (clampOffset (byteLength w))] := by
  refine ⟨fun source ts t us hlex ht => ?_, fun w => lex_name⟩
  obtain ⟨u, c, w, v, hsource, hword, hkind, hread⟩ := exists_readAt hlex
    (fun herror => by rw [herror] at ht; exact ht) (fun heof => by rw [heof] at ht; exact ht)
  have hname : IsName w := by
    rw [hkind] at ht
    exact hword.word.isName ht
  rw [hword.kind_eq_ofWord hname] at hkind
  refine ⟨u, w, v, hsource, hread, hname, fun name hident => ?_, fun k hkeyword => ?_,
    hword.not_isWordPart hname⟩
  · obtain ⟨rfl, hnone, hne⟩ := TokenKind.ofWord_eq_ident_iff.1 (hkind.symm.trans hident)
    exact ⟨rfl, hne, hnone⟩
  · rw [hkeyword]
    exact TokenKind.keyword?_of_ofWord (hkind.symm.trans hkeyword)

/-- A keyword is read behind a digit, and a name that begins with it where it goes on. -/
theorem lex_names_behind_digit :
    lex "1super.super_".toList = [⟨.int "1", ⟨0, 1⟩⟩, ⟨.keyword .super, ⟨1, 6⟩⟩,
      ⟨.punct .dot, ⟨6, 7⟩⟩, ⟨.ident "super_", ⟨7, 13⟩⟩, .eofAt 13] ∧
    (∃ u w v, "1super.super_".toList = u ++ w ++ v ∧ IsName w ∧
      TokenKind.keyword? (String.ofList w) = some (.keyword .super) ∧
      ∀ x ∈ v.head?, Rule.isWordPart x = false) ∧
    IsName "super_".toList ∧
      lex "super_".toList = [⟨.ident "super_", ⟨0, 6⟩⟩, .eofAt 6] := by
  have hlex : lex "1super.super_".toList = [⟨.int "1", ⟨0, 1⟩⟩, ⟨.keyword .super, ⟨1, 6⟩⟩,
      ⟨.punct .dot, ⟨6, 7⟩⟩, ⟨.ident "super_", ⟨7, 13⟩⟩, .eofAt 13] := by cbv
  have hname : IsName "super_".toList := ⟨'s', ['u', 'p', 'e', 'r', '_'], rfl, by decide,
    List.all_eq_true.1 (by decide)⟩
  obtain ⟨u, w, v, hsource, -, hw, -, hkeyword, hv⟩ := lex_names.1 _ [_] _ _ hlex trivial
  exact ⟨hlex, ⟨u, w, v, hsource, hw, hkeyword .super rfl, hv⟩, hname, lex_names.2 _ hname⟩

end ExprFront
