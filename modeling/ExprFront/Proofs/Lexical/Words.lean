import ExprFront.Proofs.Lexical.Language

/-!
# The shape of words

How the words of a class begin, which characters they are made of, and which of them can be told
apart: only names share words with other classes (`Language.eq_or_ident`), a string literal is not
the beginning of another (`IsBody.append_inj`), and no word goes on across a character that
separates words (`Language.not_append`).
-/

namespace ExprFront

namespace Rule

/-- The digits by their places in the character table. -/
lemma isDigit_iff {c : Char} : isDigit c = true ↔ 48 ≤ c.toNat ∧ c.toNat ≤ 57 := by
  simp [isDigit, Char.le_def, UInt32.le_iff_toNat_le]

/-- The characters that start a word by their places in the character table. -/
lemma isWordStart_iff {c : Char} :
    isWordStart c = true ↔
      (97 ≤ c.toNat ∧ c.toNat ≤ 122) ∨ (65 ≤ c.toNat ∧ c.toNat ≤ 90) ∨ c = '_' := by
  simp [isWordStart, Char.le_def, UInt32.le_iff_toNat_le, or_assoc]

/-- A word goes on with what starts one or with digits. -/
lemma isWordPart_iff {c : Char} :
    isWordPart c = true ↔ isWordStart c = true ∨ isDigit c = true := by
  simp [isWordPart]

/-- The hexadecimal digits by their places in the character table. -/
lemma isHexDigit_iff {c : Char} :
    isHexDigit c = true ↔ (48 ≤ c.toNat ∧ c.toNat ≤ 57) ∨ (97 ≤ c.toNat ∧ c.toNat ≤ 102) ∨
      (65 ≤ c.toNat ∧ c.toNat ≤ 70) := by
  simp [isHexDigit, isDigit_iff, Char.le_def, UInt32.le_iff_toNat_le, or_assoc]

/-- The octal digits by their places in the character table. -/
lemma isOctalDigit_iff {c : Char} :
    isOctalDigit c = true ↔ 48 ≤ c.toNat ∧ c.toNat ≤ 55 := by
  simp [isOctalDigit, Char.le_def, UInt32.le_iff_toNat_le]

/-- The binary digits by their places in the character table. -/
lemma isBinaryDigit_iff {c : Char} : isBinaryDigit c = true ↔ 48 ≤ c.toNat ∧ c.toNat ≤ 49 := by
  have hchar : (c = '0' ↔ c.toNat = 48) ∧ (c = '1' ↔ c.toNat = 49) :=
    ⟨Char.toNat_inj.symm, Char.toNat_inj.symm⟩
  simp only [isBinaryDigit, Bool.or_eq_true, beq_iff_eq, hchar]
  omega

/-- Hexadecimal digits are parts of words. -/
lemma isWordPart_of_isHexDigit {c : Char} (h : isHexDigit c = true) : isWordPart c = true := by
  rw [isHexDigit_iff] at h
  rw [isWordPart_iff, isWordStart_iff, isDigit_iff]
  omega

/-- Octal digits are digits. -/
lemma isDigit_of_isOctalDigit {c : Char} (h : isOctalDigit c = true) : isDigit c = true := by
  rw [isOctalDigit_iff] at h
  rw [isDigit_iff]
  omega

/-- Binary digits are digits. -/
lemma isDigit_of_isBinaryDigit {c : Char} (h : isBinaryDigit c = true) : isDigit c = true := by
  rw [isBinaryDigit_iff] at h
  rw [isDigit_iff]
  omega

/-- No digit starts a word. -/
lemma not_isWordStart_of_isDigit {c : Char} (h : isDigit c = true) : isWordStart c = false := by
  rw [Bool.eq_false_iff]
  intro hs
  rw [isDigit_iff] at h
  obtain hs | hs | rfl := isWordStart_iff.1 hs
  · omega
  · omega
  · exact absurd h (by decide)

/-- The characters that no word holds, but a string literal or the character itself. -/
def isSeparator (c : Char) : Bool :=
  !isWordPart c && c != '.' && c != '+' && c != '-' && c != '>'

/-- Separators belong to no word, no number and no arrow. -/
lemma isSeparator_iff {c : Char} :
    isSeparator c = true ↔
      isWordPart c = false ∧ c ≠ '.' ∧ c ≠ '+' ∧ c ≠ '-' ∧ c ≠ '>' := by
  simp [isSeparator, and_assoc]

end Rule

open Rule

namespace WordClass

/-- The characters that the words of a class begin with. -/
def Starts : WordClass → Char → Prop
  | keyword _, a => isWordStart a = true ∧ a ≠ '_'
  | punct _, a => isDigit a = false ∧ a ≠ '"' ∧ (isWordStart a = true → a = '_')
  | int, a => isDigit a = true
  | float, a => isDigit a = true
  | str, a => a = '"'
  | ident, a => isWordStart a = true

end WordClass

/-- Keywords are made of the characters of words and do not begin with an underscore. -/
lemma exists_keyword_text_eq (k : Keyword) :
    ∃ a v, k.text.toList = a :: v ∧ isWordStart a = true ∧ a ≠ '_' ∧
      ∀ c ∈ v, isWordPart c = true := by
  cases k <;> exact ⟨_, _, rfl, by decide, by decide, List.all_eq_true.1 (by decide)⟩

/-- No punctuation mark begins like a number, a string or a word other than the underscore. -/
lemma exists_punct_text_eq (p : Punct) :
    ∃ a v, p.text.toList = a :: v ∧ isDigit a = false ∧ a ≠ '"' ∧
      (isWordStart a = true → a = '_') := by
  cases p <;> exact ⟨_, _, rfl, by decide, by decide, by decide⟩

/-- Keywords are spelled differently. -/
lemma Keyword.text_injective {k l : Keyword} (h : k.text.toList = l.text.toList) : k = l := by
  have hk := TokenKind.keyword?_text k
  rw [String.toList_inj.1 h, TokenKind.keyword?_text] at hk
  exact (TokenKind.keyword.inj (Option.some.inj hk)).symm

/-- All punctuation marks. -/
def Punct.all : List Punct :=
  [.dot, .comma, .colon, .lparen, .rparen, .lbracket, .rbracket, .lbrace, .rbrace, .arrow, .equals,
    .question, .bang, .atSign, .hash, .star, .ellipsis, .underscore]

/-- The list of punctuation marks is complete. -/
lemma Punct.mem_all (p : Punct) : p ∈ all := by
  cases p <;> decide

/-- Punctuation marks are spelled differently. -/
lemma Punct.text_injective {p q : Punct} (h : p.text.toList = q.text.toList) : p = q := by
  have hall : ∀ p ∈ all, ∀ q ∈ all, p.text = q.text → p = q := by decide
  exact hall p (mem_all p) q (mem_all q) (String.toList_inj.1 h)

namespace WordClass

/-- Words are not empty, and begin as their class says. -/
lemma Language.exists_cons {c : WordClass} {w : List Char} (h : c.Language w) :
    ∃ a v, w = a :: v ∧ c.Starts a := by
  cases c with
  | keyword k =>
    obtain ⟨a, v, hk, ha, hne, -⟩ := exists_keyword_text_eq k
    exact ⟨a, v, h.trans hk, ha, hne⟩
  | punct p =>
    obtain ⟨a, v, hp, ha⟩ := exists_punct_text_eq p
    exact ⟨a, v, h.trans hp, ha⟩
  | int =>
    obtain ⟨ds, rfl, -⟩ | ⟨ds, rfl, -⟩ | ⟨ds, rfl, -⟩ | ⟨d, ds, rfl, hd, -⟩ := h
    · exact ⟨'0', _, rfl, rfl⟩
    · exact ⟨'0', _, rfl, rfl⟩
    · exact ⟨'0', _, rfl, rfl⟩
    · exact ⟨d, ds, rfl, hd⟩
  | float =>
    obtain ⟨_, _, _, rfl, ⟨d, ds, rfl, hd, -⟩, -⟩ | ⟨_, _, rfl, ⟨d, ds, rfl, hd, -⟩, -⟩ := h
    · exact ⟨d, _, rfl, hd⟩
    · exact ⟨d, _, rfl, hd⟩
  | str =>
    obtain ⟨body, rfl, -⟩ := h
    exact ⟨'"', _, rfl, rfl⟩
  | ident =>
    obtain ⟨a, v, rfl, ha, -⟩ := h
    exact ⟨a, v, rfl, ha⟩

/-- No class has the empty word. -/
lemma Language.ne_nil {c : WordClass} {w : List Char} (h : c.Language w) : w ≠ [] := by
  obtain ⟨a, v, rfl, -⟩ := h.exists_cons
  exact List.cons_ne_nil a v

/-- Every word of a class starts with one of its characters. -/
lemma Language.starts {c : WordClass} {a : Char} {v : List Char} (h : c.Language (a :: v)) :
    c.Starts a := by
  obtain ⟨b, w, hw, hb⟩ := h.exists_cons
  cases hw
  exact hb

end WordClass

/-- Digits are made of the characters of words. -/
lemma IsDigits.isWordPart {p : Char → Bool} (hp : ∀ c, p c = true → isWordPart c = true)
    {w : List Char} (h : IsDigits p w) : ∀ c ∈ w, isWordPart c = true := by
  obtain ⟨d, ds, rfl, hd, hds⟩ := h
  intro c hc
  obtain rfl | hc := List.mem_cons.1 hc
  · exact hp _ hd
  · obtain hc | rfl := hds c hc
    · exact hp c hc
    · decide

/-- Digits are parts of words. -/
lemma isWordPart_of_isDigit {c : Char} (h : isDigit c = true) : isWordPart c = true :=
  isWordPart_iff.2 (.inr h)

/-- Digits behind the mark of a base are made of the characters of words. -/
lemma IsPrefixed.isWordPart {mark : Char} {p : Char → Bool}
    (hp : ∀ c, p c = true → isWordPart c = true) (hm : isWordPart mark = true) {w : List Char}
    (h : IsPrefixed mark p w) : ∀ c ∈ w, isWordPart c = true := by
  obtain ⟨ds, rfl, hds⟩ := h
  intro c hc
  obtain rfl | hc := List.mem_cons.1 hc
  · decide
  · obtain rfl | hc := List.mem_cons.1 hc
    · exact hm
    · exact hds.isWordPart hp c hc

/-- Integer literals are made of the characters of words. -/
lemma IsInt.isWordPart {w : List Char} (h : IsInt w) : ∀ c ∈ w, isWordPart c = true := by
  obtain h | h | h | h := h
  · exact h.isWordPart (fun _ => isWordPart_of_isHexDigit) (by decide)
  · exact h.isWordPart (fun _ hc => isWordPart_of_isDigit (isDigit_of_isOctalDigit hc)) (by decide)
  · exact h.isWordPart (fun _ hc => isWordPart_of_isDigit (isDigit_of_isBinaryDigit hc))
      (by decide)
  · exact h.isWordPart fun _ => isWordPart_of_isDigit

/-- Exponents are made of the characters of words and signs. -/
lemma IsExponent.isWordPart {w : List Char} (h : IsExponent w) :
    ∀ c ∈ w, isWordPart c = true ∨ c = '+' ∨ c = '-' := by
  obtain ⟨mark, sign, ds, rfl, hm, hs, hds⟩ := h
  intro c hc
  obtain rfl | hc := List.mem_cons.1 hc
  · obtain rfl | rfl := hm <;> exact .inl (by decide)
  · obtain hc | hc := List.mem_append.1 hc
    · obtain rfl | rfl | rfl := hs
      · exact absurd hc List.not_mem_nil
      · exact .inr (.inl (List.mem_singleton.1 hc))
      · exact .inr (.inr (List.mem_singleton.1 hc))
    · exact .inl (hds.isWordPart (fun _ => isWordPart_of_isDigit) c hc)

/-- Floating point literals are made of the characters of words, points and signs. -/
lemma IsFloat.isWordPart {w : List Char} (h : IsFloat w) :
    ∀ c ∈ w, isWordPart c = true ∨ c = '.' ∨ c = '+' ∨ c = '-' := by
  intro c hc
  obtain ⟨whole, fraction, exponent, rfl, hw, hf, he⟩ | ⟨whole, exponent, rfl, hw, he⟩ := h
  · obtain hc | hc := List.mem_append.1 hc
    · exact .inl (hw.isWordPart (fun _ => isWordPart_of_isDigit) c hc)
    · obtain rfl | hc := List.mem_cons.1 hc
      · exact .inr (.inl rfl)
      · obtain hc | hc := List.mem_append.1 hc
        · exact .inl (hf.isWordPart (fun _ => isWordPart_of_isDigit) c hc)
        · obtain rfl | he := he
          · exact absurd hc List.not_mem_nil
          · exact (he.isWordPart c hc).imp_right .inr
  · obtain hc | hc := List.mem_append.1 hc
    · exact .inl (hw.isWordPart (fun _ => isWordPart_of_isDigit) c hc)
    · exact (he.isWordPart c hc).imp_right .inr

/-- Names are made of the characters of words. -/
lemma IsName.isWordPart {w : List Char} (h : IsName w) : ∀ c ∈ w, isWordPart c = true := by
  obtain ⟨a, v, rfl, ha, hv⟩ := h
  intro c hc
  obtain rfl | hc := List.mem_cons.1 hc
  · exact isWordPart_iff.2 (.inl ha)
  · exact hv c hc

namespace WordClass

/-- A word that holds a separator is a string literal, or the separator alone. -/
lemma Language.of_isSeparator {c : WordClass} {w : List Char} (h : c.Language w) {x : Char}
    (hx : x ∈ w) (hsep : isSeparator x = true) : c = .str ∨ w = [x] := by
  obtain ⟨hpart, hdot, hplus, hminus, hgt⟩ := isSeparator_iff.1 hsep
  have hno : isWordPart x ≠ true := by
    rw [hpart]
    exact Bool.false_ne_true
  cases c with
  | keyword k =>
    obtain ⟨a, v, hk, ha, -, hv⟩ := exists_keyword_text_eq k
    obtain rfl := h.trans hk
    obtain rfl | hx := List.mem_cons.1 hx
    · exact absurd (isWordPart_iff.2 (.inl ha)) hno
    · exact absurd (hv x hx) hno
  | punct p =>
    right
    obtain rfl : w = p.text.toList := h
    -- the marks of more than one character are made of points, minus signs and greater signs
    have hall : ∀ q ∈ Punct.all, q.text.toList.length = 1 ∨
        q.text.toList.all (fun y => y == '.' || y == '-' || y == '>') = true := by decide
    obtain hlen | hall := hall p (Punct.mem_all p)
    · obtain ⟨y, hy⟩ := List.length_eq_one_iff.1 hlen
      rw [hy] at hx ⊢
      rw [List.mem_singleton.1 hx]
    · have hmark := List.all_eq_true.1 hall x hx
      simp only [Bool.or_eq_true, beq_iff_eq, or_assoc] at hmark
      obtain rfl | rfl | rfl := hmark
      · exact absurd rfl hdot
      · exact absurd rfl hminus
      · exact absurd rfl hgt
  | int => exact absurd (IsInt.isWordPart h x hx) hno
  | float =>
    obtain hx | rfl | rfl | rfl := IsFloat.isWordPart h x hx
    · exact absurd hx hno
    · exact absurd rfl hdot
    · exact absurd rfl hplus
    · exact absurd rfl hminus
  | str => exact .inl rfl
  | ident => exact absurd (IsName.isWordPart h x hx) hno

/-- A word that begins like a name consists of characters of names. -/
lemma Language.isWordPart {c : WordClass} {a : Char} {v : List Char} (h : c.Language (a :: v))
    (ha : isWordStart a = true) : ∀ x ∈ v, Rule.isWordPart x = true := by
  have hs := h.starts
  cases c with
  | keyword k =>
    obtain ⟨b, u, hk, -, -, hu⟩ := exists_keyword_text_eq k
    cases h.trans hk
    exact hu
  | punct p =>
    obtain rfl := hs.2.2 ha
    have hall : ∀ q ∈ Punct.all, q.text.toList.head? = some '_' → q.text.toList.tail = [] := by
      decide
    have hv := hall p (Punct.mem_all p)
    rw [← show '_' :: v = p.text.toList from h] at hv
    obtain rfl : v = [] := hv rfl
    exact fun x hx => absurd hx List.not_mem_nil
  | int => exact absurd ha (by rw [not_isWordStart_of_isDigit hs]; decide)
  | float => exact absurd ha (by rw [not_isWordStart_of_isDigit hs]; decide)
  | str =>
    obtain rfl : a = '"' := hs
    exact absurd ha (by decide)
  | ident => exact fun x hx => IsName.isWordPart h x (List.mem_cons_of_mem a hx)

end WordClass

/-- Where the body of a string literal that is never closed stops: at the end of the text, a line
feed, a carriage return, or a backslash with no character after it that it could escape. -/
inductive OpenEnd : List Char → Prop where
  | finish : OpenEnd []
  | lineFeed {cs} : OpenEnd ('\n' :: cs)
  | carriageReturn {cs} : OpenEnd ('\r' :: cs)
  | backslash : OpenEnd ['\\']
  | backslashLineFeed {cs} : OpenEnd ('\\' :: '\n' :: cs)

/-- Where the body of a string literal stops: at its quote, or where an open one does. -/
def BodyEnd (cs : List Char) : Prop := OpenEnd cs ∨ ∃ ds, cs = '"' :: ds

/-- What may stand between quotes may stand there one after the other. -/
lemma IsBody.append {u v : List Char} (hu : IsBody u) (hv : IsBody v) : IsBody (u ++ v) := by
  induction hu with
  | nil => exact hv
  | plain hq hb hn hr _ ih => exact .plain hq hb hn hr ih
  | escape hn _ ih => exact .escape hn ih

/-- A text without a body at its front but the empty one is where bodies end. -/
lemma bodyEnd_of_forall {cs : List Char} (h : ∀ u v, cs = u ++ v → IsBody u → u = []) :
    BodyEnd cs := by
  cases cs with
  | nil => exact .inl .finish
  | cons c cs =>
    by_cases hq : c = '"'
    · exact .inr ⟨cs, by rw [hq]⟩
    · by_cases hb : c = '\\'
      · subst hb
        cases cs with
        | nil => exact .inl .backslash
        | cons d ds =>
          by_cases hn : d = '\n'
          · subst hn
            exact .inl .backslashLineFeed
          · exact absurd (h ['\\', d] ds rfl (.escape hn .nil)) (List.cons_ne_nil _ _)
      · by_cases hn : c = '\n'
        · subst hn
          exact .inl .lineFeed
        · by_cases hr : c = '\r'
          · subst hr
            exact .inl .carriageReturn
          · exact absurd (h [c] cs rfl (.plain hq hb hn hr .nil)) (List.cons_ne_nil _ _)

/-- No body but the empty one stands where bodies end. -/
lemma BodyEnd.eq_nil {u v : List Char} (h : BodyEnd (u ++ v)) (hu : IsBody u) : u = [] := by
  cases hu with
  | nil => rfl
  | plain hq hb hn hr _ =>
    rw [List.cons_append] at h
    obtain h | ⟨ds, h⟩ := h
    · generalize _ ++ v = w at h
      cases h
      · exact absurd rfl hn
      · exact absurd rfl hr
      · exact absurd rfl hb
      · exact absurd rfl hb
    · exact absurd (List.cons.inj h).1 hq
  | escape hn _ =>
    rw [List.cons_append, List.cons_append] at h
    obtain h | ⟨ds, h⟩ := h
    · generalize _ ++ v = w at h
      cases h
      exact absurd rfl hn
    · exact absurd (List.cons.inj h).1 (by decide)

/-- A body that goes on to where bodies end is the longest one at the front of a text. -/
lemma IsBody.length_le {u u' v v' : List Char} (hu : IsBody u) (hu' : IsBody u') (hv : BodyEnd v)
    (h : u ++ v = u' ++ v') : u'.length ≤ u.length := by
  induction hu generalizing u' with
  | nil =>
    rw [List.nil_append] at h
    obtain rfl := BodyEnd.eq_nil (h ▸ hv) hu'
    exact Nat.le_refl _
  | plain _ hb _ _ _ ih =>
    cases hu' with
    | nil => exact Nat.zero_le _
    | plain _ _ _ _ hcs' => exact Nat.succ_le_succ (ih hcs' (List.cons.inj h).2)
    | escape => exact absurd (List.cons.inj h).1 hb
  | escape _ _ ih =>
    cases hu' with
    | nil => exact Nat.zero_le _
    | plain _ hb' _ _ _ => exact absurd (List.cons.inj h).1.symm hb'
    | escape _ hcs' =>
      have hle := ih hcs' (List.cons.inj (List.cons.inj h).2).2
      simp only [List.length_cons]
      omega

/-- A text is in one way a body and a rest where bodies end. -/
lemma IsBody.append_inj {u u' v v' : List Char} (hu : IsBody u) (hu' : IsBody u') (hv : BodyEnd v)
    (hv' : BodyEnd v') (h : u ++ v = u' ++ v') : u = u' ∧ v = v' :=
  List.append_inj h (Nat.le_antisymm (hu'.length_le hu hv' h.symm) (hu.length_le hu' hv h))

/-- A string literal is not the beginning of a longer one. -/
lemma IsString.append_eq_nil {w v : List Char} (h : IsString w) (h' : IsString (w ++ v)) :
    v = [] := by
  obtain ⟨b, rfl, hb⟩ := h
  obtain ⟨b', hv, hb'⟩ := h'
  have heq : b ++ '"' :: v = b' ++ ['"'] := by
    rw [List.cons_append, List.append_assoc] at hv
    exact (List.cons.inj hv).2
  obtain ⟨-, hv⟩ := hb.append_inj hb' (.inr ⟨_, rfl⟩) (.inr ⟨_, rfl⟩) heq
  exact (List.cons.inj hv).2

/-- Digits go on with digits and underscores. -/
lemma IsDigits.append_cons {p : Char → Bool} {w v : List Char} {x : Char}
    (h : IsDigits p (w ++ x :: v)) (hw : w ≠ []) : p x = true ∨ x = '_' := by
  obtain ⟨d, ds, he, -, hds⟩ := h
  obtain ⟨a, u, rfl⟩ := List.exists_cons_of_ne_nil hw
  obtain ⟨rfl, rfl⟩ := List.cons.inj he
  exact hds x (List.mem_append_right u List.mem_cons_self)

/-- A float has decimal digits, and after them a point or the letter `e`. -/
lemma IsFloat.exists_eq {w : List Char} (h : IsFloat w) :
    ∃ ds x v, w = ds ++ x :: v ∧ IsDigits isDigit ds ∧ (x = '.' ∨ x = 'e' ∨ x = 'E') := by
  obtain ⟨whole, fraction, exponent, rfl, hw, -, -⟩ |
    ⟨whole, exponent, rfl, hw, mark, sign, ds, rfl, hm, -, -⟩ := h
  · exact ⟨whole, '.', _, rfl, hw, .inl rfl⟩
  · exact ⟨whole, mark, _, rfl, hw, .inr hm⟩

/-- The second character of a float is a digit, an underscore, a point or the letter `e`. -/
lemma IsFloat.not_isPrefixed {mark : Char} {p : Char → Bool} {w : List Char} (h : IsFloat w)
    (hm : mark = 'x' ∨ mark = 'o' ∨ mark = 'b') : ¬ IsPrefixed mark p w := by
  intro h
  obtain ⟨_, rfl, -⟩ := h
  obtain ⟨_, x, v, he, ⟨d, ds, rfl, -, hds⟩, hx⟩ := h.exists_eq
  have he' := (List.cons.inj he).2
  cases ds with
  | nil =>
    obtain rfl := (List.cons.inj he').1
    obtain rfl | rfl | rfl := hm <;> exact absurd hx (by decide)
  | cons e ds =>
    obtain rfl := (List.cons.inj he').1
    have hmark := hds mark List.mem_cons_self
    obtain rfl | rfl | rfl := hm <;> exact absurd hmark (by decide)

/-- No integer literal is a floating point literal. -/
lemma IsInt.not_isFloat {w : List Char} (h : IsInt w) : ¬ IsFloat w := by
  intro hf
  obtain h | h | h | h := h
  · exact hf.not_isPrefixed (.inl rfl) h
  · exact hf.not_isPrefixed (.inr (.inl rfl)) h
  · exact hf.not_isPrefixed (.inr (.inr rfl)) h
  · obtain ⟨ds, x, v, rfl, ⟨d, ds', rfl, -⟩, hx⟩ := hf.exists_eq
    have hd := h.append_cons (List.cons_ne_nil d ds')
    obtain rfl | rfl | rfl := hx <;> exact absurd hd (by decide)

namespace WordClass

/-- Only names share their words with other classes. -/
lemma Language.eq_or_ident {c c' : WordClass} {w : List Char} (h : c.Language w)
    (h' : c'.Language w) : c = c' ∨ c = .ident ∨ c' = .ident := by
  obtain ⟨a, v, rfl, hs⟩ := h.exists_cons
  have hs' := h'.starts
  have hquote : isDigit '"' = false ∧ isWordStart '"' = false := by decide
  have hdigit := @not_isWordStart_of_isDigit a
  cases c <;> cases c' <;> simp only [reduceCtorEq, or_false, or_true, or_self]
  case keyword.keyword k l => rw [Keyword.text_injective (h.symm.trans h')]
  case punct.punct p q => rw [Punct.text_injective (h.symm.trans h')]
  case int.float => exact IsInt.not_isFloat h h'
  case float.int => exact IsInt.not_isFloat h' h
  -- the words of the other pairs of classes begin with different characters
  all_goals grind [Starts]

/-- No word goes on past the end of another one and across a separator. -/
lemma Language.not_append {c c' : WordClass} {w v : List Char} {x : Char} (h : c.Language w)
    (hx : x ∈ v) (hsep : isSeparator x = true) : ¬ c'.Language (w ++ v) := by
  intro h'
  obtain ⟨a, u, rfl, hs⟩ := h.exists_cons
  obtain rfl | hw := h'.of_isSeparator (List.mem_append_right _ hx) hsep
  · obtain rfl : a = '"' := h'.starts
    have hquote : isDigit '"' = false ∧ isWordStart '"' = false := by decide
    obtain rfl : c = .str := by
      cases c <;> grind [Starts]
    rw [IsString.append_eq_nil h h'] at hx
    exact List.not_mem_nil hx
  · have hnil := (List.append_eq_nil_iff.1 (List.cons.inj hw).2).2
    rw [hnil] at hx
    exact List.not_mem_nil hx

/-- The kind of a word displays as the word. -/
lemma Language.text_kind {c : WordClass} {w : List Char} (h : c.Language w) :
    (c.kind w).text.toList = w := by
  cases c with
  | keyword k => exact Eq.symm h
  | punct p => exact Eq.symm h
  | int | float | str | ident => exact String.toList_ofList

end WordClass

end ExprFront
