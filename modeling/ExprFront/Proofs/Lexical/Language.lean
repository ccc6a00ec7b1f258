import ExprFront.Lexical.Lexer
import ExprFront.Lexical.Regex
import Mathlib.Tactic.Lemma

/-!
# The words of the lexical rules

`WordClass.Language` says in plain terms which words a class of tokens has: fixed words, digits with
a prefix, a fraction or an exponent, quoted bodies, and names. `Rule.matches_iff` shows that these
are the words of the regular expressions in the rule table.
-/

namespace ExprFront

/-- A digit and then digits and underscores. -/
def IsDigits (isDigit : Char → Bool) (w : List Char) : Prop :=
  ∃ d ds, w = d :: ds ∧ isDigit d = true ∧ ∀ c ∈ ds, isDigit c = true ∨ c = '_'

/-- Digits behind a zero and a letter that names their base. -/
def IsPrefixed (mark : Char) (isDigit : Char → Bool) (w : List Char) : Prop :=
  ∃ ds, w = '0' :: mark :: ds ∧ IsDigits isDigit ds

/-- Integer literals in base 16, 8, 2 or 10. -/
def IsInt (w : List Char) : Prop :=
  IsPrefixed 'x' Rule.isHexDigit w ∨ IsPrefixed 'o' Rule.isOctalDigit w ∨
    IsPrefixed 'b' Rule.isBinaryDigit w ∨ IsDigits Rule.isDigit w

/-- The letter `e`, an optional sign, and digits. -/
def IsExponent (w : List Char) : Prop :=
  ∃ mark sign ds, w = mark :: (sign ++ ds) ∧ (mark = 'e' ∨ mark = 'E') ∧
    (sign = [] ∨ sign = ['+'] ∨ sign = ['-']) ∧ IsDigits Rule.isDigit ds

/-- Digits with a fraction, an exponent, or both. -/
def IsFloat (w : List Char) : Prop :=
  (∃ whole fraction exponent, w = whole ++ '.' :: (fraction ++ exponent) ∧
    IsDigits Rule.isDigit whole ∧ IsDigits Rule.isDigit fraction ∧
    (exponent = [] ∨ IsExponent exponent)) ∨
  (∃ whole exponent, w = whole ++ exponent ∧ IsDigits Rule.isDigit whole ∧ IsExponent exponent)

/-- What may stand between the quotes of a string literal. -/
inductive IsBody : List Char → Prop where
  | nil : IsBody []
  | plain {c cs} (hq : c ≠ '"') (hb : c ≠ '\\') (hn : c ≠ '\n') (hr : c ≠ '\r') (h : IsBody cs) :
    IsBody (c :: cs)
  | escape {c cs} (hn : c ≠ '\n') (h : IsBody cs) : IsBody ('\\' :: c :: cs)

/-- A body between quotes. -/
def IsString (w : List Char) : Prop := ∃ body, w = '"' :: (body ++ ['"']) ∧ IsBody body

/-- Words that are spelled like names. -/
def IsName (w : List Char) : Prop :=
  ∃ c cs, w = c :: cs ∧ Rule.isWordStart c = true ∧ ∀ d ∈ cs, Rule.isWordPart d = true

/-- The words of a class. -/
def WordClass.Language : WordClass → List Char → Prop
  | keyword k, w => w = k.text.toList
  | punct p, w => w = p.text.toList
  | int, w => IsInt w
  | float, w => IsFloat w
  | str, w => IsString w
  | ident, w => IsName w

/-- The spelling of a class that has one word only. -/
def WordClass.spelling? : WordClass → Option String
  | keyword k => some k.text
  | punct p => some p.text
  | _ => none

namespace Regex

/-- The words of a character. -/
lemma matches_char_iff {c : Char} {w : List Char} : Matches (char c) w ↔ w = [c] := by
  simp [char]

/-- The words of a character and what follows it. -/
lemma matches_char_seq_iff {c : Char} {r : Regex} {w : List Char} :
    Matches (seq (char c) r) w ↔ ∃ v, w = c :: v ∧ Matches r v := by
  rw [matches_seq_iff]
  refine ⟨?_, ?_⟩
  · intro h
    obtain ⟨u, v, rfl, hu, hv⟩ := h
    obtain rfl := matches_char_iff.1 hu
    exact ⟨v, rfl, hv⟩
  · intro h
    obtain ⟨v, rfl, hv⟩ := h
    exact ⟨[c], v, rfl, matches_char_iff.2 rfl, hv⟩

/-- The words of a character class and what follows it. -/
lemma matches_one_seq_iff {p : Char → Bool} {r : Regex} {w : List Char} :
    Matches (seq (one p) r) w ↔ ∃ c v, w = c :: v ∧ p c = true ∧ Matches r v := by
  rw [matches_seq_iff]
  refine ⟨?_, ?_⟩
  · intro h
    obtain ⟨u, v, rfl, hu, hv⟩ := h
    obtain ⟨c, hc, rfl⟩ := matches_one_iff.1 hu
    exact ⟨c, v, rfl, hc, hv⟩
  · intro h
    obtain ⟨c, v, rfl, hc, hv⟩ := h
    exact ⟨[c], v, rfl, .one hc, hv⟩

/-- A fixed word matches itself. -/
lemma matches_word_iff {cs w : List Char} : Matches (word cs) w ↔ w = cs := by
  induction cs generalizing w with
  | nil => exact matches_empty_iff
  | cons c cs ih =>
    rw [show word (c :: cs) = seq (char c) (word cs) from rfl, matches_char_seq_iff]
    refine ⟨?_, ?_⟩
    · intro h
      obtain ⟨v, rfl, hv⟩ := h
      rw [ih.1 hv]
    · rintro rfl
      exact ⟨cs, rfl, ih.2 rfl⟩

/-- An option matches the empty word and the words of its expression. -/
lemma matches_opt_iff {r : Regex} {w : List Char} :
    Matches (opt r) w ↔ w = [] ∨ Matches r w := by
  rw [opt, matches_alt_iff, matches_empty_iff]

/-- A star over single characters has the words of these characters. -/
lemma matches_star_one_iff {p : Char → Bool} {w : List Char} :
    Matches (star (one p)) w ↔ ∀ c ∈ w, p c = true := by
  induction w with
  | nil => exact ⟨fun _ _ h => absurd h List.not_mem_nil, fun _ => .starNil⟩
  | cons c w ih =>
    rw [matches_star_cons_iff, List.forall_mem_cons]
    refine ⟨?_, ?_⟩
    · intro h
      obtain ⟨u, v, rfl, hu, hv⟩ := h
      obtain ⟨d, hd, he⟩ := matches_one_iff.1 hu
      obtain ⟨rfl, rfl⟩ := List.cons.inj he
      exact ⟨hd, ih.1 hv⟩
    · intro h
      obtain ⟨hc, hw⟩ := h
      exact ⟨[], w, rfl, .one hc, ih.2 hw⟩

end Regex

namespace Rule

open Regex

/-- The words of digits. -/
lemma matches_digits_iff {p : Char → Bool} {w : List Char} :
    Matches (digits p) w ↔ IsDigits p w := by
  rw [digits, matches_one_seq_iff]
  simp only [matches_star_one_iff, Bool.or_eq_true, beq_iff_eq]
  rfl

/-- The words of digits behind the mark of a base. -/
lemma matches_prefixed_iff {mark : Char} {p : Char → Bool} {w : List Char} :
    Matches (prefixed mark p) w ↔ IsPrefixed mark p w := by
  simp only [prefixed, matches_char_seq_iff, matches_digits_iff]
  refine ⟨?_, ?_⟩
  · rintro ⟨v, rfl, ds, rfl, h⟩
    exact ⟨ds, rfl, h⟩
  · rintro ⟨ds, rfl, h⟩
    exact ⟨_, rfl, ds, rfl, h⟩

/-- The words of integer literals. -/
lemma matches_intPattern_iff {w : List Char} : Matches intPattern w ↔ IsInt w := by
  simp only [intPattern, matches_alt_iff, matches_prefixed_iff, matches_digits_iff]
  rfl

/-- The words of exponents. -/
lemma matches_exponentPattern_iff {w : List Char} :
    Matches exponentPattern w ↔ IsExponent w := by
  rw [exponentPattern, matches_one_seq_iff]
  simp only [matches_seq_iff, matches_opt_iff, matches_digits_iff, matches_one_iff,
    Bool.or_eq_true, beq_iff_eq]
  refine ⟨?_, ?_⟩
  · intro h
    obtain ⟨mark, v, rfl, hm, sign, ds, rfl, hs, hd⟩ := h
    refine ⟨mark, sign, ds, rfl, hm, ?_, hd⟩
    obtain rfl | ⟨c, rfl | rfl, rfl⟩ := hs <;> simp
  · intro h
    obtain ⟨mark, sign, ds, rfl, hm, hs, hd⟩ := h
    refine ⟨mark, _, rfl, hm, sign, ds, rfl, ?_, hd⟩
    obtain rfl | rfl | rfl := hs <;> simp

/-- The words of floating point literals. -/
lemma matches_floatPattern_iff {w : List Char} : Matches floatPattern w ↔ IsFloat w := by
  rw [floatPattern, matches_alt_iff]
  refine or_congr ?_ ?_
  · rw [matches_seq_iff]
    simp only [matches_char_seq_iff]
    simp only [matches_seq_iff, matches_opt_iff, matches_digits_iff, matches_exponentPattern_iff]
    refine ⟨?_, ?_⟩
    · intro h
      obtain ⟨whole, v, rfl, hw, _, rfl, fraction, exponent, rfl, hf, he⟩ := h
      exact ⟨whole, fraction, exponent, rfl, hw, hf, he⟩
    · intro h
      obtain ⟨whole, fraction, exponent, rfl, hw, hf, he⟩ := h
      exact ⟨whole, _, rfl, hw, _, rfl, fraction, exponent, rfl, hf, he⟩
  · simp only [matches_seq_iff, matches_digits_iff, matches_exponentPattern_iff]

/-- The words between the quotes of a string. -/
lemma matches_stringBody_iff {w : List Char} : Matches stringBody w ↔ IsBody w := by
  refine ⟨?_, ?_⟩
  · intro h
    generalize hr : stringBody = r at h
    induction h with
    | starNil => exact .nil
    | @starCons r u v hu _ _ ih =>
      have hv := ih hr
      cases hr
      obtain h | h := matches_alt_iff.1 hu
      · obtain ⟨c, hc, rfl⟩ := matches_one_iff.1 h
        simp only [Bool.and_eq_true, bne_iff_ne] at hc
        exact .plain hc.1.1.1 hc.1.1.2 hc.1.2 hc.2 hv
      · obtain ⟨v, rfl, hv'⟩ := matches_char_seq_iff.1 h
        obtain ⟨c, hc, rfl⟩ := matches_one_iff.1 hv'
        exact .escape (bne_iff_ne.1 hc) hv
    | _ => cases hr
  · intro h
    induction h with
    | nil => exact .starNil
    | @plain c cs hq hb hn hr _ ih =>
      refine .starCons (u := [c]) (.altLeft (.one ?_)) ih
      simp [hq, hb, hn, hr]
    | @escape c cs hn _ ih =>
      refine .starCons (u := ['\\', c]) (.altRight ?_) ih
      exact matches_char_seq_iff.2 ⟨[c], rfl, .one (bne_iff_ne.2 hn)⟩

/-- The words of strings that are not closed. -/
lemma matches_openString_iff {w : List Char} :
    Matches openString w ↔ ∃ body, w = '"' :: body ∧ IsBody body := by
  simp only [openString, matches_char_seq_iff, matches_stringBody_iff]

/-- The words of string literals. -/
lemma matches_stringPattern_iff {w : List Char} : Matches stringPattern w ↔ IsString w := by
  simp only [stringPattern, matches_char_seq_iff]
  simp only [matches_seq_iff, matches_stringBody_iff, matches_char_iff]
  refine ⟨?_, ?_⟩
  · intro h
    obtain ⟨_, rfl, body, _, rfl, hb, rfl⟩ := h
    exact ⟨body, rfl, hb⟩
  · intro h
    obtain ⟨body, rfl, hb⟩ := h
    exact ⟨_, rfl, body, _, rfl, hb, rfl⟩

/-- The words of names. -/
lemma matches_identPattern_iff {w : List Char} : Matches identPattern w ↔ IsName w := by
  rw [identPattern, matches_one_seq_iff]
  simp only [matches_star_one_iff]
  rfl

/-- The fixed words of the lexer are the keywords and the punctuation marks, as they are spelled. -/
lemma mem_fixedWords_iff {c : WordClass} {word : String} :
    (c, word) ∈ fixedWords ↔
      (∃ k : Keyword, c = .keyword k ∧ word = k.text) ∨
        ∃ p : Punct, c = .punct p ∧ word = p.text := by
  constructor
  · intro h
    have hall : ∀ w ∈ fixedWords, w.1.spelling? = some w.2 := by decide
    have hword := hall _ h
    cases c with
    | keyword k => exact .inl ⟨k, rfl, (Option.some.inj hword).symm⟩
    | punct p => exact .inr ⟨p, rfl, (Option.some.inj hword).symm⟩
    | _ => cases hword
  · rintro (⟨k, rfl, rfl⟩ | ⟨p, rfl, rfl⟩)
    · cases k <;> decide
    · cases p <;> decide

/-- The rules of the table, by class. -/
lemma mem_all_iff {rule : Rule} :
    rule ∈ all ↔ (∃ k : Keyword, rule = ⟨.keyword k, word k.text.toList⟩) ∨
      (∃ p : Punct, rule = ⟨.punct p, word p.text.toList⟩) ∨ rule = ⟨.int, intPattern⟩ ∨
      rule = ⟨.float, floatPattern⟩ ∨ rule = ⟨.str, stringPattern⟩ ∨
      rule = ⟨.ident, identPattern⟩ := by
  have hfixed : (∃ w ∈ fixedWords, ⟨w.1, word w.2.toList⟩ = rule) ↔
      (∃ k : Keyword, rule = ⟨.keyword k, word k.text.toList⟩) ∨
        ∃ p : Punct, rule = ⟨.punct p, word p.text.toList⟩ := by
    constructor
    · rintro ⟨⟨c, text⟩, hw, rfl⟩
      rcases mem_fixedWords_iff.1 hw with ⟨k, rfl, rfl⟩ | ⟨p, rfl, rfl⟩
      · exact .inl ⟨k, rfl⟩
      · exact .inr ⟨p, rfl⟩
    · rintro (⟨k, rfl⟩ | ⟨p, rfl⟩)
      · exact ⟨_, mem_fixedWords_iff.2 (.inl ⟨k, rfl, rfl⟩), rfl⟩
      · exact ⟨_, mem_fixedWords_iff.2 (.inr ⟨p, rfl, rfl⟩), rfl⟩
  simp only [all, List.mem_append, List.mem_map, hfixed, List.mem_cons, List.not_mem_nil, or_false,
    or_assoc]

/-- The regular expression of a rule has the words of its class. -/
theorem matches_iff {rule : Rule} (h : rule ∈ all) {w : List Char} :
    rule.pattern.Matches w ↔ rule.wordClass.Language w := by
  obtain ⟨k, rfl⟩ | ⟨p, rfl⟩ | rfl | rfl | rfl | rfl := mem_all_iff.1 h
  · exact matches_word_iff
  · exact matches_word_iff
  · exact matches_intPattern_iff
  · exact matches_floatPattern_iff
  · exact matches_stringPattern_iff
  · exact matches_identPattern_iff

/-- Every class has a rule. -/
lemma exists_mem_all (c : WordClass) : ∃ rule ∈ all, rule.wordClass = c := by
  cases c with
  | keyword k => exact ⟨_, mem_all_iff.2 (.inl ⟨k, rfl⟩), rfl⟩
  | punct p => exact ⟨_, mem_all_iff.2 (.inr (.inl ⟨p, rfl⟩)), rfl⟩
  | int => exact ⟨_, mem_all_iff.2 (.inr (.inr (.inl rfl))), rfl⟩
  | float => exact ⟨_, mem_all_iff.2 (.inr (.inr (.inr (.inl rfl)))), rfl⟩
  | str => exact ⟨_, mem_all_iff.2 (.inr (.inr (.inr (.inr (.inl rfl))))), rfl⟩
  | ident => exact ⟨_, mem_all_iff.2 (.inr (.inr (.inr (.inr (.inr rfl))))), rfl⟩

end Rule

end ExprFront
