import ExprFront.Lexical.Lexer
import ExprFront.Proofs.Lexical.Longest

/-!
# Scanning

`Lexeme.Stands l rest` says, without the functions that scan, that the lexeme `l` is what stands at
the front of a text when `rest` follows it, and `Scans` cuts a whole text into such lexemes. There
is exactly one way to do this, and it is the one of `Lexeme.split` (`scans_iff`).

`Tokenizes` reads a text from front to back: it skips blanks and comments, makes a token of the
longest word that any rule has at the front of the text, and an error token of what no rule reads.
The tokens of `lex` are the only ones that it gives (`lex_longest_match`).
-/

namespace ExprFront

namespace Lexeme

/-- A block comment whose text after the opening mark is `body` and a closing mark has no closing
mark before that one. -/
def FirstClose (body : List Char) : Prop :=
  ∀ u v, body ++ ['*', '/'] = u ++ '*' :: '/' :: v → v = []

/-- No block comment is closed in a text. -/
def NoClose (cs : List Char) : Prop := ∀ u v, cs ≠ u ++ '*' :: '/' :: v

/-- The lexeme stands at the front of its text with `rest` after it. -/
inductive Stands : Lexeme → List Char → Prop where
  /-- A maximal run of blanks. -/
  | blank {cs rest} (hne : cs ≠ []) (h : ∀ c ∈ cs, isBlank c = true)
    (hrest : ∀ c ∈ rest.head?, isBlank c = false) :
    Stands ⟨.blank, cs⟩ rest
  /-- Two slashes and all before the next line feed or the end. -/
  | lineComment {body rest} (h : '\n' ∉ body) (hrest : ∀ c ∈ rest.head?, c = '\n') :
    Stands ⟨.comment, '/' :: '/' :: body⟩ rest
  /-- A block comment through its first closing mark. -/
  | blockComment {body rest} (h : FirstClose body) :
    Stands ⟨.comment, '/' :: '*' :: (body ++ ['*', '/'])⟩ rest
  /-- A block comment that is never closed takes the rest of the text. -/
  | openComment {body} (h : NoClose body) :
    Stands ⟨.invalid, '/' :: '*' :: body⟩ []
  /-- The longest word of any class. -/
  | word {c w rest} (h : IsLongestWord c w rest) :
    Stands ⟨.word c, w⟩ rest
  /-- A quote without a string literal, as far as its body goes. -/
  | openString {body rest} (hno : NoWord ('"' :: (body ++ rest))) (h : IsBody body)
    (hrest : OpenEnd rest) :
    Stands ⟨.invalid, '"' :: body⟩ rest
  /-- One character where nothing else stands. -/
  | stray {c rest} (hno : NoWord (c :: rest)) (hblank : isBlank c = false) (hquote : c ≠ '"')
    (hslash : c = '/' → ∀ d ∈ rest.head?, d ≠ '/' ∧ d ≠ '*') :
    Stands ⟨.invalid, [c]⟩ rest

/-- The text is cut into the lexemes, each of them standing where it begins. -/
inductive Scans : List Char → List Lexeme → Prop where
  | finish : Scans [] []
  | lexeme {l rest ls} (h : Stands l rest) (hs : Scans rest ls) : Scans (l.text ++ rest) (l :: ls)

/-- If no comment is closed in a text then none is in its end. -/
lemma NoClose.tail {c : Char} {cs : List Char} (h : NoClose (c :: cs)) : NoClose cs := by
  intro u v heq
  exact h (c :: u) v (by rw [heq]; rfl)

/-- The first closing mark stays the first one if there is less text before it. -/
lemma FirstClose.tail {c : Char} {body : List Char} (h : FirstClose (c :: body)) :
    FirstClose body := by
  intro u v heq
  exact h (c :: u) v (by rw [List.cons_append, heq]; rfl)

/-- A closing mark that begins before another one ends before it. -/
lemma exists_eq_of_append_close {c : Char} {body rest v : List Char}
    (h : c :: (body ++ '*' :: '/' :: rest) = '*' :: '/' :: v) :
    ∃ u, c :: body = '*' :: '/' :: u := by
  obtain ⟨rfl, htail⟩ := List.cons.inj h
  cases body with
  | nil => cases htail
  | cons d body =>
    obtain ⟨rfl, -⟩ := List.cons.inj htail
    exact ⟨body, rfl⟩

/-- A text is without a closing mark, or has a first one. -/
lemma noClose_or_exists (cs : List Char) :
    NoClose cs ∨ ∃ body rest, cs = body ++ '*' :: '/' :: rest ∧ FirstClose body := by
  induction cs with
  | nil => exact .inl fun u v h => by simp at h
  | cons c cs ih =>
    by_cases hc : ∃ v, c :: cs = '*' :: '/' :: v
    · obtain ⟨v, hv⟩ := hc
      refine .inr ⟨[], v, hv, fun u v h => ?_⟩
      have hlen := congrArg List.length h
      simp only [List.nil_append, List.length_append, List.length_cons, List.length_nil] at hlen
      exact List.eq_nil_of_length_eq_zero (by omega)
    · obtain h | ⟨body, rest, rfl, h⟩ := ih
      · refine .inl fun u v heq => ?_
        cases u with
        | nil => exact hc ⟨v, heq⟩
        | cons d u => exact h u v (List.cons.inj heq).2
      · refine .inr ⟨c :: body, rest, rfl, fun u v heq => ?_⟩
        cases u with
        | nil =>
          obtain ⟨u, hu⟩ := exists_eq_of_append_close heq
          exact absurd ⟨u ++ '*' :: '/' :: rest, by rw [← List.cons_append, hu]; rfl⟩ hc
        | cons d u => exact h u v (List.cons.inj heq).2

/-- The search for the closing mark goes on behind a character that does not begin it. -/
lemma blockEndFrom?_cons {n : Nat} {c : Char} {cs : List Char}
    (h : ∀ v, c :: cs ≠ '*' :: '/' :: v) :
    blockEndFrom? n (c :: cs) = blockEndFrom? (n + 1) cs := by
  rw [blockEndFrom?]
  intro v hc hcs
  exact h v (by rw [hc, hcs])

/-- Without a closing mark the search finds nothing. -/
lemma blockEndFrom?_of_noClose {n : Nat} {cs : List Char} (h : NoClose cs) :
    blockEndFrom? n cs = none := by
  induction cs generalizing n with
  | nil => rfl
  | cons c cs ih => rw [blockEndFrom?_cons fun v => h [] v, ih h.tail]

/-- The search finds the first closing mark. -/
lemma blockEndFrom?_of_firstClose {n : Nat} {body rest : List Char} (h : FirstClose body) :
    blockEndFrom? n (body ++ '*' :: '/' :: rest) = some (n + (body.length + 2)) := by
  induction body generalizing n with
  | nil => rfl
  | cons c body ih =>
    rw [List.cons_append, blockEndFrom?_cons, ih h.tail]
    · congr 1
      simp only [List.length_cons]
      omega
    · -- a closing mark at the front would come before the first one
      intro v hv
      obtain ⟨u, hu⟩ := exists_eq_of_append_close hv
      exact absurd (h [] (u ++ ['*', '/']) (by rw [hu]; rfl)) (by simp)

end Lexeme

/-- A text has a longest body at its front. -/
lemma exists_body (cs : List Char) :
    ∃ body rest, cs = body ++ rest ∧ IsBody body ∧ BodyEnd rest := by
  cases hl : Rule.stringBody.longest cs with
  | none =>
    exact absurd (Rule.matches_stringBody_iff.2 .nil)
      (Regex.longest_eq_none_iff.1 hl 0 (Nat.zero_le _))
  | some n =>
    obtain ⟨hn, hm, hmax⟩ := Regex.longest_eq_some_iff.1 hl
    have hbody := Rule.matches_stringBody_iff.1 hm
    refine ⟨cs.take n, cs.drop n, (List.take_append_drop n cs).symm, hbody,
      bodyEnd_of_forall fun u v heq hu => ?_⟩
    -- more of a body would make the match longer
    have hlen := congrArg List.length heq
    simp only [List.length_drop, List.length_append] at hlen
    by_contra hne
    have hpos : 0 < u.length := List.length_pos_iff.2 hne
    refine hmax (n + u.length) (by omega) (by omega) (Rule.matches_stringBody_iff.2 ?_)
    rw [List.take_add, heq, List.take_left]
    exact hbody.append hu

/-- An open string is as long as its body goes. -/
lemma longest_openString {body rest : List Char} (h : IsBody body) (hrest : BodyEnd rest) :
    Rule.openString.longest ('"' :: (body ++ rest)) = some (body.length + 1) := by
  refine Regex.longest_eq_some_iff.2 ⟨by simp, ?_, fun m hlt hle hm => ?_⟩
  · rw [List.take_succ_cons, List.take_left]
    exact Rule.matches_openString_iff.2 ⟨body, rfl, h⟩
  · obtain ⟨body', heq, h'⟩ := Rule.matches_openString_iff.1 hm
    obtain ⟨k, rfl⟩ : ∃ k, m = k + 1 := ⟨m - 1, by omega⟩
    rw [List.take_succ_cons] at heq
    obtain rfl := (List.cons.inj heq).2
    have hmax := h.length_le h' hrest (List.take_append_drop k _).symm
    simp only [List.length_cons] at hle
    rw [List.length_take] at hmax
    omega

/-- An unclosed string begins with a quote. -/
lemma longest_openString_of_ne {c : Char} {cs : List Char} (h : c ≠ '"') :
    Rule.openString.longest (c :: cs) = none := by
  refine Regex.longest_eq_none_iff.2 fun n _ hm => ?_
  obtain ⟨body, heq, -⟩ := Rule.matches_openString_iff.1 hm
  cases n with
  | zero => cases heq
  | succ n => exact h (List.cons.inj heq).1

/-- The longest run of a kind of characters, where no more of them follow. -/
lemma takeWhile_append_eq {p : Char → Bool} {w rest : List Char} (hw : ∀ c ∈ w, p c = true)
    (hrest : ∀ c ∈ rest.head?, p c = false) : (w ++ rest).takeWhile p = w := by
  rw [List.takeWhile_append_of_pos hw]
  cases rest with
  | nil => exact List.append_nil w
  | cons c rest =>
    rw [List.takeWhile_cons_of_neg (by rw [hrest c rfl]; exact Bool.false_ne_true),
      List.append_nil]

/-- Every text begins with a longest run of characters of one kind. -/
lemma exists_run (p : Char → Bool) (cs : List Char) :
    ∃ w rest, cs = w ++ rest ∧ (∀ c ∈ w, p c = true) ∧ ∀ c ∈ rest.head?, p c = false := by
  induction cs with
  | nil => exact ⟨[], [], rfl, nofun, nofun⟩
  | cons c cs ih =>
    cases hc : p c with
    | false =>
      refine ⟨[], c :: cs, rfl, nofun, fun d hd => ?_⟩
      cases hd
      exact hc
    | true =>
      obtain ⟨w, rest, rfl, hw, hrest⟩ := ih
      exact ⟨c :: w, rest, rfl, List.forall_mem_cons.2 ⟨hc, hw⟩, hrest⟩

/-- No part of a word is a blank or a slash. -/
lemma not_isBlank_of_isWordPart {c : Char} (h : Rule.isWordPart c = true) :
    Lexeme.isBlank c = false ∧ c ≠ '/' := by
  refine ⟨Bool.eq_false_iff.2 fun hblank => ?_, ?_⟩
  · simp only [Lexeme.isBlank, Bool.or_eq_true, beq_iff_eq] at hblank
    obtain (((rfl | rfl) | rfl) | rfl) | rfl := hblank <;> exact absurd h (by decide)
  · rintro rfl
    exact absurd h (by decide)

/-- No word begins with a blank or a slash. -/
lemma WordClass.Language.not_isBlank {c : WordClass} {a : Char} {v : List Char}
    (h : c.Language (a :: v)) : Lexeme.isBlank a = false ∧ a ≠ '/' := by
  have hs := h.starts
  cases c with
  | keyword k => exact not_isBlank_of_isWordPart (Rule.isWordPart_iff.2 (.inl hs.1))
  | punct p =>
    have hall : ∀ q ∈ Punct.all,
        q.text.toList.head?.all (fun b => !Lexeme.isBlank b && b != '/') = true := by decide
    have hp : a :: v = p.text.toList := h
    have hfront := hall p (Punct.mem_all p)
    rw [← hp] at hfront
    simpa using hfront
  | int => exact not_isBlank_of_isWordPart (isWordPart_of_isDigit hs)
  | float => exact not_isBlank_of_isWordPart (isWordPart_of_isDigit hs)
  | str =>
    obtain rfl : a = '"' := hs
    decide
  | ident => exact not_isBlank_of_isWordPart (Rule.isWordPart_iff.2 (.inl hs))

namespace Lexeme

/-- A slash and a second one or a star begin a comment. -/
lemma front_of_comment {c : Char} {cs : List Char} (h : c = '/' ∨ c = '*') :
    front ('/' :: c :: cs) = (comment? ('/' :: c :: cs)).getD (.invalid, 0) := by
  rw [front, List.takeWhile_cons_of_neg (by decide)]
  obtain rfl | rfl := h
  · rfl
  · rw [comment?]
    cases blockEnd? cs <;> rfl

/-- A text that begins with no blank and no comment is read by the rules. -/
lemma front_of_not_comment {c : Char} {cs : List Char} (hblank : isBlank c = false)
    (hslash : c = '/' → ∀ d ∈ cs.head?, d ≠ '/' ∧ d ≠ '*') :
    front (c :: cs) =
      match Rule.longest (c :: cs) with
      | some (w, n) => (.word w, n)
      | none => (.invalid, invalidLength (c :: cs)) := by
  have hcomment : comment? (c :: cs) = none := by
    unfold comment?
    split
    next heq =>
      obtain ⟨rfl, rfl⟩ := List.cons.inj heq
      exact absurd rfl (hslash rfl '/' rfl).1
    next heq =>
      obtain ⟨rfl, rfl⟩ := List.cons.inj heq
      exact absurd rfl (hslash rfl '*' rfl).2
    next => rfl
  rw [front, List.takeWhile_cons_of_neg (by rw [hblank]; exact Bool.false_ne_true), hcomment]
  cases Rule.longest (c :: cs) <;> rfl

/-- What stands at the front of a text is found there. -/
lemma Stands.front {l : Lexeme} {rest : List Char} (h : Stands l rest) :
    front (l.text ++ rest) = (l.kind, l.text.length) := by
  cases h with
  | @blank cs _ hne h hrest =>
    have htake : (cs ++ rest).takeWhile isBlank = cs := takeWhile_append_eq h hrest
    obtain ⟨n, hn⟩ := Nat.exists_eq_succ_of_ne_zero (mt List.eq_nil_of_length_eq_zero hne)
    rw [Lexeme.front, htake, hn]
  | @lineComment body _ h hrest =>
    have htake : (body ++ rest).takeWhile (· != '\n') = body :=
      takeWhile_append_eq (fun c hc => bne_iff_ne.2 fun hn => h (hn ▸ hc))
        (fun c hc => by rw [hrest c hc]; rfl)
    rw [List.cons_append, List.cons_append, front_of_comment (.inl rfl), comment?, htake]
    rfl
  | @blockComment body _ h =>
    rw [List.cons_append, List.cons_append, front_of_comment (.inr rfl), comment?, blockEnd?,
      List.append_assoc, List.cons_append, List.cons_append, List.nil_append,
      blockEndFrom?_of_firstClose h]
    simp
  | @openComment body h =>
    rw [List.append_nil, front_of_comment (.inr rfl), comment?, blockEnd?,
      blockEndFrom?_of_noClose h]
    rfl
  | @word c w _ h =>
    obtain ⟨a, v, rfl, -⟩ := h.word.exists_cons
    obtain ⟨hblank, hslash⟩ := h.word.not_isBlank
    rw [List.cons_append, front_of_not_comment hblank (absurd · hslash), ← List.cons_append,
      Rule.longest_of_isLongestWord h]
  | @openString body _ hno h hrest =>
    rw [List.cons_append, front_of_not_comment (by decide) (fun hc => absurd hc (by decide)),
      Rule.longest_eq_none_iff.2 hno, invalidLength, longest_openString h (.inl hrest)]
    rfl
  | @stray c _ hno hblank hquote hslash =>
    rw [List.singleton_append, front_of_not_comment hblank hslash, Rule.longest_eq_none_iff.2 hno,
      invalidLength, longest_openString_of_ne hquote]
    rfl

/-- No lexeme is empty. -/
lemma Stands.ne_nil {l : Lexeme} {rest : List Char} (h : Stands l rest) : l.text ≠ [] := by
  cases h with
  | blank hne _ _ => exact hne
  | word h => exact h.word.ne_nil
  | _ => exact List.cons_ne_nil _ _

/-- Something stands at the front of every text that is not empty. -/
lemma exists_stands (c : Char) (cs : List Char) :
    ∃ l rest, c :: cs = l.text ++ rest ∧ Stands l rest := by
  by_cases hblank : isBlank c = true
  · obtain ⟨w, rest, rfl, hw, hrest⟩ := exists_run isBlank cs
    exact ⟨⟨.blank, c :: w⟩, rest, rfl,
      .blank (List.cons_ne_nil c w) (List.forall_mem_cons.2 ⟨hblank, hw⟩) hrest⟩
  by_cases hslash : c = '/' ∧ ∃ d ds, cs = d :: ds ∧ (d = '/' ∨ d = '*')
  · obtain ⟨rfl, d, ds, rfl, rfl | rfl⟩ := hslash
    · obtain ⟨body, rest, rfl, hbody, hrest⟩ := exists_run (· != '\n') ds
      exact ⟨⟨.comment, '/' :: '/' :: body⟩, rest, rfl,
        .lineComment (fun h => absurd (hbody _ h) (by decide))
          fun d hd => by simpa using hrest d hd⟩
    · obtain h | ⟨body, rest, rfl, h⟩ := noClose_or_exists ds
      · exact ⟨⟨.invalid, '/' :: '*' :: ds⟩, [], (List.append_nil _).symm, .openComment h⟩
      · exact ⟨⟨.comment, '/' :: '*' :: (body ++ ['*', '/'])⟩, rest, by simp, .blockComment h⟩
  -- neither a blank nor a comment: the rules decide, and what they do not read is invalid
  cases hl : Rule.longest (c :: cs) with
  | some found =>
    obtain ⟨k, n⟩ := found
    obtain ⟨w, rest, heq, -, h⟩ := Rule.longest_eq_some_iff.1 hl
    exact ⟨⟨.word k, w⟩, rest, heq, .word h⟩
  | none =>
    have hno := Rule.longest_eq_none_iff.1 hl
    by_cases hquote : c = '"'
    · subst hquote
      obtain ⟨body, rest, rfl, hbody, hend | ⟨ds, rfl⟩⟩ := exists_body cs
      · exact ⟨⟨.invalid, '"' :: body⟩, rest, rfl, .openString hno hbody hend⟩
      · -- the body and its quote would be a string literal
        exact absurd ⟨body, rfl, hbody⟩ (hno .str ('"' :: (body ++ ['"'])) ds (by simp))
    · refine ⟨⟨.invalid, [c]⟩, cs, rfl,
        .stray hno (Bool.eq_false_iff.2 hblank) hquote fun hc d hd => ?_⟩
      obtain ⟨ds, rfl⟩ := List.head?_eq_some_iff.1 hd
      exact ⟨fun h => hslash ⟨hc, d, ds, rfl, .inl h⟩, fun h => hslash ⟨hc, d, ds, rfl, .inr h⟩⟩

/-- The lexeme that stands at the front is cut off first. -/
lemma Stands.split {l : Lexeme} {rest : List Char} (h : Stands l rest) :
    split (l.text ++ rest) = l :: split rest := by
  have hfront := h.front
  obtain ⟨kind, text⟩ := l
  obtain ⟨c, cs, rfl⟩ := List.exists_cons_of_ne_nil h.ne_nil
  rw [List.cons_append] at hfront
  rw [List.cons_append, split_cons, first, hfront]
  simp

/-- Cutting a text into lexemes scans it. -/
lemma scans_split (cs : List Char) : Scans cs (Lexeme.split cs) := by
  match cs with
  | [] =>
    rw [split_nil]
    exact .finish
  | c :: cs =>
    obtain ⟨l, rest, heq, h⟩ := exists_stands c cs
    have hlt : rest.length < (c :: cs).length := by
      have hpos := List.length_pos_iff.2 h.ne_nil
      rw [heq, List.length_append]
      omega
    rw [heq, h.split]
    exact .lexeme h (scans_split rest)
termination_by cs.length
decreasing_by exact hlt

/-- There is one way to cut a text into lexemes, and `split` finds it. -/
theorem scans_iff {cs : List Char} {ls : List Lexeme} : Scans cs ls ↔ ls = split cs := by
  refine ⟨?_, ?_⟩
  · intro h
    induction h with
    | finish => exact split_nil.symm
    | lexeme h _ ih => rw [h.split, ih]
  · rintro rfl
    exact scans_split cs

end Lexeme

/-- The tokens of a text that begins at `offset`. -/
inductive Tokenizes : Nat → List Char → TokenList → Prop where
  /-- An end-of-file token closes the list. -/
  | finish {offset} : Tokenizes offset [] [.eofAt (clampOffset offset)]
  /-- A run of blanks or one comment makes no token. -/
  | skip {offset l rest ts} (h : Lexeme.Stands l rest) (hk : l.kind = .blank ∨ l.kind = .comment)
    (ht : Tokenizes (offset + byteLength l.text) rest ts) :
    Tokenizes offset (l.text ++ rest) ts
  /-- The longest word makes a token of its class. -/
  | word {offset c w rest ts} (h : IsLongestWord c w rest)
    (ht : Tokenizes (offset + byteLength w) rest ts) :
    Tokenizes offset (w ++ rest)
      (⟨c.kind w, .ofOffsetsClamped offset (offset + byteLength w)⟩ :: ts)
  /-- What no rule reads makes an error token. -/
  | error {offset w rest ts} (h : Lexeme.Stands ⟨.invalid, w⟩ rest)
    (ht : Tokenizes (offset + byteLength w) rest ts) :
    Tokenizes offset (w ++ rest)
      (⟨.error, .ofOffsetsClamped offset (offset + byteLength w)⟩ :: ts)

/-- The lexemes of a text, put in their places, are its tokens. -/
lemma tokenizes_place {cs : List Char} {ls : List Lexeme} (h : Lexeme.Scans cs ls)
    (offset : Nat) : Tokenizes offset cs (place offset ls) := by
  induction h generalizing offset with
  | finish => exact .finish
  | @lexeme l rest ls h _ ih =>
    have ht := ih (offset + byteLength l.text)
    obtain ⟨kind, w⟩ := l
    rw [place_cons]
    cases kind with
    | blank => exact .skip h (.inl rfl) ht
    | comment => exact .skip h (.inr rfl) ht
    | word c =>
      cases h with
      | word h => exact .word h ht
    | invalid => exact .error h ht

/-- The tokens of a text that begins with its longest word. -/
lemma lex_word {c : WordClass} {w rest : List Char} (h : IsLongestWord c w rest) :
    lex (w ++ rest) =
      ⟨c.kind w, .ofOffsetsClamped 0 (byteLength w)⟩ :: place (byteLength w) (Lexeme.split rest) := by
  have hsplit : Lexeme.split (w ++ rest) = ⟨.word c, w⟩ :: Lexeme.split rest :=
    Lexeme.Stands.split (.word h)
  rw [lex, hsplit, place_cons, Nat.zero_add]
  rfl

/-- The token stands for the text `w` between `u` and `v`, and the tokens `us` follow it. Offsets
that do not fit into 32 bits are clamped. -/
structure Token.ReadAt (t : Token) (us : TokenList) (u w v : List Char) : Prop where
  text : t.kind.text.toList = w
  span : t.span = .ofOffsetsClamped (byteLength u) (byteLength (u ++ w))
  rest : Tokenizes (byteLength (u ++ w)) v us

/-- The token of a longest word stands for it, and the tokens of the rest follow. -/
lemma IsLongestWord.readAt {c : WordClass} {u w v : List Char} {s : Span} (h : IsLongestWord c w v)
    (hs : s = .ofOffsetsClamped (byteLength u) (byteLength (u ++ w))) :
    Token.ReadAt ⟨c.kind w, s⟩ (place (byteLength (u ++ w)) (Lexeme.split v)) u w v where
  text := h.word.text_kind
  span := hs
  rest := tokenizes_place (Lexeme.scans_split v) _

end ExprFront
