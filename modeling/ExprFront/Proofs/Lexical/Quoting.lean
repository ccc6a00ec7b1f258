import ExprFront.Lexical.Lexer
import ExprFront.Proofs.Lexical.Boundary
import ExprFront.Proofs.Lexical.Scan
import ExprFront.Proofs.Numeral.Digits
import ExprFront.Proofs.Text.Slice

/-!
# Escapes and quoted texts

`Denotes` lists the escapes and the characters that they stand for, and `Spells` all ways to write a
character in the body of a string literal. A body that is put together from spellings stands for the
characters that they spell (`resolve_spelled`). A body without escapes stands for itself if it
closes every brace that it opens behind a backslash and a `u`; the first one that stays open is
taken for closed by the end of the body (`resolve_of_noEscape`).

So every text can be quoted, in many spellings: each character stands for itself or is escaped in
one of several ways. Whatever follows the closing quote, the lexer reads the literal through this
quote as one token, whose value is the text (`lex_quoted`).
-/

namespace ExprFront

namespace Escape

/-- The letters behind a backslash, and the characters that they stand for there. -/
def shortEscapes : List (Char × Char) :=
  [('n', '\n'), ('t', '\t'), ('r', '\r'), ('0', '\x00'), ('\\', '\\'), ('"', '"'), ('\'', '\'')]

/-- The text is a hexadecimal numeral of a character, with one plus sign allowed before it. -/
def IsScalar (cs : List Char) (x : Char) : Prop :=
  ∃ sign digits, cs = sign ++ digits ∧ (sign = [] ∨ sign = ['+']) ∧
    Numeral.IsNumeral 16 digits x.toNat

/-- The text is an escape that stands for a character. -/
inductive Denotes : List Char → Char → Prop where
  | short {a x} (h : (a, x) ∈ shortEscapes) : Denotes ['\\', a] x
  | braces {cs x} (h : IsScalar cs x) : Denotes ('\\' :: 'u' :: '{' :: (cs ++ ['}'])) x

/-- The text stands for a character in the body of a string literal: the character as it is, or an
escape. -/
inductive Spells : List Char → Char → Prop where
  | plain {x} (hq : x ≠ '"') (hb : x ≠ '\\') (hn : x ≠ '\n') (hr : x ≠ '\r') : Spells [x] x
  | escape {cs x} (h : Denotes cs x) : Spells cs x

/-- The letters that stand for a character behind a backslash. -/
lemma short?_eq_some_iff {a x : Char} : short? a = some x ↔ (a, x) ∈ shortEscapes := by
  unfold short?
  split <;> simp_all [shortEscapes, eq_comm]

/-- A hexadecimal numeral of a character is read as this character. -/
lemma isNumeral_toNat_iff {digits : List Char} {x : Char} :
    Numeral.IsNumeral 16 digits x.toNat ↔
      ∃ n, Numeral.natural? 16 digits = some n ∧ n.isValidChar ∧ Char.ofNat n = x := by
  rw [← Numeral.natural?_eq_some_iff (Nat.le_refl 16)]
  constructor
  · intro h
    exact ⟨x.toNat, h, x.valid, Char.ofNat_toNat x⟩
  · rintro ⟨n, h, hn, rfl⟩
    rw [h, Char.ofNat, dif_pos hn]
    rfl

/-- The digits between braces stand for the character that they number. -/
lemma scalar?_eq_some_iff {cs : List Char} {x : Char} : scalar? cs = some x ↔ IsScalar cs x := by
  constructor
  · intro h
    unfold scalar? at h
    dsimp only at h
    split at h
    next n hn =>
      split at h
      next hvalid =>
        cases h
        have hnumeral := isNumeral_toNat_iff.2 ⟨n, hn, hvalid, rfl⟩
        split at hnumeral
        next rest => exact ⟨['+'], rest, rfl, .inr rfl, hnumeral⟩
        next => exact ⟨[], cs, rfl, .inl rfl, hnumeral⟩
      next => cases h
    next => cases h
  · rintro ⟨sign, digits, rfl, hs, h⟩
    obtain ⟨n, hn, hvalid, rfl⟩ := isNumeral_toNat_iff.1 h
    obtain ⟨c, cs, d, rfl, hd⟩ := h.exists_cons
    have hplus : c ≠ '+' := hd.ne (Nat.le_refl 16) (by decide)
    obtain rfl | rfl := hs
    · simp [scalar?, hplus, hn, hvalid]
    · simp [scalar?, hn, hvalid]

/-- Digits between braces stand for no character if they number none. -/
lemma scalar?_eq_none_iff {cs : List Char} : scalar? cs = none ↔ ∀ x, ¬ IsScalar cs x := by
  simp only [Option.eq_none_iff_forall_ne_some, ne_eq, scalar?_eq_some_iff]

/-- Nothing but digits and the sign stands in a numeral. -/
lemma IsScalar.notMem {cs : List Char} {x c : Char} (h : IsScalar cs x) (hplus : c ≠ '+')
    (hc : Numeral.hexDigit? c = none) : c ∉ cs := by
  obtain ⟨sign, digits, rfl, hs, hn⟩ := h
  intro hmem
  obtain hmem | hmem := List.mem_append.1 hmem
  · obtain rfl | rfl := hs
    · exact List.not_mem_nil hmem
    · exact hplus (List.mem_singleton.1 hmem)
  · obtain ⟨d, hd⟩ := hn.isDigit _ hmem
    exact hd.ne (Nat.le_refl 16) hc rfl

/-- A character without a backslash before it stands for itself. -/
lemma unit_plain {c : Char} (h : c ≠ '\\') (cs : List Char) : unit c cs = ([c], cs) := by
  rw [unit.eq_def, if_pos h]

/-- A letter behind a backslash stands for a character, or both stand for themselves. -/
lemma unit_letter {a : Char} {cs : List Char} (h : ∀ rest, a :: cs ≠ 'u' :: '{' :: rest) :
    unit '\\' (a :: cs) =
      match short? a with
      | some x => ([x], cs)
      | none => (['\\', a], cs) := by
  rw [unit.eq_def, if_neg (by simp)]
  split
  next heq => cases heq
  next heq => exact absurd heq (h _)
  next heq =>
    cases heq
    rfl

/-- A brace is read through the first one that closes, or to the end. -/
lemma unit_braces {cs tail : List Char} (h : '}' ∉ cs) (htail : ∀ c ∈ tail.head?, c = '}') :
    unit '\\' ('u' :: '{' :: (cs ++ tail)) =
      match scalar? cs with
      | some x => ([x], tail.drop 1)
      | none => ('\\' :: 'u' :: '{' :: (cs ++ ['}']), tail.drop 1) := by
  have hcs : ∀ c ∈ cs, decide (c ≠ '}') = true := by
    intro c hc
    apply decide_eq_true
    rintro rfl
    exact h hc
  have hsplit : (cs ++ tail).takeWhile (· ≠ '}') = cs ∧
      (cs ++ tail).dropWhile (· ≠ '}') = tail := by
    rw [List.takeWhile_append_of_pos hcs, List.dropWhile_append_of_pos hcs]
    cases tail with
    | nil => simp
    | cons c tail =>
      obtain rfl := htail c rfl
      simp
  rw [unit, if_neg (by simp)]
  dsimp only
  rw [hsplit.1, hsplit.2]
  rfl

/-- An escape is read as the character that it stands for. -/
lemma Denotes.unit {w : List Char} {x : Char} (h : Denotes ('\\' :: w) x) (rest : List Char) :
    Escape.unit '\\' (w ++ rest) = ([x], rest) := by
  cases h with
  | @short a _ h =>
    rw [List.singleton_append, unit_letter, short?_eq_some_iff.2 h]
    rintro rest heq
    cases heq
    simp [shortEscapes] at h
  | @braces cs _ h =>
    have hclosed : Escape.unit '\\' ('u' :: '{' :: (cs ++ '}' :: rest)) = _ :=
      unit_braces (h.notMem (by decide) (by decide)) fun c hc => by cases hc; rfl
    rw [scalar?_eq_some_iff.2 h] at hclosed
    simpa using hclosed

/-- Every escape begins with a backslash. -/
lemma Denotes.exists_cons {w : List Char} {x : Char} (h : Denotes w x) : ∃ v, w = '\\' :: v := by
  cases h <;> exact ⟨_, rfl⟩

/-- A spelling of a character is resolved to it. -/
lemma Spells.resolve {w : List Char} {x : Char} (h : Spells w x) (rest : List Char) :
    resolve (w ++ rest) = x :: resolve rest := by
  cases h with
  | plain _ hb =>
    rw [List.singleton_append, resolve_cons, unit_plain hb]
    rfl
  | escape h =>
    obtain ⟨v, rfl⟩ := h.exists_cons
    rw [List.cons_append, resolve_cons, h.unit]
    rfl

/-- A body of spellings stands for the characters that they spell. -/
theorem resolve_spelled {words : List (List Char)} {value : List Char}
    (h : List.Forall₂ Spells words value) : resolve words.flatten = value := by
  induction h with
  | nil => exact resolve_nil
  | cons h _ ih => rw [List.flatten_cons, h.resolve, ih]

/-- Every text can be spelled. -/
lemma exists_spelled (value : List Char) : ∃ words, List.Forall₂ Spells words value := by
  have hchar : ∀ x, ∃ w, Spells w x := by
    intro x
    by_cases hshort : ∃ a, (a, x) ∈ shortEscapes
    · obtain ⟨a, ha⟩ := hshort
      exact ⟨_, .escape (.short ha)⟩
    · have hne : ∀ p ∈ shortEscapes, x ≠ p.2 := by
        rintro ⟨a, y⟩ hp rfl
        exact hshort ⟨a, hp⟩
      exact ⟨[x], .plain (hne ('"', '"') (by decide)) (hne ('\\', '\\') (by decide))
        (hne ('n', '\n') (by decide)) (hne ('r', '\r') (by decide))⟩
  induction value with
  | nil => exact ⟨[], .nil⟩
  | cons x value ih =>
    obtain ⟨w, hw⟩ := hchar x
    obtain ⟨words, hwords⟩ := ih
    exact ⟨w :: words, .cons hw hwords⟩

/-- No part of the text is an escape. -/
def NoEscape (body : List Char) : Prop := ∀ w x, w <:+: body → ¬ Denotes w x

/-- Every brace that is opened behind a backslash and a `u` is closed. -/
def Closed (body : List Char) : Prop :=
  ∀ u v, body = u ++ '\\' :: 'u' :: '{' :: v → '}' ∈ v

/-- No brace is opened in the empty text. -/
lemma closed_nil : Closed [] := by
  intro u v h
  simp at h

/-- No part of a text without escapes is one. -/
lemma NoEscape.of_infix {u v : List Char} (h : NoEscape v) (huv : u <:+: v) : NoEscape u :=
  fun w x hw => h w x (hw.trans huv)

/-- If every brace is closed in a text then also in its end. -/
lemma Closed.of_append {u v : List Char} (h : Closed (u ++ v)) : Closed v := by
  intro w w' heq
  apply h (u ++ w) w'
  rw [heq, List.append_assoc]

/-- The letter behind a backslash that is no escape stands for no character. -/
lemma NoEscape.short? {a : Char} {cs : List Char} (h : NoEscape ('\\' :: a :: cs)) :
    Escape.short? a = none := by
  rw [Option.eq_none_iff_forall_ne_some]
  intro x hx
  exact h ['\\', a] x ⟨[], cs, rfl⟩ (.short (short?_eq_some_iff.1 hx))

/-- The digits between braces that are no escape stand for no character. -/
lemma NoEscape.scalar? {cs rest : List Char}
    (h : NoEscape ('\\' :: 'u' :: '{' :: (cs ++ '}' :: rest))) : Escape.scalar? cs = none := by
  rw [Option.eq_none_iff_forall_ne_some]
  intro x hx
  exact h _ x ⟨[], rest, by simp⟩ (.braces (scalar?_eq_some_iff.1 hx))

/-- A unit at the front of a text without escapes stands for itself. -/
lemma exists_unit {c : Char} {u v : List Char} (h : NoEscape (c :: (u ++ v))) (hu : Closed (c :: u))
    (hv : ∀ d ∈ v.head?, d = '\\') :
    ∃ w u', c :: u = w ++ u' ∧ w ≠ [] ∧ unit c (u ++ v) = (w, u' ++ v) := by
  by_cases hc : c = '\\'
  · subst hc
    cases u with
    | nil =>
      cases v with
      | nil => exact ⟨['\\'], [], rfl, List.cons_ne_nil _ _, rfl⟩
      | cons d v =>
        -- two backslashes would be an escape
        obtain rfl := hv d rfl
        cases h.short?
    | cons a u =>
      by_cases hbrace : ∃ t, a :: u = 'u' :: '{' :: t
      · obtain ⟨t, ht⟩ := hbrace
        obtain ⟨rfl, rfl⟩ := List.cons.inj ht
        obtain ⟨cs, after, rfl, hcs⟩ := List.eq_append_cons_of_mem (hu [] t rfl)
        have hunit : unit '\\' ('u' :: '{' :: (cs ++ '}' :: (after ++ v))) = _ :=
          unit_braces hcs fun d hd => by cases hd; rfl
        have hclosed : NoEscape ('\\' :: 'u' :: '{' :: (cs ++ '}' :: (after ++ v))) := by
          simpa using h
        rw [hclosed.scalar?] at hunit
        refine ⟨'\\' :: 'u' :: '{' :: (cs ++ ['}']), after, by simp, List.cons_ne_nil _ _, ?_⟩
        simpa using hunit
      · have hletter : ∀ rest, a :: (u ++ v) ≠ 'u' :: '{' :: rest := by
          intro rest heq
          obtain ⟨rfl, hrest⟩ := List.cons.inj heq
          cases u with
          | nil =>
            rw [List.nil_append] at hrest
            subst hrest
            exact absurd (hv '{' rfl) (by decide)
          | cons b u =>
            obtain ⟨rfl, -⟩ := List.cons.inj hrest
            exact hbrace ⟨u, rfl⟩
        have hunit := unit_letter hletter
        rw [h.short?] at hunit
        exact ⟨['\\', a], u, rfl, List.cons_ne_nil _ _, hunit⟩
  · exact ⟨[c], u, rfl, List.cons_ne_nil _ _, unit_plain hc _⟩

/-- A text without escapes stands for itself in front of a backslash or the end, if it closes its
braces. -/
lemma resolve_append {u v : List Char} (h : NoEscape (u ++ v)) (hu : Closed u)
    (hv : ∀ c ∈ v.head?, c = '\\') : resolve (u ++ v) = u ++ resolve v := by
  match u with
  | [] => rfl
  | c :: u =>
    obtain ⟨w, u', heq, hne, hunit⟩ := exists_unit h hu hv
    have hlt : u'.length < (c :: u).length := by
      have hpos := List.length_pos_iff.2 hne
      rw [heq, List.length_append]
      omega
    have ih : resolve (u' ++ v) = u' ++ resolve v := by
      rw [heq, List.append_assoc] at h
      rw [heq] at hu
      exact resolve_append (h.of_infix (List.suffix_append _ _).isInfix) hu.of_append hv
    rw [List.cons_append, resolve_cons, hunit, ih, heq, List.append_assoc]
termination_by u.length
decreasing_by exact hlt

/-- Among the braces that a text leaves open there is a first one. -/
lemma exists_open {u v : List Char} (hv : '}' ∉ v) :
    ∃ u' v', u ++ '\\' :: 'u' :: '{' :: v = u' ++ '\\' :: 'u' :: '{' :: v' ∧ Closed u' ∧
      '}' ∉ v' := by
  by_cases hu : Closed u
  · exact ⟨u, v, rfl, hu, hv⟩
  · obtain ⟨u₁, v₁, rfl, hv₁⟩ : ∃ u₁ v₁, u = u₁ ++ '\\' :: 'u' :: '{' :: v₁ ∧ '}' ∉ v₁ := by
      simpa [Closed] using hu
    obtain ⟨u', v', heq, hu', hv'⟩ :=
      exists_open (u := u₁) (v := v₁ ++ '\\' :: 'u' :: '{' :: v) (by simp [hv, hv₁])
    refine ⟨u', v', ?_, hu', hv'⟩
    rw [← heq]
    simp
termination_by u.length
decreasing_by
  simp only [*, List.length_append, List.length_cons]
  omega

/-- A body without escapes whose braces are all closed is kept. -/
lemma resolve_of_closed {body : List Char} (h : NoEscape body) (hbody : Closed body) :
    resolve body = body := by
  have happend := resolve_append (u := body) (v := []) (by rwa [List.append_nil]) hbody nofun
  rwa [resolve_nil, List.append_nil] at happend

/-- The first brace that stays open is read to the end. -/
lemma resolve_open {u v : List Char} (h : NoEscape (u ++ '\\' :: 'u' :: '{' :: v)) (hu : Closed u)
    (hv : '}' ∉ v) :
    resolve (u ++ '\\' :: 'u' :: '{' :: v) =
      match scalar? v with
      | some x => u ++ [x]
      | none => u ++ '\\' :: 'u' :: '{' :: (v ++ ['}']) := by
  have hunit := @unit_braces v [] hv nofun
  rw [List.append_nil] at hunit
  rw [resolve_append h hu fun c hc => by cases hc; rfl, resolve_cons, hunit]
  cases scalar? v <;> simp

/-- What a text without escapes stands for. It is kept as it is exactly if it closes its braces. If
it does not, the first brace that stays open is taken for closed at the end: it stands for a
character if the rest of the text is a numeral of one, and gets the missing brace if not. -/
theorem resolve_of_noEscape {body : List Char} (h : NoEscape body) :
    (resolve body = body ↔ Closed body) ∧
    (¬ Closed body → ∃ u v, body = u ++ '\\' :: 'u' :: '{' :: v ∧ Closed u ∧ '}' ∉ v ∧
      (∀ x, IsScalar v x → resolve body = u ++ [x]) ∧
      ((∀ x, ¬ IsScalar v x) → resolve body = body ++ ['}'])) := by
  by_cases hbody : Closed body
  · exact ⟨iff_of_true (resolve_of_closed h hbody) hbody, absurd hbody⟩
  obtain ⟨u₀, v₀, rfl, hv₀⟩ : ∃ u v, body = u ++ '\\' :: 'u' :: '{' :: v ∧ '}' ∉ v := by
    simpa [Closed] using hbody
  obtain ⟨u, v, heq, hu, hv⟩ := exists_open hv₀
  rw [heq] at h hbody ⊢
  have hopen := resolve_open h hu hv
  constructor
  · -- what an open brace stands for is shorter or longer than the text
    refine iff_of_false (fun hkept => ?_) hbody
    have hlen := congrArg List.length (hkept.symm.trans hopen)
    cases hx : scalar? v <;> simp [hx] at hlen
  · intro _
    refine ⟨u, v, rfl, hu, hv, fun x hx => ?_, fun hx => ?_⟩
    · rw [hopen, scalar?_eq_some_iff.2 hx]
    · rw [hopen, scalar?_eq_none_iff.2 hx]
      simp

/-- A text without closing braces has no escape if it has none of the short ones. -/
lemma noEscape_of_notMem {body : List Char} (hbrace : '}' ∉ body)
    (hshort : ∀ p ∈ shortEscapes, ¬ ['\\', p.1] <:+: body) : NoEscape body := by
  intro w x hw h
  cases h with
  | short h => exact hshort _ h hw
  | braces => exact hbrace (hw.subset (by simp))

/-- A text that no numeral follows in an open brace gets the missing brace. -/
theorem resolve_of_noEscape_letters :
    NoEscape "\\q\\u\x7bzz".toList ∧ ¬ Closed "\\q\\u\x7bzz".toList ∧
      resolve "\\q\\u\x7bzz".toList ≠ "\\q\\u\x7bzz".toList := by
  have hnone : NoEscape "\\q\\u\x7bzz".toList :=
    noEscape_of_notMem (by decide) (by decide +kernel)
  have hopen : ¬ Closed "\\q\\u\x7bzz".toList := by
    intro hclosed
    exact absurd (hclosed ['\\', 'q'] ['z', 'z'] rfl) (by decide)
  exact ⟨hnone, hopen, mt (resolve_of_noEscape hnone).1.1 hopen⟩

/-- Not every text without escapes is kept as it is: an open brace is closed, or read as a
character. -/
theorem resolve_open_ne :
    (NoEscape "\\u\x7bzz".toList ∧
      resolve "\\u\x7bzz".toList = "\\u\x7bzz\x7d".toList) ∧
    (NoEscape "\\u\x7b41".toList ∧ resolve "\\u\x7b41".toList = "A".toList) ∧
    ¬ ∀ body, NoEscape body → resolve body = body := by
  have hletters : NoEscape "\\u\x7bzz".toList := noEscape_of_notMem (by decide) (by decide +kernel)
  have hdigits : NoEscape "\\u\x7b41".toList := noEscape_of_notMem (by decide) (by decide +kernel)
  have hletters' : resolve "\\u\x7bzz".toList = "\\u\x7bzz\x7d".toList :=
    resolve_open hletters closed_nil (by decide)
  have hdigits' : resolve "\\u\x7b41".toList = "A".toList :=
    resolve_open hdigits closed_nil (by decide)
  refine ⟨⟨hletters, hletters'⟩, ⟨hdigits, hdigits'⟩, fun h => ?_⟩
  rw [h _ hdigits] at hdigits'
  exact absurd hdigits' (by decide)

end Escape

open Escape

/-- The string literal with the given spellings between its quotes. -/
def quoted (words : List (List Char)) : List Char := '"' :: (words.flatten ++ ['"'])

/-- Characters that need no escape stand in the body of a literal. -/
lemma IsBody.of_plain {cs : List Char}
    (h : '"' ∉ cs ∧ '\\' ∉ cs ∧ '\n' ∉ cs ∧ '\r' ∉ cs) : IsBody cs := by
  induction cs with
  | nil => exact .nil
  | cons c cs ih =>
    simp only [List.mem_cons, not_or] at h
    obtain ⟨⟨hq, hq'⟩, ⟨hb, hb'⟩, ⟨hn, hn'⟩, hr, hr'⟩ := h
    exact .plain (Ne.symm hq) (Ne.symm hb) (Ne.symm hn) (Ne.symm hr) (ih ⟨hq', hb', hn', hr'⟩)

/-- Every escape may stand between quotes. -/
lemma Escape.Denotes.isBody {w : List Char} {x : Char} (h : Denotes w x) : IsBody w := by
  cases h with
  | @short a _ h =>
    have hn : ∀ p ∈ shortEscapes, p.1 ≠ '\n' := by decide
    exact .escape (hn _ h) .nil
  | @braces cs _ h =>
    have hcs : IsBody cs := .of_plain ⟨h.notMem (by decide) (by decide),
      h.notMem (by decide) (by decide), h.notMem (by decide) (by decide),
      h.notMem (by decide) (by decide)⟩
    have hbrace : IsBody ['}'] := .of_plain (by decide)
    exact .escape (by decide) (.plain (by decide) (by decide) (by decide) (by decide)
      (hcs.append hbrace))

/-- Every spelling of a character may stand between quotes. -/
lemma Escape.Spells.isBody {w : List Char} {x : Char} (h : Spells w x) : IsBody w := by
  cases h with
  | plain hq hb hn hr => exact .plain hq hb hn hr .nil
  | escape h => exact h.isBody

/-- Spellings between quotes are a string literal. -/
lemma isString_quoted {words : List (List Char)} {value : List Char}
    (h : List.Forall₂ Spells words value) : IsString (quoted words) := by
  refine ⟨words.flatten, rfl, ?_⟩
  induction h with
  | nil => exact .nil
  | cons h _ ih => exact h.isBody.append ih

/-- A literal is a token of its value. -/
lemma kind_quoted {words : List (List Char)} {value : List Char}
    (h : List.Forall₂ Spells words value) :
    WordClass.kind .str (quoted words) =
      .str (String.ofList value) (String.ofList (quoted words)) := by
  rw [WordClass.kind, quoted, List.tail_cons, List.dropLast_concat, resolve_spelled h]

/-- Quoted texts are read back. Every text has spellings. In any of them, and in front of any other
text, its literal is the first token of a source: a string with the text as its value, and with the
literal as its written form and its place. -/
theorem lex_quoted :
    (∀ value, ∃ words, List.Forall₂ Spells words value) ∧
    ∀ words value rest, List.Forall₂ Spells words value →
      ∃ t us, lex (quoted words ++ rest) = t :: us ∧
        t.kind = .str (String.ofList value) (String.ofList (quoted words)) ∧
        t.ReadAt us [] (quoted words) rest ∧
        (byteLength (quoted words) < UInt32.size →
          slice? (quoted words ++ rest) t.span = some (quoted words)) := by
  refine ⟨exists_spelled, fun words value rest h => ?_⟩
  have hword : IsLongestWord .str (quoted words) rest := .str (isString_quoted h)
  refine ⟨_, _, lex_word hword, kind_quoted h, hword.readAt (u := []) rfl, fun hlen => ?_⟩
  rw [Span.ofOffsetsClamped_of_lt (by decide) hlen]
  exact slice?_eq_some (u := []) rfl (UInt32.toNat_ofNat_of_lt' hlen)

/-- A plain character, a short escape and numerals with leading zeros spell a text with a quote in
it, in front of what would go on as a name. -/
theorem lex_quoted_mixed :
    let words := [['é'], ['\\', 'n'], "\\u\x7b00022\x7d".toList, "\\u\x7b1F600\x7d".toList]
    let value := ['é', '\n', '"', '😀']
    List.Forall₂ Spells words value ∧
      ∃ t us, lex (quoted words ++ "x".toList) = t :: us ∧
        t.kind = .str (String.ofList value) (String.ofList (quoted words)) ∧
        t.ReadAt us [] (quoted words) "x".toList := by
  intro words value
  have hquote : IsScalar "00022".toList '"' := scalar?_eq_some_iff.1 rfl
  have hface : IsScalar "1F600".toList '😀' := scalar?_eq_some_iff.1 rfl
  have h : List.Forall₂ Spells words value :=
    .cons (.plain (by decide) (by decide) (by decide) (by decide))
      (.cons (.escape (.short (by decide)))
      (.cons (.escape (.braces hquote)) (.cons (.escape (.braces hface)) .nil)))
  obtain ⟨t, us, hlex, hkind, hread, -⟩ := lex_quoted.2 words value "x".toList h
  exact ⟨h, t, us, hlex, hkind, hread⟩

end ExprFront
