import ExprFront.Proofs.Lexical.Layout

/-!
# Lexing is local

What stands at the front of a text still stands there when the text ends earlier
(`Lexeme.Stands.of_append`), and nothing that came before matters. So a source can be cut before and
after each of its tokens: the part through a token is lexed as the tokens up to it (`lex_through`),
the part from a token on as the tokens from it on, with their spans shifted down (`lex_from`), and
behind a token both parts keep their tokens (`lex_cut`).
-/

namespace ExprFront

open Lexeme

/-- The span of a text that begins further down. -/
def Span.shiftDown (d : UInt32) (s : Span) : Span := ⟨s.start - d, s.stop - d⟩

/-- The token with its span changed by a function. -/
def Token.mapSpan (f : Span → Span) (t : Token) : Token := ⟨t.kind, f t.span⟩

section OfAppend

variable {rest more : List Char}

/-- What holds of the next character holds if there is less text. -/
lemma forall_head?_of_append {p : Char → Prop} (h : ∀ c ∈ (rest ++ more).head?, p c) :
    ∀ c ∈ rest.head?, p c := by
  intro c hc
  apply h
  rw [List.head?_append, hc]
  rfl

/-- A text without a word at its front has none if there is less text. -/
lemma NoWord.of_append {cs : List Char} (h : NoWord (cs ++ more)) : NoWord cs := by
  rintro c v v' rfl
  exact h c v (v' ++ more) (List.append_assoc v v' more)

/-- A longest word is one if there is less text behind it. -/
lemma IsLongestWord.of_append {c : WordClass} {w : List Char}
    (h : IsLongestWord c w (rest ++ more)) : IsLongestWord c w rest where
  word := h.word
  longest c' v v' heq hv := by
    apply h.longest c' v (v' ++ more) _ hv
    rw [← List.append_assoc, heq, List.append_assoc]
  name := h.name

/-- An unclosed end stays one if there is less text. -/
lemma OpenEnd.of_append (h : OpenEnd (rest ++ more)) : OpenEnd rest := by
  rcases rest with _ | ⟨c, _ | ⟨d, rest⟩⟩
  · exact .finish
  · cases h
    · exact .lineFeed
    · exact .carriageReturn
    · exact .backslash
    · exact .backslash
  · cases h
    · exact .lineFeed
    · exact .carriageReturn
    · exact .backslashLineFeed

namespace Lexeme

/-- A lexeme stands at the front of its text wherever the text after it ends. -/
theorem Stands.of_append {l : Lexeme} (h : Stands l (rest ++ more)) : Stands l rest := by
  generalize hr : rest ++ more = r at h
  cases h with
  | blank hne h hrest => exact .blank hne h (forall_head?_of_append (hr ▸ hrest))
  | lineComment h hrest => exact .lineComment h (forall_head?_of_append (hr ▸ hrest))
  | blockComment h => exact .blockComment h
  | openComment h =>
    obtain ⟨rfl, -⟩ := List.append_eq_nil_iff.1 hr
    exact .openComment h
  | word h => exact .word (IsLongestWord.of_append (hr ▸ h))
  | @openString body _ hno h hrest =>
    subst hr
    rw [← List.append_assoc, ← List.cons_append] at hno
    exact .openString hno.of_append h hrest.of_append
  | stray hno hblank hquote hslash =>
    subst hr
    rw [← List.cons_append] at hno
    exact .stray hno.of_append hblank hquote fun hc => forall_head?_of_append (hslash hc)

/-- The texts of the lexemes make up the scanned text. -/
lemma Scans.flatMap_text {cs : List Char} {ls : List Lexeme} (h : Scans cs ls) :
    ls.flatMap text = cs := by
  induction h with
  | finish => rfl
  | lexeme _ _ ih => rw [List.flatMap_cons, ih]

/-- A text can be cut between two of its lexemes. -/
lemma Scans.exists_append {cs : List Char} {ls ms : List Lexeme} (h : Scans cs (ls ++ ms)) :
    ∃ ds es, cs = ds ++ es ∧ Scans ds ls ∧ Scans es ms := by
  induction ls generalizing cs with
  | nil => exact ⟨[], cs, rfl, .finish, h⟩
  | cons l ls ih =>
    cases h with
    | lexeme hl hs =>
      obtain ⟨ds, es, rfl, hds, hes⟩ := ih hs
      exact ⟨l.text ++ ds, es, (List.append_assoc _ _ _).symm, .lexeme hl.of_append hds, hes⟩

end Lexeme

end OfAppend

/-- The tokens of lexemes that start at `offset`, without the end of file. -/
def tokensAt (offset : Nat) : List Lexeme → TokenList
  | [] => []
  | l :: ls =>
    (l.tokenKind?.map fun kind =>
      ⟨kind, .ofOffsetsClamped offset (offset + byteLength l.text)⟩).toList ++
    tokensAt (offset + byteLength l.text) ls

/-- The tokens of lexemes come after those of the lexemes before them. -/
lemma tokensAt_append (offset : Nat) (ls ms : List Lexeme) :
    tokensAt offset (ls ++ ms) =
      tokensAt offset ls ++ tokensAt (offset + byteLength (ls.flatMap text)) ms := by
  induction ls generalizing offset with
  | nil => rfl
  | cons l ls ih =>
    rw [List.cons_append, tokensAt, tokensAt, ih, List.append_assoc, List.flatMap_cons,
      byteLength_append, Nat.add_assoc]

/-- Placed tokens come after those of the lexemes before them. -/
lemma place_append (offset : Nat) (ls ms : List Lexeme) :
    place offset (ls ++ ms) =
      tokensAt offset ls ++ place (offset + byteLength (ls.flatMap text)) ms := by
  induction ls generalizing offset with
  | nil => rfl
  | cons l ls ih =>
    rw [List.cons_append, place_cons, tokensAt, ih, List.append_assoc, List.flatMap_cons,
      byteLength_append, Nat.add_assoc]

/-- A lexeme makes at most one token. -/
lemma length_tokensAt_singleton (offset : Nat) (l : Lexeme) :
    (tokensAt offset [l]).length ≤ 1 := by
  rw [tokensAt, tokensAt, List.append_nil]
  cases l.tokenKind? <;> simp

/-- A token of a list that begins with one token at most is among the others, or is this one. -/
lemma later_or_first {first rest ts us : TokenList} {t : Token} (hlen : first.length ≤ 1)
    (h : first ++ rest = ts ++ t :: us) :
    (∃ ts', ts = first ++ ts' ∧ rest = ts' ++ t :: us) ∨ (ts = [] ∧ first = [t] ∧ rest = us) := by
  rcases first with _ | ⟨a, _ | ⟨b, first⟩⟩
  · exact .inl ⟨ts, rfl, h⟩
  · cases ts with
    | nil =>
      obtain ⟨rfl, hrest⟩ := List.cons.inj h
      exact .inr ⟨rfl, rfl, hrest⟩
    | cons a' ts =>
      obtain ⟨rfl, hrest⟩ := List.cons.inj h
      exact .inl ⟨ts, rfl, hrest⟩
  · simp at hlen

/-- A token is made by a lexeme, and the tokens before and after it by the lexemes before and after
this one. -/
lemma exists_lexeme {offset : Nat} {ls : List Lexeme} {ts us : TokenList} {t : Token}
    (h : place offset ls = ts ++ t :: us) (ht : t.kind ≠ .eof) :
    ∃ ls₁ l ls₂, ls = ls₁ ++ l :: ls₂ ∧ tokensAt offset ls₁ = ts ∧
      tokensAt (offset + byteLength (ls₁.flatMap text)) [l] = [t] ∧
      place (offset + byteLength (ls₁.flatMap text) + byteLength l.text) ls₂ = us := by
  induction ls generalizing offset ts with
  | nil =>
    have hmem : t ∈ [Token.eofAt (clampOffset offset)] := by
      rw [← place_nil, h]
      exact List.mem_append_right ts List.mem_cons_self
    rw [List.mem_singleton.1 hmem] at ht
    exact absurd rfl ht
  | cons l ls ih =>
    rw [← List.singleton_append, place_append, List.flatMap_singleton] at h
    rcases later_or_first (length_tokensAt_singleton offset l) h with
      ⟨ts', rfl, hrest⟩ | ⟨rfl, hfirst, hrest⟩
    · obtain ⟨ls₁, l', ls₂, rfl, hts, hl, hus⟩ := ih hrest
      refine ⟨l :: ls₁, l', ls₂, rfl, ?_, ?_, ?_⟩
      · rw [← List.singleton_append, tokensAt_append, List.flatMap_singleton, hts]
      · rwa [List.flatMap_cons, byteLength_append, ← Nat.add_assoc]
      · rwa [List.flatMap_cons, byteLength_append, ← Nat.add_assoc]
    · exact ⟨[], l, ls, rfl, rfl, hfirst, hrest⟩

/-- The token of a lexeme spans its text. -/
lemma span_eq_of_tokensAt {offset : Nat} {l : Lexeme} {t : Token} (h : tokensAt offset [l] = [t]) :
    t.span = .ofOffsetsClamped offset (offset + byteLength l.text) := by
  rw [tokensAt] at h
  cases hk : l.tokenKind? with
  | none =>
    rw [hk] at h
    cases h
  | some kind =>
    rw [hk] at h
    cases h
    rfl

/-- A shift of an offset is undone. -/
lemma ofNat_add_sub_cancel (d offset : Nat) :
    UInt32.ofNat (d + offset) - UInt32.ofNat d = UInt32.ofNat offset := by
  rw [UInt32.ofNat_add, UInt32.add_comm, UInt32.add_sub_cancel]

/-- Spans are shifted down without wrapping around. -/
lemma shiftDown_ofOffsetsClamped {d start stop : Nat} (hstart : d + start < UInt32.size)
    (hstop : d + stop < UInt32.size) :
    (Span.ofOffsetsClamped (d + start) (d + stop)).shiftDown (.ofNat d) =
      .ofOffsetsClamped start stop := by
  rw [Span.ofOffsetsClamped_of_lt hstart hstop,
    Span.ofOffsetsClamped_of_lt (by omega) (by omega), Span.shiftDown, ofNat_add_sub_cancel,
    ofNat_add_sub_cancel]

/-- Lexemes that start further down make the same tokens further down. -/
lemma map_shiftDown_place {d offset : Nat} {ls : List Lexeme}
    (h : d + offset + byteLength (ls.flatMap text) < UInt32.size) :
    (place (d + offset) ls).map (.mapSpan (.shiftDown (.ofNat d))) = place offset ls := by
  induction ls generalizing offset with
  | nil =>
    rw [List.flatMap_nil, byteLength_nil, Nat.add_zero] at h
    rw [place_nil, place_nil, clampOffset_of_lt h, clampOffset_of_lt (by omega)]
    simp only [List.map_singleton, Token.mapSpan, Token.eofAt, Span.point, Span.shiftDown,
      ofNat_add_sub_cancel]
  | cons l ls ih =>
    rw [List.flatMap_cons, byteLength_append, ← Nat.add_assoc, Nat.add_assoc d] at h
    have hspan : (Span.ofOffsetsClamped (d + offset) (d + (offset + byteLength l.text))).shiftDown
        (.ofNat d) = .ofOffsetsClamped offset (offset + byteLength l.text) :=
      shiftDown_ofOffsetsClamped (by omega) (by omega)
    rw [place_cons, place_cons, List.map_append, Nat.add_assoc, ih h]
    cases l.tokenKind? with
    | none => rfl
    | some kind =>
      rw [← hspan]
      rfl

/-- The tokens of a text are those of its lexemes and the end of file. -/
lemma lex_eq_tokensAt {cs : List Char} {ls : List Lexeme} (hlen : byteLength cs < UInt32.size)
    (h : Scans cs ls) : lex cs = tokensAt 0 ls ++ [.eofAt (.ofNat (byteLength cs))] := by
  rw [lex, ← scans_iff.1 h, ← List.append_nil ls, place_append, List.append_nil, h.flatMap_text,
    Nat.zero_add, place_nil, clampOffset_of_lt hlen]

/-- A text that begins further down in a source makes the same tokens there. -/
lemma lex_eq_map_shiftDown {d : Nat} {cs : List Char} {ls : List Lexeme}
    (hlen : d + byteLength cs < UInt32.size) (h : Scans cs ls) :
    lex cs = (place d ls).map (.mapSpan (.shiftDown (.ofNat d))) := by
  have hplace : d + 0 + byteLength (ls.flatMap text) < UInt32.size := by
    rwa [Nat.add_zero, h.flatMap_text]
  rw [lex, ← scans_iff.1 h, ← map_shiftDown_place hplace, Nat.add_zero]

section Cut

variable {source : List Char} {ts us : TokenList} {t : Token}

/-- The end of a token is an end of a lexeme, which cuts the lexemes as the token cuts the
tokens. -/
lemma exists_scans_through (hlen : byteLength source < UInt32.size) (h : lex source = ts ++ t :: us)
    (ht : t.kind ≠ .eof) :
    ∃ cs ds ls ms, source = cs ++ ds ∧ Scans cs ls ∧ Scans ds ms ∧
      t.span.stop = .ofNat (byteLength cs) ∧ tokensAt 0 ls = ts ++ [t] ∧
      place (byteLength cs) ms = us := by
  obtain ⟨ls₁, l, ls₂, hsplit, rfl, hl, hus⟩ := exists_lexeme h ht
  have hs := scans_split source
  rw [hsplit, ← List.singleton_append, ← List.append_assoc] at hs
  obtain ⟨cs, ds, rfl, hcs, hds⟩ := hs.exists_append
  have hlt : byteLength cs < UInt32.size := by
    rw [byteLength_append] at hlen
    omega
  have hstop : byteLength (ls₁.flatMap text) + byteLength l.text = byteLength cs := by
    rw [← hcs.flatMap_text, List.flatMap_append, List.flatMap_singleton, byteLength_append]
  refine ⟨cs, ds, ls₁ ++ [l], ls₂, rfl, hcs, hds, ?_, ?_, ?_⟩
  · rw [span_eq_of_tokensAt hl, Nat.zero_add, hstop,
      Span.ofOffsetsClamped_of_lt (by omega) hlt]
  · rw [tokensAt_append, hl]
  · rw [← hus, Nat.zero_add, hstop]

/-- The part of a source through the end of a token is lexed as the tokens up to this one. -/
theorem lex_through (hlen : byteLength source < UInt32.size) (h : lex source = ts ++ t :: us)
    (ht : t.kind ≠ .eof) :
    ∃ cs ds, source = cs ++ ds ∧ byteLength cs = t.span.stop.toNat ∧
      lex cs = ts ++ [t, .eofAt t.span.stop] := by
  obtain ⟨cs, ds, ls, ms, rfl, hcs, -, hstop, htokens, -⟩ := exists_scans_through hlen h ht
  rw [byteLength_append] at hlen
  have hlt : byteLength cs < UInt32.size := by omega
  refine ⟨cs, ds, rfl, ?_, ?_⟩
  · rw [hstop, UInt32.toNat_ofNat_of_lt' hlt]
  · rw [lex_eq_tokensAt hlt hcs, htokens, hstop, List.append_assoc]
    rfl

/-- The part of a source from the start of a token on is lexed as the tokens from this one on, with
their spans shifted down. -/
theorem lex_from (hlen : byteLength source < UInt32.size) (h : lex source = ts ++ t :: us)
    (ht : t.kind ≠ .eof) :
    ∃ cs ds, source = cs ++ ds ∧ byteLength cs = t.span.start.toNat ∧
      lex ds = (t :: us).map (.mapSpan (.shiftDown t.span.start)) := by
  obtain ⟨ls₁, l, ls₂, hsplit, rfl, hl, hus⟩ := exists_lexeme h ht
  have hs := scans_split source
  rw [hsplit] at hs
  obtain ⟨cs, ds, rfl, hcs, hds⟩ := hs.exists_append
  rw [byteLength_append] at hlen
  have hlt : byteLength cs < UInt32.size := by omega
  rw [Nat.zero_add, hcs.flatMap_text] at hl hus
  have hstart : t.span.start = .ofNat (byteLength cs) := by
    have hl' : byteLength l.text ≤ byteLength ds := by
      rw [← hds.flatMap_text, List.flatMap_cons, byteLength_append]
      omega
    rw [span_eq_of_tokensAt hl, Span.ofOffsetsClamped_of_lt hlt (by omega)]
  have hplace : place (byteLength cs) (l :: ls₂) = t :: us := by
    rw [← List.singleton_append, place_append, List.flatMap_singleton, hl, hus]
    rfl
  refine ⟨cs, ds, rfl, ?_, ?_⟩
  · rw [hstart, UInt32.toNat_ofNat_of_lt' hlt]
  · rw [lex_eq_map_shiftDown hlen hds, hplace, hstart]

/-- A part of the tokens of a source is in order. -/
lemma inOrder_of_lex (hlen : byteLength source < UInt32.size) {v : TokenList}
    (h : lex source = ts ++ v ++ us) : v.InOrder := by
  apply (laid_lex hlen).inOrder.sublist
  rw [h]
  exact (List.sublist_append_right ts v).trans (List.sublist_append_left _ us)

/-- Tokens that follow one another cover a text that is lexed as these tokens, with their spans
counted from the start of the first. -/
theorem lex_between (hlen : byteLength source < UInt32.size) {v : TokenList} {z : Token}
    (h : lex source = ts ++ v ++ us) (ht : t ∈ v.head?) (hz : z ∈ v.getLast?)
    (heof : ∀ t ∈ v, t.kind ≠ .eof) :
    ∃ text, slice? source ⟨t.span.start, z.span.stop⟩ = some text ∧
      lex text = v.map (.mapSpan (.shiftDown t.span.start)) ++
        [.eofAt (z.span.stop - t.span.start)] := by
  have horder := inOrder_of_lex hlen h
  obtain ⟨v', rfl⟩ := List.head?_eq_some_iff.1 ht
  obtain ⟨v'', hv⟩ := List.getLast?_eq_some_iff.1 hz
  have hmem : z ∈ t :: v' := List.mem_of_getLast? hz
  have hle : t.span.start ≤ z.span.stop := (horder.start_le z hmem).2
  -- the source is cut in front of the first token, and then behind the last
  rw [List.append_assoc, List.cons_append] at h
  obtain ⟨cs, ds, rfl, hcs, hds⟩ := lex_from hlen h (heof t List.mem_cons_self)
  rw [← List.cons_append, hv, List.map_append, List.map_append, List.append_assoc] at hds
  have hlen' : byteLength ds < UInt32.size := by
    rw [byteLength_append] at hlen
    omega
  obtain ⟨text, es, rfl, htext, hlex⟩ := lex_through hlen' hds (heof z hmem)
  have hstop : byteLength text = z.span.stop.toNat - t.span.start.toNat := by
    rw [htext]
    exact UInt32.toNat_sub_of_le _ _ hle
  refine ⟨text, ?_, ?_⟩
  · have hend : z.span.stop.toNat = byteLength (cs ++ text) := by
      rw [UInt32.le_iff_toNat_le] at hle
      rw [byteLength_append, hcs, hstop]
      omega
    rw [← List.append_assoc]
    exact slice?_eq_some hcs.symm hend
  · rw [hlex, hv, List.map_append, List.append_assoc]
    rfl

/-- The scanner can be cut behind every token but the end of file. The part of a source through the
end of the token is lexed as the tokens through it, with the end of file where the token ends. The
part behind it is lexed as the tokens after it, with their spans shifted down, none of which begins
before the cut. -/
theorem lex_cut (hlen : byteLength source < UInt32.size) (h : lex source = ts ++ t :: us)
    (ht : t.kind ≠ .eof) :
    ∃ cs ds, source = cs ++ ds ∧ byteLength cs = t.span.stop.toNat ∧
      lex cs = ts ++ [t, .eofAt t.span.stop] ∧
      lex ds = us.map (.mapSpan (.shiftDown t.span.stop)) ∧
      ∀ u ∈ us, t.span.stop ≤ u.span.start ∧ u.span.start ≤ u.span.stop := by
  have hwhole : lex source = ts ++ (t :: us) ++ [] := by rw [List.append_nil, h]
  have horder := inOrder_of_lex hlen hwhole
  obtain ⟨cs, ds, ls, ms, rfl, hcs, hds, hstop, htokens, hplace⟩ := exists_scans_through hlen h ht
  rw [byteLength_append] at hlen
  have hlt : byteLength cs < UInt32.size := by omega
  refine ⟨cs, ds, rfl, ?_, ?_, ?_, fun u hu => ⟨?_, ?_⟩⟩
  · rw [hstop, UInt32.toNat_ofNat_of_lt' hlt]
  · rw [lex_eq_tokensAt hlt hcs, htokens, hstop, List.append_assoc]
    rfl
  · rw [lex_eq_map_shiftDown hlen hds, hplace, hstop]
  · exact (List.pairwise_cons.1 horder.pairwise).1 u hu
  · exact horder.start_le_stop u (List.mem_cons_of_mem t hu)

/-- A cut behind an open string and between two dots, in front of a digit and an open comment. -/
theorem lex_cut_behind_error :
    let source := "\"é\n1..5 /*".toList
    let before : TokenList := [⟨.error, ⟨0, 3⟩⟩, ⟨.int "1", ⟨4, 5⟩⟩]
    let dot : Token := ⟨.punct .dot, ⟨5, 6⟩⟩
    byteLength source < UInt32.size ∧
      lex source = before ++ dot ::
        [⟨.punct .dot, ⟨6, 7⟩⟩, ⟨.int "5", ⟨7, 8⟩⟩, ⟨.error, ⟨9, 11⟩⟩, .eofAt 11] ∧
      dot.kind ≠ .eof ∧
      ∃ cs ds, source = cs ++ ds ∧ byteLength cs = 6 ∧ lex cs = before ++ [dot, .eofAt 6] ∧
        lex ds = [⟨.punct .dot, ⟨0, 1⟩⟩, ⟨.int "5", ⟨1, 2⟩⟩, ⟨.error, ⟨3, 5⟩⟩, .eofAt 5] := by
  intro source before dot
  have hlen : byteLength source < UInt32.size := by decide
  have hlex : lex source = before ++ dot ::
      [⟨.punct .dot, ⟨6, 7⟩⟩, ⟨.int "5", ⟨7, 8⟩⟩, ⟨.error, ⟨9, 11⟩⟩, .eofAt 11] := by
    decide +kernel
  have hkind : dot.kind ≠ .eof := by decide
  obtain ⟨cs, ds, hsource, hcs, hthrough, hbehind, -⟩ := lex_cut hlen hlex hkind
  exact ⟨hlen, hlex, hkind, cs, ds, hsource, hcs, hthrough, hbehind.trans (by decide)⟩

end Cut

end ExprFront
