import ExprFront.Lexical.Lexer
import ExprFront.Proofs.Lexical.Scan
import ExprFront.Proofs.Text.Slice

/-!
# The layout of tokens

The tokens of a source that 32-bit offsets can address lie in it one after another, each on the text
that it is written with, and the gaps between them hold blanks and complete comments. So nothing is
lost: the source can be put together from the gaps and the tokens (`lex_lossless`).
-/

namespace ExprFront

open Lexeme

/-- Blanks and complete comments. A line comment is complete when a line feed follows, or the end of
the source if the gap is the final one. -/
inductive IsGap (final : Prop) : List Char → Prop where
  | nil : IsGap final []
  | blank {c cs} (h : isBlank c = true) (hcs : IsGap final cs) : IsGap final (c :: cs)
  | lineComment {body cs} (h : '\n' ∉ body) (hend : cs.head? = some '\n' ∨ final ∧ cs = [])
    (hcs : IsGap final cs) : IsGap final ('/' :: '/' :: (body ++ cs))
  | blockComment {body cs} (h : FirstClose body) (hcs : IsGap final cs) :
    IsGap final ('/' :: '*' :: (body ++ '*' :: '/' :: cs))

/-- The places before each token, the first of which begins at `start`. -/
def gaps (start : UInt32) : TokenList → List Span
  | [] => []
  | t :: ts => ⟨start, t.span.start⟩ :: gaps t.span.stop ts

/-- How a token is written: an error token stands for the text that it covers, the end of file for
none, and all others for the text of their kind. -/
def Token.written (source : List Char) (t : Token) : List Char :=
  match t.kind with
  | .error => (slice? source t.span).getD []
  | .eof => []
  | kind => kind.text.toList

/-- The gaps before tokens, and the tokens as they are written, in turn. -/
def interleave (source : List Char) (start : UInt32) : TokenList → List Char
  | [] => []
  | t :: ts =>
    (slice? source ⟨start, t.span.start⟩).getD [] ++ t.written source ++
      interleave source t.span.stop ts

/-- The token stands for the text `w`, which follows `before`. -/
structure Token.Covers (t : Token) (before w : List Char) : Prop where
  start : t.span.start.toNat = byteLength before
  stop : t.span.stop.toNat = byteLength (before ++ w)
  ne_nil : w ≠ []
  front : ∀ c ∈ w.head?, isBlank c = false
  kind : t.kind ≠ .eof
  text : t.kind ≠ .error → t.kind.text.toList = w

/-- The tokens of a text that follows `before`, with the gaps before them. -/
inductive Laid : List Char → List Char → TokenList → Prop where
  | finish {before gap e} (hgap : IsGap True gap) (he : e.toNat = byteLength (before ++ gap)) :
    Laid before gap [.eofAt e]
  | token {before gap w rest t ts} (hgap : IsGap False gap) (ht : t.Covers (before ++ gap) w)
    (h : Laid (before ++ gap ++ w) rest ts) : Laid before (gap ++ w ++ rest) (t :: ts)

/-- A gap stays one if more may end it. -/
lemma IsGap.mono {p q : Prop} {cs : List Char} (hpq : p → q) (h : IsGap p cs) : IsGap q cs := by
  induction h with
  | nil => exact .nil
  | blank h _ ih => exact .blank h ih
  | lineComment h hend _ ih => exact .lineComment h (hend.imp_right (And.imp_left hpq)) ih
  | blockComment h _ ih => exact .blockComment h ih

/-- Blanks before a gap belong to it. -/
lemma IsGap.append_blanks {final : Prop} {cs gap : List Char} (h : ∀ c ∈ cs, isBlank c = true)
    (hgap : IsGap final gap) : IsGap final (cs ++ gap) := by
  induction cs with
  | nil => exact hgap
  | cons c cs ih =>
    obtain ⟨hc, hcs⟩ := List.forall_mem_cons.1 h
    exact .blank hc (ih hcs)

/-- A gap can begin with one more run of blanks or comment. -/
lemma IsGap.skip {final : Prop} {l : Lexeme} {rest gap : List Char} (h : Stands l rest)
    (hk : l.kind = .blank ∨ l.kind = .comment) (hgap : IsGap final gap)
    (hline : (∀ c ∈ rest.head?, c = '\n') → gap.head? = some '\n' ∨ final ∧ gap = []) :
    IsGap final (l.text ++ gap) := by
  cases h with
  | blank _ h _ => exact hgap.append_blanks h
  | lineComment h hrest => exact .lineComment h (hline hrest) hgap
  | @blockComment body _ h =>
    have hg := IsGap.blockComment h hgap
    simpa using hg
  | word | openComment | openString | stray => simp at hk

/-- Blanks and comments are skipped. -/
lemma Laid.skip {l : Lexeme} {before rest : List Char} {ts : TokenList} (h : Stands l rest)
    (hk : l.kind = .blank ∨ l.kind = .comment) (hl : Laid (before ++ l.text) rest ts) :
    Laid before (l.text ++ rest) ts := by
  -- the lexeme becomes the beginning of the first gap
  generalize hb : before ++ l.text = b at hl
  cases hl with
  | finish hgap he =>
    subst hb
    refine .finish (hgap.skip h hk fun hrest => ?_) (by rwa [← List.append_assoc])
    cases rest with
    | nil => exact .inr ⟨trivial, rfl⟩
    | cons c rest => exact .inl (congrArg some (hrest c rfl))
  | @token _ gap w rest t ts hgap ht hl =>
    subst hb
    have hg : IsGap False (l.text ++ gap) := by
      refine hgap.skip h hk fun hrest => ?_
      cases gap with
      | nil =>
        -- a token does not begin with a line feed
        obtain ⟨c, v, rfl⟩ := List.exists_cons_of_ne_nil ht.ne_nil
        obtain rfl := hrest c rfl
        exact absurd (ht.front '\n' rfl) (by decide)
      | cons c gap => exact .inl (congrArg some (hrest c rfl))
    rw [List.append_assoc before] at ht hl
    rw [List.append_assoc gap, ← List.append_assoc, ← List.append_assoc]
    exact .token hg ht hl

/-- No word is read as the end of file. -/
lemma WordClass.kind_ne_eof (c : WordClass) (w : List Char) : c.kind w ≠ .eof := by
  cases c <;> exact nofun

/-- A lexeme that makes a token does not begin with a blank. -/
lemma Lexeme.Stands.front_not_isBlank {l : Lexeme} {rest : List Char} {kind : TokenKind}
    (h : Stands l rest) (hk : l.tokenKind? = some kind) :
    ∀ c ∈ l.text.head?, isBlank c = false := by
  intro c hc
  cases h with
  | blank | lineComment | blockComment => cases hk
  | word h =>
    obtain ⟨a, v, rfl, -⟩ := h.word.exists_cons
    cases hc
    exact h.word.not_isBlank.1
  | openComment | openString =>
    cases hc
    decide
  | stray _ hblank =>
    cases hc
    exact hblank

/-- The span of a token covers its lexeme. -/
lemma Lexeme.Stands.covers {l : Lexeme} {before rest : List Char} {kind : TokenKind}
    (h : Stands l rest) (hk : l.tokenKind? = some kind)
    (hlen : byteLength (before ++ l.text) < UInt32.size) :
    Token.Covers ⟨kind, .ofOffsetsClamped (byteLength before) (byteLength (before ++ l.text))⟩
      before l.text := by
  have hlt : byteLength before < UInt32.size := by
    rw [byteLength_append] at hlen
    omega
  rw [Span.ofOffsetsClamped_of_lt hlt hlen]
  refine ⟨UInt32.toNat_ofNat_of_lt' hlt, UInt32.toNat_ofNat_of_lt' hlen, h.ne_nil,
    h.front_not_isBlank hk, ?_, ?_⟩
  · obtain ⟨kind, w⟩ := l
    cases kind with
    | blank | comment => cases hk
    | word c =>
      cases hk
      exact c.kind_ne_eof w
    | invalid =>
      cases hk
      exact nofun
  · intro hne
    cases h with
    | blank | lineComment | blockComment => cases hk
    | word h =>
      cases hk
      exact h.word.text_kind
    | openComment | openString | stray =>
      cases hk
      exact absurd rfl hne

/-- The tokens of lexemes lie where the lexemes do. -/
lemma laid_place {cs : List Char} {ls : List Lexeme} (hs : Scans cs ls) (before : List Char)
    (hlen : byteLength (before ++ cs) < UInt32.size) :
    Laid before cs (place (byteLength before) ls) := by
  induction hs generalizing before with
  | finish =>
    rw [List.append_nil] at hlen
    rw [place_nil, clampOffset_of_lt hlen]
    exact .finish .nil (by rw [List.append_nil, UInt32.toNat_ofNat_of_lt' hlen])
  | @lexeme l rest ls h _ ih =>
    rw [← List.append_assoc] at hlen
    have hl := ih (before ++ l.text) hlen
    have hlt : byteLength (before ++ l.text) < UInt32.size := by
      rw [byteLength_append] at hlen
      omega
    rw [place_cons, ← byteLength_append]
    cases hk : l.tokenKind? with
    | none =>
      obtain ⟨kind, w⟩ := l
      cases kind with
      | blank => exact hl.skip h (.inl rfl)
      | comment => exact hl.skip h (.inr rfl)
      | word | invalid => cases hk
    | some kind =>
      have ht := h.covers hk hlt
      exact .token .nil (by rwa [List.append_nil]) (by rwa [List.append_nil])

/-- The tokens of a source lie in it. -/
lemma laid_lex {source : List Char} (hlen : byteLength source < UInt32.size) :
    Laid [] source (lex source) :=
  laid_place (scans_split source) [] hlen

/-- A gap and the word behind it are part of what follows. -/
lemma append_gap_append (before gap w rest : List Char) :
    before ++ gap ++ w ++ rest = before ++ (gap ++ w ++ rest) := by
  simp only [List.append_assoc]

/-- The last token is the end of file, and all others cover words of the text. -/
lemma Laid.exists_eof {before cs : List Char} {ts : TokenList} (h : Laid before cs ts) :
    ∃ us e, ts = us ++ [.eofAt e] ∧ e.toNat = byteLength (before ++ cs) ∧
      ∀ t ∈ us, ∃ u w v, before ++ cs = u ++ w ++ v ∧ t.Covers u w := by
  induction h with
  | finish _ he => exact ⟨[], _, rfl, he, nofun⟩
  | @token before gap w rest t ts _ ht _ ih =>
    obtain ⟨us, e, rfl, he, hus⟩ := ih
    have heq := append_gap_append before gap w rest
    rw [heq] at he hus
    refine ⟨t :: us, e, rfl, he, List.forall_mem_cons.2 ⟨⟨_, w, rest, heq.symm, ht⟩, hus⟩⟩

/-- No token starts before the text that it is laid out on. -/
lemma Laid.le_start {before cs : List Char} {ts : TokenList} (h : Laid before cs ts) :
    ∀ t ∈ ts, byteLength before ≤ t.span.start.toNat := by
  induction h with
  | @finish before gap e _ he =>
    intro t ht
    rw [List.mem_singleton.1 ht, show (Token.eofAt e).span.start = e from rfl, he,
      byteLength_append]
    omega
  | token _ ht _ ih =>
    refine List.forall_mem_cons.2 ⟨?_, fun u hu => ?_⟩
    · rw [ht.start, byteLength_append]
      omega
    · have hle := ih u hu
      rw [byteLength_append, byteLength_append] at hle
      omega

/-- Every token stops before the later ones start. -/
lemma Laid.pairwise {before cs : List Char} {ts : TokenList} (h : Laid before cs ts) :
    ts.Pairwise fun t u => t.span.stop ≤ u.span.start := by
  induction h with
  | finish => exact List.pairwise_singleton _ _
  | token _ ht h ih =>
    refine List.pairwise_cons.2 ⟨fun u hu => ?_, ih⟩
    rw [UInt32.le_iff_toNat_le, ht.stop]
    exact h.le_start u hu

/-- Every token starts before the later ones. -/
lemma Laid.pairwise_start {before cs : List Char} {ts : TokenList} (h : Laid before cs ts) :
    ts.Pairwise fun t u => t.span.start < u.span.start := by
  induction h with
  | finish => exact List.pairwise_singleton _ _
  | token _ ht h ih =>
    refine List.pairwise_cons.2 ⟨fun u hu => ?_, ih⟩
    have hle := h.le_start u hu
    have hpos := Nat.pos_of_ne_zero (mt byteLength_eq_zero_iff.1 ht.ne_nil)
    rw [byteLength_append] at hle
    rw [UInt32.lt_iff_toNat_lt, ht.start]
    omega

/-- The tokens come one after another. -/
structure TokenList.InOrder (ts : TokenList) : Prop where
  start_le_stop : ∀ t ∈ ts, t.span.start ≤ t.span.stop
  pairwise : ts.Pairwise fun t u => t.span.stop ≤ u.span.start

/-- Tokens that are laid out on a text are in order. -/
lemma Laid.inOrder {before cs : List Char} {ts : TokenList} (h : Laid before cs ts) :
    ts.InOrder where
  start_le_stop := by
    obtain ⟨us, e, rfl, -, hus⟩ := h.exists_eof
    intro t ht
    rcases List.mem_append.1 ht with ht | ht
    · obtain ⟨u, w, v, -, hcovers⟩ := hus t ht
      rw [UInt32.le_iff_toNat_le, hcovers.start, hcovers.stop, byteLength_append]
      exact Nat.le_add_right _ _
    · rw [List.mem_singleton.1 ht]
      exact UInt32.le_refl e
  pairwise := h.pairwise

/-- A part of a list in order is in order. -/
lemma TokenList.InOrder.sublist {ts us : TokenList} (h : ts.InOrder) (hsub : us.Sublist ts) :
    us.InOrder where
  start_le_stop t ht := h.start_le_stop t (hsub.subset ht)
  pairwise := h.pairwise.sublist hsub

/-- The first token of a list in order starts before all ends. -/
lemma TokenList.InOrder.start_le {t : Token} {ts : TokenList} (h : InOrder (t :: ts)) :
    ∀ u ∈ t :: ts, t.span.start ≤ u.span.start ∧ t.span.start ≤ u.span.stop := by
  have ht := h.start_le_stop t List.mem_cons_self
  intro u hu
  have hu' := h.start_le_stop u hu
  rcases List.mem_cons.1 hu with rfl | hu
  · exact ⟨UInt32.le_refl _, ht⟩
  · have hle := UInt32.le_trans ht ((List.pairwise_cons.1 h.pairwise).1 u hu)
    exact ⟨hle, UInt32.le_trans hle hu'⟩

/-- Between tokens that are laid out on a text there are gaps. -/
lemma Laid.isGap {before cs : List Char} {ts : TokenList} (h : Laid before cs ts) {start : UInt32}
    (hstart : start.toNat = byteLength before) :
    ∀ s ∈ gaps start ts, ∃ w, slice? (before ++ cs) s = some w ∧
      IsGap (s.stop.toNat = byteLength (before ++ cs)) w := by
  induction h generalizing start with
  | @finish before gap e hgap he =>
    intro s hs
    obtain rfl := List.mem_singleton.1 hs
    refine ⟨gap, ?_, hgap.mono fun _ => he⟩
    have hslice := slice?_eq_some (v := []) (s := ⟨start, e⟩) hstart he
    rwa [List.append_nil] at hslice
  | @token before gap w rest t ts hgap ht _ ih =>
    have heq := append_gap_append before gap w rest
    refine List.forall_mem_cons.2 ⟨⟨gap, ?_, hgap.mono False.elim⟩, fun s hs => ?_⟩
    · rw [← heq, List.append_assoc]
      exact slice?_eq_some hstart ht.start
    · rw [← heq]
      exact ih ht.stop s hs

/-- A token is written as the text that it stands for. -/
lemma Token.Covers.written {t : Token} {u w v : List Char} (h : t.Covers u w) :
    t.written (u ++ w ++ v) = w := by
  have hkind := h.kind
  have htext := h.text
  have hslice := slice?_eq_some (v := v) h.start h.stop
  unfold Token.written
  split
  next => rw [hslice, Option.getD_some]
  next heq => exact absurd heq hkind
  next herror _ => exact htext herror

/-- Gaps and tokens in turn make up the text. -/
lemma Laid.interleave {before cs : List Char} {ts : TokenList} (h : Laid before cs ts)
    {start : UInt32} (hstart : start.toNat = byteLength before) :
    interleave (before ++ cs) start ts = cs := by
  induction h generalizing start with
  | @finish before gap e _ he =>
    have hslice := slice?_eq_some (v := []) (s := ⟨start, e⟩) hstart he
    rw [List.append_nil] at hslice
    simp only [ExprFront.interleave, Token.eofAt, Span.point, Token.written, hslice,
      Option.getD_some, List.append_nil]
  | @token before gap w rest t ts _ ht _ ih =>
    have heq := append_gap_append before gap w rest
    have hslice := slice?_eq_some (v := w ++ rest) (s := ⟨start, t.span.start⟩) hstart ht.start
    rw [← List.append_assoc, heq] at hslice
    rw [ExprFront.interleave, hslice, Option.getD_some, ← heq, ht.written, ih ht.stop]

/-- Lexing loses nothing. The end of file closes the tokens of a source, at its length. Every other
token has a span that is not empty, with ends on character boundaries, and covers the text that its
kind displays as, if it is no error. The spans lie one after another, with blanks and complete
comments in the gaps; and the gaps and the tokens in turn make up the source. -/
theorem lex_lossless {source : List Char} (hlen : byteLength source < UInt32.size) :
    (∃ ts, lex source = ts ++ [.eofAt (.ofNat (byteLength source))] ∧
      ∀ t ∈ ts, t.kind ≠ .eof ∧ t.span.start < t.span.stop ∧
        ∃ w, slice? source t.span = some w ∧ (t.kind ≠ .error → t.kind.text.toList = w)) ∧
    (lex source).Pairwise (fun t u => t.span.stop ≤ u.span.start) ∧
    (∀ s ∈ gaps 0 (lex source), ∃ w, slice? source s = some w ∧
      IsGap (s.stop.toNat = byteLength source) w) ∧
    interleave source 0 (lex source) = source := by
  have h : Laid [] source (lex source) := laid_place (scans_split source) [] hlen
  refine ⟨?_, h.pairwise, h.isGap rfl, h.interleave rfl⟩
  obtain ⟨ts, e, heq, he, hts⟩ := h.exists_eof
  rw [List.nil_append] at he hts
  refine ⟨ts, by rw [heq, ← he, UInt32.ofNat_toNat], fun t ht => ?_⟩
  obtain ⟨u, w, v, rfl, hcovers⟩ := hts t ht
  refine ⟨hcovers.kind, ?_, w, slice?_eq_some hcovers.start hcovers.stop, hcovers.text⟩
  rw [UInt32.lt_iff_toNat_lt, hcovers.start, hcovers.stop, byteLength_append]
  have hpos := Nat.pos_of_ne_zero (mt byteLength_eq_zero_iff.1 hcovers.ne_nil)
  omega

/-- Comments and characters of more than one byte do not displace tokens. -/
theorem lex_lossless_comments :
    byteLength "self[1 /* é */] // x".toList < UInt32.size ∧
      interleave "self[1 /* é */] // x".toList 0 (lex "self[1 /* é */] // x".toList) =
        "self[1 /* é */] // x".toList :=
  ⟨by decide, (lex_lossless (by decide)).2.2.2⟩

end ExprFront
