import ExprFront.Proofs.Lexical.Boundary
import ExprFront.Proofs.Lexical.Layout

/-!
# Spacing

Tokens can be written with other gaps between them. A gap makes no token (`IsGap.tokenKinds`), and a
word that is read in front of some text is also read where a gap follows in place of the text, or
where the same tokens follow as before (`IsLongestWord.of_continues`). So every source without
errors is a spacing of its tokens, and any other spacing that keeps the tokens apart has the same
ones (`Spacing.respaced`).
-/

namespace ExprFront

open Lexeme Rule

/-- The second text goes on like the first one, up to its end or to a separator. -/
def Continues (cs ds : List Char) : Prop :=
  ∃ u v w, cs = u ++ v ∧ ds = u ++ w ∧ ∀ x ∈ w.head?, isSeparator x = true

/-- A text that begins with a separator continues like any other. -/
lemma Continues.of_separator {cs ds : List Char} (h : ∀ x ∈ ds.head?, isSeparator x = true) :
    Continues cs ds :=
  ⟨[], cs, ds, rfl, rfl, h⟩

/-- Two texts that go on alike do so behind the same word. -/
lemma Continues.append {cs ds : List Char} (w : List Char) (h : Continues cs ds) :
    Continues (w ++ cs) (w ++ ds) := by
  obtain ⟨u, v, v', rfl, rfl, hsep⟩ := h
  exact ⟨w ++ u, v, v', (List.append_assoc _ _ _).symm, (List.append_assoc _ _ _).symm, hsep⟩

/-- The longest word in front of a text is the longest one in front of a text that goes on alike. -/
lemma IsLongestWord.of_continues {c : WordClass} {w rest rest' : List Char}
    (h : IsLongestWord c w rest) (hrest : Continues rest rest') : IsLongestWord c w rest' where
  word := h.word
  longest c' v v' heq hv := by
    obtain ⟨u, x, y, rfl, rfl, hsep⟩ := hrest
    rw [← List.append_assoc] at heq
    rcases List.append_eq_append_iff.1 heq with ⟨z, rfl, hz⟩ | ⟨z, hz, -⟩
    · -- a word that goes on past the common text holds a separator behind `w`
      cases z with
      | nil =>
        apply h.longest c' (w ++ u ++ []) x _ hv
        simp
      | cons a z =>
        have hmem : a ∈ u ++ a :: z := List.mem_append_right u List.mem_cons_self
        rw [List.append_assoc] at hv
        exact absurd hv (h.word.not_append hmem (hsep a (by rw [hz]; rfl)))
    · apply h.longest c' v (z ++ x) _ hv
      rw [← List.append_assoc, hz, List.append_assoc]
  name := h.name

/-- Blanks separate words. -/
lemma isSeparator_of_isBlank {c : Char} (h : isBlank c = true) : isSeparator c = true := by
  simp only [isBlank, Bool.or_eq_true, beq_iff_eq] at h
  rcases h with (((rfl | rfl) | rfl) | rfl) | rfl <;> decide

/-- A gap begins with a separator. -/
lemma IsGap.isSeparator {final : Prop} {gap : List Char} (h : IsGap final gap) :
    ∀ x ∈ gap.head?, isSeparator x = true := by
  intro x hx
  cases h with
  | nil => cases hx
  | blank h _ =>
    cases hx
    exact isSeparator_of_isBlank h
  | lineComment | blockComment =>
    cases hx
    decide

/-- A run of blanks holds no tokens. -/
lemma tokenKinds_run {w rest : List Char} (h : ∀ c ∈ w, isBlank c = true)
    (hrest : ∀ c ∈ rest.head?, isBlank c = false) : tokenKinds (w ++ rest) = tokenKinds rest := by
  cases w with
  | nil => rfl
  | cons c w =>
    have hblank : Stands ⟨.blank, c :: w⟩ rest := .blank (List.cons_ne_nil c w) h hrest
    exact tokenKinds_append hblank

/-- A blank is no token. -/
lemma tokenKinds_blank {c : Char} (h : isBlank c = true) (cs : List Char) :
    tokenKinds (c :: cs) = tokenKinds cs := by
  obtain ⟨w, rest, rfl, hw, hrest⟩ := exists_run isBlank cs
  rw [tokenKinds_run hw hrest, ← List.cons_append,
    tokenKinds_run (List.forall_mem_cons.2 ⟨h, hw⟩) hrest]

/-- A gap holds no tokens. -/
lemma IsGap.tokenKinds {final : Prop} {gap rest : List Char} (h : IsGap final gap)
    (hfinal : final → rest = []) : tokenKinds (gap ++ rest) = tokenKinds rest := by
  induction h with
  | nil => rfl
  | blank h _ ih => rw [List.cons_append, tokenKinds_blank h, ih]
  | @lineComment body cs h hend _ ih =>
    have hcomment : Stands ⟨.comment, '/' :: '/' :: body⟩ (cs ++ rest) := by
      apply Stands.lineComment h
      intro c hc
      rcases hend with hcs | ⟨hfin, rfl⟩
      · rw [List.head?_append, hcs] at hc
        exact (Option.some.inj hc).symm
      · rw [hfinal hfin] at hc
        cases hc
    have hskip := tokenKinds_append hcomment
    rw [ih] at hskip
    simpa [Lexeme.tokenKind?] using hskip
  | @blockComment body cs h _ ih =>
    have hcomment : Stands ⟨.comment, '/' :: '*' :: (body ++ ['*', '/'])⟩ (cs ++ rest) :=
      .blockComment h
    have hskip := tokenKinds_append hcomment
    rw [ih] at hskip
    simpa [Lexeme.tokenKind?] using hskip

/-- The text of the first token, in front of which nothing stands, is read as this token. -/
lemma exists_isLongestWord {k : TokenKind} {ks : List TokenKind} {rest : List Char}
    (h : tokenKinds (k.text.toList ++ rest) = k :: ks) (hk : k ≠ .error) :
    ∃ c : WordClass, IsLongestWord c k.text.toList rest ∧ c.kind k.text.toList = k ∧
      tokenKinds rest = ks := by
  obtain ⟨c', ⟨hword, -, -⟩, -⟩ := exists_word_of_mem_tokenKinds (h ▸ List.mem_cons_self) hk
  obtain ⟨a, v, hv, -⟩ := hword.exists_cons
  obtain ⟨hblank, hslash⟩ := (hv ▸ hword).not_isBlank
  obtain ⟨l, r, heq, hl⟩ := exists_stands a (v ++ rest)
  rw [← List.cons_append, ← hv] at heq
  have hkinds := tokenKinds_append hl
  rw [← heq, h] at hkinds
  have hfront : l.text.head? = some a := by
    obtain ⟨b, u, hu⟩ := List.exists_cons_of_ne_nil hl.ne_nil
    rw [hv, hu] at heq
    rw [hu, (List.cons.inj heq).1]
    rfl
  cases hl with
  | blank _ h _ =>
    rw [h a (List.mem_of_head? hfront)] at hblank
    cases hblank
  | lineComment | blockComment | openComment => exact absurd (Option.some.inj hfront).symm hslash
  | openString | stray => exact absurd (List.cons.inj hkinds).1 hk
  | @word c w _ hw =>
    obtain ⟨hk', hks⟩ := List.cons.inj hkinds
    obtain rfl : k.text.toList = w := by
      rw [hk']
      exact hw.word.text_kind
    obtain rfl : rest = r := List.append_cancel_left heq
    exact ⟨c, hw, hk'.symm, hks.symm⟩

/-- A gap before each of the tokens, and one after the last. -/
inductive Spacing : List TokenKind → Type where
  | last (gap : List Char) (h : IsGap True gap) : Spacing []
  | before {k : TokenKind} {ks : List TokenKind} (gap : List Char) (h : IsGap False gap)
    (s : Spacing ks) : Spacing (k :: ks)

namespace Spacing

/-- The tokens, as they are written, with these gaps. -/
def text : {ks : List TokenKind} → Spacing ks → List Char
  | [], last gap _ => gap
  | k :: _, before gap _ s => gap ++ (k.text.toList ++ s.text)

/-- In front of a token, the second spacing has no gap empty but those that are in the first. -/
def KeepsGaps : {ks : List TokenKind} → Spacing ks → Spacing ks → Prop
  | [], last _ _, last _ _ => True
  | _ :: _, before gap _ s, before gap' _ s' => (gap' = [] → gap = []) ∧ s.KeepsGaps s'

/-- Between two tokens, the second spacing has no gap empty but those that are in the first. -/
def KeepsApart : {ks : List TokenKind} → Spacing ks → Spacing ks → Prop
  | [], last _ _, last _ _ => True
  | _ :: _, before _ _ s, before _ _ s' => s.KeepsGaps s'

variable {k : TokenKind} {ks : List TokenKind}

/-- A spacing that keeps all gaps keeps those between tokens. -/
lemma KeepsGaps.keepsApart {s s' : Spacing ks} (h : s.KeepsGaps s') : s.KeepsApart s' := by
  cases s with
  | last => cases s'; trivial
  | before => cases s'; exact h.2

/-- The gap before a token does not change the kinds. -/
lemma tokenKinds_before {gap : List Char} (h : IsGap False gap) (s : Spacing ks) :
    tokenKinds (before (k := k) gap h s).text = tokenKinds (k.text.toList ++ s.text) :=
  h.tokenKinds False.elim

/-- The tokens of a text are those of every other spacing that keeps them apart; and if it keeps the
gap in front of them as well, then the texts go on alike. -/
lemma respaced {s s' : Spacing ks} (herror : .error ∉ ks) (h : tokenKinds s.text = ks)
    (hapart : s.KeepsApart s') :
    tokenKinds s'.text = ks ∧ (s.KeepsGaps s' → Continues s.text s'.text) := by
  induction s with
  | last gap hgap =>
    cases s' with
    | last gap' hgap' =>
      constructor
      · have hkinds : tokenKinds (gap' ++ []) = tokenKinds [] := hgap'.tokenKinds fun _ => rfl
        rwa [List.append_nil, tokenKinds_nil] at hkinds
      · exact fun _ => .of_separator hgap'.isSeparator
  | @before k ks gap hgap s ih =>
    cases s' with
    | before gap' hgap' s' =>
      rw [List.mem_cons, not_or] at herror
      obtain ⟨hk, herror⟩ := herror
      rw [tokenKinds_before] at h
      obtain ⟨c, hword, hkind, hrest⟩ := exists_isLongestWord h (Ne.symm hk)
      obtain ⟨hrest', hcont⟩ := ih herror hrest (KeepsGaps.keepsApart hapart)
      constructor
      · rw [tokenKinds_before, tokenKinds_word (hword.of_continues (hcont hapart)), hkind, hrest']
      · rintro ⟨hnil, -⟩
        cases gap' with
        | nil =>
          obtain rfl := hnil rfl
          exact (hcont hapart).append k.text.toList
        | cons c gap' => exact .of_separator hgap'.isSeparator

/-- One more run of blanks or comment belongs to the first gap. -/
lemma exists_skip {l : Lexeme} {s : Spacing ks} (hl : Stands l s.text)
    (hk : l.kind = .blank ∨ l.kind = .comment) (h : tokenKinds s.text = ks)
    (herror : .error ∉ ks) : ∃ s' : Spacing ks, s'.text = l.text ++ s.text := by
  cases s with
  | last gap hgap =>
    have hskip : IsGap True (l.text ++ gap) := by
      apply hgap.skip hl hk
      intro hline
      cases gap with
      | nil => exact .inr ⟨trivial, rfl⟩
      | cons c gap => exact .inl (congrArg some (hline c rfl))
    exact ⟨.last _ hskip, rfl⟩
  | @before k ks gap hgap s =>
    have hskip : IsGap False (l.text ++ gap) := by
      apply hgap.skip hl hk
      intro hline
      cases gap with
      | nil =>
        -- a token does not begin with a line feed
        obtain ⟨c, ⟨hword, -, -⟩, -⟩ := exists_word_of_mem_tokenKinds (h ▸ List.mem_cons_self)
          fun hk => herror (hk ▸ List.mem_cons_self)
        obtain ⟨a, v, hv, -⟩ := hword.exists_cons
        obtain rfl : a = '\n' := hline a (by rw [text, hv]; rfl)
        exact absurd (hv ▸ hword).not_isBlank.1 (by decide)
      | cons c gap => exact .inl (congrArg some (hline c rfl))
    exact ⟨.before _ hskip s, List.append_assoc _ _ _⟩

/-- A source without errors is a spacing of its tokens. -/
theorem exists_text_eq {cs : List Char} (h : tokenKinds cs = ks) (herror : .error ∉ ks) :
    ∃ s : Spacing ks, s.text = cs := by
  have hs : Scans cs (split cs) := scans_iff.2 rfl
  generalize split cs = ls at hs
  induction hs generalizing ks with
  | finish =>
    rw [tokenKinds_nil] at h
    subst h
    exact ⟨.last [] .nil, rfl⟩
  | @lexeme l rest ls hl _ ih =>
    rw [tokenKinds_append hl] at h
    obtain ⟨kind, w⟩ := l
    cases kind with
    | blank | comment =>
      obtain ⟨s, rfl⟩ := ih h herror
      exact exists_skip hl (by simp) h herror
    | word c =>
      cases hl with
      | word hw =>
        subst h
        obtain ⟨s, hs⟩ := ih rfl fun hmem => herror (List.mem_cons_of_mem _ hmem)
        refine ⟨.before [] .nil s, ?_⟩
        show (c.kind w).text.toList ++ s.text = w ++ rest
        rw [hs, hw.word.text_kind]
    | invalid =>
      subst h
      exact absurd List.mem_cons_self herror

end Spacing

end ExprFront
