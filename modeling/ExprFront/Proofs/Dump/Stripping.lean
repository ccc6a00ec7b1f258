import ExprFront.Proofs.Dump.Colors

/-!
# Texts without color sequences

Color sequences are taken out of a text in one pass, which joins what stands around them. So a color
sequence is left exactly where an escape character that is kept stands in front of sequences with an
opening bracket behind them (`strip_leaves_iff`); such a place is all that a second pass can change.
-/

namespace ExprFront

/-- The text holds an escape character, an opening bracket and, somewhere behind it, an `m`. -/
def HoldsSequence (cs : List Char) : Prop :=
  ∃ u v w, cs = u ++ '\x1b' :: '[' :: (v ++ 'm' :: w)

/-- Color sequences with nothing between them. -/
inductive IsSequences : List Char → Prop where
  | nil : IsSequences []
  | cons {body rest} (hbody : 'm' ∉ body) (hrest : IsSequences rest) :
    IsSequences ('\x1b' :: '[' :: (body ++ 'm' :: rest))

/-- The text has an escape character outside of all sequences, one or more sequences behind it, and
then an opening bracket. -/
structure JoinsAt (cs u w v : List Char) : Prop where
  eq : cs = u ++ '\x1b' :: (w ++ '[' :: v)
  outside : stripOnto [] false (u ++ ['\x1b']) = stripOnto [] false u ++ ['\x1b']
  sequences : IsSequences w
  ne_nil : w ≠ []

/-- A whole sequence is an opening with its end mark somewhere behind it. -/
lemma holdsSequence_iff {cs : List Char} :
    HoldsSequence cs ↔ ∃ p q, cs = p ++ '\x1b' :: '[' :: q ∧ 'm' ∈ q := by
  constructor
  · rintro ⟨u, v, w, rfl⟩
    exact ⟨u, _, rfl, by simp⟩
  · rintro ⟨p, q, rfl, hq⟩
    obtain ⟨v, w, rfl⟩ := List.append_of_mem hq
    exact ⟨p, v, w, rfl⟩

/-- A sequence is opened somewhere in the text. -/
lemma opensSequence_iff {cs : List Char} :
    OpensSequence cs ↔ ∃ p q, cs = p ++ '\x1b' :: '[' :: q := by
  constructor
  · rintro ⟨p, q, rfl⟩
    exact ⟨p, q, List.append_assoc p _ q⟩
  · rintro ⟨p, q, rfl⟩
    exact ⟨p, q, List.append_assoc p _ q⟩

/-- Within a sequence everything is removed through the end mark. -/
lemma stripOnto_close {body : List Char} (hbody : 'm' ∉ body) (cs : List Char) :
    stripOnto [] true (body ++ 'm' :: cs) = stripOnto [] false cs := by
  induction body with
  | nil => rfl
  | cons a body ih =>
    rw [List.mem_cons, not_or] at hbody
    rw [List.cons_append, stripOnto_cons, if_pos rfl, decide_eq_true (Ne.symm hbody.1), ih hbody.2]

/-- Within a sequence that does not end nothing is kept. -/
lemma stripOnto_unclosed {cs : List Char} (h : 'm' ∉ cs) : stripOnto [] true cs = [] := by
  induction cs with
  | nil => rfl
  | cons a cs ih =>
    rw [List.mem_cons, not_or] at h
    rw [stripOnto_cons, if_pos rfl, decide_eq_true (Ne.symm h.1), ih h.2]

/-- The opening of a sequence is removed. -/
lemma stripOnto_opening (cs : List Char) :
    stripOnto [] false ('\x1b' :: '[' :: cs) = stripOnto [] true cs := by
  simp [stripOnto]

/-- A character that opens no sequence is kept. -/
lemma stripOnto_kept {a : Char} {cs : List Char} (h : ¬ (a = '\x1b' ∧ cs.head? = some '[')) :
    stripOnto [] false (a :: cs) = a :: stripOnto [] false cs := by
  rw [stripOnto_cons, if_neg Bool.false_ne_true, if_neg h]

/-- Whole sequences are removed. -/
lemma IsSequences.stripOnto_append {w : List Char} (h : IsSequences w) (cs : List Char) :
    stripOnto [] false (w ++ cs) = stripOnto [] false cs := by
  induction h with
  | nil => rfl
  | @cons body rest hbody hrest ih =>
    rw [List.cons_append, List.cons_append, List.append_assoc, stripOnto_opening, List.cons_append,
      stripOnto_close hbody, ih]

/-- Sequences begin with an escape, not with a bracket. -/
lemma IsSequences.head?_ne {w : List Char} (h : IsSequences w) (hne : w ≠ []) (cs : List Char) :
    (w ++ cs).head? ≠ some '[' := by
  cases h with
  | nil => exact absurd rfl hne
  | cons hbody hrest => simp

/-- In front of the first character that is left stand only sequences. -/
lemma exists_of_stripOnto_eq_cons {cs : List Char} {a : Char} {q : List Char}
    (h : stripOnto [] false cs = a :: q) :
    ∃ w v, cs = w ++ a :: v ∧ IsSequences w ∧ ¬ (a = '\x1b' ∧ v.head? = some '[') ∧
      stripOnto [] false v = q := by
  -- a sequence can be of any length, so the induction is on the length of the text
  induction hn : cs.length using Nat.strongRecOn generalizing cs with
  | _ n ih =>
    subst hn
    cases cs with
    | nil => cases h
    | cons b cs =>
      by_cases hopen : b = '\x1b' ∧ cs.head? = some '['
      · obtain ⟨rfl, hhead⟩ := hopen
        obtain ⟨cs, rfl⟩ := List.head?_eq_some_iff.1 hhead
        rw [stripOnto_opening] at h
        by_cases hm : 'm' ∈ cs
        · obtain ⟨body, rest, rfl, hbody⟩ := List.eq_append_cons_of_mem hm
          rw [stripOnto_close hbody] at h
          obtain ⟨w, v, rfl, hw, ha, hv⟩ := ih rest.length (by simp; omega) h rfl
          exact ⟨_, v, by simp, .cons hbody hw, ha, hv⟩
        · rw [stripOnto_unclosed hm] at h
          cases h
      · rw [stripOnto_kept hopen] at h
        obtain ⟨rfl, hq⟩ := List.cons.inj h
        exact ⟨[], cs, rfl, .nil, hopen, hq⟩

/-- An escape character that is kept behind a text is kept there, and what follows it is read on its
own, unless this begins with an opening bracket. -/
lemma stripOnto_append_escape {inside : Bool} {u : List Char}
    (h : stripOnto [] inside (u ++ ['\x1b']) = stripOnto [] inside u ++ ['\x1b']) {x : List Char}
    (hx : x.head? ≠ some '[') :
    stripOnto [] inside (u ++ '\x1b' :: x) =
      stripOnto [] inside u ++ '\x1b' :: stripOnto [] false x := by
  induction u generalizing inside with
  | nil =>
    cases inside with
    | true => cases h
    | false => exact stripOnto_kept fun hopen => hx hopen.2
  | cons a u ih =>
    have hhead : ∀ y : List Char, (u ++ '\x1b' :: y).head? = some '[' ↔ u.head? = some '[' := by
      intro y
      cases u <;> simp
    rw [List.cons_append, stripOnto_cons, stripOnto_cons] at h ⊢
    simp only [hhead] at h ⊢
    by_cases hinside : inside = true
    · simp only [if_pos hinside] at h ⊢
      exact ih h
    · simp only [if_neg hinside] at h ⊢
      by_cases hopen : a = '\x1b' ∧ u.head? = some '['
      · simp only [if_pos hopen] at h ⊢
        exact ih h
      · simp only [if_neg hopen, List.cons_append] at h ⊢
        rw [ih (List.cons.inj h).2]

/-- An escape character with an opening bracket behind it is left where the text joins them. -/
lemma stripOnto_eq_append_iff {cs p q : List Char} :
    stripOnto [] false cs = p ++ '\x1b' :: '[' :: q ↔
      ∃ u w v, JoinsAt cs u w v ∧ stripOnto [] false u = p ∧ stripOnto [] false v = q := by
  constructor
  · intro h
    induction p generalizing cs with
    | nil =>
      obtain ⟨u, cs, rfl, hu, hescape, hcs⟩ := exists_of_stripOnto_eq_cons h
      obtain ⟨w, v, rfl, hw, -, hv⟩ := exists_of_stripOnto_eq_cons hcs
      have hnil : stripOnto [] false u = [] := by
        rw [← List.append_nil u, hu.stripOnto_append]
        rfl
      refine ⟨u, w, v, ⟨rfl, ?_, hw, ?_⟩, hnil, hv⟩
      · rw [hu.stripOnto_append, hnil]
        rfl
      · rintro rfl
        exact hescape ⟨rfl, rfl⟩
    | cons a p ih =>
      obtain ⟨u₀, cs, rfl, hu₀, hkept, hcs⟩ := exists_of_stripOnto_eq_cons h
      obtain ⟨u, w, v, ⟨rfl, houtside, hw, hne⟩, hp, hq⟩ := ih hcs
      -- the character is kept in front of the escape character, whatever comes behind that
      have hhead : ∀ x : List Char, (u ++ '\x1b' :: x).head? = some '[' ↔ u.head? = some '[' := by
        intro x
        cases u <;> simp
      rw [hhead] at hkept
      have hu : stripOnto [] false (u₀ ++ a :: u) = a :: p := by
        rw [hu₀.stripOnto_append, stripOnto_kept hkept, hp]
      refine ⟨u₀ ++ a :: u, w, v, ⟨by simp, ?_, hw, hne⟩, hu, hq⟩
      have hkept' : ¬ (a = '\x1b' ∧ (u ++ ['\x1b']).head? = some '[') := by rwa [hhead]
      rw [List.append_assoc, hu₀.stripOnto_append, List.cons_append, stripOnto_kept hkept',
        houtside, hu, hp]
      rfl
  · rintro ⟨u, w, v, ⟨rfl, houtside, hw, hne⟩, rfl, rfl⟩
    have hbracket : stripOnto [] false ('[' :: v) = '[' :: stripOnto [] false v :=
      stripOnto_kept fun h => absurd h.1 (by decide)
    rw [stripOnto_append_escape houtside (hw.head?_ne hne _), hw.stripOnto_append, hbracket]

/-- The characters that are kept. -/
lemma toList_stripColors (s : String) :
    (stripColors s).toList = stripOnto [] false s.toList := by
  rw [stripColors, String.toList_ofList]

/-- A pass changes nothing exactly if no sequence is opened. -/
lemma stripColors_eq_self_iff {s : String} : stripColors s = s ↔ ¬ OpensSequence s.toList := by
  rw [← (Tagged.refl s.toList).stripOnto_eq_iff, ← String.toList_inj, toList_stripColors]

/-- A sequence is opened in what is kept where an escape comes to stand before a bracket. -/
lemma opensSequence_stripColors_iff {s : String} :
    OpensSequence (stripColors s).toList ↔ ∃ u w v, JoinsAt s.toList u w v := by
  rw [toList_stripColors, opensSequence_iff]
  simp only [stripOnto_eq_append_iff]
  constructor
  · rintro ⟨-, -, u, w, v, h, -, -⟩
    exact ⟨u, w, v, h⟩
  · rintro ⟨u, w, v, h⟩
    exact ⟨_, _, u, w, v, h, rfl, rfl⟩

/-- A whole sequence is kept where in addition an end mark is kept behind. -/
lemma holdsSequence_stripColors_iff {s : String} :
    HoldsSequence (stripColors s).toList ↔
      ∃ u w v, JoinsAt s.toList u w v ∧ 'm' ∈ stripOnto [] false v := by
  rw [toList_stripColors, holdsSequence_iff]
  simp only [stripOnto_eq_append_iff]
  constructor
  · rintro ⟨-, -, ⟨u, w, v, h, -, rfl⟩, hm⟩
    exact ⟨u, w, v, h, hm⟩
  · rintro ⟨u, w, v, h, hm⟩
    exact ⟨_, _, ⟨u, w, v, h, rfl, rfl⟩, hm⟩

/-- Where a text joins an escape character and a bracket, an escape character stands in front of a
sequence. -/
lemma JoinsAt.infix {cs u w v : List Char} (h : JoinsAt cs u w v) :
    ['\x1b', '\x1b', '['] <:+: cs := by
  obtain ⟨rfl, -, hw, hne⟩ := h
  cases hw with
  | nil => exact absurd rfl hne
  | @cons body rest hbody hrest => exact ⟨u, body ++ 'm' :: (rest ++ '[' :: v), by simp⟩

/-- One pass leaves a color sequence exactly where an escape character that is kept has sequences
behind it and then an opening bracket, with an `m` left somewhere behind that. A second pass changes
nothing exactly if there is no such place, whether with an `m` or without. So nothing is left, and a
second pass does nothing, where no escape character stands in front of a sequence. -/
theorem strip_leaves_iff (s : String) :
    (HoldsSequence (stripColors s).toList ↔
      ∃ u w v, JoinsAt s.toList u w v ∧ 'm' ∈ stripOnto [] false v) ∧
    (stripColors (stripColors s) = stripColors s ↔ ¬ ∃ u w v, JoinsAt s.toList u w v) ∧
    (¬ ['\x1b', '\x1b', '['] <:+: s.toList →
      ¬ HoldsSequence (stripColors s).toList ∧ stripColors (stripColors s) = stripColors s) := by
  have htwice : stripColors (stripColors s) = stripColors s ↔ ¬ ∃ u w v, JoinsAt s.toList u w v :=
    stripColors_eq_self_iff.trans (not_congr opensSequence_stripColors_iff)
  refine ⟨holdsSequence_stripColors_iff, htwice, fun hno => ⟨fun h => ?_, htwice.2 ?_⟩⟩
  · obtain ⟨u, w, v, h, -⟩ := holdsSequence_stripColors_iff.1 h
    exact hno h.infix
  · rintro ⟨u, w, v, h⟩
    exact hno h.infix

/-- A text that is colored twice over, with a lone escape character in it, is stripped at once. -/
theorem strip_leaves_iff_colored :
    let s := colored ("\x1b " ++ colored "x" .yellow true) .magenta true
    ¬ ['\x1b', '\x1b', '['] <:+: s.toList ∧ stripColors s = "\x1b x" ∧
      ¬ HoldsSequence (stripColors s).toList ∧ stripColors (stripColors s) = stripColors s := by
  intro s
  have hno : ¬ ['\x1b', '\x1b', '['] <:+: s.toList := by decide +kernel
  exact ⟨hno, by decide +kernel, (strip_leaves_iff s).2.2 hno⟩

/-- A pass can leave a color sequence, which a second one takes out. -/
theorem strip_leaves_sequence :
    HoldsSequence (stripColors "\x1b\x1b[m[3m").toList ∧
      stripColors (stripColors "\x1b\x1b[m[3m") ≠ stripColors "\x1b\x1b[m[3m" := by
  refine ⟨⟨[], ['3'], [], by decide⟩, by decide⟩

end ExprFront
