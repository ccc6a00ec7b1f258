import ExprFront.Decl
import ExprFront.Proofs.Lexical.Words
import ExprFront.Proofs.Text.Block

/-!
# Written forms at the front of texts

A written form can be read off the front of a text if no other form leads to the same text, whatever
follows them, as long as this begins with a stop (`ReadsOff`). Then lists of such forms, separated
by commas, can be read off as well (`readsOff_list`).
-/

namespace ExprFront

/-- The text is empty or begins with one of the characters. -/
def StopsAt (stops : List Char) (r : List Char) : Prop := ∀ c ∈ r.head?, c ∈ stops

/-- A text that is not empty stops at its first character. -/
lemma stopsAt_cons {stops : List Char} {c : Char} {r : List Char} :
    StopsAt stops (c :: r) ↔ c ∈ stops := by
  simp [StopsAt]

/-- A text that stops at few characters stops at more. -/
lemma StopsAt.mono {stops stops' : List Char} {r : List Char} (h : StopsAt stops r)
    (hsub : stops ⊆ stops') : StopsAt stops' r := fun c hc => hsub (h c hc)

/-- A text does not begin with a character that it does not stop at. -/
lemma StopsAt.ne_cons {stops : List Char} {r x : List Char} {c : Char} (h : StopsAt stops r)
    (hc : c ∉ stops) : r ≠ c :: x := by
  rintro rfl
  exact hc (stopsAt_cons.1 h)

/-- Names are cut in one way from text that goes on with no character of theirs. -/
lemma IsName.append_inj {v w r s stops : List Char} (hv : IsName v) (hw : IsName w)
    (hstops : stops.any Rule.isWordPart = false) (hr : StopsAt stops r) (hs : StopsAt stops s)
    (h : v ++ r = w ++ s) : v = w ∧ r = s := by
  have hno : ∀ c ∈ stops, Rule.isWordPart c = false :=
    fun c hc => Bool.eq_false_iff.2 (List.any_eq_false.1 hstops c hc)
  exact append_inj_of_head (P := fun c => Rule.isWordPart c = false)
    (fun c hc => ne_false_of_eq_true (hv.isWordPart c hc))
    (fun c hc => ne_false_of_eq_true (hw.isWordPart c hc)) (fun c hc => hno c (hr c hc))
    (fun c hc => hno c (hs c hc)) h

/-- A name does not begin with a character that starts no word. -/
lemma IsName.append_ne_cons {w r x : List Char} {c : Char} (hw : IsName w)
    (hc : Rule.isWordStart c = false) : w ++ r ≠ c :: x := by
  obtain ⟨a, v, rfl, ha, -⟩ := hw
  intro h
  obtain ⟨rfl, -⟩ := List.cons.inj h
  rw [hc] at ha
  exact Bool.false_ne_true ha

/-- The text behind the first of several forms. -/
lemma toList_commaSeparated_cons (s : String) (ss : List String) :
    (commaSeparated (s :: ss)).toList = s.toList ++ ss.flatMap fun t => ',' :: ' ' :: t.toList := by
  induction ss generalizing s with
  | nil => simp [commaSeparated]
  | cons t ss ih =>
    have hcons : commaSeparated (s :: t :: ss) = s ++ ", " ++ commaSeparated (t :: ss) := by
      simp only [commaSeparated, String.intercalate_cons_cons]
    rw [hcons, String.toList_append, String.toList_append, ih, List.flatMap_cons]
    simp

section Forms

variable {α β : Type} {form : α → String} {view : α → β} {P : α → Prop}

/-- What a thing is written as can be read off the front of a text that goes on with a stop: among
the forms of things that satisfy a predicate, only forms of things that look the same lead to this
text, and the rest of the text is the same behind them. -/
def ReadsOff (form : α → String) (view : α → β) (P : α → Prop) (stops : List Char) (a : α) : Prop :=
  ∀ b r s, P b → StopsAt stops r → StopsAt stops s →
    (form a).toList ++ r = (form b).toList ++ s → view a = view b ∧ r = s

/-- What a thing is written as begins with none of the characters. -/
def BeginsUnlike (form : α → String) (ends : List Char) (a : α) : Prop :=
  ∃ c v, (form a).toList = c :: v ∧ c ∉ ends

/-- Forms with stops behind them are cut in one way. -/
lemma ReadsOff.cons_inj {stops : List Char} {a b : α} (h : ReadsOff form view P stops a) (hb : P b)
    {c d : Char} (hc : c ∈ stops) (hd : d ∈ stops) {r s : List Char}
    (heq : (form a).toList ++ c :: r = (form b).toList ++ d :: s) :
    view a = view b ∧ c = d ∧ r = s := by
  obtain ⟨hview, hrest⟩ := h b _ _ hb (stopsAt_cons.2 hc) (stopsAt_cons.2 hd) heq
  exact ⟨hview, List.cons.inj hrest⟩

variable {ends : List Char} (hcomma : ',' ∉ ends) {as bs : List α} {r s : List Char}

include hcomma in
/-- The items behind the first one are read off with the commas before them. -/
lemma readsOff_tail (has : ∀ a ∈ as, ReadsOff form view P (',' :: ends) a) (hbs : ∀ b ∈ bs, P b)
    (hr : StopsAt ends r) (hs : StopsAt ends s)
    (heq : (as.map form).flatMap (fun t => ',' :: ' ' :: t.toList) ++ r =
      (bs.map form).flatMap (fun t => ',' :: ' ' :: t.toList) ++ s) :
    as.map view = bs.map view ∧ r = s := by
  -- a comma is no end, so both lists go on or both have ended
  have hstop : ∀ {cs : List α} {x : List Char}, StopsAt ends x →
      StopsAt (',' :: ends) ((cs.map form).flatMap (fun t => ',' :: ' ' :: t.toList) ++ x) := by
    intro cs x hx
    cases cs with
    | nil => exact hx.mono (List.subset_cons_self _ _)
    | cons c cs => exact stopsAt_cons.2 List.mem_cons_self
  induction as generalizing bs with
  | nil =>
    cases bs with
    | nil => exact ⟨rfl, heq⟩
    | cons b bs =>
      exact absurd heq (hr.ne_cons hcomma)
  | cons a as ih =>
    cases bs with
    | nil =>
      exact absurd heq.symm (hs.ne_cons hcomma)
    | cons b bs =>
      obtain ⟨ha, has⟩ := List.forall_mem_cons.1 has
      obtain ⟨hb, hbs⟩ := List.forall_mem_cons.1 hbs
      simp only [List.map_cons, List.flatMap_cons, List.cons_append, List.append_assoc] at heq
      have hform := (List.cons.inj (List.cons.inj heq).2).2
      obtain ⟨hview, hrest⟩ := ha b _ _ hb (hstop hr) (hstop hs) hform
      obtain ⟨hviews, hrs⟩ := ih has hbs hrest
      exact ⟨congrArg₂ List.cons hview hviews, hrs⟩

include hcomma in
/-- A list of forms can be read off in front of an end, if each of them can be read off in front of
commas and ends, and none begins like an end. -/
lemma readsOff_list (has : ∀ a ∈ as, ReadsOff form view P (',' :: ends) a) (hbs : ∀ b ∈ bs, P b)
    (hafront : ∀ a ∈ as, BeginsUnlike form ends a) (hbfront : ∀ b ∈ bs, BeginsUnlike form ends b)
    {c : Char} (hc : c ∈ ends)
    (heq : (commaSeparated (as.map form)).toList ++ c :: r =
      (commaSeparated (bs.map form)).toList ++ c :: s) : as.map view = bs.map view ∧ r = s := by
  have hend : ∀ x : List Char, StopsAt ends (c :: x) := fun x => stopsAt_cons.2 hc
  cases as with
  | nil =>
    cases bs with
    | nil => exact ⟨rfl, (List.cons.inj heq).2⟩
    | cons b bs =>
      obtain ⟨d, v, hb, hd⟩ := hbfront b List.mem_cons_self
      rw [List.map_cons, toList_commaSeparated_cons, hb] at heq
      exact absurd heq ((hend r).ne_cons hd)
  | cons a as =>
    cases bs with
    | nil =>
      obtain ⟨d, v, ha, hd⟩ := hafront a List.mem_cons_self
      rw [List.map_cons, toList_commaSeparated_cons, ha] at heq
      exact absurd heq.symm ((hend s).ne_cons hd)
    | cons b bs =>
      rw [List.map_cons, List.map_cons, toList_commaSeparated_cons,
        toList_commaSeparated_cons] at heq
      obtain ⟨hview, hrest⟩ := readsOff_tail hcomma has hbs (hend r) (hend s)
        (congrArg (fun x => ',' :: ' ' :: x) heq)
      exact ⟨hview, (List.cons.inj hrest).2⟩

end Forms

end ExprFront
