import ExprFront.Text
import Mathlib.Data.List.Basic
import Mathlib.Data.Option.Basic
import Mathlib.Tactic.Lemma

/-!
# Reading blocks back

A block can be read back from its text if none of its lines holds a line feed (`Block.ofText_text`),
from its indented form (`Block.indent_injective`), and, among numbered blocks, from the lines of all
of them, if the lines that begin with a number are the first ones (`Block.indexed_inj`).
-/

namespace ExprFront

/-- A sequence is cut in one way in front of the first element that satisfies a predicate. -/
lemma append_inj_of_head {α : Type} {P : α → Prop} {u v x y : List α} (hu : ∀ a ∈ u, ¬ P a)
    (hv : ∀ a ∈ v, ¬ P a) (hx : ∀ a ∈ x.head?, P a) (hy : ∀ a ∈ y.head?, P a)
    (h : u ++ x = v ++ y) : u = v ∧ x = y := by
  rcases List.append_eq_append_iff.1 h with ⟨_ | ⟨a, w⟩, rfl, rfl⟩ | ⟨_ | ⟨a, w⟩, rfl, rfl⟩
  · exact ⟨(List.append_nil u).symm, rfl⟩
  · exact absurd (hx a rfl) (hv a (List.mem_append_right u List.mem_cons_self))
  · exact ⟨List.append_nil v, rfl⟩
  · exact absurd (hy a rfl) (hu a (List.mem_append_right v List.mem_cons_self))

/-- A sequence is cut in one way at the first separator. -/
lemma append_cons_inj {α : Type} {a : α} {u v x y : List α} (hu : a ∉ u) (hv : a ∉ v)
    (h : u ++ a :: x = v ++ a :: y) : u = v ∧ x = y := by
  have hhead : ∀ z, ∀ b ∈ (a :: z).head?, b = a := fun z b hb => (Option.some.inj hb).symm
  obtain ⟨huv, hxy⟩ := append_inj_of_head (P := (· = a)) (fun b hb hba => hu (hba ▸ hb))
    (fun b hb hba => hv (hba ▸ hb)) (hhead x) (hhead y) h
  exact ⟨huv, (List.cons.inj hxy).2⟩

namespace Lines

/-- What stands in front on the same line belongs to the first line. -/
lemma split_append_of_notMem {l : List Char} (h : '\n' ∉ l) (cs : List Char) :
    split (l ++ cs) = (l ++ (split cs).1, (split cs).2) := by
  induction l with
  | nil => rfl
  | cons c l ih =>
    rw [List.mem_cons, not_or] at h
    rw [List.cons_append, split_cons, if_neg (Ne.symm h.1), ih h.2]
    rfl

/-- A text without line feeds is one line. -/
lemma split_of_notMem {l : List Char} (h : '\n' ∉ l) : split l = (l, []) := by
  rw [← List.append_nil l, split_append_of_notMem h, split_nil]

/-- A line and a line feed at the front are cut off first. -/
lemma split_append {l : List Char} (h : '\n' ∉ l) (cs : List Char) :
    split (l ++ '\n' :: cs) = (l, (split cs).1 :: (split cs).2) := by
  rw [split_append_of_notMem h, split_cons, if_pos rfl, List.append_nil]

/-- No line holds a line feed. -/
lemma lineFeed_notMem_split (cs : List Char) : ∀ l ∈ (split cs).1 :: (split cs).2, '\n' ∉ l := by
  induction cs with
  | nil => exact List.forall_mem_singleton.2 List.not_mem_nil
  | cons c cs ih =>
    rw [split_cons]
    split
    next => exact List.forall_mem_cons.2 ⟨List.not_mem_nil, ih⟩
    next hc =>
      obtain ⟨hfirst, hrest⟩ := List.forall_mem_cons.1 ih
      exact List.forall_mem_cons.2 ⟨List.not_mem_cons_of_ne_of_not_mem (Ne.symm hc) hfirst, hrest⟩

/-- The first line begins like the text, unless this begins with a line feed. -/
lemma head?_split (cs : List Char) : (split cs).1.head? = cs.head?.filter (· ≠ '\n') := by
  cases cs with
  | nil => rfl
  | cons c cs =>
    rw [split_cons, List.head?_cons, Option.filter_some]
    by_cases hc : c = '\n' <;> simp [hc]

/-- Only the empty line is indented to the empty line. -/
lemma indentLine_eq_empty_iff {l : String} : indentLine l = "" ↔ l = "" := by
  unfold indentLine
  split
  next => exact Iff.rfl
  next h =>
    exact iff_of_false (by simp [pad]) (mt String.isEmpty_iff.2 h)

/-- A line that is not empty is moved to the right. -/
lemma indentLine_of_ne {l : String} (h : l ≠ "") : indentLine l = pad ++ l := by
  rw [indentLine, if_neg (mt String.isEmpty_iff.1 h)]

/-- An indented line has no new characters but spaces. -/
lemma notMem_indentLine {c : Char} {l : String} (hc : c ≠ ' ') (h : c ∉ l.toList) :
    c ∉ (indentLine l).toList := by
  unfold indentLine
  split
  next => exact h
  next => simp [pad, hc, h]

/-- Different lines are indented differently. -/
lemma indentLine_injective : Function.Injective indentLine := by
  intro s t h
  by_cases hs : s = ""
  · subst hs
    exact (indentLine_eq_empty_iff.1 h.symm).symm
  · have ht : t ≠ "" := by
      rintro rfl
      exact hs (indentLine_eq_empty_iff.1 h)
    rw [indentLine_of_ne hs, indentLine_of_ne ht] at h
    exact (String.append_right_inj pad).1 h

end Lines

namespace Block

variable {a b : Block} {bs cs : List Block}

/-- The lines of two blocks come one after the other. -/
@[simp]
lemma lines_above (a b : Block) : (a.above b).lines = a.lines ++ b.lines := rfl

/-- The lines of a block are indented one by one. -/
@[simp]
lemma lines_indent (b : Block) : b.indent.lines = b.lines.map Lines.indentLine := rfl

/-- A label stands before the first line. -/
lemma lines_label {l : String} {ls : List String} (h : b.lines = l :: ls) (s : String) :
    (b.label s).lines = (s ++ l) :: ls := by
  obtain ⟨hfirst, hrest⟩ := List.cons.inj h
  rw [lines, label, hfirst, hrest]

/-- A block is known by its lines. -/
lemma lines_injective : Function.Injective lines := by
  rintro ⟨l, ls⟩ ⟨m, ms⟩ h
  cases h
  rfl

/-- The lines of several blocks come one after the other. -/
lemma lines_stack (h : bs ≠ []) : (stack bs).lines = bs.flatMap lines := by
  cases bs with
  | nil => exact absurd rfl h
  | cons b bs => rfl

/-- The text of a block has a line feed before every line but the first. -/
lemma toList_text (b : Block) :
    b.text.toList = b.first.toList ++ b.rest.flatMap fun l => '\n' :: l.toList := by
  obtain ⟨l, ls⟩ := b
  rw [text, lines]
  induction ls generalizing l with
  | nil => simp
  | cons m ls ih =>
    rw [String.intercalate_cons_cons, String.toList_append, String.toList_append, ih,
      List.flatMap_cons]
    simp

/-- The lines of a text are those that it was put together from. -/
theorem ofText_text {b : Block} (h : ∀ l ∈ b.lines, '\n' ∉ l.toList) : ofText b.text = b := by
  have hsplit : Lines.split b.text.toList = (b.first.toList, b.rest.map String.toList) := by
    rw [toList_text]
    obtain ⟨l, ls⟩ := b
    induction ls generalizing l with
    | nil =>
      rw [List.flatMap_nil, List.append_nil, Lines.split_of_notMem (h l List.mem_cons_self)]
      rfl
    | cons m ls ih =>
      rw [List.flatMap_cons, List.cons_append, Lines.split_append (h l List.mem_cons_self),
        ih m fun l' hl' => h l' (List.mem_cons_of_mem l hl')]
      rfl
  rw [ofText, hsplit]
  simp [Function.comp_def]

/-- The text that a block was made of is the text of the block. -/
@[simp]
lemma text_ofText (s : String) : (ofText s).text = s := by
  rw [← String.toList_inj, toList_text, ofText]
  simp only [String.toList_ofList, List.flatMap_map]
  exact Lines.append_flatMap_split s.toList

/-- No line of the block of a text holds a line feed. -/
lemma lineFeed_notMem_ofText (s : String) : ∀ l ∈ (ofText s).lines, '\n' ∉ l.toList := by
  obtain ⟨hfirst, hrest⟩ := List.forall_mem_cons.1 (Lines.lineFeed_notMem_split s.toList)
  refine List.forall_mem_cons.2 ⟨?_, List.forall_mem_map.2 fun l hl => ?_⟩
  · rwa [ofText, String.toList_ofList]
  · rw [String.toList_ofList]
    exact hrest l hl

/-- A text without line feeds makes one line. -/
lemma lines_ofText {s : String} (h : '\n' ∉ s.toList) : (ofText s).lines = [s] := by
  rw [ofText, Lines.split_of_notMem h]
  simp [lines]

/-- Texts are alike only if their blocks are, without line feeds in the lines. -/
lemma text_inj (ha : ∀ l ∈ a.lines, '\n' ∉ l.toList) (hb : ∀ l ∈ b.lines, '\n' ∉ l.toList)
    (h : a.text = b.text) : a = b := by
  rw [← ofText_text ha, ← ofText_text hb, h]

/-- Different blocks are indented differently. -/
lemma indent_injective : Function.Injective indent := by
  intro a b h
  apply lines_injective
  apply Lines.indentLine_injective.list_map
  exact congrArg lines h

/-- The line begins with a digit, as the first lines of numbered blocks do. -/
def IsNumbered (l : String) : Prop := ∃ c ∈ l.toList.head?, c.isDigit = true

/-- No indented line begins with a number. -/
lemma not_isNumbered_indentLine (l : String) : ¬ IsNumbered (Lines.indentLine l) := by
  rintro ⟨c, hc, hdigit⟩
  by_cases hl : l = ""
  · subst hl
    cases hc
  · rw [Lines.indentLine_of_ne hl, String.toList_append] at hc
    cases hc
    cases hdigit

/-- The first line of blocks with numbers begins with one. -/
lemma head?_flatMap_lines (h : ∀ b ∈ bs, IsNumbered b.first) :
    ∀ l ∈ (bs.flatMap lines).head?, IsNumbered l := by
  cases bs with
  | nil => exact nofun
  | cons b bs =>
    intro l hl
    cases hl
    exact h b List.mem_cons_self

/-- Blocks can be told apart in the sequence of their lines if the first lines are those that begin
with a digit. -/
lemma flatMap_lines_inj (hbs : ∀ b ∈ bs, IsNumbered b.first ∧ ∀ l ∈ b.rest, ¬ IsNumbered l)
    (hcs : ∀ c ∈ cs, IsNumbered c.first ∧ ∀ l ∈ c.rest, ¬ IsNumbered l)
    (h : bs.flatMap lines = cs.flatMap lines) : bs = cs := by
  induction bs generalizing cs with
  | nil =>
    cases cs with
    | nil => rfl
    | cons c cs => cases h
  | cons b bs ih =>
    cases cs with
    | nil => cases h
    | cons c cs =>
      obtain ⟨hb, hbs⟩ := List.forall_mem_cons.1 hbs
      obtain ⟨hc, hcs⟩ := List.forall_mem_cons.1 hcs
      rw [List.flatMap_cons, List.flatMap_cons] at h
      obtain ⟨hfirst, hrest⟩ := List.cons.inj h
      obtain ⟨hrest, htail⟩ := append_inj_of_head hb.2 hc.2
        (head?_flatMap_lines fun b hb => (hbs b hb).1)
        (head?_flatMap_lines fun c hc => (hcs c hc).1) hrest
      have hbc : b = c := lines_injective (by rw [lines, lines, hfirst, hrest])
      rw [hbc, ih hbs hcs htail]

/-- Different blocks are labelled differently. -/
lemma label_injective (s : String) : Function.Injective (label s) := by
  rintro ⟨l, ls⟩ ⟨m, ms⟩ h
  obtain ⟨hfirst, hrest⟩ := Block.mk.inj h
  exact congrArg₂ Block.mk ((String.append_right_inj s).1 hfirst) hrest

/-- Decimal digits are digits only. -/
lemma notMem_toDigits {c : Char} (hc : c.isDigit = false) (n : Nat) : c ∉ Nat.toDigits 10 n := by
  intro hmem
  rw [Nat.isDigit_of_mem_toDigits (by decide) (Nat.le_refl 10) hmem] at hc
  cases hc

/-- The number before a line has no new characters but digits, a colon and a space. -/
lemma notMem_label {c : Char} (hdigit : c.isDigit = false) (hc : c ∉ [':', ' ']) (i : Nat)
    {l : String} (h : c ∉ l.toList) : c ∉ (s!"{i}: " ++ l).toList := by
  show c ∉ (toString i ++ ": " ++ l).toList
  rw [String.toList_append, String.toList_append, Nat.toString_eq_ofList_toDigits,
    String.toList_ofList, List.append_assoc, List.mem_append, List.mem_append, not_or, not_or]
  exact ⟨notMem_toDigits hdigit i, hc, h⟩

/-- A block with a number before it begins with a number. -/
lemma isNumbered_label (i : Nat) (b : Block) : IsNumbered (b.label s!"{i}: ").first := by
  obtain ⟨c, ds, hc⟩ := List.exists_cons_of_ne_nil (Nat.toDigits_ne_nil (n := i) (b := 10))
  have hdigit : c.isDigit = true := by
    apply Nat.isDigit_of_mem_toDigits (n := i) (by decide) (Nat.le_refl 10)
    rw [hc]
    exact List.mem_cons_self
  refine ⟨c, ?_, hdigit⟩
  show c ∈ (toString i ++ ": " ++ b.first).toList.head?
  rw [String.toList_append, String.toList_append, Nat.toString_eq_ofList_toDigits,
    String.toList_ofList, hc]
  rfl

/-- The lines of numbered blocks are those of each of the blocks with its number, in order. -/
lemma lines_indexed {α : Type} {as : List α} (hne : as ≠ []) (f : α → Block) :
    (indexed (as.map f)).lines = as.zipIdx.flatMap fun p => ((f p.1).label s!"{p.2}: ").lines := by
  rw [indexed, lines_stack (by simpa using hne), List.mapIdx_eq_zipIdx_map, List.zipIdx_map,
    List.flatMap_map, List.flatMap_map]
  rfl

/-- What holds of lines with and without numbers holds of the lines of numbered blocks. -/
lemma forall_mem_lines_indexed {Q : String → Prop} (hne : bs ≠ [])
    (hlabel : ∀ (i : Nat) l, Q l → Q (s!"{i}: " ++ l)) (h : ∀ b ∈ bs, ∀ l ∈ b.lines, Q l) :
    ∀ l ∈ (indexed bs).lines, Q l := by
  intro l hl
  rw [indexed, lines_stack (by simpa using hne)] at hl
  obtain ⟨b, hb, hl⟩ := List.mem_flatMap.1 hl
  obtain ⟨i, hi, rfl⟩ := List.mem_mapIdx.1 hb
  have hlines := h bs[i] (List.getElem_mem hi)
  rcases List.mem_cons.1 hl with rfl | hl
  · exact hlabel i _ (hlines _ List.mem_cons_self)
  · exact hlines l (List.mem_cons_of_mem _ hl)

/-- Blocks can be told apart when they are numbered, if no line but the first of each begins with a
digit by itself. -/
theorem indexed_inj (hbs : bs ≠ []) (hcs : cs ≠ []) (hb : ∀ b ∈ bs, ∀ l ∈ b.rest, ¬ IsNumbered l)
    (hc : ∀ c ∈ cs, ∀ l ∈ c.rest, ¬ IsNumbered l) (h : indexed bs = indexed cs) : bs = cs := by
  have hheads : ∀ {ds : List Block}, (∀ d ∈ ds, ∀ l ∈ d.rest, ¬ IsNumbered l) →
      ∀ d ∈ ds.mapIdx fun i b => b.label s!"{i}: ",
        IsNumbered d.first ∧ ∀ l ∈ d.rest, ¬ IsNumbered l := by
    intro ds hds d hd
    obtain ⟨i, hi, rfl⟩ := List.mem_mapIdx.1 hd
    exact ⟨isNumbered_label i ds[i], hds ds[i] (List.getElem_mem hi)⟩
  have hlines := congrArg lines h
  rw [indexed, indexed, lines_stack (by simpa using hbs),
    lines_stack (by simpa using hcs)] at hlines
  have hmap := flatMap_lines_inj (hheads hb) (hheads hc) hlines
  apply List.ext_getElem?
  intro i
  have hi := congrArg (fun l => l[i]?) hmap
  simp only [List.getElem?_mapIdx] at hi
  exact Option.map_injective (label_injective _) hi

end Block

end ExprFront
