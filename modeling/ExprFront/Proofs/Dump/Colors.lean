import ExprFront.Proofs.Dump.Tree
import Mathlib.Data.List.Forall2

/-!
# Colored dumps

A colored dump is the plain dump with color tags in it (`Tagged`): a tag stands in front of a
character of the line that it is in, or behind one. So no line is empty in one of the dumps only,
and indenting and numbering keep the relation. Where a plain text holds no escape character with an
opening bracket behind it, and only there, taking the color sequences out of the tagged text leads
back to it (`strip_dump`).
-/

namespace ExprFront

/-- The text holds an escape character with an opening bracket behind it. -/
def OpensSequence (cs : List Char) : Prop := ['\x1b', '['] <:+: cs

instance : DecidablePred OpensSequence :=
  fun cs => inferInstanceAs (Decidable (['\x1b', '['] <:+: cs))

/-- A sequence is opened at the front or further on. -/
lemma opensSequence_cons {a : Char} {cs : List Char} :
    OpensSequence (a :: cs) ↔ (a = '\x1b' ∧ cs.head? = some '[') ∨ OpensSequence cs := by
  have hhead : ['['] <+: cs ↔ cs.head? = some '[' := by
    cases cs with
    | nil => simp
    | cons b cs => simp [eq_comm]
  rw [OpensSequence, List.infix_cons_iff, List.cons_prefix_cons, hhead, eq_comm]
  rfl

/-- What happens to the first character. -/
lemma stripOnto_cons (inside : Bool) (a : Char) (cs : List Char) :
    stripOnto [] inside (a :: cs) =
      if inside then stripOnto [] (a ≠ 'm') cs
      else if a = '\x1b' ∧ cs.head? = some '[' then stripOnto [] true cs
      else a :: stripOnto [] false cs := by
  rw [stripOnto, stripOnto_eq [a]]
  rfl

/-- The first text is the second with color tags in it. A color stands in front of a character and a
reset behind one, on one line with it, and no tag stands right behind an escape character. -/
inductive Tagged : List Char → List Char → Prop where
  | nil : Tagged [] []
  | char {a cs ds} (h : Tagged cs ds) (hescape : a = '\x1b' → cs.head? = ds.head?) :
    Tagged (a :: cs) (a :: ds)
  | color {a cs ds} (c : Color) (h : Tagged (a :: cs) (a :: ds)) (hline : a ≠ '\n') :
    Tagged (c.code.toList ++ a :: cs) (a :: ds)
  | reset {a cs ds} (h : Tagged cs ds) (hline : a ≠ '\n') (hescape : a ≠ '\x1b') :
    Tagged (a :: (colorReset.toList ++ cs)) (a :: ds)

namespace Tagged

variable {cs ds cs' ds' : List Char}

/-- A text is tagged with no tags at all. -/
lemma refl (cs : List Char) : Tagged cs cs := by
  induction cs with
  | nil => exact .nil
  | cons a cs ih => exact .char ih fun _ => rfl

/-- No text is empty that holds a tag. -/
lemma eq_nil_iff (h : Tagged cs ds) : cs = [] ↔ ds = [] := by
  cases h <;> simp

/-- Texts that are put together are tagged like their parts, if the second part starts with no
tag. -/
lemma append (h : Tagged cs ds) (h' : Tagged cs' ds') (hhead : cs'.head? = ds'.head?) :
    Tagged (cs ++ cs') (ds ++ ds') := by
  induction h with
  | nil => exact h'
  | @char a cs ds h hescape ih =>
    refine .char ih fun ha => ?_
    show (cs ++ cs').head? = (ds ++ ds').head?
    rw [List.head?_append, List.head?_append, hescape ha, hhead]
  | color c h hline ih =>
    rw [List.append_assoc]
    exact .color c ih hline
  | reset h hline hescape ih =>
    rw [List.cons_append, List.append_assoc]
    exact .reset ih hline hescape

/-- Text without escape characters can be put in front. -/
lemma prepend {u : List Char} (hu : '\x1b' ∉ u) (h : Tagged cs ds) :
    Tagged (u ++ cs) (u ++ ds) := by
  induction u with
  | nil => exact h
  | cons a u ih =>
    rw [List.mem_cons, not_or] at hu
    exact .char (ih hu.2) fun ha => absurd ha.symm hu.1

/-- A text in a color has a tag in front of its first character and one behind its last. -/
lemma colored {s : String} {u : List Char} {z : Char} (c : Color) (hs : s.toList = u ++ [z])
    (hfirst : s.toList.head? ≠ some '\n') (hlast : z ≠ '\n') (hescape : z ≠ '\x1b')
    (h : Tagged cs ds) : Tagged ((colored s c true).toList ++ cs) (s.toList ++ ds) := by
  have hreset : Tagged (u ++ z :: (colorReset.toList ++ cs)) (u ++ z :: ds) :=
    (refl u).append (.reset h hlast hescape) rfl
  have hcolored : (ExprFront.colored s c true).toList ++ cs =
      c.code.toList ++ (u ++ z :: (colorReset.toList ++ cs)) := by
    rw [ExprFront.colored, if_pos rfl, String.toList_append, String.toList_append, hs]
    simp
  rw [hcolored, hs, List.append_assoc, List.singleton_append]
  rw [hs] at hfirst
  cases u with
  | nil => exact .color c hreset hlast
  | cons a u => exact .color c hreset fun ha => hfirst (congrArg some ha)

/-- A color code is removed, also within a sequence. -/
lemma stripOnto_code (c : Color) (inside : Bool) (cs : List Char) :
    stripOnto [] inside (c.code.toList ++ cs) = stripOnto [] false cs := by
  cases c <;> cases inside <;> simp [Color.code, stripOnto]

/-- The code that ends a color is removed, also within a sequence. -/
lemma stripOnto_reset (inside : Bool) (cs : List Char) :
    stripOnto [] inside (colorReset.toList ++ cs) = stripOnto [] false cs := by
  cases inside <;> simp [colorReset, stripOnto]

/-- Only tags are taken out of the tagged form of a text that opens no sequence. -/
lemma stripOnto_eq_of_not (h : Tagged cs ds) (hopen : ¬ OpensSequence ds) :
    stripOnto [] false cs = ds := by
  induction h with
  | nil => rfl
  | @char a cs ds h hescape ih =>
    rw [opensSequence_cons, not_or] at hopen
    have hkept : ¬ (a = '\x1b' ∧ cs.head? = some '[') :=
      fun ⟨ha, hcs⟩ => hopen.1 ⟨ha, (hescape ha).symm.trans hcs⟩
    rw [stripOnto_cons, if_neg Bool.false_ne_true, if_neg hkept, ih hopen.2]
  | color c h hline ih => rw [stripOnto_code, ih hopen]
  | @reset a cs ds h hline hescape ih =>
    rw [opensSequence_cons, not_or] at hopen
    rw [stripOnto_cons, if_neg Bool.false_ne_true, if_neg fun ha => hescape ha.1, stripOnto_reset,
      ih hopen.2]

/-- No character of a tag is ever left, and if the text opens a sequence, then some of its own
characters are lost with the tags. -/
lemma length_stripOnto (h : Tagged cs ds) (inside : Bool) :
    (stripOnto [] inside cs).length ≤ ds.length ∧
      (OpensSequence ds → (stripOnto [] inside cs).length < ds.length) := by
  induction h generalizing inside with
  | nil => exact ⟨Nat.le_refl 0, fun hopen => absurd hopen (by decide)⟩
  | @char a cs ds h hescape ih =>
    have hlost : ∀ b, (stripOnto [] b cs).length < (a :: ds).length :=
      fun b => Nat.lt_succ_of_le (ih b).1
    rw [stripOnto_cons, opensSequence_cons]
    split
    next => exact ⟨Nat.le_of_lt (hlost _), fun _ => hlost _⟩
    next =>
      split
      next => exact ⟨Nat.le_of_lt (hlost _), fun _ => hlost _⟩
      next hkept =>
        refine ⟨Nat.succ_le_succ (ih false).1, ?_⟩
        rintro (⟨ha, hds⟩ | hopen)
        · exact absurd ⟨ha, (hescape ha).trans hds⟩ hkept
        · exact Nat.succ_lt_succ ((ih false).2 hopen)
  | color c h hline ih =>
    rw [stripOnto_code]
    exact ih false
  | @reset a cs ds h hline hescape ih =>
    have hlost : (stripOnto [] false cs).length < (a :: ds).length :=
      Nat.lt_succ_of_le (ih false).1
    rw [stripOnto_cons, stripOnto_reset, stripOnto_reset, stripOnto_reset, opensSequence_cons]
    split
    next => exact ⟨Nat.le_of_lt hlost, fun _ => hlost⟩
    next =>
      rw [if_neg fun ha => hescape ha.1]
      refine ⟨Nat.succ_le_succ (ih false).1, ?_⟩
      rintro (⟨ha, -⟩ | hopen)
      · exact absurd ha hescape
      · exact Nat.succ_lt_succ ((ih false).2 hopen)

/-- Taking the color sequences out of a tagged text leads back to the text exactly if this opens
none itself. -/
theorem stripOnto_eq_iff (h : Tagged cs ds) : stripOnto [] false cs = ds ↔ ¬ OpensSequence ds := by
  refine ⟨fun heq hopen => ?_, h.stripOnto_eq_of_not⟩
  have hlt := (h.length_stripOnto false).2 hopen
  rw [heq] at hlt
  exact Nat.lt_irrefl _ hlt

/-- No color code holds a line feed. -/
lemma lineFeed_notMem_code (c : Color) : '\n' ∉ c.code.toList := by
  cases c <;> simp [Color.code]

/-- The code that ends a color holds no line feed. -/
lemma lineFeed_notMem_colorReset : '\n' ∉ colorReset.toList := by
  simp [colorReset]

/-- The lines of a tagged text are tagged one by one. -/
lemma split (h : Tagged cs ds) :
    Tagged (Lines.split cs).1 (Lines.split ds).1 ∧
      List.Forall₂ Tagged (Lines.split cs).2 (Lines.split ds).2 := by
  induction h with
  | nil => exact ⟨.nil, .nil⟩
  | @char a cs ds h hescape ih =>
    rw [Lines.split_cons, Lines.split_cons]
    split
    next => exact ⟨.nil, .cons ih.1 ih.2⟩
    next ha =>
      refine ⟨.char ih.1 fun hesc => ?_, ih.2⟩
      rw [Lines.head?_split, Lines.head?_split, hescape hesc]
  | @color a cs ds c h hline ih =>
    rw [Lines.split_cons, if_neg hline, Lines.split_cons, if_neg hline] at ih
    rw [Lines.split_append_of_notMem (lineFeed_notMem_code c), Lines.split_cons, if_neg hline,
      Lines.split_cons, if_neg hline]
    exact ⟨.color c ih.1 hline, ih.2⟩
  | @reset a cs ds h hline hescape ih =>
    rw [Lines.split_cons, if_neg hline, Lines.split_cons, if_neg hline,
      Lines.split_append_of_notMem lineFeed_notMem_colorReset]
    exact ⟨.reset ih.1 hline hescape, ih.2⟩

end Tagged

namespace Block

/-- The lines of the first block are those of the second with color tags in them. -/
def Tagged (b c : Block) : Prop :=
  List.Forall₂ (fun l m : String => ExprFront.Tagged l.toList m.toList) b.lines c.lines

namespace Tagged

variable {b c b' c' : Block} {bs cs : List Block}

/-- Without color codes the blocks are the same. -/
lemma refl (b : Block) : Tagged b b := List.forall₂_same.2 fun l _ => .refl l.toList

/-- One colored block above another. -/
lemma above (h : Tagged b c) (h' : Tagged b' c') : Tagged (b.above b') (c.above c') :=
  List.rel_append h h'

/-- A line is indented in both blocks or, being empty, in none of them. -/
lemma indent (h : Tagged b c) : Tagged b.indent c.indent := by
  rw [Tagged, lines_indent, lines_indent]
  refine List.rel_map (fun l m hlm => ?_) h
  have hempty : l = "" ↔ m = "" := by
    rw [← String.toList_eq_nil_iff, ← String.toList_eq_nil_iff]
    exact hlm.eq_nil_iff
  by_cases hm : m = ""
  · rw [hempty.2 hm, hm]
    exact .nil
  · rw [Lines.indentLine_of_ne (mt hempty.1 hm), Lines.indentLine_of_ne hm, String.toList_append,
      String.toList_append]
    exact hlm.prepend (by simp [Lines.pad])

/-- A colored block behind a label without color codes. -/
lemma label {s : String} (hs : '\x1b' ∉ s.toList) (h : Tagged b c) :
    Tagged (b.label s) (c.label s) := by
  obtain ⟨hfirst, hrest⟩ := List.forall₂_cons.1 h
  refine .cons ?_ hrest
  show ExprFront.Tagged (s ++ b.first).toList (s ++ c.first).toList
  rw [String.toList_append, String.toList_append]
  exact hfirst.prepend hs

/-- Colored blocks above each other. -/
lemma stack (h : List.Forall₂ Tagged bs cs) : Tagged (stack bs) (stack cs) := by
  cases h with
  | nil => exact refl _
  | cons hb h =>
    obtain ⟨hfirst, hrest⟩ := List.forall₂_cons.1 hb
    exact .cons hfirst (List.rel_append hrest (List.rel_flatMap h fun _ _ hlines => hlines))

/-- Colored blocks with their numbers. -/
lemma indexed (h : List.Forall₂ Tagged bs cs) : Tagged (indexed bs) (indexed cs) := by
  refine stack (List.forall₂_iff_get.2 ⟨by simpa using h.length_eq, fun i hi hi' => ?_⟩)
  simp only [List.get_eq_getElem, List.getElem_mapIdx]
  have hlabel : '\x1b' ∉ (s!"{i}: " ++ "").toList :=
    notMem_label (by decide) (by decide) i (by simp)
  rw [String.append_empty] at hlabel
  exact label hlabel (h.get (by simpa using hi) (by simpa using hi'))

/-- The lines of a tagged text. -/
lemma ofText {s t : String} (h : ExprFront.Tagged s.toList t.toList) :
    Tagged (ofText s) (ofText t) := by
  obtain ⟨hfirst, hrest⟩ := h.split
  have hline : ∀ l m : List Char, ExprFront.Tagged l m →
      ExprFront.Tagged (String.ofList l).toList (String.ofList m).toList := by
    intro l m hlm
    rwa [String.toList_ofList, String.toList_ofList]
  refine .cons (hline _ _ hfirst) ?_
  exact List.forall₂_map_left_iff.2 (List.forall₂_map_right_iff.2 (hrest.imp hline))

/-- A line feed stands in front of lines below another one, so that they start with no tag. -/
lemma below {ls ms : List String}
    (h : List.Forall₂ (fun l m : String => ExprFront.Tagged l.toList m.toList) ls ms) :
    ExprFront.Tagged (ls.flatMap fun l => '\n' :: l.toList) (ms.flatMap fun m => '\n' :: m.toList) ∧
      (ls.flatMap fun l => '\n' :: l.toList).head? =
        (ms.flatMap fun m => '\n' :: m.toList).head? := by
  induction h with
  | nil => exact ⟨.nil, rfl⟩
  | cons hlm h ih =>
    rw [List.flatMap_cons, List.flatMap_cons]
    exact ⟨.char (hlm.append ih.1 ih.2) (absurd · (by decide)), rfl⟩

/-- A block with tagged lines is written as a tagged text. -/
lemma text (h : Tagged b c) : ExprFront.Tagged b.text.toList c.text.toList := by
  obtain ⟨hfirst, hrest⟩ := List.forall₂_cons.1 h
  obtain ⟨hbelow, hhead⟩ := below hrest
  rw [toList_text, toList_text]
  exact hfirst.append hbelow hhead

end Tagged

end Block

namespace Dumper

variable (source : SourceUnit)

/-- The heading of a node is colored in its parts. -/
lemma heading_tagged (e : Expr) (s : Span) :
    Tagged (heading ⟨source, true⟩ e.nodeName s).toList
      (heading ⟨source, false⟩ e.nodeName s).toList := by
  have hnames : ∀ name ∈ ["identifier_expr", "literal_expr", "self_expr", "superclass_expr"],
      name.toList = name.toList.dropLast ++ ['r'] ∧ name.toList.head? ≠ some '\n' := by decide
  obtain ⟨hname, hfirst⟩ := hnames _ (nodeName_mem e)
  have hrange :
      Tagged ((colored ("<range: " ++ source.describe s ++ ">") .yellow true).toList ++ [])
        (("<range: " ++ source.describe s ++ ">").toList ++ []) :=
    (Tagged.refl []).colored .yellow String.toList_append (by simp) (by decide) (by decide)
  rw [List.append_nil, List.append_nil] at hrange
  have hspace := hrange.prepend (u := [' ']) (by decide)
  have hheading : (heading ⟨source, true⟩ e.nodeName s).toList =
      (colored e.nodeName .magenta true).toList ++
        ' ' :: (colored ("<range: " ++ source.describe s ++ ">") .yellow true).toList := by
    rw [heading]
    simp
  have hplain : (heading ⟨source, false⟩ e.nodeName s).toList =
      e.nodeName.toList ++ ' ' :: ("<range: " ++ source.describe s ++ ">").toList := by
    rw [heading_plain rfl]
    simp
  rw [hheading, hplain]
  exact hspace.colored .magenta hname hfirst (by decide) (by decide)

/-- The lines of a node are colored in their parts. -/
lemma node_tagged (e : Expr) : (node ⟨source, true⟩ e).Tagged (node ⟨source, false⟩ e) :=
  (Block.Tagged.ofText (heading_tagged source e e.span)).above (.refl _)

/-- A colored dump is the plain dump with tags. -/
lemma expr_tagged (e : Expr) : (expr ⟨source, true⟩ e).Tagged (expr ⟨source, false⟩ e) := by
  induction e with
  | subscript r args s ih =>
    rw [expr, expr, exprs_eq_map, exprs_eq_map]
    refine (node_tagged source _).above (Block.Tagged.indexed ?_).indent
    exact List.forall₂_map_left_iff.2 (List.forall₂_map_right_iff.2 (List.forall₂_same.2 ih))
  | _ => exact node_tagged source _

/-- Lists of things are dumped one by one, so they are tagged if each of them is. -/
lemma indexed_tagged {α : Type} {f g : α → Block} (h : ∀ a, (f a).Tagged (g a)) (as : List α) :
    (Block.indexed (as.map f)).Tagged (Block.indexed (as.map g)) :=
  .indexed (List.forall₂_map_left_iff.2 (List.forall₂_map_right_iff.2
    (List.forall₂_same.2 fun a _ => h a)))

/-- The dump of a condition is colored in its parts. -/
lemma condition_tagged (c : Condition) :
    (condition ⟨source, true⟩ c).Tagged (condition ⟨source, false⟩ c) := by
  cases c with
  | expression e => exact expr_tagged source e
  | availability platforms => exact .refl _
  | binding word pattern e => exact (Block.Tagged.refl _).above (expr_tagged source e).indent

/-- The dump of a pattern initializer is colored in its parts. -/
lemma patternInitializer_tagged (i : PatternInitializer) :
    (patternInitializer ⟨source, true⟩ i).Tagged (patternInitializer ⟨source, false⟩ i) := by
  obtain ⟨pattern, _ | e⟩ := i
  · exact .refl _
  · exact (Block.Tagged.refl _).above (expr_tagged source e).indent

/-- The dump of pattern initializers is colored in its parts. -/
lemma patternInitializers_tagged (is : List PatternInitializer) :
    (patternInitializers ⟨source, true⟩ is).value.Tagged
      (patternInitializers ⟨source, false⟩ is).value := by
  match is with
  | [] => exact .refl _
  | [i] => exact patternInitializer_tagged source i
  | i :: j :: is =>
    exact (Block.Tagged.refl _).above (indexed_tagged (patternInitializer_tagged source) _)

end Dumper

/-- The first text is the second with color tags, and taking color sequences out of it leads back to
the second one exactly if this opens no color sequence itself. -/
structure IsColoring (s t : String) : Prop where
  tagged : Tagged s.toList t.toList
  strip_eq_iff : stripColors s = t ↔ ¬ OpensSequence t.toList

/-- The text of a colored block is a coloring of the plain text. -/
lemma Block.Tagged.isColoring {b c : Block} (h : b.Tagged c) : IsColoring b.text c.text where
  tagged := h.text
  strip_eq_iff := by
    rw [← h.text.stripOnto_eq_iff, stripColors, ← String.toList_inj, String.toList_ofList]

/-- Colors change nothing in a dump but color tags, and taking color sequences out undoes them
exactly where the plain dump holds no escape character with an opening bracket behind it. This holds
of the dumps of all expressions, lists of expressions, conditions and pattern initializers in every
source unit. -/
theorem strip_dump (source : SourceUnit) {on off : DumpOptions} (hon : on.usesColors = true)
    (hoff : off.usesColors = false) :
    (∀ e, IsColoring (dumpExpr e source on) (dumpExpr e source off)) ∧
    (∀ es, IsColoring ((Dumper.ofOptions source on).expressions es).text
      ((Dumper.ofOptions source off).expressions es).text) ∧
    (∀ cs, IsColoring ((Dumper.ofOptions source on).conditions cs).text
      ((Dumper.ofOptions source off).conditions cs).text) ∧
    ∀ is, IsColoring ((Dumper.ofOptions source on).patternInitializers is).value.text
      ((Dumper.ofOptions source off).patternInitializers is).value.text := by
  have hdon : Dumper.ofOptions source on = ⟨source, true⟩ := by rw [Dumper.ofOptions, hon]
  have hdoff : Dumper.ofOptions source off = ⟨source, false⟩ := by rw [Dumper.ofOptions, hoff]
  simp only [dumpExpr, hdon, hdoff]
  refine ⟨fun e => ?_, fun es => ?_, fun cs => ?_, fun is => ?_⟩
  · exact (Dumper.expr_tagged source e).isColoring
  · rw [Dumper.expressions, Dumper.expressions, Dumper.exprs_eq_map, Dumper.exprs_eq_map]
    exact (Dumper.indexed_tagged (Dumper.expr_tagged source) es).isColoring
  · have hbelow := Dumper.indexed_tagged (Dumper.condition_tagged source) cs
    exact ((Block.Tagged.refl _).above hbelow).isColoring
  · exact (Dumper.patternInitializers_tagged source is).isColoring

/-- A unit name of two lines does no harm; one that opens a color sequence hides what is behind
it. -/
theorem strip_dump_unit_name :
    let on : DumpOptions := ⟨.always, false⟩
    let off : DumpOptions := ⟨.never, true⟩
    let e : Expr := .subscript .self [.selfRef ⟨0, 1⟩] ⟨0, 3⟩
    on.usesColors = true ∧ off.usesColors = false ∧
      stripColors (dumpExpr e (.ofText "a\nb" ['x']) on) = dumpExpr e (.ofText "a\nb" ['x']) off ∧
      stripColors (dumpExpr e (.ofText "\x1b[b" ['x']) on) ≠
        dumpExpr e (.ofText "\x1b[b" ['x']) off := by
  intro on off e
  have hon : on.usesColors = true := rfl
  have hoff : off.usesColors = false := rfl
  have hlines := (strip_dump (.ofText "a\nb" ['x']) hon hoff).1 e
  have hescape := (strip_dump (.ofText "\x1b[b" ['x']) hon hoff).1 e
  refine ⟨hon, hoff, hlines.strip_eq_iff.2 (by decide +kernel), fun h => ?_⟩
  exact hescape.strip_eq_iff.1 h (by decide +kernel)

end ExprFront
