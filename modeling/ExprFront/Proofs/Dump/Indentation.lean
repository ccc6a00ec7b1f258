import ExprFront.Proofs.Dump.Walk
import Mathlib.Logic.Function.Iterate

/-!
# Indented texts

The lines of an indented text are those of the text, each of them indented by itself
(`Block.ofText_indent`). So two texts may be indented before or after one is put above the other, a
text that is indented several times stands behind one margin, and indentation can be undone
(`indent_linewise`). And a dump can be put together from finished texts that are numbered, joined
and indented one after the other: this is the text of its block (`Dumper.text_dumps`).
-/

namespace ExprFront

namespace Lines

/-- A line one level less deep, without the two spaces in front if it has them. -/
def outdentLine (line : String) : String :=
  match line.toList with
  | ' ' :: ' ' :: cs => String.ofList cs
  | _ => line

/-- Taking the margin away undoes putting it in. -/
lemma outdentLine_indentLine (l : String) : outdentLine (indentLine l) = l := by
  by_cases hl : l = ""
  · subst hl
    rfl
  · have hcs : (pad ++ l).toList = ' ' :: ' ' :: l.toList := String.toList_append
    rw [indentLine_of_ne hl, outdentLine, hcs]
    exact String.ofList_toList

/-- A line that is not empty stands behind the margin of the level to which it is indented. -/
lemma iterate_indentLine (depth : Nat) (l : String) :
    indentLine^[depth] l = if l = "" then "" else Dumper.margin depth ++ l := by
  induction depth with
  | zero =>
    split
    next h => exact h
    next => exact String.empty_append.symm
  | succ depth ih =>
    rw [Function.iterate_succ_apply', ih]
    split
    next => rfl
    next h => exact Dumper.indentLine_margin depth h

end Lines

namespace Block

/-- The block one level less deep. -/
def outdent (b : Block) : Block := ⟨Lines.outdentLine b.first, b.rest.map Lines.outdentLine⟩

/-- Outdenting a block undoes indenting it. -/
lemma outdent_indent (b : Block) : b.indent.outdent = b := by
  have hline : Lines.outdentLine ∘ Lines.indentLine = id :=
    funext Lines.outdentLine_indentLine
  rw [indent, outdent, List.map_map, hline, List.map_id, Lines.outdentLine_indentLine]

/-- Blocks above each other are indented one by one. -/
lemma indent_above (a b : Block) : (a.above b).indent = a.indent.above b.indent := by
  apply lines_injective
  rw [lines_indent, lines_above, lines_above, lines_indent, lines_indent, List.map_append]

/-- It does not matter which of three blocks are put together first. -/
lemma above_assoc (a b c : Block) : (a.above b).above c = a.above (b.above c) := by
  apply lines_injective
  simp only [lines_above, List.append_assoc]

/-- The text of two blocks has a line feed between them. -/
lemma text_above (a b : Block) : (a.above b).text = a.text ++ "\n" ++ b.text := by
  rw [← String.toList_inj]
  simp [toList_text, above, lines]

/-- A line feed between two texts puts one above the other. -/
lemma ofText_append_lineFeed (s t : String) :
    ofText (s ++ "\n" ++ t) = (ofText s).above (ofText t) := by
  have hlines : ∀ l ∈ ((ofText s).above (ofText t)).lines, '\n' ∉ l.toList := by
    rw [lines_above]
    exact List.forall_mem_append.2 ⟨lineFeed_notMem_ofText s, lineFeed_notMem_ofText t⟩
  rw [← ofText_text hlines, text_above, text_ofText, text_ofText]

/-- The block of a text has the lines between its line feeds. -/
lemma splitOn_lineFeed (s : String) :
    s.toList.splitOn '\n' = (ofText s).lines.map String.toList := by
  have htext : s.toList = ['\n'].intercalate ((ofText s).lines.map String.toList) := by
    conv_lhs => rw [← text_ofText s, text, String.toList_intercalate]
    rfl
  rw [htext]
  exact List.splitOn_intercalate '\n' (List.forall_mem_map.2 (lineFeed_notMem_ofText s))
    (List.cons_ne_nil _ _)

/-- An indented text has the lines of the text, indented. -/
lemma ofText_indent (s : String) : ofText (ExprFront.indent s) = (ofText s).indent := by
  apply ofText_text
  intro l hl
  obtain ⟨m, hm, rfl⟩ := List.mem_map.1 (lines_indent _ ▸ hl)
  exact Lines.notMem_indentLine (by decide) (lineFeed_notMem_ofText s m hm)

/-- Every line gets as many margins as the text is indented times. -/
lemma lines_iterate_indent (depth : Nat) (s : String) :
    (ofText (ExprFront.indent^[depth] s)).lines =
      (ofText s).lines.map Lines.indentLine^[depth] := by
  induction depth with
  | zero => exact (List.map_id _).symm
  | succ depth ih =>
    rw [Function.iterate_succ_apply', ofText_indent, lines_indent, ih, List.map_map,
      ← Function.iterate_succ']

/-- What is put in front of a text is put in front of its first line. -/
lemma ofText_append {s : String} (h : '\n' ∉ s.toList) (t : String) :
    ofText (s ++ t) = (ofText t).label s := by
  rw [ofText, String.toList_append, Lines.split_append_of_notMem h, label, ofText]
  simp

/-- Texts with a line feed between two of them make the blocks of each from top to bottom. -/
lemma ofText_intercalate (texts : List String) :
    ofText ("\n".intercalate texts) = stack (texts.map ofText) := by
  induction texts with
  | nil => rfl
  | cons s texts ih =>
    cases texts with
    | nil =>
      rw [String.intercalate_singleton, List.map_singleton, stack, List.flatMap_nil, List.append_nil]
    | cons t texts =>
      rw [String.intercalate_cons_cons, ofText_append_lineFeed, ih]
      rfl

/-- The number in front of a text is on its first line. -/
lemma ofText_index (i : Nat) (s : String) :
    ofText (s!"{i}: " ++ s) = (ofText s).label s!"{i}: " := by
  have hnumber := notMem_label (c := '\n') (by decide) (by decide) i (l := "") List.not_mem_nil
  rw [String.append_empty] at hnumber
  exact ofText_append hnumber s

end Block

/-- Texts on lines of their own, each with its index in front. -/
def numbered (texts : List String) : String :=
  "\n".intercalate (texts.mapIdx fun i s => s!"{i}: " ++ s)

/-- Numbered texts are the numbered blocks of the texts. -/
lemma Block.ofText_numbered (texts : List String) :
    ofText (numbered texts) = indexed (texts.map ofText) := by
  have hnumber : (ofText ∘ fun p : String × Nat => s!"{p.2}: " ++ p.1) =
      (fun p : Block × Nat => p.1.label s!"{p.2}: ") ∘ Prod.map ofText id :=
    funext fun p => ofText_index p.2 p.1
  rw [numbered, ofText_intercalate, indexed, List.mapIdx_eq_zipIdx_map, List.map_map, hnumber,
    List.mapIdx_eq_zipIdx_map, List.zipIdx_map, List.map_map]

namespace Dumper

variable (d : Dumper)

mutual

/-- The dump of an expression, put together from finished texts: the dumps of the arguments are
numbered, joined and indented as they are. -/
def exprText : Expr → String
  | .subscript r args s =>
    d.heading (Expr.subscript r args s).nodeName s ++ "\n" ++
      (fields (.subscript r args s) ++ "\n" ++ indent (numbered (exprTexts args)))
  | e => d.heading e.nodeName e.span ++ "\n" ++ fields e

/-- The dumps of expressions as finished texts. -/
def exprTexts : List Expr → List String
  | [] => []
  | e :: es => exprText e :: exprTexts es

end

/-- The dump of a result as a finished text. -/
def functionResultText (r : FunctionResult) : String :=
  let type := "return_type: `" ++ r.type.text ++ "`"
  if r.attributes.isEmpty then type
  else type ++ " with attributes `" ++ Attribute.listText r.attributes ++ "`"

/-- The dump of a signature as a finished text. -/
def signatureText (s : Signature) : String :=
  let parameters := if s.parameters.isEmpty then [] else
    ["parameters:" ++ "\n" ++ numbered (s.parameters.map Parameter.text)]
  let throwing := if s.throwing = .nothrowing then [] else
    ["throws_kind: `" ++ s.throwing.text ++ "`"]
  "\n".intercalate (parameters ++ throwing ++ (s.result.map functionResultText).toList)

/-- The dump of a condition as a finished text. -/
def conditionText : Condition → String
  | .expression e => d.exprText e
  | .availability platforms => availabilityText platforms
  | .binding word pattern e =>
    word.label ++ ": `" ++ pattern.text ++ "`" ++ "\n" ++ indent (d.exprText e)

/-- The dump of a pattern with its initial value as a finished text. -/
def patternInitializerText (i : PatternInitializer) : String :=
  let pattern := "pattern: " ++ i.pattern.text
  match i.initializer with
  | some e => pattern ++ "\n" ++ indent (d.exprText e)
  | none => pattern

/-- The dump of pattern initializers as a finished text. -/
def patternInitializersText? : List PatternInitializer → Except DumpError String
  | [] => .error .emptyInitializers
  | [i] => .ok (d.patternInitializerText i)
  | is => .ok ("pattern_initializers:" ++ "\n" ++ numbered (is.map d.patternInitializerText))

/-- The texts of several trees are those of each of them. -/
lemma exprTexts_eq_map (es : List Expr) : d.exprTexts es = es.map d.exprText := by
  induction es with
  | nil => rfl
  | cons e es ih => rw [exprTexts, ih, List.map_cons]

mutual

/-- The lines of the finished text of an expression are those of its dump. -/
lemma ofText_exprText (e : Expr) : Block.ofText (d.exprText e) = d.expr e := by
  cases e with
  | subscript r args s =>
    rw [exprText, expr, node, Block.ofText_append_lineFeed, Block.ofText_append_lineFeed,
      Block.ofText_indent, Block.ofText_numbered, map_ofText_exprTexts args, Block.above_assoc]
    rfl
  | _ => exact Block.ofText_append_lineFeed _ _

/-- The texts of trees are those of their blocks. -/
lemma map_ofText_exprTexts (es : List Expr) :
    (d.exprTexts es).map Block.ofText = d.exprs es := by
  match es with
  | [] => rfl
  | e :: es => rw [exprTexts, exprs, List.map_cons, ofText_exprText e, map_ofText_exprTexts es]

end

/-- The text of a condition is that of its block. -/
lemma ofText_conditionText (c : Condition) : Block.ofText (d.conditionText c) = d.condition c := by
  cases c with
  | expression e => exact d.ofText_exprText e
  | availability platforms => rfl
  | binding word pattern e =>
    rw [conditionText, Block.ofText_append_lineFeed, Block.ofText_indent, ofText_exprText]
    rfl

/-- The text of a pattern initializer is that of its block. -/
lemma ofText_patternInitializerText (i : PatternInitializer) :
    Block.ofText (d.patternInitializerText i) = d.patternInitializer i := by
  rw [patternInitializerText, patternInitializer]
  cases i.initializer with
  | none => rfl
  | some e =>
    dsimp only
    rw [Block.ofText_append_lineFeed, Block.ofText_indent, ofText_exprText]

/-- The text of a signature is that of its block. -/
lemma ofText_signatureText (s : Signature) :
    Block.ofText (signatureText s) = signature s := by
  rw [signatureText, signature, Block.ofText_intercalate, List.map_append, List.map_append]
  congr 1
  congr 1
  · congr 1
    · split
      next => rfl
      next =>
        rw [List.map_singleton, Block.ofText_append_lineFeed, Block.ofText_numbered, List.map_map]
        rfl
    · split <;> rfl
  · cases s.result <;> rfl

/-- Texts that belong to the blocks one by one belong to them in lists. -/
lemma map_ofText_comp {α : Type} {f : α → String} {g : α → Block}
    (h : ∀ a, Block.ofText (f a) = g a) (as : List α) : (as.map f).map Block.ofText = as.map g := by
  rw [List.map_map]
  exact List.map_congr_left fun a _ => h a

/-- A dump can be put together from finished texts: each is numbered behind the others, joined to
them and indented as a whole, and what comes out is the text of the block. -/
theorem text_dumps :
    (∀ e, (d.expr e).text = d.exprText e) ∧
    (∀ es, (d.expressions es).text = numbered (es.map d.exprText)) ∧
    (∀ r, (functionResult r).text = functionResultText r) ∧
    (∀ s, (signature s).text = signatureText s) ∧
    (∀ c, (d.condition c).text = d.conditionText c) ∧
    (∀ cs, (d.conditions cs).text = "conditions:" ++ "\n" ++ numbered (cs.map d.conditionText)) ∧
    (∀ i, (d.patternInitializer i).text = d.patternInitializerText i) ∧
    (∀ is, (d.patternInitializers? is).map Block.text = d.patternInitializersText? is) ∧
    (∀ is, (d.patternInitializers is).value.text =
      match d.patternInitializersText? is with
      | .ok text => text
      | .error .emptyInitializers => noInitializers) := by
  have htext : ∀ {s : String} {b : Block}, Block.ofText s = b → b.text = s := by
    rintro s _ rfl
    exact Block.text_ofText s
  have hlist : ∀ is, (d.patternInitializers? is).map Block.text = d.patternInitializersText? is := by
    rintro (_ | ⟨i, _ | ⟨j, is⟩⟩)
    · rfl
    · exact congrArg Except.ok (htext (d.ofText_patternInitializerText i))
    · refine congrArg Except.ok (htext ?_)
      rw [Block.ofText_append_lineFeed, Block.ofText_numbered,
        map_ofText_comp d.ofText_patternInitializerText]
  refine ⟨fun e => htext (d.ofText_exprText e), fun es => htext ?_, fun r => htext rfl,
    fun s => htext (ofText_signatureText s), fun c => htext (d.ofText_conditionText c),
    fun cs => htext ?_, fun i => htext (d.ofText_patternInitializerText i), hlist, fun is => ?_⟩
  · rw [Block.ofText_numbered, ← exprTexts_eq_map, map_ofText_exprTexts, expressions]
  · rw [Block.ofText_append_lineFeed, Block.ofText_numbered,
      map_ofText_comp d.ofText_conditionText, conditions]
  · rw [← hlist is, patternInitializers]
    cases d.patternInitializers? is with
    | ok block => rfl
    | error e =>
      cases e
      exact Block.text_ofText noInitializers

end Dumper

/-- A text one level less deep: the two spaces in front of each line are deleted, where it has
them. -/
def outdent (s : String) : String := (Block.ofText s).outdent.text

/-- Indentation goes line by line and can be undone. Two texts with a line feed between them are
indented each by itself. A text that is indented `depth` times has as many lines as before, of which
the empty ones are left empty, and all others are what they were behind two spaces for each time.
And a text comes back when two spaces are deleted in front of the lines that are not empty, so that
no two texts are alike when they are indented. -/
theorem indent_linewise :
    (∀ s t, indent (s ++ "\n" ++ t) = indent s ++ "\n" ++ indent t) ∧
    (∀ depth s, (indent^[depth] s).toList.splitOn '\n' = (s.toList.splitOn '\n').map fun l =>
      if l = [] then [] else List.replicate (2 * depth) ' ' ++ l) ∧
    (∀ s, outdent (indent s) = s) ∧ Function.Injective indent := by
  have hback : Function.LeftInverse outdent indent := fun s => by
    rw [outdent, Block.ofText_indent, Block.outdent_indent, Block.text_ofText]
  refine ⟨fun s t => ?_, fun depth s => ?_, hback, hback.injective⟩
  · rw [indent, Block.ofText_append_lineFeed, Block.indent_above, Block.text_above]
    rfl
  · rw [Block.splitOn_lineFeed, Block.lines_iterate_indent, Block.splitOn_lineFeed, List.map_map,
      List.map_map]
    refine List.map_congr_left fun l _ => ?_
    rw [Function.comp_apply, Function.comp_apply, Lines.iterate_indentLine]
    by_cases hl : l = ""
    · subst hl
      rfl
    · rw [if_neg hl, if_neg (mt String.toList_eq_nil_iff.1 hl), Dumper.margin, String.toList_append,
        String.toList_ofList]

end ExprFront
