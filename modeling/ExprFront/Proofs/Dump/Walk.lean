import ExprFront.Proofs.Dump.Tree

/-!
# Dumps as walks

The dumper writes the arguments of a node first and moves their lines to the right afterwards, once
for each level above them, and numbers the first of the lines in between. A walk over the tree that
knows the depth and the number of each node writes the same lines at once (`Dumper.walk_eq_lines`),
since a walk that starts one level deeper writes the same lines, indented (`Dumper.walk_succ`).
Lists of conditions and of pattern initializers are put together from walks (`dump_eq_walk`).
-/

namespace ExprFront

namespace Dumper

open Block

variable {source : SourceUnit} {d : Dumper} {e : Expr}

/-- A node on the walk over a tree, with its depth and its number among the arguments of the node
above it. -/
structure Visit where
  depth : Nat
  index : Option Nat
  node : Expr

mutual

/-- The walk over a tree in pre-order, from a root with the given depth and number. -/
def visits (depth : Nat) (index : Option Nat) : Expr → List Visit
  | .subscript r args s => ⟨depth, index, .subscript r args s⟩ :: argumentVisits (depth + 1) 0 args
  | e => [⟨depth, index, e⟩]

/-- The walks over arguments in order, numbered from the given index on. -/
def argumentVisits (depth index : Nat) : List Expr → List Visit
  | [] => []
  | e :: es => visits depth (some index) e ++ argumentVisits depth (index + 1) es

end

/-- The spaces in front of the lines of a node. -/
def margin (depth : Nat) : String := String.ofList (List.replicate (2 * depth) ' ')

/-- What shows the number of a node, if it has one. -/
def number : Option Nat → String
  | some i => s!"{i}: "
  | none => ""

/-- The lines of the fields of a node. -/
def fieldLines : Expr → List String
  | .subscript _ _ _ => ["kind: `subscript`", "arguments:"]
  | e => [fields e]

/-- The lines of one node of a walk: its heading and its fields. -/
def Visit.lines (source : SourceUnit) (v : Visit) : List String :=
  let heading := v.node.nodeName ++ " " ++ ("<range: " ++ source.describe v.node.span ++ ">")
  (margin v.depth ++ (number v.index ++ heading)) ::
    (fieldLines v.node).map (margin v.depth ++ ·)

/-- The lines of the nodes of a tree, in the order of the walk over it. -/
def walk (source : SourceUnit) (depth : Nat) (index : Option Nat) (e : Expr) : List String :=
  (visits depth index e).flatMap (Visit.lines source)

/-- The visits of arguments are those of each of them, numbered from the index on. -/
lemma argumentVisits_eq (depth index : Nat) (es : List Expr) :
    argumentVisits depth index es =
      (es.zipIdx index).flatMap fun p => visits depth (some p.2) p.1 := by
  induction es generalizing index with
  | nil => rfl
  | cons e es ih => rw [argumentVisits, ih, List.zipIdx_cons, List.flatMap_cons]

/-- A node comes before the walks over its arguments, which are one level deeper. -/
lemma visits_eq (depth : Nat) (index : Option Nat) (e : Expr) :
    visits depth index e =
      ⟨depth, index, e⟩ :: e.arguments.zipIdx.flatMap fun p =>
        visits (depth + 1) (some p.2) p.1 := by
  cases e with
  | subscript r args s => rw [visits, argumentVisits_eq, Expr.arguments]
  | _ => rfl

/-- A walk comes to all nodes of the tree, in pre-order and each at its depth. -/
theorem map_visits (depth : Nat) (index : Option Nat) (e : Expr) :
    (visits depth index e).map (fun v => (v.depth, v.node)) = e.nodesFrom depth := by
  induction e generalizing depth index with
  | subscript r args s ih =>
    rw [visits_eq, Expr.nodesFrom_subscript, List.map_cons, List.map_flatMap]
    congr 1
    calc (Expr.subscript r args s).arguments.zipIdx.flatMap (fun p =>
          (visits (depth + 1) (some p.2) p.1).map fun v => (v.depth, v.node))
      _ = args.zipIdx.flatMap fun p => p.1.nodesFrom (depth + 1) :=
        List.flatMap_congr fun p hp => ih p.1 (List.fst_mem_of_mem_zipIdx hp) _ _
      _ = (args.zipIdx.map Prod.fst).flatMap (Expr.nodesFrom (depth + 1)) :=
        (List.flatMap_map _ _ _).symm
      _ = args.flatMap (Expr.nodesFrom (depth + 1)) := by rw [List.zipIdx_map_fst]
  | _ => rfl

/-- The walk shows a node and goes on with its arguments, one level deeper. -/
lemma walk_eq (depth : Nat) (index : Option Nat) (e : Expr) :
    walk source depth index e = Visit.lines source ⟨depth, index, e⟩ ++
      e.arguments.zipIdx.flatMap fun p => walk source (depth + 1) (some p.2) p.1 := by
  rw [walk, visits_eq, List.flatMap_cons, List.flatMap_assoc]
  rfl

/-- An indented line has one more margin. -/
lemma indentLine_margin (depth : Nat) {l : String} (h : l ≠ "") :
    Lines.indentLine (margin depth ++ l) = margin (depth + 1) ++ l := by
  have hne : margin depth ++ l ≠ "" := by simp [h]
  have hmargin : margin (depth + 1) = Lines.pad ++ margin depth := by
    rw [← String.toList_inj, String.toList_append]
    simp [margin, Lines.pad, Nat.mul_add, List.replicate_succ]
  rw [Lines.indentLine_of_ne hne, hmargin, String.append_assoc]

/-- The lines of the fields are the first field and, above arguments, their title. -/
lemma fieldLines_eq (h : e.OneLine) :
    fieldLines e = firstField e :: if e.arguments = [] then [] else ["arguments:"] := by
  cases h with
  | @subscript r args s hne =>
    rw [if_neg (show (Expr.subscript r args s).arguments ≠ [] from hne)]
    rfl
  | _ => rfl

/-- The fields of a node are shown on lines that are not empty. -/
lemma fieldLines_ne_empty (e : Expr) {l : String} (h : l ∈ fieldLines e) : l ≠ "" := by
  have hl : l = firstField e ∨ l = "arguments:" := by
    cases e with
    | subscript => simpa [fieldLines, firstField] using h
    | _ => exact .inl (List.mem_singleton.1 h)
  rcases hl with rfl | rfl
  · exact firstField_ne_empty e
  · decide

/-- One level deeper the lines of a node are indented once more. -/
lemma lines_deeper (depth : Nat) (index : Option Nat) (e : Expr) :
    Visit.lines source ⟨depth + 1, index, e⟩ =
      (Visit.lines source ⟨depth, index, e⟩).map Lines.indentLine := by
  rw [Visit.lines, Visit.lines, List.map_cons, List.map_map]
  congr 1
  · exact (indentLine_margin depth (by simp)).symm
  · exact List.map_congr_left fun l hl => (indentLine_margin depth (fieldLines_ne_empty e hl)).symm

/-- One level deeper, a walk writes the same lines, indented. -/
theorem walk_succ (depth : Nat) (index : Option Nat) (e : Expr) :
    walk source (depth + 1) index e = (walk source depth index e).map Lines.indentLine := by
  induction e using Expr.arguments_induction generalizing depth index with
  | h e ih =>
    rw [walk_eq, walk_eq depth, lines_deeper, List.map_append, List.map_flatMap]
    congr 1
    exact List.flatMap_congr fun p hp => ih p.1 (List.fst_mem_of_mem_zipIdx hp) _ _

section

variable (hd : d.colors = false) (hunit : '\n' ∉ d.source.name.toList)

include hd hunit in
/-- The walk over a tree writes the lines of its dump, with the number in front. -/
lemma walk_eq_lines (h : e.OneLine) (index : Option Nat) :
    walk d.source 0 index e = ((d.expr e).label (number index)).lines := by
  induction e using Expr.arguments_induction generalizing index with
  | h e ih =>
    -- the dumps of the arguments start at the margin and are numbered, and then indented together
    have hargument : ∀ p ∈ e.arguments.zipIdx, walk d.source 1 (some p.2) p.1 =
        ((d.expr p.1).label s!"{p.2}: ").lines.map Lines.indentLine := by
      intro p hp
      have hmem := List.fst_mem_of_mem_zipIdx hp
      rw [walk_succ, ih p.1 hmem (h.arguments p.1 hmem)]
      rfl
    rw [walk_eq, List.flatMap_congr hargument, lines_label (lines_expr hd hunit h),
      heading_plain hd, Visit.lines, fieldLines_eq h]
    by_cases hargs : e.arguments = []
    · rw [hargs]
      simp [margin, argumentLines]
    · rw [argumentLines_of_ne_nil hargs, lines_indent, lines_indexed hargs, List.map_flatMap,
        if_neg hargs]
      simp [margin]

include hd hunit in
/-- The dump of a tree is its walk. -/
lemma lines_expr_eq_walk (h : e.OneLine) : (d.expr e).lines = walk d.source 0 none e := by
  rw [walk_eq_lines hd hunit h, number, label, String.empty_append]

include hd hunit in
/-- The indented dump of a tree is its walk one level deeper. -/
lemma lines_indent_expr (h : e.OneLine) : (d.expr e).indent.lines = walk d.source 1 none e := by
  rw [lines_indent, lines_expr_eq_walk hd hunit h, walk_succ]

end

end Dumper

/-- What a condition shows stands on one line, apart from the arguments of expressions. -/
def Condition.OneLine : Condition → Prop
  | expression e => e.OneLine
  | availability platforms => '\n' ∉ (availabilityText platforms).toList
  | binding _ pattern e => '\n' ∉ pattern.text.toList ∧ e.OneLine

/-- What a pattern with its initial value shows stands on one line, apart from the arguments of
expressions. -/
def PatternInitializer.OneLine (i : PatternInitializer) : Prop :=
  '\n' ∉ i.pattern.text.toList ∧ ∀ e ∈ i.initializer, e.OneLine

namespace Dumper

open Block

variable {d : Dumper}

/-- The lines of a condition with its index in a list. -/
def conditionLines (source : SourceUnit) (index : Nat) : Condition → List String
  | .expression e => walk source 0 (some index) e
  | .availability platforms => [s!"{index}: " ++ availabilityText platforms]
  | .binding word pattern e =>
    (s!"{index}: " ++ (word.label ++ ": `" ++ pattern.text ++ "`")) :: walk source 1 none e

/-- The lines of a pattern with its initial value and its index in a list. -/
def initializerLines (source : SourceUnit) (index : Nat) (i : PatternInitializer) : List String :=
  (s!"{index}: " ++ ("pattern: " ++ i.pattern.text)) :: i.initializer.elim [] (walk source 1 none)

section

variable (hd : d.colors = false) (hunit : '\n' ∉ d.source.name.toList)

include hd hunit in
/-- The numbered dump of a condition is made of walks. -/
lemma lines_condition {c : Condition} (h : c.OneLine) (index : Nat) :
    ((d.condition c).label s!"{index}: ").lines = conditionLines d.source index c := by
  cases c with
  | expression e => exact (walk_eq_lines hd hunit h (some index)).symm
  | availability platforms => exact lines_label (lines_ofText h) _
  | binding word pattern e =>
    obtain ⟨hpattern, he⟩ := h
    have hlabel : '\n' ∉ (word.label ++ ": `" ++ pattern.text ++ "`").toList := by
      cases word <;> simp [BindingWord.label, hpattern]
    have hlines : (d.condition (.binding word pattern e)).lines =
        (word.label ++ ": `" ++ pattern.text ++ "`") :: walk d.source 1 none e := by
      rw [condition, lines_above, lines_ofText hlabel, lines_indent_expr hd hunit he]
      rfl
    exact lines_label hlines _

include hd hunit in
/-- The numbered dump of a pattern initializer is made of walks. -/
lemma lines_patternInitializer {i : PatternInitializer} (h : i.OneLine) (index : Nat) :
    ((d.patternInitializer i).label s!"{index}: ").lines = initializerLines d.source index i := by
  obtain ⟨pattern, initializer⟩ := i
  obtain ⟨hpattern, he⟩ := h
  have hlabel : '\n' ∉ ("pattern: " ++ pattern.text).toList := by simp [hpattern]
  cases initializer with
  | none => exact lines_label (lines_ofText hlabel) _
  | some e =>
    have hlines : (d.patternInitializer ⟨pattern, some e⟩).lines =
        ("pattern: " ++ pattern.text) :: walk d.source 1 none e := by
      rw [patternInitializer, lines_above, lines_ofText hlabel,
        lines_indent_expr hd hunit (he e rfl)]
      rfl
    exact lines_label hlines _

end

/-- A numbered list under a title. -/
lemma text_titled {α : Type} {as : List α} (hne : as ≠ []) {title : String}
    (htitle : '\n' ∉ title.toList) {f : α → Block} {g : Nat → α → List String}
    (h : ∀ a ∈ as, ∀ index : Nat, ((f a).label s!"{index}: ").lines = g index a) :
    ((ofText title).above (indexed (as.map f))).text =
      "\n".intercalate (title :: as.zipIdx.flatMap fun p => g p.2 p.1) := by
  rw [text, lines_above, lines_ofText htitle, lines_indexed hne,
    List.flatMap_congr fun p hp => h p.1 (List.fst_mem_of_mem_zipIdx hp) p.2]
  rfl

end Dumper

/-- A plain dump is the walk over the tree. Without colors, and if the names of a unit and of a tree
and the texts of its literals hold no line feed and no subscript is empty, the lines of the dump are
those of the nodes in pre-order. A node writes its heading behind two spaces for each level above it
and, as an argument, behind its index, and then the lines of its fields behind the same spaces.
Conditions, and two or more pattern initializers, are shown under a title one after the other, with
the index in front of the first line of each: expressions as by their walk, and what binds or
initializes a pattern as a line of its own above the walk of the expression, one level deeper. -/
theorem dump_eq_walk {source : SourceUnit} {options : DumpOptions}
    (hplain : options.usesColors = false) (hname : '\n' ∉ source.name.toList) :
    (∀ e : Expr, e.OneLine →
      dumpExpr e source options = "\n".intercalate (Dumper.walk source 0 none e)) ∧
    (∀ cs : List Condition, cs ≠ [] → (∀ c ∈ cs, c.OneLine) →
      ((Dumper.ofOptions source options).conditions cs).text = "\n".intercalate
        ("conditions:" :: cs.zipIdx.flatMap fun p => Dumper.conditionLines source p.2 p.1)) ∧
    (∀ is : List PatternInitializer, 2 ≤ is.length → (∀ i ∈ is, i.OneLine) →
      ((Dumper.ofOptions source options).patternInitializers is).value.text = "\n".intercalate
        ("pattern_initializers:" ::
          is.zipIdx.flatMap fun p => Dumper.initializerLines source p.2 p.1)) := by
  obtain ⟨d, hd⟩ : ∃ d, d = Dumper.ofOptions source options := ⟨_, rfl⟩
  obtain rfl : d.source = source := by rw [hd, Dumper.ofOptions]
  have hcolors : d.colors = false := by rw [hd, Dumper.ofOptions, hplain]
  rw [← hd]
  refine ⟨fun e he => ?_, fun cs hne hcs => ?_, fun is hlen his => ?_⟩
  · rw [dumpExpr, ← hd, Block.text, Dumper.lines_expr_eq_walk hcolors hname he]
  · exact Dumper.text_titled hne (by decide) fun c hc index =>
      Dumper.lines_condition hcolors hname (hcs c hc) index
  · -- a single pattern initializer has no title
    rcases is with _ | ⟨i, _ | ⟨j, is⟩⟩
    · cases hlen
    · exact absurd hlen (by simp)
    · exact Dumper.text_titled (by simp) (by decide) fun i hi index =>
        Dumper.lines_patternInitializer hcolors hname (his i hi) index

/-- The arguments of an argument stand two levels deep, and the expression of a binding one. -/
theorem dump_eq_walk_nested :
    let u : SourceUnit := .ofText "test.tern" "self[super[\"\"], nil]".toList
    let options : DumpOptions := ⟨.never, true⟩
    let inner : Expr := .subscript .super [.literal (.string "" "\"\"") ⟨11, 13⟩] ⟨5, 14⟩
    let e : Expr := .subscript .self [inner, .literal .nil ⟨16, 19⟩] ⟨0, 20⟩
    options.usesColors = false ∧ '\n' ∉ u.name.toList ∧ e.OneLine ∧
      dumpExpr e u options = "\n".intercalate
        ["self_expr <range: test.tern:1:1-1:21>", "kind: `subscript`", "arguments:",
          "  0: superclass_expr <range: test.tern:1:6-1:15>", "  kind: `subscript`", "  arguments:",
          "    0: literal_expr <range: test.tern:1:12-1:14>", "    kind: `string`, literal: `\"\"`",
          "  1: literal_expr <range: test.tern:1:17-1:20>", "  kind: `nil`, literal: `nil`"] ∧
      ((Dumper.ofOptions u options).conditions
          [.availability [.all], .binding .letWord (.identifier "x" none) inner]).text =
        "\n".intercalate ["conditions:", "0: #available(*)", "1: constant_optional_binding: `x`",
          "  superclass_expr <range: test.tern:1:6-1:15>", "  kind: `subscript`", "  arguments:",
          "    0: literal_expr <range: test.tern:1:12-1:14>",
          "    kind: `string`, literal: `\"\"`"] ∧
      ((Dumper.ofOptions u options).patternInitializers
          [⟨.wildcard none, none⟩,
            ⟨.identifier "x" none, some (.literal .nil ⟨16, 19⟩)⟩]).value.text =
        "\n".intercalate ["pattern_initializers:", "0: pattern: _", "1: pattern: x",
          "  literal_expr <range: test.tern:1:17-1:20>", "  kind: `nil`, literal: `nil`"] := by
  intro u options inner e
  have hname : '\n' ∉ u.name.toList := by decide
  have hinner : inner.OneLine :=
    .subscript (by decide) (List.forall_mem_singleton.2 (.literal (by decide)))
  have hnil : (Expr.literal .nil ⟨16, 19⟩).OneLine := .literal (by decide)
  have he : e.OneLine := .subscript (by decide) (by simp [hinner, hnil])
  have havailability : (Condition.availability [.all]).OneLine := by
    show '\n' ∉ (availabilityText [.all]).toList
    decide
  have hbinding : (Condition.binding .letWord (.identifier "x" none) inner).OneLine :=
    ⟨by decide, hinner⟩
  have hwildcard : (PatternInitializer.mk (.wildcard none) none).OneLine := ⟨by decide, nofun⟩
  have hinitialized :
      (PatternInitializer.mk (.identifier "x" none) (some (.literal .nil ⟨16, 19⟩))).OneLine :=
    ⟨by decide, by simp [hnil]⟩
  obtain ⟨hexpr, hconditions, hinitializers⟩ := @dump_eq_walk u options rfl hname
  refine ⟨rfl, hname, he, (hexpr e he).trans (congrArg _ ?_),
    (hconditions _ (by decide) (by simp [havailability, hbinding])).trans (congrArg _ ?_),
    (hinitializers _ (by decide) (by simp [hwildcard, hinitialized])).trans (congrArg _ ?_)⟩
  all_goals decide

end ExprFront
