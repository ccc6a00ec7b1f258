import ExprFront.Dump
import ExprFront.Expr
import ExprFront.Proofs.Expr.Shape
import ExprFront.Proofs.Lexical.Words
import ExprFront.Proofs.Source.Location
import ExprFront.Proofs.Text.Block

/-!
# Reading trees back from dumps

The lines of a dump without colors are the heading of the root, its first field, and the numbered
and indented dumps of its arguments (`Dumper.lines_expr`). The heading and the field tell the root
(`Dumper.root_eq`), and the lines below them the dumps of the arguments, so that a dump shows one
tree only (`dumpExpr_inj`).
-/

namespace ExprFront

namespace Literal

/-- The text of a literal stands on one line, and its value is the one that the text stands for. -/
structure IsStored (l : Literal) : Prop where
  line : '\n' ∉ l.text.toList
  read : l.IsRead
  resolved : ∀ value raw, l = .string value raw →
    value = String.ofList (Escape.resolve raw.toList.tail.dropLast)

/-- No kind of literals has a backtick in its name. -/
lemma backtick_notMem_kindName (l : Literal) : '`' ∉ l.kindName.toList := by
  cases l <;> simp [kindName]

/-- A literal is known by its kind and its text. -/
lemma IsStored.eq_of_text {l l' : Literal} (h : l.IsStored) (h' : l'.IsStored)
    (hkind : l.kindName = l'.kindName) (htext : l.text = l'.text) : l = l' := by
  cases l with
  | nil =>
    cases l' with
    | nil => rfl
    | _ => simp [kindName] at hkind
  | boolean b =>
    cases l' with
    | boolean b' =>
      cases b <;> cases b'
      · rfl
      · simp [text] at htext
      · simp [text] at htext
      · rfl
    | _ => simp [kindName] at hkind
  | integer value raw =>
    cases l' with
    | integer value' raw' =>
      obtain rfl : raw = raw' := htext
      exact Option.some.inj (h.read.symm.trans h'.read)
    | _ => simp [kindName] at hkind
  | floatingPoint value raw =>
    cases l' with
    | floatingPoint value' raw' =>
      obtain rfl : raw = raw' := htext
      exact Option.some.inj (h.read.symm.trans h'.read)
    | _ => simp [kindName] at hkind
  | string value raw =>
    cases l' with
    | string value' raw' =>
      obtain rfl : raw = raw' := htext
      rw [h.resolved value raw rfl, h'.resolved value' raw rfl]
    | _ => simp [kindName] at hkind

end Literal

namespace Expr

/-- Induction over a tree, with a hypothesis for each of the arguments. -/
lemma arguments_induction {motive : Expr → Prop}
    (h : ∀ e, (∀ x ∈ e.arguments, motive x) → motive e) (e : Expr) : motive e := by
  induction e with
  | subscript r args s ih => exact h _ ih
  | _ => exact h _ nofun

/-- The arguments of a tree are built in the same way. -/
lemma Built.arguments {N : String → Prop} {L : Literal → Prop} {e : Expr} (h : e.Built N L) :
    ∀ x ∈ e.arguments, x.Built N L := by
  cases h with
  | subscript _ h => exact h
  | _ => exact nofun

/-- The root is one of the nodes. -/
lemma mem_nodesFrom_self (depth : Nat) (e : Expr) : (depth, e) ∈ e.nodesFrom depth := by
  cases e with
  | subscript r args s =>
    rw [nodesFrom_subscript]
    exact List.mem_cons_self
  | _ => exact List.mem_cons_self

/-- The nodes of the arguments are nodes of the tree, one level deeper. -/
lemma mem_nodesFrom_of_arguments {depth : Nat} {e x : Expr} {n : Nat × Expr} (hx : x ∈ e.arguments)
    (hn : n ∈ x.nodesFrom (depth + 1)) : n ∈ e.nodesFrom depth := by
  cases e with
  | subscript r args s =>
    rw [nodesFrom_subscript]
    exact List.mem_cons_of_mem _ (List.mem_flatMap.2 ⟨x, hx, hn⟩)
  | _ => cases hx

/-- The root of a tree without its span and its arguments. -/
def root : Expr → Expr
  | subscript r _ _ => .subscript r [] .dummy
  | e => e.eraseSpans

/-- The tree of a root, with its span and its arguments. -/
def ofRoot : Expr → Span → List Expr → Expr
  | subscript r _ _, s, args => .subscript r args s
  | e, s, _ => e.mapSpans fun _ => s

/-- A change of spans keeps the root and goes on with the arguments. -/
lemma mapSpans_eq_ofRoot (g : Span → Span) (e : Expr) :
    e.mapSpans g = e.root.ofRoot (g e.span) (e.arguments.map (mapSpans g)) := by
  cases e with
  | subscript r args s =>
    rw [mapSpans, mapAllSpans_eq]
    rfl
  | _ => rfl

/-- Spans that are kept keep the tree. -/
lemma mapSpans_id (e : Expr) : e.mapSpans id = e := by
  induction e with
  | subscript r args s ih =>
    rw [mapSpans, mapAllSpans_eq, List.map_congr_left ih, List.map_id']
    rfl
  | _ => rfl

/-- The names of a tree and the texts of its literals stand on one line each, and no subscript is
without arguments. -/
abbrev OneLine : Expr → Prop :=
  Built (fun name => '\n' ∉ name.toList) fun l => '\n' ∉ l.text.toList

end Expr

namespace Dumper

open Block Rule

variable {d : Dumper} {a b e : Expr}

/-- The names of a tree are spelled like names, its literals are stored with their texts, and no
subscript is without arguments. -/
abbrev Shown : Expr → Prop := Expr.Built (fun name => IsName name.toList) Literal.IsStored

/-- No name holds a line feed. -/
lemma lineFeed_notMem_of_isName {name : String} (h : IsName name.toList) :
    '\n' ∉ name.toList := by
  intro hmem
  have hpart := h.isWordPart '\n' hmem
  exact absurd hpart (by decide)

/-- A tree that can be shown has all its names and literals on single lines. -/
lemma Shown.oneLine (h : Shown e) : e.OneLine :=
  h.mono (fun _ => lineFeed_notMem_of_isName) fun _ hl => hl.line

/-- Without colors a heading is the name of the node and its range. -/
lemma heading_plain (hd : d.colors = false) (name : String) (s : Span) :
    d.heading name s = name ++ " " ++ ("<range: " ++ d.source.describe s ++ ">") := by
  rw [heading, hd]
  rfl

/-- There are four kinds of nodes. -/
lemma nodeName_mem (e : Expr) :
    e.nodeName ∈ ["identifier_expr", "literal_expr", "self_expr", "superclass_expr"] := by
  cases e with
  | method r | initializer r | subscript r => cases r <;> simp [Expr.nodeName]
  | _ => simp [Expr.nodeName]

/-- The names of nodes are words. -/
lemma notMem_nodeName {c : Char} (hc : isWordPart c = false) (e : Expr) :
    c ∉ e.nodeName.toList := by
  have hall : ∀ name ∈ ["identifier_expr", "literal_expr", "self_expr", "superclass_expr"],
      name.toList.all isWordPart = true := by decide
  intro hmem
  have hpart := List.all_eq_true.1 (hall _ (nodeName_mem e)) c hmem
  rw [hc] at hpart
  exact Bool.false_ne_true hpart

/-- A heading tells the name of the node and its range. -/
lemma heading_inj (hd : d.colors = false) {s t : Span}
    (h : d.heading a.nodeName s = d.heading b.nodeName t) :
    a.nodeName = b.nodeName ∧ d.source.describe s = d.source.describe t := by
  have hlist : ∀ (e : Expr) s, (d.heading e.nodeName s).toList =
      e.nodeName.toList ++ ' ' :: ("<range: " ++ d.source.describe s ++ ">").toList := by
    intro e s
    rw [heading_plain hd]
    simp
  have heq := congrArg String.toList h
  rw [hlist, hlist] at heq
  obtain ⟨hname, hrange⟩ := append_cons_inj (notMem_nodeName (by decide) a)
    (notMem_nodeName (by decide) b) heq
  refine ⟨String.toList_inj.1 hname, ?_⟩
  exact (String.append_right_inj _).1 ((String.append_left_inj _).1 (String.toList_inj.1 hrange))

/-- The first line of the fields of a node. -/
def firstField : Expr → String
  | .subscript _ _ _ => "kind: `subscript`"
  | e => fields e

/-- The name of the nodes that start from a receiver. -/
def receiverName : Receiver → String
  | .super => "superclass_expr"
  | .self => "self_expr"

/-- The two receivers have different names. -/
lemma receiverName_injective : Function.Injective receiverName := by
  intro r r' h
  cases r <;> cases r'
  · rfl
  · simp [receiverName] at h
  · simp [receiverName] at h
  · rfl

/-- A member is named after its receiver. -/
lemma nodeName_method (r : Receiver) (name : String) (s : Span) :
    (Expr.method r name s).nodeName = receiverName r := by
  cases r <;> rfl

/-- An initializer is named after its receiver. -/
lemma nodeName_initializer (r : Receiver) (s : Span) :
    (Expr.initializer r s).nodeName = receiverName r := by
  cases r <;> rfl

/-- A subscript is named after its receiver. -/
lemma nodeName_subscript (r : Receiver) (args : List Expr) (s : Span) :
    (Expr.subscript r args s).nodeName = receiverName r := by
  cases r <;> rfl

/-- The kind of a node in its fields. -/
def kindWord : Expr → String
  | .identifier _ _ => "identifier"
  | .literal l _ => l.kindName
  | .selfRef _ => "self"
  | .method _ _ _ => "method"
  | .initializer _ _ => "initializer"
  | .subscript _ _ _ => "subscript"

/-- What comes after the kind of a node on the same line. -/
def kindTail : Expr → String
  | .literal l _ => ", literal: `" ++ l.text ++ "`"
  | .method _ name _ => ", name: `" ++ name ++ "`"
  | _ => ""

/-- No kind of nodes has a backtick in its name. -/
lemma backtick_notMem_kindWord (e : Expr) : '`' ∉ (kindWord e).toList := by
  cases e with
  | literal l => exact l.backtick_notMem_kindName
  | _ => simp [kindWord]

/-- The first field of a node names its kind between backticks. -/
lemma toList_firstField (h : e.nodeName ≠ "identifier_expr") :
    (firstField e).toList =
      "kind: `".toList ++ ((kindWord e).toList ++ '`' :: (kindTail e).toList) := by
  cases e with
  | identifier => simp [Expr.nodeName] at h
  | literal l =>
    show ("kind: `" ++ l.kindName ++ "`, literal: `" ++ l.text ++ "`").toList = _
    simp [kindWord, kindTail]
  | selfRef =>
    show "kind: `self`".toList = _
    simp [kindWord, kindTail]
  | method r name =>
    show ("kind: `method`, name: `" ++ name ++ "`").toList = _
    simp [kindWord, kindTail]
  | initializer =>
    show "kind: `initializer`".toList = _
    simp [kindWord, kindTail]
  | subscript =>
    show "kind: `subscript`".toList = _
    simp [kindWord, kindTail]

/-- A first field begins with `identifier` or with `kind`. -/
lemma head?_firstField (e : Expr) :
    (firstField e).toList.head? = some 'i' ∨ (firstField e).toList.head? = some 'k' := by
  by_cases hident : e.nodeName = "identifier_expr"
  · cases e with
    | identifier name s =>
      left
      show ("identifier: `" ++ name ++ "`").toList.head? = _
      simp
    | literal | selfRef => simp [Expr.nodeName] at hident
    | method r | initializer r | subscript r => cases r <;> simp [Expr.nodeName] at hident
  · right
    rw [toList_firstField hident]
    rfl

/-- The first field of a node is not empty. -/
lemma firstField_ne_empty (e : Expr) : firstField e ≠ "" := by
  intro hempty
  rcases head?_firstField e with hhead | hhead
  all_goals
    rw [hempty] at hhead
    cases hhead

/-- The first field of a node tells its kind and what follows it. -/
lemma kind_eq (hname : a.nodeName = b.nodeName) (hne : a.nodeName ≠ "identifier_expr")
    (h : firstField a = firstField b) : kindWord a = kindWord b ∧ kindTail a = kindTail b := by
  have hlist := congrArg String.toList h
  rw [toList_firstField hne, toList_firstField (hname ▸ hne)] at hlist
  obtain ⟨hword, htail⟩ := append_cons_inj (backtick_notMem_kindWord a) (backtick_notMem_kindWord b)
    (List.append_cancel_left hlist)
  exact ⟨String.toList_inj.1 hword, String.toList_inj.1 htail⟩

/-- The heading and the first field of a node tell its root. -/
lemma root_eq (ha : Shown a) (hb : Shown b) (hname : a.nodeName = b.nodeName)
    (hfield : firstField a = firstField b) : a.root = b.root := by
  cases ha with
  | @identifier n =>
    cases hb with
    | @identifier m =>
      have hnm : "identifier: `" ++ n ++ "`" = "identifier: `" ++ m ++ "`" := hfield
      rw [(String.append_right_inj _).1 ((String.append_left_inj _).1 hnm)]
      rfl
    | literal | selfRef => simp [Expr.nodeName] at hname
    | @method r | @initializer r | @subscript r => cases r <;> simp [Expr.nodeName] at hname
  | @literal l s hl =>
    obtain ⟨hword, htail⟩ := kind_eq hname (by simp [Expr.nodeName]) hfield
    cases hb with
    | @literal l' t hl' =>
      have htext := (String.append_right_inj _).1 ((String.append_left_inj _).1 htail)
      rw [hl.eq_of_text hl' hword htext]
      rfl
    | identifier | selfRef => simp [Expr.nodeName] at hname
    | @method r | @initializer r | @subscript r => cases r <;> simp [Expr.nodeName] at hname
  | selfRef =>
    obtain ⟨hword, -⟩ := kind_eq hname (by simp [Expr.nodeName]) hfield
    cases hb with
    | selfRef => rfl
    | identifier | literal => simp [Expr.nodeName] at hname
    | method | initializer | subscript => simp [kindWord] at hword
  | @method r n =>
    obtain ⟨hword, htail⟩ := kind_eq hname (by cases r <;> simp [Expr.nodeName]) hfield
    cases hb with
    | @method r' m =>
      have hnm := (String.append_right_inj _).1 ((String.append_left_inj _).1 htail)
      rw [nodeName_method, nodeName_method] at hname
      rw [receiverName_injective hname, hnm]
      rfl
    | identifier | literal => cases r <;> simp [Expr.nodeName] at hname
    | selfRef | initializer | subscript => simp [kindWord] at hword
  | @initializer r =>
    obtain ⟨hword, -⟩ := kind_eq hname (by cases r <;> simp [Expr.nodeName]) hfield
    cases hb with
    | @initializer r' =>
      rw [nodeName_initializer, nodeName_initializer] at hname
      rw [receiverName_injective hname]
      rfl
    | identifier | literal => cases r <;> simp [Expr.nodeName] at hname
    | selfRef | method | subscript => simp [kindWord] at hword
  | @subscript r =>
    obtain ⟨hword, -⟩ := kind_eq hname (by cases r <;> simp [Expr.nodeName]) hfield
    cases hb with
    | @subscript r' =>
      rw [nodeName_subscript, nodeName_subscript] at hname
      rw [Expr.root, Expr.root, receiverName_injective hname]
    | identifier | literal => cases r <;> simp [Expr.nodeName] at hname
    | selfRef | method | initializer => simp [kindWord] at hword

/-- The lines below the first field of a node, which show its arguments. -/
def argumentLines (d : Dumper) : List Expr → List String
  | [] => []
  | args => "arguments:" :: (indexed (args.map d.expr)).indent.lines

/-- Arguments are numbered and indented below their own heading. -/
lemma argumentLines_of_ne_nil {args : List Expr} (h : args ≠ []) :
    argumentLines d args = "arguments:" :: (indexed (args.map d.expr)).indent.lines := by
  cases args with
  | nil => exact absurd rfl h
  | cons => rfl

/-- The dumps of several trees are those of each of them. -/
lemma exprs_eq_map (d : Dumper) (es : List Expr) : exprs d es = es.map d.expr := by
  induction es with
  | nil => rfl
  | cons e es ih => rw [exprs, ih, List.map_cons]

/-- No kind of literals has a line feed in its name. -/
lemma lineFeed_notMem_kindName (l : Literal) : '\n' ∉ l.kindName.toList := by
  cases l <;> simp [Literal.kindName]

/-- The first field of a node is a single line. -/
lemma lineFeed_notMem_firstField (h : e.OneLine) : '\n' ∉ (firstField e).toList := by
  cases h with
  | @identifier name s h =>
    show '\n' ∉ ("identifier: `" ++ name ++ "`").toList
    simp [h]
  | @literal l s h =>
    show '\n' ∉ ("kind: `" ++ l.kindName ++ "`, literal: `" ++ l.text ++ "`").toList
    simp [lineFeed_notMem_kindName l, h]
  | selfRef =>
    show '\n' ∉ "kind: `self`".toList
    decide
  | @method r name s h =>
    show '\n' ∉ ("kind: `method`, name: `" ++ name ++ "`").toList
    simp [h]
  | initializer =>
    show '\n' ∉ "kind: `initializer`".toList
    decide
  | subscript =>
    show '\n' ∉ "kind: `subscript`".toList
    decide

variable (hd : d.colors = false) (hunit : '\n' ∉ d.source.name.toList)

include hd hunit in
/-- The heading of a node is a single line. -/
lemma lineFeed_notMem_heading (e : Expr) : '\n' ∉ (d.heading e.nodeName e.span).toList := by
  have hname := notMem_nodeName (c := '\n') (by decide) e
  have hspan := SourceUnit.lineFeed_notMem_describe hunit e.span
  rw [heading_plain hd]
  simp [hname, hspan]

include hd hunit in
/-- A dump is the heading of the root, its first field, and what shows its arguments. -/
lemma lines_expr (h : e.OneLine) : (d.expr e).lines =
    d.heading e.nodeName e.span :: firstField e :: argumentLines d e.arguments := by
  have hheading := lines_ofText (lineFeed_notMem_heading hd hunit e)
  have hfield := lines_ofText (lineFeed_notMem_firstField h)
  cases h with
  | @subscript r args s hne =>
    have hfields : (ofText (fields (.subscript r args s))).lines =
        ["kind: `subscript`", "arguments:"] := by
      show (ofText "kind: `subscript`\narguments:").lines = _
      decide
    rw [expr, lines_above, node, lines_above, hheading, hfields, exprs_eq_map,
      show (Expr.subscript r args s).arguments = args from rfl, argumentLines_of_ne_nil hne]
    rfl
  | _ =>
    show (d.node _).lines = _
    rw [node, lines_above, hheading]
    exact congrArg (_ :: ·) hfield

include hd hunit in
/-- No line of a dump holds a line feed. -/
lemma lineFeed_notMem_lines (h : Shown e) : ∀ l ∈ (d.expr e).lines, '\n' ∉ l.toList := by
  induction e using Expr.arguments_induction with
  | h e ih =>
    rw [lines_expr hd hunit h.oneLine]
    refine List.forall_mem_cons.2 ⟨lineFeed_notMem_heading hd hunit e, ?_⟩
    refine List.forall_mem_cons.2 ⟨lineFeed_notMem_firstField h.oneLine, ?_⟩
    by_cases hargs : e.arguments = []
    · rw [hargs]
      exact nofun
    rw [argumentLines_of_ne_nil hargs]
    refine List.forall_mem_cons.2 ⟨by decide, ?_⟩
    intro l hl
    rw [lines_indent] at hl
    obtain ⟨m, hm, rfl⟩ := List.mem_map.1 hl
    apply Lines.notMem_indentLine (by decide)
    refine forall_mem_lines_indexed (Q := fun l => '\n' ∉ l.toList) (by simpa using hargs) ?_ ?_ m hm
    · exact fun i l hl => notMem_label (by decide) (by decide) i hl
    · intro b hb
      obtain ⟨x, hx, rfl⟩ := List.mem_map.1 hb
      exact ih x hx (h.arguments x hx)

/-- The first field of a node does not begin with a number. -/
lemma not_isNumbered_firstField (e : Expr) : ¬ IsNumbered (firstField e) := by
  rintro ⟨c, hc, hdigit⟩
  rcases head?_firstField e with hhead | hhead
  all_goals
    rw [hhead] at hc
    cases hc
    cases hdigit

include hd hunit in
/-- Only the first line of a dump could begin with a digit. -/
lemma not_isNumbered_rest (h : Shown e) : ∀ l ∈ (d.expr e).rest, ¬ IsNumbered l := by
  have hrest := (List.cons.inj (lines_expr hd hunit h.oneLine)).2
  rw [hrest]
  refine List.forall_mem_cons.2 ⟨not_isNumbered_firstField e, ?_⟩
  by_cases hargs : e.arguments = []
  · rw [hargs]
    exact nofun
  rw [argumentLines_of_ne_nil hargs]
  refine List.forall_mem_cons.2 ⟨?_, ?_⟩
  · rintro ⟨c, hc, hdigit⟩
    cases hc
    cases hdigit
  · intro l hl
    rw [lines_indent] at hl
    obtain ⟨m, -, rfl⟩ := List.mem_map.1 hl
    exact not_isNumbered_indentLine m

/-- What one function does not tell apart within two lists another one does not either. -/
lemma map_eq_of_map_eq {α β γ : Type} {f : α → β} {g : α → γ} {xs ys : List α}
    (h : xs.map f = ys.map f) (hg : ∀ x ∈ xs, ∀ y ∈ ys, f x = f y → g x = g y) :
    xs.map g = ys.map g := by
  induction xs generalizing ys with
  | nil =>
    cases ys with
    | nil => rfl
    | cons y ys => cases h
  | cons x xs ih =>
    cases ys with
    | nil => cases h
    | cons y ys =>
      obtain ⟨hxy, hrest⟩ := List.cons.inj h
      have htail := ih hrest fun x hx y hy =>
        hg x (List.mem_cons_of_mem _ hx) y (List.mem_cons_of_mem _ hy)
      rw [List.map_cons, List.map_cons, htail, hg x List.mem_cons_self y List.mem_cons_self hxy]

include hd hunit in
/-- What the dump of a node shows of its arguments tells their dumps. -/
lemma map_expr_eq (ha : Shown a) (hb : Shown b)
    (h : argumentLines d a.arguments = argumentLines d b.arguments) :
    a.arguments.map d.expr = b.arguments.map d.expr := by
  have hrest : ∀ {e}, Shown e → ∀ c ∈ e.arguments.map d.expr, ∀ l ∈ c.rest, ¬ IsNumbered l := by
    intro e he c hc
    obtain ⟨x, hx, rfl⟩ := List.mem_map.1 hc
    exact not_isNumbered_rest hd hunit (he.arguments x hx)
  by_cases hnil : a.arguments = [] <;> by_cases hnil' : b.arguments = []
  · rw [hnil, hnil']
  · rw [hnil, argumentLines_of_ne_nil hnil'] at h
    cases h
  · rw [hnil', argumentLines_of_ne_nil hnil] at h
    cases h
  · rw [argumentLines_of_ne_nil hnil, argumentLines_of_ne_nil hnil'] at h
    have hindexed := indent_injective (lines_injective (List.cons.inj h).2)
    exact indexed_inj (by simpa using hnil) (by simpa using hnil') (hrest ha) (hrest hb) hindexed

include hd hunit in
/-- Trees with the same dump are alike up to what the descriptions of their spans tell. -/
lemma mapSpans_eq_of_expr_eq {g : Span → Span} {P : Span → Prop}
    (hg : ∀ s t, P s → P t → d.source.describe s = d.source.describe t → g s = g t)
    (depth : Nat) (ha : Shown a) (hb : Shown b) (hPa : ∀ n ∈ a.nodesFrom depth, P n.2.span)
    (hPb : ∀ n ∈ b.nodesFrom depth, P n.2.span) (h : d.expr a = d.expr b) :
    a.mapSpans g = b.mapSpans g := by
  -- on the first tree: the first two lines of the dumps tell the roots, and what is below them the
  -- dumps of the arguments, which are one node deeper
  induction a using Expr.arguments_induction generalizing b depth with
  | h a ih =>
    have hlines := congrArg lines h
    rw [lines_expr hd hunit ha.oneLine, lines_expr hd hunit hb.oneLine] at hlines
    obtain ⟨hheading, hbelow⟩ := List.cons.inj hlines
    obtain ⟨hfield, hargs⟩ := List.cons.inj hbelow
    obtain ⟨hname, hrange⟩ := heading_inj hd hheading
    have hspan : g a.span = g b.span :=
      hg _ _ (hPa _ (a.mem_nodesFrom_self depth)) (hPb _ (b.mem_nodesFrom_self depth)) hrange
    have harguments : a.arguments.map (Expr.mapSpans g) =
        b.arguments.map (Expr.mapSpans g) := by
      apply map_eq_of_map_eq (map_expr_eq hd hunit ha hb hargs)
      intro x hx y hy hxy
      exact ih x hx (depth + 1) (ha.arguments x hx) (hb.arguments y hy)
        (fun n hn => hPa n (Expr.mem_nodesFrom_of_arguments hx hn))
        (fun n hn => hPb n (Expr.mem_nodesFrom_of_arguments hy hn)) hxy
    rw [Expr.mapSpans_eq_ofRoot, Expr.mapSpans_eq_ofRoot g b, root_eq ha hb hname hfield, hspan,
      harguments]

end Dumper

/-- A plain dump shows one tree. Take two trees whose names are spelled like names, whose
literals are stored with their texts, each on one line, and without empty subscripts, and a unit
whose name holds no line feed. If their dumps without colors are the same, then the trees are
equal up to spans; and if all their spans lie between character boundaries of the source, then
they are equal. -/
theorem dumpExpr_inj {name : String} {source : List Char} {options : DumpOptions}
    (hplain : options.usesColors = false) (hname : '\n' ∉ name.toList) {a b : Expr}
    (ha : a.Built (fun n => IsName n.toList) Literal.IsStored)
    (hb : b.Built (fun n => IsName n.toList) Literal.IsStored)
    (h : dumpExpr a (.ofText name source) options = dumpExpr b (.ofText name source) options) :
    a.eraseSpans = b.eraseSpans ∧
      (byteLength source < UInt32.size → (∀ n ∈ a.nodes, n.2.span.OnBoundaries source) →
        (∀ n ∈ b.nodes, n.2.span.OnBoundaries source) → a = b) := by
  obtain ⟨d, hd⟩ : ∃ d, d = Dumper.ofOptions (.ofText name source) options := ⟨_, rfl⟩
  have hcolors : d.colors = false := by rw [hd, Dumper.ofOptions, hplain]
  have hunit : d.source = .ofText name source := by rw [hd, Dumper.ofOptions]
  have hline : '\n' ∉ d.source.name.toList := by rwa [hunit]
  rw [dumpExpr, dumpExpr, ← hd] at h
  have hexpr : d.expr a = d.expr b :=
    Block.text_inj (Dumper.lineFeed_notMem_lines hcolors hline ha)
      (Dumper.lineFeed_notMem_lines hcolors hline hb) h
  constructor
  · -- without spans there is nothing that the descriptions have to tell
    have hdummy : ∀ s t : Span, True → True → d.source.describe s = d.source.describe t →
        Span.dummy = Span.dummy := fun _ _ _ _ _ => rfl
    exact Dumper.mapSpans_eq_of_expr_eq hcolors hline hdummy 0 ha hb (fun _ _ => trivial)
      (fun _ _ => trivial) hexpr
  · intro hlen hPa hPb
    rw [← a.mapSpans_id, ← b.mapSpans_id]
    have hspans : ∀ s t : Span, s.OnBoundaries source → t.OnBoundaries source →
        d.source.describe s = d.source.describe t → id s = id t := by
      intro s t hs ht hst
      rw [hunit] at hst
      exact SourceUnit.describe_inj hlen hs ht hst
    exact Dumper.mapSpans_eq_of_expr_eq hcolors hline hspans 0 ha hb hPa hPb hexpr

/-- Spans past the end of the source are shown alike, and do not hide which tree it is; spans within
it are told apart, also below another argument. -/
theorem dumpExpr_inj_past_end :
    let source := "super[self[\"a\", 0x1F], x]".toList
    let u : SourceUnit := .ofText "main" source
    let options : DumpOptions := ⟨.never, true⟩
    let tree (s t : Span) : Expr :=
      .subscript .super
        [.subscript .self [.literal (.string "a" "\"a\"") s, .literal (.integer 31 "0x1F") ⟨16, 20⟩]
          ⟨6, 21⟩, .identifier "x" t] ⟨0, 25⟩
    options.usesColors = false ∧ '\n' ∉ "main".toList ∧
      dumpExpr (tree ⟨11, 14⟩ ⟨25, 25⟩) u options = dumpExpr (tree ⟨11, 14⟩ ⟨30, 99⟩) u options ∧
      (tree ⟨11, 14⟩ ⟨25, 25⟩).eraseSpans = (tree ⟨11, 14⟩ ⟨30, 99⟩).eraseSpans ∧
      dumpExpr (tree ⟨11, 14⟩ ⟨23, 24⟩) u options ≠ dumpExpr (tree ⟨11, 15⟩ ⟨23, 24⟩) u options := by
  intro source u options tree
  have hbuilt : ∀ s t, (tree s t).Built (fun n => IsName n.toList) Literal.IsStored := by
    intro s t
    have hname : IsName "x".toList := ⟨'x', [], rfl, by decide, nofun⟩
    have hstring : (Literal.string "a" "\"a\"").IsStored :=
      ⟨by decide, rfl, by rintro _ _ ⟨⟩; decide +kernel⟩
    have hinteger : (Literal.integer 31 "0x1F").IsStored := ⟨by decide, by rfl, nofun⟩
    refine .subscript (List.cons_ne_nil _ _) ?_
    rw [List.forall_mem_cons, List.forall_mem_singleton]
    refine ⟨.subscript (List.cons_ne_nil _ _) ?_, .identifier hname⟩
    rw [List.forall_mem_cons, List.forall_mem_singleton]
    exact ⟨.literal hstring, .literal hinteger⟩
  have hdump : dumpExpr (tree ⟨11, 14⟩ ⟨25, 25⟩) u options =
      dumpExpr (tree ⟨11, 14⟩ ⟨30, 99⟩) u options := by
    decide +kernel
  have hspans : ∀ s : Span, s = ⟨11, 14⟩ ∨ s = ⟨11, 15⟩ →
      ∀ n ∈ (tree s ⟨23, 24⟩).nodes, n.2.span.OnBoundaries source := by
    rintro s (rfl | rfl)
    · decide
    · decide
  refine ⟨rfl, by decide, hdump, ?_, fun h => ?_⟩
  · exact (dumpExpr_inj rfl (by decide) (hbuilt _ _) (hbuilt _ _) hdump).1
  · have heq := (dumpExpr_inj rfl (by decide) (hbuilt _ _) (hbuilt _ _) h).2 (by decide)
      (hspans _ (.inl rfl)) (hspans _ (.inr rfl))
    cases heq

end ExprFront
