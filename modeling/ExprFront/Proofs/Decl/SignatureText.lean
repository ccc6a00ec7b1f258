import ExprFront.Decl
import ExprFront.Proofs.Decl.TypeText
import ExprFront.Proofs.Expr.Front

/-!
# Reading written signatures back

The parts of a signature are written one behind the other, and each of them can be read off the
front of what is left: names end at a blank or a colon, types and default arguments at what can
follow them, and optional parts are told by how they begin. So signatures are written the same only
if they are the same up to the spans of their default arguments (`signature_text_injective`).
-/

namespace ExprFront

namespace Attribute

/-- The name is spelled like one, and the argument holds no parenthesis that closes. -/
structure Legible (a : Attribute) : Prop where
  name : IsName a.name.toList
  argument : ∀ t ∈ a.argument, ')' ∉ t.toList

/-- What stands behind the name of an attribute. -/
def argumentText : Option String → List Char
  | none => []
  | some t => '(' :: (t.toList ++ [')'])

/-- The text of an attribute in front of another text. -/
lemma text_append (a : Attribute) (r : List Char) :
    a.text.toList ++ r = '@' :: (a.name.toList ++ (argumentText a.argument ++ r)) := by
  obtain ⟨name, argument⟩ := a
  cases argument <;> simp [text, argumentText]

/-- Behind the name of an attribute stands a parenthesis or what follows. -/
lemma stopsAt_argument {argument : Option String} {r : List Char} (hr : StopsAt [' '] r) :
    StopsAt ['(', ' '] (argumentText argument ++ r) := by
  cases argument with
  | none => exact hr.mono (List.subset_cons_self _ _)
  | some t => exact stopsAt_cons.2 List.mem_cons_self

/-- An attribute can be read off the front of a text that goes on with a blank. -/
lemma Legible.readsOff {a : Attribute} (h : a.Legible) : ReadsOff text id Legible [' '] a := by
  intro b r s h' hr hs heq
  rw [text_append, text_append] at heq
  obtain ⟨hname, hrest⟩ := h.name.append_inj h'.name (by decide) (stopsAt_argument hr)
    (stopsAt_argument hs) (List.cons.inj heq).2
  obtain ⟨name, argument⟩ := a
  obtain ⟨name', argument'⟩ := b
  obtain rfl := String.toList_inj.1 hname
  cases argument with
  | none =>
    cases argument' with
    | none => exact ⟨rfl, hrest⟩
    | some t' => exact absurd hrest (hr.ne_cons (by decide))
  | some t =>
    cases argument' with
    | none => exact absurd hrest.symm (hs.ne_cons (by decide))
    | some t' =>
      simp only [argumentText, List.cons_append, List.append_assoc] at hrest
      obtain ⟨htext, rfl⟩ := append_cons_inj (h.argument t rfl) (h'.argument t' rfl)
        (List.cons.inj hrest).2
      obtain rfl := String.toList_inj.1 htext
      exact ⟨rfl, rfl⟩

/-- Attributes in front of something else, with a blank behind each of them. -/
lemma toList_listText (as : List Attribute) :
    (if as.isEmpty then "" else listText as ++ " ").toList =
      as.flatMap fun a => a.text.toList ++ [' '] := by
  cases as with
  | nil => rfl
  | cons a as =>
    induction as generalizing a with
    | nil => simp [listText]
    | cons b as ih =>
      rw [List.flatMap_cons, ← ih b]
      simp [listText, String.intercalate_cons_cons]

/-- Attributes can be read off the front of a text that does not go on with one. -/
lemma list_inj {as bs : List Attribute} (has : ∀ a ∈ as, a.Legible) (hbs : ∀ b ∈ bs, b.Legible)
    {r s : List Char} (hr : ∀ x, r ≠ '@' :: x) (hs : ∀ x, s ≠ '@' :: x)
    (heq : (as.flatMap fun a => a.text.toList ++ [' ']) ++ r =
      (bs.flatMap fun b => b.text.toList ++ [' ']) ++ s) : as = bs ∧ r = s := by
  induction as generalizing bs with
  | nil =>
    cases bs with
    | nil => exact ⟨rfl, heq⟩
    | cons b bs =>
      rw [List.flatMap_cons, List.append_assoc, List.append_assoc, text_append] at heq
      exact absurd heq (hr _)
  | cons a as ih =>
    cases bs with
    | nil =>
      rw [List.flatMap_cons, List.append_assoc, List.append_assoc, text_append] at heq
      exact absurd heq.symm (hs _)
    | cons b bs =>
      obtain ⟨ha, has⟩ := List.forall_mem_cons.1 has
      obtain ⟨hb, hbs⟩ := List.forall_mem_cons.1 hbs
      simp only [List.flatMap_cons, List.append_assoc, List.singleton_append] at heq
      obtain ⟨hab, -, hrest⟩ := ha.readsOff.cons_inj hb (by decide) (by decide) heq
      obtain ⟨hlist, hrs⟩ := ih has hbs hrest
      exact ⟨congrArg₂ List.cons hab hlist, hrs⟩

end Attribute

namespace Parameter

/-- All names are spelled like names, and those in the default argument are no keywords; the default
argument has subscripts with arguments only, and literals that can be written. -/
structure Legible (p : Parameter) : Prop where
  externalName : ∀ name ∈ p.externalName, IsName name.toList
  localName : IsName p.localName.toList
  type : p.type.WellNamed
  defaultArgument : ∀ e ∈ p.defaultArgument, e.Built IsUnreserved Literal.IsWritten

/-- The parameter without the spans of its default argument. -/
def eraseSpans (p : Parameter) : Parameter :=
  { p with defaultArgument := p.defaultArgument.map Expr.eraseSpans }

/-- The written form of the names of a parameter. -/
def namesText (externalName : Option String) (localName : String) : List Char :=
  match externalName with
  | some name => name.toList ++ ' ' :: localName.toList
  | none => localName.toList

/-- The written form of the mark of a variadic parameter. -/
def dotsText (variadic : Bool) : List Char := if variadic then ['.', '.', '.'] else []

/-- The written form of a default argument. -/
def defaultText : Option Expr → List Char
  | some e => ' ' :: '=' :: ' ' :: e.text.toList
  | none => []

/-- The text of a parameter in front of another text. -/
lemma text_append (p : Parameter) (r : List Char) :
    p.text.toList ++ r = namesText p.externalName p.localName ++ ':' :: ' ' ::
      (p.type.text.toList ++ (dotsText p.variadic ++ (defaultText p.defaultArgument ++ r))) := by
  obtain ⟨externalName, localName, type, defaultArgument, variadic⟩ := p
  cases externalName <;> cases defaultArgument <;> cases variadic <;>
    simp [text, namesText, dotsText, defaultText]

/-- The text of a parameter does not show the spans of its default argument. -/
lemma text_eraseSpans (p : Parameter) : p.eraseSpans.text = p.text := by
  obtain ⟨externalName, localName, type, defaultArgument, variadic⟩ := p
  cases defaultArgument with
  | none => rfl
  | some e =>
    simp only [text, eraseSpans, Option.map_some, Expr.text_eraseSpans]
    rfl

section

variable {r s : List Char}

/-- The names of a parameter are cut at the colon, and in two if there is a blank. -/
lemma names_inj {x y : Option String} {n m : String} (hx : ∀ name ∈ x, IsName name.toList)
    (hy : ∀ name ∈ y, IsName name.toList) (hn : IsName n.toList) (hm : IsName m.toList)
    (heq : namesText x n ++ ':' :: r = namesText y m ++ ':' :: s) : x = y ∧ n = m ∧ r = s := by
  have hcut : ∀ {v w : String} {a b : Char} {u t : List Char}, IsName v.toList → IsName w.toList →
      a ∈ [' ', ':'] → b ∈ [' ', ':'] → v.toList ++ a :: u = w.toList ++ b :: t →
      v = w ∧ a = b ∧ u = t := by
    intro v w a b u t hv hw ha hb h
    obtain ⟨hvw, hrest⟩ := hv.append_inj hw (by decide) (stopsAt_cons.2 ha) (stopsAt_cons.2 hb) h
    exact ⟨String.toList_inj.1 hvw, List.cons.inj hrest⟩
  cases x with
  | none =>
    cases y with
    | none =>
      obtain ⟨rfl, -, hrest⟩ := hcut hn hm (by decide) (by decide) heq
      exact ⟨rfl, rfl, hrest⟩
    | some name' =>
      rw [namesText, namesText, List.append_assoc] at heq
      obtain ⟨-, hmark, -⟩ := hcut hn (hy name' rfl) (by decide) (by decide) heq
      exact absurd hmark (by decide)
  | some name =>
    rw [namesText, List.append_assoc] at heq
    cases y with
    | none =>
      obtain ⟨-, hmark, -⟩ := hcut (hx name rfl) hm (by decide) (by decide) heq
      exact absurd hmark (by decide)
    | some name' =>
      rw [namesText, List.append_assoc] at heq
      obtain ⟨rfl, -, hlocal⟩ := hcut (hx name rfl) (hy name' rfl) (by decide) (by decide) heq
      obtain ⟨rfl, -, hrest⟩ := hcut hn hm (by decide) (by decide) hlocal
      exact ⟨rfl, rfl, hrest⟩

/-- The dots of a variadic parameter are read off. -/
lemma dots_inj {v w : Bool} (hr : StopsAt [' ', ',', ')'] r) (hs : StopsAt [' ', ',', ')'] s)
    (heq : dotsText v ++ r = dotsText w ++ s) : v = w ∧ r = s := by
  cases v with
  | false =>
    cases w with
    | false => exact ⟨rfl, heq⟩
    | true => exact absurd heq (hr.ne_cons (by decide))
  | true =>
    cases w with
    | false => exact absurd heq.symm (hs.ne_cons (by decide))
    | true => exact ⟨rfl, List.append_cancel_left heq⟩

/-- A default argument is read off up to its spans. -/
lemma default_inj {d d' : Option Expr} (hd : ∀ e ∈ d, e.Built IsUnreserved Literal.IsWritten)
    (hd' : ∀ e ∈ d', e.Built IsUnreserved Literal.IsWritten) (hr : StopsAt [',', ')'] r)
    (hs : StopsAt [',', ')'] s) (heq : defaultText d ++ r = defaultText d' ++ s) :
    d.map Expr.eraseSpans = d'.map Expr.eraseSpans ∧ r = s := by
  have hstops : [',', ')'] ⊆ ',' :: Expr.ends := by decide
  cases d with
  | none =>
    cases d' with
    | none => exact ⟨rfl, heq⟩
    | some e' => exact absurd heq (hr.ne_cons (by decide))
  | some e =>
    cases d' with
    | none => exact absurd heq.symm (hs.ne_cons (by decide))
    | some e' =>
      have hform : [' ', '=', ' '] ++ (e.text.toList ++ r) =
        [' ', '=', ' '] ++ (e'.text.toList ++ s) := heq
      obtain ⟨he, hrs⟩ := (hd e rfl).isReadOff e' r s (hd' e' rfl) (hr.mono hstops) (hs.mono hstops)
        (List.append_cancel_left hform)
      exact ⟨congrArg some he, hrs⟩

/-- A parameter can be read off the front of a text that goes on with a comma or the end of the
parameters. -/
lemma Legible.readsOff {p : Parameter} (h : p.Legible) :
    ReadsOff text eraseSpans Legible [',', ')'] p := by
  intro q r s h' hr hs heq
  have hdefault : ∀ {d : Option Expr} {x : List Char}, StopsAt [',', ')'] x →
      StopsAt [' ', ',', ')'] (defaultText d ++ x) := by
    intro d x hx
    cases d with
    | none => exact hx.mono (by decide)
    | some e => exact stopsAt_cons.2 (by decide)
  have hdots : ∀ {v : Bool} {x : List Char}, StopsAt [' ', ',', ')'] x →
      StopsAt (',' :: TypeExpr.ends) (dotsText v ++ x) := by
    intro v x hx
    cases v with
    | false => exact hx.mono (by decide)
    | true => exact stopsAt_cons.2 (by decide)
  rw [text_append, text_append] at heq
  obtain ⟨hexternal, hlocal, htail⟩ := names_inj h.externalName h'.externalName h.localName
    h'.localName heq
  obtain ⟨htype, hrest⟩ := h.type.isReadOff q.type _ _ h'.type (hdots (hdefault hr))
    (hdots (hdefault hs)) (List.cons.inj htail).2
  obtain ⟨hvariadic, hrest⟩ := dots_inj (hdefault hr) (hdefault hs) hrest
  obtain ⟨hdef, hrs⟩ := default_inj h.defaultArgument h'.defaultArgument hr hs hrest
  refine ⟨?_, hrs⟩
  obtain ⟨externalName, localName, type, defaultArgument, variadic⟩ := p
  obtain ⟨externalName', localName', type', defaultArgument', variadic'⟩ := q
  simp only [eraseSpans, mk.injEq]
  exact ⟨hexternal, hlocal, htype, hdef, hvariadic⟩

/-- A parameter does not begin like the end of the list. -/
lemma Legible.beginsUnlike {p : Parameter} (h : p.Legible) : BeginsUnlike text [')'] p := by
  have hstart : ∀ {name : List Char}, IsName name → ∀ x, ∃ c v, name ++ x = c :: v ∧ c ∉ [')'] := by
    rintro name ⟨c, v, rfl, hc, -⟩ x
    refine ⟨c, v ++ x, rfl, fun hmem => ?_⟩
    obtain rfl := List.mem_singleton.1 hmem
    exact absurd hc (by decide)
  have htext := p.text_append []
  rw [List.append_nil] at htext
  rw [BeginsUnlike, htext]
  unfold namesText
  split
  next name hname =>
    rw [List.append_assoc]
    exact hstart (h.externalName name hname) _
  next => exact hstart h.localName _

end

end Parameter

/-- All names are spelled like names, and arguments of attributes hold no parenthesis that
closes. -/
structure FunctionResult.Legible (r : FunctionResult) : Prop where
  attributes : ∀ a ∈ r.attributes, a.Legible
  type : r.type.WellNamed

namespace Signature

/-- The parameters and the result can be read back. -/
structure Legible (s : Signature) : Prop where
  parameters : ∀ p ∈ s.parameters, p.Legible
  result : ∀ r ∈ s.result, r.Legible

/-- The signature without the spans of default arguments. -/
def eraseSpans (s : Signature) : Signature :=
  { s with parameters := s.parameters.map Parameter.eraseSpans }

/-- The written form of a way of throwing, if there is one. -/
def throwingText (t : Throwing) : List Char :=
  if t = .nothrowing then [] else ' ' :: t.text.toList

/-- The written form of a result, if there is one. -/
def resultText : Option FunctionResult → List Char
  | some r => ' ' :: '-' :: '>' :: ' ' ::
    ((r.attributes.flatMap fun a => a.text.toList ++ [' ']) ++ r.type.text.toList)
  | none => []

/-- The parts of the text of a signature. -/
lemma toList_text (s : Signature) :
    s.text.toList = '(' :: ((commaSeparated (s.parameters.map Parameter.text)).toList ++
      ')' :: (throwingText s.throwing ++ resultText s.result)) := by
  obtain ⟨parameters, way, result⟩ := s
  cases result with
  | none => cases way <;> simp [text, throwingText, resultText]
  | some r =>
    rw [resultText, ← Attribute.toList_listText]
    cases way <;> simp [text, throwingText, FunctionResult.text]

/-- The text of a signature does not show the spans of default arguments. -/
lemma text_eraseSpans (s : Signature) : s.eraseSpans.text = s.text := by
  have htexts : s.parameters.map (Parameter.text ∘ Parameter.eraseSpans) =
      s.parameters.map Parameter.text :=
    List.map_congr_left fun p _ => p.text_eraseSpans
  rw [text, text, eraseSpans, List.map_map, htexts]

/-- Results begin with an arrow, so that they are told from ways of throwing. -/
lemma throwing_inj {t t' : Throwing} {r r' : Option FunctionResult}
    (heq : throwingText t ++ resultText r = throwingText t' ++ resultText r') :
    t = t' ∧ resultText r = resultText r' := by
  have harrow : ∀ (r : Option FunctionResult) (c : Char) (x : List Char), c ≠ '-' →
      resultText r ≠ ' ' :: c :: x := by
    intro r c x hc h
    cases r with
    | none => cases h
    | some r => exact hc (List.cons.inj (List.cons.inj h).2).1.symm
  cases t with
  | nothrowing =>
    cases t' with
    | nothrowing => exact ⟨rfl, heq⟩
    | throwing => exact absurd heq (harrow r 't' _ (by decide))
    | rethrowing => exact absurd heq (harrow r 'r' _ (by decide))
  | throwing =>
    cases t' with
    | nothrowing => exact absurd heq.symm (harrow r' 't' _ (by decide))
    | throwing => exact ⟨rfl, List.append_cancel_left heq⟩
    | rethrowing => exact absurd (List.cons.inj (List.cons.inj heq).2).1 (by decide)
  | rethrowing =>
    cases t' with
    | nothrowing => exact absurd heq.symm (harrow r' 'r' _ (by decide))
    | throwing => exact absurd (List.cons.inj (List.cons.inj heq).2).1 (by decide)
    | rethrowing => exact ⟨rfl, List.append_cancel_left heq⟩

/-- No type begins like an attribute, so the attributes of a result end where its type begins. -/
lemma result_inj {r r' : Option FunctionResult} (h : ∀ f ∈ r, f.Legible) (h' : ∀ f ∈ r', f.Legible)
    (heq : resultText r = resultText r') : r = r' := by
  have htype : ∀ {t : TypeExpr}, t.WellNamed → ∀ x, t.text.toList ≠ '@' :: x := by
    intro t ht x heq
    obtain ⟨c, v, hcons, hc⟩ := ht.exists_cons []
    rw [List.append_nil, heq] at hcons
    obtain ⟨rfl, -⟩ := List.cons.inj hcons
    exact absurd hc (by decide)
  cases r with
  | none =>
    cases r' with
    | none => rfl
    | some f' => cases heq
  | some f =>
    cases r' with
    | none => cases heq
    | some f' =>
      have hf := h f rfl
      have hf' := h' f' rfl
      have hform : (f.attributes.flatMap fun a => a.text.toList ++ [' ']) ++ f.type.text.toList =
          (f'.attributes.flatMap fun a => a.text.toList ++ [' ']) ++ f'.type.text.toList :=
        List.append_cancel_left
          (show [' ', '-', '>', ' '] ++ _ = [' ', '-', '>', ' '] ++ _ from heq)
      obtain ⟨hattributes, htext⟩ := Attribute.list_inj hf.attributes hf'.attributes (htype hf.type)
        (htype hf'.type) hform
      have htypes := hf.type.text_inj hf'.type (String.toList_inj.1 htext)
      obtain ⟨attributes, type⟩ := f
      obtain ⟨attributes', type'⟩ := f'
      exact congrArg some (congrArg₂ FunctionResult.mk hattributes htypes)

end Signature

/-- Signatures with different meaning are written differently. Two signatures whose names are
spelled like names, whose attributes have no closing parenthesis in their arguments, and whose
default arguments are expressions that can be written, are written the same exactly if they are
equal up to the spans of their default arguments. In particular, types whose names are spelled like
names are written the same only if they are equal. -/
theorem signature_text_injective :
    (∀ s t : Signature, s.Legible → t.Legible → (s.text = t.text ↔ s.eraseSpans = t.eraseSpans)) ∧
    ∀ t u : TypeExpr, t.WellNamed → u.WellNamed → t.text = u.text → t = u := by
  refine ⟨fun s t hs ht => ⟨fun heq => ?_, fun heq => ?_⟩, fun t u => TypeExpr.WellNamed.text_inj⟩
  · rw [← String.toList_inj, Signature.toList_text, Signature.toList_text] at heq
    obtain ⟨hparameters, hclose⟩ := readsOff_list (by decide)
      (fun p hp => (hs.parameters p hp).readsOff) ht.parameters
      (fun p hp => (hs.parameters p hp).beginsUnlike)
      (fun p hp => (ht.parameters p hp).beginsUnlike) (by decide) (List.cons.inj heq).2
    obtain ⟨hthrowing, hresult⟩ := Signature.throwing_inj hclose
    have hresults := Signature.result_inj hs.result ht.result hresult
    obtain ⟨parameters, way, result⟩ := s
    obtain ⟨parameters', way', result'⟩ := t
    simp only [Signature.eraseSpans, Signature.mk.injEq]
    exact ⟨hparameters, hthrowing, hresults⟩
  · rw [← s.text_eraseSpans, heq, t.text_eraseSpans]

/-- Two signatures that differ in the spans of a default argument are written the same. -/
theorem signature_text_injective_spans :
    let type : TypeExpr := .dictionary (.named "Key" []) (.optional (.named "Value" []))
    let value (span : Span) : Expr := .subscript .super
      [.identifier "_" span, .literal (.integer 1 "1") span] span
    let signature (span : Span) : Signature :=
      ⟨[⟨some "with", "count", type, some (value span), true⟩], .throwing,
        some ⟨[⟨"on", some "a, b"⟩], .tuple []⟩⟩
    let s := signature ⟨3, 4⟩
    let t := signature .dummy
    s.Legible ∧ t.Legible ∧
      s.text = "(with count: [Key: Value?]... = super[_, 1]) throws -> @on(a, b) ()" ∧
      s.text = t.text ∧ s.eraseSpans = t.eraseSpans := by
  intro type value signature s t
  have hname : ∀ c : Char, Rule.isWordStart c = true → ∀ v : List Char,
      v.all Rule.isWordPart = true → IsName (c :: v) :=
    fun c hc v hv => ⟨c, v, rfl, hc, List.all_eq_true.1 hv⟩
  have hint : IsInt ['1'] := .inr (.inr (.inr ⟨'1', [], rfl, by decide, nofun⟩))
  have hliteral : (Literal.integer 1 "1").IsWritten :=
    Literal.isWritten_iff.2 ⟨rfl, .int, .of_word hint nofun, rfl⟩
  have hvalue : ∀ span, (value span).Built IsUnreserved Literal.IsWritten := by
    refine fun span => .subscript (List.cons_ne_nil _ _) fun e he => ?_
    obtain rfl | he := List.mem_cons.1 he
    · exact .identifier ⟨hname '_' (by decide) _ (by decide), by decide⟩
    · obtain rfl := List.mem_singleton.1 he
      exact .literal hliteral
  have htype : type.WellNamed :=
    .dictionary (.named (hname 'K' (by decide) _ (by decide)) nofun)
      (.optional (.named (hname 'V' (by decide) _ (by decide)) nofun))
  have hcount : IsName "count".toList := hname 'c' (by decide) _ (by decide)
  have hlegible : ∀ span, (signature span).Legible := by
    intro span
    refine ⟨fun p hp => ?_, fun r hr => ?_⟩
    · obtain rfl := List.mem_singleton.1 hp
      refine ⟨?_, hcount, htype, ?_⟩
      · rintro name ⟨⟩
        exact hname 'w' (by decide) _ (by decide)
      · rintro e ⟨⟩
        exact hvalue span
    · cases hr
      refine ⟨fun a ha => ?_, .tuple nofun⟩
      obtain rfl := List.mem_singleton.1 ha
      refine ⟨hname 'o' (by decide) _ (by decide), ?_⟩
      rintro argument ⟨⟩
      decide
  have htext : s.text = t.text := rfl
  exact ⟨hlegible _, hlegible _, by decide, htext,
    (signature_text_injective.1 s t (hlegible _) (hlegible _)).1 htext⟩

end ExprFront
