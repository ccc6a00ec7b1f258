import ExprFront.Proofs.Text.Front

/-!
# Reading written types back

A type is written as a base, which is a name, an array, a dictionary or a tuple, and a question mark
for each time that it is optional. The base can be read off the front of a text, as its brackets or
the end of its name show where it ends, and the marks are counted, so that the whole type can be
read off (`TypeExpr.WellNamed.isReadOff`).
-/

namespace ExprFront

namespace TypeExpr

/-- All names in the type are spelled like names. -/
inductive WellNamed : TypeExpr → Prop where
  | named {name args} (h : IsName name.toList) (hargs : ∀ t ∈ args, WellNamed t) :
    WellNamed (.named name args)
  | optional {t} (h : WellNamed t) : WellNamed (.optional t)
  | array {t} (h : WellNamed t) : WellNamed (.array t)
  | dictionary {k v} (hk : WellNamed k) (hv : WellNamed v) : WellNamed (.dictionary k v)
  | tuple {ts} (h : ∀ t ∈ ts, WellNamed t) : WellNamed (.tuple ts)

/-- The texts of several types are those of each of them. -/
lemma texts_eq_map (ts : List TypeExpr) : texts ts = ts.map text := by
  induction ts with
  | nil => rfl
  | cons t ts ih => rw [texts, ih, List.map_cons]

/-- What stands behind the name of a type. -/
def argumentsText (args : List TypeExpr) : List Char :=
  if args = [] then [] else '<' :: ((commaSeparated (args.map text)).toList ++ ['>'])

section Append

variable (r : List Char)

/-- The text of a named type in front of another text. -/
lemma named_append (name : String) (args : List TypeExpr) :
    (named name args).text.toList ++ r = name.toList ++ (argumentsText args ++ r) := by
  rw [text, texts_eq_map, genericText, argumentsText]
  cases args with
  | nil => simp
  | cons t ts => simp

/-- The text of an optional type in front of another text. -/
lemma optional_append (t : TypeExpr) :
    (optional t).text.toList ++ r = t.text.toList ++ '?' :: r := by
  simp [text]

/-- The text of an array type in front of another text. -/
lemma array_append (t : TypeExpr) :
    (array t).text.toList ++ r = '[' :: (t.text.toList ++ ']' :: r) := by
  simp [text]

/-- The text of a dictionary type in front of another text. -/
lemma dictionary_append (k v : TypeExpr) :
    (dictionary k v).text.toList ++ r =
      '[' :: (k.text.toList ++ ':' :: ' ' :: (v.text.toList ++ ']' :: r)) := by
  simp [text]

/-- The text of a tuple type in front of another text. -/
lemma tuple_append (ts : List TypeExpr) :
    (tuple ts).text.toList ++ r = '(' :: ((commaSeparated (ts.map text)).toList ++ ')' :: r) := by
  simp [text, texts_eq_map]

end Append

/-- The type without the marks at its end. -/
def base : TypeExpr → TypeExpr
  | optional t => t.base
  | t => t

/-- The number of marks at the end of the type. -/
def marks : TypeExpr → Nat
  | optional t => t.marks + 1
  | _ => 0

/-- A type is its base with all its question marks. -/
lemma repeat_optional : ∀ t : TypeExpr, Nat.repeat optional t.marks t.base = t
  | optional t => congrArg optional (repeat_optional t)
  | named _ _ | array _ | dictionary _ _ | tuple _ => rfl

/-- A type is known by its base and the number of its question marks. -/
lemma ext_base {t u : TypeExpr} (hbase : t.base = u.base) (hmarks : t.marks = u.marks) : t = u := by
  rw [← repeat_optional t, ← repeat_optional u, hbase, hmarks]

/-- The text of a type is that of its base and the question marks. -/
lemma base_append (t : TypeExpr) (r : List Char) :
    t.text.toList ++ r = t.base.text.toList ++ (List.replicate t.marks '?' ++ r) := by
  match t with
  | optional t =>
    have hmark :
        List.replicate (t.marks + 1) '?' ++ r = List.replicate t.marks '?' ++ '?' :: r := by
      rw [List.replicate_succ', List.append_assoc, List.singleton_append]
    rw [optional_append, base_append t, ← hmark]
    rfl
  | named _ _ | array _ | dictionary _ _ | tuple _ => rfl

/-- The base of a legible type is legible and has no question mark. -/
lemma WellNamed.of_base {t : TypeExpr} (h : t.WellNamed) : t.base.WellNamed ∧ t.base.marks = 0 := by
  induction h with
  | named h hargs => exact ⟨.named h hargs, rfl⟩
  | optional h ih => exact ih
  | array h => exact ⟨.array h, rfl⟩
  | dictionary hk hv => exact ⟨.dictionary hk hv, rfl⟩
  | tuple h => exact ⟨.tuple h, rfl⟩

/-- The characters that can stand behind a whole type, but the comma. -/
def ends : List Char := [' ', ':', '.', '>', ']', ')']

/-- The type can be read off the front of a text that goes on with a comma or another end. -/
abbrev IsReadOff (t : TypeExpr) : Prop := ReadsOff text id WellNamed (',' :: ends) t

/-- The base of the type can be read off the front of a text that goes on with a mark or a stop, and
the marks are left. -/
def IsBaseReadOff (t : TypeExpr) : Prop :=
  ∀ u r s, WellNamed u → StopsAt ('?' :: ',' :: ends) r → StopsAt ('?' :: ',' :: ends) s →
    t.text.toList ++ r = u.text.toList ++ s →
    t.base = u.base ∧ List.replicate t.marks '?' ++ r = List.replicate u.marks '?' ++ s

/-- Behind question marks stands another one or what follows. -/
lemma stopsAt_replicate {n : Nat} {r : List Char} (h : StopsAt ('?' :: ',' :: ends) r) :
    StopsAt ('?' :: ',' :: ends) (List.replicate n '?' ++ r) := by
  cases n with
  | zero => exact h
  | succ n => exact stopsAt_cons.2 List.mem_cons_self

/-- Marks are counted up to the first stop. -/
lemma IsBaseReadOff.isReadOff {t : TypeExpr} (h : t.IsBaseReadOff) : t.IsReadOff := by
  intro u r s hu hr hs heq
  obtain ⟨hbase, hmarks⟩ := h u r s hu (hr.mono (List.subset_cons_self _ _))
    (hs.mono (List.subset_cons_self _ _)) heq
  have hstop : ∀ c ∈ ',' :: ends, c ≠ '?' := by
    rintro c hc rfl
    exact absurd hc (by decide)
  have hmark : ∀ n, ∀ c ∈ List.replicate n '?', ¬ c ≠ '?' :=
    fun n c hc => not_not.2 (List.eq_of_mem_replicate hc)
  obtain ⟨hcount, rfl⟩ := append_inj_of_head (hmark _) (hmark _) (fun c hc => hstop c (hr c hc))
    (fun c hc => hstop c (hs c hc)) hmarks
  exact ⟨ext_base hbase (by simpa using congrArg List.length hcount), rfl⟩

/-- One more mark does not change what the base is. -/
lemma IsBaseReadOff.optional {t : TypeExpr} (h : t.IsBaseReadOff) : (optional t).IsBaseReadOff := by
  intro u r s hu hr hs heq
  rw [optional_append] at heq
  obtain ⟨hbase, hmarks⟩ := h u _ s hu (stopsAt_cons.2 List.mem_cons_self) hs heq
  refine ⟨hbase, ?_⟩
  show List.replicate (t.marks + 1) '?' ++ r = _
  rw [List.replicate_succ', List.append_assoc]
  exact hmarks

/-- A base can be read off if it can be told from other bases. -/
lemma IsBaseReadOff.of_base {t : TypeExpr} (ht : t.base = t) (hmarks : t.marks = 0)
    (h : ∀ u r s, WellNamed u → u.marks = 0 → StopsAt ('?' :: ',' :: ends) r →
      StopsAt ('?' :: ',' :: ends) s → t.text.toList ++ r = u.text.toList ++ s → t = u ∧ r = s) :
    t.IsBaseReadOff := by
  intro u r s hu hr hs heq
  rw [base_append u] at heq
  obtain ⟨hbase, hrest⟩ := h u.base r _ hu.of_base.1 hu.of_base.2 hr (stopsAt_replicate hs) heq
  rw [ht, hmarks]
  exact ⟨hbase, hrest⟩

/-- A type begins with a name or an opening bracket. -/
lemma WellNamed.exists_cons {t : TypeExpr} (h : t.WellNamed) (r : List Char) :
    ∃ c v, t.text.toList ++ r = c :: v ∧ (Rule.isWordStart c = true ∨ c = '[' ∨ c = '(') := by
  induction h generalizing r with
  | @named name args h hargs =>
    obtain ⟨c, v, hname, hc, -⟩ := h
    rw [named_append, hname]
    exact ⟨c, _, rfl, .inl hc⟩
  | optional h ih =>
    rw [optional_append]
    exact ih _
  | array h => exact ⟨'[', _, array_append _ _, .inr (.inl rfl)⟩
  | dictionary hk hv => exact ⟨'[', _, dictionary_append _ _ _, .inr (.inl rfl)⟩
  | tuple h => exact ⟨'(', _, tuple_append _ _, .inr (.inr rfl)⟩

/-- No legible type begins like the end of a list. -/
lemma WellNamed.beginsUnlike {t : TypeExpr} (h : t.WellNamed) : BeginsUnlike text ends t := by
  obtain ⟨c, v, ht, hc⟩ := h.exists_cons []
  rw [List.append_nil] at ht
  have hno : ends.any Rule.isWordStart = false := by decide
  refine ⟨c, v, ht, fun hends => ?_⟩
  obtain hc | rfl | rfl := hc
  · exact List.any_eq_false.1 hno c hends hc
  · exact absurd hends (by decide)
  · exact absurd hends (by decide)

/-- Lists of types can be read off in front of an end. -/
lemma list_inj {ts us : List TypeExpr} (hts : ∀ t ∈ ts, t.WellNamed) (ih : ∀ t ∈ ts, t.IsReadOff)
    (hus : ∀ u ∈ us, WellNamed u) {c : Char} (hc : c ∈ ends) {r s : List Char}
    (heq : (commaSeparated (ts.map text)).toList ++ c :: r =
      (commaSeparated (us.map text)).toList ++ c :: s) : ts = us ∧ r = s := by
  have hlist := readsOff_list (by decide) ih hus (fun t ht => (hts t ht).beginsUnlike)
    (fun u hu => (hus u hu).beginsUnlike) hc heq
  rwa [List.map_id, List.map_id] at hlist

/-- Behind the name of a type stand its arguments or what follows. -/
lemma stopsAt_arguments {args : List TypeExpr} {r : List Char}
    (hr : StopsAt ('?' :: ',' :: ends) r) :
    StopsAt ('<' :: '?' :: ',' :: ends) (argumentsText args ++ r) := by
  unfold argumentsText
  split
  next => exact hr.mono (List.subset_cons_self _ _)
  next => exact stopsAt_cons.2 List.mem_cons_self

/-- Arguments can be read off the front of a text, and so can the lack of any. -/
lemma arguments_inj {args args' : List TypeExpr} (hargs : ∀ t ∈ args, t.WellNamed)
    (ih : ∀ t ∈ args, t.IsReadOff) (hargs' : ∀ t ∈ args', WellNamed t) {r s : List Char}
    (hr : StopsAt ('?' :: ',' :: ends) r) (hs : StopsAt ('?' :: ',' :: ends) s)
    (heq : argumentsText args ++ r = argumentsText args' ++ s) : args = args' ∧ r = s := by
  unfold argumentsText at heq
  split at heq
  next hnil =>
    split at heq
    next hnil' => exact ⟨hnil.trans hnil'.symm, heq⟩
    next => exact absurd heq (hr.ne_cons (by decide))
  next =>
    split at heq
    next => exact absurd heq.symm (hs.ne_cons (by decide))
    next =>
      rw [List.cons_append, List.cons_append, List.append_assoc, List.append_assoc] at heq
      exact list_inj hargs ih hargs' (by decide) (List.cons.inj heq).2

section Bases

variable {u : TypeExpr} (hu : u.WellNamed) (hmarks : u.marks = 0) {r s : List Char}

include hu hmarks

/-- A named type is read off with its arguments. -/
lemma named_inj {name : String} {args : List TypeExpr} (h : IsName name.toList)
    (hargs : ∀ t ∈ args, t.WellNamed) (ih : ∀ t ∈ args, t.IsReadOff)
    (hr : StopsAt ('?' :: ',' :: ends) r) (hs : StopsAt ('?' :: ',' :: ends) s)
    (heq : (named name args).text.toList ++ r = u.text.toList ++ s) :
    named name args = u ∧ r = s := by
  rw [named_append] at heq
  cases hu with
  | @named name' args' h' hargs' =>
    rw [named_append] at heq
    obtain ⟨hname, hrest⟩ := h.append_inj h' (by decide) (stopsAt_arguments hr)
      (stopsAt_arguments hs) heq
    obtain ⟨rfl, rfl⟩ := arguments_inj hargs ih hargs' hr hs hrest
    exact ⟨congrArg (named · args) (String.toList_inj.1 hname), rfl⟩
  | optional => cases hmarks
  | array =>
    rw [array_append] at heq
    exact absurd heq (h.append_ne_cons (by decide))
  | dictionary =>
    rw [dictionary_append] at heq
    exact absurd heq (h.append_ne_cons (by decide))
  | tuple =>
    rw [tuple_append] at heq
    exact absurd heq (h.append_ne_cons (by decide))

/-- An array type is read off with its elements' type. -/
lemma array_inj {t : TypeExpr} (ih : t.IsReadOff)
    (heq : (array t).text.toList ++ r = u.text.toList ++ s) : array t = u ∧ r = s := by
  rw [array_append] at heq
  cases hu with
  | named h' =>
    rw [named_append] at heq
    exact absurd heq.symm (h'.append_ne_cons (by decide))
  | optional => cases hmarks
  | array h' =>
    rw [array_append] at heq
    obtain ⟨rfl, -, hrest⟩ := ih.cons_inj h' (by decide) (by decide) (List.cons.inj heq).2
    exact ⟨rfl, hrest⟩
  | dictionary hk hv =>
    -- a bracket stands behind an element, and a colon behind a key
    rw [dictionary_append] at heq
    obtain ⟨-, hmark, -⟩ := ih.cons_inj hk (by decide) (by decide) (List.cons.inj heq).2
    exact absurd hmark (by decide)
  | tuple =>
    rw [tuple_append] at heq
    exact absurd (List.cons.inj heq).1 (by decide)

/-- A dictionary type is read off with the types of its keys and values. -/
lemma dictionary_inj {k v : TypeExpr} (ihk : k.IsReadOff) (ihv : v.IsReadOff)
    (heq : (dictionary k v).text.toList ++ r = u.text.toList ++ s) :
    dictionary k v = u ∧ r = s := by
  rw [dictionary_append] at heq
  cases hu with
  | named h' =>
    rw [named_append] at heq
    exact absurd heq.symm (h'.append_ne_cons (by decide))
  | optional => cases hmarks
  | array h' =>
    rw [array_append] at heq
    obtain ⟨-, hmark, -⟩ := ihk.cons_inj h' (by decide) (by decide) (List.cons.inj heq).2
    exact absurd hmark (by decide)
  | dictionary hk hv =>
    rw [dictionary_append] at heq
    obtain ⟨rfl, -, hrest⟩ := ihk.cons_inj hk (by decide) (by decide) (List.cons.inj heq).2
    obtain ⟨rfl, -, hclose⟩ := ihv.cons_inj hv (by decide) (by decide) (List.cons.inj hrest).2
    exact ⟨rfl, hclose⟩
  | tuple =>
    rw [tuple_append] at heq
    exact absurd (List.cons.inj heq).1 (by decide)

/-- A tuple type is read off with the types of its parts. -/
lemma tuple_inj {ts : List TypeExpr} (hts : ∀ t ∈ ts, t.WellNamed) (ih : ∀ t ∈ ts, t.IsReadOff)
    (heq : (tuple ts).text.toList ++ r = u.text.toList ++ s) : tuple ts = u ∧ r = s := by
  rw [tuple_append] at heq
  cases hu with
  | named h' =>
    rw [named_append] at heq
    exact absurd heq.symm (h'.append_ne_cons (by decide))
  | optional => cases hmarks
  | array =>
    rw [array_append] at heq
    exact absurd (List.cons.inj heq).1 (by decide)
  | dictionary =>
    rw [dictionary_append] at heq
    exact absurd (List.cons.inj heq).1 (by decide)
  | tuple hus =>
    rw [tuple_append] at heq
    obtain ⟨rfl, hrest⟩ := list_inj hts ih hus (by decide) (List.cons.inj heq).2
    exact ⟨rfl, hrest⟩

end Bases

/-- The base of every legible type is read off. -/
lemma WellNamed.isBaseReadOff {t : TypeExpr} (h : t.WellNamed) : t.IsBaseReadOff := by
  induction h with
  | named h hargs ih =>
    exact .of_base rfl rfl fun u r s hu hmarks =>
      named_inj hu hmarks h hargs fun t ht => (ih t ht).isReadOff
  | optional h ih => exact ih.optional
  | array h ih =>
    exact .of_base rfl rfl fun u r s hu hmarks _ _ => array_inj hu hmarks ih.isReadOff
  | dictionary hk hv ihk ihv =>
    exact .of_base rfl rfl fun u r s hu hmarks _ _ =>
      dictionary_inj hu hmarks ihk.isReadOff ihv.isReadOff
  | tuple h ih =>
    exact .of_base rfl rfl fun u r s hu hmarks _ _ =>
      tuple_inj hu hmarks h fun t ht => (ih t ht).isReadOff

/-- What a type is written as can be read off the front of every text that goes on with a stop. -/
theorem WellNamed.isReadOff {t : TypeExpr} (h : t.WellNamed) : t.IsReadOff :=
  h.isBaseReadOff.isReadOff

/-- Types with proper names are written differently. -/
theorem WellNamed.text_inj {t u : TypeExpr} (ht : t.WellNamed) (hu : u.WellNamed)
    (h : t.text = u.text) : t = u :=
  (ht.isReadOff u [] [] hu nofun nofun (by rw [h])).1

end TypeExpr

end ExprFront
