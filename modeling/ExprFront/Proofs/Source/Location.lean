import ExprFront.Proofs.Source.Lines
import ExprFront.Proofs.Text.Block
import ExprFront.Source
import Mathlib.Data.List.Induction

/-!
# Locations

The line of a character boundary is one more than the number of line feeds before it, and its column
one more than the number of characters since the last of them (`LineTable.lineColumn?_eq`). So the
boundaries of a source have different locations (`SourceUnit.location_inj`), and spans between
boundaries are described differently (`SourceUnit.describe_inj`).
-/

namespace ExprFront

namespace LineTable

/-- The text is empty or ends with a line feed, so that a line starts behind it. -/
def EndsLine (u : List Char) : Prop := u = [] ∨ ∃ v, u = v ++ ['\n']

/-- Every text is made of whole lines and the front of another one. -/
lemma exists_endsLine (p : List Char) : ∃ u w, p = u ++ w ∧ EndsLine u ∧ '\n' ∉ w := by
  induction p using List.reverseRecOn with
  | nil => exact ⟨[], [], rfl, .inl rfl, List.not_mem_nil⟩
  | append_singleton p c ih =>
    obtain ⟨u, w, rfl, hu, hw⟩ := ih
    by_cases hc : c = '\n'
    · subst hc
      exact ⟨u ++ w ++ ['\n'], [], (List.append_nil _).symm, .inr ⟨_, rfl⟩, List.not_mem_nil⟩
    · refine ⟨u, w ++ [c], List.append_assoc _ _ _, hu, ?_⟩
      simp [hw, Ne.symm hc]

section Boundary

variable {u w v : List Char} (hu : EndsLine u) (hw : '\n' ∉ w)
  (hlen : byteLength (u ++ w ++ v) < UInt32.size)

include hw in
/-- The starts up to the line and those behind it. -/
lemma starts_ofText : (ofText (u ++ w ++ v)).starts =
    0 :: (startsOnto [] 0 u ++ startsOnto [] (byteLength (u ++ w)) v) := by
  have hnil : startsOnto [] (0 + byteLength u) w = [] := by
    rw [← List.length_eq_zero_iff, length_startsOnto, List.count_eq_zero.2 hw]
  rw [ofText, startsOnto_eq, startsOnto_append, startsOnto_append, hnil, List.append_nil,
    Nat.zero_add]
  rfl

include hw hlen in
/-- The line of an offset has as many lines before it as there are line feeds. -/
lemma lineIndex_eq :
    (ofText (u ++ w ++ v)).lineIndex (.ofNat (byteLength (u ++ w))) = u.count '\n' := by
  have hlt : byteLength (u ++ w) < UInt32.size := by
    rw [byteLength_append] at hlen
    omega
  rw [lineIndex_ofText hlen, UInt32.toNat_ofNat_of_lt' hlt, utf8Bytes_append (u ++ w),
    ← length_utf8Bytes, List.take_left, count_utf8Bytes, List.count_append,
    List.count_eq_zero.2 hw, Nat.add_zero]

include hu hw hlen in
/-- The line of an offset starts behind the whole lines before it. -/
lemma starts_getElem :
    ((ofText (u ++ w ++ v)).starts[u.count '\n']?).getD 0 = .ofNat (byteLength u) := by
  rw [starts_ofText hw]
  rcases hu with rfl | ⟨v', rfl⟩
  · rfl
  · have hlt : byteLength (v' ++ ['\n']) < UInt32.size := by
      rw [byteLength_append, byteLength_append] at hlen
      omega
    have hlast : startsOnto [] 0 (v' ++ ['\n']) =
        startsOnto [] 0 v' ++ [.ofNat (byteLength (v' ++ ['\n']))] := by
      rw [startsOnto_append, startsOnto_cons, if_pos rfl, Nat.zero_add, clampOffset_of_lt]
      · rw [byteLength_append, byteLength_cons]
        rfl
      · rwa [byteLength_append, byteLength_cons] at hlt
    rw [hlast, List.count_append, List.count_singleton_self, List.getElem?_cons_succ,
      List.append_assoc, ← length_startsOnto 0 v', List.getElem?_append_right (Nat.le_refl _),
      Nat.sub_self]
    rfl

include hu hw hlen in
/-- A boundary is on the line after the line feeds before it, at the column after the characters
since the last of them, unless one of the two counts is the largest word. -/
theorem lineColumn?_eq :
    (ofText (u ++ w ++ v)).lineColumn? (u ++ w ++ v) (.ofNat (byteLength (u ++ w))) =
      if u.count '\n' = UInt32.size - 1 ∨ w.length = UInt32.size - 1 then none
      else some (ordinal (u.count '\n'), ordinal w.length) := by
  have hcount : u.count '\n' < UInt32.size := by
    have hle := count_le_byteLength '\n' u
    rw [byteLength_append, byteLength_append] at hlen
    omega
  have hstop : byteLength (u ++ w) < UInt32.size := by
    rw [byteLength_append] at hlen
    omega
  have hstart : byteLength u < UInt32.size := by
    rw [byteLength_append] at hstop
    omega
  have hwidth : width (u ++ w ++ v) (byteLength u)
      (min (byteLength (u ++ w)) (byteLength (u ++ w ++ v))) = w.length := by
    have hle : byteLength u ≤ byteLength (u ++ w) := by
      rw [byteLength_append]
      omega
    have hi : charIndex? (u ++ w ++ v) (byteLength u) = some u.length :=
      charIndex?_eq_some_iff.2 ⟨u, w ++ v, List.append_assoc u w v, rfl, rfl⟩
    have hj : charIndex? (u ++ w ++ v) (byteLength (u ++ w)) = some (u ++ w).length :=
      charIndex?_eq_some_iff.2 ⟨u ++ w, v, rfl, rfl, rfl⟩
    rw [Nat.min_eq_left (by rw [byteLength_append (u ++ w)]; omega)]
    simp only [width, charsBetween?, if_pos hle, hi, hj, Option.getD_some, List.length_append,
      Nat.add_sub_cancel_left]
  have hcolumn : (ofText (u ++ w ++ v)).columnIndex (u ++ w ++ v) (.ofNat (byteLength (u ++ w)))
      (u.count '\n') = w.length := by
    rw [columnIndex, toNat_ordinal_sub_one hcount, starts_getElem hu hw hlen,
      UInt32.toNat_ofNat_of_lt' hstart, UInt32.toNat_ofNat_of_lt' hstop, hwidth]
  rw [lineColumn?, lineIndex_eq hw hlen, lineColumnAt?_eq, hcolumn]

end Boundary

/-- A line starts behind one prefix only, if the number of line feeds in it is known. -/
lemma EndsLine.append_inj {u u' x x' : List Char} (hu : EndsLine u) (hu' : EndsLine u')
    (hcount : u.count '\n' = u'.count '\n') (h : u ++ x = u' ++ x') : u = u' ∧ x = x' := by
  have hnil : ∀ {y z : List Char}, EndsLine (y ++ z) → (y ++ z).count '\n' = y.count '\n' →
      z = [] := by
    intro y z hend hcount
    rw [List.count_append, Nat.add_eq_left, List.count_eq_zero] at hcount
    rcases hend with hend | ⟨v, hv⟩
    · exact (List.append_eq_nil_iff.1 hend).2
    · rcases List.eq_nil_or_concat z with rfl | ⟨z, c, rfl⟩
      · rfl
      · rw [List.concat_eq_append, ← List.append_assoc] at hv
        obtain ⟨-, hc⟩ := List.append_inj' hv rfl
        rw [List.concat_eq_append, hc] at hcount
        simp at hcount
  rcases List.append_eq_append_iff.1 h with ⟨z, rfl, rfl⟩ | ⟨z, rfl, rfl⟩
  · obtain rfl := hnil hu' hcount.symm
    exact ⟨(List.append_nil u).symm, rfl⟩
  · obtain rfl := hnil hu hcount
    exact ⟨List.append_nil u', rfl⟩

end LineTable

/-- Both ends of the span are on character boundaries of the source. -/
def Span.OnBoundaries (source : List Char) (s : Span) : Prop :=
  (charIndex? source s.start.toNat).isSome ∧ (charIndex? source s.stop.toNat).isSome

instance (source : List Char) (s : Span) : Decidable (s.OnBoundaries source) :=
  inferInstanceAs (Decidable (_ ∧ _))

namespace SourceUnit

open LineTable

variable {name : String} {source : List Char} (hlen : byteLength source < UInt32.size)

variable (name) in
include hlen in
/-- The location of a boundary counts the line feeds before it and the characters since the last of
them. Only the largest offset can have too many of these. -/
lemma exists_location {o : UInt32} (ho : (charIndex? source o.toNat).isSome) :
    ∃ u w v, source = u ++ w ++ v ∧ EndsLine u ∧ o = .ofNat (byteLength (u ++ w)) ∧
      (o.toNat = UInt32.size - 1 ∧ (ofText name source).location o = ⟨0, 0⟩ ∨
        1 ≤ ordinal (u.count '\n') ∧
          (ofText name source).location o = ⟨ordinal (u.count '\n'), ordinal w.length⟩) := by
  obtain ⟨i, hi⟩ := Option.isSome_iff_exists.1 ho
  obtain ⟨p, v, rfl, -, hp⟩ := charIndex?_eq_some_iff.1 hi
  obtain ⟨u, w, rfl, hu, hw⟩ := exists_endsLine p
  have ho : o = .ofNat (byteLength (u ++ w)) := by rw [hp, UInt32.ofNat_toNat]
  refine ⟨u, w, v, rfl, hu, ho, ?_⟩
  have hline := lineColumn?_eq hu hw hlen
  rw [← ho] at hline
  rw [location, ofText, lineColumn, hline]
  by_cases hmax : u.count '\n' = UInt32.size - 1 ∨ w.length = UInt32.size - 1
  · rw [if_pos hmax]
    refine .inl ⟨?_, rfl⟩
    have hlines := count_le_byteLength '\n' u
    have hcolumns := length_le_byteLength w
    have hlt : o.toNat < UInt32.size := o.toNat_lt
    rw [byteLength_append] at hp
    omega
  · rw [if_neg hmax]
    exact .inr ⟨one_le_ordinal (not_or.1 hmax).1, rfl⟩

include hlen in
/-- The boundaries of a source have different locations. -/
theorem location_inj {o o' : UInt32} (ho : (charIndex? source o.toNat).isSome)
    (ho' : (charIndex? source o'.toNat).isSome)
    (h : (ofText name source).location o = (ofText name source).location o') : o = o' := by
  obtain ⟨u, w, v, hsource, hu, rfl, hloc⟩ := exists_location name hlen ho
  obtain ⟨u', w', v', hsource', hu', rfl, hloc'⟩ := exists_location name hlen ho'
  have hzero : ∀ {line column : UInt32}, 1 ≤ line →
      (⟨line, column⟩ : SourceLocation) ≠ ⟨0, 0⟩ := by
    rintro line column hpos heq
    obtain ⟨rfl, -⟩ := SourceLocation.mk.inj heq
    exact absurd hpos (by decide)
  rcases hloc with ⟨hmax, hloc⟩ | ⟨hpos, hloc⟩ <;> rcases hloc' with ⟨hmax', hloc'⟩ | ⟨hpos', hloc'⟩
  · exact UInt32.toNat_inj.1 (hmax.trans hmax'.symm)
  · exact absurd (hloc'.symm.trans (h.symm.trans hloc)) (hzero hpos')
  · exact absurd (hloc.symm.trans (h.trans hloc')) (hzero hpos)
  · rw [hloc, hloc'] at h
    obtain ⟨hline, hcolumn⟩ := SourceLocation.mk.inj h
    have hbound : ∀ {x y z : List Char}, source = x ++ y ++ z →
        x.count '\n' < UInt32.size ∧ y.length < UInt32.size := by
      rintro x y z rfl
      have hx := count_le_byteLength '\n' x
      have hy := length_le_byteLength y
      rw [byteLength_append, byteLength_append] at hlen
      omega
    have hcount := ordinal_inj (hbound hsource).1 (hbound hsource').1 hline
    have hwidth := ordinal_inj (hbound hsource).2 (hbound hsource').2 hcolumn
    have heq := hsource.symm.trans hsource'
    rw [List.append_assoc, List.append_assoc] at heq
    obtain ⟨rfl, hrest⟩ := hu.append_inj hu' hcount heq
    obtain ⟨rfl, -⟩ := List.append_inj hrest hwidth
    rfl

end SourceUnit

/-- A word is written with decimal digits. -/
lemma toList_toString (n : UInt32) : (toString n).toList = Nat.toDigits 10 n.toNat := by
  show (toString n.toNat).toList = _
  rw [Nat.toString_eq_ofList_toDigits, String.toList_ofList]

/-- Different words are written differently. -/
lemma toString_inj {m n : UInt32} (h : (toString m).toList = (toString n).toList) : m = n := by
  rw [toList_toString, toList_toString] at h
  apply UInt32.toNat_inj.1
  calc
    m.toNat = Nat.ofDigitChars 10 (Nat.toDigits 10 m.toNat) 0 := Nat.ofDigitChars_ten_toDigits.symm
    _ = Nat.ofDigitChars 10 (Nat.toDigits 10 n.toNat) 0 := by rw [h]
    _ = n.toNat := Nat.ofDigitChars_ten_toDigits

/-- A word is written with digits only. -/
lemma notMem_toString {c : Char} (hc : c.isDigit = false) (n : UInt32) :
    c ∉ (toString n).toList := by
  rw [toList_toString]
  exact Block.notMem_toDigits hc n.toNat

/-- A location is written as its line, a colon and its column. -/
lemma SourceLocation.toList_text (l : SourceLocation) :
    l.text.toList = (toString l.line).toList ++ ':' :: (toString l.column).toList := by
  show (toString l.line ++ ":" ++ toString l.column).toList = _
  simp

/-- Different locations are written differently. -/
lemma SourceLocation.text_inj {l m : SourceLocation} (h : l.text.toList = m.text.toList) :
    l = m := by
  rw [toList_text, toList_text] at h
  obtain ⟨hline, hcolumn⟩ := append_cons_inj (notMem_toString (by decide) _)
    (notMem_toString (by decide) _) h
  exact congrArg₂ SourceLocation.mk (toString_inj hline) (toString_inj hcolumn)

/-- A location is written with digits and a colon only. -/
lemma SourceLocation.notMem_text {c : Char} (hdigit : c.isDigit = false) (hcolon : c ≠ ':')
    (l : SourceLocation) : c ∉ l.text.toList := by
  rw [toList_text, List.mem_append, List.mem_cons, not_or, not_or]
  exact ⟨notMem_toString hdigit _, hcolon, notMem_toString hdigit _⟩

/-- A range is written as its two locations with a dash between them. -/
lemma SourceRange.toList_text (r : SourceRange) :
    r.text.toList = r.start.text.toList ++ '-' :: r.stop.text.toList := by
  simp [text]

/-- Different ranges are written differently. -/
lemma SourceRange.text_inj {r r' : SourceRange} (h : r.text = r'.text) : r = r' := by
  have hlist := congrArg String.toList h
  rw [toList_text, toList_text] at hlist
  obtain ⟨hstart, hstop⟩ := append_cons_inj (SourceLocation.notMem_text (by decide) (by decide) _)
    (SourceLocation.notMem_text (by decide) (by decide) _) hlist
  exact congrArg₂ SourceRange.mk (SourceLocation.text_inj hstart) (SourceLocation.text_inj hstop)

/-- A description has no line feed if the name of the unit has none. -/
lemma SourceUnit.lineFeed_notMem_describe {u : SourceUnit} (h : '\n' ∉ u.name.toList) (s : Span) :
    '\n' ∉ (u.describe s).toList := by
  have hlocation := SourceLocation.notMem_text (c := '\n') (by decide) (by decide)
  simp [describe, SourceRange.toList_text, h, hlocation]

/-- Spans between boundaries of a source are described differently. -/
theorem SourceUnit.describe_inj {name : String} {source : List Char}
    (hlen : byteLength source < UInt32.size) {s t : Span} (hs : s.OnBoundaries source)
    (ht : t.OnBoundaries source)
    (h : (ofText name source).describe s = (ofText name source).describe t) : s = t := by
  have hrange := SourceRange.text_inj ((String.append_right_inj _).1 h)
  obtain ⟨hstart, hstop⟩ := SourceRange.mk.inj hrange
  exact congrArg₂ Span.mk (location_inj hlen hs.1 ht.1 hstart) (location_inj hlen hs.2 ht.2 hstop)

end ExprFront
