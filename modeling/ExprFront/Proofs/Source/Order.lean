import ExprFront.Proofs.Source.Location
import Mathlib.Data.List.DropRight

/-!
# The order of locations

The line and column of an offset are what counting gives, with an offset past the end counted as the
end (`LineTable.toNat_line`, `LineTable.lineColumn_of_append`). On the boundaries of a source
locations come in the order of the offsets (`location_counts`).
-/

namespace ExprFront

/-- The location is on an earlier line than the other, or before it on the same line. -/
def SourceLocation.Before (l m : SourceLocation) : Prop :=
  l.line < m.line ∨ l.line = m.line ∧ l.column < m.column

/-- No location is both before and behind another one. -/
lemma SourceLocation.Before.asymm {l m : SourceLocation} (h : l.Before m) : ¬ m.Before l := by
  simp only [Before, UInt32.lt_iff_toNat_lt, ← UInt32.toNat_inj] at h ⊢
  omega

namespace LineTable

variable {source p v : List Char}

/-- The ordinal of a small count is one more. -/
lemma toNat_ordinal {n : Nat} (h : n + 1 < UInt32.size) : (ordinal n).toNat = 1 + n := by
  rw [ordinal_of_lt (by omega), UInt32.toNat_add, UInt32.toNat_ofNat_of_lt' (by omega)]
  show (n + 1) % UInt32.size = 1 + n
  rw [Nat.mod_eq_of_lt h, Nat.add_comm]

/-- There are no bytes behind the end. -/
lemma take_min_utf8Bytes (source : List Char) (n : Nat) :
    (utf8Bytes source).take (min n (byteLength source)) = (utf8Bytes source).take n := by
  rw [← length_utf8Bytes, ← List.take_eq_take_min]

/-- The line of an offset is one more than the number of line feeds in the bytes before it. -/
lemma toNat_line (hlen : byteLength source < UInt32.size - 1) (o : UInt32) :
    ((ofText source).line o).toNat =
      1 + ((utf8Bytes source).take (min o.toNat (byteLength source))).count 10 := by
  have hsize : UInt32.size = 4294967296 := rfl
  have hword : byteLength source < UInt32.size := by omega
  have hcount := lineIndex_le hword o
  rw [take_min_utf8Bytes, line, toNat_ordinal (by omega), lineIndex_ofText (by omega)]

/-- The location of an offset is on its line. -/
lemma lineColumn_fst (hlen : byteLength source < UInt32.size - 1) (o : UInt32) :
    ((ofText source).lineColumn source o).1 = (ofText source).line o := by
  have hword : byteLength source < UInt32.size := Nat.lt_of_lt_of_le hlen (Nat.sub_le _ _)
  have hline := lineIndex_le hword o
  have hcolumn := (ofText source).columnIndex_le source o ((ofText source).lineIndex o)
  rw [lineColumn, lineColumn?, lineColumnAt?_eq, if_neg (by omega)]
  rfl

/-- An offset past the end is where the end is. -/
lemma lineColumn_min (hlen : byteLength source < UInt32.size) (o : UInt32) :
    (ofText source).lineColumn source o =
      (ofText source).lineColumn source (.ofNat (min o.toNat (byteLength source))) := by
  have hmin : (UInt32.ofNat (min o.toNat (byteLength source))).toNat =
      min o.toNat (byteLength source) := UInt32.toNat_ofNat_of_lt' (by omega)
  have hline : (ofText source).lineIndex o =
      (ofText source).lineIndex (.ofNat (min o.toNat (byteLength source))) := by
    rw [lineIndex_ofText hlen, lineIndex_ofText hlen, hmin, take_min_utf8Bytes]
  simp only [lineColumn, lineColumn?, lineColumnAt?, ← hline, hmin, Nat.min_assoc, Nat.min_self]

/-- Text without a line feed goes on with the last line. -/
lemma rtakeWhile_append {w : List Char} (hw : '\n' ∉ w) (p : List Char) :
    (p ++ w).rtakeWhile (· ≠ '\n') = p.rtakeWhile (· ≠ '\n') ++ w := by
  have hline : ∀ c ∈ w.reverse, decide (c ≠ '\n') = true := by
    intro c hc
    rw [decide_eq_true_iff]
    rintro rfl
    exact hw (List.mem_reverse.1 hc)
  rw [List.rtakeWhile, List.reverse_append, List.takeWhile_append_of_pos hline, List.reverse_append,
    List.reverse_reverse]
  rfl

/-- Behind whole lines no line has been begun. -/
lemma EndsLine.rtakeWhile {u : List Char} (hu : EndsLine u) : u.rtakeWhile (· ≠ '\n') = [] := by
  rcases hu with rfl | ⟨u, rfl⟩
  · rfl
  · exact List.rtakeWhile_concat_neg _ _ _ (by simp)

/-- Behind a prefix of the text, the line is one more than the number of line feeds in it, and the
column one more than the number of characters since the last of them. -/
lemma lineColumn_of_append (hlen : byteLength (p ++ v) < UInt32.size - 1) {o : UInt32}
    (ho : byteLength p = min o.toNat (byteLength (p ++ v))) :
    ((ofText (p ++ v)).lineColumn (p ++ v) o).1.toNat = 1 + p.count '\n' ∧
      ((ofText (p ++ v)).lineColumn (p ++ v) o).2.toNat =
        1 + (p.rtakeWhile (· ≠ '\n')).length := by
  have hsize : UInt32.size = 4294967296 := rfl
  obtain ⟨u, w, rfl, hu, hw⟩ := exists_endsLine p
  have hlines := count_le_byteLength '\n' u
  have hcolumns := length_le_byteLength w
  have hbytes : byteLength (u ++ w ++ v) = byteLength u + byteLength w + byteLength v := by
    rw [byteLength_append, byteLength_append]
  rw [lineColumn_min (by omega), ← ho, lineColumn, lineColumn?_eq hu hw (by omega),
    if_neg (by omega), rtakeWhile_append hw, hu.rtakeWhile, List.nil_append, List.count_append,
    List.count_eq_zero.2 hw, Nat.add_zero]
  exact ⟨toNat_ordinal (by omega), toNat_ordinal (by omega)⟩

end LineTable

namespace SourceUnit

open LineTable

variable {name : String} {source : List Char} {a b : UInt32}

variable (name) in
/-- An offset on a boundary has its line and its column counted in the text before it. -/
lemma exists_prefix (hlen : byteLength source < UInt32.size - 1) {o : UInt32}
    (ho : (charIndex? source o.toNat).isSome) :
    ∃ p v, source = p ++ v ∧ byteLength p = o.toNat ∧
      ((ofText name source).location o).line.toNat = 1 + p.count '\n' ∧
      ((ofText name source).location o).column.toNat = 1 + (p.rtakeWhile (· ≠ '\n')).length := by
  obtain ⟨_, hi⟩ := Option.isSome_iff_exists.1 ho
  obtain ⟨p, v, rfl, -, hp⟩ := charIndex?_eq_some_iff.1 hi
  have hmin : byteLength p = min o.toNat (byteLength (p ++ v)) := by
    rw [← hp, byteLength_append, Nat.min_eq_left (Nat.le_add_right _ _)]
  exact ⟨p, v, rfl, hp, lineColumn_of_append hlen hmin⟩

/-- A later boundary is on a later line, or further on in the same one. -/
lemma before_of_lt (hlen : byteLength source < UInt32.size - 1)
    (ha : (charIndex? source a.toNat).isSome) (hb : (charIndex? source b.toNat).isSome)
    (h : a < b) : ((ofText name source).location a).Before ((ofText name source).location b) := by
  obtain ⟨p, v, hsource, hp, hline, hcolumn⟩ := exists_prefix name hlen ha
  obtain ⟨q, z, hsource', hq, hline', hcolumn'⟩ := exists_prefix name hlen hb
  rw [UInt32.lt_iff_toNat_lt, ← hp, ← hq] at h
  obtain ⟨x, rfl⟩ : ∃ x, q = p ++ x := by
    rcases List.append_eq_append_iff.1 (hsource.symm.trans hsource') with ⟨x, hx, -⟩ | ⟨x, hx, -⟩
    · exact ⟨x, hx⟩
    · rw [hx, byteLength_append] at h
      omega
  -- a line feed in between starts a new line, and without one the last line grows
  rw [List.count_append] at hline'
  by_cases hx : '\n' ∈ x
  · have hcount := List.count_pos_iff.2 hx
    left
    rw [UInt32.lt_iff_toNat_lt]
    omega
  · rw [List.count_eq_zero.2 hx, Nat.add_zero, ← hline] at hline'
    have hpos : 0 < x.length := by
      rw [List.length_pos_iff]
      rintro rfl
      rw [List.append_nil] at h
      exact Nat.lt_irrefl _ h
    rw [rtakeWhile_append hx, List.length_append] at hcolumn'
    refine .inr ⟨(UInt32.toNat_inj.1 hline').symm, ?_⟩
    rw [UInt32.lt_iff_toNat_lt]
    omega

end SourceUnit

open LineTable in
/-- Lines and columns are what counting gives. In a source of fewer bytes than the largest offset,
the line of an offset is one more than the number of line feeds in the bytes before it, or in all
bytes for an offset past the end. Where that is a character boundary, the column is one more than
the number of characters since the last line feed, or since the start. So on the boundaries of a
source locations come in the order of the offsets, and no two of them have the same location. -/
theorem location_counts {name : String} {source : List Char}
    (hlen : byteLength source < UInt32.size - 1) :
    (∀ o : UInt32, ((ofText source).line o).toNat =
        1 + ((utf8Bytes source).take (min o.toNat (byteLength source))).count 10 ∧
      ∀ p v, source = p ++ v → byteLength p = min o.toNat (byteLength source) →
        ∃ column, (ofText source).lineColumn source o = ((ofText source).line o, column) ∧
          column.toNat = 1 + (p.rtakeWhile (· ≠ '\n')).length) ∧
    ∀ a b : UInt32, (charIndex? source a.toNat).isSome → (charIndex? source b.toNat).isSome →
      (a < b ↔ ((SourceUnit.ofText name source).location a).Before
        ((SourceUnit.ofText name source).location b)) ∧
      (((SourceUnit.ofText name source).location a).text =
        ((SourceUnit.ofText name source).location b).text → a = b) := by
  refine ⟨fun o => ⟨toNat_line hlen o, ?_⟩, fun a b ha hb => ⟨⟨?_, ?_⟩, fun h => ?_⟩⟩
  · rintro p v rfl hp
    exact ⟨_, Prod.ext (lineColumn_fst hlen o) rfl, (lineColumn_of_append hlen hp).2⟩
  · exact SourceUnit.before_of_lt hlen ha hb
  · intro h
    rcases Nat.lt_trichotomy a.toNat b.toNat with hlt | heq | hlt
    · exact UInt32.lt_iff_toNat_lt.2 hlt
    · obtain rfl := UInt32.toNat_inj.1 heq
      exact absurd h h.asymm
    · exact absurd (SourceUnit.before_of_lt hlen hb ha (UInt32.lt_iff_toNat_lt.2 hlt)) h.asymm
  · exact SourceUnit.location_inj (by omega) ha hb
      (SourceLocation.text_inj (congrArg String.toList h))

/-- An offset inside of a character is on the line of this character, and one past the end is behind
the last character of the last line. -/
theorem location_counts_two_lines :
    let source : List Char := ['é', '\n', 'x', 'y']
    byteLength source < UInt32.size - 1 ∧ ((LineTable.ofText source).line 1).toNat = 1 ∧
      (∃ column, (LineTable.ofText source).lineColumn source 9 =
        ((LineTable.ofText source).line 9, column) ∧ column.toNat = 3) ∧
      ((SourceUnit.ofText "main" source).location 2).Before
        ((SourceUnit.ofText "main" source).location 3) := by
  intro source
  have hlen : byteLength ['é', '\n', 'x', 'y'] < UInt32.size - 1 := by decide
  obtain ⟨hcount, horder⟩ := @location_counts "main" _ hlen
  have hline := (hcount 1).1
  obtain ⟨column, hcolumn, hwidth⟩ := (hcount 9).2 ['é', '\n', 'x', 'y'] [] rfl rfl
  refine ⟨hlen, hline.trans (by decide), ⟨column, hcolumn, hwidth.trans (by decide)⟩, ?_⟩
  exact (horder 2 3 (by decide) (by decide)).1.1 (by decide)

end ExprFront
