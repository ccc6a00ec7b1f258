import ExprFront.Proofs.Source.Order

/-!
# Lookups in a table of another text

An offset may be looked up in the table of another text, of any size. The starts of its lines come
in order, but offsets that are no 32-bit words are cut down to the largest one, so that a search may
end at any of several equal starts. A lookup overflows if the search ends at the entry whose index
is the largest word, or if as many characters are counted on the line, and only then
(`lineColumn_foreign`). There is a text whose table has such an entry: it has as many line feeds
(`lineColumn_foreign_overflows`).
-/

namespace ExprFront

/-- Offsets that do not fit are cut down to the largest word. -/
lemma toNat_clampOffset (n : Nat) : (clampOffset n).toNat = min n (UInt32.size - 1) := by
  have hsize : UInt32.size = 4294967296 := rfl
  rw [clampOffset]
  split
  next h =>
    rw [UInt32.toNat_ofNat_of_lt' h]
    omega
  next h =>
    rw [UInt32.toNat_ofNat_of_lt' (by decide)]
    omega

namespace LineTable

/-- Lines start behind the offset where a text begins, the first one at least one place further
on. -/
lemma le_of_startsOnto {offset i : Nat} {cs : List Char} {s : UInt32}
    (h : (startsOnto [] offset cs)[i]? = some s) :
    min (offset + i + 1) (UInt32.size - 1) ≤ s.toNat := by
  induction cs generalizing offset i with
  | nil => cases h
  | cons c cs ih =>
    have hpos := c.utf8Size_pos
    rw [startsOnto_cons] at h
    split at h
    next hc =>
      cases i with
      | zero =>
        obtain rfl := Option.some.inj h
        rw [toNat_clampOffset]
        omega
      | succ i =>
        have hs := ih h
        omega
    next hc =>
      have hs := ih h
      omega

/-- The lines of any text start in order. -/
lemma pairwise_le_starts (text : List Char) : (ofText text).starts.Pairwise (· ≤ ·) := by
  have hrest : ∀ (offset : Nat) (cs : List Char),
      (startsOnto [] offset cs).Pairwise (· ≤ ·) ∧
        ∀ s ∈ startsOnto [] offset cs, clampOffset offset ≤ s := by
    intro offset cs
    induction cs generalizing offset with
    | nil => exact ⟨.nil, fun s hs => nomatch hs⟩
    | cons c cs ih =>
      obtain ⟨hpairs, hle⟩ := ih (offset + c.utf8Size)
      have hstep : clampOffset offset ≤ clampOffset (offset + c.utf8Size) := by
        rw [UInt32.le_iff_toNat_le, toNat_clampOffset, toNat_clampOffset]
        omega
      have hmem := fun s hs => UInt32.le_trans hstep (hle s hs)
      rw [startsOnto_cons]
      split
      · exact ⟨List.pairwise_cons.2 ⟨hle, hpairs⟩, List.forall_mem_cons.2 ⟨hstep, hmem⟩⟩
      · exact ⟨hpairs, hmem⟩
  rw [ofText, startsOnto_eq]
  exact List.pairwise_cons.2 ⟨fun s _ => UInt32.zero_le, (hrest 0 text).1⟩

/-- Not more lines start before an offset than there are offsets before it. -/
lemma countP_lt_startsOnto (offset : Nat) (cs : List Char) (o : UInt32) :
    (startsOnto [] offset cs).countP (· < o) ≤ o.toNat - 1 - offset := by
  have ho : o.toNat < UInt32.size := o.toNat_lt
  induction cs generalizing offset with
  | nil => exact Nat.zero_le _
  | cons c cs ih =>
    have hpos := c.utf8Size_pos
    have hrest := ih (offset + c.utf8Size)
    rw [startsOnto_cons, List.countP_append]
    split
    next hc =>
      rw [List.countP_singleton]
      split
      next hlt =>
        rw [decide_eq_true_eq, UInt32.lt_iff_toNat_lt, toNat_clampOffset] at hlt
        omega
      next => omega
    next =>
      rw [List.countP_nil]
      omega

/-- An ordinal is at most one more than the count. -/
lemma toNat_ordinal_le (n : Nat) : (ordinal n).toNat ≤ n + 1 := by
  by_cases hn : n < UInt32.size
  · rw [ordinal_of_lt hn, UInt32.toNat_add, UInt32.toNat_ofNat_of_lt' hn]
    exact Nat.mod_le _ _
  · have hlt : (ordinal n).toNat < UInt32.size := (ordinal n).toNat_lt
    omega

section Foreign

variable {t : LineTable} (ht : t = empty ∨ ∃ text : List Char, t = ofText text) {offset : UInt32}
  {e : SearchEnd}

include ht in
/-- The starts of every table are in order. -/
lemma pairwise_le_of_built : t.starts.Pairwise (· ≤ ·) := by
  rcases ht with rfl | ⟨text, rfl⟩
  · exact .nil
  · exact pairwise_le_starts text

/-- The index of a line is less than the number of lines, or zero in the empty table. -/
lemma lineIndex_lt (he : SearchEnds t.starts offset e) : e.lineIndex < max 1 t.lineCount := by
  cases he with
  | found hi =>
    have hlt := (List.getElem?_eq_some_iff.1 hi).1
    exact Nat.lt_of_lt_of_le hlt (Nat.le_max_right _ _)
  | missing =>
    have hle : t.starts.countP (· < offset) ≤ t.lineCount := List.countP_le_length
    rw [SearchEnd.lineIndex]
    omega

include ht in
/-- Only an entry that is found has the largest word as its index, and it starts at the largest
offset. -/
lemma eq_found_of_lineIndex (he : SearchEnds t.starts offset e)
    (h : e.lineIndex = UInt32.size - 1) :
    e = .found (UInt32.size - 1) ∧ offset.toNat = UInt32.size - 1 := by
  have hsize : UInt32.size = 4294967296 := rfl
  have hoffset : offset.toNat < UInt32.size := offset.toNat_lt
  rcases ht with rfl | ⟨text, rfl⟩
  · have hlt := lineIndex_lt he
    rw [h] at hlt
    exact absurd hlt (by decide)
  have hstarts : (ofText text).starts = 0 :: startsOnto [] 0 text := by
    rw [ofText, startsOnto_eq]
    rfl
  cases he with
  | @found index hi =>
    obtain rfl : index = UInt32.size - 1 := h
    have hpred : UInt32.size - 1 = UInt32.size - 2 + 1 := rfl
    rw [hstarts, hpred, List.getElem?_cons_succ] at hi
    have hs := le_of_startsOnto hi
    exact ⟨rfl, by omega⟩
  | missing hx =>
    have hcount := countP_lt_startsOnto 0 text offset
    rw [SearchEnd.lineIndex, hstarts, List.countP_cons] at h
    split at h
    next hpos =>
      have hpos : 0 < offset.toNat := UInt32.lt_iff_toNat_lt.1 (of_decide_eq_true hpos)
      omega
    next => omega

end Foreign

/-- The lookup of an offset with the empty table or with the table of any text, also of another one,
whichever of several equal starts the search finds. A sum or a difference on the way overflows if
and only if the search ends at the entry whose index is the largest 32-bit word, or as many
characters are counted on the line. For the first the table has more lines than words can count, for
the second the text is that long, and both are only met at the largest offset. Otherwise the line is
the one that the search finds, within the lines of the table, and the column is at most one more
than the number of bytes of the text. -/
theorem lineColumn_foreign {t : LineTable} (ht : t = empty ∨ ∃ text : List Char, t = ofText text)
    (source : List Char) (offset : UInt32) :
    SearchEnds t.starts offset (search t.starts offset) ∧
    ∀ e, SearchEnds t.starts offset e →
      (t.lineColumnAt? source offset e.lineIndex = none ↔
        e = .found (UInt32.size - 1) ∨
          t.columnIndex source offset e.lineIndex = UInt32.size - 1) ∧
      (e = .found (UInt32.size - 1) →
        offset.toNat = UInt32.size - 1 ∧ UInt32.size ≤ t.lineCount) ∧
      (t.columnIndex source offset e.lineIndex = UInt32.size - 1 →
        offset.toNat = UInt32.size - 1 ∧ UInt32.size - 1 ≤ byteLength source) ∧
      ∀ line column, t.lineColumnAt? source offset e.lineIndex = some (line, column) →
        ordinal? e.lineIndex = some line ∧ 1 ≤ line ∧ line.toNat ≤ max 1 t.lineCount ∧
          1 ≤ column ∧ column.toNat ≤ byteLength source + 1 := by
  have hsize : UInt32.size = 4294967296 := rfl
  have hoffset : offset.toNat < UInt32.size := offset.toNat_lt
  refine ⟨searchEnds_search (pairwise_le_of_built ht) offset, fun e he => ?_⟩
  have hindex := lineIndex_lt he
  have hcolumn := t.columnIndex_le_min source offset e.lineIndex
  have hfound : e.lineIndex = UInt32.size - 1 ↔ e = .found (UInt32.size - 1) :=
    ⟨fun h => (eq_found_of_lineIndex ht he h).1, fun h => congrArg SearchEnd.lineIndex h⟩
  rw [lineColumnAt?_eq, ← hfound]
  refine ⟨?_, fun h => ⟨(eq_found_of_lineIndex ht he h).2, by omega⟩, fun h => by omega,
    fun line column h => ?_⟩
  · simp only [ite_eq_left_iff, reduceCtorEq, imp_false, not_not]
  · split at h
    next => cases h
    next hne =>
      obtain ⟨hline, hwidth⟩ := not_or.1 hne
      obtain ⟨rfl, rfl⟩ := Prod.mk.inj (Option.some.inj h)
      have hlineLe := toNat_ordinal_le e.lineIndex
      have hwidthLe := toNat_ordinal_le (t.columnIndex source offset e.lineIndex)
      refine ⟨?_, one_le_ordinal hline, by omega, one_le_ordinal hwidth, by omega⟩
      rw [ordinal?_eq, if_neg hline]

/-- The line starts within one character of the text and the offset lies within another, so the
bytes between them are counted. -/
theorem lineColumn_foreign_within_character :
    let t := ofText "\n".toList
    let source := "éé".toList
    search t.starts 3 = .missing 2 ∧ t.lineColumn? source 3 = some (2, 3) ∧
      t.line? 3 = some 2 ∧ (2 : UInt32).toNat ≤ max 1 t.lineCount ∧
      (3 : UInt32).toNat ≤ byteLength source + 1 := by
  intro t source
  have hsearch : search t.starts 3 = .missing 2 := by decide
  have hlookup : t.lineColumn? source 3 = some (2, 3) := by decide
  obtain ⟨hends, hall⟩ := lineColumn_foreign (t := t) (.inr ⟨_, rfl⟩) source 3
  obtain ⟨-, -, -, hsome⟩ := hall _ hends
  obtain ⟨hline, -, hlines, -, hcolumn⟩ := hsome 2 3 hlookup
  exact ⟨hsearch, hlookup, hline, hlines, hcolumn⟩

/-- Line feeds are single bytes. -/
lemma byteLength_replicate_lineFeed (n : Nat) : byteLength (List.replicate n '\n') = n := by
  induction n with
  | zero => rfl
  | succ n ih =>
    rw [List.replicate_succ, byteLength_cons, ih]
    exact Nat.add_comm 1 n

/-- In a text of line feeds the line of the end has as many lines before it as there are line
feeds. -/
lemma lineIndex_replicate_lineFeed {n : Nat} (hn : n < UInt32.size) :
    (ofText (List.replicate n '\n')).lineIndex (.ofNat n) = n := by
  have hlen := byteLength_replicate_lineFeed n
  rw [lineIndex_ofText (by omega), UInt32.toNat_ofNat_of_lt' hn, List.take_of_length_le,
    count_utf8Bytes, List.count_replicate_self]
  rw [length_utf8Bytes, hlen]

/-- The lookup of the largest offset overflows in the table of a text that has as many line feeds,
wherever the search ends. -/
theorem lineColumn_foreign_overflows :
    let t := ofText (.replicate (UInt32.size - 1) '\n')
    t.line? 4294967295 = none ∧ t.lineColumn? [] 4294967295 = none ∧
      ∀ e, SearchEnds t.starts 4294967295 e →
        e.lineIndex = UInt32.size - 1 ∧ t.lineColumnAt? [] 4294967295 e.lineIndex = none := by
  intro t
  have hn : UInt32.size - 1 < UInt32.size := by decide
  have hlen := byteLength_replicate_lineFeed (UInt32.size - 1)
  have hindex : t.lineIndex 4294967295 = UInt32.size - 1 := lineIndex_replicate_lineFeed hn
  have hnone : t.lineColumnAt? [] 4294967295 (UInt32.size - 1) = none := by
    rw [lineColumnAt?_eq, if_pos (.inl rfl)]
  refine ⟨?_, ?_, fun e he => ?_⟩
  · rw [line?, hindex, ordinal?_eq, if_pos rfl]
  · rw [lineColumn?, hindex]
    exact hnone
  · have hend : e.lineIndex = UInt32.size - 1 := by
      rw [he.eq_search (pairwise_starts (by omega))]
      exact hindex
    rw [hend]
    exact ⟨rfl, hnone⟩

end LineTable

end ExprFront
