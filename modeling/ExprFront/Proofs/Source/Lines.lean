import ExprFront.Proofs.Text.Slice
import ExprFront.Source
import Mathlib.Data.List.Basic

/-!
# Lines

The table of a text holds the start of each line, in increasing order (`pairwise_starts`), so that
the search for an offset ends where the lines that start before it do (`lineIndex_eq_countP`). Their
number is the number of line feeds before the offset, counted in the bytes of the text
(`lineIndex_ofText`).
-/

namespace ExprFront

/-- The bytes of a text in UTF-8. -/
def utf8Bytes (cs : List Char) : List UInt8 := cs.flatMap String.utf8EncodeChar

/-- The bytes of the first character come first. -/
lemma utf8Bytes_cons (c : Char) (cs : List Char) :
    utf8Bytes (c :: cs) = String.utf8EncodeChar c ++ utf8Bytes cs := rfl

/-- The bytes of two texts come one after the other. -/
lemma utf8Bytes_append (u v : List Char) : utf8Bytes (u ++ v) = utf8Bytes u ++ utf8Bytes v :=
  List.flatMap_append

/-- The length in bytes counts them. -/
lemma length_utf8Bytes (cs : List Char) : (utf8Bytes cs).length = byteLength cs := by
  induction cs with
  | nil => rfl
  | cons c cs ih =>
    rw [utf8Bytes_cons, List.length_append, String.length_utf8EncodeChar, ih, byteLength_cons]

/-- A line feed is encoded by one byte, which is part of the encoding of no other character. -/
lemma count_utf8EncodeChar (c : Char) :
    (String.utf8EncodeChar c).count 10 = if c = '\n' then 1 else 0 := by
  split
  next h =>
    subst h
    decide
  next h =>
    have hval : c.val.toNat ≠ 10 := fun hc => h (Char.ext (UInt32.toNat_inj.1 hc))
    have hbyte : ∀ n : Nat, (10 : UInt8) = UInt8.ofNat n → n % 256 = 10 :=
      fun n heq => (congrArg UInt8.toNat heq).symm
    -- all bytes of the longer encodings lie above the single bytes
    rw [List.count_eq_zero]
    unfold String.utf8EncodeChar
    dsimp only
    grind

/-- Line feeds are the bytes with their number. -/
lemma count_utf8Bytes (cs : List Char) : (utf8Bytes cs).count 10 = cs.count '\n' := by
  induction cs with
  | nil => rfl
  | cons c cs ih =>
    rw [utf8Bytes_cons, List.count_append, count_utf8EncodeChar, ih, List.count_cons, Nat.add_comm]
    simp

/-- In an ordered list a value stands behind all smaller ones. -/
lemma getElem?_countP_lt {values : List UInt32} {x : UInt32} (h : values.Pairwise (· ≤ ·))
    (hx : x ∈ values) : values[values.countP (· < x)]? = some x := by
  induction values with
  | nil => cases hx
  | cons y values ih =>
    obtain ⟨hy, h⟩ := List.pairwise_cons.1 h
    by_cases hyx : y = x
    · subst hyx
      have hnone : values.countP (· < y) = 0 := by
        rw [List.countP_eq_zero]
        intro z hz
        simpa using hy z hz
      simp [hnone]
    · have hx : x ∈ values := (List.mem_cons.1 hx).resolve_left (Ne.symm hyx)
      have hlt : y < x := UInt32.lt_of_le_of_ne (hy x hx) hyx
      rw [List.countP_cons, if_pos (by simpa using hlt), List.getElem?_cons_succ, ih h hx]

/-- The search of an ordered list ends where a search may end. -/
lemma searchEnds_search {values : List UInt32} (h : values.Pairwise (· ≤ ·)) (x : UInt32) :
    SearchEnds values x (search values x) := by
  rw [search]
  by_cases hx : x ∈ values
  · rw [if_pos (getElem?_countP_lt h hx)]
    exact .found (getElem?_countP_lt h hx)
  · rw [if_neg fun heq => hx (List.mem_of_getElem? heq)]
    exact .missing hx

/-- Where all values are different, a search has one end only. -/
lemma SearchEnds.eq_search {values : List UInt32} (h : values.Pairwise (· < ·)) {x : UInt32}
    {e : SearchEnd} (he : SearchEnds values x e) : e = search values x := by
  have hle : values.Pairwise (· ≤ ·) := h.imp UInt32.le_of_lt
  rw [search]
  cases he with
  | found hi =>
    have hfirst := getElem?_countP_lt hle (List.mem_of_getElem? hi)
    have hlt := (List.getElem?_eq_some_iff.1 hi).1
    rw [if_pos hfirst, (List.getElem?_inj hlt (h.imp UInt32.ne_of_lt)).1 (hi.trans hfirst.symm)]
  | missing hx => rw [if_neg fun heq => hx (List.mem_of_getElem? heq)]

namespace LineTable

/-- Only the largest word has no ordinal. -/
lemma ordinal?_eq (n : Nat) :
    ordinal? n = if n = UInt32.size - 1 then none else some (ordinal n) := by
  have hsize : UInt32.size = 4294967296 := rfl
  have hone : (1 : UInt32).toNat = 1 := rfl
  have hlast : (UInt32.ofNat (UInt32.size - 2)).toNat + 1 < UInt32.size := by decide
  suffices h : ordinal? n = none ↔ n = UInt32.size - 1 by
    rw [ordinal]
    cases hn : ordinal? n with
    | none => rw [if_pos (h.1 hn)]
    | some k =>
      have hne : n ≠ UInt32.size - 1 := fun heq => Option.some_ne_none k (hn.symm.trans (h.2 heq))
      rw [if_neg hne, Option.getD_some]
  rw [ordinal?, checkedAdd, hone]
  by_cases hn : n < UInt32.size
  · rw [if_pos hn, UInt32.toNat_ofNat_of_lt' hn]
    split <;> simp <;> omega
  · rw [if_neg hn, if_pos hlast]
    simp
    omega

/-- The ordinal of a word is one more. -/
lemma ordinal_of_lt {n : Nat} (h : n < UInt32.size) : ordinal n = .ofNat n + 1 := by
  have hone : (1 : UInt32).toNat = 1 := rfl
  rw [ordinal, ordinal?, checkedAdd, hone, if_pos h, UInt32.toNat_ofNat_of_lt' h]
  split
  next => rfl
  next hmax =>
    -- the sum wraps around to zero
    obtain rfl : n = UInt32.size - 1 := by omega
    rfl

/-- An ordinal that does not overflow is positive. -/
lemma one_le_ordinal {n : Nat} (h : n ≠ UInt32.size - 1) : 1 ≤ ordinal n := by
  have hsize : UInt32.size = 4294967296 := rfl
  have hone : (1 : UInt32).toNat = 1 := rfl
  by_cases hn : n < UInt32.size
  · rw [ordinal_of_lt hn, UInt32.le_iff_toNat_le, UInt32.toNat_add,
      UInt32.toNat_ofNat_of_lt' hn, hone]
    omega
  · rw [ordinal, ordinal?, if_neg hn]
    decide

/-- What is counted between the start of the line with the given index and an offset. -/
def columnIndex (t : LineTable) (source : List Char) (offset : UInt32) (index : Nat) : Nat :=
  width source ((t.starts[(ordinal index - 1).toNat]?).getD 0).toNat
    (min offset.toNat (byteLength source))

/-- No more characters or bytes are counted than stand before the end. -/
lemma width_le (source : List Char) (start stop : Nat) : width source start stop ≤ stop := by
  rw [width, charsBetween?]
  split
  next =>
    cases hi : charIndex? source start with
    | none => exact Nat.sub_le stop start
    | some i =>
      cases hj : charIndex? source stop with
      | none => exact Nat.sub_le stop start
      | some j =>
        obtain ⟨u, v, -, rfl, rfl⟩ := charIndex?_eq_some_iff.1 hj
        exact Nat.le_trans (Nat.sub_le u.length i) (length_le_byteLength u)
  next => exact Nat.sub_le stop start

/-- No more is counted than stands before the offset and before the end. -/
lemma columnIndex_le_min (t : LineTable) (source : List Char) (offset : UInt32) (index : Nat) :
    t.columnIndex source offset index ≤ min offset.toNat (byteLength source) :=
  width_le _ _ _

/-- No more is counted than the text has bytes. -/
lemma columnIndex_le (t : LineTable) (source : List Char) (offset : UInt32) (index : Nat) :
    t.columnIndex source offset index ≤ byteLength source :=
  Nat.le_trans (columnIndex_le_min t source offset index) (Nat.min_le_right _ _)

/-- A lookup overflows exactly where the index of the line or that of the column is the largest
word. -/
lemma lineColumnAt?_eq (t : LineTable) (source : List Char) (offset : UInt32) (index : Nat) :
    t.lineColumnAt? source offset index =
      if index = UInt32.size - 1 ∨ t.columnIndex source offset index = UInt32.size - 1 then none
      else some (ordinal index, ordinal (t.columnIndex source offset index)) := by
  rw [lineColumnAt?, ordinal?_eq]
  by_cases hline : index = UInt32.size - 1
  · rw [if_pos hline, if_pos (.inl hline)]
    rfl
  · rw [if_neg hline, Option.bind_eq_bind, Option.bind_some, checkedSub,
      if_pos (one_le_ordinal hline)]
    show (ordinal? (t.columnIndex source offset index)).bind
      (fun column => some (ordinal index, column)) = _
    rw [ordinal?_eq]
    by_cases hcolumn : t.columnIndex source offset index = UInt32.size - 1
    · rw [if_pos hcolumn, if_pos (.inr hcolumn)]
      rfl
    · rw [if_neg hcolumn, if_neg (not_or.2 ⟨hline, hcolumn⟩)]
      rfl

/-- An ordinal tells the count before it. -/
lemma toNat_ordinal_sub_one {n : Nat} (h : n < UInt32.size) : (ordinal n - 1).toNat = n := by
  rw [ordinal_of_lt h, UInt32.add_sub_cancel, UInt32.toNat_ofNat_of_lt' h]

/-- Different counts have different ordinals. -/
lemma ordinal_inj {m n : Nat} (hm : m < UInt32.size) (hn : n < UInt32.size)
    (h : ordinal m = ordinal n) : m = n := by
  rw [← toNat_ordinal_sub_one hm, h, toNat_ordinal_sub_one hn]

/-- A line starts behind a line feed at the front. -/
lemma startsOnto_cons (offset : Nat) (c : Char) (cs : List Char) :
    startsOnto [] offset (c :: cs) =
      (if c = '\n' then [clampOffset (offset + c.utf8Size)] else []) ++
        startsOnto [] (offset + c.utf8Size) cs := by
  rw [startsOnto, startsOnto_eq]
  split <;> rfl

/-- The lines of two texts start one after the other. -/
lemma startsOnto_append (offset : Nat) (u v : List Char) :
    startsOnto [] offset (u ++ v) =
      startsOnto [] offset u ++ startsOnto [] (offset + byteLength u) v := by
  induction u generalizing offset with
  | nil => rfl
  | cons c u ih =>
    rw [List.cons_append, startsOnto_cons, startsOnto_cons, ih, List.append_assoc, byteLength_cons,
      Nat.add_assoc]

/-- As many lines start as there are line feeds. -/
lemma length_startsOnto (offset : Nat) (cs : List Char) :
    (startsOnto [] offset cs).length = cs.count '\n' := by
  induction cs generalizing offset with
  | nil => rfl
  | cons c cs ih =>
    rw [startsOnto_cons, List.length_append, ih, List.count_cons, Nat.add_comm]
    split <;> simp_all

/-- Lines start behind the offset where a text begins, and not behind its end. -/
lemma mem_startsOnto {offset : Nat} {cs : List Char} {s : UInt32}
    (hlen : offset + byteLength cs < UInt32.size) (h : s ∈ startsOnto [] offset cs) :
    offset < s.toNat ∧ s.toNat ≤ offset + byteLength cs := by
  induction cs generalizing offset with
  | nil => cases h
  | cons c cs ih =>
    have hpos := c.utf8Size_pos
    rw [byteLength_cons] at hlen ⊢
    rw [startsOnto_cons, List.mem_append] at h
    rcases h with h | h
    · split at h
      · rw [List.mem_singleton.1 h, clampOffset_of_lt (by omega),
          UInt32.toNat_ofNat_of_lt' (by omega)]
        omega
      · cases h
    · have hs := ih (by omega) h
      omega

/-- The lines of a text start in increasing order. -/
lemma pairwise_starts {source : List Char} (hlen : byteLength source < UInt32.size) :
    (ofText source).starts.Pairwise (· < ·) := by
  have hrest : ∀ {offset : Nat} {cs : List Char}, offset + byteLength cs < UInt32.size →
      (startsOnto [] offset cs).Pairwise (· < ·) := by
    intro offset cs hlen
    induction cs generalizing offset with
    | nil => exact .nil
    | cons c cs ih =>
      rw [byteLength_cons, ← Nat.add_assoc] at hlen
      have htail := ih hlen
      rw [startsOnto_cons]
      split
      next =>
        refine List.pairwise_cons.2 ⟨fun s hs => ?_, htail⟩
        obtain ⟨hs, -⟩ := mem_startsOnto (by omega) hs
        rwa [clampOffset_of_lt (by omega), UInt32.lt_iff_toNat_lt,
          UInt32.toNat_ofNat_of_lt' (by omega)]
      next => exact htail
  rw [ofText, startsOnto_eq]
  refine List.pairwise_cons.2 ⟨fun s hs => ?_, hrest (by omega)⟩
  exact UInt32.lt_iff_toNat_lt.2 (mem_startsOnto (by omega) hs).1

/-- What is at most a value is less or equal to it. -/
lemma countP_le (values : List UInt32) (x : UInt32) :
    values.countP (· ≤ x) = values.countP (· < x) + values.count x := by
  induction values with
  | nil => rfl
  | cons y values ih =>
    simp only [List.countP_cons, List.count_cons, ih, decide_eq_true_eq, beq_iff_eq]
    grind

/-- The line of an offset is the last one that starts at or before it. -/
lemma lineIndex_eq_countP {t : LineTable} (h : t.starts.Pairwise (· < ·)) (offset : UInt32) :
    t.lineIndex offset = t.starts.countP (· ≤ offset) - 1 := by
  have hnodup : t.starts.Nodup := h.imp UInt32.ne_of_lt
  rw [countP_le, lineIndex, search]
  by_cases hx : offset ∈ t.starts
  · rw [if_pos (getElem?_countP_lt (h.imp UInt32.le_of_lt) hx), hnodup.count, if_pos hx]
    rfl
  · rw [if_neg fun heq => hx (List.mem_of_getElem? heq), List.count_eq_zero.2 hx]
    rfl

/-- The lines that start up to an offset are the line feeds before it. -/
lemma countP_startsOnto {offset : Nat} {cs : List Char} {o : UInt32}
    (hlen : offset + byteLength cs < UInt32.size) :
    (startsOnto [] offset cs).countP (· ≤ o) =
      ((utf8Bytes cs).take (o.toNat - offset)).count 10 := by
  induction cs generalizing offset with
  | nil => simp [startsOnto, utf8Bytes]
  | cons c cs ih =>
    rw [byteLength_cons, ← Nat.add_assoc] at hlen
    have htail := ih hlen
    rw [Nat.sub_add_eq] at htail
    rw [startsOnto_cons, List.countP_append, htail, utf8Bytes_cons, List.take_append,
      List.count_append, String.length_utf8EncodeChar]
    congr 1
    -- only a line feed starts a line, behind its single byte
    split
    next hc =>
      subst hc
      have hencode : String.utf8EncodeChar '\n' = [10] := rfl
      have hstart : clampOffset (offset + '\n'.utf8Size) ≤ o ↔ offset + 1 ≤ o.toNat := by
        rw [clampOffset_of_lt (by omega), UInt32.le_iff_toNat_le,
          UInt32.toNat_ofNat_of_lt' (by omega)]
        rfl
      simp only [List.countP_singleton, decide_eq_true_eq, hstart, hencode]
      by_cases hle : offset + 1 ≤ o.toNat
      · rw [if_pos hle, List.take_of_length_le (by rw [List.length_singleton]; omega)]
        rfl
      · rw [if_neg hle, show o.toNat - offset = 0 by omega]
        rfl
    next hc =>
      have hcount := (List.take_sublist (o.toNat - offset) (String.utf8EncodeChar c)).count_le 10
      rw [count_utf8EncodeChar, if_neg hc] at hcount
      rw [Nat.le_zero.1 hcount]
      rfl

/-- The index of the line that holds an offset is the number of line feeds in the bytes before
it. -/
theorem lineIndex_ofText {source : List Char} (hlen : byteLength source < UInt32.size)
    (o : UInt32) :
    (ofText source).lineIndex o = ((utf8Bytes source).take o.toNat).count 10 := by
  rw [← Nat.zero_add (byteLength source)] at hlen
  have hfirst : List.countP (· ≤ o) [0].reverse = 1 := by simp
  rw [lineIndex_eq_countP (pairwise_starts (by omega)), ofText, startsOnto_eq, List.countP_append,
    countP_startsOnto hlen, hfirst, Nat.add_sub_cancel_left, Nat.sub_zero]

/-- There are no more line feeds than bytes. -/
lemma lineIndex_le {source : List Char} (hlen : byteLength source < UInt32.size) (o : UInt32) :
    (ofText source).lineIndex o ≤ byteLength source := by
  rw [lineIndex_ofText hlen, ← length_utf8Bytes]
  exact Nat.le_trans List.count_le_length (List.length_take_le' _ _)

end LineTable

end ExprFront
