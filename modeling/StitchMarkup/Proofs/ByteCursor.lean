import StitchMarkup.ByteCursor.Basic
import StitchMarkup.Proofs.CaretRuns

/-!
Lines addressed by bytes. A cursor that stands where a caret does meets no fault when it moves
over a match, since the size of every match ends between two characters, and none when it goes
through the indentation, unless a column is too large to be counted.
-/

namespace StitchMarkup

/-- The offset lies between two characters of the text or at one of its ends. -/
def IsBoundary (text : List Char) (offset : Nat) : Prop :=
  ∃ before after, text = before ++ after ∧ offset = byteLength before

theorem IsBoundary.le {text : List Char} {offset : Nat} (h : IsBoundary text offset) :
    offset ≤ byteLength text := by
  obtain ⟨before, after, rfl, rfl⟩ := h
  rw [byteLength_append]
  exact Nat.le_add_right _ _

@[simp] theorem sliceFrom_append (before after : List Char) :
    sliceFrom (byteLength before) (before ++ after) = .ok after := by
  simp [sliceFrom]

namespace Pattern

/-- Each part of a match ends between two characters, and together they have its size. -/
theorem measure_eq (pattern : Pattern) (text : List Char) :
    pattern.measure text = .ok ((pattern.cut? text).map fun cut => byteLength cut.taken) := by
  fun_induction cut? pattern text with
  | case1 text => rfl
  | case2 => rfl
  | case3 p atoms c rest hc ih =>
      have hslice : sliceFrom c.utf8Size (c :: rest) = .ok rest := sliceFrom_append [c] rest
      rw [measure, if_pos hc, hslice, Checked.ok_bind, ih]
      cases cut? atoms rest with
      | none => rfl
      | some cut => simp [Cut.after]
  | case4 p atoms c rest hc => rw [measure, if_neg hc, Checked.pure_eq_ok, Option.map_none]
  | case5 p atoms text ih =>
      have htext : text.takeWhile p ++ text.dropWhile p = text := List.takeWhile_append_dropWhile
      have hlength := congrArg byteLength htext
      rw [byteLength_append] at hlength
      have hsize : Checked.sub (byteLength text) (byteLength (text.dropWhile p)) =
          .ok (byteLength (text.takeWhile p)) := by
        rw [Checked.sub_of_le (by omega), ← hlength, Nat.add_sub_cancel]
      have hslice : sliceFrom (byteLength (text.takeWhile p)) text = .ok (text.dropWhile p) := by
        have hcut := sliceFrom_append (text.takeWhile p) (text.dropWhile p)
        rw [htext] at hcut
        exact hcut
      rw [measure, hsize, Checked.ok_bind, hslice, Checked.ok_bind, ih]
      cases cut? atoms (text.dropWhile p) with
      | none => rfl
      | some cut => simp [Cut.after]

end Pattern

namespace Column

theorem le_afterBlanks (tabWidth column : Nat) (text : List Char) :
    column ≤ afterBlanks tabWidth column text := by
  fun_induction afterBlanks tabWidth column text with
  | case1 column rest ih => omega
  | case2 column rest ih => exact Nat.le_trans (Nat.le_add_right column _) ih
  | case3 => exact Nat.le_refl _

/-- What is left up to the next tab stop is never negative, tabs of width zero included. -/
theorem mod_le_tabWidth (tabWidth column : Nat) : column % max tabWidth 1 ≤ tabWidth := by
  rcases Nat.eq_zero_or_pos tabWidth with rfl | hpos
  · simp [Nat.mod_one]
  · rw [Nat.max_eq_left hpos]
    exact Nat.le_of_lt (Nat.mod_lt column hpos)

/-- A column above the limit is met on the way if the last one is above it. -/
theorem checkedAfterBlanks_eq_ite {limit tabWidth column : Nat} {text : List Char}
    (hcolumn : column ≤ limit) :
    checkedAfterBlanks limit tabWidth column text =
      if afterBlanks tabWidth column text ≤ limit then .ok (afterBlanks tabWidth column text)
      else .error .overflow := by
  fun_induction afterBlanks tabWidth column text with
  | case1 column rest ih =>
      have hlater := le_afterBlanks tabWidth (column + 1) rest
      rw [checkedAfterBlanks]
      by_cases hnext : column + 1 ≤ limit
      · rw [Checked.add_of_le hnext, Checked.ok_bind, ih hnext]
      · rw [Checked.add_of_lt (Nat.lt_of_not_le hnext), if_neg (by omega)]
        rfl
  | case2 column rest ih =>
      have hlater := le_afterBlanks tabWidth (nextStop tabWidth column) rest
      rw [checkedAfterBlanks, Checked.sub_of_le (mod_le_tabWidth tabWidth column),
        Checked.ok_bind]
      by_cases hnext : nextStop tabWidth column ≤ limit
      · rw [Checked.add_of_le hnext, Checked.ok_bind]
        exact ih hnext
      · rw [Checked.add_of_lt (Nat.lt_of_not_le hnext), if_neg (by omega)]
        rfl
  | case3 text column hspace htab =>
      rw [checkedAfterBlanks, if_pos hcolumn]
      · rfl
      · exact hspace
      · exact htab

end Column

namespace Caret

/-- The cursor that stands where the caret does. -/
def toCursor (caret : Caret) : ByteCursor := ⟨caret.line, caret.position, caret.tabWidth⟩

theorem position_eq (caret : Caret) : caret.position = byteLength caret.consumed :=
  (byteLength_reverse caret.passed).symm

theorem toCursor_isBoundary (caret : Caret) :
    IsBoundary caret.toCursor.line caret.toCursor.offset :=
  ⟨caret.consumed, caret.rest, rfl, caret.position_eq⟩

theorem exists_toCursor_eq {cursor : ByteCursor} (h : IsBoundary cursor.line cursor.offset) :
    ∃ caret : Caret, caret.toCursor = cursor := by
  obtain ⟨before, after, hline, hoffset⟩ := h
  refine ⟨⟨before.reverse, after, cursor.tabWidth⟩, ?_⟩
  cases cursor
  simp_all [toCursor, line, consumed, position]

theorem toCursor_offset_eq_zero_iff {caret : Caret} :
    caret.toCursor.offset = 0 ↔ caret.isAtStart := by
  rw [isAtStart, List.isEmpty_iff]
  exact byteLength_eq_zero_iff

@[simp] theorem toCursor_rest (caret : Caret) : caret.toCursor.rest = .ok caret.rest := by
  simp only [ByteCursor.rest, toCursor, position_eq, line, sliceFrom_append]

/-- Moving by the size of what a cut takes is moving over it. -/
theorem toCursor_advance {caret : Caret} {cut : Cut} (h : cut.whole = caret.rest) (limit : Nat) :
    caret.toCursor.advance limit (byteLength cut.taken) = .ok (caret.take cut).toCursor := by
  have hposition : caret.position + byteLength cut.taken =
      byteLength (caret.consumed ++ cut.taken) := by
    rw [byteLength_append, position_eq]
  have hline : caret.line = caret.consumed ++ cut.taken ++ cut.rest := by
    rw [line, ← h, Cut.whole, List.append_assoc]
  have hle : caret.position + byteLength cut.taken ≤ byteLength caret.line := by
    rw [hposition, hline, byteLength_append (caret.consumed ++ cut.taken)]
    exact Nat.le_add_right _ _
  have hslice : sliceFrom (caret.position + byteLength cut.taken) caret.line = .ok cut.rest := by
    rw [hposition, hline, sliceFrom_append]
  simp only [ByteCursor.advance_eq, toCursor, Nat.min_eq_left hle, hslice, Checked.ok_bind,
    Checked.pure_eq_ok, line_take h, position_take]
  rfl

@[simp] theorem toCursor_advance? (caret : Caret) (limit : Nat) (pattern : Pattern) :
    caret.toCursor.advance? limit pattern =
      .ok ((pattern.cut? caret.rest).map fun cut => (caret.take cut).toCursor) := by
  rw [ByteCursor.advance?, toCursor_rest, Checked.ok_bind, Pattern.measure_eq, Checked.ok_bind]
  cases hcut : pattern.cut? caret.rest with
  | none => rfl
  | some cut =>
      simp only [Option.map_some, toCursor_advance (Pattern.whole_of_cut? hcut),
        Checked.ok_bind, Checked.pure_eq_ok]

theorem takeOne_of_isAtEnd {caret : Caret} (hend : caret.isAtEnd) : caret.takeOne = caret := by
  have hrest := rest_eq_nil hend
  cases caret
  simp_all [takeOne, take, Cut.one]

@[simp] theorem toCursor_advanceOne (caret : Caret) (limit : Nat) :
    caret.toCursor.advanceOne limit = .ok caret.takeOne.toCursor := by
  have hmove := toCursor_advance (Cut.whole_one caret.rest) limit
  rw [ByteCursor.advanceOne, toCursor_rest, Checked.ok_bind]
  cases hrest : caret.rest with
  | nil => rw [takeOne_of_isAtEnd (List.isEmpty_iff.mpr hrest), Checked.pure_eq_ok]
  | cons c rest =>
      rw [takeOne, ← hmove, hrest]
      rfl

theorem toCursor_indentation_eq_ite (caret : Caret) (limit : Nat) :
    caret.toCursor.indentation limit =
      if caret.indentation ≤ limit then .ok caret.indentation else .error .overflow :=
  Column.checkedAfterBlanks_eq_ite (Nat.zero_le limit)

theorem toCursor_indentation {limit : Nat} {caret : Caret} (h : caret.indentation ≤ limit) :
    caret.toCursor.indentation limit = .ok caret.indentation := by
  rw [toCursor_indentation_eq_ite, if_pos h]

end Caret

end StitchMarkup
