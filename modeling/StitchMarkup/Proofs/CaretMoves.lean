import StitchMarkup.Proofs.ByteRuns

/-!
Sequences of moves. A host that lexes by itself may move ahead in several ways, go back over some
characters and set the width of tabs, in any order. A cursor counts in bytes, while it goes back
over characters of one to four bytes, so each move relies on the one before it to have ended
between two characters. No sequence of moves meets a fault or loses a part of the line, and going
back undoes every way to move ahead.
-/

namespace StitchMarkup

instance (text : List Char) (offset : Nat) : Decidable (IsBoundary text offset) :=
  decidable_of_iff (byteLength (Cut.bytes offset text).taken = offset)
    ⟨fun hsize => ⟨_, _, (Cut.whole_bytes offset text).symm, hsize.symm⟩, by
      rintro ⟨before, after, rfl, rfl⟩
      simp⟩

namespace Stride

/-- A number of bytes may go past the end of the text but must not end inside a character. -/
def Fits (text : List Char) : Stride → Prop
  | .bytes size => IsBoundary text size ∨ byteLength text ≤ size
  | _ => True

instance (text : List Char) : DecidablePred (Fits text)
  | .bytes size => inferInstanceAs (Decidable (IsBoundary text size ∨ byteLength text ≤ size))
  | .next | .tries _ _ | .blanks | .toEnd => .isTrue trivial

end Stride

@[simp] theorem sliceTo_append (before after : List Char) :
    sliceTo (byteLength before) (before ++ after) = .ok before := by
  simp [sliceTo]

theorem Checked.sumSizes_eq {limit : Nat} {text : List Char} {total : Nat}
    (h : total + byteLength text ≤ limit) :
    sumSizes limit text total = .ok (total + byteLength text) := by
  induction text generalizing total with
  | nil => rfl
  | cons c text ih =>
      rw [byteLength_cons] at h
      rw [sumSizes, Checked.add_of_le (by omega), Checked.ok_bind, ih (by omega), byteLength_cons,
        Nat.add_assoc]

namespace ByteCursor

/-- All sizes past the end of the line lead to the end. -/
theorem advance_eq_of_le {cursor : ByteCursor} {first second : Nat}
    (hfirst : byteLength cursor.line ≤ cursor.offset + first)
    (hsecond : byteLength cursor.line ≤ cursor.offset + second) (limit : Nat) :
    cursor.advance limit first = cursor.advance limit second := by
  rw [advance_eq, advance_eq, Nat.min_eq_right hfirst, Nat.min_eq_right hsecond]

/-- The cursor stands in a line between the two parts of it. -/
structure Keeps (cursor : ByteCursor) (line before after : List Char) : Prop where
  line_eq : cursor.line = line
  offset_le : cursor.offset ≤ byteLength line
  boundary : IsBoundary line cursor.offset
  consumed : cursor.consumed = .ok before
  rest : cursor.rest = .ok after
  whole : before ++ after = line

end ByteCursor

/-- A size past the end of the text takes everything. -/
theorem Cut.bytes_of_le {size : Nat} {text : List Char} (h : byteLength text ≤ size) :
    bytes size text = everything text := by
  induction text generalizing size with
  | nil => rfl
  | cons c text ih =>
      rw [byteLength_cons] at h
      rw [bytes, if_pos (by omega), ih (by omega)]
      rfl

namespace Caret

/-- Each number of bytes to move over fits the text before the caret at that time. -/
def Admits (caret : Caret) : List Move → Prop
  | [] => True
  | .ahead stride :: moves => stride.Fits caret.rest ∧ (caret.ahead stride).Admits moves
  | move :: moves => (caret.move move).Admits moves

instance decidableAdmits (caret : Caret) : (moves : List Move) → Decidable (caret.Admits moves)
  | [] => .isTrue trivial
  | .ahead stride :: moves =>
      have := decidableAdmits (caret.ahead stride) moves
      inferInstanceAs (Decidable (stride.Fits caret.rest ∧ (caret.ahead stride).Admits moves))
  | .back count :: moves => decidableAdmits (caret.rewind count) moves
  | .tabWidth width :: moves => decidableAdmits (caret.withTabWidth width) moves

variable {caret : Caret} {limit : Nat} {cut : Cut}

/-- Every way to move ahead takes some of the text before the caret off its front. -/
theorem ahead_eq_take (caret : Caret) (stride : Stride) :
    ∃ cut, cut.whole = caret.rest ∧ caret.ahead stride = caret.take cut := by
  cases stride with
  | next => exact ⟨_, Cut.whole_one caret.rest, rfl⟩
  | bytes size => exact ⟨_, Cut.whole_bytes size caret.rest, rfl⟩
  | tries pattern consume =>
      cases consume with
      | false => exact ⟨_, Cut.whole_nothing caret.rest, rfl⟩
      | true =>
          cases hcut : pattern.cut? caret.rest with
          | none =>
              refine ⟨_, Cut.whole_nothing caret.rest, ?_⟩
              rw [take_nothing, ahead, if_pos rfl, take?, hcut]
              rfl
          | some cut =>
              refine ⟨cut, Pattern.whole_of_cut? hcut, ?_⟩
              rw [ahead, if_pos rfl, take?, hcut]
              rfl
  | blanks => exact ⟨_, Cut.whole_run Form.isBlank caret.rest, rfl⟩
  | toEnd => exact ⟨_, Cut.whole_everything caret.rest, rfl⟩

theorem consumed_take (caret : Caret) (cut : Cut) :
    (caret.take cut).consumed = caret.consumed ++ cut.taken := by
  simp [consumed, take]

theorem rewind_take (h : cut.whole = caret.rest) :
    (caret.take cut).rewind cut.taken.length = caret := by
  cases caret
  simp_all [rewind, take, Cut.whole]

theorem length_consumed_rewind (caret : Caret) (count : Nat) :
    (caret.rewind count).consumed.length = caret.consumed.length - count := by
  simp [rewind, consumed]

theorem line_rewind (caret : Caret) (count : Nat) : (caret.rewind count).line = caret.line := by
  rw [line, line, consumed, consumed, rewind, ← List.append_assoc, ← List.reverse_append,
    List.take_append_drop]

theorem line_move (caret : Caret) (move : Move) : (caret.move move).line = caret.line := by
  cases move with
  | ahead stride =>
      obtain ⟨cut, hcut, hahead⟩ := caret.ahead_eq_take stride
      rw [Caret.move, hahead, line_take hcut]
  | back count => exact caret.line_rewind count
  | tabWidth width => rfl

theorem line_moves (caret : Caret) (moves : List Move) : (caret.moves moves).line = caret.line := by
  induction moves generalizing caret with
  | nil => rfl
  | cons move moves ih => exact (ih (caret.move move)).trans (caret.line_move move)

@[simp] theorem toCursor_consumed (caret : Caret) :
    caret.toCursor.consumed = .ok caret.consumed := by
  simp only [ByteCursor.consumed, toCursor, position_eq, line, sliceTo_append]

theorem toCursor_keeps (caret : Caret) :
    caret.toCursor.Keeps caret.line caret.consumed caret.rest where
  line_eq := rfl
  offset_le := caret.toCursor_isBoundary.le
  boundary := caret.toCursor_isBoundary
  consumed := caret.toCursor_consumed
  rest := caret.toCursor_rest
  whole := rfl

theorem toCursor_advance_past {size : Nat} (hsize : byteLength caret.rest ≤ size) (limit : Nat) :
    caret.toCursor.advance limit size = .ok caret.takeAll.toCursor := by
  have hline := caret.byteLength_line
  have hpast : byteLength caret.line ≤ caret.position + size := by omega
  have hend : caret.toCursor.advance limit (byteLength caret.rest) = .ok caret.takeAll.toCursor :=
    toCursor_advance (Cut.whole_everything caret.rest) limit
  rw [← hend]
  exact ByteCursor.advance_eq_of_le hpast (Nat.le_of_eq hline) limit

theorem toCursor_advance_bytes {size : Nat} (hfits : (Stride.bytes size).Fits caret.rest)
    (limit : Nat) : caret.toCursor.advance limit size = .ok (caret.takeBytes size).toCursor := by
  rcases hfits with ⟨before, after, hrest, rfl⟩ | hsize
  · have hmove := toCursor_advance (Cut.whole_bytes (byteLength before) caret.rest) limit
    have htaken : (Cut.bytes (byteLength before) caret.rest).taken = before := by
      rw [hrest, Cut.bytes_append]
    rw [htaken] at hmove
    exact hmove
  · rw [toCursor_advance_past hsize, takeBytes, Cut.bytes_of_le hsize]
    rfl

theorem toCursor_ahead {stride : Stride} (hfits : stride.Fits caret.rest) (limit : Nat) :
    caret.toCursor.ahead limit stride = .ok (caret.ahead stride).toCursor := by
  simp only [ByteCursor.ahead, toCursor_rest, Checked.ok_bind]
  cases stride with
  | next =>
      rw [ahead, ← toCursor_advanceOne caret limit, ByteCursor.advanceOne, toCursor_rest]
      cases caret.rest with
      | nil => rfl
      | cons c rest => rfl
  | bytes size => exact toCursor_advance_bytes hfits limit
  | tries pattern consume =>
      rw [Stride.measure, Pattern.measure_eq]
      cases consume with
      | false => rfl
      | true =>
          rw [ahead, if_pos rfl, take?]
          cases hcut : pattern.cut? caret.rest with
          | none => rfl
          | some cut => exact toCursor_advance (Pattern.whole_of_cut? hcut) limit
  | blanks =>
      rw [Stride.measure, Pattern.measure_eq, Form.blanks, Pattern.cut?_run]
      exact toCursor_advance (Cut.whole_run Form.isBlank caret.rest) limit
  | toEnd => exact toCursor_advance_past (Nat.le_refl _) limit

variable (hlimit : byteLength caret.line ≤ limit)

include hlimit

/-- What is passed has no more bytes than the line, so neither the sum of its sizes nor the
difference can fail. -/
theorem toCursor_back (count : Nat) :
    caret.toCursor.back limit count = .ok (caret.rewind count).toCursor := by
  have hpassed : byteLength (caret.passed.take count) + byteLength (caret.passed.drop count) =
      caret.position := by
    rw [← byteLength_append, List.take_append_drop]
    rfl
  have hposition := caret.byteLength_line
  have hsizes : Checked.sumSizes limit (caret.passed.take count) 0 =
      .ok (byteLength (caret.passed.take count)) := by
    rw [Checked.sumSizes_eq (by omega), Nat.zero_add]
  have hback : Checked.sub caret.position (byteLength (caret.passed.take count)) =
      .ok (caret.rewind count).position := by
    rw [Checked.sub_of_le (by omega), ← hpassed, Nat.add_sub_cancel_left]
    rfl
  have hline : (caret.rewind count).line = caret.line := caret.line_rewind count
  rw [ByteCursor.back, toCursor_consumed, Checked.ok_bind, consumed, List.reverse_reverse, hsizes,
    Checked.ok_bind]
  simp only [toCursor, hback, hline, Checked.ok_bind, Checked.pure_eq_ok]
  rfl

/-- Going back over what was taken leads to the place where it was taken. -/
theorem toCursor_back_ahead (stride : Stride) :
    ∃ taken, (caret.ahead stride).consumed = caret.consumed ++ taken ∧
      (caret.ahead stride).rewind taken.length = caret ∧
      (caret.ahead stride).toCursor.back limit taken.length = .ok caret.toCursor := by
  obtain ⟨cut, hcut, hahead⟩ := caret.ahead_eq_take stride
  have hback : (caret.ahead stride).rewind cut.taken.length = caret := by
    rw [hahead, rewind_take hcut]
  have hline : (caret.ahead stride).line = caret.line := caret.line_move (.ahead stride)
  have hbound : byteLength (caret.ahead stride).line ≤ limit := by
    rw [hline]
    exact hlimit
  refine ⟨cut.taken, ?_, hback, ?_⟩
  · rw [hahead, consumed_take]
  · rw [toCursor_back hbound, hback]

/-- A move that fits keeps the cursor where the caret is. -/
theorem toCursor_move {move : Move} {moves : List Move} (hmoves : caret.Admits (move :: moves)) :
    caret.toCursor.move limit move = .ok (caret.move move).toCursor ∧
      (caret.move move).Admits moves := by
  cases move with
  | ahead stride => exact ⟨toCursor_ahead hmoves.1 limit, hmoves.2⟩
  | back count => exact ⟨toCursor_back hlimit count, hmoves⟩
  | tabWidth width => exact ⟨rfl, hmoves⟩

theorem toCursor_moves {moves : List Move} (hmoves : caret.Admits moves) :
    caret.toCursor.moves limit moves = .ok (caret.moves moves).toCursor := by
  induction moves generalizing caret with
  | nil => rfl
  | cons move moves ih =>
      obtain ⟨hmove, hlater⟩ := toCursor_move hlimit hmoves
      have hline : byteLength (caret.move move).line ≤ limit := by
        rw [caret.line_move move]
        exact hlimit
      rw [ByteCursor.moves, List.foldlM_cons, hmove]
      exact ih hline hlater

end Caret

/-- A cursor that counts in bytes goes along with the caret of a host through all of its moves
without a fault. It always stands between two characters of the line, which does not change. Going
back over `count` characters leaves that many fewer of them passed, down to none, and undoes every
way to move ahead. Any number of bytes past the end of the line leads to its end. -/
theorem cursor_follows_moves (line : List Char) (tabWidth limit : Nat) (moves : List Move)
    (hlimit : byteLength line ≤ limit) (hmoves : (Caret.atStart line tabWidth).Admits moves) :
    let caret := (Caret.atStart line tabWidth).moves moves
    let cursor := caret.toCursor
    (ByteCursor.atStart line tabWidth).moves limit moves = .ok cursor ∧
      cursor.Keeps line caret.consumed caret.rest ∧
      (∀ count, cursor.back limit count = .ok (caret.rewind count).toCursor ∧
        (caret.rewind count).consumed.length = caret.consumed.length - count) ∧
      (∀ stride : Stride, stride.Fits caret.rest →
        cursor.ahead limit stride = .ok (caret.ahead stride).toCursor ∧
          ∃ taken, (caret.ahead stride).consumed = caret.consumed ++ taken ∧
            (caret.ahead stride).rewind taken.length = caret ∧
            (caret.ahead stride).toCursor.back limit taken.length = .ok cursor) ∧
      ∀ size, byteLength caret.rest ≤ size →
        cursor.ahead limit (.bytes size) = .ok cursor.atEnd ∧
          cursor.atEnd.offset = byteLength line := by
  intro caret cursor
  have hline : caret.line = line := (Caret.atStart line tabWidth).line_moves moves
  have hbound : byteLength caret.line ≤ limit := by
    rw [hline]
    exact hlimit
  have hkeeps : cursor.Keeps caret.line caret.consumed caret.rest := caret.toCursor_keeps
  rw [hline] at hkeeps
  refine ⟨Caret.toCursor_moves hlimit hmoves, hkeeps, ?_, ?_, ?_⟩
  · intro count
    exact ⟨Caret.toCursor_back hbound count, caret.length_consumed_rewind count⟩
  · intro stride hfits
    exact ⟨Caret.toCursor_ahead hfits limit, Caret.toCursor_back_ahead hbound stride⟩
  · intro size hsize
    have hfits : (Stride.bytes size).Fits caret.rest := Or.inr hsize
    have hahead : cursor.ahead limit (.bytes size) = .ok (caret.takeBytes size).toCursor :=
      Caret.toCursor_ahead hfits limit
    have hall : caret.takeBytes size = caret.takeAll := congrArg caret.take (Cut.bytes_of_le hsize)
    refine ⟨?_, congrArg byteLength hline⟩
    rw [hahead, hall, Caret.toCursor_takeAll]

/-- The line has characters of one, two and four bytes, and its length is the largest number. -/
theorem cursor_follows_moves_wide :
    let line := "  é🧵x".toList
    let moves : List Move := [.ahead .blanks, .tabWidth 0, .ahead (.bytes 6), .back 1,
      .ahead (.tries Form.name true), .ahead .next, .ahead (.bytes 9), .back 9, .ahead .toEnd]
    byteLength line ≤ 9 ∧ (Caret.atStart line 4).Admits moves ∧
      (ByteCursor.atStart line 4).moves 9 moves = .ok ⟨line, 9, 0⟩ :=
  ⟨by decide, by decide, (cursor_follows_moves _ 4 9 _ (by decide) (by decide)).1⟩

end StitchMarkup
