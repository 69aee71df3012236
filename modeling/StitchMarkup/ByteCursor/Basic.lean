import StitchMarkup.Caret
import StitchMarkup.Checked

/-!
A cursor that knows its place as an offset into the bytes of its line. It looks at the line only
by slicing it there, finds the size of a match by taking sizes from one another and goes back
over characters by summing up their sizes, so each of its moves can meet a fault. All operations
that compute a number take the largest one a host can count to.
-/

namespace StitchMarkup

/-- The size of the match of a pattern, found by slicing the text after each part of it. The size
of a run is the difference of the sizes of the text with it and without it. -/
def Pattern.measure : Pattern → List Char → Checked (Option Nat)
  | [], _ => return some 0
  | .one _ :: _, [] => return none
  | .one p :: atoms, c :: rest =>
      if p c then do
        let later ← measure atoms (← sliceFrom c.utf8Size (c :: rest))
        return later.map (c.utf8Size + ·)
      else return none
  | .run p :: atoms, text => do
      let size ← Checked.sub (byteLength text) (byteLength (text.dropWhile p))
      let later ← measure atoms (← sliceFrom size text)
      return later.map (size + ·)

/-- The number of bytes to move over, if there is anything to do. -/
def Stride.measure : Stride → List Char → Checked (Option Nat)
  | .next, text => return text.head?.map Char.utf8Size
  | .bytes size, _ => return some size
  | .tries pattern consume, text => do
      let size ← pattern.measure text
      return if consume then size else none
  | .blanks, text => Form.blanks.measure text
  | .toEnd, text => return some (byteLength text)

/-- The column reached by leading blanks where no column is above the limit. -/
def Column.checkedAfterBlanks (limit tabWidth column : Nat) : List Char → Checked Nat
  | ' ' :: rest => do
      checkedAfterBlanks limit tabWidth (← Checked.add limit column 1) rest
  | '\t' :: rest => do
      let width ← Checked.sub tabWidth (column % max tabWidth 1)
      checkedAfterBlanks limit tabWidth (← Checked.add limit column width) rest
  | _ => return column

structure ByteCursor where
  line : List Char
  offset : Nat
  tabWidth : Nat
deriving DecidableEq, Repr

namespace ByteCursor

def atStart (line : List Char) (tabWidth : Nat) : ByteCursor := ⟨line, 0, tabWidth⟩

/-- The cursor at the end of its line. -/
def atEnd (cursor : ByteCursor) : ByteCursor := { cursor with offset := byteLength cursor.line }

def consumed (cursor : ByteCursor) : Checked (List Char) := sliceTo cursor.offset cursor.line

def rest (cursor : ByteCursor) : Checked (List Char) := sliceFrom cursor.offset cursor.line

/-- The column of the first character of the line that is no blank. -/
def indentation (limit : Nat) (cursor : ByteCursor) : Checked Nat :=
  Column.checkedAfterBlanks limit cursor.tabWidth 0 cursor.line

/-- Moves over a number of bytes, at most up to the end of the line. The sum stops at the largest
number. -/
def advance (limit : Nat) (cursor : ByteCursor) (size : Nat) : Checked ByteCursor := do
  -- A host that stores the line can count its bytes, however small the limit.
  let largest := max limit (byteLength cursor.line)
  let offset := min (min (cursor.offset + size) largest) (byteLength cursor.line)
  let _ ← sliceFrom offset cursor.line
  return { cursor with offset := offset }

/-- A sum that stops at the largest number is past the end of the line already. -/
theorem advance_eq (limit : Nat) (cursor : ByteCursor) (size : Nat) :
    cursor.advance limit size = do
      let offset := min (cursor.offset + size) (byteLength cursor.line)
      let _ ← sliceFrom offset cursor.line
      return { cursor with offset := offset } := by
  have hlargest : min (max limit (byteLength cursor.line)) (byteLength cursor.line) =
      byteLength cursor.line := Nat.min_eq_right (Nat.le_max_right _ _)
  simp only [advance, Nat.min_assoc, hlargest]

/-- Moves over a match of the pattern, where there is one at the cursor. -/
def advance? (limit : Nat) (cursor : ByteCursor) (pattern : Pattern) :
    Checked (Option ByteCursor) := do
  match ← pattern.measure (← cursor.rest) with
  | some size => return some (← cursor.advance limit size)
  | none => return none

def advanceOne (limit : Nat) (cursor : ByteCursor) : Checked ByteCursor := do
  match ← cursor.rest with
  | [] => return cursor
  | c :: _ => cursor.advance limit c.utf8Size

def advanceBlanks (limit : Nat) (cursor : ByteCursor) : Checked ByteCursor := do
  return (← cursor.advance? limit Form.blanks).getD cursor

def ahead (limit : Nat) (cursor : ByteCursor) (stride : Stride) : Checked ByteCursor := do
  match ← stride.measure (← cursor.rest) with
  | some size => cursor.advance limit size
  | none => return cursor

/-- Goes back over a number of characters, at most up to the start of the line. -/
def back (limit : Nat) (cursor : ByteCursor) (count : Nat) : Checked ByteCursor := do
  let size ← Checked.sumSizes limit ((← cursor.consumed).reverse.take count) 0
  return { cursor with offset := ← Checked.sub cursor.offset size }

def move (limit : Nat) (cursor : ByteCursor) : Move → Checked ByteCursor
  | .ahead stride => cursor.ahead limit stride
  | .back count => cursor.back limit count
  | .tabWidth width => return { cursor with tabWidth := width }

def moves (limit : Nat) (cursor : ByteCursor) (moves : List Move) : Checked ByteCursor :=
  moves.foldlM (move limit) cursor

end ByteCursor

end StitchMarkup
