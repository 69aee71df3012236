/-!
Lines and what they measure. A host addresses a line by byte offsets into its UTF-8 form, while
everything inside the library cuts lists of characters. The byte length is the only bridge: an
offset is the byte length of the text before it, so it can never fall inside a character. Columns
count the leading run of spaces and tabs and nothing else, so the column of the first other
character depends on the line and the tab width alone.
-/

namespace StitchMarkup

/-- The number of bytes of a text in UTF-8. -/
def byteLength : List Char → Nat
  | [] => 0
  | c :: text => c.utf8Size + byteLength text

@[simp] theorem byteLength_nil : byteLength [] = 0 := rfl

@[simp] theorem byteLength_cons (c : Char) (text : List Char) :
    byteLength (c :: text) = c.utf8Size + byteLength text := rfl

@[simp] theorem byteLength_append (first second : List Char) :
    byteLength (first ++ second) = byteLength first + byteLength second := by
  induction first with
  | nil => simp
  | cons c first ih =>
      simp only [List.cons_append, byteLength_cons, ih]
      omega

namespace Column

/-- The column after a tab that starts at `column`: the next multiple of the tab width. With
stops of width zero there is nowhere to go and the column stays. -/
def nextStop (tabWidth column : Nat) : Nat :=
  column + (tabWidth - column % max tabWidth 1)

/-- The column reached by the leading spaces and tabs of a text that starts at `column`. -/
def afterBlanks (tabWidth column : Nat) : List Char → Nat
  | ' ' :: rest => afterBlanks tabWidth (column + 1) rest
  | '\t' :: rest => afterBlanks tabWidth (nextStop tabWidth column) rest
  | _ => column

def indentation (tabWidth : Nat) (line : List Char) : Nat :=
  afterBlanks tabWidth 0 line

end Column

namespace Text

/-- Splits a text at its line breaks, which are dropped. One carriage return right before a line
feed belongs to the break, and one without a line feed is an ordinary character, also at the very
end. A final line feed starts no further line. -/
def splitLines : List Char → List (List Char)
  | [] => []
  | '\n' :: rest => [] :: splitLines rest
  | '\r' :: '\n' :: rest => [] :: splitLines rest
  | c :: rest =>
      match splitLines rest with
      | [] => [[c]]
      | line :: lines => (c :: line) :: lines

def lines (text : String) : List String :=
  (splitLines text.toList).map String.ofList

end Text

end StitchMarkup
