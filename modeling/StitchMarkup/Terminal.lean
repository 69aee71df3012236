import StitchMarkup.Document.Edit

/-!
Documents in colour on a terminal. Every piece is painted with an escape sequence of its own and
every line ends with one that resets the colour, so the text itself is written out unchanged.
-/

namespace StitchMarkup

namespace TokenKind

/-- The parameters of the escape sequence that sets the look of a kind. -/
def rendition : TokenKind → List Char
  | .header => ['1', ';', '3', '4']
  | .tag => ['3', '5']
  | .stitchName => ['4', ';', '3', '6']
  | .label => ['3', '3']
  | .number | .string => ['3', '2']
  | .word => ['3', '6']
  | .arrow => ['1', ';', '3', '5']
  | .comment => ['2']
  | .error => ['3', '1']
  | .plain => ['0']

end TokenKind

namespace Terminal

def setRendition (parameters : List Char) : List Char :=
  ['\x1b', '['] ++ parameters ++ ['m']

def paintPiece (piece : Piece) : List Char :=
  setRendition piece.kind.rendition ++ piece.text

def paintLine (line : Line) : List Char :=
  line.pieces.flatMap paintPiece ++ setRendition ['0'] ++ ['\n']

def paint (text : String) : String :=
  String.ofList ((Document.load {} text).document.lines.flatMap paintLine)

inductive InputError where
  | notUtf8
deriving DecidableEq, Repr

namespace InputError

def message : InputError → String
  | .notUtf8 =>
      "failed to read input: Error \x7b kind: InvalidData, message: \"stream did not contain " ++
        "valid UTF-8\" \x7d"

end InputError

/-- Paints a text given by its bytes. Overlong forms, surrogates and truncated characters are
no UTF-8. -/
def paintBytes (bytes : ByteArray) : Except InputError String :=
  match String.fromUTF8? bytes with
  | some text => .ok (paint text)
  | none => .error .notUtf8

end Terminal

end StitchMarkup
