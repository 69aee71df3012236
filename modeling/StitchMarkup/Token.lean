import StitchMarkup.Text

/-!
Tokens and their kinds. The eleven kinds are the whole vocabulary a host sees: it maps each name
onto its own theme and learns nothing else about the markup. A line is lexed into pieces, texts
that follow one another without a gap. A host wants spans of bytes instead, so a token is a piece
placed at the byte length of everything before it.
-/

namespace StitchMarkup

inductive TokenKind where
  | header
  | tag
  | stitchName
  | label
  | number
  | word
  | string
  | arrow
  | comment
  | error
  | plain
deriving DecidableEq, Repr

namespace TokenKind

/-- Every kind, in the order in which hosts number them. -/
def all : List TokenKind :=
  [.header, .tag, .stitchName, .label, .number, .word, .string, .arrow, .comment, .error, .plain]

/-- The name editor themes know the kind by. -/
def themeName : TokenKind → String
  | .header => "header"
  | .tag => "markup-tag"
  | .stitchName => "sectiontag"
  | .label => "markup-label"
  | .number => "literal-arg"
  | .word => "variable-arg"
  | .string => "literal-string"
  | .arrow => "arrow"
  | .comment => "markup-comment"
  | .error => "error"
  | .plain => "none"

/-- The theme name as one capitalised word, which diagnostics use. -/
def debugName : TokenKind → String
  | .header => "Header"
  | .tag => "MarkupTag"
  | .stitchName => "SectionTag"
  | .label => "MarkupLabel"
  | .number => "LiteralArg"
  | .word => "VariableArg"
  | .string => "LiteralString"
  | .arrow => "Arrow"
  | .comment => "MarkupComment"
  | .error => "Error"
  | .plain => "None"

/-- Plain text keeps the host's default look, all else is styled. -/
def isStyled (kind : TokenKind) : Bool := kind != .plain

instance : ToString TokenKind := ⟨themeName⟩

end TokenKind

structure Piece where
  kind : TokenKind
  text : List Char
deriving DecidableEq, Repr

/-- A styled span of a line: the bytes from `start` up to, but not including, `stop`. -/
structure Token where
  kind : TokenKind
  start : Nat
  stop : Nat
deriving DecidableEq, Repr

namespace Token

/-- The tokens of pieces that begin at a byte offset. -/
def place (offset : Nat) : List Piece → List Token
  | [] => []
  | piece :: pieces =>
      let stop := offset + byteLength piece.text
      ⟨piece.kind, offset, stop⟩ :: place stop pieces

def ofPieces (pieces : List Piece) : List Token := place 0 pieces

end Token

end StitchMarkup
