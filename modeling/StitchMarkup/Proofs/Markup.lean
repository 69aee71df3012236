import StitchMarkup.Form
import StitchMarkup.Token

/-!
The markup as its authors write it, apart from any reading of it: names, properties, lists of
them and the lines that begin with a mark. Blanks are part of the syntax, since a writer chooses
them, and every piece is written with the blanks after it. Each type holds what makes it well
formed, so all its values can be written.
-/

namespace StitchMarkup.Markup

/-- A run of spaces and tabs, possibly empty. -/
abbrev Blanks := {text : List Char // ∀ c ∈ text, Form.isBlank c}

/-- The blanks that separate two pieces: at least one. -/
abbrev Gap := {text : List Char // text ≠ [] ∧ ∀ c ∈ text, Form.isBlank c}

structure Name where
  initial : Char
  tail : List Char
  initial_lower : initial.isLower
  tail_allowed : ∀ c ∈ tail, Form.isNameTail c

def Name.text (name : Name) : List Char := name.initial :: name.tail

inductive Property where
  | label (gap : Blanks) (name : Name)
  | integer (first : Char) (digits : List Char) (hfirst : first.isDigit)
      (hdigits : ∀ c ∈ digits, c.isDigit)
  | word (name : Name)
  | string (body : List Char) (hbody : ∀ c ∈ body, Form.isQuotable c)

namespace Property

def kind : Property → TokenKind
  | .label _ _ => .label
  | .integer _ _ _ _ => .number
  | .word _ => .word
  | .string _ _ => .string

def text : Property → List Char
  | .label gap name => '|' :: '>' :: (gap.1 ++ name.text)
  | .integer first digits _ _ => first :: digits
  | .word name => name.text
  | .string body _ => '"' :: (body ++ ['"'])

def isLabel : Property → Bool
  | .label _ _ => true
  | _ => false

end Property

/-- A list of properties, which an arrow may end. A gap separates neighbours, and the blanks
after the last piece may be missing. -/
inductive PropertyList where
  | nil
  | last (property : Property) (after : Blanks)
  | cons (property : Property) (gap : Gap) (rest : PropertyList)
  | arrow (after : Blanks)
  | link (gap : Blanks) (target : Name) (after : Blanks)

namespace PropertyList

def startsWithLabel : PropertyList → Bool
  | .last property _ | .cons property _ _ => property.isLabel
  | _ => false

def pieces : PropertyList → List Piece
  | .nil => []
  | .last property after => [⟨property.kind, property.text ++ after.1⟩]
  | .cons property gap rest => ⟨property.kind, property.text ++ gap.1⟩ :: rest.pieces
  | .arrow after => [⟨.arrow, '-' :: '>' :: after.1⟩]
  | .link gap target after =>
      [⟨.arrow, '-' :: '>' :: gap.1⟩, ⟨.stitchName, target.text ++ after.1⟩]

end PropertyList

/-- What stands in a title before its properties. -/
structure TitleText where
  text : List Char
  single_mark : text.head? ≠ some '#'
  no_label : ¬ ['|', '>'] <:+: text

/-- A line that begins with a mark. -/
inductive MarkedLine where
  | tag (indent : Blanks) (mark : Char) (hmark : mark = '!' ∨ mark = '?') (gap : Blanks)
      (name : Name) (after : Blanks)
  | tagWithList (indent : Blanks) (mark : Char) (hmark : mark = '!' ∨ mark = '?') (gap : Blanks)
      (name : Name) (after : Gap) (list : PropertyList)
  | labeledHeader (indent gap : Blanks) (list : PropertyList) (hlist : list.startsWithLabel)
  | stitchHeader (indent gap : Blanks) (name : Name) (after : Blanks)
  | title (indent : Blanks) (heading : TitleText)
  | titleWithList (indent : Blanks) (heading : TitleText) (list : PropertyList)
      (hlist : list.startsWithLabel)

/-- What is written for pieces, one after the other. -/
def print (pieces : List Piece) : List Char := pieces.flatMap Piece.text

namespace MarkedLine

/-- The pieces a line is written in, each with the blanks after it. -/
def pieces : MarkedLine → List Piece
  | .tag indent mark _ gap name after =>
      [⟨.tag, indent.1 ++ mark :: (gap.1 ++ name.text ++ after.1)⟩]
  | .tagWithList indent mark _ gap name after list =>
      ⟨.tag, indent.1 ++ mark :: (gap.1 ++ name.text ++ after.1)⟩ :: list.pieces
  | .labeledHeader indent gap list _ =>
      ⟨.header, indent.1 ++ '#' :: '#' :: gap.1⟩ :: list.pieces
  | .stitchHeader indent gap name after =>
      [⟨.header, indent.1 ++ '#' :: '#' :: gap.1⟩, ⟨.stitchName, name.text ++ after.1⟩]
  | .title indent heading => [⟨.header, indent.1 ++ '#' :: heading.text⟩]
  | .titleWithList indent heading list _ =>
      ⟨.header, indent.1 ++ '#' :: heading.text⟩ :: list.pieces

end MarkedLine

end StitchMarkup.Markup
