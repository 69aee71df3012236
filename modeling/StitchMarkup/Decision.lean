import StitchMarkup.Context

/-!
The decisions behind a piece of text. Every step of the lexer reports which of its rules claimed
the text and what that rule saw. The reports are enough to follow the context through a line, so
a host can find out why a piece got its kind.
-/

namespace StitchMarkup

/-- What a line turned out to be when its first piece was read. -/
inductive LineKind where
  /-- A double header mark with something else than a label after it. -/
  | stitchHeader
  /-- A double header mark with a list of properties after it. -/
  | labeledHeader
  /-- A double header mark with nothing after it. -/
  | bareHeader
  /-- A title that ends in a list of properties. -/
  | titleWithLabel
  | title
  | tag
  /-- The mark of a tag without a name. -/
  | malformedTag
  | prose
deriving DecidableEq, Repr

namespace LineKind

def debugName : LineKind → String
  | .stitchHeader => "StitchHeader"
  | .labeledHeader => "LabeledHeader"
  | .bareHeader => "BareHeader"
  | .titleWithLabel => "TitleWithLabel"
  | .title => "Title"
  | .tag => "Tag"
  | .malformedTag => "MalformedTag"
  | .prose => "Prose"

end LineKind

/-- Which entry of a list of properties was read. -/
inductive PropertyKind where
  | label
  | integer
  | bareword
  | string
  /-- A quote that is never closed. -/
  | unterminatedString
  | arrow
  /-- A character that begins no property. -/
  | malformed
  /-- Nothing: the line has ended. -/
  | exhausted
deriving DecidableEq, Repr

namespace PropertyKind

def debugName : PropertyKind → String
  | .label => "Label"
  | .integer => "Integer"
  | .bareword => "Bareword"
  | .string => "String"
  | .unterminatedString => "UnterminatedString"
  | .arrow => "Arrow"
  | .malformed => "Malformed"
  | .exhausted => "Exhausted"

end PropertyKind

inductive Decision where
  /-- Read on inside block comments, `depth` of which are open now. -/
  | insideComment (depth : Nat)
  | openedComment
  /-- Classified a line, whose first character other than a blank stands in the given column. -/
  | lineStart (kind : LineKind) (indentation : Nat)
  /-- Took up the pending expectation. -/
  | resolved (expectation : Expectation)
  | property (kind : PropertyKind)
  | prose
  | endOfLine
deriving DecidableEq, Repr

namespace Decision

instance : ToString Decision where
  toString
    | .insideComment depth => "Comment \x7b depth: " ++ toString depth ++ " \x7d"
    | .openedComment => "CommentOpen"
    | .lineStart kind indentation =>
        "LineStart \x7b kind: " ++ kind.debugName ++ ", indentation: " ++ toString indentation ++
          " \x7d"
    | .resolved expectation => "Resolve(" ++ expectation.debugName ++ ")"
    | .property kind => "Property(" ++ kind.debugName ++ ")"
    | .prose => "Prose"
    | .endOfLine => "EndOfLine"

end Decision

end StitchMarkup
