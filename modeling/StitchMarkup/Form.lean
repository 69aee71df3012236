import StitchMarkup.Pattern

/-!
The lexical forms of the markup. A form begins with a mark or a character of its own, and what
follows is decided by classes of ASCII characters: any other character, accented letters
included, is prose. White space inside a line is the space and the tab and nothing else.
-/

namespace StitchMarkup.Form

def isBlank (c : Char) : Bool := c == ' ' || c == '\t'

def isNameTail (c : Char) : Bool := c.isAlphanum || c == '_' || c == '-'

/-- The characters between the quotes of a string. A backslash is one of them and escapes
nothing. -/
def isQuotable (c : Char) : Bool :=
  c.isAlphanum || ['(', ')', '/', '\\', ' ', '_', ',', '.', '!', '?', '\'', '-'].contains c

def isTagMark (c : Char) : Bool := c == '!' || c == '?'

def blanks : Pattern := [.run isBlank]

/-- A form together with the blanks after it. -/
def thenBlanks (form : Pattern) : Pattern := form ++ blanks

def commentOpen : Pattern := .literal ['{', '-']

def commentClose : Pattern := .literal ['-', '}']

def indentedCommentOpen : Pattern := blanks ++ commentOpen

def labelMark : Pattern := .literal ['|', '>']

def arrow : Pattern := .literal ['-', '>']

def quoteMark : Pattern := .literal ['"']

/-- The name of a stitch, a tag, a label or a bare word: a small letter, then letters, digits,
underscores and hyphens. -/
def name : Pattern := [.one Char.isLower, .run isNameTail]

/-- The name after the mark of a tag or a label may stand apart from it. -/
def tagName : Pattern := blanks ++ name

def label : Pattern := labelMark ++ tagName

def integer : Pattern := [.one Char.isDigit, .run Char.isDigit]

def quoted : Pattern := quoteMark ++ [.run isQuotable] ++ quoteMark

/-- Whether the text begins with a quote that no later one on the line closes. -/
def isUnclosed : List Char → Bool
  | '"' :: body => !body.contains '"'
  | _ => false

/-- The two marks that announce a stitch, with the blanks on either side. -/
def stitchMark : Pattern := thenBlanks (blanks ++ .literal ['#', '#'])

def titleMark : Pattern := blanks ++ .literal ['#']

def tagMark : Pattern := blanks ++ [.one isTagMark]

def tag : Pattern := thenBlanks (tagMark ++ tagName)

end StitchMarkup.Form
