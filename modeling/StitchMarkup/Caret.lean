import StitchMarkup.Line

/-!
A caret in a line. A host that lexes by itself moves a caret through a line and may look ahead,
go back or start again from a saved one. The caret holds the text on either side of it, the
passed one in reverse, so no move can change the line and every caret stands between two
characters.
-/

namespace StitchMarkup

/-- The ways to move ahead. -/
inductive Stride where
  | next
  | bytes (size : Nat)
  /-- Tries a pattern and moves over its match, or only looks whether there is one. -/
  | tries (pattern : Pattern) (consume : Bool)
  | blanks
  | toEnd

inductive Move where
  | ahead (stride : Stride)
  | back (count : Nat)
  | tabWidth (width : Nat)

structure Caret where
  /-- The text the caret has passed, last character first. -/
  passed : List Char
  rest : List Char
  tabWidth : Nat
deriving DecidableEq, Repr

namespace Caret

def atStart (line : List Char) (tabWidth : Nat) : Caret := ⟨[], line, tabWidth⟩

def consumed (caret : Caret) : List Char := caret.passed.reverse

def line (caret : Caret) : List Char := caret.consumed ++ caret.rest

/-- The byte offset of the caret in its line. -/
def position (caret : Caret) : Nat := byteLength caret.passed

def isAtStart (caret : Caret) : Bool := caret.passed.isEmpty

def isAtEnd (caret : Caret) : Bool := caret.rest.isEmpty

def next? (caret : Caret) : Option Char := caret.rest.head?

/-- The column of the first character of the line that is no blank, wherever the caret is. -/
def indentation (caret : Caret) : Nat :=
  Column.indentation caret.tabWidth caret.line

def withTabWidth (caret : Caret) (tabWidth : Nat) : Caret := { caret with tabWidth := tabWidth }

/-- Moves the caret over the taken part of a cut of the text before it. -/
def take (caret : Caret) (cut : Cut) : Caret :=
  { caret with passed := cut.taken.reverse ++ caret.passed, rest := cut.rest }

def takeOne (caret : Caret) : Caret := caret.take (.one caret.rest)

/-- Moves over a number of bytes, at most up to the end of the line. -/
def takeBytes (caret : Caret) (size : Nat) : Caret := caret.take (.bytes size caret.rest)

def takeBlanks (caret : Caret) : Caret := caret.take (.run Form.isBlank caret.rest)

def takeAll (caret : Caret) : Caret := caret.take (.everything caret.rest)

/-- Moves over a match of the pattern, where there is one at the caret. -/
def take? (caret : Caret) (pattern : Pattern) : Option Caret :=
  (pattern.cut? caret.rest).map caret.take

/-- Goes back over a number of characters, at most up to the start of the line. -/
def rewind (caret : Caret) (count : Nat) : Caret :=
  { caret with
    passed := caret.passed.drop count
    rest := (caret.passed.take count).reverse ++ caret.rest }

def ahead (caret : Caret) : Stride → Caret
  | .next => caret.takeOne
  | .bytes size => caret.takeBytes size
  | .tries pattern consume => if consume then (caret.take? pattern).getD caret else caret
  | .blanks => caret.takeBlanks
  | .toEnd => caret.takeAll

def move (caret : Caret) : Move → Caret
  | .ahead stride => caret.ahead stride
  | .back count => caret.rewind count
  | .tabWidth width => caret.withTabWidth width

def moves (caret : Caret) (moves : List Move) : Caret := moves.foldl move caret

/-- The step of the lexer at the caret. -/
def step (caret : Caret) (ctx : Context) : Step :=
  if caret.isAtStart then ctx.firstStep caret.tabWidth caret.rest
  else ctx.step caret.rest

end Caret

end StitchMarkup
