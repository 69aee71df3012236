/-!
What the lexer carries from one piece of text to the next. Block comments span lines and nest,
so their depth is carried across line breaks. An expectation says what the very next piece of
the same line has to be, and whatever is pending at the end of a line is dropped before the next
one starts.
-/

namespace StitchMarkup

inductive Expectation where
  /-- The name of the stitch after a double header mark. -/
  | stitchName
  /-- A list of properties after a tag, the label of a header or another property. -/
  | properties
  /-- The stitch an arrow leads to. -/
  | arrowTarget
  /-- The rest of a string that is never closed. -/
  | stringTail
deriving DecidableEq, Repr

namespace Expectation

def all : List Expectation := [.stitchName, .properties, .arrowTarget, .stringTail]

def debugName : Expectation → String
  | .stitchName => "StitchName"
  | .properties => "Properties"
  | .arrowTarget => "ArrowTarget"
  | .stringTail => "StringTail"

end Expectation

structure Context where
  /-- The number of block comments that are open. -/
  depth : Nat
  pending : Option Expectation
deriving DecidableEq, Repr

namespace Context

/-- The context at the start of a document. -/
def initial : Context := ⟨0, none⟩

def inComment (ctx : Context) : Bool := 0 < ctx.depth

def endLine (ctx : Context) : Context := { ctx with pending := none }

/-- Waits for something to come, unless the line has nothing left that it could be. -/
def expecting (ctx : Context) (next : Option Expectation) (rest : List Char) : Context :=
  { ctx with pending := if rest.isEmpty then none else next }

def pendingName (ctx : Context) : String :=
  match ctx.pending with
  | none => "None"
  | some expectation => expectation.debugName

end Context

end StitchMarkup
