import StitchMarkup.Step.Expected
import StitchMarkup.Step.LineHead

/-!
Lexing a line. Inside a line comments come first, then whatever is expected, then prose. The
first step of a line is of another sort: it forgets what an earlier line left pending and it
alone looks for the marks that head a line, so no later step depends on what stands before it.
The steps of a line end where the line ends, so every line has a last one, and what is still
pending then belongs to no text and is dropped.
-/

namespace StitchMarkup

/-- What lexing a line gives: its pieces, the context in which the next line starts and the
decisions on the way. -/
structure LexedLine where
  pieces : List Piece
  next : Context
  decisions : List Decision
deriving DecidableEq, Repr

namespace Context

/-- The first step on a line. -/
def firstStep (tabWidth : Nat) (ctx : Context) (line : List Char) : Step :=
  if line.isEmpty then .endOfLine ctx line
  else if ctx.inComment then .insideComment ctx.endLine line
  else match Form.indentedCommentOpen.cut? line with
    | some cut => .openComment ctx.endLine cut
    | none => .lineHead tabWidth ctx.endLine line

/-- A step inside a line, of which `text` is still to be read. -/
def step (ctx : Context) (text : List Char) : Step :=
  if text.isEmpty then .endOfLine ctx text
  else if ctx.inComment then .insideComment ctx text
  else match Form.commentOpen.cut? text, ctx.pending with
    | some cut, _ => .openComment ctx cut
    | none, some expectation => .expected ctx expectation text
    | none, none => .prose ctx text

theorem firstStep_advances (tabWidth : Nat) (ctx : Context) {line : List Char}
    (h : line ≠ []) : (ctx.firstStep tabWidth line).Advances line := by
  unfold firstStep
  rw [if_neg (by simpa using h)]
  split
  · exact Step.insideComment_advances ctx.endLine h
  · split
    · next cut hcut => exact Pattern.advances_of_cut? (by decide) hcut
    · exact Step.lineHead_advances tabWidth ctx.endLine h

theorem step_advances (ctx : Context) {text : List Char} (h : text ≠ []) :
    (ctx.step text).Advances text := by
  unfold step
  rw [if_neg (by simpa using h)]
  split
  · exact Step.insideComment_advances ctx h
  · split
    · next cut _ hcut => exact Pattern.advances_of_cut? (by decide) hcut
    · exact Step.expected_advances ctx _ h
    · exact Cut.one_advances h

/-- The steps from inside a line up to its end. -/
def steps (ctx : Context) : List Char → List Step
  | [] => []
  | c :: rest =>
      let step := ctx.step (c :: rest)
      step :: step.next.steps step.rest
termination_by text => text.length
decreasing_by exact (ctx.step_advances (List.cons_ne_nil c rest)).length_rest_lt

/-- The steps of a whole line. -/
def lineSteps (tabWidth : Nat) (ctx : Context) : List Char → List Step
  | [] => []
  | c :: rest =>
      let first := ctx.firstStep tabWidth (c :: rest)
      first :: first.next.steps first.rest

/-- The context in which a sequence of steps leaves the text. -/
def afterSteps (ctx : Context) (steps : List Step) : Context :=
  steps.foldl (fun _ step => step.next) ctx

def lexLine (tabWidth : Nat) (ctx : Context) (line : List Char) : LexedLine :=
  let steps := ctx.lineSteps tabWidth line
  { pieces := steps.map Step.piece
    next := (ctx.afterSteps steps).endLine
    decisions := steps.flatMap Step.decisions }

end Context

end StitchMarkup
