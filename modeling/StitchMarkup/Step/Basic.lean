import StitchMarkup.Decision
import StitchMarkup.Form
import StitchMarkup.Token

/-!
One step of the lexer: a piece cut off the front of a line, its kind, the context after it and
the decisions that led there. The steps that can be made anywhere on a line are here: its end,
prose and block comments. Comments nest to any depth and hide everything but their own two marks,
so a comment leaves what was pending before it as it was.
-/

namespace StitchMarkup

structure Step extends Cut where
  kind : TokenKind
  /-- The context in which the text goes on. -/
  next : Context
  decisions : List Decision
deriving DecidableEq, Repr

namespace Step

def piece (step : Step) : Piece := ⟨step.kind, step.taken⟩

/-- The step at the end of a line takes nothing and drops what was pending. -/
def endOfLine (ctx : Context) (text : List Char) : Step :=
  ⟨.nothing text, .plain, ctx.endLine, [.endOfLine]⟩

/-- Prose is taken a character at a time, since any later one may begin a comment. -/
def prose (ctx : Context) (text : List Char) : Step :=
  ⟨.one text, .plain, ctx, [.prose]⟩

/-- Takes a cut as part of a comment, after which `depth` comments are open. -/
def comment (ctx : Context) (cut : Cut) (depth : Nat) : Step :=
  ⟨cut, .comment, { ctx with depth := depth }, [.insideComment depth]⟩

/-- Reads on inside a comment: its closing mark, the opening mark of a further one, or else a
single character. -/
def insideComment (ctx : Context) (text : List Char) : Step :=
  match Form.commentClose.cut? text, Form.commentOpen.cut? text with
  | some cut, _ => comment ctx cut (ctx.depth - 1)
  | none, some cut => comment ctx cut (ctx.depth + 1)
  | none, none => comment ctx (.one text) ctx.depth

/-- Enters a comment with the cut of its opening mark. -/
def openComment (ctx : Context) (cut : Cut) : Step :=
  ⟨cut, .comment, { ctx with depth := 1 }, [.openedComment]⟩

theorem insideComment_advances (ctx : Context) {text : List Char} (h : text ≠ []) :
    (insideComment ctx text).Advances text := by
  unfold insideComment
  split
  · next cut _ hclose => exact Pattern.advances_of_cut? (by decide) hclose
  · next cut _ hopen => exact Pattern.advances_of_cut? (by decide) hopen
  · exact Cut.one_advances h

end Step

end StitchMarkup
