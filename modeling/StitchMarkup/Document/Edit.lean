import StitchMarkup.Document.Basic

/-!
Edits of a document. An edit lexes the lines it brings in and then the old lines after them, but
only up to the first one that would start in the context it started in before. From there on
nothing can change: a line depends on its text and its context alone.
-/

namespace StitchMarkup

/-- Lines lexed one after the other. -/
structure Pass where
  lines : List Line
  /-- The context after the last of them. -/
  next : Context
  decisions : List Decision

namespace Pass

def nothing (ctx : Context) : Pass := ⟨[], ctx, []⟩

/-- A further line before the first one. -/
def cons (line : Line) (decisions : List Decision) (pass : Pass) : Pass :=
  ⟨line :: pass.lines, pass.next, decisions ++ pass.decisions⟩

/-- Lexes lines that have no earlier result. -/
def lex (tabWidth : Nat) (ctx : Context) : List String → Pass
  | [] => nothing ctx
  | text :: texts =>
      let lexed := ctx.lexLine tabWidth text.toList
      (lex tabWidth lexed.next texts).cons ⟨text, ctx, lexed.pieces⟩ lexed.decisions

/-- Lexes stored lines again until one starts in the context it already has. Returns the lines
kept from there on beside those lexed again. -/
def relex (tabWidth : Nat) (ctx : Context) : List Line → Pass × List Line
  | [] => (nothing ctx, [])
  | line :: lines =>
      if line.start = ctx then (nothing ctx, line :: lines)
      else
        let lexed := ctx.lexLine tabWidth line.text.toList
        let (pass, kept) := relex tabWidth lexed.next lines
        (pass.cons ⟨line.text, ctx, lexed.pieces⟩ lexed.decisions, kept)

end Pass

/-- A document after an edit, with the number of lines that had to be lexed for it. -/
structure Edit where
  document : Document
  count : Nat
  log : List Record

/-- What a host asks for when it edits a document: new lines in place of a range of old ones. -/
structure Replacement where
  start : Nat
  stop : Nat
  texts : List String

inductive EditError where
  /-- The range is reversed or reaches past the last line. -/
  | invalidRange (start stop lineCount : Nat)
deriving DecidableEq, Repr

namespace EditError

def message : EditError → String
  | .invalidRange start stop lineCount =>
      "Invalid line range " ++ toString start ++ ".." ++ toString stop ++ " in a document of " ++
        toString lineCount ++ " lines"

end EditError

/-- What a host gets for an edit: the document it holds then, the number of lines lexed or the
refusal, and what went to the log. -/
structure Response where
  document : Document
  answer : Except EditError Nat
  log : List Record

namespace Document

/-- Loads a text, all of whose lines are lexed. -/
def load (settings : Settings) (text : String) : Edit :=
  let pass := Pass.lex settings.tabWidth .initial (Text.lines text)
  let count := pass.lines.length
  { document := ⟨settings, pass.lines, pass.next⟩
    count := count
    log := Record.ofDecisions settings.trace pass.decisions ++ [.relexed count 0 none] }

/-- Puts new lines in place of those from `start` up to, but not including, `stop`. -/
def replace (doc : Document) (start stop : Nat) (texts : List String) : Except EditError Edit :=
  if start ≤ stop ∧ stop ≤ doc.lineCount then
    let resume := (doc.contextBefore? start).getD doc.final
    let fresh := Pass.lex doc.settings.tabWidth resume texts
    let (stale, kept) := Pass.relex doc.settings.tabWidth fresh.next (doc.lines.drop stop)
    let count := fresh.lines.length + stale.lines.length
    -- The end of the document is reached unless an old line was kept.
    let converged := if kept.isEmpty then none else some (start + count)
    .ok
      { document :=
          { doc with
            lines := doc.lines.take start ++ fresh.lines ++ stale.lines ++ kept
            final := if kept.isEmpty then stale.next else doc.final }
        count := count
        log := Record.ofDecisions doc.settings.trace (fresh.decisions ++ stale.decisions) ++
          [.relexed count start converged] }
  else .error (.invalidRange start stop doc.lineCount)

def respond (doc : Document) (request : Replacement) : Response :=
  match doc.replace request.start request.stop request.texts with
  | .ok edit => ⟨edit.document, .ok edit.count, edit.log⟩
  | .error error => ⟨doc, .error error, []⟩

end Document

end StitchMarkup
