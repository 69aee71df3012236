import StitchMarkup.Checked
import StitchMarkup.Document.Edit

/-!
Edits made in place. A host that stores its lines in one array splices lines that are not lexed
yet into the array and walks over it from there, with all its places counted in bounded numbers.
-/

namespace StitchMarkup

/-- A line that has only its text so far. -/
def Line.unlexed (text : String) : Line := ⟨text, .initial, []⟩

/-- What a walk over stored lines made of them. -/
structure Walk where
  lines : List Line
  /-- How many of them were lexed. -/
  count : Nat
  decisions : List Decision
  /-- The place of the first line that was kept, if there is one. -/
  converged : Option Nat
  /-- The context where the walk stopped. -/
  next : Context

namespace Walk

/-- Lexes one stored line after the other, up to one at `inserted` or later that starts in the
context it already has. -/
def along (tabWidth inserted : Nat) : Nat → Context → List Line → Walk
  | _, ctx, [] => ⟨[], 0, [], none, ctx⟩
  | index, ctx, line :: lines =>
      if inserted ≤ index ∧ line.start = ctx then ⟨line :: lines, 0, [], some index, ctx⟩
      else
        let lexed := ctx.lexLine tabWidth line.text.toList
        let later := along tabWidth inserted (index + 1) lexed.next lines
        { later with
          lines := ⟨line.text, ctx, lexed.pieces⟩ :: later.lines
          count := later.count + 1
          decisions := lexed.decisions ++ later.decisions }

end Walk

/-- Checks the range, splices the new lines into the array and lexes from the first of them on. -/
def Document.respondInPlace (limit : Nat) (doc : Document) (request : Replacement) :
    Checked Response := do
  if request.stop < request.start ∨ doc.lineCount < request.stop then
    return ⟨doc, .error (.invalidRange request.start request.stop doc.lineCount), []⟩
  else
    let resume := (doc.lines[request.start]?.map Line.start).getD doc.final
    let lines ← Checked.splice request.start request.stop (request.texts.map Line.unlexed)
      doc.lines
    let inserted ← Checked.sub (← Checked.add limit lines.length request.stop) doc.lineCount
    let walk := Walk.along doc.settings.tabWidth inserted request.start resume
      (lines.drop request.start)
    return {
      document := {
        settings := doc.settings
        lines := lines.take request.start ++ walk.lines
        final := if walk.converged.isSome then doc.final else walk.next }
      answer := .ok walk.count
      log := Record.ofDecisions doc.settings.trace walk.decisions ++
        [.relexed walk.count request.start walk.converged] }

end StitchMarkup
