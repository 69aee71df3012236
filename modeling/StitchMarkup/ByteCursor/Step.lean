import StitchMarkup.ByteCursor.Basic

/-!
The lexer on a cursor that knows its place as an offset. A list of rules is offered the cursor,
and each rule moves it piece by piece, leaves it alone or meets a fault. What a rule reads it may
only slice from the line, and the depth of comments and the column of the indentation are
bounded numbers like the offset.
-/

namespace StitchMarkup

/-- What a step at a byte cursor gives. -/
structure ByteStep where
  cursor : ByteCursor
  kind : TokenKind
  next : Context
  decisions : List Decision
deriving DecidableEq, Repr

/-- What a rule says of a cursor. One that passes may have reported something before it did. -/
inductive Verdict where
  | claims (step : ByteStep)
  | passes (reported : List Decision)

/-- The head of a line as a byte cursor finds it. -/
structure ByteHead where
  kind : LineKind
  /-- The cursor after the head. -/
  cursor : ByteCursor
  /-- What the head leaves to come, if anything. -/
  leaves : Option Expectation

namespace ByteCursor

/-- Waits for something to come, unless the cursor is at the end of its line. -/
def arm (cursor : ByteCursor) (ctx : Context) (next : Option Expectation) : Checked Context := do
  return ctx.expecting next (← cursor.rest)

/-- Block comments. -/
def comment (limit : Nat) (cursor : ByteCursor) (ctx : Context) : Checked Verdict := do
  let inside (cursor : ByteCursor) (depth : Nat) : Verdict :=
    .claims ⟨cursor, .comment, { ctx with depth := depth }, [.insideComment depth]⟩
  if ctx.inComment then
    match ← cursor.advance? limit Form.commentClose with
    | some moved => return inside moved (← Checked.sub ctx.depth 1)
    | none =>
        match ← cursor.advance? limit Form.commentOpen with
        | some moved => return inside moved (← Checked.add limit ctx.depth 1)
        | none => return inside (← cursor.advanceOne limit) ctx.depth
  else
    let opener := if cursor.offset = 0 then Form.indentedCommentOpen else Form.commentOpen
    match ← cursor.advance? limit opener with
    | some moved =>
        return .claims ⟨moved, .comment, { ctx with depth := 1 }, [.openedComment]⟩
    | none => return .passes []

/-- What follows the double mark of a stitch decides what kind of header it is. -/
def stitchHead (limit : Nat) (marked : ByteCursor) : Checked ByteHead := do
  let moved ← marked.advanceBlanks limit
  let rest ← moved.rest
  if rest.isEmpty then return ⟨.bareHeader, moved, none⟩
  else if Form.labelMark.startsAt rest then return ⟨.labeledHeader, moved, some .properties⟩
  else return ⟨.stitchHeader, moved, some .stitchName⟩

def titleHead (limit : Nat) (marked : ByteCursor) : Checked ByteHead := do
  let rest ← marked.rest
  match Form.labelMark.find? rest with
  | some title =>
      return ⟨.titleWithLabel, ← marked.advance limit (byteLength title.taken), some .properties⟩
  | none => return ⟨.title, ← marked.advance limit (byteLength rest), none⟩

def tagHead (limit : Nat) (marked : ByteCursor) : Checked ByteHead := do
  match ← marked.advance? limit (Form.thenBlanks Form.tagName) with
  | some named =>
      let rest ← named.rest
      return ⟨.tag, named, if rest.isEmpty then none else some .properties⟩
  | none => return ⟨.malformedTag, marked, none⟩

/-- The head that begins with a mark, which is looked for after the indentation. -/
def markedHead? (limit : Nat) (start : ByteCursor) : Checked (Option ByteHead) := do
  match ← start.advance? limit (.literal ['#', '#']) with
  | some marked => return some (← marked.stitchHead limit)
  | none =>
      match ← start.advance? limit (.literal ['#']) with
      | some marked => return some (← marked.titleHead limit)
      | none =>
          match ← start.advance? limit [.one Form.isTagMark] with
          | some marked => return some (← marked.tagHead limit)
          | none => return none

/-- The head of a line. The indentation of a line of prose is a head by itself, if there is any. -/
def lineHead (limit : Nat) (cursor : ByteCursor) (ctx : Context) : Checked Verdict := do
  if cursor.offset = 0 then
    let indentation ← cursor.indentation limit
    let start ← cursor.advanceBlanks limit
    match ← start.markedHead? limit with
    | some head =>
        return .claims ⟨head.cursor, head.kind.tokenKind,
          { ctx with pending := head.leaves.or ctx.pending }, [.lineStart head.kind indentation]⟩
    | none =>
        if start.offset = cursor.offset then return .passes [.lineStart .prose indentation]
        else return .claims ⟨start, .plain, ctx, [.lineStart .prose indentation]⟩
  else return .passes []

/-- The first of some forms that matches, with the cursor after it and the blanks that follow. -/
def firstForm? (limit : Nat) (cursor : ByteCursor) :
    List (PropertyKind × Pattern) → Checked (Option (PropertyKind × ByteCursor))
  | [] => return none
  | (kind, form) :: forms => do
      match ← cursor.advance? limit (Form.thenBlanks form) with
      | some moved => return some (kind, moved)
      | none => cursor.firstForm? limit forms

/-- An entry of a list of properties. -/
def entry (limit : Nat) (cursor : ByteCursor) : Checked (PropertyKind × ByteCursor) := do
  match ← cursor.firstForm? limit PropertyRule.forms with
  | some entry => return entry
  | none =>
      let rest ← cursor.rest
      if Form.isUnclosed rest then return (.unterminatedString, ← cursor.advanceOne limit)
      else if rest.isEmpty then return (.exhausted, cursor)
      else return (.malformed, ← cursor.advanceOne limit)

/-- What is pending, which is dropped before it is taken up. -/
def resolve (limit : Nat) (cursor : ByteCursor) (ctx : Context) : Checked Verdict := do
  let dropped := ctx.endLine
  match ctx.pending with
  | none => return .passes []
  | some .stitchName => stitch dropped .stitchName
  | some .arrowTarget => stitch dropped .arrowTarget
  | some .properties =>
      let (kind, moved) ← cursor.entry limit
      return .claims ⟨moved, kind.tokenKind, ← moved.arm dropped kind.expects,
        [.resolved .properties, .property kind]⟩
  | some .stringTail =>
      let moved ← cursor.advanceOne limit
      return .claims ⟨moved, .error, ← moved.arm dropped (some .stringTail),
        [.resolved .stringTail]⟩
where
  stitch (dropped : Context) (expectation : Expectation) : Checked Verdict := do
    match ← cursor.advance? limit (Form.thenBlanks Form.name) with
    | some moved => return .claims ⟨moved, .stitchName, dropped, [.resolved expectation]⟩
    | none => return .claims ⟨← cursor.advanceOne limit, .error, dropped, [.resolved expectation]⟩

/-- The rules in the order of their claims. -/
def rules (limit : Nat) : List (ByteCursor → Context → Checked Verdict) :=
  [comment limit, lineHead limit, resolve limit]

/-- Offers the cursor to one rule after the other. What none of them claims is prose. -/
def offer (limit : Nat) (cursor : ByteCursor) (ctx : Context) (reported : List Decision) :
    List (ByteCursor → Context → Checked Verdict) → Checked ByteStep
  | [] => return ⟨← cursor.advanceOne limit, .plain, ctx, reported ++ [.prose]⟩
  | rule :: rules => do
      match ← rule cursor ctx with
      | .claims step => return { step with decisions := reported ++ step.decisions }
      | .passes more => cursor.offer limit ctx (reported ++ more) rules

def step (limit : Nat) (cursor : ByteCursor) (ctx : Context) : Checked ByteStep := do
  if (← cursor.rest).isEmpty then
    return ⟨cursor, .plain, ctx.endLine, [.endOfLine]⟩
  else
    let entered := if cursor.offset = 0 then ctx.endLine else ctx
    cursor.offer limit entered [] (rules limit)

/-- Steps up to the end of the line, of which there may be at most `calls`. Gives the tokens, the
cursor at the end of the line and the context there. -/
def lex (limit : Nat) (calls : Nat) (cursor : ByteCursor) (ctx : Context) :
    Checked (List Token × ByteCursor × Context) := do
  if (← cursor.rest).isEmpty then return ([], cursor, ctx)
  else
    match calls with
    | 0 => throw .unfinished
    | calls + 1 =>
        let step ← cursor.step limit ctx
        let (tokens, last) ← lex limit calls step.cursor step.next
        return (⟨step.kind, cursor.offset, step.cursor.offset⟩ :: tokens, last)

/-- Lexes a line from its start, with a call for each of its characters at most. -/
def lexLine (limit tabWidth : Nat) (ctx : Context) (line : List Char) :
    Checked (List Token × Context) := do
  let (tokens, _, final) ← lex limit line.length (atStart line tabWidth) ctx
  return (tokens, final.endLine)

end ByteCursor

end StitchMarkup
