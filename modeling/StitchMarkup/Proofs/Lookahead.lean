import StitchMarkup.Proofs.ByteRuns

/-!
Steps inside a line look ahead and never back. Two runs that begin inside their lines, with the
same text before them and the same context, make the same steps, however the lines begin and
whatever the width of tabs. A byte cursor has the whole line and its offset at hand, and its
rules do ask whether they are at the start of the line. One lemma says what a cursor makes of the
text before it, faults included, and two runs are compared through it. So a run can be taken up
inside a line from nothing but the context there.
-/

namespace StitchMarkup

/-- What a host sees of a step: how far it went, but not where. -/
structure Observation where
  kind : TokenKind
  /-- The number of bytes taken. -/
  size : Nat
  next : Context
  decisions : List Decision
deriving DecidableEq, Repr

namespace ByteStep

def seenFrom (cursor : ByteCursor) (step : ByteStep) : Observation :=
  ⟨step.kind, step.cursor.offset - cursor.offset, step.next, step.decisions⟩

end ByteStep

/-- What is seen of a number of steps, which may go on at the end of the line and stop at a
fault. -/
def ByteCursor.watch (limit : Nat) :
    Nat → ByteCursor → Context → List (Checked Observation)
  | 0, _, _ => []
  | calls + 1, cursor, ctx =>
      match cursor.step limit ctx with
      | .error fault => [.error fault]
      | .ok step => .ok (step.seenFrom cursor) :: watch limit calls step.cursor step.next

/-- The same token in a line that has more bytes in front of it. -/
def Token.shift (size : Nat) (token : Token) : Token :=
  { token with start := token.start + size, stop := token.stop + size }

/-- The tokens of a run moved by some bytes, and the context at the end of the line. -/
def ByteCursor.lexShifted (limit calls : Nat) (cursor : ByteCursor) (ctx : Context)
    (size : Nat) : Checked (List Token × Context) := do
  let (tokens, _, final) ← cursor.lex limit calls ctx
  return (tokens.map (Token.shift size), final)

theorem Token.map_shift_place (size offset : Nat) (pieces : List Piece) :
    (place offset pieces).map (shift size) = place (offset + size) pieces := by
  induction pieces generalizing offset with
  | nil => rfl
  | cons piece pieces ih =>
      simp only [place, List.map_cons, ih, shift, Nat.add_right_comm]

/-- The step inside a line for a host that can count no more than `limit` open comments. A
comment that opens where none is open need not be counted. -/
def Context.countedStep (limit : Nat) (ctx : Context) (text : List Char) : Checked Step :=
  let step := ctx.step text
  if ctx.inComment ∧ ctx.depth < step.next.depth ∧ limit < step.next.depth then .error .overflow
  else .ok step

namespace Caret

/-- A caret that has passed the front of its line. -/
def past (before rest : List Char) (tabWidth : Nat) : Caret := ⟨before.reverse, rest, tabWidth⟩

theorem toCursor_past (before rest : List Char) (tabWidth : Nat) :
    (past before rest tabWidth).toCursor =
      ⟨before ++ rest, byteLength before, tabWidth⟩ := by
  simp [past, toCursor, line, consumed, position]

/-- Two carets inside their lines, with the same text before them. -/
structure SameAhead (caret other : Caret) : Prop where
  inside : ¬ caret.isAtStart
  inside_other : ¬ other.isAtStart
  rest : caret.rest = other.rest

theorem sameAhead_past {before before' : List Char} (hbefore : before ≠ [])
    (hbefore' : before' ≠ []) (rest : List Char) (tabWidth tabWidth' : Nat) :
    (past before rest tabWidth).SameAhead (past before' rest tabWidth') := by
  refine ⟨?_, ?_, rfl⟩
  · simpa [past, isAtStart] using hbefore
  · simpa [past, isAtStart] using hbefore'

variable {caret other : Caret} {ctx : Context} {limit : Nat}

theorem SameAhead.take (h : caret.SameAhead other) (cut : Cut) :
    (caret.take cut).SameAhead (other.take cut) :=
  ⟨not_isAtStart_take_of_not h.inside cut, not_isAtStart_take_of_not h.inside_other cut, rfl⟩

/-- Inside a line a byte cursor makes the step that the text before it asks for, or meets the
fault that it asks for. -/
theorem toCursor_step_of_not_isAtStart (hstart : ¬ caret.isAtStart) :
    caret.toCursor.step limit ctx = (ctx.countedStep limit caret.rest).map caret.byteStep := by
  by_cases hend : caret.isAtEnd
  · have hstep : ctx.step caret.rest = .endOfLine ctx caret.rest := by
      rw [← step_of_not_isAtStart hstart, step_of_isAtEnd hend]
    have hsame : ¬ ctx.depth < (ctx.step caret.rest).next.depth := by
      rw [hstep]
      exact Nat.lt_irrefl ctx.depth
    have hempty : caret.rest.isEmpty := hend
    rw [ByteCursor.step, toCursor_rest, Checked.ok_bind, if_pos hempty, Context.countedStep,
      if_neg fun hover => hsame hover.2.1, hstep]
    rfl
  have hempty : ¬ caret.rest.isEmpty := hend
  have hoffer : caret.toCursor.step limit ctx =
      caret.toCursor.offer limit ctx [] (ByteCursor.rules limit) := by
    simp only [ByteCursor.step, toCursor_rest, Checked.ok_bind, if_neg hempty,
      toCursor_offset_eq_zero_iff, if_neg hstart]
  rw [hoffer, Context.countedStep]
  by_cases hcomment : ctx.inComment
  · have hdepth : 0 < ctx.depth := of_decide_eq_true hcomment
    rw [Context.step_of_inside hdepth (rest_ne_nil hend)]
    split
    · next hover =>
        obtain ⟨_, hdeeper, hlimit⟩ := hover
        obtain ⟨hopen, hone⟩ := Step.insideComment_deepens hdeeper
        have hrule : caret.toCursor.comment limit ctx = .error .overflow :=
          toCursor_comment_overflow hopen hdepth (hone ▸ hlimit)
        rw [ByteCursor.rules, ByteCursor.offer, hrule]
        rfl
    · next hover =>
        refine offer_of_claims (toCursor_comment_inside hdepth fun hdeeper => ?_)
        exact Nat.le_of_not_lt fun hlimit => hover ⟨hcomment, hdeeper, hlimit⟩
  · rw [if_neg fun hover => hcomment hover.1, toCursor_offer_step_outside hstart hend hcomment]
    rfl

@[simp] theorem byteStep_seenFrom (caret : Caret) (step : Step) :
    (caret.byteStep step).seenFrom caret.toCursor =
      ⟨step.kind, byteLength step.taken, step.next, step.decisions⟩ := by
  simp [ByteStep.seenFrom, byteStep, toCursor]

theorem toCursor_lexShifted_of_isAtEnd (hend : caret.isAtEnd) (limit calls : Nat) (ctx : Context)
    (size : Nat) : caret.toCursor.lexShifted limit calls ctx size = .ok ([], ctx) := by
  rw [ByteCursor.lexShifted, toCursor_lex_of_isAtEnd hend, run_of_isAtEnd hend,
    steps_of_isAtEnd hend]
  rfl

/-- Inside a line the tokens of a run are those of the steps that the text asks for. -/
theorem toCursor_lexShifted (hstart : ¬ caret.isAtStart) (hend : ¬ caret.isAtEnd)
    (limit calls : Nat) (ctx : Context) (size : Nat) :
    caret.toCursor.lexShifted limit (calls + 1) ctx size = do
      let step ← ctx.countedStep limit caret.rest
      let moved := caret.take step.toCut
      let (tokens, final) ← moved.toCursor.lexShifted limit calls step.next size
      return (⟨step.kind, caret.position + size, moved.position + size⟩ :: tokens, final) := by
  rw [ByteCursor.lexShifted, toCursor_lex_of_not_isAtEnd hend,
    toCursor_step_of_not_isAtStart hstart]
  cases ctx.countedStep limit caret.rest with
  | error fault => rfl
  | ok step =>
      simp only [Except.map, Checked.ok_bind, byteStep, ByteCursor.lexShifted]
      cases (caret.take step.toCut).toCursor.lex limit calls step.next <;> rfl

namespace SameAhead

theorem isAtEnd_iff (h : caret.SameAhead other) : caret.isAtEnd ↔ other.isAtEnd := by
  rw [isAtEnd, isAtEnd, h.rest]

/-- Two runs see the same of each step, and meet the same fault if any. -/
theorem watch_eq (h : caret.SameAhead other) (limit calls : Nat) (ctx : Context) :
    caret.toCursor.watch limit calls ctx = other.toCursor.watch limit calls ctx := by
  induction calls generalizing caret other ctx with
  | zero => rfl
  | succ calls ih =>
      rw [ByteCursor.watch, ByteCursor.watch, toCursor_step_of_not_isAtStart h.inside,
        toCursor_step_of_not_isAtStart h.inside_other, h.rest]
      cases ctx.countedStep limit other.rest with
      | error fault => rfl
      | ok step =>
          simp only [Except.map, byteStep_seenFrom]
          exact congrArg (_ :: ·) (ih (h.take step.toCut) step.next)

/-- The tokens of two runs are the same up to where the runs began. -/
theorem lexShifted_eq (h : caret.SameAhead other) {size size' : Nat}
    (hsize : caret.position + size = other.position + size') (limit calls : Nat)
    (ctx : Context) :
    caret.toCursor.lexShifted limit calls ctx size =
      other.toCursor.lexShifted limit calls ctx size' := by
  induction calls generalizing caret other ctx with
  | zero =>
      by_cases hend : caret.isAtEnd
      · rw [toCursor_lexShifted_of_isAtEnd hend,
          toCursor_lexShifted_of_isAtEnd (h.isAtEnd_iff.mp hend)]
      · have hempty : ¬ caret.rest.isEmpty := hend
        simp only [ByteCursor.lexShifted, ByteCursor.lex, toCursor_rest, Checked.ok_bind,
          if_neg hempty, ← h.rest]
        rfl
  | succ calls ih =>
      by_cases hend : caret.isAtEnd
      · rw [toCursor_lexShifted_of_isAtEnd hend,
          toCursor_lexShifted_of_isAtEnd (h.isAtEnd_iff.mp hend)]
      rw [toCursor_lexShifted h.inside hend,
        toCursor_lexShifted h.inside_other fun hother => hend (h.isAtEnd_iff.mpr hother), h.rest]
      cases ctx.countedStep limit other.rest with
      | error fault => rfl
      | ok step =>
          have hmoved : (caret.take step.toCut).position + size =
              (other.take step.toCut).position + size' := by
            rw [position_take, position_take]
            omega
          simp only [Checked.ok_bind, ih (h.take step.toCut) hmoved step.next, hsize, hmoved]

/-- The steps of a host with a caret are the same altogether. -/
theorem steps_eq (h : caret.SameAhead other) (ctx : Context) :
    caret.steps ctx = other.steps ctx := by
  rw [steps, steps, if_neg h.inside, if_neg h.inside_other, h.rest]

end SameAhead

end Caret

/-- The lexer never looks back. Two runs from inside their lines, with the same text left and the
same context, make the same steps with the same decisions and contexts, whatever stands before
the text and however wide tabs are, and their tokens differ only by where the runs began. The
same goes for cursors that have the whole line and an offset, for what a host sees of any number
of their steps and for the faults they meet. -/
theorem lexer_never_looks_back (ctx : Context) (before before' rest : List Char)
    (tabWidth tabWidth' : Nat) (hbefore : before ≠ []) (hbefore' : before' ≠ []) :
    let caret := Caret.past before rest tabWidth
    let other := Caret.past before' rest tabWidth'
    let cursor : ByteCursor := ⟨before ++ rest, byteLength before, tabWidth⟩
    let cursor' : ByteCursor := ⟨before' ++ rest, byteLength before', tabWidth'⟩
    ((caret.run ctx).map Visit.step = (other.run ctx).map Visit.step ∧
      ((caret.run ctx).map Visit.token).map (Token.shift (byteLength before')) =
        ((other.run ctx).map Visit.token).map (Token.shift (byteLength before))) ∧
      ∀ limit calls,
        cursor.watch limit calls ctx = cursor'.watch limit calls ctx ∧
          cursor.lexShifted limit calls ctx (byteLength before') =
            cursor'.lexShifted limit calls ctx (byteLength before) := by
  intro caret other cursor cursor'
  have hsame : caret.SameAhead other :=
    Caret.sameAhead_past hbefore hbefore' rest tabWidth tabWidth'
  have hcursor : caret.toCursor = cursor := Caret.toCursor_past before rest tabWidth
  have hcursor' : other.toCursor = cursor' := Caret.toCursor_past before' rest tabWidth'
  have hposition : caret.position = byteLength before := congrArg ByteCursor.offset hcursor
  have hposition' : other.position = byteLength before' := congrArg ByteCursor.offset hcursor'
  have hsize : caret.position + byteLength before' = other.position + byteLength before := by
    omega
  refine ⟨⟨?_, ?_⟩, ?_⟩
  · rw [Caret.map_step_run, Caret.map_step_run, hsame.steps_eq]
  · rw [Caret.map_token_run, Caret.map_token_run, Token.map_shift_place, Token.map_shift_place,
      hsame.steps_eq, hsize]
  · intro limit calls
    rw [← hcursor, ← hcursor']
    exact ⟨hsame.watch_eq limit calls ctx, hsame.lexShifted_eq hsize limit calls ctx⟩

/-- A tag taken up in a comment after a name with an accent, and after a tab that stands at the
start of its line. -/
theorem lexer_never_looks_back_tab :
    let ctx : Context := ⟨1, some .properties⟩
    let rest := "a-\x7d \"b\"->c".toList
    (['\t'] ≠ [] ∧ ['é', 'x'] ≠ []) ∧
      ((Caret.past ['\t'] rest 8).run ctx).map Visit.step =
        ((Caret.past ['é', 'x'] rest 0).run ctx).map Visit.step ∧
      (⟨['\t'] ++ rest, 1, 8⟩ : ByteCursor).watch 1 4 ctx =
        (⟨['é', 'x'] ++ rest, 3, 0⟩ : ByteCursor).watch 1 4 ctx := by
  intro ctx rest
  have htab : ['\t'] ≠ [] := List.cons_ne_nil _ _
  have hname : ['é', 'x'] ≠ [] := List.cons_ne_nil _ _
  obtain ⟨⟨hsteps, _⟩, hseen⟩ :=
    lexer_never_looks_back ctx ['\t'] ['é', 'x'] rest 8 0 htab hname
  exact ⟨⟨htab, hname⟩, hsteps, (hseen 1 4).1⟩

end StitchMarkup
