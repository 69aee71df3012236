import StitchMarkup.Proofs.Reports
import StitchMarkup.Proofs.Tiling

/-!
Runs of a host that lexes by itself. It asks for one step after the other, moves its caret over
what the step took and stops when the caret is at the end of the line. Such a run makes the same
steps as lexing the line as a whole, and the places the caret went through are the spans of the
tokens. A run from inside a line depends on the text that is left and not on what was passed. No
step opens more than one comment, which bounds the depth a run can reach.
-/

namespace StitchMarkup

@[simp] theorem byteLength_reverse (text : List Char) :
    byteLength text.reverse = byteLength text := by
  induction text with
  | nil => rfl
  | cons c text ih => simp [ih, Nat.add_comm]

theorem byteLength_eq_zero_iff {text : List Char} : byteLength text = 0 ↔ text = [] := by
  cases text with
  | nil => simp
  | cons c text =>
      have hsize := c.utf8Size_pos
      simp only [byteLength_cons, reduceCtorEq, iff_false]
      omega

/-- A step and the caret at which it is made. -/
structure Visit where
  caret : Caret
  step : Step
deriving DecidableEq, Repr

namespace Visit

/-- The token a host makes of the step: it asks for the place of its caret before and after. -/
def token (visit : Visit) : Token :=
  ⟨visit.step.kind, visit.caret.position, (visit.caret.take visit.step.toCut).position⟩

end Visit

namespace Caret

variable {caret : Caret} {ctx : Context}

@[simp] theorem rest_take (caret : Caret) (cut : Cut) : (caret.take cut).rest = cut.rest := rfl

@[simp] theorem position_take (caret : Caret) (cut : Cut) :
    (caret.take cut).position = caret.position + byteLength cut.taken := by
  simp [take, position, Nat.add_comm]

theorem line_take {cut : Cut} (h : cut.whole = caret.rest) :
    (caret.take cut).line = caret.line := by
  rw [line, line, ← h]
  simp [consumed, take, Cut.whole]

theorem takeAll_of_isAtEnd (hend : caret.isAtEnd) : caret.takeAll = caret := by
  have hrest := rest_eq_nil hend
  cases caret
  simp_all [takeAll, take, Cut.everything]

/-- The end of the line is where it was before a move along the line. -/
theorem takeAll_take {cut : Cut} (h : cut.whole = caret.rest) :
    (caret.take cut).takeAll = caret.takeAll := by
  simp [takeAll, take, Cut.everything, ← h, Cut.whole]

theorem not_isAtStart_take {cut : Cut} (h : cut.taken ≠ []) :
    ¬ (caret.take cut).isAtStart := by
  simp [isAtStart, take, h]

/-- A caret past the start of its line stays there. -/
theorem not_isAtStart_take_of_not (hstart : ¬ caret.isAtStart) (cut : Cut) :
    ¬ (caret.take cut).isAtStart := by
  simp_all [isAtStart, take]

theorem step_of_isAtStart (hstart : caret.isAtStart) :
    caret.step ctx = ctx.firstStep caret.tabWidth caret.rest := if_pos hstart

theorem step_of_not_isAtStart (hstart : ¬ caret.isAtStart) :
    caret.step ctx = ctx.step caret.rest := if_neg hstart

theorem step_advances (caret : Caret) (ctx : Context) (hend : ¬ caret.isAtEnd) :
    (caret.step ctx).Advances caret.rest := by
  have hrest := rest_ne_nil hend
  unfold step
  split
  · exact ctx.firstStep_advances caret.tabWidth hrest
  · exact ctx.step_advances hrest

/-- The steps a host makes from a caret on, up to the end of the line. -/
def run (caret : Caret) (ctx : Context) : List Visit :=
  if caret.isAtEnd then []
  else
    let step := caret.step ctx
    ⟨caret, step⟩ :: (caret.take step.toCut).run step.next
termination_by caret.rest.length
decreasing_by exact (caret.step_advances ctx ‹_›).length_rest_lt

theorem run_of_isAtEnd (hend : caret.isAtEnd) : caret.run ctx = [] := by
  rw [run, if_pos hend]

theorem run_of_not_isAtEnd (hend : ¬ caret.isAtEnd) :
    caret.run ctx =
      ⟨caret, caret.step ctx⟩ ::
        (caret.take (caret.step ctx).toCut).run (caret.step ctx).next := by
  rw [run, if_neg hend]

/-- Steps made one after the other, with the caret moved over each. -/
def along (caret : Caret) : List Step → List Visit
  | [] => []
  | step :: steps => ⟨caret, step⟩ :: (caret.take step.toCut).along steps

@[simp] theorem map_step_along (caret : Caret) (steps : List Step) :
    (caret.along steps).map Visit.step = steps := by
  induction steps generalizing caret with
  | nil => rfl
  | cons step steps ih => simp [along, ih]

@[simp] theorem map_token_along (caret : Caret) (steps : List Step) :
    (caret.along steps).map Visit.token = Token.place caret.position (steps.map Step.piece) := by
  induction steps generalizing caret with
  | nil => rfl
  | cons step steps ih => simp [along, ih, Visit.token, Token.place, Step.piece]

/-- From inside a line a host makes the steps that the text left to read asks for. -/
theorem run_of_not_isAtStart (hstart : ¬ caret.isAtStart) :
    caret.run ctx = caret.along (ctx.steps caret.rest) := by
  induction caret, ctx using Caret.run.induct with
  | case1 caret ctx hend =>
      rw [run_of_isAtEnd hend, rest_eq_nil hend, Context.steps]
      rfl
  | case2 caret ctx hend step ih =>
      have hstep : step = ctx.step caret.rest := step_of_not_isAtStart hstart
      have hmoved := ih (not_isAtStart_take (caret.step_advances ctx hend).2)
      rw [run_of_not_isAtEnd hend, hmoved, ctx.steps_of_ne_nil (rest_ne_nil hend), ← hstep]
      rfl

/-- The steps that the lexer makes of the text that is left. -/
def steps (caret : Caret) (ctx : Context) : List Step :=
  if caret.isAtStart then ctx.lineSteps caret.tabWidth caret.rest else ctx.steps caret.rest

theorem steps_tile (caret : Caret) (ctx : Context) : Tiles caret.rest (caret.steps ctx) := by
  unfold steps
  split
  · exact ctx.lineSteps_tile caret.tabWidth caret.rest
  · exact ctx.steps_tile caret.rest

/-- A host that starts anywhere makes just these steps. -/
theorem run_eq_along (caret : Caret) (ctx : Context) :
    caret.run ctx = caret.along (caret.steps ctx) := by
  by_cases hstart : caret.isAtStart
  · rw [steps, if_pos hstart]
    by_cases hend : caret.isAtEnd
    · rw [run_of_isAtEnd hend, rest_eq_nil hend]
      rfl
    · have hmoved : ¬ (caret.take (caret.step ctx).toCut).isAtStart :=
        not_isAtStart_take (caret.step_advances ctx hend).2
      rw [run_of_not_isAtEnd hend, run_of_not_isAtStart hmoved, rest_take,
        step_of_isAtStart hstart, ctx.lineSteps_of_ne_nil caret.tabWidth (rest_ne_nil hend)]
      rfl
  · rw [steps, if_neg hstart]
    exact run_of_not_isAtStart hstart

@[simp] theorem map_step_run (caret : Caret) (ctx : Context) :
    (caret.run ctx).map Visit.step = caret.steps ctx := by
  rw [run_eq_along, map_step_along]

theorem steps_of_isAtEnd (hend : caret.isAtEnd) : caret.steps ctx = [] := by
  rw [← map_step_run, run_of_isAtEnd hend]
  rfl

theorem steps_of_not_isAtEnd (hend : ¬ caret.isAtEnd) :
    caret.steps ctx =
      caret.step ctx :: (caret.take (caret.step ctx).toCut).steps (caret.step ctx).next := by
  rw [← map_step_run, run_of_not_isAtEnd hend, List.map_cons, map_step_run]

@[simp] theorem map_token_run (caret : Caret) (ctx : Context) :
    (caret.run ctx).map Visit.token =
      Token.place caret.position ((caret.steps ctx).map Step.piece) := by
  rw [run_eq_along, map_token_along]

@[simp] theorem entered_depth (caret : Caret) (ctx : Context) :
    (caret.entered ctx).depth = ctx.depth := by
  unfold entered
  split <;> rfl

theorem step_inside (hend : ¬ caret.isAtEnd) (hdepth : 0 < ctx.depth) :
    caret.step ctx = .insideComment (caret.entered ctx) caret.rest := by
  have hrest := rest_ne_nil hend
  by_cases hstart : caret.isAtStart
  · rw [step_of_isAtStart hstart, entered, if_pos hstart]
    exact Context.firstStep_of_inside caret.tabWidth hdepth hrest
  · rw [step_of_not_isAtStart hstart, entered, if_neg hstart]
    exact Context.step_of_inside hdepth hrest

theorem step_depth_outside (hend : ¬ caret.isAtEnd) (hdepth : ctx.depth = 0) :
    (caret.step ctx).next.depth ≤ 1 := by
  have hrest := rest_ne_nil hend
  by_cases hstart : caret.isAtStart
  · rw [step_of_isAtStart hstart]
    rcases ctx.firstStep_cases caret.tabWidth hrest with ⟨hinside, _⟩ | ⟨_, _, _, _, hstep⟩ |
        ⟨_, _, hstep⟩
    · omega
    · rw [hstep]
      exact Nat.le_refl 1
    · simp [hstep, Context.endLine, hdepth]
  · rw [step_of_not_isAtStart hstart]
    rcases ctx.step_cases hrest with ⟨hinside, _⟩ | ⟨_, _, _, hstep⟩ | ⟨_, _, _, _, hstep⟩ |
        ⟨_, _, _, hstep⟩
    · omega
    · rw [hstep]
      exact Nat.le_refl 1
    · simp [hstep, hdepth]
    · simp [hstep, Step.prose, hdepth]

/-- No step opens more than one comment. -/
theorem step_depth_le (caret : Caret) (ctx : Context) :
    (caret.step ctx).next.depth ≤ ctx.depth + 1 := by
  by_cases hend : caret.isAtEnd
  · rw [step_of_isAtEnd hend]
    exact Nat.le_succ ctx.depth
  rcases Nat.eq_zero_or_pos ctx.depth with hdepth | hdepth
  · rw [hdepth]
    exact step_depth_outside hend hdepth
  · rw [step_inside hend hdepth]
    by_contra hover
    have hgrows : (caret.entered ctx).depth <
        (Step.insideComment (caret.entered ctx) caret.rest).next.depth := by
      rw [entered_depth]
      omega
    obtain ⟨_, hone⟩ := Step.insideComment_deepens hgrows
    rw [entered_depth] at hone
    exact hover (Nat.le_of_eq hone)

/-- So as many comments as there are characters left may be opened up to the end of the line. -/
theorem steps_depth_le (caret : Caret) (ctx : Context) :
    ∀ step ∈ caret.steps ctx, step.next.depth ≤ ctx.depth + caret.rest.length := by
  fun_induction run caret ctx with
  | case1 caret ctx hend =>
      rw [steps_of_isAtEnd hend]
      simp
  | case2 caret ctx hend step ih =>
      have hlength := (caret.step_advances ctx hend).length_rest_lt
      have hfirst := caret.step_depth_le ctx
      rw [steps_of_not_isAtEnd hend]
      intro later hlater
      rcases List.mem_cons.mp hlater with rfl | hlater
      · omega
      · have hbound : later.next.depth ≤
            (caret.step ctx).next.depth + (caret.step ctx).rest.length := ih later hlater
        omega

end Caret

namespace Tiles

variable {text : List Char} {steps : List Step}

/-- No step takes nothing, so there are no more steps than characters. -/
theorem length_le (h : Tiles text steps) : steps.length ≤ text.length := by
  induction steps generalizing text with
  | nil => exact Nat.zero_le _
  | cons step steps ih =>
      obtain ⟨hadvances, hrest⟩ := h
      exact Nat.lt_of_le_of_lt (ih hrest) hadvances.length_rest_lt

end Tiles

/-- Tokens that follow one another from one offset to another without a gap, none of them
empty. -/
def Contiguous : Nat → List Token → Nat → Prop
  | start, [], stop => start = stop
  | start, token :: tokens, stop =>
      token.start = start ∧ token.start < token.stop ∧ Contiguous token.stop tokens stop

theorem Tiles.contiguous {text : List Char} {steps : List Step} (h : Tiles text steps)
    (offset : Nat) :
    Contiguous offset (Token.place offset (steps.map Step.piece)) (offset + byteLength text) := by
  induction steps generalizing text offset with
  | nil =>
      have htext : text = [] := h
      rw [htext]
      rfl
  | cons step steps ih =>
      obtain ⟨⟨hwhole, htaken⟩, hrest⟩ := h
      have hpos : byteLength step.taken ≠ 0 := fun hzero => htaken (byteLength_eq_zero_iff.mp hzero)
      have hlater := ih hrest (offset + byteLength step.taken)
      rw [Nat.add_assoc, ← byteLength_append] at hlater
      rw [← hwhole]
      exact ⟨rfl, Nat.lt_add_of_pos_right (Nat.pos_of_ne_zero hpos), hlater⟩

end StitchMarkup
