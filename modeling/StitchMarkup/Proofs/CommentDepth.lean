import StitchMarkup.Proofs.Carryover
import StitchMarkup.Proofs.CommentScan

/-!
How the depth a text starts in goes on through it. More open comments at the start are never
fewer at the end, although the two readings may take different steps: all that counts is the
marks, and a title that hides some begins outside comments. If the text never gets out of its
first comment, the two readings are the same but for the depth.
-/

namespace StitchMarkup

inductive CommentMark where
  | opening
  | closing
deriving DecidableEq, Repr

namespace CommentMark

/-- The marks in a text from left to right. Outside comments the lexer reads the characters of a
closing mark one by one, but no mark begins with the second. -/
def inText : List Char → List CommentMark
  | [] => []
  | '-' :: '}' :: rest => .closing :: inText rest
  | '{' :: '-' :: rest => .opening :: inText rest
  | _ :: rest => inText rest

/-- The depth after a mark. Outside comments a closing mark closes nothing. -/
def shift (depth : Nat) : CommentMark → Nat
  | opening => depth + 1
  | closing => depth - 1

theorem shift_mono {depth other : Nat} (h : depth ≤ other) (mark : CommentMark) :
    shift depth mark ≤ shift other mark := by
  cases mark with
  | opening => exact Nat.add_le_add_right h 1
  | closing => exact Nat.sub_le_sub_right h 1

theorem foldl_shift_mono {depth other : Nat} (h : depth ≤ other) (marks : List CommentMark) :
    marks.foldl shift depth ≤ marks.foldl shift other := by
  induction marks generalizing depth other with
  | nil => exact h
  | cons mark marks ih => exact ih (shift_mono h mark)

theorem inText_cons {c : Char} {rest : List Char} (hclose : ¬ ['-', '}'] <+: c :: rest)
    (hopen : ¬ ['{', '-'] <+: c :: rest) : inText (c :: rest) = inText rest := by
  rw [inText]
  · rintro tail rfl rfl
    exact hclose ⟨tail, rfl⟩
  · rintro tail rfl rfl
    exact hopen ⟨tail, rfl⟩

theorem not_mark_of_forall {a b c : Char} {rest : List Char}
    (h : ∀ tail, c = a → rest = b :: tail → False) : ¬ [a, b] <+: c :: rest := by
  rintro ⟨tail, htail⟩
  obtain ⟨hc, hrest⟩ := List.cons.inj htail
  exact h tail hc.symm hrest.symm

/-- A text can be cut wherever no mark goes across the cut. -/
theorem inText_append {first rest : List Char} (hbrace : rest.head? ≠ some '}')
    (hhyphen : rest.head? ≠ some '-') : inText (first ++ rest) = inText first ++ inText rest := by
  fun_induction inText first with
  | case1 => rfl
  | case2 tail ih => simp [inText, ih]
  | case3 tail ih => simp [inText, ih]
  | case4 c tail hclose hopen ih =>
      rw [List.cons_append, inText_cons, ih]
      · intro hmark
        rcases mark_in_or_across hmark with hin | ⟨_, _, hacross⟩
        · exact not_mark_of_forall hclose hin
        · exact hbrace hacross
      · intro hmark
        rcases mark_in_or_across hmark with hin | ⟨_, _, hacross⟩
        · exact not_mark_of_forall hopen hin
        · exact hhyphen hacross

end CommentMark

/-- Counting comment marks is adding them up, from any depth. -/
theorem CommentScan.depth_of (depth : Nat) (text : List Char) :
    (CommentScan.of depth text).depth =
      (CommentMark.inText text).foldl CommentMark.shift depth := by
  fun_induction CommentMark.inText text generalizing depth with
  | case1 =>
      rw [CommentScan.of_nil]
      rfl
  | case2 rest ih => cases depth <;> exact ih _
  | case3 rest ih => cases depth <;> exact ih _
  | case4 c rest hclose hopen ih =>
      have hnotClose := CommentMark.not_mark_of_forall hclose
      have hnotOpen := CommentMark.not_mark_of_forall hopen
      cases depth with
      | zero =>
          rw [CommentScan.of_outside hnotOpen]
          exact ih 0
      | succ depth =>
          rw [CommentScan.of_inside hnotClose hnotOpen]
          exact ih (depth + 1)

namespace Context

variable {ctx other : Context}

theorem lexLine_depth_of_not_isTitle (tabWidth : Nat) {line : List Char} (hline : line ≠ [])
    (htitle : ∀ indent title, 0 < ctx.depth ∨ ¬ IsTitle line indent title) :
    (ctx.lexLine tabWidth line).next.depth = (CommentScan.of ctx.depth line).depth := by
  by_cases hopens : ctx.depth = 0 ∧ ∃ indent rest, OpensComment line indent rest
  · obtain ⟨hdepth, indent, rest, hopen⟩ := hopens
    rw [hdepth]
    exact (comments_of_opensComment tabWidth hdepth hopen).2
  · have hopen : ∀ indent rest, 0 < ctx.depth ∨ ¬ OpensComment line indent rest := by
      intro indent rest
      by_cases hdepth : ctx.depth = 0
      · exact Or.inr fun hopen => hopens ⟨hdepth, indent, rest, hopen⟩
      · exact Or.inl (Nat.pos_of_ne_zero hdepth)
    have hfirst := firstStep_countsComments tabWidth hline htitle hopen
    rw [hfirst]
    exact (ctx.lexLine_comments tabWidth hline).2

/-- The depth after a line is that of its marks, but outside comments a title may hide those at
the front of the line. -/
theorem lexLine_depth (tabWidth : Nat) (ctx : Context) (line : List Char) :
    (ctx.lexLine tabWidth line).next.depth =
        (CommentMark.inText line).foldl CommentMark.shift ctx.depth ∨
      ctx.depth = 0 ∧ ∃ hidden shown, line = hidden ++ shown ∧ shown.head? ≠ some '}' ∧
        shown.head? ≠ some '-' ∧
        (ctx.lexLine tabWidth line).next.depth =
          (CommentMark.inText shown).foldl CommentMark.shift 0 := by
  by_cases hline : line = []
  · rw [hline]
    exact Or.inl rfl
  by_cases hhides : ctx.depth = 0 ∧ ∃ indent title, IsTitle line indent title
  · obtain ⟨hdepth, indent, title, his⟩ := hhides
    have hnext := (comments_of_isTitle tabWidth hdepth his).2
    rw [CommentScan.depth_of] at hnext
    refine Or.inr ⟨hdepth, _, (LineHead.read line).2.rest, (LineHead.whole_read line).symm, ?_, ?_,
      hnext⟩
    all_goals
      rw [LineHead.read_of_isTitle his]
      cases hfind : Form.labelMark.find? title with
      | none => simp [Cut.everything]
      | some cut =>
          obtain ⟨later, hlater⟩ := (Pattern.of_find?_literal (by simp) hfind).1
          simp [Cut.after, ← hlater]
  · refine Or.inl ?_
    rw [← CommentScan.depth_of]
    apply lexLine_depth_of_not_isTitle tabWidth hline
    intro indent title
    by_cases hdepth : ctx.depth = 0
    · exact Or.inr fun his => hhides ⟨hdepth, indent, title, his⟩
    · exact Or.inl (Nat.pos_of_ne_zero hdepth)

/-- A line that begins inside more comments ends inside no fewer. -/
theorem lexLine_depth_mono (tabWidth : Nat) (h : ctx.depth ≤ other.depth) (line : List Char) :
    (ctx.lexLine tabWidth line).next.depth ≤ (other.lexLine tabWidth line).next.depth := by
  rcases other.lexLine_depth tabWidth line with hother | ⟨hzero, _⟩
  · rcases ctx.lexLine_depth tabWidth line with hctx |
        ⟨_, hidden, shown, rfl, hbrace, hhyphen, hctx⟩
    · rw [hctx, hother]
      exact CommentMark.foldl_shift_mono h _
    · rw [hctx, hother, CommentMark.inText_append hbrace hhyphen, List.foldl_append]
      exact CommentMark.foldl_shift_mono (Nat.zero_le _) _
  · have hsame : ctx.depth = other.depth := by omega
    rw [lexLine_eq_of_depth hsame]

theorem afterLines_depth_mono (tabWidth : Nat) (h : ctx.depth ≤ other.depth)
    (texts : List String) :
    (ctx.afterLines tabWidth texts).depth ≤ (other.afterLines tabWidth texts).depth := by
  induction texts generalizing ctx other with
  | nil => exact h
  | cons text texts ih => exact ih (lexLine_depth_mono tabWidth h text.toList)

end Context

namespace Decision

/-- The decision in a text that begins inside further comments. -/
def deeper (level : Nat) : Decision → Decision
  | .insideComment depth => .insideComment (depth + level)
  | decision => decision

end Decision

namespace Step

/-- The step in a text that begins inside further comments: the same piece, told with another
depth. -/
def deeper (level : Nat) (step : Step) : Step :=
  { step with
    next := step.next.deeper level
    decisions := step.decisions.map (Decision.deeper level) }

theorem insideComment_deeper {ctx : Context} (hdepth : 0 < ctx.depth) (level : Nat)
    (text : List Char) :
    insideComment (ctx.deeper level) text = (insideComment ctx text).deeper level := by
  have hclosed : ctx.depth + level - 1 = ctx.depth - 1 + level := by omega
  have hopened : ctx.depth + level + 1 = ctx.depth + 1 + level := by omega
  unfold insideComment
  split
  · simp only [Context.deeper, hclosed]
    rfl
  · simp only [Context.deeper, hopened]
    rfl
  · rfl

end Step

/-- The line read inside further comments. -/
def LexedLine.deeper (level : Nat) (lexed : LexedLine) : LexedLine :=
  { lexed with
    next := lexed.next.deeper level
    decisions := lexed.decisions.map (Decision.deeper level) }

namespace Context

variable {ctx : Context}

theorem afterSteps_deeper (ctx : Context) (level : Nat) (steps : List Step) :
    (ctx.deeper level).afterSteps (steps.map (Step.deeper level)) =
      (ctx.afterSteps steps).deeper level := by
  induction steps generalizing ctx with
  | nil => rfl
  | cons step steps ih => exact ih step.next

/-- Inside comments all that matters of the depth is whether the last comment is closed. -/
theorem steps_deeper (hdepth : 0 < ctx.depth) (level : Nat) {text : List Char}
    (hinside : ∀ step ∈ ctx.steps text, 0 < step.next.depth) :
    (ctx.deeper level).steps text = (ctx.steps text).map (Step.deeper level) := by
  induction ctx, text using Context.steps.induct with
  | case1 ctx =>
      rw [steps, steps]
      rfl
  | case2 ctx c rest step ih =>
      have htext := List.cons_ne_nil c rest
      have hstep : step = .insideComment ctx (c :: rest) := step_of_inside hdepth htext
      have hdeeper : (ctx.deeper level).step (c :: rest) = step.deeper level := by
        rw [hstep, ← Step.insideComment_deeper hdepth]
        exact step_of_inside (Nat.add_pos_left hdepth level) htext
      rw [steps, List.forall_mem_cons] at hinside
      rw [steps_of_ne_nil _ htext, hdeeper, steps, List.map_cons]
      exact congrArg (_ :: ·) (ih hinside.1 hinside.2)

theorem lineSteps_deeper (tabWidth : Nat) (hdepth : 0 < ctx.depth) (level : Nat)
    {line : List Char} (hinside : ∀ step ∈ ctx.lineSteps tabWidth line, 0 < step.next.depth) :
    (ctx.deeper level).lineSteps tabWidth line =
      (ctx.lineSteps tabWidth line).map (Step.deeper level) := by
  by_cases hline : line = []
  · rw [hline]
    rfl
  have hfirst : (ctx.deeper level).firstStep tabWidth line =
      (ctx.firstStep tabWidth line).deeper level := by
    rw [firstStep_of_inside tabWidth hdepth hline,
      firstStep_of_inside tabWidth (Nat.add_pos_left hdepth level) hline]
    have hentered : 0 < ctx.endLine.depth := hdepth
    exact Step.insideComment_deeper hentered level line
  rw [lineSteps_of_ne_nil tabWidth ctx hline, List.forall_mem_cons] at hinside
  rw [lineSteps_of_ne_nil tabWidth _ hline, lineSteps_of_ne_nil tabWidth ctx hline, hfirst,
    List.map_cons]
  exact congrArg (_ :: ·) (steps_deeper hinside.1 level hinside.2)

theorem afterSteps_depth_pos (hdepth : 0 < ctx.depth) {steps : List Step}
    (hinside : ∀ step ∈ steps, 0 < step.next.depth) : 0 < (ctx.afterSteps steps).depth := by
  induction steps generalizing ctx with
  | nil => exact hdepth
  | cons step steps ih =>
      rw [List.forall_mem_cons] at hinside
      exact ih hinside.1 hinside.2

theorem lexLine_deeper (tabWidth : Nat) (hdepth : 0 < ctx.depth) (level : Nat)
    {line : List Char} (hinside : ∀ step ∈ ctx.lineSteps tabWidth line, 0 < step.next.depth) :
    (ctx.deeper level).lexLine tabWidth line = (ctx.lexLine tabWidth line).deeper level := by
  rw [lexLine, lexLine, lineSteps_deeper tabWidth hdepth level hinside, afterSteps_deeper,
    List.map_map, List.flatMap_map, LexedLine.deeper, List.map_flatMap]
  rfl

/-- The steps of lines read one after the other. -/
def stepLines (tabWidth : Nat) (ctx : Context) : List String → List (List Step)
  | [] => []
  | text :: texts =>
      let steps := ctx.lineSteps tabWidth text.toList
      steps :: (ctx.afterSteps steps).endLine.stepLines tabWidth texts

theorem stepLines_eq_of_depth {other : Context} (h : ctx.depth = other.depth) (tabWidth : Nat)
    (texts : List String) : ctx.stepLines tabWidth texts = other.stepLines tabWidth texts := by
  cases texts with
  | nil => rfl
  | cons text texts =>
      rw [stepLines, stepLines, lineSteps_eq_of_depth h, endLine_afterSteps h]

theorem stepLines_deeper (tabWidth : Nat) (hdepth : 0 < ctx.depth) (level : Nat)
    {texts : List String}
    (hinside : ∀ steps ∈ ctx.stepLines tabWidth texts, ∀ step ∈ steps, 0 < step.next.depth) :
    (ctx.deeper level).stepLines tabWidth texts =
      (ctx.stepLines tabWidth texts).map (List.map (Step.deeper level)) := by
  induction texts generalizing ctx with
  | nil => rfl
  | cons text texts ih =>
      rw [stepLines, List.forall_mem_cons] at hinside
      have hnext : 0 < (ctx.afterSteps (ctx.lineSteps tabWidth text.toList)).endLine.depth :=
        afterSteps_depth_pos hdepth hinside.1
      rw [stepLines, stepLines, lineSteps_deeper tabWidth hdepth level hinside.1,
        afterSteps_deeper, List.map_cons]
      exact congrArg (_ :: ·) (ih hnext hinside.2)

/-- So the pieces of the lines are the same, and the contexts after them are deeper. -/
theorem lexLines_deeper (tabWidth : Nat) (hdepth : 0 < ctx.depth) (level : Nat)
    {texts : List String}
    (hinside : ∀ steps ∈ ctx.stepLines tabWidth texts, ∀ step ∈ steps, 0 < step.next.depth) :
    (ctx.deeper level).lexLines tabWidth texts =
      (ctx.lexLines tabWidth texts).map (LexedLine.deeper level) := by
  induction texts generalizing ctx with
  | nil => rfl
  | cons text texts ih =>
      rw [stepLines, List.forall_mem_cons] at hinside
      have hnext : 0 < (ctx.lexLine tabWidth text.toList).next.depth :=
        afterSteps_depth_pos hdepth hinside.1
      rw [lexLines, lexLines, lexLine_deeper tabWidth hdepth level hinside.1, List.map_cons]
      exact congrArg (_ :: ·) (ih hnext hinside.2)

end Context

/-- Lines read inside more comments end inside no fewer, titles included. And where the first of
these comments is never closed, lines read inside so many comments more have the same tokens:
every step is the same but for the depth it leaves, which is that much greater, and so are the
depths after the lines. -/
theorem depth_goes_through_lines (tabWidth : Nat) (texts : List String) :
    (∀ ctx other : Context, ctx.depth ≤ other.depth →
      (ctx.afterLines tabWidth texts).depth ≤ (other.afterLines tabWidth texts).depth) ∧
      ∀ (ctx other : Context) (level : Nat), 0 < ctx.depth →
        (∀ steps ∈ ctx.stepLines tabWidth texts, ∀ step ∈ steps, 0 < step.next.depth) →
        other.depth = ctx.depth + level →
        other.stepLines tabWidth texts =
            (ctx.stepLines tabWidth texts).map (List.map (Step.deeper level)) ∧
          other.lexLines tabWidth texts =
            (ctx.lexLines tabWidth texts).map (LexedLine.deeper level) := by
  constructor
  · intro ctx other h
    exact Context.afterLines_depth_mono tabWidth h texts
  · intro ctx other level hdepth hinside hother
    have hsame : other.depth = (ctx.deeper level).depth := hother
    rw [Context.stepLines_eq_of_depth hsame, Context.lexLines_eq_of_depth hsame]
    exact ⟨Context.stepLines_deeper tabWidth hdepth level hinside,
      Context.lexLines_deeper tabWidth hdepth level hinside⟩

/-- One of two comments is closed and another opened, and then comes what would be a title. -/
theorem depth_goes_through_lines_closing :
    let texts := ["-\x7d # a \x7b-", "# b"]
    let ctx : Context := ⟨2, none⟩
    let other : Context := ⟨3, some .properties⟩
    (ctx.depth ≤ other.depth ∧ 0 < ctx.depth ∧
        (∀ steps ∈ ctx.stepLines 4 texts, ∀ step ∈ steps, 0 < step.next.depth) ∧
        other.depth = ctx.depth + 1) ∧
      (ctx.afterLines 4 texts).depth ≤ (other.afterLines 4 texts).depth ∧
      other.stepLines 4 texts = (ctx.stepLines 4 texts).map (List.map (Step.deeper 1)) := by
  intro texts ctx other
  have hinside : ∀ steps ∈ ctx.stepLines 4 texts, ∀ step ∈ steps, 0 < step.next.depth := by
    decide +kernel
  obtain ⟨hmono, hdeeper⟩ := depth_goes_through_lines 4 texts
  exact ⟨⟨by decide, by decide, hinside, rfl⟩, hmono ctx other (by decide),
    (hdeeper ctx other 1 (by decide) hinside rfl).1⟩

end StitchMarkup
