import StitchMarkup.Proofs.ByteLexing

/-!
Runs of a byte cursor. A run can only meet a depth past the largest number. Where it does not, it
makes the steps of a host with a caret, ends where the line ends and needs no more calls than
there are characters left.
-/

namespace StitchMarkup

namespace ByteStep

/-- A step that leaves the cursor in its line and between two characters. At the end of the line
it only drops what was pending, anywhere else it moves on. -/
structure IsSafe (cursor : ByteCursor) (ctx : Context) (step : ByteStep) : Prop where
  line : step.cursor.line = cursor.line
  tabWidth : step.cursor.tabWidth = cursor.tabWidth
  boundary : IsBoundary cursor.line step.cursor.offset
  inside : step.cursor.offset ≤ byteLength cursor.line
  ends : cursor.offset = byteLength cursor.line →
    step.cursor = cursor ∧ step.kind = .plain ∧ step.next = ctx.endLine
  advances : cursor.offset < byteLength cursor.line → cursor.offset < step.cursor.offset

end ByteStep

namespace Caret

variable {caret : Caret} {ctx : Context} {limit calls : Nat}

theorem byteLength_line (caret : Caret) :
    byteLength caret.line = caret.position + byteLength caret.rest := by
  rw [line, byteLength_append, position_eq]

theorem position_takeAll (caret : Caret) :
    caret.takeAll.position = byteLength caret.line := by
  rw [byteLength_line, takeAll, position_take]
  rfl

theorem toCursor_takeAll (caret : Caret) : caret.takeAll.toCursor = caret.toCursor.atEnd := by
  have hline : caret.takeAll.line = caret.line := line_take (Cut.whole_everything caret.rest)
  rw [toCursor, hline, position_takeAll]
  rfl

theorem byteStep_isSafe (caret : Caret) (ctx : Context) :
    (caret.byteStep (caret.step ctx)).IsSafe caret.toCursor ctx := by
  have hwhole : (caret.step ctx).whole = caret.rest := by
    by_cases hend : caret.isAtEnd
    · rw [step_of_isAtEnd hend]
      rfl
    · exact (caret.step_advances ctx hend).1
  have hline : (caret.take (caret.step ctx).toCut).line = caret.line := line_take hwhole
  have hboundary : IsBoundary caret.line (caret.take (caret.step ctx).toCut).position := by
    rw [← hline]
    exact toCursor_isBoundary _
  refine ⟨hline, rfl, hboundary, hboundary.le, ?_, ?_⟩
  · intro hoffset
    have hend : caret.isAtEnd := by
      have hlength := caret.byteLength_line
      have hrest : byteLength caret.rest = 0 := by
        change caret.position = byteLength caret.line at hoffset
        omega
      exact List.isEmpty_iff.mpr (byteLength_eq_zero_iff.mp hrest)
    rw [step_of_isAtEnd hend]
    exact ⟨rfl, rfl, rfl⟩
  · intro hoffset
    have hend : ¬ caret.isAtEnd := by
      intro hend
      have hlength := caret.byteLength_line
      rw [rest_eq_nil hend, byteLength_nil, Nat.add_zero] at hlength
      exact absurd hlength (Nat.ne_of_gt hoffset)
    have htaken : byteLength (caret.step ctx).taken ≠ 0 := fun hzero =>
      (caret.step_advances ctx hend).2 (byteLength_eq_zero_iff.mp hzero)
    change caret.position < (caret.take (caret.step ctx).toCut).position
    rw [position_take]
    omega

/-- A comment that would be one too many is not opened. -/
theorem toCursor_comment_overflow (hopen : ['{', '-'] <+: caret.rest) (hdepth : 0 < ctx.depth)
    (hlimit : limit < ctx.depth + 1) :
    caret.toCursor.comment limit ctx = .error .overflow := by
  obtain ⟨rest, hrest⟩ := hopen
  have hinside : ctx.inComment := decide_eq_true hdepth
  have hadd : Checked.add limit ctx.depth 1 = .error .overflow := Checked.add_of_lt hlimit
  have hmark : Form.commentOpen.cut? caret.rest = some ⟨['{', '-'], rest⟩ := by
    rw [← hrest]
    exact Pattern.cut?_literal_append ['{', '-'] rest
  have hclose : Form.commentClose.cut? caret.rest = none := by
    rw [← hrest]
    rfl
  simp only [ByteCursor.comment, hinside, if_true, toCursor_advance?, hclose, hmark,
    Option.map_none, Option.map_some, Checked.ok_bind, hadd]
  rfl

theorem toCursor_step_overflow (hlimit : 0 < limit) (hdepth : ctx.depth ≤ limit)
    (hover : limit < (caret.step ctx).next.depth) :
    caret.toCursor.step limit ctx = .error .overflow := by
  have hend : ¬ caret.isAtEnd := by
    intro hend
    rw [step_of_isAtEnd hend] at hover
    exact absurd (Nat.lt_of_lt_of_le hover hdepth) (Nat.lt_irrefl limit)
  have hinside : 0 < ctx.depth := by
    by_contra houtside
    have hone := step_depth_outside hend (Nat.eq_zero_of_not_pos houtside)
    omega
  rw [step_inside hend hinside] at hover
  have hentered := caret.entered_depth ctx
  obtain ⟨hopen, hgrows⟩ :=
    Step.insideComment_deepens (Nat.lt_of_le_of_lt (hentered ▸ hdepth) hover)
  have hrule : caret.toCursor.comment limit (caret.entered ctx) = .error .overflow :=
    toCursor_comment_overflow hopen (by omega) (by omega)
  have hempty : ¬ caret.rest.isEmpty := hend
  have hoffer : caret.toCursor.step limit ctx =
      caret.toCursor.offer limit (caret.entered ctx) [] (ByteCursor.rules limit) := by
    simp only [ByteCursor.step, toCursor_rest, Checked.ok_bind, if_neg hempty,
      toCursor_offset_eq_zero_iff, entered]
  rw [hoffer, ByteCursor.rules, ByteCursor.offer, hrule]
  rfl

theorem toCursor_lex_of_isAtEnd (hend : caret.isAtEnd) (limit calls : Nat) (ctx : Context) :
    caret.toCursor.lex limit calls ctx =
      .ok ((caret.run ctx).map Visit.token, caret.takeAll.toCursor,
        ctx.afterSteps (caret.steps ctx)) := by
  have hempty : caret.rest.isEmpty := hend
  rw [ByteCursor.lex.eq_def, toCursor_rest, Checked.ok_bind, if_pos hempty, run_of_isAtEnd hend,
    steps_of_isAtEnd hend, takeAll_of_isAtEnd hend]
  rfl

/-- Before the end of the line a run makes a step and goes on after it. -/
theorem toCursor_lex_of_not_isAtEnd (hend : ¬ caret.isAtEnd) (limit calls : Nat)
    (ctx : Context) :
    caret.toCursor.lex limit (calls + 1) ctx = do
      let step ← caret.toCursor.step limit ctx
      let (tokens, last) ← ByteCursor.lex limit calls step.cursor step.next
      return (⟨step.kind, caret.position, step.cursor.offset⟩ :: tokens, last) := by
  have hempty : ¬ caret.rest.isEmpty := hend
  rw [ByteCursor.lex.eq_def, toCursor_rest, Checked.ok_bind, if_neg hempty]
  rfl

/-- A byte cursor makes the steps of a host with a caret as long as the depth can be counted, and
as many calls as there are characters left are enough for them. -/
theorem toCursor_lex (hcalls : caret.rest.length ≤ calls) (hcolumn : caret.indentation ≤ limit)
    (hlimit : 0 < limit) (hdepth : ctx.depth ≤ limit) :
    caret.toCursor.lex limit calls ctx =
      if ∀ step ∈ caret.steps ctx, step.next.depth ≤ limit then
        .ok ((caret.run ctx).map Visit.token, caret.takeAll.toCursor,
          ctx.afterSteps (caret.steps ctx))
      else .error .overflow := by
  induction calls generalizing caret ctx with
  | zero =>
      have hend : caret.isAtEnd := List.isEmpty_iff.mpr (List.length_eq_zero_iff.mp (by omega))
      rw [toCursor_lex_of_isAtEnd hend, if_pos (by simp [steps_of_isAtEnd hend])]
  | succ calls ih =>
      by_cases hend : caret.isAtEnd
      · rw [toCursor_lex_of_isAtEnd hend, if_pos (by simp [steps_of_isAtEnd hend])]
      have hadvances := caret.step_advances ctx hend
      rw [toCursor_lex_of_not_isAtEnd hend]
      simp only [steps_of_not_isAtEnd hend, List.forall_mem_cons]
      by_cases hnext : (caret.step ctx).next.depth ≤ limit
      · have hlength : (caret.take (caret.step ctx).toCut).rest.length ≤ calls :=
          Nat.le_of_lt_succ (Nat.lt_of_lt_of_le hadvances.length_rest_lt hcalls)
        have hline : (caret.take (caret.step ctx).toCut).indentation ≤ limit := by
          rw [indentation, line_take hadvances.1]
          exact hcolumn
        have hrun := ih hlength hline hnext
        rw [takeAll_take hadvances.1] at hrun
        simp only [toCursor_step hcolumn hnext, Checked.ok_bind, byteStep, hrun, hnext, true_and]
        split
        · rw [run_of_not_isAtEnd hend]
          rfl
        · rfl
      · rw [toCursor_step_overflow hlimit hdepth (Nat.lt_of_not_le hnext),
          if_neg fun hall => hnext hall.1]
        rfl

/-- Up to the end of the line a run needs a call for each token, and there are at most as many as
characters left. -/
theorem run_contiguous (caret : Caret) (ctx : Context) :
    ((caret.run ctx).map Visit.token).length ≤ caret.rest.length ∧
      Contiguous caret.position ((caret.run ctx).map Visit.token) (byteLength caret.line) := by
  have htiles := caret.steps_tile ctx
  constructor
  · rw [List.length_map, ← List.length_map Visit.step, map_step_run]
    exact htiles.length_le
  · rw [map_token_run, byteLength_line]
    exact htiles.contiguous caret.position

/-- Where a run does not get through, the line is long enough for the depth to pass the limit. -/
theorem toCursor_lex_cases (hcolumn : caret.indentation ≤ limit) (hdepth : ctx.depth < limit) :
    caret.toCursor.lex limit caret.rest.length ctx =
        .ok ((caret.run ctx).map Visit.token, caret.toCursor.atEnd,
          ctx.afterSteps (caret.steps ctx)) ∨
      caret.toCursor.lex limit caret.rest.length ctx = .error .overflow ∧
        limit < ctx.depth + caret.rest.length := by
  have hlex := toCursor_lex (Nat.le_refl caret.rest.length) hcolumn
    (Nat.lt_of_le_of_lt (Nat.zero_le _) hdepth) (Nat.le_of_lt hdepth)
  rw [toCursor_takeAll] at hlex
  by_cases hfits : ∀ step ∈ caret.steps ctx, step.next.depth ≤ limit
  · rw [if_pos hfits] at hlex
    exact Or.inl hlex
  · rw [if_neg hfits] at hlex
    refine Or.inr ⟨hlex, ?_⟩
    by_contra hlong
    apply hfits
    intro step hstep
    have hbound := caret.steps_depth_le ctx step hstep
    omega

end Caret

/-- A line is lexed by a run from its start. -/
theorem ByteCursor.lexLine_eq (limit tabWidth : Nat) (ctx : Context) (line : List Char) :
    let caret := Caret.atStart line tabWidth
    lexLine limit tabWidth ctx line =
      (caret.toCursor.lex limit caret.rest.length ctx).map
        fun (tokens, _, final) => (tokens, final.endLine) := by
  intro caret
  have hstart : atStart line tabWidth = caret.toCursor := rfl
  have hlength : line.length = caret.rest.length := rfl
  rw [lexLine, hstart, hlength]
  cases caret.toCursor.lex limit caret.rest.length ctx <;> rfl

theorem ByteCursor.lexLine_cases {limit tabWidth : Nat} {ctx : Context} {line : List Char}
    (hcolumn : Column.indentation tabWidth line ≤ limit) (hdepth : ctx.depth < limit) :
    lexLine limit tabWidth ctx line =
        .ok (Token.ofPieces (ctx.lexLine tabWidth line).pieces, (ctx.lexLine tabWidth line).next) ∨
      lexLine limit tabWidth ctx line = .error .overflow ∧ limit < ctx.depth + line.length := by
  have hstartColumn : (Caret.atStart line tabWidth).indentation ≤ limit := hcolumn
  rw [lexLine_eq]
  rcases Caret.toCursor_lex_cases hstartColumn hdepth with hlex | ⟨hlex, hlong⟩
  · rw [hlex, Caret.map_token_run]
    exact Or.inl rfl
  · rw [hlex]
    exact Or.inr ⟨rfl, hlong⟩

/-- Stepping from any place between two characters and in any context meets no fault, as long as
the column of the first character and one more open comment can be counted. The step is the one
of the caret there, it stays in the line and between two characters and it moves on, but at the
end of the line, where it only drops what was pending. So a run gets to the end of the line with
at most a call for each character left, unless it has to count too many open comments, and its
tokens leave no gap. -/
theorem stepping_is_safe (limit : Nat) (cursor : ByteCursor) (ctx : Context)
    (hboundary : IsBoundary cursor.line cursor.offset)
    (hcolumn : Column.indentation cursor.tabWidth cursor.line ≤ limit)
    (hdepth : ctx.depth < limit) :
    ∃ caret : Caret, caret.toCursor = cursor ∧
      let step := caret.byteStep (caret.step ctx)
      let tokens := (caret.run ctx).map Visit.token
      let lexed := ctx.lexLine cursor.tabWidth cursor.line
      (cursor.step limit ctx = .ok step ∧ step.IsSafe cursor ctx) ∧
        (tokens.length ≤ caret.rest.length ∧
          Contiguous cursor.offset tokens (byteLength cursor.line) ∧
          (cursor.lex limit caret.rest.length ctx =
              .ok (tokens, cursor.atEnd, ctx.afterSteps (caret.steps ctx)) ∨
            cursor.lex limit caret.rest.length ctx = .error .overflow ∧
              limit < ctx.depth + caret.rest.length)) ∧
        Contiguous 0 (Token.ofPieces lexed.pieces) (byteLength cursor.line) ∧
        (ByteCursor.lexLine limit cursor.tabWidth ctx cursor.line =
            .ok (Token.ofPieces lexed.pieces, lexed.next) ∨
          ByteCursor.lexLine limit cursor.tabWidth ctx cursor.line = .error .overflow ∧
            limit < ctx.depth + cursor.line.length) := by
  obtain ⟨caret, rfl⟩ := Caret.exists_toCursor_eq hboundary
  refine ⟨caret, rfl, ?_⟩
  intro step tokens lexed
  obtain ⟨hlength, hcontiguous⟩ := caret.run_contiguous ctx
  have hnext : (caret.step ctx).next.depth ≤ limit :=
    Nat.le_trans (caret.step_depth_le ctx) hdepth
  have hline : Contiguous 0 (Token.ofPieces lexed.pieces) (byteLength caret.line) := by
    have htiles := (ctx.lineSteps_tile caret.tabWidth caret.line).contiguous 0
    rw [Nat.zero_add] at htiles
    exact htiles
  exact ⟨⟨Caret.toCursor_step hcolumn hnext, caret.byteStep_isSafe ctx⟩,
    ⟨hlength, hcontiguous, Caret.toCursor_lex_cases hcolumn hdepth⟩,
    hline, ByteCursor.lexLine_cases hcolumn hdepth⟩

/-- A place after an accented letter, where a comment opens and stays open. -/
theorem stepping_is_safe_accented :
    let cursor : ByteCursor := ⟨['é', '{', '-'], 2, 0⟩
    let ctx : Context := ⟨0, some .properties⟩
    (IsBoundary cursor.line cursor.offset ∧ Column.indentation 0 cursor.line ≤ 1 ∧ ctx.depth < 1) ∧
      ∃ caret : Caret, caret.toCursor = cursor ∧
        cursor.step 1 ctx = .ok (caret.byteStep (caret.step ctx)) ∧
        (caret.byteStep (caret.step ctx)).IsSafe cursor ctx := by
  intro cursor ctx
  have hboundary : IsBoundary cursor.line cursor.offset := ⟨['é'], ['{', '-'], rfl, by decide⟩
  obtain ⟨caret, hcaret, ⟨hstep, hsafe⟩, _⟩ :=
    stepping_is_safe 1 cursor ctx hboundary (by decide) (by decide)
  exact ⟨⟨hboundary, by decide, by decide⟩, caret, hcaret, hstep, hsafe⟩

end StitchMarkup
