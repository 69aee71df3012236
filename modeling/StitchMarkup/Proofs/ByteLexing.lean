import StitchMarkup.ByteCursor.Step
import StitchMarkup.Proofs.ByteCursor

/-!
The lexer on a byte cursor makes the steps of a caret. One lemma for each rule says what the rule
does where a caret stands, and together they say that the cursor makes the step of the caret. The
one fault left is a depth past the largest number.
-/

namespace StitchMarkup

namespace Form

theorem cut?_indented (pattern : Pattern) (text : List Char) :
    (blanks ++ pattern).cut? text =
      (pattern.cut? (text.dropWhile isBlank)).map (·.after (text.takeWhile isBlank)) := by
  rw [Pattern.cut?_append, blanks, Pattern.cut?_run]
  rfl

theorem cut?_thenBlanks (form : Pattern) (text : List Char) :
    (thenBlanks form).cut? text =
      (form.cut? text).map fun cut => (Cut.run isBlank cut.rest).after cut.taken := by
  rw [thenBlanks, Pattern.cut?_append]
  cases form.cut? text with
  | none => rfl
  | some cut => simp [blanks]

end Form

@[simp] theorem Cut.rest_after (first : List Char) (cut : Cut) :
    (cut.after first).rest = cut.rest := rfl

namespace Caret

theorem take_take (caret : Caret) (first second : Cut) :
    (caret.take first).take second = caret.take (second.after first.taken) := by
  simp [take, Cut.after]

@[simp] theorem toCursor_advanceBlanks (caret : Caret) (limit : Nat) :
    caret.toCursor.advanceBlanks limit = .ok caret.takeBlanks.toCursor := by
  simp [ByteCursor.advanceBlanks, Form.blanks, takeBlanks]

@[simp] theorem toCursor_arm (caret : Caret) (ctx : Context) (next : Option Expectation) :
    caret.toCursor.arm ctx next = .ok (ctx.expecting next caret.rest) := by
  simp [ByteCursor.arm]

@[simp] theorem take_nothing (caret : Caret) : caret.take (.nothing caret.rest) = caret := rfl

/-- The step as it looks at the cursor where the caret is. -/
def byteStep (caret : Caret) (step : Step) : ByteStep :=
  ⟨(caret.take step.toCut).toCursor, step.kind, step.next, step.decisions⟩

variable {caret : Caret} {ctx : Context} {limit : Nat} {expectation : Expectation}

/-- Only a further comment has to be counted. -/
theorem toCursor_comment_inside (hdepth : 0 < ctx.depth)
    (hlimit : ctx.depth < (Step.insideComment ctx caret.rest).next.depth →
      (Step.insideComment ctx caret.rest).next.depth ≤ limit) :
    caret.toCursor.comment limit ctx =
      .ok (.claims (caret.byteStep (Step.insideComment ctx caret.rest))) := by
  have hinside : ctx.inComment = true := by simpa [Context.inComment] using hdepth
  unfold Step.insideComment at hlimit ⊢
  unfold ByteCursor.comment
  simp only [hinside, if_true, toCursor_advance?, toCursor_advanceOne, Checked.ok_bind]
  cases hclose : Form.commentClose.cut? caret.rest with
  | some cut =>
      simp only [Option.map_some, Checked.sub_of_le hdepth]
      rfl
  | none =>
      cases hopen : Form.commentOpen.cut? caret.rest with
      | some cut =>
          rw [hclose, hopen] at hlimit
          have hsum : ctx.depth + 1 ≤ limit := hlimit (Nat.lt_succ_self ctx.depth)
          simp only [Option.map_none, Option.map_some, Checked.ok_bind, Checked.add_of_le hsum]
          rfl
      | none => rfl

theorem toCursor_comment_outside (caret : Caret) (limit : Nat) (hdepth : ctx.depth = 0) :
    caret.toCursor.comment limit ctx =
      .ok (match (if caret.isAtStart then Form.indentedCommentOpen else Form.commentOpen).cut?
          caret.rest with
        | some cut => .claims (caret.byteStep (Step.openComment ctx cut))
        | none => .passes []) := by
  have houtside : ¬ ctx.inComment = true := by simp [Context.inComment, hdepth]
  simp only [ByteCursor.comment, if_neg houtside, toCursor_offset_eq_zero_iff, toCursor_advance?,
    Checked.ok_bind]
  generalize Pattern.cut? _ caret.rest = found
  cases found <;> rfl

/-- The head that takes a cut of the text before the caret, as the cursor there finds it. -/
def byteHead (caret : Caret) (kind : LineKind) (cut : Cut) : ByteHead :=
  ⟨kind, (caret.take cut).toCursor, if cut.rest.isEmpty then none else kind.expects⟩

theorem byteHead_take (caret : Caret) (kind : LineKind) (first cut : Cut) :
    (caret.take first).byteHead kind cut = caret.byteHead kind (cut.after first.taken) := by
  rw [byteHead, take_take]
  rfl

theorem toCursor_stitchHead (caret : Caret) (limit : Nat) :
    let cut := Cut.run Form.isBlank caret.rest
    caret.toCursor.stitchHead limit =
      .ok (caret.byteHead
        (if cut.rest.isEmpty then .bareHeader
          else if Form.labelMark.startsAt cut.rest then .labeledHeader
          else .stitchHeader) cut) := by
  intro cut
  have hrest : caret.takeBlanks.rest = cut.rest := rfl
  simp only [ByteCursor.stitchHead, toCursor_advanceBlanks, toCursor_rest, hrest,
    Checked.ok_bind, byteHead]
  split
  · rfl
  · split <;> rfl

theorem toCursor_titleHead (caret : Caret) (limit : Nat) :
    caret.toCursor.titleHead limit =
      .ok (match Form.labelMark.find? caret.rest with
        | some title => caret.byteHead .titleWithLabel title
        | none => caret.byteHead .title (.everything caret.rest)) := by
  simp only [ByteCursor.titleHead, toCursor_rest, Checked.ok_bind]
  cases hfind : Form.labelMark.find? caret.rest with
  | some title =>
      have hlabel : title.rest.isEmpty = false := by
        obtain ⟨later, hlater⟩ := (Pattern.of_find?_literal (by simp) hfind).1
        rw [← hlater]
        rfl
      simp only [toCursor_advance (Pattern.whole_of_find? hfind), Checked.ok_bind, byteHead, hlabel]
      rfl
  | none =>
      have hmove := toCursor_advance (Cut.whole_everything caret.rest) limit
      rw [Cut.everything] at hmove
      simp only [hmove, Checked.ok_bind]
      rfl

theorem toCursor_tagHead (caret : Caret) (limit : Nat) :
    caret.toCursor.tagHead limit =
      .ok (match (Form.thenBlanks Form.tagName).cut? caret.rest with
        | some cut => caret.byteHead .tag cut
        | none => caret.byteHead .malformedTag (.nothing caret.rest)) := by
  simp only [ByteCursor.tagHead, toCursor_advance?, Checked.ok_bind]
  cases (Form.thenBlanks Form.tagName).cut? caret.rest with
  | some cut =>
      simp only [Option.map_some, toCursor_rest, rest_take, Checked.ok_bind]
      rfl
  | none =>
      simp only [Option.map_none, byteHead, take_nothing]
      simp [Cut.nothing, LineKind.expects]

/-- A line of prose has no head with a mark. -/
def markedHead? (caret : Caret) (head : LineKind × Cut) : Option ByteHead :=
  if head.1 = .prose then none else some (caret.byteHead head.1 head.2)

theorem takeBlanks_markedHead? (caret : Caret) (limit : Nat) :
    caret.takeBlanks.toCursor.markedHead? limit =
      .ok (caret.markedHead? (LineHead.read caret.rest)) := by
  have hstitch : Form.stitchMark = Form.blanks ++ Form.thenBlanks (.literal ['#', '#']) := rfl
  have htag : Form.tag =
      Form.blanks ++ ([.one Form.isTagMark] ++ Form.thenBlanks Form.tagName) := rfl
  have hrest : caret.takeBlanks.rest = caret.rest.dropWhile Form.isBlank := rfl
  have htake : caret.takeBlanks = caret.take (.run Form.isBlank caret.rest) := rfl
  -- Both sides try the marks in the same order, on the text after the indentation.
  simp only [ByteCursor.markedHead?, toCursor_advance?, Checked.ok_bind, hrest, LineHead.read,
    List.findSome?_cons, List.findSome?_nil, LineHead.stitchHeader?, LineHead.title?,
    LineHead.tag?, LineHead.malformedTag?, hstitch, Form.titleMark, htag, Form.tagMark,
    Form.cut?_indented, Form.cut?_thenBlanks]
  cases (Pattern.literal ['#', '#']).cut? (caret.rest.dropWhile Form.isBlank) with
  | some mark =>
      simp only [Option.map_some, toCursor_stitchHead, Checked.ok_bind, htake, rest_take,
        byteHead_take, Cut.rest_after]
      by_cases hempty : (Cut.run Form.isBlank mark.rest).rest.isEmpty
      · simp only [hempty, if_true]
        rfl
      · by_cases hlabel : Form.labelMark.startsAt (Cut.run Form.isBlank mark.rest).rest
        · simp only [hempty, hlabel, if_true]
          rfl
        · simp only [hempty, hlabel]
          rfl
  | none =>
      simp only [Option.map_none]
      cases hsingle : (Pattern.literal ['#']).cut? (caret.rest.dropWhile Form.isBlank) with
      | some mark =>
          simp only [Option.map_some, toCursor_titleHead, Checked.ok_bind, htake, rest_take,
            byteHead_take, Cut.rest_after]
          cases Form.labelMark.find? mark.rest with
          | some title => simp [markedHead?, Cut.after, Cut.run]
          | none =>
              have hbody : mark.taken ++ mark.rest = caret.rest.dropWhile Form.isBlank :=
                Pattern.whole_of_cut? hsingle
              simp [markedHead?, Cut.after, Cut.run, Cut.everything, hbody]
      | none =>
          simp only [Option.map_none, Pattern.cut?_append]
          cases Pattern.cut? [.one Form.isTagMark] (caret.rest.dropWhile Form.isBlank) with
          | some mark =>
              simp only [Option.map_some, Option.bind_some, toCursor_tagHead, Checked.ok_bind,
                htake, rest_take, byteHead_take, Form.cut?_thenBlanks]
              cases Form.tagName.cut? mark.rest with
              | some cut => rfl
              | none => simp [markedHead?, Cut.after, Cut.nothing, Cut.run]
          | none => rfl

/-- The rule for the head of a line, up to the prose of a line that has none. -/
theorem toCursor_lineHead (hstart : caret.isAtStart) (hend : ¬ caret.isAtEnd)
    (hpending : ctx.pending = none) (hlimit : caret.indentation ≤ limit) :
    let head := LineHead.read caret.rest
    caret.toCursor.lineHead limit ctx =
      .ok (if head.2.taken.isEmpty then .passes [.lineStart .prose caret.indentation]
        else .claims ⟨(caret.take head.2).toCursor, head.1.tokenKind,
          ctx.expecting head.1.expects head.2.rest, [.lineStart head.1 caret.indentation]⟩) := by
  intro head
  have hoffset : caret.toCursor.offset = 0 := toCursor_offset_eq_zero_iff.mpr hstart
  simp only [ByteCursor.lineHead, if_pos hoffset, toCursor_indentation hlimit,
    toCursor_advanceBlanks, takeBlanks_markedHead?, Checked.ok_bind, markedHead?]
  by_cases hprose : head.1 = .prose
  · have hread : head = (.prose, .run Form.isBlank caret.rest) := LineHead.read_of_prose hprose
    have hsame : caret.takeBlanks.toCursor.offset = caret.toCursor.offset ↔
        head.2.taken.isEmpty := by
      simp [hread, toCursor, takeBlanks, byteLength_eq_zero_iff, Cut.run]
    have hctx : ctx.expecting head.1.expects head.2.rest = ctx := by
      rw [hprose, LineKind.expects, ← Step.endLine_eq_expecting, Context.endLine, ← hpending]
    rw [if_pos hprose, hctx, hprose]
    simp only [hsame]
    split
    · rfl
    · rw [hread]
      rfl
  · have htaken : head.2.taken.isEmpty = false := by
      rw [List.isEmpty_eq_false_iff]
      intro hnil
      exact hprose (congrArg Prod.fst (LineHead.read_of_taken_eq_nil (rest_ne_nil hend) hnil))
    rw [if_neg hprose, htaken]
    simp only [byteHead, hpending, Option.or_none]
    rfl

theorem toCursor_firstForm? (caret : Caret) (limit : Nat)
    (forms : List (PropertyKind × Pattern)) :
    caret.toCursor.firstForm? limit forms =
      .ok ((forms.findSome? fun (kind, form) => PropertyRule.ofForm kind form caret.rest).map
        fun (kind, cut) => (kind, (caret.take cut).toCursor)) := by
  induction forms with
  | nil => rfl
  | cons entry forms ih =>
      simp only [ByteCursor.firstForm?, toCursor_advance?, Checked.ok_bind, ih,
        List.findSome?_cons, PropertyRule.ofForm]
      cases (Form.thenBlanks entry.2).cut? caret.rest <;> rfl

theorem toCursor_entry (caret : Caret) (limit : Nat) :
    caret.toCursor.entry limit =
      .ok ((PropertyRule.read PropertyRule.all caret.rest).1,
        (caret.take (PropertyRule.read PropertyRule.all caret.rest).2).toCursor) := by
  simp only [ByteCursor.entry, toCursor_firstForm?, Checked.ok_bind, PropertyRule.read,
    PropertyRule.all, List.findSome?_append, List.findSome?_map, List.findSome?_singleton,
    Function.comp_def]
  generalize (PropertyRule.forms.findSome? fun (kind, form) =>
    PropertyRule.ofForm kind form caret.rest) = found
  cases found with
  | some entry => rfl
  | none =>
      simp only [Option.map_none, Option.none_or, PropertyRule.unterminated, toCursor_rest,
        toCursor_advanceOne, Checked.ok_bind]
      split
      · rfl
      · by_cases hend : caret.isAtEnd
        · have hone : caret.take (.one caret.rest) = caret := takeOne_of_isAtEnd hend
          rw [rest_eq_nil hend] at hone ⊢
          rw [if_pos List.isEmpty_nil]
          simp only [hone]
          rfl
        · have hrest : caret.rest.isEmpty = false := by simpa [isAtEnd] using hend
          rw [hrest]
          rfl

theorem toCursor_resolve (hpending : ctx.pending = some expectation) :
    caret.toCursor.resolve limit ctx =
      .ok (.claims (caret.byteStep (Step.expected ctx expectation caret.rest))) := by
  have hstitch (expectation : Expectation) :
      ByteCursor.resolve.stitch limit caret.toCursor ctx.endLine expectation =
        .ok (.claims (caret.byteStep (Step.stitch ctx.endLine expectation caret.rest))) := by
    simp only [ByteCursor.resolve.stitch, Step.stitch, toCursor_advance?, toCursor_advanceOne,
      Checked.ok_bind]
    cases (Form.thenBlanks Form.name).cut? caret.rest <;> rfl
  cases expectation with
  | stitchName =>
      simp only [ByteCursor.resolve, hpending, hstitch]
      rfl
  | arrowTarget =>
      simp only [ByteCursor.resolve, hpending, hstitch]
      rfl
  | properties =>
      simp only [ByteCursor.resolve, hpending, toCursor_entry, toCursor_arm, Checked.ok_bind]
      rfl
  | stringTail =>
      simp only [ByteCursor.resolve, hpending, toCursor_advanceOne, toCursor_arm, Checked.ok_bind]
      rfl

theorem offer_of_claims {cursor : ByteCursor} {step : ByteStep} {reported : List Decision}
    {rule : ByteCursor → Context → Checked Verdict}
    {rules : List (ByteCursor → Context → Checked Verdict)}
    (h : rule cursor ctx = .ok (.claims step)) :
    cursor.offer limit ctx reported (rule :: rules) =
      .ok { step with decisions := reported ++ step.decisions } := by
  rw [ByteCursor.offer, h]
  rfl

theorem offer_of_passes {cursor : ByteCursor} {reported more : List Decision}
    {rule : ByteCursor → Context → Checked Verdict}
    {rules : List (ByteCursor → Context → Checked Verdict)}
    (h : rule cursor ctx = .ok (.passes more)) :
    cursor.offer limit ctx reported (rule :: rules) =
      cursor.offer limit ctx (reported ++ more) rules := by
  rw [ByteCursor.offer, h]
  rfl

/-- Where nothing is pending the last rule passes and the next character is prose. -/
theorem toCursor_offer_resolve (caret : Caret) (reported : List Decision)
    (hpending : ctx.pending = none) :
    caret.toCursor.offer limit ctx reported [ByteCursor.resolve limit] =
      .ok ⟨caret.takeOne.toCursor, .plain, ctx, reported ++ [.prose]⟩ := by
  have hpass : caret.toCursor.resolve limit ctx = .ok (.passes []) := by
    simp only [ByteCursor.resolve, hpending, Checked.pure_eq_ok]
  rw [offer_of_passes hpass, ByteCursor.offer, toCursor_advanceOne, List.append_nil]
  rfl

theorem toCursor_offer_lineHead (hstart : caret.isAtStart) (hend : ¬ caret.isAtEnd)
    (hpending : ctx.pending = none) (hcolumn : caret.indentation ≤ limit) :
    caret.toCursor.offer limit ctx [] [ByteCursor.lineHead limit, ByteCursor.resolve limit] =
      .ok (caret.byteStep (.lineHead caret.tabWidth ctx caret.rest)) := by
  have hrule := toCursor_lineHead hstart hend hpending hcolumn
  have hindentation := indentation_of_isAtStart hstart
  rcases Step.lineHead_cases caret.tabWidth ctx (rest_ne_nil hend) with ⟨htaken, hstep⟩ |
      ⟨hread, hstep⟩
  · have htaken : ¬ (LineHead.read caret.rest).2.taken.isEmpty := by simpa using htaken
    simp only [htaken] at hrule
    rw [offer_of_claims hrule, hstep, hindentation]
    rfl
  · simp only [hread, Cut.nothing, List.isEmpty_nil, if_true] at hrule
    rw [offer_of_passes hrule, toCursor_offer_resolve caret _ hpending, hstep, hindentation]
    rfl

/-- Past the start of a line there is no head to look for. -/
theorem toCursor_lineHead_of_not_isAtStart (hstart : ¬ caret.isAtStart) :
    caret.toCursor.lineHead limit ctx = .ok (.passes []) := by
  have hoffset : ¬ caret.toCursor.offset = 0 := fun hzero =>
    hstart (toCursor_offset_eq_zero_iff.mp hzero)
  rw [ByteCursor.lineHead, if_neg hoffset]
  rfl

theorem toCursor_offer_firstStep (hstart : caret.isAtStart) (hend : ¬ caret.isAtEnd)
    (hcolumn : caret.indentation ≤ limit)
    (hdepth : (ctx.firstStep caret.tabWidth caret.rest).next.depth ≤ limit) :
    caret.toCursor.offer limit ctx.endLine [] (ByteCursor.rules limit) =
      .ok (caret.byteStep (ctx.firstStep caret.tabWidth caret.rest)) := by
  have hempty : ¬ caret.rest.isEmpty := hend
  rw [Context.firstStep, if_neg hempty] at hdepth ⊢
  by_cases hcomment : ctx.inComment
  · have hinside : 0 < ctx.endLine.depth := of_decide_eq_true hcomment
    rw [if_pos hcomment] at hdepth ⊢
    exact offer_of_claims (toCursor_comment_inside hinside fun _ => hdepth)
  · have houtside : ctx.endLine.depth = 0 :=
      Nat.eq_zero_of_not_pos fun hpos => hcomment (decide_eq_true hpos)
    have hrule := toCursor_comment_outside caret limit houtside
    rw [if_pos hstart] at hrule
    rw [if_neg hcomment]
    cases hopen : Form.indentedCommentOpen.cut? caret.rest with
    | some cut =>
        rw [hopen] at hrule
        exact offer_of_claims hrule
    | none =>
        rw [hopen] at hrule
        rw [ByteCursor.rules, offer_of_passes hrule]
        exact toCursor_offer_lineHead hstart hend rfl hcolumn

/-- Outside comments there is nothing to count past the start of a line. -/
theorem toCursor_offer_step_outside (hstart : ¬ caret.isAtStart) (hend : ¬ caret.isAtEnd)
    (hcomment : ¬ ctx.inComment) :
    caret.toCursor.offer limit ctx [] (ByteCursor.rules limit) =
      .ok (caret.byteStep (ctx.step caret.rest)) := by
  have hempty : ¬ caret.rest.isEmpty := hend
  have houtside : ctx.depth = 0 :=
    Nat.eq_zero_of_not_pos fun hpos => hcomment (decide_eq_true hpos)
  have hrule := toCursor_comment_outside caret limit houtside
  rw [if_neg hstart] at hrule
  rw [Context.step, if_neg hempty, if_neg hcomment]
  cases hopen : Form.commentOpen.cut? caret.rest with
  | some cut =>
      rw [hopen] at hrule
      exact offer_of_claims hrule
  | none =>
      rw [hopen] at hrule
      rw [ByteCursor.rules, offer_of_passes hrule,
        offer_of_passes (toCursor_lineHead_of_not_isAtStart hstart)]
      cases hpending : ctx.pending with
      | some expectation => exact offer_of_claims (toCursor_resolve hpending)
      | none => exact toCursor_offer_resolve caret _ hpending

theorem toCursor_offer_step (hstart : ¬ caret.isAtStart) (hend : ¬ caret.isAtEnd)
    (hdepth : (ctx.step caret.rest).next.depth ≤ limit) :
    caret.toCursor.offer limit ctx [] (ByteCursor.rules limit) =
      .ok (caret.byteStep (ctx.step caret.rest)) := by
  by_cases hcomment : ctx.inComment
  · have hinside : 0 < ctx.depth := of_decide_eq_true hcomment
    rw [Context.step_of_inside hinside (rest_ne_nil hend)] at hdepth ⊢
    exact offer_of_claims (toCursor_comment_inside hinside fun _ => hdepth)
  · exact toCursor_offer_step_outside hstart hend hcomment

/-- A byte cursor meets no fault where the caret makes a step, and it makes the same step. -/
theorem toCursor_step (hcolumn : caret.indentation ≤ limit)
    (hdepth : (caret.step ctx).next.depth ≤ limit) :
    caret.toCursor.step limit ctx = .ok (caret.byteStep (caret.step ctx)) := by
  rw [ByteCursor.step, toCursor_rest, Checked.ok_bind]
  by_cases hend : caret.isAtEnd
  · have hempty : caret.rest.isEmpty := hend
    rw [if_pos hempty, step_of_isAtEnd hend]
    rfl
  have hempty : ¬ caret.rest.isEmpty := hend
  simp only [if_neg hempty, toCursor_offset_eq_zero_iff]
  by_cases hstart : caret.isAtStart
  · rw [step_of_isAtStart hstart] at hdepth ⊢
    rw [if_pos hstart]
    exact toCursor_offer_firstStep hstart hend hcolumn hdepth
  · rw [step_of_not_isAtStart hstart] at hdepth ⊢
    rw [if_neg hstart]
    exact toCursor_offer_step hstart hend hdepth

end Caret

end StitchMarkup
