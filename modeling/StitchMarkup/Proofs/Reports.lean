import StitchMarkup.Caret
import StitchMarkup.Proofs.Stepping

/-!
What the decisions of a step tell. A step reports one of a few lists of decisions, each of them
only where the rule behind it applies, and the report fixes the kind of the piece but for a
missing stitch. The reports also carry the context: read one after the other they lead to the
context before every step and after the whole line. Only the end of the line is not in them,
where nothing is armed.
-/

namespace StitchMarkup

/-- The context a step at the caret begins in. At the start of a line nothing is pending. -/
def Caret.entered (caret : Caret) (ctx : Context) : Context :=
  if caret.isAtStart then ctx.endLine else ctx

namespace Report

/-- The kinds of the pieces that head a line, by what the line turned out to be. -/
def headKinds : List (LineKind × TokenKind) :=
  [(.stitchHeader, .header), (.labeledHeader, .header), (.bareHeader, .header),
    (.titleWithLabel, .header), (.title, .header), (.tag, .tag), (.malformedTag, .error)]

/-- The kinds of the entries of a list of properties. -/
def entryKinds : List (PropertyKind × TokenKind) :=
  [(.label, .label), (.integer, .number), (.bareword, .word), (.string, .string),
    (.arrow, .arrow), (.unterminatedString, .error), (.malformed, .error)]

end Report

/-- The decisions a step at the caret can report, with the kind of its piece and the situation
in which they are made. -/
inductive Report (caret : Caret) (ctx : Context) : List Decision → TokenKind → Prop where
  | endOfLine (hend : caret.isAtEnd) : Report caret ctx [.endOfLine] .plain
  | insideComment (depth : Nat) (hend : ¬ caret.isAtEnd) (hdepth : 0 < ctx.depth) :
      Report caret ctx [.insideComment depth] .comment
  | openedComment (hend : ¬ caret.isAtEnd) (hdepth : ctx.depth = 0) :
      Report caret ctx [.openedComment] .comment
  | lineHead (line : LineKind) (kind : TokenKind) (hend : ¬ caret.isAtEnd)
      (hstart : caret.isAtStart) (hdepth : ctx.depth = 0)
      (hkind : (line, kind) ∈ Report.headKinds) :
      Report caret ctx [.lineStart line caret.indentation] kind
  | indentedProse (hend : ¬ caret.isAtEnd) (hstart : caret.isAtStart) (hdepth : ctx.depth = 0)
      (hblank : ∃ c ∈ caret.line.head?, Form.isBlank c) :
      Report caret ctx [.lineStart .prose caret.indentation] .plain
  | unindentedProse (hend : ¬ caret.isAtEnd) (hstart : caret.isAtStart) (hdepth : ctx.depth = 0)
      (hblank : Pattern.Stops Form.isBlank caret.line) :
      Report caret ctx [.lineStart .prose caret.indentation, .prose] .plain
  | stitch (expectation : Expectation) (kind : TokenKind) (hend : ¬ caret.isAtEnd)
      (hstart : ¬ caret.isAtStart) (hdepth : ctx.depth = 0)
      (hpending : ctx.pending = some expectation)
      (hexpectation : expectation = .stitchName ∨ expectation = .arrowTarget)
      (hkind : kind = .stitchName ∨ kind = .error) :
      Report caret ctx [.resolved expectation] kind
  | stringTail (hend : ¬ caret.isAtEnd) (hstart : ¬ caret.isAtStart) (hdepth : ctx.depth = 0)
      (hpending : ctx.pending = some .stringTail) :
      Report caret ctx [.resolved .stringTail] .error
  | property (entry : PropertyKind) (kind : TokenKind) (hend : ¬ caret.isAtEnd)
      (hstart : ¬ caret.isAtStart) (hdepth : ctx.depth = 0)
      (hpending : ctx.pending = some .properties) (hkind : (entry, kind) ∈ Report.entryKinds) :
      Report caret ctx [.resolved .properties, .property entry] kind
  | prose (hend : ¬ caret.isAtEnd) (hstart : ¬ caret.isAtStart) (hdepth : ctx.depth = 0)
      (hpending : ctx.pending = none) : Report caret ctx [.prose] .plain

namespace Report

theorem mem_headKinds {line : LineKind} (hline : line ≠ .prose) :
    (line, line.tokenKind) ∈ headKinds := by
  cases line with
  | prose => exact absurd rfl hline
  | _ => simp [headKinds, LineKind.tokenKind]

theorem mem_entryKinds {entry : PropertyKind} (hentry : entry ≠ .exhausted) :
    (entry, entry.tokenKind) ∈ entryKinds := by
  cases entry with
  | exhausted => exact absurd rfl hentry
  | _ => simp [entryKinds, PropertyKind.tokenKind]

theorem not_exhausted {caret : Caret} {ctx : Context} {decisions : List Decision}
    {kind : TokenKind} (h : Report caret ctx decisions kind) :
    Decision.property .exhausted ∉ decisions := by
  cases h with
  | property entry kind _ _ _ _ hkind =>
      have hentry : entry ≠ .exhausted := by
        rintro rfl
        simp [entryKinds] at hkind
      simpa using hentry.symm
  | _ => simp

end Report

namespace Decision

/-- What a decision leaves to come on a line that goes on. -/
def leaves : Decision → Option Expectation
  | .lineStart .stitchHeader _ => some .stitchName
  | .lineStart .labeledHeader _ | .lineStart .titleWithLabel _ | .lineStart .tag _ =>
      some .properties
  | .property .label | .property .integer | .property .bareword | .property .string
  | .property .malformed => some .properties
  | .property .arrow => some .arrowTarget
  | .property .unterminatedString | .resolved .stringTail => some .stringTail
  | _ => none

/-- The context after a decision on a line that goes on, found from the decision alone. -/
def apply (ctx : Context) : Decision → Context
  | .insideComment depth => { ctx with depth := depth }
  | .openedComment => { ctx with depth := 1 }
  | decision => { ctx with pending := decision.leaves }

def replay (ctx : Context) (decisions : List Decision) : Context := decisions.foldl apply ctx

end Decision

namespace Step

/-- The decisions of the step replay the context after it from the one before it. At the end of
the line nothing stays pending, unless the step is part of a comment and passes it on. -/
def Replays (ctx : Context) (step : Step) : Prop :=
  step.next =
    if step.rest = [] ∧ step.kind ≠ .comment then (Decision.replay ctx step.decisions).endLine
    else Decision.replay ctx step.decisions

/-- Most steps wait for what their last decision says and leave the depth alone. -/
theorem replays_of_expecting {ctx : Context} {step : Step} (next : Option Expectation)
    (hkind : step.kind ≠ .comment) (hnext : step.next = ctx.expecting next step.rest)
    (hreplay : Decision.replay ctx step.decisions = { ctx with pending := next }) :
    step.Replays ctx := by
  rw [Replays, hnext, hreplay]
  cases hrest : step.rest with
  | nil =>
      rw [if_pos ⟨rfl, hkind⟩]
      rfl
  | cons c rest =>
      rw [if_neg (by simp)]
      rfl

theorem endLine_eq_expecting (ctx : Context) (rest : List Char) :
    ctx.endLine = ctx.expecting none rest := by
  simp [Context.endLine, Context.expecting]

theorem insideComment_reports (ctx : Context) (text : List Char) :
    ∃ depth, (insideComment ctx text).decisions = [.insideComment depth] ∧
      (insideComment ctx text).kind = .comment ∧
      (insideComment ctx text).next = { ctx with depth := depth } := by
  rcases insideComment_cases ctx text with ⟨rest, _, hstep⟩ | ⟨rest, _, hstep⟩ | ⟨_, _, hstep⟩
  all_goals
    rw [hstep]
    exact ⟨_, rfl, rfl, rfl⟩

theorem stitch_reports (ctx : Context) (expectation : Expectation) (text : List Char) :
    (stitch ctx expectation text).decisions = [.resolved expectation] ∧
      ((stitch ctx expectation text).kind = .stitchName ∨
        (stitch ctx expectation text).kind = .error) ∧
      (stitch ctx expectation text).next = ctx := by
  unfold stitch
  split
  · exact ⟨rfl, Or.inl rfl, rfl⟩
  · exact ⟨rfl, Or.inr rfl, rfl⟩

end Step

/-- Where there is text an entry of a list is read. -/
theorem PropertyRule.read_ne_exhausted {text : List Char} (htext : text ≠ []) :
    (read all text).1 ≠ .exhausted := by
  rcases read_cases htext with ⟨kind, form, cut, hform, _, hread⟩ | ⟨_, hread⟩ | ⟨_, hread⟩
  · rw [hread]
    rintro rfl
    simp [forms] at hform
  · simp [hread]
  · simp [hread]

namespace LineHead

variable {line : List Char}

/-- A line without a mark is prose, and its head is its indentation. -/
theorem read_of_prose (h : (read line).1 = .prose) :
    read line = (.prose, .run Form.isBlank line) := by
  rcases read_cases line with ⟨cut, _, ⟨_, hread⟩ | ⟨_, hread⟩ | hread⟩ |
      ⟨indent, title, _, ⟨_, hread⟩ | ⟨before, rest, _, _, _, hread⟩⟩ | ⟨cut, _, hread⟩ |
      ⟨cut, _, _, hread⟩ | hread
  case inr.inr.inr.inr => exact hread
  all_goals
    rw [hread] at h
    cases h

theorem head_blank_of_prose (h : (read line).1 = .prose) (htaken : (read line).2.taken ≠ []) :
    ∃ c ∈ line.head?, Form.isBlank c := by
  rw [read_of_prose h] at htaken
  cases line with
  | nil => exact absurd rfl htaken
  | cons c rest =>
      refine ⟨c, rfl, ?_⟩
      rw [← Bool.not_eq_false]
      intro hblank
      exact htaken (List.takeWhile_cons_of_neg (by simp [hblank]))

theorem stops_of_prose (h : read line = (.prose, .nothing line)) :
    Pattern.Stops Form.isBlank line := by
  have hread := read_of_prose (congrArg Prod.fst h)
  rw [h, Prod.mk.injEq] at hread
  have htaken : [] = line.takeWhile Form.isBlank := congrArg Cut.taken hread.2
  intro c hc
  obtain ⟨rest, rfl⟩ := List.head?_eq_some_iff.mp hc
  rw [← Bool.not_eq_true]
  intro hblank
  rw [List.takeWhile_cons_of_pos hblank] at htaken
  cases htaken

end LineHead

/-- The step is reported as it should be, and its report replays the context after it. -/
def Step.IsExplained (caret : Caret) (ctx : Context) (step : Step) : Prop :=
  Report caret ctx step.decisions step.kind ∧ step.Replays (caret.entered ctx)

namespace Caret

variable {caret : Caret} {ctx : Context}

theorem line_of_isAtStart (hstart : caret.isAtStart) : caret.line = caret.rest := by
  have hpassed : caret.passed = [] := List.isEmpty_iff.mp hstart
  simp [line, consumed, hpassed]

theorem indentation_of_isAtStart (hstart : caret.isAtStart) :
    Column.indentation caret.tabWidth caret.rest = caret.indentation := by
  rw [indentation, line_of_isAtStart hstart]

theorem rest_eq_nil (hend : caret.isAtEnd) : caret.rest = [] := List.isEmpty_iff.mp hend

theorem rest_ne_nil (hend : ¬ caret.isAtEnd) : caret.rest ≠ [] := by
  rintro hrest
  exact hend (List.isEmpty_iff.mpr hrest)

theorem step_of_isAtEnd (hend : caret.isAtEnd) :
    caret.step ctx = .endOfLine ctx caret.rest := by
  simp [step, Context.firstStep, Context.step, rest_eq_nil hend]

theorem endLine_entered (caret : Caret) (ctx : Context) :
    (caret.entered ctx).endLine = ctx.endLine := by
  unfold entered
  split <;> rfl

theorem insideComment_isExplained (ctx : Context) (hend : ¬ caret.isAtEnd)
    (hdepth : 0 < ctx.depth) :
    (Step.insideComment (caret.entered ctx) caret.rest).IsExplained caret ctx := by
  obtain ⟨depth, hdecisions, hkind, hnext⟩ :=
    Step.insideComment_reports (caret.entered ctx) caret.rest
  rw [Step.IsExplained, Step.Replays, hdecisions, hkind, hnext]
  refine ⟨Report.insideComment depth hend hdepth, ?_⟩
  rw [if_neg (by simp)]
  rfl

theorem openComment_isExplained (ctx : Context) (hend : ¬ caret.isAtEnd)
    (hdepth : ctx.depth = 0) (cut : Cut) :
    (Step.openComment (caret.entered ctx) cut).IsExplained caret ctx := by
  refine ⟨Report.openedComment hend hdepth, ?_⟩
  rw [Step.Replays, if_neg (by simp [Step.openComment])]
  rfl

/-- The head of a line outside comments. -/
theorem lineHead_isExplained (ctx : Context) (hend : ¬ caret.isAtEnd) (hstart : caret.isAtStart)
    (hdepth : ctx.depth = 0) :
    (Step.lineHead caret.tabWidth (caret.entered ctx) caret.rest).IsExplained caret ctx := by
  have hrest := rest_ne_nil hend
  have hline := line_of_isAtStart hstart
  have hcolumn := indentation_of_isAtStart hstart
  rcases Step.lineHead_cases caret.tabWidth (caret.entered ctx) hrest with ⟨htaken, hstep⟩ |
      ⟨hread, hstep⟩
  · rw [hstep, hcolumn]
    have hreplay : Decision.replay (caret.entered ctx)
        [.lineStart (LineHead.read caret.rest).1 caret.indentation] =
          { caret.entered ctx with pending := (LineHead.read caret.rest).1.expects } := by
      cases (LineHead.read caret.rest).1 <;> rfl
    refine ⟨?_, Step.replays_of_expecting _ (LineKind.tokenKind_ne_comment _) rfl hreplay⟩
    by_cases hprose : (LineHead.read caret.rest).1 = .prose
    · have hblank := LineHead.head_blank_of_prose hprose htaken
      rw [← hline] at hblank
      simp only [hprose]
      exact Report.indentedProse hend hstart hdepth hblank
    · exact Report.lineHead _ _ hend hstart hdepth (Report.mem_headKinds hprose)
  · rw [hstep, hcolumn]
    have hblank := LineHead.stops_of_prose hread
    rw [← hline] at hblank
    refine ⟨Report.unindentedProse hend hstart hdepth hblank, ?_⟩
    have hentered : caret.entered ctx = ctx.endLine := if_pos hstart
    rw [hentered]
    exact Step.replays_of_expecting none (by simp) (Step.endLine_eq_expecting ctx _) rfl

/-- What was pending is taken up, past the start of the line and outside comments. -/
theorem expected_isExplained {expectation : Expectation} (hend : ¬ caret.isAtEnd)
    (hstart : ¬ caret.isAtStart) (hdepth : ctx.depth = 0)
    (hpending : ctx.pending = some expectation) :
    (Step.expected ctx expectation caret.rest).IsExplained caret ctx := by
  have hentered : caret.entered ctx = ctx := if_neg hstart
  have hstitch (hexpectation : expectation = .stitchName ∨ expectation = .arrowTarget) :
      (Step.stitch ctx.endLine expectation caret.rest).IsExplained caret ctx := by
    obtain ⟨hdecisions, hkind, hnext⟩ :=
      Step.stitch_reports ctx.endLine expectation caret.rest
    rw [Step.IsExplained, hdecisions, hentered]
    refine ⟨Report.stitch expectation _ hend hstart hdepth hpending hexpectation hkind, ?_⟩
    apply Step.replays_of_expecting none
    · rcases hkind with hkind | hkind <;> simp [hkind]
    · rw [hnext]
      exact Step.endLine_eq_expecting ctx _
    · rw [hdecisions]
      rcases hexpectation with rfl | rfl <;> rfl
  cases expectation with
  | stitchName => exact hstitch (Or.inl rfl)
  | arrowTarget => exact hstitch (Or.inr rfl)
  | properties =>
      have hentry := PropertyRule.read_ne_exhausted (rest_ne_nil hend)
      refine ⟨Report.property _ _ hend hstart hdepth hpending (Report.mem_entryKinds hentry), ?_⟩
      rw [hentered]
      apply Step.replays_of_expecting _ (PropertyKind.tokenKind_ne_comment _) rfl
      simp only [Step.expected, Step.property, Step.propertyBy]
      cases (PropertyRule.read PropertyRule.all caret.rest).1 <;> rfl
  | stringTail =>
      refine ⟨Report.stringTail hend hstart hdepth hpending, ?_⟩
      rw [hentered]
      exact Step.replays_of_expecting (some .stringTail)
        (by simp [Step.expected, Step.stringTail]) rfl rfl

theorem endOfLine_isExplained (hend : caret.isAtEnd) :
    (Step.endOfLine ctx caret.rest).IsExplained caret ctx := by
  refine ⟨Report.endOfLine hend, ?_⟩
  apply Step.replays_of_expecting none (by simp [Step.endOfLine])
  · rw [← Step.endLine_eq_expecting, endLine_entered]
    rfl
  · rfl

theorem prose_isExplained (hend : ¬ caret.isAtEnd) (hstart : ¬ caret.isAtStart)
    (hdepth : ctx.depth = 0) (hpending : ctx.pending = none) :
    (Step.prose ctx caret.rest).IsExplained caret ctx := by
  have hentered : caret.entered ctx = ctx := if_neg hstart
  have hidle : ctx = ctx.endLine := by
    rw [Context.endLine, ← hpending]
  refine ⟨Report.prose hend hstart hdepth hpending, ?_⟩
  rw [hentered]
  apply Step.replays_of_expecting none (by simp [Step.prose])
  · rw [← Step.endLine_eq_expecting, ← hidle]
    rfl
  · rfl

/-- Every step of a host is explained, wherever its caret stands and whatever its context. -/
theorem step_isExplained (caret : Caret) (ctx : Context) :
    (caret.step ctx).IsExplained caret ctx := by
  by_cases hend : caret.isAtEnd
  · rw [step_of_isAtEnd hend]
    exact endOfLine_isExplained hend
  have hrest := rest_ne_nil hend
  have hinside := insideComment_isExplained ctx hend
  have hopen := openComment_isExplained ctx hend
  unfold step
  split
  · next hstart =>
      have hentered : caret.entered ctx = ctx.endLine := if_pos hstart
      have hhead := lineHead_isExplained ctx hend hstart
      rw [hentered] at hinside hopen hhead
      rcases ctx.firstStep_cases caret.tabWidth hrest with ⟨hdepth, hstep⟩ |
          ⟨indent, rest, hdepth, _, hstep⟩ | ⟨hdepth, _, hstep⟩
      · rw [hstep]
        exact hinside hdepth
      · rw [hstep]
        exact hopen hdepth _
      · rw [hstep]
        exact hhead hdepth
  · next hstart =>
      have hentered : caret.entered ctx = ctx := if_neg hstart
      rw [hentered] at hinside hopen
      rcases ctx.step_cases hrest with ⟨hdepth, hstep⟩ | ⟨rest, hdepth, _, hstep⟩ |
          ⟨expectation, hdepth, _, hpending, hstep⟩ | ⟨hdepth, _, hpending, hstep⟩
      · rw [hstep]
        exact hinside hdepth
      · rw [hstep]
        exact hopen hdepth _
      · rw [hstep]
        exact expected_isExplained hend hstart hdepth hpending
      · rw [hstep]
        exact prose_isExplained hend hstart hdepth hpending

end Caret

namespace Step.Replays

variable {ctx : Context} {step : Step}

/-- On a line that goes on the decisions give the context exactly. -/
theorem next_of_rest (h : step.Replays ctx) (hrest : step.rest ≠ []) :
    step.next = Decision.replay ctx step.decisions := by
  rw [Replays, if_neg fun hend => hrest hend.1] at h
  exact h

/-- At the end of a line all that may differ is dropped. -/
theorem endLine_next (h : step.Replays ctx) :
    step.next.endLine = (Decision.replay ctx step.decisions).endLine := by
  rw [Replays] at h
  rw [h]
  split <;> rfl

end Step.Replays

namespace Context

theorem step_replays (ctx : Context) (text : List Char) : (ctx.step text).Replays ctx :=
  -- A step inside a line is a step of any caret that has passed something.
  (Caret.step_isExplained ⟨['x'], text, 0⟩ ctx).2

theorem firstStep_replays (tabWidth : Nat) (ctx : Context) (line : List Char) :
    (ctx.firstStep tabWidth line).Replays ctx.endLine :=
  (Caret.step_isExplained (Caret.atStart line tabWidth) ctx).2

/-- The context after some steps, found from the one before them and from their reports, up to
what is dropped at the end of the line. -/
def ReplayedBy (ctx : Context) (earlier later : List Step) : Prop :=
  let replayed := Decision.replay ctx (earlier.flatMap Step.decisions)
  (later ≠ [] → ctx.afterSteps earlier = replayed) ∧
    (ctx.afterSteps earlier).endLine = replayed.endLine

/-- A step that replays can be put in front of steps that are replayed. If it ends the line there
are none. -/
theorem replayedBy_cons {ctx : Context} {first : Step} {earlier later : List Step}
    (hfirst : first.Replays ctx) (hend : first.rest = [] → earlier ++ later = [])
    (hlater : first.next.ReplayedBy earlier later) :
    ctx.ReplayedBy (first :: earlier) later := by
  have hsplit : Decision.replay ctx ((first :: earlier).flatMap Step.decisions) =
      Decision.replay (Decision.replay ctx first.decisions) (earlier.flatMap Step.decisions) := by
    rw [List.flatMap_cons, Decision.replay, List.foldl_append]
    rfl
  unfold ReplayedBy
  rw [hsplit]
  by_cases hrest : first.rest = []
  · obtain ⟨rfl, rfl⟩ := List.append_eq_nil_iff.mp (hend hrest)
    exact ⟨fun hne => absurd rfl hne, hfirst.endLine_next⟩
  · rw [← hfirst.next_of_rest hrest]
    exact hlater

theorem steps_replay (ctx : Context) (text : List Char) :
    ∀ earlier later, ctx.steps text = earlier ++ later → ctx.ReplayedBy earlier later := by
  induction ctx, text using Context.steps.induct with
  | case1 ctx =>
      intro earlier later hsteps
      rw [steps] at hsteps
      obtain ⟨rfl, rfl⟩ := List.append_eq_nil_iff.mp hsteps.symm
      exact ⟨fun _ => rfl, rfl⟩
  | case2 ctx c rest step ih =>
      intro earlier later hsteps
      cases earlier with
      | nil => exact ⟨fun _ => rfl, rfl⟩
      | cons first earlier =>
          rw [steps, List.cons_append, List.cons.injEq] at hsteps
          obtain ⟨rfl, hlater⟩ := hsteps
          refine replayedBy_cons (ctx.step_replays (c :: rest)) ?_ (ih earlier later hlater)
          intro hrest
          rw [← hlater, hrest, steps]

theorem lineSteps_replay (tabWidth : Nat) (ctx : Context) (line : List Char)
    {earlier later : List Step} (hsteps : ctx.lineSteps tabWidth line = earlier ++ later) :
    ctx.endLine.ReplayedBy earlier later := by
  cases earlier with
  | nil => exact ⟨fun _ => rfl, rfl⟩
  | cons first earlier =>
      have hline : line ≠ [] := by
        rintro rfl
        cases hsteps
      rw [lineSteps_of_ne_nil tabWidth ctx hline, List.cons_append, List.cons.injEq] at hsteps
      obtain ⟨rfl, hlater⟩ := hsteps
      refine replayedBy_cons (ctx.firstStep_replays tabWidth line) ?_
        (steps_replay _ _ earlier later hlater)
      intro hrest
      rw [← hlater, hrest, steps]

theorem lexLine_replay (tabWidth : Nat) (ctx : Context) (line : List Char) :
    (ctx.lexLine tabWidth line).next =
      (Decision.replay ctx.endLine (ctx.lexLine tabWidth line).decisions).endLine := by
  have hstart (steps : List Step) :
      (ctx.afterSteps steps).endLine = (ctx.endLine.afterSteps steps).endLine := by
    cases steps <;> rfl
  have hall := (List.append_nil (ctx.lineSteps tabWidth line)).symm
  exact (hstart _).trans (ctx.lineSteps_replay tabWidth line hall).2

end Context

/-- Every step reports one of the lists of decisions there are, where it can be made and with the
kind that goes with it, and never that a list of properties is exhausted. The report gives the
context after the step, and the reports of a line give the context before each of its steps and
the one after the line. -/
theorem decisions_explain_steps :
    (∀ (caret : Caret) (ctx : Context),
      let step := caret.step ctx
      Report caret ctx step.decisions step.kind ∧
        Decision.property .exhausted ∉ step.decisions ∧
        step.next =
          if step.rest = [] ∧ step.kind ≠ .comment then
            (Decision.replay (caret.entered ctx) step.decisions).endLine
          else Decision.replay (caret.entered ctx) step.decisions) ∧
      ∀ (tabWidth : Nat) (ctx : Context) (line : List Char),
        (∀ earlier step later, ctx.lineSteps tabWidth line = earlier ++ step :: later →
          ctx.endLine.afterSteps earlier =
            Decision.replay ctx.endLine (earlier.flatMap Step.decisions)) ∧
          (ctx.lexLine tabWidth line).next =
            (Decision.replay ctx.endLine (ctx.lexLine tabWidth line).decisions).endLine := by
  refine ⟨?_, ?_⟩
  · intro caret ctx step
    obtain ⟨hreport, hreplays⟩ := caret.step_isExplained ctx
    exact ⟨hreport, hreport.not_exhausted, hreplays⟩
  · intro tabWidth ctx line
    constructor
    · intro earlier step later hsteps
      exact (ctx.lineSteps_replay tabWidth line hsteps).1 (List.cons_ne_nil step later)
    · exact ctx.lexLine_replay tabWidth line

end StitchMarkup
