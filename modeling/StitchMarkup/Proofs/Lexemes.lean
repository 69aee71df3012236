import StitchMarkup.Proofs.FormLanguage
import StitchMarkup.Proofs.Tiling

/-!
What the text of a token can be. Each kind has its forms, given here as languages that know
nothing of patterns, and a few of them depend on where on the line the text stands. A token with
a form of its own is never cut short: it is the longest text of its form at its place and takes
all blanks after it. The lexer is looked at one step at a time, since a step knows both the text
it takes and the text it leaves.
-/

namespace StitchMarkup

namespace Lexeme

def blanks : Language Char := runs Form.isBlank

def name : Language Char := singles Char.isLower * runs Form.isNameTail

def stitchMark : Language Char := blanks * {['#', '#']} * blanks

def tagMark : Language Char := {['!'], ['?']}

def tag : Language Char := blanks * tagMark * blanks * name * blanks

/-- The name of a stitch or a bare word. -/
def word : Language Char := name * blanks

def label : Language Char := {['|', '>']} * blanks * name * blanks

def number : Language Char := singles Char.isDigit * runs Char.isDigit * blanks

def string : Language Char := {['"']} * runs Form.isQuotable * {['"']} * blanks

def arrow : Language Char := {['-', '>']} * blanks

end Lexeme

open Lexeme

/-- The text is of a form that ends in blanks, and nothing after it could have been part of it.
The class is that of the last run before the blanks. -/
structure IsComplete (form : Language Char) (last : Char → Bool) (text after : List Char) :
    Prop where
  longest : Longest form text after
  no_blank_after : Pattern.Stops Form.isBlank after
  no_more_after : (∃ c ∈ text.getLast?, Form.isBlank c) ∨ Pattern.Stops last after

/-- The class of a form that has no run before its blanks. -/
def noRun : Char → Bool := fun _ => false

/-- What a text can be as a token of a kind, between the text before it on its line and the text
after it. -/
def IsLexeme (before text after : List Char) : TokenKind → Prop
  | .header =>
      IsComplete stitchMark noRun text after ∨
        ∃ indent ∈ blanks, ∃ title, text = indent ++ '#' :: title ∧ title.head? ≠ some '#' ∧
          ¬ ['|', '>'] <:+: title ∧ (after = [] ∨ ['|', '>'] <+: after)
  | .tag => IsComplete tag Form.isNameTail text after
  | .stitchName | .word => IsComplete word Form.isNameTail text after
  | .label => IsComplete label Form.isNameTail text after
  | .number => IsComplete number Char.isDigit text after
  | .string => IsComplete string noRun text after
  | .arrow => IsComplete arrow noRun text after
  | .comment =>
      text = ['{', '-'] ∨ text = ['-', '}'] ∨ text.length = 1 ∨
        before = [] ∧ text ∈ blanks * {['{', '-']}
  | .error =>
      text.length = 1 ∨
        before = [] ∧ text ∈ blanks * tagMark ∧
          ∀ named ∈ blanks * name, ¬ named <+: after
  | .plain => text.length = 1 ∨ before = [] ∧ text ∈ blanks ∧ Pattern.Stops Form.isBlank after

namespace Form

open Pattern

theorem settled_before_blanks {p : Char → Bool} (hp : p ' ' = false ∧ p '\t' = false) (c : Char)
    (hc : p c = true) : begins blanks c = false := by
  simp [blanks, begins, isBlank_eq_false hp hc]

theorem settled_blanks : Settled blanks := ⟨fun _ _ => rfl, trivial⟩

theorem settled_name : Settled (thenBlanks name) :=
  ⟨settled_before_blanks (by decide), settled_blanks⟩

theorem settled_tagName : Settled tagName :=
  ⟨eq_false_of_isBlank (by decide), fun _ _ => rfl, trivial⟩

theorem settled_stitchMark : Settled stitchMark :=
  ⟨eq_false_of_isBlank (by decide), settled_blanks⟩

theorem settled_tag : Settled tag :=
  ⟨eq_false_of_isBlank (by decide), eq_false_of_isBlank (by decide), settled_name⟩

end Form

namespace PropertyRule

theorem settled_of_mem_forms {kind : PropertyKind} {form : Pattern}
    (h : (kind, form) ∈ forms) : (Form.thenBlanks form).Settled := by
  simp only [forms, List.mem_cons, List.not_mem_nil, or_false, Prod.mk.injEq] at h
  rcases h with ⟨_, rfl⟩ | ⟨_, rfl⟩ | ⟨_, rfl⟩ | ⟨_, rfl⟩ | ⟨_, rfl⟩
  · exact ⟨Form.eq_false_of_isBlank (by decide), Form.settled_name⟩
  · exact ⟨Form.settled_before_blanks (by decide), Form.settled_blanks⟩
  · exact Form.settled_name
  · exact ⟨Pattern.not_mark_of (by decide), Form.settled_blanks⟩
  · exact Form.settled_blanks

end PropertyRule

namespace IsComplete

variable {form : Pattern} {language : Language Char} {text : List Char} {cut : Cut}

/-- A form is complete where it is matched with the blanks after it. -/
theorem of_cut? (hlanguage : form.language = language) (hform : (Form.thenBlanks form).Settled)
    (h : (Form.thenBlanks form).cut? text = some cut) :
    IsComplete (language * blanks) form.lastRun cut.taken cut.rest := by
  have hblanks : (Form.thenBlanks form).language = language * blanks := by
    simp [Form.thenBlanks, Form.blanks, blanks, hlanguage]
  have hstops := Pattern.stops_of_cut? h
  rw [Form.thenBlanks, Form.blanks, Pattern.lastRun_append_run] at hstops
  have hlongest := Pattern.longest_of_cut? hform h
  rw [hblanks] at hlongest
  refine ⟨hlongest, hstops, ?_⟩
  rw [Form.thenBlanks, Pattern.cut?_append] at h
  obtain ⟨inner, hinner, hafter⟩ := Option.bind_eq_some_iff.mp h
  rw [Form.blanks, Pattern.cut?_run, Option.map_some, Option.some.injEq] at hafter
  subst hafter
  cases hrun : (Cut.run Form.isBlank inner.rest).taken with
  | nil =>
      have hwhole := Cut.whole_run Form.isBlank inner.rest
      rw [Cut.whole, hrun, List.nil_append] at hwhole
      apply Or.inr
      rw [Cut.after, hwhole]
      exact Pattern.stops_of_cut? hinner
  | cons c run =>
      have hblank : ∀ d ∈ c :: run, Form.isBlank d := by
        rw [← hrun]
        exact fun d hd => List.mem_takeWhile_imp hd
      refine Or.inl ⟨_, ?_, hblank _ (List.getLast_mem (List.cons_ne_nil c run))⟩
      rw [Cut.after, hrun, List.getLast?_append_of_ne_nil _ (List.cons_ne_nil c run)]
      exact List.getLast?_eq_getLast_of_ne_nil _

end IsComplete

namespace Form

theorem language_blanks : blanks.language = Lexeme.blanks := Pattern.language_run isBlank

theorem language_name : name.language = Lexeme.name := by
  simp [name, Lexeme.name, Pattern.language]

theorem language_tagName : tagName.language = Lexeme.blanks * Lexeme.name := by
  rw [tagName, Pattern.language_append, language_blanks, language_name]

theorem singles_isTagMark : singles isTagMark = Lexeme.tagMark := by
  ext text
  constructor
  · rintro ⟨c, hc, rfl⟩
    rcases isTagMark_iff.mp hc with rfl | rfl
    · exact Or.inl rfl
    · exact Or.inr rfl
  · rintro (rfl | rfl)
    · exact ⟨'!', rfl, rfl⟩
    · exact ⟨'?', rfl, rfl⟩

theorem language_tagMark : tagMark.language = Lexeme.blanks * Lexeme.tagMark := by
  rw [tagMark, Pattern.language_append, language_blanks, Pattern.language_one, singles_isTagMark]

theorem language_stitchMark :
    (blanks ++ Pattern.literal ['#', '#']).language = Lexeme.blanks * {['#', '#']} := by
  rw [Pattern.language_append, language_blanks, Pattern.language_literal]

theorem language_tag :
    (tagMark ++ tagName).language =
      Lexeme.blanks * Lexeme.tagMark * Lexeme.blanks * Lexeme.name := by
  rw [Pattern.language_append, language_tagMark, language_tagName, ← mul_assoc]

theorem language_label :
    label.language = {['|', '>']} * Lexeme.blanks * Lexeme.name := by
  rw [label, Pattern.language_append, language_tagName, ← mul_assoc]
  exact congrArg (· * Lexeme.blanks * Lexeme.name) (Pattern.language_literal ['|', '>'])

theorem language_quoted :
    quoted.language = {['"']} * runs isQuotable * {['"']} := by
  rw [quoted, Pattern.language_append, Pattern.language_append, Pattern.language_run]
  exact congrArg (fun mark => mark * runs isQuotable * mark) (Pattern.language_literal ['"'])

theorem language_integer : integer.language = singles Char.isDigit * runs Char.isDigit := by
  simp [integer, Pattern.language]

theorem language_arrow : arrow.language = {['-', '>']} := Pattern.language_literal ['-', '>']

end Form

/-- The text a step takes is a lexeme of the kind of the step. -/
def Step.HasForm (before : List Char) (step : Step) : Prop :=
  IsLexeme before step.taken step.rest step.kind

theorem Cut.length_taken_one {text : List Char} (htext : text ≠ []) :
    (one text).taken.length = 1 := by
  cases text with
  | nil => exact absurd rfl htext
  | cons c rest => rfl

/-- An entry of a list of properties is a lexeme of its kind. -/
theorem PropertyRule.isLexeme_of_form {kind : PropertyKind} {form : Pattern} {text : List Char}
    {cut : Cut} (before : List Char) (hform : (kind, form) ∈ forms)
    (hcut : (Form.thenBlanks form).cut? text = some cut) :
    IsLexeme before cut.taken cut.rest kind.tokenKind := by
  have hsettled := settled_of_mem_forms hform
  simp only [forms, List.mem_cons, List.not_mem_nil, or_false, Prod.mk.injEq] at hform
  rcases hform with ⟨rfl, rfl⟩ | ⟨rfl, rfl⟩ | ⟨rfl, rfl⟩ | ⟨rfl, rfl⟩ | ⟨rfl, rfl⟩
  · exact IsComplete.of_cut? Form.language_label hsettled hcut
  · exact IsComplete.of_cut? Form.language_integer hsettled hcut
  · exact IsComplete.of_cut? Form.language_name hsettled hcut
  · exact IsComplete.of_cut? Form.language_quoted hsettled hcut
  · exact IsComplete.of_cut? Form.language_arrow hsettled hcut

namespace Step

variable {ctx : Context} {text : List Char}

theorem insideComment_hasForm (before : List Char) (htext : text ≠ []) :
    (insideComment ctx text).HasForm before := by
  rcases insideComment_cases ctx text with ⟨rest, _, hstep⟩ | ⟨rest, _, hstep⟩ | ⟨_, _, hstep⟩
  · rw [hstep]
    exact Or.inr (Or.inl rfl)
  · rw [hstep]
    exact Or.inl rfl
  · rw [hstep]
    exact Or.inr (Or.inr (Or.inl (Cut.length_taken_one htext)))

theorem stitch_hasForm (before : List Char) (expectation : Expectation) (htext : text ≠ []) :
    (stitch ctx expectation text).HasForm before := by
  unfold stitch
  split
  · next cut hcut =>
      exact IsComplete.of_cut? Form.language_name Form.settled_name hcut
  · exact Or.inl (Cut.length_taken_one htext)

theorem property_hasForm (before : List Char) (htext : text ≠ []) :
    (property ctx text).HasForm before := by
  rcases PropertyRule.read_cases htext with ⟨kind, form, cut, hform, hcut, hread⟩ | ⟨_, hread⟩ |
      ⟨_, hread⟩
  · rw [HasForm, property_of_read hread]
    exact PropertyRule.isLexeme_of_form before hform hcut
  · rw [HasForm, property_of_read hread]
    exact Or.inl (Cut.length_taken_one htext)
  · rw [HasForm, property_of_read hread]
    exact Or.inl (Cut.length_taken_one htext)

theorem expected_hasForm (before : List Char) (expectation : Expectation) (htext : text ≠ []) :
    (expected ctx expectation text).HasForm before := by
  cases expectation with
  | stitchName => exact stitch_hasForm before .stitchName htext
  | properties => exact property_hasForm before htext
  | arrowTarget => exact stitch_hasForm before .arrowTarget htext
  | stringTail => exact Or.inl (Cut.length_taken_one htext)

end Step

/-- Inside a line every step takes a lexeme, whatever stands before it. -/
theorem Context.step_hasForm (ctx : Context) (before : List Char) {text : List Char}
    (htext : text ≠ []) : (ctx.step text).HasForm before := by
  rcases ctx.step_cases htext with ⟨_, hstep⟩ | ⟨rest, _, _, hstep⟩ |
      ⟨expectation, _, _, _, hstep⟩ | ⟨_, _, _, hstep⟩
  · rw [hstep]
    exact Step.insideComment_hasForm before htext
  · rw [hstep]
    exact Or.inl rfl
  · rw [hstep]
    exact Step.expected_hasForm before expectation htext
  · rw [hstep]
    exact Or.inl (Cut.length_taken_one htext)

theorem Context.steps_hasForm (ctx : Context) (text before : List Char) :
    ∀ step ∈ ctx.steps text, step.HasForm before := by
  induction ctx, text using Context.steps.induct with
  | case1 ctx =>
      rw [steps]
      exact fun step hstep => absurd hstep List.not_mem_nil
  | case2 ctx c rest first ih =>
      rw [steps]
      intro step hstep
      rcases List.mem_cons.mp hstep with rfl | hlater
      · exact ctx.step_hasForm before (List.cons_ne_nil c rest)
      · exact ih step hlater

namespace LineHead

variable {line : List Char} {cut : Cut}

/-- Where only the mark of a tag is read, no name stands after it. -/
theorem no_name_of_malformedTag (htag : Form.tag.cut? line = none)
    (hmark : Form.tagMark.cut? line = some cut) :
    ∀ named ∈ blanks * name, ¬ named <+: cut.rest := by
  rw [← Form.language_tagName]
  apply Pattern.not_prefix_of_cut?_eq_none Form.settled_tagName
  rw [Form.tag, Form.cut?_thenBlanks_eq_none_iff, Pattern.cut?_append, hmark] at htag
  simpa using htag

/-- The head of a line is a lexeme, of a form that only counts at the start of the line. -/
theorem read_isLexeme (line : List Char) (htaken : (read line).2.taken ≠ []) :
    IsLexeme [] (read line).2.taken (read line).2.rest (read line).1.tokenKind := by
  rcases read_cases line with ⟨cut, hcut, hread⟩ | ⟨indent, title, his, hread⟩ |
      ⟨cut, hcut, hread⟩ | ⟨cut, htag, hcut, hread⟩ | hread
  · have hcomplete := IsComplete.of_cut? Form.language_stitchMark Form.settled_stitchMark hcut
    rcases hread with ⟨_, hread⟩ | ⟨_, hread⟩ | hread
    all_goals
      rw [hread]
      exact Or.inl hcomplete
  · obtain ⟨hindent, rfl, hhead⟩ := his
    rcases hread with ⟨hlabel, hread⟩ | ⟨before, rest, rfl, hrest, hlabel, hread⟩
    · rw [hread]
      exact Or.inr ⟨indent, hindent, title, rfl, hhead, hlabel, Or.inl rfl⟩
    · rw [hread]
      refine Or.inr ⟨indent, hindent, before, rfl, ?_, hlabel, Or.inr hrest⟩
      cases before with
      | nil => simp
      | cons c before => exact hhead
  · rw [hread]
    exact IsComplete.of_cut? Form.language_tag Form.settled_tag hcut
  · have hmark := Pattern.mem_language_of_cut? hcut
    rw [Form.language_tagMark] at hmark
    rw [hread]
    exact Or.inr ⟨rfl, hmark, no_name_of_malformedTag htag hcut⟩
  · have hcut : Form.blanks.cut? line = some (.run Form.isBlank line) :=
      Pattern.cut?_run Form.isBlank line
    have hblanks := Pattern.mem_language_of_cut? hcut
    rw [Form.language_blanks] at hblanks
    rw [hread]
    exact Or.inr ⟨rfl, hblanks, Pattern.stops_of_cut? hcut⟩

end LineHead

namespace Context

theorem firstStep_hasForm (tabWidth : Nat) (ctx : Context) {line : List Char} (hline : line ≠ []) :
    (ctx.firstStep tabWidth line).HasForm [] := by
  rcases ctx.firstStep_cases tabWidth hline with ⟨_, hstep⟩ | ⟨indent, rest, _, hopen, hstep⟩ |
      ⟨_, _, hstep⟩
  · rw [hstep]
    exact Step.insideComment_hasForm [] hline
  · rw [hstep]
    exact Or.inr (Or.inr (Or.inr ⟨rfl, Language.append_mem_mul hopen.1 rfl⟩))
  · rw [hstep]
    rcases Step.lineHead_cases tabWidth ctx.endLine hline with ⟨htaken, hhead⟩ | ⟨_, hhead⟩
    · rw [hhead]
      exact LineHead.read_isLexeme line htaken
    · rw [hhead]
      exact Or.inl (Cut.length_taken_one hline)

end Context

/-- The text of every token is one that its kind can have where it stands on its line, and a
token of a form of its own is as long as it can be. -/
theorem tokens_are_lexemes (tabWidth : Nat) (ctx : Context) (line : List Char) :
    ∀ token ∈ Token.ofPieces (ctx.lexLine tabWidth line).pieces,
      ∃ before text after, line = before ++ text ++ after ∧ text ≠ [] ∧
        token.start = byteLength before ∧ token.stop = byteLength (before ++ text) ∧
        IsLexeme before text after token.kind := by
  intro token htoken
  by_cases hline : line = []
  · subst line
    cases htoken
  have htiles := ctx.lineSteps_tile tabWidth line
  have hfirst := ctx.firstStep_hasForm tabWidth hline
  rw [Context.lineSteps_of_ne_nil tabWidth ctx hline] at htiles
  rw [(ctx.lexLine_of_ne_nil tabWidth hline).1] at htoken
  generalize ctx.firstStep tabWidth line = first at htiles htoken hfirst
  obtain ⟨⟨hwhole, htaken⟩, hlater⟩ := htiles
  rcases List.mem_cons.mp htoken with rfl | hmem
  · exact ⟨[], first.taken, first.rest, hwhole.symm, htaken, rfl, by simp [Step.piece], hfirst⟩
  · obtain ⟨step, hstep, before, hrest, hnonempty, rfl⟩ := hlater.exists_step_of_mem_place hmem
    refine ⟨first.taken ++ before, step.taken, step.rest, ?_, hnonempty, ?_, ?_,
      Context.steps_hasForm _ _ _ step hstep⟩
    · rw [← hwhole, Cut.whole, hrest]
      simp
    · simp [Step.piece]
    · simp [Step.piece]

theorem tokens_are_lexemes_stitchName :
    let line := ['#', '#', ' ', 'a']
    let token : Token := ⟨.stitchName, 3, 4⟩
    token ∈ Token.ofPieces (Context.initial.lexLine 4 line).pieces ∧
      ∃ before text after, line = before ++ text ++ after ∧ text ≠ [] ∧
        token.start = byteLength before ∧ token.stop = byteLength (before ++ text) ∧
        IsLexeme before text after token.kind := by
  intro line token
  have htoken : token ∈ Token.ofPieces (Context.initial.lexLine 4 line).pieces := by
    decide +kernel
  exact ⟨htoken, tokens_are_lexemes 4 .initial line token htoken⟩

end StitchMarkup
