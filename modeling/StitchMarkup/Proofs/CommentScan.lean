import StitchMarkup.Proofs.Stepping

/-!
Comments as a reader sees them who knows their two marks and nothing else. Such a reader counts
opening and closing marks from left to right. The lexer outside comments moves by whole names,
strings, arrows and headers, yet it finds the same comments: of all it can take in one step only
a title may hold an opening mark, and a mark is never split between two steps.
-/

namespace StitchMarkup

/-- A mark that begins with the first character of a text either stands in it, or the text is
that character and the mark ends after it. -/
theorem mark_in_or_across {a b c : Char} {text rest : List Char}
    (h : [a, b] <+: c :: (text ++ rest)) :
    [a, b] <+: c :: text ∨ text = [] ∧ c = a ∧ rest.head? = some b := by
  obtain ⟨tail, htail⟩ := h
  obtain ⟨rfl, hlater⟩ := List.cons.inj htail
  cases text with
  | nil =>
      refine Or.inr ⟨rfl, rfl, ?_⟩
      rw [← show b :: tail = rest from hlater]
      rfl
  | cons d text =>
      obtain ⟨rfl, _⟩ := List.cons.inj hlater
      exact Or.inl ⟨text, rfl⟩

/-- The context inside so many further comments. -/
def Context.deeper (outer : Context) (level : Nat) : Context :=
  { outer with depth := outer.depth + level }

/-- A text of which every character is inside a comment, or none is. -/
def marked (inside : Bool) (text : List Char) : List (Char × Bool) :=
  text.map (·, inside)

/-- The characters of a line with whether each lies in a comment token. -/
def commentMarks (pieces : List Piece) : List (Char × Bool) :=
  pieces.flatMap fun piece => marked (piece.kind == .comment) piece.text

/-- What counting comment marks in a text finds out. -/
structure CommentScan where
  marks : List (Char × Bool)
  depth : Nat
deriving DecidableEq, Repr

namespace CommentScan

def after (marks : List (Char × Bool)) (scan : CommentScan) : CommentScan :=
  ⟨marks ++ scan.marks, scan.depth⟩

/-- Counts the comment marks of a text from a depth on. The two characters of a mark are read
together, a closing mark counts inside comments only and goes before an opening one. -/
def of : Nat → List Char → CommentScan
  | depth, [] => ⟨[], depth⟩
  | 0, '{' :: '-' :: rest => (of 1 rest).after (marked true ['{', '-'])
  | 0, c :: rest => (of 0 rest).after (marked false [c])
  | depth + 1, '-' :: '}' :: rest => (of depth rest).after (marked true ['-', '}'])
  | depth + 1, '{' :: '-' :: rest => (of (depth + 2) rest).after (marked true ['{', '-'])
  | depth + 1, c :: rest => (of (depth + 1) rest).after (marked true [c])

@[simp] theorem after_depth (marks : List (Char × Bool)) (scan : CommentScan) :
    (scan.after marks).depth = scan.depth := rfl

@[simp] theorem after_marks (marks : List (Char × Bool)) (scan : CommentScan) :
    (scan.after marks).marks = marks ++ scan.marks := rfl

theorem of_nil (depth : Nat) : of depth [] = ⟨[], depth⟩ := by
  cases depth <;> rfl

theorem of_outside {c : Char} {rest : List Char} (h : ¬ ['{', '-'] <+: c :: rest) :
    of 0 (c :: rest) = (of 0 rest).after (marked false [c]) := by
  rw [of]
  rintro tail rfl rfl
  exact h ⟨tail, rfl⟩

theorem of_inside {depth : Nat} {c : Char} {rest : List Char} (hclose : ¬ ['-', '}'] <+: c :: rest)
    (hopen : ¬ ['{', '-'] <+: c :: rest) :
    of (depth + 1) (c :: rest) = (of (depth + 1) rest).after (marked true [c]) := by
  rw [of]
  · rintro tail rfl rfl
    exact hclose ⟨tail, rfl⟩
  · rintro tail rfl rfl
    exact hopen ⟨tail, rfl⟩

/-- Outside comments a text without an opening brace is passed over. It does not matter what
follows, since no mark can begin inside it. -/
theorem of_append_of_not_mem {taken : List Char} (rest : List Char) (h : '{' ∉ taken) :
    of 0 (taken ++ rest) = (of 0 rest).after (marked false taken) := by
  induction taken with
  | nil => rfl
  | cons c taken ih =>
      simp only [List.mem_cons, not_or] at h
      have hmark : ¬ ['{', '-'] <+: c :: (taken ++ rest) := by
        rintro ⟨tail, htail⟩
        exact h.1 (List.cons.inj htail).1
      rw [List.cons_append, of_outside hmark, ih h.2]
      rfl

end CommentScan

namespace Step

/-- The step agrees with the count of comment marks: on the depth it leaves and on whether what
it takes is inside a comment. -/
def CountsComments (depth : Nat) (text : List Char) (step : Step) : Prop :=
  CommentScan.of depth text =
    (CommentScan.of step.next.depth step.rest).after
      (marked (step.kind == .comment) step.taken)

theorem insideComment_countsComments {ctx : Context} {text : List Char} (hdepth : 0 < ctx.depth)
    (htext : text ≠ []) : (insideComment ctx text).CountsComments ctx.depth text := by
  obtain ⟨depth, hsucc⟩ : ∃ depth, ctx.depth = depth + 1 := ⟨ctx.depth - 1, by omega⟩
  rcases insideComment_cases ctx text with ⟨rest, rfl, hstep⟩ | ⟨rest, rfl, hstep⟩ |
      ⟨hclose, hopen, hstep⟩
  · rw [CountsComments, hstep, hsucc]
    rfl
  · rw [CountsComments, hstep, hsucc]
    rfl
  · cases text with
    | nil => exact absurd rfl htext
    | cons c rest =>
        rw [CountsComments, hstep, hsucc, CommentScan.of_inside hclose hopen]
        rfl

/-- A step outside comments that opens none has to show that no opening mark begins in what it
takes: there is no brace in it, or it is the one character of a brace without a hyphen. -/
theorem countsComments_of_outside {text : List Char} {step : Step} (htext : text ≠ [])
    (hkind : step.kind ≠ .comment) (hdepth : step.next.depth = 0)
    (htaken : step.toCut.whole = text ∧ '{' ∉ step.taken ∨
      ¬ ['{', '-'] <+: text ∧ step.toCut = .one text) :
    step.CountsComments 0 text := by
  have hmarks : (step.kind == .comment) = false := by simpa using hkind
  rw [CountsComments, hdepth, hmarks]
  rcases htaken with ⟨hwhole, hbrace⟩ | ⟨hmark, hone⟩
  · rw [← hwhole]
    exact CommentScan.of_append_of_not_mem step.rest hbrace
  · cases text with
    | nil => exact absurd rfl htext
    | cons c rest =>
        rw [hone, CommentScan.of_outside hmark]
        rfl

/-- Taking up an expectation never touches a comment: no form that is read has room for a
brace. -/
theorem expected_countsComments {ctx : Context} {expectation : Expectation} {text : List Char}
    (htext : text ≠ []) (hdepth : ctx.depth = 0) (hmark : ¬ ['{', '-'] <+: text) :
    (expected ctx expectation text).CountsComments 0 text := by
  have hstitch (expectation : Expectation) :
      (stitch ctx.endLine expectation text).CountsComments 0 text := by
    unfold stitch
    split
    · next cut hcut =>
        apply countsComments_of_outside htext (by simp) hdepth
        apply Or.inl
        exact ⟨Pattern.whole_of_cut? hcut, Pattern.not_mem_of_excludes (by decide) hcut⟩
    · exact countsComments_of_outside htext (by simp) hdepth (Or.inr ⟨hmark, rfl⟩)
  cases expectation with
  | stitchName => exact hstitch .stitchName
  | arrowTarget => exact hstitch .arrowTarget
  | stringTail =>
      exact countsComments_of_outside htext (by simp [expected, stringTail]) hdepth
        (Or.inr ⟨hmark, rfl⟩)
  | properties =>
      have hkind : (property ctx.endLine text).kind ≠ .comment :=
        PropertyKind.tokenKind_ne_comment _
      apply countsComments_of_outside htext hkind hdepth
      rcases PropertyRule.read_cases htext with ⟨kind, form, cut, hform, hcut, hread⟩ |
          ⟨_, hread⟩ | ⟨_, hread⟩
      · rw [property_of_read hread]
        exact Or.inl ⟨Pattern.whole_of_cut? hcut,
          Pattern.not_mem_of_excludes (PropertyRule.excludes_of_form hform) hcut⟩
      · exact Or.inr ⟨hmark, by rw [property_of_read hread]⟩
      · exact Or.inr ⟨hmark, by rw [property_of_read hread]⟩

end Step

namespace Context

theorem step_countsComments (ctx : Context) {text : List Char} (htext : text ≠ []) :
    (ctx.step text).CountsComments ctx.depth text := by
  rcases ctx.step_cases htext with ⟨hdepth, hstep⟩ | ⟨rest, hdepth, rfl, hstep⟩ |
      ⟨expectation, hdepth, hmark, _, hstep⟩ | ⟨hdepth, hmark, _, hstep⟩
  · rw [hstep]
    exact Step.insideComment_countsComments hdepth htext
  · rw [Step.CountsComments, hstep, hdepth]
    rfl
  · rw [hstep, hdepth]
    exact Step.expected_countsComments htext hdepth hmark
  · rw [hstep, hdepth]
    exact Step.countsComments_of_outside htext (by simp [Step.prose]) hdepth
      (Or.inr ⟨hmark, rfl⟩)

/-- From inside a line on, up to its end, the lexer and the count of marks agree. -/
theorem steps_countComments (ctx : Context) (text : List Char) :
    CommentScan.of ctx.depth text =
      ⟨commentMarks ((ctx.steps text).map Step.piece),
        (ctx.afterSteps (ctx.steps text)).depth⟩ := by
  induction ctx, text using Context.steps.induct with
  | case1 ctx =>
      rw [CommentScan.of_nil, steps]
      rfl
  | case2 ctx c rest step ih =>
      have hstep := ctx.step_countsComments (List.cons_ne_nil c rest)
      rw [hstep, ih, steps]
      rfl

/-- What is left to look at on a line is its first step. -/
theorem lexLine_comments (tabWidth : Nat) (ctx : Context) {line : List Char}
    (hline : line ≠ []) :
    let first := ctx.firstStep tabWidth line
    let scan := (CommentScan.of first.next.depth first.rest).after
      (marked (first.kind == .comment) first.taken)
    commentMarks (ctx.lexLine tabWidth line).pieces = scan.marks ∧
      (ctx.lexLine tabWidth line).next.depth = scan.depth := by
  obtain ⟨hpieces, hnext⟩ := ctx.lexLine_of_ne_nil tabWidth hline
  have hlater := steps_countComments (ctx.firstStep tabWidth line).next
    (ctx.firstStep tabWidth line).rest
  intro first scan
  constructor
  · rw [hpieces, CommentScan.after_marks, hlater]
    rfl
  · rw [hnext, CommentScan.after_depth, hlater]
    rfl

/-- The head of a line that is no title hides no comment. -/
theorem lineHead_countsComments (tabWidth : Nat) {ctx : Context} {line : List Char}
    (hline : line ≠ []) (hdepth : ctx.depth = 0)
    (htitle : ∀ indent title, ¬ IsTitle line indent title)
    (hopen : ∀ indent rest, ¬ OpensComment line indent rest) :
    (Step.lineHead tabWidth ctx line).CountsComments 0 line := by
  rcases Step.lineHead_cases tabWidth ctx hline with ⟨_, hstep⟩ | ⟨_, hstep⟩
  · rw [hstep]
    apply Step.countsComments_of_outside hline (LineKind.tokenKind_ne_comment _) hdepth
    apply Or.inl
    have hexcludes : ∀ form ∈ LineHead.forms, form.excludes '{' := by decide
    obtain ⟨form, hform, hcut⟩ := LineHead.read_eq_cut htitle
    exact ⟨LineHead.whole_read line, Pattern.not_mem_of_excludes (hexcludes form hform) hcut⟩
  · rw [hstep]
    refine Step.countsComments_of_outside hline (by simp) hdepth (Or.inr ⟨?_, rfl⟩)
    rintro ⟨rest, hrest⟩
    exact hopen [] rest ⟨by simp, hrest.symm⟩

/-- Every other first step agrees with the count of marks. -/
theorem firstStep_countsComments (tabWidth : Nat) {ctx : Context} {line : List Char}
    (hline : line ≠ [])
    (htitle : ∀ indent title, 0 < ctx.depth ∨ ¬ IsTitle line indent title)
    (hopen : ∀ indent rest, 0 < ctx.depth ∨ ¬ OpensComment line indent rest) :
    (ctx.firstStep tabWidth line).CountsComments ctx.depth line := by
  rcases ctx.firstStep_cases tabWidth hline with ⟨hdepth, hstep⟩ |
      ⟨indent, rest, hdepth, hopens, _⟩ | ⟨hdepth, hnone, hstep⟩
  · rw [hstep]
    have hinside : 0 < ctx.endLine.depth := hdepth
    exact Step.insideComment_countsComments hinside hline
  · rcases hopen indent rest with hinside | hnot
    · omega
    · exact absurd hopens hnot
  · rw [hstep, hdepth]
    refine lineHead_countsComments tabWidth hline hdepth ?_ hnone
    intro indent title
    exact (htitle indent title).resolve_left (by omega)

theorem comments_of_opensComment (tabWidth : Nat) {ctx : Context} {line indent rest : List Char}
    (hdepth : ctx.depth = 0) (hopen : OpensComment line indent rest) :
    commentMarks (ctx.lexLine tabWidth line).pieces =
        marked true indent ++ (CommentScan.of 0 ('{' :: '-' :: rest)).marks ∧
      (ctx.lexLine tabWidth line).next.depth = (CommentScan.of 0 line).depth := by
  have hbrace : '{' ∉ indent := fun hmem => absurd (hopen.1 '{' hmem) (by decide)
  obtain ⟨hmarks, hnext⟩ := ctx.lexLine_comments tabWidth hopen.ne_nil
  rw [firstStep_of_opensComment tabWidth hdepth hopen] at hmarks hnext
  constructor
  · rw [hmarks]
    simp [Step.openComment, CommentScan.of, marked]
  · rw [hnext, hopen.2, CommentScan.of_append_of_not_mem _ hbrace]
    rfl

theorem comments_of_isTitle (tabWidth : Nat) {ctx : Context} {line indent title : List Char}
    (hdepth : ctx.depth = 0) (his : IsTitle line indent title) :
    let head := (LineHead.read line).2
    commentMarks (ctx.lexLine tabWidth line).pieces =
        marked false head.taken ++ (CommentScan.of 0 head.rest).marks ∧
      (ctx.lexLine tabWidth line).next.depth = (CommentScan.of 0 head.rest).depth := by
  obtain ⟨hcut, hkind, hfirst⟩ := firstStep_of_isTitle tabWidth hdepth his
  obtain ⟨hmarks, hnext⟩ := ctx.lexLine_comments tabWidth his.ne_nil
  rw [hcut, hkind, hfirst] at hmarks hnext
  exact ⟨hmarks, hnext⟩

end Context

/-- The comments of a line are those that counting their two marks finds, whatever else is on
the line. There are two exceptions. A title hides all marks up to its first label mark, or up to
the end of the line; and the indentation of a line that begins with a comment belongs to it. -/
theorem comments_are_counted (tabWidth : Nat) (ctx : Context) (line : List Char) :
    let lexed := ctx.lexLine tabWidth line
    ((∀ indent title, 0 < ctx.depth ∨ ¬ IsTitle line indent title) →
      lexed.next.depth = (CommentScan.of ctx.depth line).depth ∧
        ((∀ indent rest, 0 < ctx.depth ∨ ¬ OpensComment line indent rest) →
          commentMarks lexed.pieces = (CommentScan.of ctx.depth line).marks) ∧
        ∀ indent rest, ctx.depth = 0 → OpensComment line indent rest →
          commentMarks lexed.pieces =
            marked true indent ++ (CommentScan.of 0 ('{' :: '-' :: rest)).marks) ∧
      (∀ indent title, ctx.depth = 0 → IsTitle line indent title → ¬ ['|', '>'] <:+: title →
        lexed.next.depth = 0 ∧ commentMarks lexed.pieces = marked false line) ∧
      ∀ indent before after, ctx.depth = 0 →
        IsTitle line indent (before ++ '|' :: '>' :: after) → ¬ ['|', '>'] <:+: before →
        lexed.next.depth = (CommentScan.of 0 ('|' :: '>' :: after)).depth ∧
          commentMarks lexed.pieces = marked false (indent ++ '#' :: before) ++
            (CommentScan.of 0 ('|' :: '>' :: after)).marks := by
  intro lexed
  refine ⟨?_, ?_, ?_⟩
  · intro htitle
    by_cases hline : line = []
    · subst line
      have hempty : ∀ indent rest, ¬ OpensComment [] indent rest := by
        rintro indent rest ⟨_, hwhole⟩
        simp at hwhole
      rw [CommentScan.of_nil]
      exact ⟨rfl, fun _ => rfl, fun indent rest _ hopens => absurd hopens (hempty indent rest)⟩
    have hcounts (hopen : ∀ indent rest, 0 < ctx.depth ∨ ¬ OpensComment line indent rest) :
        commentMarks lexed.pieces = (CommentScan.of ctx.depth line).marks ∧
          lexed.next.depth = (CommentScan.of ctx.depth line).depth := by
      have hfirst := Context.firstStep_countsComments tabWidth hline htitle hopen
      rw [hfirst]
      exact ctx.lexLine_comments tabWidth hline
    refine ⟨?_, fun hopen => (hcounts hopen).1, ?_⟩
    · by_cases hopens : ctx.depth = 0 ∧ ∃ indent rest, OpensComment line indent rest
      · obtain ⟨hdepth, indent, rest, hopen⟩ := hopens
        rw [hdepth]
        exact (Context.comments_of_opensComment tabWidth hdepth hopen).2
      · refine (hcounts fun indent rest => ?_).2
        by_cases hdepth : ctx.depth = 0
        · exact Or.inr fun hopen => hopens ⟨hdepth, indent, rest, hopen⟩
        · exact Or.inl (by omega)
    · intro indent rest hdepth hopen
      exact (Context.comments_of_opensComment tabWidth hdepth hopen).1
  · intro indent title hdepth his hlabel
    obtain ⟨hmarks, hnext⟩ := Context.comments_of_isTitle tabWidth hdepth his
    have hfind : Form.labelMark.find? title = none :=
      Pattern.find?_literal_eq_none_iff.mpr hlabel
    rw [LineHead.read_of_isTitle his, hfind] at hmarks hnext
    refine ⟨hnext, ?_⟩
    rw [hmarks]
    exact List.append_nil (marked false line)
  · intro indent before after hdepth his hlabel
    obtain ⟨hmarks, hnext⟩ := Context.comments_of_isTitle tabWidth hdepth his
    have hfind : Form.labelMark.find? (before ++ '|' :: '>' :: after) =
        some ⟨before, '|' :: '>' :: after⟩ :=
      Pattern.find?_literal_append (by decide) hlabel
    rw [LineHead.read_of_isTitle his, hfind] at hmarks hnext
    refine ⟨hnext, ?_⟩
    rw [hmarks]
    simp [Cut.after]

end StitchMarkup
