import StitchMarkup.Proofs.CaretRuns
import StitchMarkup.Proofs.KindOrder

/-!
Strings that are never closed. A quote in a list of properties is decided by the rest of its
line: where no later quote closes it, it is an error and so is each character after it, but for
comments, which are still read. The tail of the string waits through any comment and is dropped
with the last character only, so nothing on the line is read as anything else. Where a later
quote closes it, no tail begins, even if what stands between the two is no string.
-/

namespace StitchMarkup

/-- A step in a string that is never closed: a part of a comment, or a single character as an
error. The string goes on after it, unless the error was the last character of the line. -/
structure Step.InUnclosed (step : Step) : Prop where
  kind : step.kind = .comment ∨ step.kind = .error ∧ ∃ c, step.taken = [c]
  pending : step.next.pending =
    if step.kind = .error ∧ step.rest = [] then none else some .stringTail

theorem Context.expecting_pending (ctx : Context) (next : Option Expectation) (rest : List Char) :
    (ctx.expecting next rest).pending = if rest = [] then none else next := by
  simp [expecting]

namespace Form

theorem startsAt_thenBlanks_iff {form : Pattern} {text : List Char} :
    (thenBlanks form).startsAt text ↔ form.startsAt text := by
  simp only [Pattern.startsAt, Option.isSome_iff_ne_none, ne_eq, cut?_thenBlanks_eq_none_iff]

/-- A string in quotes is cut where its characters end, if there is a quote. -/
theorem cut?_quoted (body : List Char) :
    quoted.cut? ('"' :: body) =
      (quoteMark.cut? (body.dropWhile isQuotable)).map
        (·.after ('"' :: body.takeWhile isQuotable)) := by
  simp only [quoted, Pattern.cut?_append, Pattern.cut?_run]
  rfl

/-- A quote that no later one closes begins no string. -/
theorem cut?_quoted_of_not_mem {body : List Char} (hquote : '"' ∉ body) :
    quoted.cut? ('"' :: body) = none := by
  rw [cut?_quoted, Option.map_eq_none_iff, quoteMark, Pattern.cut?_literal_eq_none_iff]
  intro hprefix
  have hdropped : '"' ∈ body.dropWhile isQuotable := hprefix.subset List.mem_cons_self
  exact hquote ((List.dropWhile_suffix isQuotable).subset hdropped)

/-- Between the first two quotes there is a string or there is not, by the characters there. -/
theorem startsAt_quoted_iff {inner : List Char} (hquote : '"' ∉ inner) (after : List Char) :
    quoted.startsAt ('"' :: (inner ++ '"' :: after)) ↔ ∀ c ∈ inner, isQuotable c := by
  rw [Pattern.startsAt, cut?_quoted, Option.isSome_map]
  constructor
  · intro hstarts
    have hmark : ['"'] <+: (inner ++ '"' :: after).dropWhile isQuotable :=
      Pattern.startsAt_literal_iff.mp hstarts
    by_contra hother
    have hdropped : inner.dropWhile isQuotable ≠ [] := by
      rw [ne_eq, List.dropWhile_eq_nil_iff]
      exact hother
    -- The run of the body ends at the first character that is not allowed, before any quote.
    rw [List.dropWhile_append, if_neg (by simpa using hdropped)] at hmark
    obtain ⟨c, rest, hrest⟩ := List.exists_cons_of_ne_nil hdropped
    have hc : c ∈ inner := (List.dropWhile_suffix isQuotable).subset (hrest ▸ List.mem_cons_self)
    rw [hrest] at hmark
    obtain ⟨tail, htail⟩ := hmark
    exact hquote ((List.cons.inj htail).1 ▸ hc)
  · intro hall
    have hdropped : (inner ++ '"' :: after).dropWhile isQuotable = '"' :: after := by
      rw [List.dropWhile_append_of_pos hall]
      rfl
    rw [hdropped]
    exact Pattern.startsAt_literal_iff.mpr ⟨after, rfl⟩

end Form

/-- What a list of properties makes of a quote: a string, the beginning of an unclosed one, or
an error by itself. -/
theorem PropertyRule.read_quote (body : List Char) :
    read all ('"' :: body) =
      match (Form.thenBlanks Form.quoted).cut? ('"' :: body) with
      | some cut => (.string, cut)
      | none => (if '"' ∈ body then .malformed else .unterminatedString, .one ('"' :: body)) := by
  have hlabel : (Form.thenBlanks Form.label).cut? ('"' :: body) = none :=
    Pattern.cut?_cons_of_lead (by decide) body
  have hinteger : (Form.thenBlanks Form.integer).cut? ('"' :: body) = none :=
    Pattern.cut?_cons_of_lead (by decide) body
  have hname : (Form.thenBlanks Form.name).cut? ('"' :: body) = none :=
    Pattern.cut?_cons_of_lead (by decide) body
  have harrow : (Form.thenBlanks Form.arrow).cut? ('"' :: body) = none :=
    Pattern.cut?_cons_of_lead (by decide) body
  simp only [read, all, forms, List.map_cons, List.map_nil, List.cons_append, List.nil_append,
    List.findSome?_cons, List.findSome?_nil, ofForm, unterminated, Form.isUnclosed, hlabel,
    hinteger, hname, harrow, Option.map_none]
  cases (Form.thenBlanks Form.quoted).cut? ('"' :: body) with
  | some cut => rfl
  | none => by_cases hquote : '"' ∈ body <;> simp [hquote]

namespace Step

variable {ctx : Context} {text body : List Char}

theorem stringTail_inUnclosed (ctx : Context) (htext : text ≠ []) :
    (stringTail ctx text).InUnclosed := by
  obtain ⟨c, rest, rfl⟩ := List.exists_cons_of_ne_nil htext
  refine ⟨Or.inr ⟨rfl, c, rfl⟩, ?_⟩
  simp only [stringTail, Context.expecting_pending, true_and]

theorem insideComment_inUnclosed (hpending : ctx.pending = some .stringTail)
    (text : List Char) : (insideComment ctx text).InUnclosed := by
  have hkind := insideComment_kind ctx text
  refine ⟨Or.inl hkind, ?_⟩
  rw [insideComment_pending, hkind, hpending]
  simp

theorem openComment_inUnclosed (hpending : ctx.pending = some .stringTail) (cut : Cut) :
    (openComment ctx cut).InUnclosed := by
  refine ⟨Or.inl rfl, ?_⟩
  simp only [openComment, hpending, reduceCtorEq, false_and, if_false]

/-- A quote that no later one closes is an error, and the rest of the line is its string. -/
theorem property_of_unclosed (ctx : Context) (hquote : '"' ∉ body) :
    property ctx ('"' :: body) =
      ⟨⟨['"'], body⟩, .error, ctx.expecting (some .stringTail) body,
        [.resolved .properties, .property .unterminatedString]⟩ := by
  have hquoted : (Form.thenBlanks Form.quoted).cut? ('"' :: body) = none :=
    Form.cut?_thenBlanks_eq_none_iff.mpr (Form.cut?_quoted_of_not_mem hquote)
  have hread := PropertyRule.read_quote body
  rw [hquoted, if_neg hquote] at hread
  rw [property_of_read hread]
  rfl

/-- A quote that is closed begins a string or is an error by itself, and the list goes on. -/
theorem property_of_closed {inner : List Char} (ctx : Context) (hquote : '"' ∉ inner)
    (after : List Char) :
    let step := property ctx ('"' :: (inner ++ '"' :: after))
    ((∀ c ∈ inner, Form.isQuotable c) →
        step.kind = .string ∧ step.next = ctx.expecting (some .properties) step.rest) ∧
      (¬ (∀ c ∈ inner, Form.isQuotable c) →
        step.piece = ⟨.error, ['"']⟩ ∧ step.next.pending = some .properties) := by
  intro step
  have hclosed : '"' ∈ inner ++ '"' :: after := List.mem_append_right inner List.mem_cons_self
  have hread := PropertyRule.read_quote (inner ++ '"' :: after)
  have hstarts := Form.startsAt_thenBlanks_iff.trans
    (Form.startsAt_quoted_iff hquote after)
  constructor
  · intro hall
    obtain ⟨cut, hcut⟩ := Option.isSome_iff_exists.mp (hstarts.mpr hall)
    rw [hcut] at hread
    simp only [step, property_of_read hread]
    exact ⟨rfl, rfl⟩
  · intro hother
    have hcut : (Form.thenBlanks Form.quoted).cut? ('"' :: (inner ++ '"' :: after)) = none :=
      Option.not_isSome_iff_eq_none.mp fun hsome => hother (hstarts.mp hsome)
    rw [hcut, if_pos hclosed] at hread
    simp only [step, property_of_read hread]
    exact ⟨rfl, by simp [Context.expecting_pending, Cut.one, PropertyKind.expects]⟩

end Step

namespace Context

variable {ctx : Context} {text body : List Char}

/-- While the tail of a string is pending, every step is in the string. -/
theorem step_inUnclosed (hpending : ctx.pending = some .stringTail) (htext : text ≠ []) :
    (ctx.step text).InUnclosed := by
  rcases ctx.step_cases htext with ⟨_, hstep⟩ | ⟨rest, _, _, hstep⟩ |
      ⟨expectation, _, _, htail, hstep⟩ | ⟨_, _, hnone, _⟩
  · rw [hstep]
    exact Step.insideComment_inUnclosed hpending text
  · rw [hstep]
    exact Step.openComment_inUnclosed hpending _
  · rw [hpending] at htail
    cases htail
    rw [hstep]
    exact Step.stringTail_inUnclosed ctx.endLine htext
  · rw [hpending] at hnone
    cases hnone

/-- So all that follows a step in the string is in it, up to the end of the line. -/
theorem steps_inUnclosed (hpending : text ≠ [] → ctx.pending = some .stringTail) :
    ∀ step ∈ ctx.steps text, step.InUnclosed := by
  induction ctx, text using Context.steps.induct with
  | case1 ctx =>
      rw [steps]
      simp
  | case2 ctx c rest step ih =>
      have hnonempty : c :: rest ≠ [] := List.cons_ne_nil c rest
      have hfirst := step_inUnclosed (hpending hnonempty) hnonempty
      rw [ctx.steps_of_ne_nil hnonempty, List.forall_mem_cons]
      refine ⟨hfirst, ih fun hrest => ?_⟩
      exact hfirst.pending.trans (if_neg fun hend => hrest hend.2)

/-- Where no comment begins, each character of the tail is an error by itself. -/
theorem steps_of_stringTail (hdepth : ctx.depth = 0)
    (hpending : text ≠ [] → ctx.pending = some .stringTail) (hopen : ¬ ['{', '-'] <:+: text) :
    (ctx.steps text).map Step.piece = text.map fun c => ⟨.error, [c]⟩ := by
  induction text generalizing ctx with
  | nil =>
      rw [steps]
      rfl
  | cons c rest ih =>
      have hnonempty : c :: rest ≠ [] := List.cons_ne_nil c rest
      have hhere : ¬ ['{', '-'] <+: c :: rest := fun hprefix => hopen hprefix.isInfix
      have hlater : ¬ ['{', '-'] <:+: rest := fun hinfix => hopen (List.infix_cons hinfix)
      have hstep : ctx.step (c :: rest) = .stringTail ctx.endLine (c :: rest) :=
        step_of_pending hnonempty hdepth hhere (hpending hnonempty)
      let next := ctx.endLine.expecting (some .stringTail) rest
      have hdepthNext : next.depth = 0 := hdepth
      have hnext : rest ≠ [] → next.pending = some .stringTail := by
        intro hrest
        rw [expecting_pending, if_neg hrest]
      have htail := ih hdepthNext hnext hlater
      rw [ctx.steps_of_ne_nil hnonempty, hstep, List.map_cons, List.map_cons]
      exact congrArg (_ :: ·) htail

/-- At a quote a list of properties reads the quote. -/
theorem step_of_quote (hdepth : ctx.depth = 0) (hpending : ctx.pending = some .properties)
    (body : List Char) : ctx.step ('"' :: body) = .property ctx.endLine ('"' :: body) :=
  step_of_pending (List.cons_ne_nil '"' body) hdepth (by simp) hpending

/-- A string that is never closed takes the rest of the line. -/
theorem steps_of_unclosed (hdepth : ctx.depth = 0) (hpending : ctx.pending = some .properties)
    (hquote : '"' ∉ body) :
    let steps := ctx.steps ('"' :: body)
    (steps.map Step.piece).head? = some ⟨.error, ['"']⟩ ∧
      (∀ step ∈ steps, step.InUnclosed) ∧
      (¬ ['{', '-'] <:+: '"' :: body →
        steps.map Step.piece = ('"' :: body).map fun c => ⟨.error, [c]⟩) := by
  intro steps
  let next := ctx.endLine.expecting (some .stringTail) body
  have hsteps : steps =
      ⟨⟨['"'], body⟩, .error, next, [.resolved .properties, .property .unterminatedString]⟩ ::
        next.steps body := by
    simp only [steps]
    rw [ctx.steps_of_ne_nil (List.cons_ne_nil '"' body), step_of_quote hdepth hpending,
      Step.property_of_unclosed ctx.endLine hquote]
  have hdepthNext : next.depth = 0 := hdepth
  have hnext : next.pending = if body = [] then none else some .stringTail :=
    expecting_pending _ _ _
  have htail : body ≠ [] → next.pending = some .stringTail := by
    intro hbody
    rw [hnext, if_neg hbody]
  rw [hsteps]
  refine ⟨rfl, ?_, ?_⟩
  · rw [List.forall_mem_cons]
    refine ⟨⟨Or.inr ⟨rfl, '"', rfl⟩, ?_⟩, steps_inUnclosed htail⟩
    simp only [hnext, true_and]
  · intro hopen
    have hlater : ¬ ['{', '-'] <:+: body := fun hinfix => hopen (List.infix_cons hinfix)
    exact congrArg (_ :: ·) (steps_of_stringTail hdepthNext htail hlater)

end Context

/-- Inside a line and outside comments, where a list of properties is pending, a quote decides
about the rest of the line. If no later quote closes it, each further token is an error of one
character, the quote first, or a part of a comment, and the tail of the string is pending after
each of them but an error at the end of the line. If one does, no tail is pending. The token is
then a string just where all characters up to the next quote are allowed in one, and otherwise
it is the quote as an error, with the list still pending. -/
theorem unclosed_string_claims_line (caret : Caret) (ctx : Context) (body : List Char)
    (hinside : ¬ caret.isAtStart) (hdepth : ctx.depth = 0)
    (hpending : ctx.pending = some .properties) (hrest : caret.rest = '"' :: body) :
    let steps := (caret.run ctx).map Visit.step
    let first := caret.step ctx
    ('"' ∉ body →
      (steps.map Step.piece).head? = some ⟨.error, ['"']⟩ ∧
        (∀ step ∈ steps, step.InUnclosed) ∧
        (¬ ['{', '-'] <:+: caret.rest →
          steps.map Step.piece = caret.rest.map fun c => ⟨.error, [c]⟩)) ∧
      ('"' ∈ body → first.next.pending ≠ some .stringTail) ∧
      ∀ inner after, body = inner ++ '"' :: after → '"' ∉ inner →
        (first.kind = .string ↔ ∀ c ∈ inner, Form.isQuotable c) ∧
          (¬ (∀ c ∈ inner, Form.isQuotable c) →
            first.piece = ⟨.error, ['"']⟩ ∧ first.next.pending = some .properties) := by
  intro steps first
  have hsteps : steps = ctx.steps ('"' :: body) := by
    simp only [steps]
    rw [Caret.map_step_run, Caret.steps, if_neg hinside, hrest]
  have hfirst : first = .property ctx.endLine ('"' :: body) := by
    simp only [first]
    rw [Caret.step_of_not_isAtStart hinside, hrest, Context.step_of_quote hdepth hpending]
  rw [hsteps, hfirst, hrest]
  refine ⟨Context.steps_of_unclosed hdepth hpending, ?_, ?_⟩
  · intro hclosed
    obtain ⟨inner, after, rfl, hquote⟩ := List.eq_append_cons_of_mem hclosed
    obtain ⟨hstring, herror⟩ := Step.property_of_closed ctx.endLine hquote after
    by_cases hall : ∀ c ∈ inner, Form.isQuotable c
    · rw [(hstring hall).2, Context.expecting_pending]
      split <;> simp
    · rw [(herror hall).2]
      simp
  · rintro inner after rfl hquote
    obtain ⟨hstring, herror⟩ := Step.property_of_closed ctx.endLine hquote after
    refine ⟨⟨?_, fun hall => (hstring hall).1⟩, herror⟩
    intro hkind
    by_contra hall
    have hpiece := congrArg Piece.kind (herror hall).1
    rw [Step.piece, hkind] at hpiece
    cases hpiece

/-- A string left open with a comment in it, and one that is closed but holds a colon. -/
theorem unclosed_string_claims_line_comment :
    let ctx : Context := ⟨0, some .properties⟩
    let opened : Caret := ⟨['a'], "\"b\x7b-c-\x7dd".toList, 4⟩
    let closed : Caret := ⟨['a'], "\":\" x".toList, 4⟩
    (¬ opened.isAtStart ∧ '"' ∉ "b\x7b-c-\x7dd".toList) ∧
      (∀ step ∈ (opened.run ctx).map Visit.step, step.InUnclosed) ∧
      ¬ closed.isAtStart ∧ (closed.step ctx).next.pending = some .properties := by
  intro ctx opened closed
  have hopened : ¬ opened.isAtStart := by decide
  have hclosed : ¬ closed.isAtStart := by decide
  have hquote : '"' ∉ "b\x7b-c-\x7dd".toList := by decide
  have htail := (unclosed_string_claims_line opened ctx "b\x7b-c-\x7dd".toList hopened rfl rfl
    (by decide)).1 hquote
  have hlist := (unclosed_string_claims_line closed ctx ":\" x".toList hclosed rfl rfl
    (by decide)).2.2 [':'] [' ', 'x'] (by decide) (by decide)
  have hcolon : ¬ ∀ c ∈ [':'], Form.isQuotable c := fun hall =>
    absurd (hall ':' List.mem_cons_self) (by decide)
  exact ⟨⟨hopened, hquote⟩, htail.2.1, hclosed, (hlist.2 hcolon).2⟩

end StitchMarkup
