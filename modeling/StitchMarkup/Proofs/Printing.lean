import StitchMarkup.Proofs.Markup
import StitchMarkup.Proofs.Stepping

/-!
Written markup is read back piece by piece. Each form is shown to stop where a writer stops: the
last run of a form ends at the blanks after it, and these end where the next piece begins. The
rest of a line is then a run of the lexer that takes up one expectation after the other, by
induction on the written list.
-/

namespace StitchMarkup

namespace Markup

open Pattern

variable {rest : List Char}

theorem Name.not_blank (name : Name) : Form.isBlank name.initial = false :=
  Form.isBlank_eq_false (p := Char.isLower) (by decide) name.initial_lower

theorem Name.reads (name : Name) (hrest : Stops Form.isNameTail rest) :
    Form.name.Reads name.text rest := by
  have hinitial : Reads [.one Char.isLower] [name.initial] (name.tail ++ rest) :=
    Reads.one name.initial_lower _
  exact hinitial.append (Reads.run name.tail_allowed hrest)

theorem Name.reads_tagName (name : Name) (gap : Blanks) (hrest : Stops Form.isNameTail rest) :
    Form.tagName.Reads (gap.1 ++ name.text) rest := by
  have hgap : Form.blanks.Reads gap.1 (name.text ++ rest) :=
    Reads.run gap.2 (stops_cons name.not_blank _)
  exact hgap.append (name.reads hrest)

namespace Property

/-- The entry the property is read as and the form it is written in. -/
def entry : Property → PropertyKind × Pattern
  | .label _ _ => (.label, Form.label)
  | .integer _ _ _ _ => (.integer, Form.integer)
  | .word _ => (.bareword, Form.name)
  | .string _ _ => (.string, Form.quoted)

theorem entry_mem_forms (property : Property) : property.entry ∈ PropertyRule.forms := by
  cases property <;> simp [entry, PropertyRule.forms]

theorem entry_tokenKind (property : Property) :
    property.entry.1.tokenKind = property.kind := by
  cases property <;> rfl

theorem entry_expects (property : Property) :
    property.entry.1.expects = some .properties := by
  cases property <;> rfl

/-- A written property is read up to its end if blanks come after it or the line is over. -/
theorem reads (property : Property) {after : List Char} (hafter : ∀ c ∈ after, Form.isBlank c)
    (hsep : after ≠ [] ∨ rest = []) :
    property.entry.2.Reads property.text (after ++ rest) := by
  have hname : Stops Form.isNameTail (after ++ rest) :=
    Form.stops_blanks (by decide) hafter hsep
  cases property with
  | label gap name =>
      have hmark : Form.labelMark.Reads ['|', '>'] ((gap.1 ++ name.text) ++ (after ++ rest)) :=
        Reads.literal ['|', '>'] _
      exact hmark.append (name.reads_tagName gap hname)
  | integer first digits hfirst hdigits =>
      have hlead : Reads [.one Char.isDigit] [first] (digits ++ (after ++ rest)) :=
        Reads.one hfirst _
      have hdigit : Stops Char.isDigit (after ++ rest) :=
        Form.stops_blanks (by decide) hafter hsep
      exact hlead.append (Reads.run hdigits hdigit)
  | word name => exact name.reads hname
  | string body hbody =>
      have hopen : Form.quoteMark.Reads ['"'] (body ++ (['"'] ++ (after ++ rest))) :=
        Reads.literal ['"'] _
      have hquote : Stops Form.isQuotable (['"'] ++ (after ++ rest)) :=
        stops_cons (by decide) _
      have hbegin : (Form.quoteMark ++ [Atom.run Form.isQuotable]).Reads (['"'] ++ body)
          (['"'] ++ (after ++ rest)) := hopen.append (Reads.run hbody hquote)
      have hclose : Form.quoteMark.Reads ['"'] (after ++ rest) := Reads.literal ['"'] _
      exact hbegin.append hclose

end Property

end Markup

namespace Context

/-- Read on from a context, the text gives these pieces and ends outside comments. -/
def Lexes (ctx : Context) (text : List Char) (pieces : List Piece) : Prop :=
  (ctx.steps text).map Step.piece = pieces ∧ (ctx.afterSteps (ctx.steps text)).depth = 0

theorem lexes_nil {ctx : Context} (hdepth : ctx.depth = 0) : ctx.Lexes [] [] := by
  unfold Lexes
  rw [steps]
  exact ⟨rfl, hdepth⟩

theorem lexes_of_step {ctx : Context} {text : List Char} {pieces : List Piece} {step : Step}
    (htext : text ≠ []) (hstep : ctx.step text = step) (h : step.next.Lexes step.rest pieces) :
    ctx.Lexes text (step.piece :: pieces) := by
  obtain ⟨hpieces, hdepth⟩ := h
  unfold Lexes
  rw [ctx.steps_of_ne_nil htext, hstep]
  exact ⟨congrArg (step.piece :: ·) hpieces, hdepth⟩

/-- An expectation that is not armed at the end of the line is not missed there. -/
theorem lexes_expecting {ctx : Context} {next : Option Expectation} {rest : List Char}
    {pieces : List Piece} (hdepth : ctx.depth = 0) (h : (Context.mk 0 next).Lexes rest pieces) :
    (ctx.expecting next rest).Lexes rest pieces := by
  cases rest with
  | nil =>
      have hpieces : pieces = [] := by
        rw [← h.1, steps]
        rfl
      rw [hpieces]
      exact lexes_nil hdepth
  | cons c rest =>
      have hctx : ctx.expecting next (c :: rest) = Context.mk 0 next := by
        rw [← hdepth]
        rfl
      rw [hctx]
      exact h

theorem not_commentOpen_of_excludes {pattern : Pattern} {taken rest : List Char}
    (hpattern : pattern.excludes '{') (hreads : pattern.Reads taken rest) (htaken : taken ≠ []) :
    ¬ ['{', '-'] <+: taken ++ rest := by
  have hbrace := Pattern.not_mem_of_excludes hpattern hreads
  obtain ⟨c, tail, rfl⟩ := List.exists_cons_of_ne_nil htaken
  rintro ⟨other, hother⟩
  apply hbrace
  rw [(List.cons.inj hother).1]
  exact List.mem_cons_self

/-- One entry of a list is read, and what it leaves to come is read after it. -/
theorem lexes_entry {kind : PropertyKind} {form : Pattern} {taken rest : List Char}
    {pieces : List Piece} (hform : (kind, form) ∈ PropertyRule.forms)
    (hreads : (Form.thenBlanks form).Reads taken rest)
    (hlater : (Context.mk 0 kind.expects).Lexes rest pieces) :
    (Context.mk 0 (some .properties)).Lexes (taken ++ rest)
      (⟨kind.tokenKind, taken⟩ :: pieces) := by
  have hbrace := PropertyRule.excludes_of_form hform
  have htaken : taken ≠ [] := (PropertyRule.advances_of_form hform hreads).2
  have htext : taken ++ rest ≠ [] := List.append_ne_nil_of_left_ne_nil htaken rest
  have hstep : (Context.mk 0 (some .properties)).step (taken ++ rest) =
      .expected (Context.mk 0 (some .properties)) .properties (taken ++ rest) :=
    step_of_pending htext rfl (not_commentOpen_of_excludes hbrace hreads htaken) rfl
  rw [Step.expected, Step.property_of_read (PropertyRule.read_of_form hform hreads)] at hstep
  exact lexes_of_step htext hstep (lexes_expecting rfl hlater)

theorem lexes_stitch {expectation : Expectation} {taken rest : List Char} {pieces : List Piece}
    (hexpectation : expectation = .stitchName ∨ expectation = .arrowTarget)
    (hreads : (Form.thenBlanks Form.name).Reads taken rest)
    (hlater : (Context.mk 0 none).Lexes rest pieces) :
    (Context.mk 0 (some expectation)).Lexes (taken ++ rest) (⟨.stitchName, taken⟩ :: pieces) := by
  have htaken : taken ≠ [] := (Pattern.advances_of_cut? (by decide) hreads).2
  have htext : taken ++ rest ≠ [] := List.append_ne_nil_of_left_ne_nil htaken rest
  have hstep : (Context.mk 0 (some expectation)).step (taken ++ rest) =
      .expected (Context.mk 0 (some expectation)) expectation (taken ++ rest) :=
    step_of_pending htext rfl (not_commentOpen_of_excludes (by decide) hreads htaken) rfl
  have hcut : (Form.thenBlanks Form.name).cut? (taken ++ rest) = some ⟨taken, rest⟩ := hreads
  rcases hexpectation with rfl | rfl
  · simp only [Step.expected, Step.stitch, hcut] at hstep
    exact lexes_of_step htext hstep hlater
  · simp only [Step.expected, Step.stitch, hcut] at hstep
    exact lexes_of_step htext hstep hlater

end Context

namespace Markup

open Pattern

/-- A name at the end of a line is read as that of a stitch where one is expected. -/
theorem Name.lexes (name : Name) (after : Blanks) {expectation : Expectation}
    (hexpectation : expectation = .stitchName ∨ expectation = .arrowTarget) :
    (Context.mk 0 (some expectation)).Lexes (name.text ++ after.1 ++ [])
      [⟨.stitchName, name.text ++ after.1⟩] := by
  have hstop : Stops Form.isNameTail (after.1 ++ []) :=
    Form.stops_blanks (by decide) after.2 (Or.inr rfl)
  have hreads : (Form.thenBlanks Form.name).Reads (name.text ++ after.1) [] :=
    Form.reads_thenBlanks (name.reads hstop) after.2 (stops_nil _)
  apply Context.lexes_stitch hexpectation hreads
  exact Context.lexes_nil rfl

/-- A property begins with no blank, so the blanks before it end where it begins. -/
theorem Property.stops_text (property : Property) (later : List Char) :
    Stops Form.isBlank (property.text ++ later) := by
  cases property with
  | label gap name => exact stops_cons (by decide) _
  | integer first digits hfirst hdigits =>
      have hblank : Form.isBlank first = false :=
        Form.isBlank_eq_false (p := Char.isDigit) (by decide) hfirst
      exact stops_cons hblank _
  | word name => exact stops_cons name.not_blank _
  | string body hbody => exact stops_cons (by decide) _

/-- A written property is one entry with the blanks after it, and the list goes on behind it. -/
theorem Property.lexes (property : Property) {after rest : List Char} {later : List Piece}
    (hafter : ∀ c ∈ after, Form.isBlank c) (hsep : after ≠ [] ∨ rest = [])
    (hrest : Stops Form.isBlank rest)
    (hlater : (Context.mk 0 (some .properties)).Lexes rest later) :
    (Context.mk 0 (some .properties)).Lexes (property.text ++ after ++ rest)
      (⟨property.kind, property.text ++ after⟩ :: later) := by
  have hreads : (Form.thenBlanks property.entry.2).Reads (property.text ++ after) rest :=
    Form.reads_thenBlanks (property.reads hafter hsep) hafter hrest
  rw [← property.entry_expects] at hlater
  rw [← property.entry_tokenKind]
  exact Context.lexes_entry property.entry_mem_forms hreads hlater

theorem arrow_mem_forms : (PropertyKind.arrow, Form.arrow) ∈ PropertyRule.forms := by
  simp [PropertyRule.forms]

namespace PropertyList

theorem stops_print (list : PropertyList) : Stops Form.isBlank (print list.pieces) := by
  cases list with
  | nil => exact stops_nil _
  | last property after =>
      simp only [pieces, print, List.flatMap_cons, List.append_assoc]
      exact property.stops_text _
  | cons property gap rest =>
      simp only [pieces, print, List.flatMap_cons, List.append_assoc]
      exact property.stops_text _
  | arrow after => exact stops_cons (by decide) _
  | link gap target after => exact stops_cons (by decide) _

theorem print_of_startsWithLabel {list : PropertyList} (h : list.startsWithLabel) :
    ∃ rest, print list.pieces = '|' :: '>' :: rest := by
  cases list with
  | nil => cases h
  | last property after =>
      cases property with
      | label gap name => exact ⟨_, rfl⟩
      | _ => cases h
  | cons property gap rest =>
      cases property with
      | label gap name => exact ⟨_, rfl⟩
      | _ => cases h
  | arrow after => cases h
  | link gap target after => cases h

/-- A written list is read piece by piece. The induction goes along the list, since what is read
first leaves the same expectation as before it unless it is an arrow. -/
theorem lexes (list : PropertyList) :
    (Context.mk 0 (some .properties)).Lexes (print list.pieces) list.pieces := by
  induction list with
  | nil => exact Context.lexes_nil rfl
  | last property after =>
      apply property.lexes after.2 (Or.inr rfl) (stops_nil _)
      exact Context.lexes_nil rfl
  | cons property gap rest ih =>
      apply property.lexes gap.2.2 (Or.inl gap.2.1) rest.stops_print
      exact ih
  | arrow after =>
      have hmark : Form.arrow.Reads ['-', '>'] (after.1 ++ []) := Reads.literal ['-', '>'] _
      apply Context.lexes_entry arrow_mem_forms
        (Form.reads_thenBlanks hmark after.2 (stops_nil _))
      exact Context.lexes_nil rfl
  | link gap target after =>
      have hmark : Form.arrow.Reads ['-', '>'] (gap.1 ++ (target.text ++ after.1 ++ [])) :=
        Reads.literal ['-', '>'] _
      have hblank : Stops Form.isBlank (target.text ++ after.1 ++ []) :=
        stops_cons target.not_blank _
      apply Context.lexes_entry arrow_mem_forms (Form.reads_thenBlanks hmark gap.2 hblank)
      exact target.lexes after (Or.inr rfl)

end PropertyList

end Markup

end StitchMarkup
