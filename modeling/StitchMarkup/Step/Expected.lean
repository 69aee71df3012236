import StitchMarkup.Step.Basic

/-!
Steps that take up an expectation. The expectation is dropped first, so a step that fails to
find what was expected reads one character as an error and never waits for the same thing again.
The tail of an unclosed string is the exception: it renews itself up to the end of the line. In a
list of properties each step reads one entry with the blanks after it. No two rules can claim
the same text, because each begins with a character of its own and the two that share the quote
are told apart by whether it is closed later on the line.
-/

namespace StitchMarkup

namespace PropertyKind

def tokenKind : PropertyKind → TokenKind
  | .label => .label
  | .integer => .number
  | .bareword => .word
  | .string => .string
  | .arrow => .arrow
  | .unterminatedString | .malformed => .error
  | .exhausted => .plain

/-- What the entry leaves to come. An arrow ends the list, and so does a string that is never
closed: it claims the rest of the line. -/
def expects : PropertyKind → Option Expectation
  | .label | .integer | .bareword | .string | .malformed => some .properties
  | .arrow => some .arrowTarget
  | .unterminatedString => some .stringTail
  | .exhausted => none

end PropertyKind

/-- A way to read an entry off the front of a text. -/
abbrev PropertyRule := List Char → Option (PropertyKind × Cut)

namespace PropertyRule

/-- Reads a lexical form and the blanks after it. -/
def ofForm (kind : PropertyKind) (form : Pattern) : PropertyRule := fun text =>
  ((Form.thenBlanks form).cut? text).map fun cut => (kind, cut)

/-- Reads just the quote of a string that is never closed. -/
def unterminated : PropertyRule := fun text =>
  if Form.isUnclosed text then some (.unterminatedString, .one text) else none

/-- The forms of the entries that have one, each with what is read by it. -/
def forms : List (PropertyKind × Pattern) :=
  [(.label, Form.label), (.integer, Form.integer), (.bareword, Form.name),
    (.string, Form.quoted), (.arrow, Form.arrow)]

def all : List PropertyRule :=
  forms.map (fun entry => ofForm entry.1 entry.2) ++ [unterminated]

/-- Reads an entry by the first rule that claims the text. A character no rule claims is
malformed and taken on its own. -/
def read (rules : List PropertyRule) (text : List Char) : PropertyKind × Cut :=
  match rules.findSome? (· text) with
  | some entry => entry
  | none => (if text.isEmpty then .exhausted else .malformed, .one text)

/-- The rules are those of the forms and the one for a quote that is not closed. -/
theorem mem_all_iff {rule : PropertyRule} :
    rule ∈ all ↔ (∃ kind form, (kind, form) ∈ forms ∧ rule = ofForm kind form) ∨
      rule = unterminated := by
  rw [all, List.mem_append, List.mem_map, List.mem_singleton, Prod.exists]
  simp only [eq_comm (b := rule)]

theorem advances_of_form {kind : PropertyKind} {form : Pattern} {text : List Char} {cut : Cut}
    (hform : (kind, form) ∈ forms) (hcut : (Form.thenBlanks form).cut? text = some cut) :
    cut.Advances text := by
  have hpositive : ∀ entry ∈ forms, 0 < (Form.thenBlanks entry.2).minLength := by decide
  exact Pattern.advances_of_cut? (hpositive (kind, form) hform) hcut

theorem read_advances {text : List Char} (h : text ≠ []) :
    (read all text).2.Advances text := by
  unfold read
  split
  · next entry hentry =>
      obtain ⟨rule, hrule, hread⟩ := List.exists_of_findSome?_eq_some hentry
      rcases mem_all_iff.mp hrule with ⟨kind, form, hform, rfl⟩ | rfl
      · obtain ⟨cut, hcut, rfl⟩ := Option.map_eq_some_iff.mp hread
        exact advances_of_form hform hcut
      · rw [unterminated, Option.ite_none_right_eq_some] at hread
        rw [← Option.some.inj hread.2]
        exact Cut.one_advances h
  · exact Cut.one_advances h

end PropertyRule

namespace Step

/-- Reads the name of a stitch, either its own after a header mark or that of a target. -/
def stitch (ctx : Context) (expectation : Expectation) (text : List Char) : Step :=
  match (Form.thenBlanks Form.name).cut? text with
  | some cut => ⟨cut, .stitchName, ctx, [.resolved expectation]⟩
  | none => ⟨.one text, .error, ctx, [.resolved expectation]⟩

/-- Reads the next entry of a list of properties by rules tried in the given order. -/
def propertyBy (rules : List PropertyRule) (ctx : Context) (text : List Char) : Step :=
  let entry := PropertyRule.read rules text
  ⟨entry.2, entry.1.tokenKind, ctx.expecting entry.1.expects entry.2.rest,
    [.resolved .properties, .property entry.1]⟩

def property (ctx : Context) (text : List Char) : Step :=
  propertyBy PropertyRule.all ctx text

def stringTail (ctx : Context) (text : List Char) : Step :=
  let cut := Cut.one text
  ⟨cut, .error, ctx.expecting (some .stringTail) cut.rest, [.resolved .stringTail]⟩

/-- Takes up what the context waits for. -/
def expected (ctx : Context) (expectation : Expectation) (text : List Char) : Step :=
  match expectation with
  | .stitchName | .arrowTarget => stitch ctx.endLine expectation text
  | .properties => property ctx.endLine text
  | .stringTail => stringTail ctx.endLine text

theorem stitch_advances (ctx : Context) (expectation : Expectation) {text : List Char}
    (h : text ≠ []) : (stitch ctx expectation text).Advances text := by
  unfold stitch
  split
  · next cut hcut => exact Pattern.advances_of_cut? (by decide) hcut
  · exact Cut.one_advances h

theorem property_of_read {ctx : Context} {text : List Char} {kind : PropertyKind} {cut : Cut}
    (h : PropertyRule.read PropertyRule.all text = (kind, cut)) :
    property ctx text = ⟨cut, kind.tokenKind, ctx.expecting kind.expects cut.rest,
      [.resolved .properties, .property kind]⟩ := by
  rw [property, propertyBy, h]

theorem expected_advances (ctx : Context) (expectation : Expectation) {text : List Char}
    (h : text ≠ []) : (expected ctx expectation text).Advances text := by
  cases expectation with
  | stitchName => exact stitch_advances ctx.endLine .stitchName h
  | properties => exact PropertyRule.read_advances h
  | arrowTarget => exact stitch_advances ctx.endLine .arrowTarget h
  | stringTail => exact Cut.one_advances h

end Step

end StitchMarkup
