import Mathlib.Logic.Relation
import StitchMarkup.Proofs.ByteRuns
import StitchMarkup.Proofs.EditHistory

/-!
How deep comments can nest in a text of a given size. Each mark of a comment has two bytes and
changes the depth by one, and no step changes the depth without taking the mark. So the depth at
any place of a document is at most half the bytes before it, whatever edits led there, and
numbers that can count the bytes of a document can count its open comments.
-/

namespace StitchMarkup

/-- The depth changes by at most one for every two bytes. -/
def WithinBytes (size before after : Nat) : Prop :=
  2 * ((after : Int) - before).natAbs ≤ size

namespace WithinBytes

variable {size size' before middle after : Nat}

theorem refl (size depth : Nat) : WithinBytes size depth depth := by
  simp [WithinBytes]

theorem trans (hfirst : WithinBytes size before middle)
    (hsecond : WithinBytes size' middle after) : WithinBytes (size + size') before after := by
  unfold WithinBytes at *
  omega

theorem le (h : WithinBytes size before after) : 2 * after ≤ 2 * before + size := by
  unfold WithinBytes at h
  omega

end WithinBytes

theorem Step.insideComment_withinBytes {ctx : Context} (hdepth : 0 < ctx.depth)
    (text : List Char) :
    WithinBytes (byteLength (insideComment ctx text).taken) ctx.depth
      (insideComment ctx text).next.depth := by
  have hclose : byteLength ['-', '}'] = 2 := by decide
  have hopen : byteLength ['{', '-'] = 2 := by decide
  rcases insideComment_cases ctx text with ⟨rest, _, hstep⟩ | ⟨rest, _, hstep⟩ | ⟨_, _, hstep⟩
  · simp only [hstep, comment, WithinBytes, hclose]
    omega
  · simp only [hstep, comment, WithinBytes, hopen]
    omega
  · rw [hstep]
    exact .refl _ _

/-- A comment is opened by a mark that stands at the end of what the step takes. -/
theorem Step.openComment_withinBytes {ctx : Context} (hdepth : ctx.depth = 0)
    (indent rest : List Char) :
    WithinBytes (byteLength (indent ++ ['{', '-'])) ctx.depth
      (openComment ctx ⟨indent ++ ['{', '-'], rest⟩).next.depth := by
  have hopen : byteLength ['{', '-'] = 2 := by decide
  simp only [openComment, WithinBytes, byteLength_append, hopen, hdepth]
  omega

namespace Context

variable {ctx : Context}

theorem step_withinBytes_outside {text : List Char} (htext : text ≠ []) (hdepth : ctx.depth = 0) :
    WithinBytes (byteLength (ctx.step text).taken) ctx.depth (ctx.step text).next.depth := by
  rcases ctx.step_cases htext with ⟨hinside, _⟩ | ⟨rest, _, _, hstep⟩ | ⟨_, _, _, _, hstep⟩ |
      ⟨_, _, _, hstep⟩
  · omega
  · rw [hstep]
    exact Step.openComment_withinBytes hdepth [] rest
  · rw [hstep, Step.expected_depth]
    exact .refl _ _
  · rw [hstep]
    exact .refl _ _

theorem firstStep_withinBytes_outside (tabWidth : Nat) {line : List Char} (hline : line ≠ [])
    (hdepth : ctx.depth = 0) :
    WithinBytes (byteLength (ctx.firstStep tabWidth line).taken) ctx.depth
      (ctx.firstStep tabWidth line).next.depth := by
  rcases ctx.firstStep_cases tabWidth hline with ⟨hinside, _⟩ | ⟨indent, rest, _, _, hstep⟩ |
      ⟨_, _, hstep⟩
  · omega
  · have hentered : ctx.endLine.depth = 0 := hdepth
    rw [hstep]
    exact Step.openComment_withinBytes hentered indent rest
  · rw [hstep, Step.lineHead_depth]
    exact .refl _ _

end Context

/-- A place in a line where a host asks for a step, with the context it carries. -/
structure Place where
  caret : Caret
  ctx : Context

namespace Place

def step (place : Place) : Step := place.caret.step place.ctx

/-- The place after a step. -/
def next (place : Place) : Place := ⟨place.caret.take place.step.toCut, place.step.next⟩

/-- A host comes to the place by steps, none of them from the end of the line. -/
def Reaches : Place → Place → Prop :=
  Relation.ReflTransGen fun place later => ¬ place.caret.isAtEnd ∧ later = place.next

variable {place later : Place}

theorem step_withinBytes (place : Place) :
    WithinBytes (byteLength place.step.taken) place.ctx.depth place.step.next.depth := by
  by_cases hend : place.caret.isAtEnd
  · rw [step, Caret.step_of_isAtEnd hend]
    exact .refl _ _
  have hrest := Caret.rest_ne_nil hend
  rcases Nat.eq_zero_or_pos place.ctx.depth with hdepth | hdepth
  · by_cases hstart : place.caret.isAtStart
    · rw [step, Caret.step_of_isAtStart hstart]
      exact Context.firstStep_withinBytes_outside _ hrest hdepth
    · rw [step, Caret.step_of_not_isAtStart hstart]
      exact Context.step_withinBytes_outside hrest hdepth
  · have hentered := place.caret.entered_depth place.ctx
    rw [step, Caret.step_inside hend hdepth, ← hentered]
    exact Step.insideComment_withinBytes (by omega) _

/-- Along a line the depth changes by at most one for every two bytes the caret moves. -/
theorem Reaches.withinBytes (h : place.Reaches later) :
    later.caret.line = place.caret.line ∧ place.caret.position ≤ later.caret.position ∧
      WithinBytes (later.caret.position - place.caret.position) place.ctx.depth
        later.ctx.depth := by
  induction h with
  | refl => exact ⟨rfl, Nat.le_refl _, .refl _ _⟩
  | @tail middle last hmiddle hlast ih =>
      obtain ⟨hline, hle, hwithin⟩ := ih
      obtain ⟨hend, rfl⟩ := hlast
      have hadvances := middle.caret.step_advances middle.ctx hend
      have hposition : middle.next.caret.position =
          middle.caret.position + byteLength middle.step.taken := Caret.position_take _ _
      refine ⟨(Caret.line_take hadvances.1).trans hline, by omega, ?_⟩
      have hmoved : middle.next.caret.position - place.caret.position =
          middle.caret.position - place.caret.position + byteLength middle.step.taken := by
        omega
      rw [hmoved]
      exact hwithin.trans middle.step_withinBytes

theorem reaches_of_next (hend : ¬ place.caret.isAtEnd) (h : place.next.Reaches later) :
    place.Reaches later :=
  .head ⟨hend, rfl⟩ h

/-- A host comes to the end of the line, with the context in which the steps leave it. -/
theorem reaches_end (caret : Caret) (ctx : Context) :
    (Place.mk caret ctx).Reaches ⟨caret.takeAll, ctx.afterSteps (caret.steps ctx)⟩ := by
  fun_induction Caret.run caret ctx with
  | case1 caret ctx hend =>
      rw [Caret.takeAll_of_isAtEnd hend, Caret.steps_of_isAtEnd hend]
      exact .refl
  | case2 caret ctx hend step ih =>
      have hadvances := caret.step_advances ctx hend
      rw [Caret.takeAll_take hadvances.1] at ih
      rw [Caret.steps_of_not_isAtEnd hend]
      exact reaches_of_next hend ih

/-- Every step that the lexer makes of a line is made at a place a host comes to. -/
theorem exists_reaches_of_mem_steps {caret : Caret} {ctx : Context} {step : Step}
    (hstep : step ∈ caret.steps ctx) :
    ∃ place, (Place.mk caret ctx).Reaches place ∧ ¬ place.caret.isAtEnd ∧ step = place.step := by
  fun_induction Caret.run caret ctx with
  | case1 caret ctx hend =>
      rw [Caret.steps_of_isAtEnd hend] at hstep
      cases hstep
  | case2 caret ctx hend first ih =>
      rw [Caret.steps_of_not_isAtEnd hend] at hstep
      rcases List.mem_cons.mp hstep with rfl | hlater
      · exact ⟨⟨caret, ctx⟩, .refl, hend, rfl⟩
      · obtain ⟨place, hreaches, hinside, hplace⟩ := ih hlater
        exact ⟨place, reaches_of_next hend hreaches, hinside, hplace⟩

/-- What a step leaves open on a line is bounded by the bytes of the whole line. -/
theorem Reaches.step_depth_le {tabWidth : Nat} {ctx : Context} {line : List Char}
    (h : (Place.mk (.atStart line tabWidth) ctx).Reaches place) (hend : ¬ place.caret.isAtEnd) :
    2 * place.step.next.depth ≤ 2 * ctx.depth + byteLength line := by
  obtain ⟨hline, _, hwithin⟩ := h.withinBytes
  have hstep := (hwithin.trans place.step_withinBytes).le
  have hlength := place.caret.byteLength_line
  have hwhole := congrArg byteLength (place.caret.step_advances place.ctx hend).1
  have hstart : (Caret.atStart line tabWidth).position = 0 := rfl
  rw [hline] at hlength
  rw [Cut.whole, byteLength_append] at hwhole
  change byteLength line = _ at hlength
  change byteLength place.step.taken + _ = _ at hwhole
  simp only [hstart] at hstep
  omega

end Place

namespace Context

/-- Reading a line changes the depth by at most one for every two bytes of it. -/
theorem lexLine_withinBytes (tabWidth : Nat) (ctx : Context) (line : List Char) :
    WithinBytes (byteLength line) ctx.depth (ctx.lexLine tabWidth line).next.depth := by
  obtain ⟨_, _, hwithin⟩ := (Place.reaches_end (.atStart line tabWidth) ctx).withinBytes
  rw [Caret.position_takeAll] at hwithin
  exact hwithin

end Context

/-- The number of bytes of some lines without their breaks. -/
def Text.size (texts : List String) : Nat := byteLength (texts.flatMap String.toList)

theorem Text.size_append (first second : List String) :
    size (first ++ second) = size first + size second := by
  rw [size, List.flatMap_append, byteLength_append]
  rfl

theorem Text.size_singleton (text : String) : size [text] = byteLength text.toList := by
  rw [size, List.flatMap_singleton]

/-- A line and those before it have no more bytes than all lines. -/
theorem Text.size_take_add_le {texts : List String} {index : Nat} {text : String}
    (htext : texts[index]? = some text) :
    size (texts.take index) + byteLength text.toList ≤ size texts := by
  have hfront : texts.take (index + 1) = texts.take index ++ [text] := by
    rw [List.take_add_one, htext]
    rfl
  calc size (texts.take index) + byteLength text.toList
      = size (texts.take (index + 1)) := by rw [hfront, size_append, size_singleton]
    _ ≤ size (texts.take (index + 1)) + size (texts.drop (index + 1)) := Nat.le_add_right _ _
    _ = size texts := by rw [← size_append, List.take_append_drop]

namespace Context

theorem afterLines_withinBytes (tabWidth : Nat) (ctx : Context) (texts : List String) :
    WithinBytes (Text.size texts) ctx.depth (ctx.afterLines tabWidth texts).depth := by
  induction texts generalizing ctx with
  | nil => exact .refl _ _
  | cons text texts ih =>
      have hsize := Text.size_append [text] texts
      rw [List.singleton_append, Text.size_singleton] at hsize
      rw [hsize, afterLines_cons]
      exact (ctx.lexLine_withinBytes tabWidth text.toList).trans (ih _)

/-- Two bytes have to be read for every comment that is open. -/
theorem afterLines_initial_depth_le (tabWidth : Nat) (texts : List String) :
    2 * (initial.afterLines tabWidth texts).depth ≤ Text.size texts := by
  have hstart : initial.depth = 0 := rfl
  have hdepth := (initial.afterLines_withinBytes tabWidth texts).le
  omega

end Context

variable {limit tabWidth : Nat} {ctx : Context}

/-- The rule for comments meets no fault where the depth after it can be counted. -/
theorem Caret.toCursor_comment_of_le {caret : Caret} (hend : ¬ caret.isAtEnd)
    (hdepth : (caret.step ctx).next.depth ≤ limit) :
    ∃ verdict, caret.toCursor.comment limit (caret.entered ctx) = .ok verdict := by
  have hentered := caret.entered_depth ctx
  rcases Nat.eq_zero_or_pos ctx.depth with houtside | hinside
  · exact ⟨_, toCursor_comment_outside caret limit (hentered.trans houtside)⟩
  · rw [step_inside hend hinside] at hdepth
    exact ⟨_, toCursor_comment_inside (hentered ▸ hinside) fun _ => hdepth⟩

/-- A line is lexed to its end where all depths on it can be counted. -/
theorem ByteCursor.lexLine_of_le {line : List Char}
    (hcolumn : Column.indentation tabWidth line ≤ limit) (hlimit : 0 < limit)
    (hdepth : ctx.depth ≤ limit)
    (hsteps : ∀ step ∈ ctx.lineSteps tabWidth line, step.next.depth ≤ limit) :
    lexLine limit tabWidth ctx line =
      .ok (Token.ofPieces (ctx.lexLine tabWidth line).pieces,
        (ctx.lexLine tabWidth line).next) := by
  let caret := Caret.atStart line tabWidth
  have hall : ∀ step ∈ caret.steps ctx, step.next.depth ≤ limit := hsteps
  have hlex := Caret.toCursor_lex (Nat.le_refl caret.rest.length) hcolumn hlimit hdepth
  rw [if_pos hall, Caret.map_token_run] at hlex
  rw [lexLine_eq, hlex]
  rfl

namespace Document.Consistent

variable {doc : Document} {line : Line}

/-- The bytes before a line pay for the comments that are open where it starts, and those of the
line for the comments it opens. -/
theorem start_depth_le (h : doc.Consistent) (hline : line ∈ doc.lines) :
    2 * line.start.depth + byteLength line.text.toList ≤ Text.size doc.texts := by
  obtain ⟨index, hindex⟩ := List.mem_iff_getElem?.mp hline
  have hstart := Context.afterLines_initial_depth_le doc.settings.tabWidth (doc.texts.take index)
  have hfirst : line.start =
      Context.initial.afterLines doc.settings.tabWidth (doc.texts.take index) :=
    Chained.start_eq h hindex
  have htext : doc.texts[index]? = some line.text := by
    rw [Document.texts, List.getElem?_map, hindex]
    rfl
  have hsize := Text.size_take_add_le htext
  rw [hfirst]
  omega

variable {limit : Nat}

/-- At no place of a line more comments are open than the bytes of the document can be counted
to. -/
theorem comment_is_counted (h : doc.Consistent) (hline : line ∈ doc.lines)
    (hlimit : Text.size doc.texts ≤ limit) {place : Place}
    (hplace : (Place.mk (.atStart line.text.toList doc.settings.tabWidth) line.start).Reaches place)
    (hend : ¬ place.caret.isAtEnd) :
    2 * place.step.next.depth ≤ limit ∧
      ∃ verdict, place.caret.toCursor.comment limit (place.caret.entered place.ctx) =
        .ok verdict := by
  have hstart := h.start_depth_le hline
  have hstep := hplace.step_depth_le hend
  have hcounted : (place.caret.step place.ctx).next.depth ≤ limit := by
    change 2 * (place.caret.step place.ctx).next.depth ≤ _ at hstep
    omega
  exact ⟨by omega, Caret.toCursor_comment_of_le hend hcounted⟩

/-- So its lines are lexed without a fault, as far as their columns can be counted too. -/
theorem lexLine_eq_ok (h : doc.Consistent) (hline : line ∈ doc.lines)
    (hlimit : Text.size doc.texts ≤ limit)
    (hcolumn : Column.indentation doc.settings.tabWidth line.text.toList ≤ limit) :
    ByteCursor.lexLine limit doc.settings.tabWidth line.start line.text.toList =
      .ok (line.tokens,
        (line.start.lexLine doc.settings.tabWidth line.text.toList).next) := by
  have hstart := h.start_depth_le hline
  rw [Line.tokens, Chained.pieces_eq h hline]
  by_cases hempty : line.text.toList = []
  · rw [hempty]
    rfl
  have hpositive : byteLength line.text.toList ≠ 0 :=
    fun hzero => hempty (byteLength_eq_zero_iff.mp hzero)
  refine ByteCursor.lexLine_of_le hcolumn (by omega) (by omega) ?_
  intro step hstep
  let start := Caret.atStart line.text.toList doc.settings.tabWidth
  have hmade : step ∈ start.steps line.start := hstep
  obtain ⟨place, hreaches, hend, rfl⟩ := Place.exists_reaches_of_mem_steps hmade
  have hcounted := (h.comment_is_counted hline hlimit hreaches hend).1
  omega

end Document.Consistent

/-- The depth is bounded by the size of the text. Over a line it changes by at most one for every
two bytes, and before a line of a document, whatever edits it went through, at most one comment is
open for every two bytes of the lines before. So where the bytes of a document can be counted, no
place of it opens a comment that cannot be counted or closes one that is not open, and a line
whose columns can be counted as well is lexed without a fault. -/
theorem depth_within_bytes :
    (∀ (tabWidth : Nat) (ctx : Context) (line : List Char),
      2 * (((ctx.lexLine tabWidth line).next.depth : Int) - ctx.depth).natAbs ≤
        byteLength line) ∧
      ∀ (settings : Settings) (origin : Origin) (edits : List Replacement),
        let doc := (origin.document settings).edited edits
        (∀ index ≤ doc.lineCount, ∃ ctx, doc.contextBefore? index = some ctx ∧
          2 * ctx.depth ≤ Text.size (doc.texts.take index)) ∧
          ∀ limit, Text.size doc.texts ≤ limit → ∀ line ∈ doc.lines,
            let start := Caret.atStart line.text.toList settings.tabWidth
            (∀ place, (Place.mk start line.start).Reaches place → ¬ place.caret.isAtEnd →
              2 * place.step.next.depth ≤ limit ∧
                ∃ verdict, place.caret.toCursor.comment limit
                  (place.caret.entered place.ctx) = .ok verdict) ∧
              (start.indentation ≤ limit →
                ByteCursor.lexLine limit settings.tabWidth line.start line.text.toList =
                  .ok (line.tokens,
                    (line.start.lexLine settings.tabWidth line.text.toList).next)) := by
  refine ⟨fun tabWidth ctx line => ctx.lexLine_withinBytes tabWidth line, ?_⟩
  intro settings origin edits doc
  have hdoc : doc.Consistent := (origin.document_consistent settings).edited edits
  have hsettings : doc.settings = settings :=
    (Document.edited_settings _ edits).trans (origin.document_settings settings)
  constructor
  · intro index hindex
    exact ⟨_, hdoc.contextBefore? hindex, Context.afterLines_initial_depth_le _ _⟩
  · intro limit hlimit line hline start
    constructor
    · intro place hplace hend
      have hreached : (Place.mk (.atStart line.text.toList doc.settings.tabWidth)
          line.start).Reaches place := by
        rw [hsettings]
        exact hplace
      exact hdoc.comment_is_counted hline hlimit hreached hend
    · intro hcolumn
      have hlexed := hdoc.lexLine_eq_ok hline hlimit (hsettings ▸ hcolumn)
      rw [hsettings] at hlexed
      exact hlexed

/-- Two comments are opened in six bytes, the second of them by an edit, and one is closed. The
bytes of the document can just be counted. -/
theorem depth_within_bytes_edited :
    let doc := ((Origin.loaded "\x7b-").document {}).edited [⟨1, 1, ["é\x7b-", "-\x7d"]⟩]
    (2 ≤ doc.lineCount ∧ Text.size doc.texts ≤ 8) ∧
      (∃ ctx, doc.contextBefore? 2 = some ctx ∧ 2 * ctx.depth ≤ Text.size (doc.texts.take 2)) ∧
      ∃ line ∈ doc.lines, line.text = "é\x7b-" ∧
        let start := Caret.atStart line.text.toList 4
        (start.indentation ≤ 8 ∧ ¬ start.isAtEnd) ∧
          (∃ verdict, start.toCursor.comment 8 (start.entered line.start) = .ok verdict) ∧
          ByteCursor.lexLine 8 4 line.start line.text.toList =
            .ok (line.tokens, (line.start.lexLine 4 line.text.toList).next) := by
  intro doc
  obtain ⟨hbefore, hlines⟩ := depth_within_bytes.2 {} (.loaded "\x7b-")
    [⟨1, 1, ["é\x7b-", "-\x7d"]⟩]
  have hcount : 2 ≤ doc.lineCount := by decide +kernel
  have hsize : Text.size doc.texts ≤ 8 := by decide +kernel
  obtain ⟨line, hline, htext⟩ : ∃ line ∈ doc.lines, line.text = "é\x7b-" := by decide +kernel
  have hcolumn : (Caret.atStart line.text.toList 4).indentation ≤ 8 := by
    rw [htext]
    decide
  have hend : ¬ (Caret.atStart line.text.toList 4).isAtEnd := by
    rw [htext]
    decide
  obtain ⟨hplaces, hlexed⟩ := hlines 8 hsize line hline
  exact ⟨⟨hcount, hsize⟩, hbefore 2 hcount, line, hline, htext, ⟨hcolumn, hend⟩,
    (hplaces ⟨_, line.start⟩ .refl hend).2, hlexed hcolumn⟩

end StitchMarkup
