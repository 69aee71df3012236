import Mathlib.Data.List.Infix
import StitchMarkup.Proofs.CaretRuns
import StitchMarkup.Proofs.CommentScan

/-!
Comments with all their marks. A comment is written down as a tree of the comments in it, so its
marks come in pairs. Whatever a host has open and pending when it comes to such a comment, it
finds nothing but comment up to the closing mark and then goes on as if the comment had not been
there.
-/

namespace StitchMarkup

/-- Text inside a comment that holds neither mark. It does not end in a brace, which would be an
opening mark together with the hyphen of a closing one. -/
structure CommentText where
  text : List Char
  no_open : ¬ ['{', '-'] <:+: text
  no_close : ¬ ['-', '}'] <:+: text
  no_brace : text.getLast? ≠ some '{'

/-- What stands between the two marks of a comment. -/
inductive CommentBody where
  | plain (text : CommentText)
  /-- Text up to a comment, the body of that comment and all that comes after it. -/
  | nested (text : CommentText) (inner later : CommentBody)

namespace CommentBody

def openMark : List Char := ['{', '-']

def closeMark : List Char := ['-', '}']

def text : CommentBody → List Char
  | plain run => run.text
  | nested run inner later =>
      run.text ++ (openMark ++ (inner.text ++ (closeMark ++ later.text)))

/-- The comment with its marks. -/
def comment (body : CommentBody) : List Char := openMark ++ (body.text ++ closeMark)

/-- The characters and marks of a body one after the other, each with the number of comments
open after it. -/
def trail (level : Nat) : CommentBody → List (List Char × Nat)
  | plain run => run.text.map fun c => ([c], level)
  | nested run inner later =>
      run.text.map (fun c => ([c], level)) ++
        ((openMark, level + 1) :: (inner.trail (level + 1) ++
          ((closeMark, level) :: later.trail level)))

/-- The same for a comment with its marks, the first of which may be indented. -/
def commentTrail (indent : List Char) (body : CommentBody) : List (List Char × Nat) :=
  (indent ++ openMark, 1) :: (body.trail 1 ++ [(closeMark, 0)])

end CommentBody

namespace Visit

/-- What a host sees of a step: the piece and the context after it. -/
def sight (visit : Visit) : Piece × Context := (visit.step.piece, visit.step.next)

end Visit

namespace Context

/-- A part of a comment as it should be seen. -/
def commentSight (outer : Context) (part : List Char × Nat) : Piece × Context :=
  (⟨.comment, part.1⟩, outer.deeper part.2)

end Context

namespace Caret

variable {caret : Caret} {ctx middle last : Context} {rest : List Char}

/-- A host passes the text and is then at `rest`, in another context. It has seen these pieces
and contexts. -/
def Passes (caret : Caret) (ctx : Context) (text rest : List Char) (seen : List (Piece × Context))
    (last : Context) : Prop :=
  caret.rest = text ++ rest ∧
    ∃ visits, caret.run ctx = visits ++ (caret.take ⟨text, rest⟩).run last ∧
      visits.map Visit.sight = seen

namespace Passes

variable {first second : List Char} {seen later : List (Piece × Context)}

theorem nothing (caret : Caret) (ctx : Context) : caret.Passes ctx [] caret.rest [] ctx :=
  ⟨rfl, [], rfl, rfl⟩

theorem append {between : List Char} (hfirst : caret.Passes ctx first between seen middle)
    (hsecond : (caret.take ⟨first, between⟩).Passes middle second rest later last) :
    caret.Passes ctx (first ++ second) rest (seen ++ later) last := by
  obtain ⟨htext, visits, hrun, hseen⟩ := hfirst
  obtain ⟨hrest, others, hnext, hlater⟩ := hsecond
  have hbetween : between = second ++ rest := hrest
  refine ⟨by rw [htext, hbetween, List.append_assoc], visits ++ others, ?_, ?_⟩
  · rw [hrun, hnext, List.append_assoc]
    simp [take]
  · rw [List.map_append, hseen, hlater]

/-- A single step passes what it takes. -/
theorem of_step {step : Step} (hend : ¬ caret.isAtEnd) (hstep : caret.step ctx = step) :
    caret.Passes ctx step.taken step.rest [(step.piece, step.next)] step.next := by
  have hadvances := caret.step_advances ctx hend
  rw [hstep] at hadvances
  refine ⟨hadvances.1.symm, [⟨caret, step⟩], ?_, rfl⟩
  rw [run_of_not_isAtEnd hend, hstep]
  rfl

end Passes

variable (outer : Context) (level : Nat)

/-- Past the start of a line an opening mark opens a comment, inside comments and outside. -/
theorem passes_openMark (hstart : ¬ caret.isAtStart)
    (hrest : caret.rest = CommentBody.openMark ++ rest) :
    caret.Passes (outer.deeper level) CommentBody.openMark rest
      [outer.commentSight (CommentBody.openMark, level + 1)] (outer.deeper (level + 1)) := by
  have hend : ¬ caret.isAtEnd := by
    simp [isAtEnd, hrest, CommentBody.openMark]
  have hstep : caret.step (outer.deeper level) = (outer.deeper level).step caret.rest :=
    step_of_not_isAtStart hstart
  rw [hrest] at hstep
  have htext : CommentBody.openMark ++ rest ≠ [] := by simp [CommentBody.openMark]
  have hmark : ['{', '-'] <+: CommentBody.openMark ++ rest := ⟨rest, rfl⟩
  rcases (outer.deeper level).step_cases htext with ⟨_, hinside⟩ | ⟨tail, hdepth, htail, hopen⟩ |
      ⟨_, _, hnone, _⟩ | ⟨_, hnone, _⟩
  · rw [hinside] at hstep
    exact Passes.of_step hend hstep
  · obtain rfl : rest = tail := by simpa [CommentBody.openMark] using htail
    obtain ⟨houter, hlevel⟩ : outer.depth = 0 ∧ level = 0 := by
      simpa [Context.deeper] using hdepth
    have hnext : { outer with depth := 1 } = outer.deeper (level + 1) := by
      rw [Context.deeper, houter, hlevel]
    rw [hopen] at hstep
    rw [Context.commentSight, ← hnext]
    exact Passes.of_step hend hstep
  · exact absurd hmark hnone
  · exact absurd hmark hnone

theorem passes_closeMark (hstart : ¬ caret.isAtStart)
    (hrest : caret.rest = CommentBody.closeMark ++ rest) :
    caret.Passes (outer.deeper (level + 1)) CommentBody.closeMark rest
      [outer.commentSight (CommentBody.closeMark, level)] (outer.deeper level) := by
  have hend : ¬ caret.isAtEnd := by
    simp [isAtEnd, hrest, CommentBody.closeMark]
  have hdepth : 0 < (outer.deeper (level + 1)).depth := Nat.succ_pos _
  have hstep := step_inside hend hdepth
  rw [hrest, entered, if_neg hstart] at hstep
  exact Passes.of_step hend hstep

/-- Any other character inside a comment is passed by itself. -/
theorem passes_char {c : Char} (hstart : ¬ caret.isAtStart) (hlevel : 0 < outer.depth + level)
    (hrest : caret.rest = [c] ++ rest) (hclose : ¬ ['-', '}'] <+: c :: rest)
    (hopen : ¬ ['{', '-'] <+: c :: rest) :
    caret.Passes (outer.deeper level) [c] rest [outer.commentSight ([c], level)]
      (outer.deeper level) := by
  have hend : ¬ caret.isAtEnd := by
    simp [isAtEnd, hrest]
  have hdepth : 0 < (outer.deeper level).depth := hlevel
  have hstep := step_inside hend hdepth
  rw [hrest, entered, if_neg hstart, List.singleton_append] at hstep
  rcases Step.insideComment_cases (outer.deeper level) (c :: rest) with ⟨tail, htail, _⟩ |
      ⟨tail, htail, _⟩ | ⟨_, _, hchar⟩
  · exact absurd ⟨tail, htail.symm⟩ hclose
  · exact absurd ⟨tail, htail.symm⟩ hopen
  · rw [hchar] at hstep
    exact Passes.of_step hend hstep

/-- Text without marks is passed character by character, if the mark after it cannot end in its
last character. -/
theorem passes_text {text : List Char} (hstart : ¬ caret.isAtStart)
    (hlevel : 0 < outer.depth + level) (hopen : ¬ ['{', '-'] <:+: text)
    (hclose : ¬ ['-', '}'] <:+: text) (hbrace : text.getLast? ≠ some '{')
    (hafter : rest.head? ≠ some '}') (hrest : caret.rest = text ++ rest) :
    caret.Passes (outer.deeper level) text rest
      ((text.map fun c => ([c], level)).map outer.commentSight) (outer.deeper level) := by
  induction text generalizing caret with
  | nil =>
      obtain rfl : caret.rest = rest := hrest
      exact Passes.nothing caret _
  | cons c text ih =>
      have hnotClose : ¬ ['-', '}'] <+: c :: (text ++ rest) := by
        intro hmark
        rcases mark_in_or_across hmark with hin | ⟨_, _, hacross⟩
        · exact hclose hin.isInfix
        · exact hafter hacross
      have hnotOpen : ¬ ['{', '-'] <+: c :: (text ++ rest) := by
        intro hmark
        rcases mark_in_or_across hmark with hin | ⟨hlast, hc, _⟩
        · exact hopen hin.isInfix
        · exact hbrace (by rw [hlast, hc]; rfl)
      have hlast : text.getLast? ≠ some '{' := by
        cases text with
        | nil => simp
        | cons d text => simpa using hbrace
      have hchar := passes_char outer level hstart hlevel hrest hnotClose hnotOpen
      have hmoved : ¬ (caret.take ⟨[c], text ++ rest⟩).isAtStart := not_isAtStart_take (by simp)
      have hlater := ih hmoved (fun h => hopen (h.trans (List.suffix_cons c text).isInfix))
        (fun h => hclose (h.trans (List.suffix_cons c text).isInfix)) hlast rfl
      exact hchar.append hlater

theorem passes_body (body : CommentBody) (hstart : ¬ caret.isAtStart) (hlevel : 0 < level)
    (hafter : rest.head? ≠ some '}') (hrest : caret.rest = body.text ++ rest) :
    caret.Passes (outer.deeper level) body.text rest ((body.trail level).map outer.commentSight)
      (outer.deeper level) := by
  induction body generalizing caret level rest with
  | plain run =>
      exact passes_text outer level hstart (by omega) run.no_open run.no_close run.no_brace hafter
        hrest
  | nested run inner later ihInner ihLater =>
      -- The five parts of the body in their order, with what is left after each of them.
      let afterClose := later.text ++ rest
      let afterInner := CommentBody.closeMark ++ afterClose
      let afterOpen := inner.text ++ afterInner
      let afterText := CommentBody.openMark ++ afterOpen
      have hparts : caret.rest = run.text ++ afterText := by
        rw [hrest, CommentBody.text]
        simp only [afterText, afterOpen, afterInner, afterClose, List.append_assoc]
      have hstartOpen := not_isAtStart_take_of_not hstart ⟨run.text, afterText⟩
      have hstartInner := not_isAtStart_take_of_not hstartOpen ⟨CommentBody.openMark, afterOpen⟩
      have hstartClose := not_isAtStart_take_of_not hstartInner ⟨inner.text, afterInner⟩
      have hstartLater := not_isAtStart_take_of_not hstartClose
        ⟨CommentBody.closeMark, afterClose⟩
      have htext := passes_text outer level hstart (by omega) run.no_open run.no_close
        run.no_brace (by simp [afterText, CommentBody.openMark]) hparts
      have hopen := passes_openMark outer level hstartOpen rfl
      have hinner := ihInner (level + 1) hstartInner (Nat.succ_pos level)
        (by simp [afterInner, CommentBody.closeMark]) rfl
      have hclose := passes_closeMark outer level hstartClose rfl
      have hlater := ihLater level hstartLater hlevel hafter rfl
      have hall := htext.append (hopen.append (hinner.append (hclose.append hlater)))
      rw [CommentBody.trail, List.map_append, List.map_cons, List.map_append, List.map_cons]
      exact hall

/-- A comment is passed from its opening mark on, by whatever that mark was taken with. -/
theorem passes_comment (body : CommentBody) (indent : List Char)
    (hopen : caret.Passes ctx (indent ++ CommentBody.openMark)
      (body.text ++ (CommentBody.closeMark ++ rest))
      [outer.commentSight (indent ++ CommentBody.openMark, 1)] (outer.deeper 1)) :
    caret.Passes ctx (indent ++ body.comment) rest
      ((body.commentTrail indent).map outer.commentSight) outer := by
  have hstartBody : ¬ (caret.take ⟨indent ++ CommentBody.openMark,
      body.text ++ (CommentBody.closeMark ++ rest)⟩).isAtStart :=
    not_isAtStart_take (by simp [CommentBody.openMark])
  have hstartClose := not_isAtStart_take_of_not hstartBody
    ⟨body.text, CommentBody.closeMark ++ rest⟩
  have hbody := passes_body outer 1 body hstartBody Nat.one_pos
    (by simp [CommentBody.closeMark]) rfl
  have hclose := passes_closeMark outer 0 hstartClose rfl
  have hall := hopen.append (hbody.append hclose)
  rw [List.append_assoc] at hall
  rw [CommentBody.commentTrail, List.map_cons, List.map_append]
  exact hall

/-- At the start of a line outside comments the mark is taken with the indentation before it, and
nothing stays pending. -/
theorem passes_indentedMark {indent : List Char} (tabWidth : Nat) (rest : List Char)
    (hindent : ∀ c ∈ indent, Form.isBlank c) (hdepth : ctx.depth = 0) :
    (atStart (indent ++ CommentBody.openMark ++ rest) tabWidth).Passes ctx
      (indent ++ CommentBody.openMark) rest
      [ctx.endLine.commentSight (indent ++ CommentBody.openMark, 1)] (ctx.endLine.deeper 1) := by
  have hopens : OpensComment (indent ++ CommentBody.openMark ++ rest) indent rest :=
    ⟨hindent, by simp [CommentBody.openMark]⟩
  have hstep : (atStart (indent ++ CommentBody.openMark ++ rest) tabWidth).step ctx =
      .openComment ctx.endLine ⟨indent ++ ['{', '-'], rest⟩ :=
    Context.firstStep_of_opensComment tabWidth hdepth hopens
  have hend : ¬ (atStart (indent ++ CommentBody.openMark ++ rest) tabWidth).isAtEnd := by
    simp [isAtEnd, atStart, CommentBody.openMark]
  have hnext : { ctx.endLine with depth := 1 } = ctx.endLine.deeper 1 := by
    simp [Context.deeper, Context.endLine, hdepth]
  rw [Context.commentSight, ← hnext]
  exact Passes.of_step hend hstep

end Caret

/-- A comment with all its marks is nothing to what stands around it. A host that comes to it past
the start of a line sees only comment, with as many comments open after each mark as the tree
says, and stands right after it in the context in which it came, with the same expectation
pending. At the start of a line outside comments the same holds, the indentation belongs to the
comment and nothing is pending after it. -/
theorem comments_are_transparent (body : CommentBody) (after : List Char) (tabWidth : Nat)
    (ctx : Context) :
    (∀ before, before ≠ [] →
      (⟨before.reverse, body.comment ++ after, tabWidth⟩ : Caret).Passes ctx body.comment after
        ((body.commentTrail []).map ctx.commentSight) ctx) ∧
      ∀ indent, (∀ c ∈ indent, Form.isBlank c) → ctx.depth = 0 →
        (Caret.atStart (indent ++ body.comment ++ after) tabWidth).Passes ctx
          (indent ++ body.comment) after
          ((body.commentTrail indent).map ctx.endLine.commentSight) ctx.endLine := by
  constructor
  · intro before hbefore
    have hstart : ¬ (⟨before.reverse, body.comment ++ after, tabWidth⟩ : Caret).isAtStart := by
      simpa [Caret.isAtStart] using hbefore
    have hopen := Caret.passes_openMark ctx 0 hstart
      (List.append_assoc CommentBody.openMark (body.text ++ CommentBody.closeMark) after)
    rw [List.append_assoc] at hopen
    exact Caret.passes_comment ctx body [] hopen
  · intro indent hindent hdepth
    have hopen := Caret.passes_indentedMark tabWidth
      (body.text ++ (CommentBody.closeMark ++ after)) hindent hdepth
    have hall := Caret.passes_comment ctx.endLine body indent hopen
    simp only [CommentBody.comment, List.append_assoc] at hall ⊢
    exact hall

/-- A comment in a comment, with a hyphen before a mark and a brace after one, in a list of
properties and at the start of a line. -/
theorem comments_are_transparent_nested :
    let body : CommentBody := .nested ⟨['é', '-'], by decide, by decide, by decide⟩
      (.plain ⟨['}'], by decide, by decide, by decide⟩)
      (.plain ⟨['-'], by decide, by decide, by decide⟩)
    let ctx : Context := ⟨0, some .properties⟩
    (['a'] ≠ [] ∧ (∀ c ∈ [' ', '\t'], Form.isBlank c) ∧ ctx.depth = 0) ∧
      (⟨['a'].reverse, body.comment ++ ['b'], 4⟩ : Caret).Passes ctx body.comment ['b']
        ((body.commentTrail []).map ctx.commentSight) ctx ∧
      (Caret.atStart ([' ', '\t'] ++ body.comment ++ ['b']) 4).Passes ctx
        ([' ', '\t'] ++ body.comment) ['b']
        ((body.commentTrail [' ', '\t']).map ctx.endLine.commentSight) ctx.endLine := by
  intro body ctx
  have hindent : ∀ c ∈ [' ', '\t'], Form.isBlank c := by simp [Form.isBlank]
  obtain ⟨hinside, hstart⟩ := comments_are_transparent body ['b'] 4 ctx
  exact ⟨⟨by decide, hindent, rfl⟩, hinside ['a'] (by decide), hstart [' ', '\t'] hindent rfl⟩

end StitchMarkup
