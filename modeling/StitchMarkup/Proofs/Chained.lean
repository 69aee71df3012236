import StitchMarkup.Document.Edit

/-!
Chains of stored lines. A stored line is right when its pieces are those its text gives in the
context stored with it, and stored lines belong together when each starts where the one before
it stops. Both together fix every stored field, so a chain over given texts is unique. Nothing
here speaks of edits: what an edit does to a chain follows from how chains are split and joined.
-/

namespace StitchMarkup

/-- The context after some lines, read one after the other and without anything stored. -/
def Context.afterLines (tabWidth : Nat) (ctx : Context) (texts : List String) : Context :=
  texts.foldl (fun ctx text => (ctx.lexLine tabWidth text.toList).next) ctx

@[simp] theorem Context.afterLines_cons (tabWidth : Nat) (ctx : Context) (text : String)
    (texts : List String) :
    ctx.afterLines tabWidth (text :: texts) =
      (ctx.lexLine tabWidth text.toList).next.afterLines tabWidth texts := rfl

/-- Stored lines that read on from a context, each from where the one before it stopped, up to
a final context. -/
def Chained (tabWidth : Nat) : Context → List Line → Context → Prop
  | ctx, [], final => final = ctx
  | ctx, line :: lines, final =>
      line.start = ctx ∧
        line.pieces = (ctx.lexLine tabWidth line.text.toList).pieces ∧
        Chained tabWidth (ctx.lexLine tabWidth line.text.toList).next lines final

variable {tabWidth : Nat} {ctx final : Context}

/-- A chain can be cut anywhere, and two chains that meet in a context make one. -/
theorem chained_append {first second : List Line} :
    Chained tabWidth ctx (first ++ second) final ↔
      ∃ middle, Chained tabWidth ctx first middle ∧ Chained tabWidth middle second final := by
  induction first generalizing ctx with
  | nil => simp [Chained]
  | cons line lines ih =>
      simp only [List.cons_append, Chained, ih]
      constructor
      · rintro ⟨hstart, hpieces, middle, hfirst, hsecond⟩
        exact ⟨middle, ⟨hstart, hpieces, hfirst⟩, hsecond⟩
      · rintro ⟨middle, ⟨hstart, hpieces, hfirst⟩, hsecond⟩
        exact ⟨hstart, hpieces, middle, hfirst, hsecond⟩

namespace Chained

theorem final_eq {lines : List Line} (h : Chained tabWidth ctx lines final) :
    final = ctx.afterLines tabWidth (lines.map Line.text) := by
  induction lines generalizing ctx with
  | nil => exact h
  | cons line lines ih =>
      obtain ⟨_, _, hrest⟩ := h
      simp only [List.map_cons, Context.afterLines_cons]
      exact ih hrest

/-- Every line of a chain starts in the context the texts before it lead to. -/
theorem start_eq {lines : List Line} {index : Nat} {line : Line}
    (h : Chained tabWidth ctx lines final) (hline : lines[index]? = some line) :
    line.start = ctx.afterLines tabWidth ((lines.map Line.text).take index) := by
  induction lines generalizing ctx index with
  | nil => simp at hline
  | cons head lines ih =>
      obtain ⟨hstart, _, hrest⟩ := h
      cases index with
      | zero =>
          simp only [List.getElem?_cons_zero, Option.some.injEq] at hline
          subst line
          exact hstart
      | succ index =>
          rw [List.getElem?_cons_succ] at hline
          simp only [List.map_cons, List.take_succ_cons, Context.afterLines_cons]
          exact ih hrest hline

theorem pieces_eq {lines : List Line} {line : Line}
    (h : Chained tabWidth ctx lines final) (hline : line ∈ lines) :
    line.pieces = (line.start.lexLine tabWidth line.text.toList).pieces := by
  induction lines generalizing ctx with
  | nil => simp at hline
  | cons head lines ih =>
      obtain ⟨hstart, hpieces, hrest⟩ := h
      rcases List.mem_cons.mp hline with rfl | htail
      · rw [hstart]
        exact hpieces
      · exact ih hrest htail

/-- Chains over the same texts are equal, since a chain has nothing of its own but its texts. -/
theorem eq_of_texts {other : Context} {first second : List Line}
    (hfirst : Chained tabWidth ctx first final) (hsecond : Chained tabWidth ctx second other)
    (htexts : first.map Line.text = second.map Line.text) : first = second ∧ final = other := by
  induction first generalizing ctx second with
  | nil =>
      cases second with
      | nil => exact ⟨rfl, hfirst.trans hsecond.symm⟩
      | cons line second => cases htexts
  | cons line first ih =>
      cases second with
      | nil => cases htexts
      | cons line' second =>
          obtain ⟨hstart, hpieces, hrest⟩ := hfirst
          obtain ⟨hstart', hpieces', hrest'⟩ := hsecond
          rw [List.map_cons, List.map_cons, List.cons.injEq] at htexts
          obtain ⟨htext, hlater⟩ := htexts
          rw [← htext] at hpieces' hrest'
          obtain ⟨rfl, rfl⟩ := ih hrest hrest' hlater
          have hline : line = line' := by
            cases line
            cases line'
            simp_all
          exact ⟨by rw [hline], rfl⟩

end Chained

@[simp] theorem Pass.lex_texts (tabWidth : Nat) (ctx : Context) (texts : List String) :
    (lex tabWidth ctx texts).lines.map Line.text = texts := by
  induction texts generalizing ctx with
  | nil => rfl
  | cons text texts ih => exact congrArg (text :: ·) (ih _)

theorem Pass.lex_chained (tabWidth : Nat) (ctx : Context) (texts : List String) :
    Chained tabWidth ctx (lex tabWidth ctx texts).lines (lex tabWidth ctx texts).next := by
  induction texts generalizing ctx with
  | nil => rfl
  | cons text texts ih => exact ⟨rfl, rfl, ih _⟩

/-- Lexing stored lines again from any context mends their chain. The lines kept need not be
looked at, because they already start in the context that was reached. -/
theorem Pass.relex_chained {old : Context} {lines : List Line}
    (h : Chained tabWidth old lines final) (ctx : Context) :
    Chained tabWidth ctx ((relex tabWidth ctx lines).1.lines ++ (relex tabWidth ctx lines).2)
      (if (relex tabWidth ctx lines).2.isEmpty then (relex tabWidth ctx lines).1.next
        else final) := by
  induction lines generalizing old ctx with
  | nil => rfl
  | cons line lines ih =>
      obtain ⟨hstart, hpieces, hrest⟩ := h
      unfold relex
      split
      · next hsame =>
          subst hsame
          rw [← hstart] at hpieces hrest
          exact ⟨rfl, hpieces, hrest⟩
      · exact ⟨rfl, rfl, ih hrest _⟩

end StitchMarkup
