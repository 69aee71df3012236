import StitchMarkup.Proofs.Stepping

/-!
The steps of a line as a tiling of its text. Every step takes up the text where the one before it
stopped and takes something of it, so the pieces joined are the line itself. A token is the span
of one piece, and cutting its span out of the line gives the piece back: offsets in bytes lose
nothing that the pieces had.
-/

namespace StitchMarkup

namespace Cut

/-- The bytes of a text can be cut off the front of anything it begins. -/
@[simp] theorem bytes_append (first rest : List Char) :
    bytes (byteLength first) (first ++ rest) = ⟨first, rest⟩ := by
  induction first with
  | nil =>
      cases rest with
      | nil => rfl
      | cons c rest =>
          have hsize := c.utf8Size_pos
          rw [List.nil_append, byteLength_nil, bytes, if_neg (by omega)]
          rfl
  | cons c first ih =>
      rw [List.cons_append, byteLength_cons, bytes, if_pos (Nat.le_add_right _ _),
        Nat.add_sub_cancel_left, ih]
      rfl

end Cut

/-- The steps take up the text one after the other, none of them without taking something, and
leave nothing of it. -/
def Tiles : List Char → List Step → Prop
  | text, [] => text = []
  | text, step :: steps => step.Advances text ∧ Tiles step.rest steps

namespace Tiles

variable {text : List Char} {steps : List Step}

theorem flatMap_text (h : Tiles text steps) : (steps.map Step.piece).flatMap Piece.text = text := by
  induction steps generalizing text with
  | nil => exact h.symm
  | cons step steps ih =>
      obtain ⟨⟨hwhole, _⟩, hrest⟩ := h
      rw [List.map_cons, List.flatMap_cons, ih hrest]
      exact hwhole

/-- Every token is the span of a step: what is before it, what the step takes and what the step
leaves are the text. -/
theorem exists_step_of_mem_place {offset : Nat} {token : Token} (h : Tiles text steps)
    (htoken : token ∈ Token.place offset (steps.map Step.piece)) :
    ∃ step ∈ steps, ∃ before, text = before ++ step.taken ++ step.rest ∧ step.taken ≠ [] ∧
      token = ⟨step.kind, offset + byteLength before,
        offset + byteLength (before ++ step.taken)⟩ := by
  induction steps generalizing text offset with
  | nil => cases htoken
  | cons first steps ih =>
      obtain ⟨⟨hwhole, htaken⟩, hrest⟩ := h
      rw [List.map_cons, Token.place] at htoken
      rcases List.mem_cons.mp htoken with rfl | hlater
      · exact ⟨first, List.mem_cons_self, [], hwhole.symm, htaken, rfl⟩
      · obtain ⟨step, hstep, before, htext, hnonempty, rfl⟩ := ih hrest hlater
        refine ⟨step, List.mem_cons_of_mem first hstep, first.taken ++ before, ?_, hnonempty, ?_⟩
        · rw [← hwhole, Cut.whole, htext]
          simp
        · simp [Step.piece, Nat.add_assoc]

end Tiles

namespace Context

theorem steps_tile (ctx : Context) (text : List Char) : Tiles text (ctx.steps text) := by
  induction ctx, text using Context.steps.induct with
  | case1 ctx =>
      rw [steps]
      rfl
  | case2 ctx c rest step ih =>
      rw [steps]
      exact ⟨ctx.step_advances (List.cons_ne_nil c rest), ih⟩

theorem lineSteps_tile (tabWidth : Nat) (ctx : Context) (line : List Char) :
    Tiles line (ctx.lineSteps tabWidth line) := by
  cases line with
  | nil => rfl
  | cons c rest =>
      exact ⟨ctx.firstStep_advances tabWidth (List.cons_ne_nil c rest), steps_tile _ _⟩

/-- Joined, the pieces of a line are the line. -/
theorem lexLine_text (tabWidth : Nat) (ctx : Context) (line : List Char) :
    (ctx.lexLine tabWidth line).pieces.flatMap Piece.text = line :=
  (ctx.lineSteps_tile tabWidth line).flatMap_text

end Context

namespace Token

/-- The part of a line that a token spans. -/
def textIn (line : List Char) (token : Token) : List Char :=
  (Cut.bytes (token.stop - token.start) (Cut.bytes token.start line).rest).taken

/-- The part of a line that a token spans, with its kind. -/
def pieceIn (line : List Char) (token : Token) : Piece := ⟨token.kind, token.textIn line⟩

theorem map_pieceIn_place (before : List Char) (pieces : List Piece) :
    (place (byteLength before) pieces).map (pieceIn (before ++ pieces.flatMap Piece.text)) =
      pieces := by
  induction pieces generalizing before with
  | nil => rfl
  | cons piece pieces ih =>
      have hlater := ih (before ++ piece.text)
      rw [byteLength_append, List.append_assoc] at hlater
      simp only [place, List.map_cons, List.flatMap_cons, hlater, pieceIn, textIn,
        Cut.bytes_append, Nat.add_sub_cancel_left]

/-- The spans of the tokens cut the pieces out of the line. -/
theorem map_pieceIn_ofPieces (pieces : List Piece) :
    (ofPieces pieces).map (pieceIn (pieces.flatMap Piece.text)) = pieces :=
  map_pieceIn_place [] pieces

end Token

end StitchMarkup
