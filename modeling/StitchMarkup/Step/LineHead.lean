import StitchMarkup.Step.Basic

/-!
The head of a line: the marks that only count where a line begins, after any indentation. They
make the line a header, a title or a tag, and a line without them is prose.
-/

namespace StitchMarkup

namespace LineKind

def tokenKind : LineKind → TokenKind
  | .stitchHeader | .labeledHeader | .bareHeader | .titleWithLabel | .title => .header
  | .tag => .tag
  | .malformedTag => .error
  | .prose => .plain

/-- What the head of the line leaves to come. -/
def expects : LineKind → Option Expectation
  | .stitchHeader => some .stitchName
  | .labeledHeader | .titleWithLabel | .tag => some .properties
  | .bareHeader | .title | .malformedTag | .prose => none

end LineKind

namespace LineHead

/-- A double header mark announces a stitch, by its name or by its properties. -/
def stitchHeader? (text : List Char) : Option (LineKind × Cut) :=
  (Form.stitchMark.cut? text).map fun cut =>
    if cut.rest.isEmpty then (.bareHeader, cut)
    else if Form.labelMark.startsAt cut.rest then (.labeledHeader, cut)
    else (.stitchHeader, cut)

/-- A title runs up to the first label mark, or up to the end of the line. -/
def title? (text : List Char) : Option (LineKind × Cut) :=
  (Form.titleMark.cut? text).map fun mark =>
    match Form.labelMark.find? mark.rest with
    | some title => (.titleWithLabel, title.after mark.taken)
    | none => (.title, .everything text)

def tag? (text : List Char) : Option (LineKind × Cut) :=
  (Form.tag.cut? text).map fun cut => (.tag, cut)

/-- The mark of a tag with no name after it is an error by itself and what follows is prose. -/
def malformedTag? (text : List Char) : Option (LineKind × Cut) :=
  (Form.tagMark.cut? text).map fun cut => (.malformedTag, cut)

/-- Reads the head of a line. Prose has none but its indentation, which may be empty. -/
def read (text : List Char) : LineKind × Cut :=
  match [stitchHeader?, title?, tag?, malformedTag?].findSome? (· text) with
  | some head => head
  | none => (.prose, .run Form.isBlank text)

theorem whole_read (text : List Char) : (read text).2.whole = text := by
  unfold read
  split
  · next head hhead =>
      obtain ⟨rule, hrule, hread⟩ := List.exists_of_findSome?_eq_some hhead
      simp only [List.mem_cons, List.not_mem_nil, or_false] at hrule
      rcases hrule with rfl | rfl | rfl | rfl
      · obtain ⟨cut, hcut, rfl⟩ := Option.map_eq_some_iff.mp hread
        have hwhole := Pattern.whole_of_cut? hcut
        split
        · exact hwhole
        · split <;> exact hwhole
      · obtain ⟨mark, hmark, rfl⟩ := Option.map_eq_some_iff.mp hread
        split
        · next title htitle =>
            rw [Cut.whole_after, Pattern.whole_of_find? htitle]
            exact Pattern.whole_of_cut? hmark
        · simp
      · obtain ⟨cut, hcut, rfl⟩ := Option.map_eq_some_iff.mp hread
        exact Pattern.whole_of_cut? hcut
      · obtain ⟨cut, hcut, rfl⟩ := Option.map_eq_some_iff.mp hread
        exact Pattern.whole_of_cut? hcut
  · simp

end LineHead

/-- The first step of a line outside comments. Where the line has neither a mark nor an
indentation its first character is prose at once. -/
def Step.lineHead (tabWidth : Nat) (ctx : Context) (text : List Char) : Step :=
  let head := LineHead.read text
  let decision := Decision.lineStart head.1 (Column.indentation tabWidth text)
  if head.2.taken.isEmpty then
    ⟨.one text, .plain, ctx, [decision, .prose]⟩
  else
    ⟨head.2, head.1.tokenKind, ctx.expecting head.1.expects head.2.rest, [decision]⟩

theorem Step.lineHead_advances (tabWidth : Nat) (ctx : Context) {text : List Char}
    (h : text ≠ []) : (lineHead tabWidth ctx text).Advances text := by
  unfold lineHead
  dsimp only
  split
  · exact Cut.one_advances h
  · next htaken =>
      exact ⟨LineHead.whole_read text, by simpa using htaken⟩

end StitchMarkup
