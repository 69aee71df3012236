import StitchMarkup.Proofs.Printing

/-!
Lexing undoes printing. What remains beside the lists is the head of a line, of which the first
step must take the mark and the blanks around it and leave the list that is written after them.
-/

namespace StitchMarkup

open Markup Pattern

variable {indent gap after rest : List Char} {kind : LineKind}

namespace LineHead

theorem read_of_stitchMark {line : List Char} {cut : Cut}
    (h : Form.stitchMark.cut? line = some cut) :
    read line =
      if cut.rest.isEmpty then (.bareHeader, cut)
      else if Form.labelMark.startsAt cut.rest then (.labeledHeader, cut)
      else (.stitchHeader, cut) := by
  have hrule : stitchHeader? line = some
      (if cut.rest.isEmpty then (.bareHeader, cut)
      else if Form.labelMark.startsAt cut.rest then (.labeledHeader, cut)
      else (.stitchHeader, cut)) := by
    rw [stitchHeader?, h]
    rfl
  simp only [read, List.findSome?_cons, hrule]

/-- The mark of a tag is no header mark, so the rules before that of tags pass it over. -/
theorem read_of_tag {line indent tail : List Char} {mark : Char} {cut : Cut}
    (hindent : ∀ c ∈ indent, Form.isBlank c) (hblank : Form.isBlank mark = false)
    (hmark : mark ≠ '#') (hline : line = indent ++ mark :: tail)
    (h : Form.tag.cut? line = some cut) : read line = (.tag, cut) := by
  have hstops : Stops Form.isBlank (mark :: tail) := stops_cons hblank tail
  have hstitch : Form.stitchMark.cut? line = none := by
    rw [hline, Form.stitchMark, Form.cut?_thenBlanks_eq_none_iff,
      Form.cut?_blanks_literal_eq_none_iff hindent hstops]
    rintro ⟨other, hother⟩
    exact hmark (List.cons.inj hother).1.symm
  have htitle : Form.titleMark.cut? line = none := by
    rw [hline, Form.titleMark, Form.cut?_blanks_literal_eq_none_iff hindent hstops]
    rintro ⟨other, hother⟩
    exact hmark (List.cons.inj hother).1.symm
  simp only [read, List.findSome?_cons, stitchHeader?, hstitch, title?, htitle, tag?, h,
    Option.map_none, Option.map_some]

end LineHead

namespace Markup

theorem reads_stitchMark (hindent : ∀ c ∈ indent, Form.isBlank c)
    (hgap : ∀ c ∈ gap, Form.isBlank c) (hrest : Stops Form.isBlank rest) :
    Form.stitchMark.Reads (indent ++ '#' :: '#' :: gap) rest := by
  have hblanks : Form.blanks.Reads indent (['#', '#'] ++ (gap ++ rest)) :=
    Reads.run hindent (stops_cons (by decide) _)
  have hmark : (Pattern.literal ['#', '#']).Reads ['#', '#'] (gap ++ rest) :=
    Reads.literal ['#', '#'] _
  have hreads := Form.reads_thenBlanks (hblanks.append hmark) hgap hrest
  rw [List.append_assoc] at hreads
  exact hreads

theorem reads_tag {mark : Char} (hindent : ∀ c ∈ indent, Form.isBlank c)
    (hmark : mark = '!' ∨ mark = '?') (hblank : Form.isBlank mark = false) (gap : Blanks)
    (name : Name) (hafter : ∀ c ∈ after, Form.isBlank c) (hsep : after ≠ [] ∨ rest = [])
    (hrest : Stops Form.isBlank rest) :
    Form.tag.Reads (indent ++ mark :: (gap.1 ++ name.text ++ after)) rest := by
  have hblanks : Form.blanks.Reads indent
      ([mark] ++ ((gap.1 ++ name.text) ++ (after ++ rest))) :=
    Reads.run hindent (stops_cons hblank _)
  have htagMark : Form.tagMark.Reads (indent ++ [mark])
      ((gap.1 ++ name.text) ++ (after ++ rest)) :=
    hblanks.append (Reads.one (Form.isTagMark_iff.mpr hmark) _)
  have hname : Form.tagName.Reads (gap.1 ++ name.text) (after ++ rest) :=
    name.reads_tagName gap (Form.stops_blanks (by decide) hafter hsep)
  have hreads := Form.reads_thenBlanks (htagMark.append hname) hafter hrest
  rw [List.append_assoc indent, List.append_assoc indent] at hreads
  exact hreads

end Markup

namespace Context

/-- A line is lexed as its head and what follows it, once the head is read and what it leaves to
come is lexed. What was pending before the line has no say in either. -/
theorem lexLine_of_head (tabWidth : Nat) (stale : Option Expectation) {mark : Char}
    {tail : List Char} {later : List Piece} (hindent : ∀ c ∈ indent, Form.isBlank c)
    (hblank : Form.isBlank mark = false) (hmark : mark ≠ '{')
    (hread : LineHead.read (indent ++ mark :: tail ++ print later) =
      (kind, ⟨indent ++ mark :: tail, print later⟩))
    (hlater : (Context.mk 0 kind.expects).Lexes (print later) later) :
    let pieces := ⟨kind.tokenKind, indent ++ mark :: tail⟩ :: later
    let lexed := (Context.mk 0 stale).lexLine tabWidth (print pieces)
    lexed.pieces = pieces ∧ lexed.next = .initial := by
  intro pieces lexed
  have hprint : print pieces = indent ++ mark :: tail ++ print later := rfl
  have hline : print pieces ≠ [] := by
    rw [hprint]
    simp
  have htaken : indent ++ mark :: tail ≠ [] := by simp
  have hmarked : print pieces = indent ++ mark :: (tail ++ print later) := by
    rw [hprint, List.append_assoc]
    rfl
  have hfirst : (Context.mk 0 stale).firstStep tabWidth (print pieces) =
      ⟨⟨indent ++ mark :: tail, print later⟩, kind.tokenKind,
        Context.initial.expecting kind.expects (print later),
        [.lineStart kind (Column.indentation tabWidth (print pieces))]⟩ :=
    firstStep_of_mark tabWidth rfl hindent hblank hmark hmarked hread htaken
  obtain ⟨hpieces, hnext⟩ := lexLine_of_ne_nil tabWidth (Context.mk 0 stale) hline
  rw [hfirst] at hpieces hnext
  have hlexes : (Context.initial.expecting kind.expects (print later)).Lexes (print later)
      later := lexes_expecting rfl hlater
  obtain ⟨hlaterPieces, hdepth⟩ := hlexes
  constructor
  · rw [hpieces, hlaterPieces]
    rfl
  · rw [hnext, endLine, hdepth]
    rfl

end Context

namespace Markup

variable (tabWidth : Nat) (stale : Option Expectation)

/-- A tag is read with the blanks after it, whether a list follows or the line is over. -/
theorem lexLine_tag (indent : Blanks) {mark : Char} (hmark : mark = '!' ∨ mark = '?')
    (gap : Blanks) (name : Name) (hafter : ∀ c ∈ after, Form.isBlank c) (list : PropertyList)
    (hsep : after ≠ [] ∨ print list.pieces = []) :
    let pieces := ⟨.tag, indent.1 ++ mark :: (gap.1 ++ name.text ++ after)⟩ :: list.pieces
    let lexed := (Context.mk 0 stale).lexLine tabWidth (print pieces)
    lexed.pieces = pieces ∧ lexed.next = .initial := by
  have hblank : Form.isBlank mark = false := by rcases hmark with rfl | rfl <;> rfl
  have hheader : mark ≠ '#' := by rcases hmark with rfl | rfl <;> decide
  have hbrace : mark ≠ '{' := by rcases hmark with rfl | rfl <;> decide
  have hreads := reads_tag indent.2 hmark hblank gap name hafter hsep list.stops_print
  have hread := LineHead.read_of_tag indent.2 hblank hheader (List.append_assoc _ _ _) hreads
  exact Context.lexLine_of_head tabWidth stale indent.2 hblank hbrace hread list.lexes

theorem lexLine_labeledHeader (indent gap : Blanks) {list : PropertyList}
    (hlist : list.startsWithLabel) :
    let pieces := ⟨.header, indent.1 ++ '#' :: '#' :: gap.1⟩ :: list.pieces
    let lexed := (Context.mk 0 stale).lexLine tabWidth (print pieces)
    lexed.pieces = pieces ∧ lexed.next = .initial := by
  have hreads := reads_stitchMark indent.2 gap.2 list.stops_print
  have hread := LineHead.read_of_stitchMark hreads
  obtain ⟨rest, hrest⟩ := PropertyList.print_of_startsWithLabel hlist
  have hlabel : Form.labelMark.startsAt (print list.pieces) := by
    rw [hrest]
    exact startsAt_literal_iff.mpr ⟨rest, rfl⟩
  have hnonempty : (print list.pieces).isEmpty = false := by
    rw [hrest]
    rfl
  simp only [hlabel, hnonempty, if_true, Bool.false_eq_true, if_false] at hread
  exact Context.lexLine_of_head tabWidth stale indent.2 (by decide) (by decide) hread list.lexes

theorem lexLine_stitchHeader (indent gap : Blanks) (name : Name) (after : Blanks) :
    let pieces := [⟨.header, indent.1 ++ '#' :: '#' :: gap.1⟩,
      ⟨.stitchName, name.text ++ after.1⟩]
    let lexed := (Context.mk 0 stale).lexLine tabWidth (print pieces)
    lexed.pieces = pieces ∧ lexed.next = .initial := by
  have hstops : Stops Form.isBlank (name.text ++ after.1 ++ []) := stops_cons name.not_blank _
  have hread := LineHead.read_of_stitchMark (reads_stitchMark indent.2 gap.2 hstops)
  have hlabel : ¬ Form.labelMark.startsAt (name.text ++ after.1 ++ []) := by
    rw [Form.labelMark, startsAt_literal_iff]
    rintro ⟨other, hother⟩
    have hinitial := name.initial_lower
    rw [← (List.cons.inj hother).1] at hinitial
    cases hinitial
  have hnonempty : (name.text ++ after.1 ++ []).isEmpty = false := rfl
  simp only [hlabel, hnonempty, Bool.false_eq_true, if_false] at hread
  have hlater : (Context.mk 0 LineKind.stitchHeader.expects).Lexes
      (print [⟨.stitchName, name.text ++ after.1⟩]) [⟨.stitchName, name.text ++ after.1⟩] :=
    name.lexes after (Or.inl rfl)
  exact Context.lexLine_of_head tabWidth stale indent.2 (by decide) (by decide) hread hlater

theorem lexLine_title (indent : Blanks) (heading : TitleText) :
    let pieces := [⟨.header, indent.1 ++ '#' :: heading.text⟩]
    let lexed := (Context.mk 0 stale).lexLine tabWidth (print pieces)
    lexed.pieces = pieces ∧ lexed.next = .initial := by
  have htitle : IsTitle (indent.1 ++ '#' :: heading.text) indent.1 heading.text :=
    ⟨indent.2, rfl, heading.single_mark⟩
  have hread : LineHead.read (indent.1 ++ '#' :: heading.text ++ print []) =
      (.title, ⟨indent.1 ++ '#' :: heading.text, print []⟩) := by
    rw [print, List.flatMap_nil, List.append_nil, LineHead.read_of_isTitle htitle,
      Form.labelMark, find?_literal_eq_none_iff.mpr heading.no_label]
    rfl
  have hlater : (Context.mk 0 LineKind.title.expects).Lexes (print []) [] :=
    Context.lexes_nil rfl
  exact Context.lexLine_of_head tabWidth stale indent.2 (by decide) (by decide) hread hlater

theorem lexLine_titleWithList (indent : Blanks) (heading : TitleText) {list : PropertyList}
    (hlist : list.startsWithLabel) :
    let pieces := ⟨.header, indent.1 ++ '#' :: heading.text⟩ :: list.pieces
    let lexed := (Context.mk 0 stale).lexLine tabWidth (print pieces)
    lexed.pieces = pieces ∧ lexed.next = .initial := by
  obtain ⟨rest, hrest⟩ := PropertyList.print_of_startsWithLabel hlist
  have hhead : (heading.text ++ '|' :: '>' :: rest).head? ≠ some '#' := by
    cases htext : heading.text with
    | nil => simp
    | cons c tail =>
        have hmark := heading.single_mark
        rw [htext] at hmark
        exact hmark
  have htitle : IsTitle (indent.1 ++ '#' :: heading.text ++ '|' :: '>' :: rest) indent.1
      (heading.text ++ '|' :: '>' :: rest) := ⟨indent.2, List.append_assoc _ _ _, hhead⟩
  have hread := LineHead.read_of_isTitle htitle
  rw [Form.labelMark, find?_literal_append (by decide) heading.no_label, ← hrest] at hread
  have hcut : (Cut.mk heading.text (print list.pieces)).after (indent.1 ++ ['#']) =
      ⟨indent.1 ++ '#' :: heading.text, print list.pieces⟩ := by
    simp [Cut.after]
  simp only [hcut] at hread
  exact Context.lexLine_of_head tabWidth stale indent.2 (by decide) (by decide) hread list.lexes

end Markup

/-- Every written line is read back as the pieces it was written in, with their kinds, their
texts and their order, whatever the width of a tab and whatever an earlier line left pending. It
leaves no comment open and nothing to come. -/
theorem lexLine_print (line : MarkedLine) (tabWidth : Nat) (stale : Option Expectation) :
    let lexed := (Context.mk 0 stale).lexLine tabWidth (print line.pieces)
    lexed.pieces = line.pieces ∧ lexed.next = .initial := by
  cases line with
  | tag indent mark hmark gap name after =>
      exact lexLine_tag tabWidth stale indent hmark gap name after.2 .nil (Or.inr rfl)
  | tagWithList indent mark hmark gap name after list =>
      exact lexLine_tag tabWidth stale indent hmark gap name after.2.2 list (Or.inl after.2.1)
  | labeledHeader indent gap list hlist =>
      exact lexLine_labeledHeader tabWidth stale indent gap hlist
  | stitchHeader indent gap name after =>
      exact lexLine_stitchHeader tabWidth stale indent gap name after
  | title indent heading => exact lexLine_title tabWidth stale indent heading
  | titleWithList indent heading list hlist =>
      exact lexLine_titleWithList tabWidth stale indent heading hlist

/-- A tag with an entry of each sort and an arrow after it, and a title that ends in the same
list. The mark of a comment in the title is a part of it. -/
theorem lexLine_print_lists :
    let ctx : Context := ⟨0, some .stringTail⟩
    let blank : Blanks := ⟨[' '], List.forall_mem_singleton.mpr rfl⟩
    let gap : Gap := ⟨['\t'], List.cons_ne_nil _ _, List.forall_mem_singleton.mpr rfl⟩
    let name : Name := ⟨'a', ['S'], rfl, List.forall_mem_singleton.mpr rfl⟩
    let list : PropertyList :=
      .cons (.label blank name) gap <| .cons (.word name) gap <|
        .cons (.integer '0' ['7'] rfl (List.forall_mem_singleton.mpr rfl)) gap <|
          .cons (.string ['?'] (List.forall_mem_singleton.mpr rfl)) gap <| .link blank name blank
    let tag : MarkedLine := .tagWithList blank '?' (Or.inr rfl) blank name gap list
    let heading : TitleText :=
      ⟨[' ', '{', '-'], by decide, fun h => absurd (h.subset List.mem_cons_self) (by decide)⟩
    let title : MarkedLine := .titleWithList blank heading list rfl
    (print tag.pieces = " ? aS\t|> aS\taS\t07\t\"?\"\t-> aS ".toList ∧
        (ctx.lexLine 4 (print tag.pieces)).pieces = tag.pieces ∧
        (ctx.lexLine 4 (print tag.pieces)).next = .initial) ∧
      print title.pieces = " # \x7b-|> aS\taS\t07\t\"?\"\t-> aS ".toList ∧
        (ctx.lexLine 4 (print title.pieces)).pieces = title.pieces ∧
        (ctx.lexLine 4 (print title.pieces)).next = .initial := by
  intro ctx blank gap name list tag heading title
  exact ⟨⟨by decide, lexLine_print tag 4 (some .stringTail)⟩,
    by decide, lexLine_print title 4 (some .stringTail)⟩

end StitchMarkup
