import Mathlib.Data.List.Basic
import StitchMarkup.Proofs.Chained
import StitchMarkup.Proofs.Matching
import StitchMarkup.Proofs.Tiling
import StitchMarkup.Terminal

/-!
What a terminal shows of a painted document. It obeys the escape sequences and shows the rest,
so what is shown of a text is the text without them. A text with an escape character of its own
could begin a sequence and take away some of the text painted after it; without one, what is
shown is the text itself, with its line breaks written as line feeds.
-/

namespace StitchMarkup

namespace Text

/-- Writes every line break as a line feed alone. -/
def unixBreaks : List Char → List Char
  | [] => []
  | '\r' :: '\n' :: rest => '\n' :: unixBreaks rest
  | c :: rest => c :: unixBreaks rest

/-- The line feed a text lacks when its last line is not closed. -/
def missingBreak (text : List Char) : List Char :=
  match text.getLast? with
  | none | some '\n' => []
  | some _ => ['\n']

theorem missingBreak_cons (c : Char) {rest : List Char} (hrest : rest ≠ []) :
    missingBreak (c :: rest) = missingBreak rest := by
  obtain ⟨d, rest, rfl⟩ := List.exists_cons_of_ne_nil hrest
  rw [missingBreak, List.getLast?_cons_cons]
  rfl

theorem missingBreak_lineFeed (rest : List Char) :
    missingBreak ('\n' :: rest) = missingBreak rest := by
  cases rest with
  | nil => rfl
  | cons d rest => exact missingBreak_cons '\n' (List.cons_ne_nil d rest)

theorem splitLines_eq_nil_iff {text : List Char} : splitLines text = [] ↔ text = [] := by
  fun_cases splitLines text <;> simp

/-- Closed by a line feed each, the lines of a text are the text. -/
theorem flatMap_splitLines (text : List Char) :
    (splitLines text).flatMap (· ++ ['\n']) = unixBreaks text ++ missingBreak text := by
  fun_induction splitLines text with
  | case1 => rfl
  | case2 rest ih =>
      rw [List.flatMap_cons, ih, missingBreak_lineFeed]
      simp [unixBreaks]
  | case3 rest ih =>
      rw [List.flatMap_cons, ih, missingBreak_cons _ (List.cons_ne_nil '\n' rest),
        missingBreak_lineFeed]
      simp [unixBreaks]
  | case4 c rest hfeed hbreak hlines ih =>
      rw [splitLines_eq_nil_iff.mp hlines]
      simp [unixBreaks, missingBreak]
  | case5 c rest hfeed hbreak line lines hlines ih =>
      have hrest : rest ≠ [] := by
        rintro rfl
        cases hlines
      rw [hlines, List.flatMap_cons] at ih
      rw [List.flatMap_cons, List.cons_append, List.cons_append, ih, missingBreak_cons c hrest,
        unixBreaks.eq_3 c rest hbreak, List.cons_append]

theorem mem_of_mem_splitLines {text line : List Char} {c : Char} (hline : line ∈ splitLines text)
    (hc : c ∈ line) : c ∈ text := by
  fun_induction splitLines text generalizing line with
  | case1 => cases hline
  | case2 rest ih =>
      rcases List.mem_cons.mp hline with rfl | hline
      · cases hc
      · exact List.mem_cons_of_mem _ (ih hline hc)
  | case3 rest ih =>
      rcases List.mem_cons.mp hline with rfl | hline
      · cases hc
      · exact List.mem_cons_of_mem _ (List.mem_cons_of_mem _ (ih hline hc))
  | case4 d rest _ _ _ ih =>
      rw [List.mem_singleton.mp hline, List.mem_singleton] at hc
      rw [hc]
      exact List.mem_cons_self
  | case5 d rest _ _ first lines hlines ih =>
      rw [hlines] at ih
      rcases List.mem_cons.mp hline with rfl | hline
      · rcases List.mem_cons.mp hc with rfl | hc
        · exact List.mem_cons_self
        · exact List.mem_cons_of_mem _ (ih List.mem_cons_self hc)
      · exact List.mem_cons_of_mem _ (ih (List.mem_cons_of_mem _ hline) hc)

end Text

namespace Line

variable (line : Line) (h : line.pieces.flatMap Piece.text = line.text.toList)

include h

/-- The tokens of a line cut its pieces out of its text. -/
theorem map_pieceIn_tokens : line.tokens.map (Token.pieceIn line.text.toList) = line.pieces := by
  rw [← h]
  exact Token.map_pieceIn_ofPieces line.pieces

theorem flatMap_textIn_tokens :
    line.tokens.flatMap (Token.textIn line.text.toList) = line.text.toList := by
  calc line.tokens.flatMap (Token.textIn line.text.toList)
      = (line.tokens.map (Token.pieceIn line.text.toList)).flatMap Piece.text := by
        rw [List.flatMap_map]
        rfl
    _ = line.pieces.flatMap Piece.text := by rw [line.map_pieceIn_tokens h]
    _ = line.text.toList := h

end Line

namespace Terminal

/-- What a terminal obeys and does not show. -/
def escape : Pattern :=
  Pattern.literal ['\x1b', '['] ++ [Atom.run (· != 'm')] ++ Pattern.literal ['m']

theorem cut?_escape_advances {text : List Char} {cut : Cut} (h : escape.cut? text = some cut) :
    cut.Advances text :=
  Pattern.advances_of_cut? (by decide) h

/-- Deletes every escape sequence. -/
def withoutEscapes : List Char → List Char
  | [] => []
  | c :: rest =>
      match _h : escape.cut? (c :: rest) with
      | some cut => withoutEscapes cut.rest
      | none => c :: withoutEscapes rest
termination_by text => text.length
decreasing_by
  · exact (cut?_escape_advances _h).length_rest_lt
  · exact Nat.lt_succ_self rest.length

theorem withoutEscapes_of_some {text : List Char} {cut : Cut} (h : escape.cut? text = some cut) :
    withoutEscapes text = withoutEscapes cut.rest := by
  cases text with
  | nil => cases h
  | cons c rest =>
      rw [withoutEscapes]
      split
      · next found hfound =>
          rw [h] at hfound
          cases hfound
          rfl
      · next hnone =>
          rw [h] at hnone
          cases hnone

theorem withoutEscapes_of_none {c : Char} {rest : List Char} (h : escape.cut? (c :: rest) = none) :
    withoutEscapes (c :: rest) = c :: withoutEscapes rest := by
  rw [withoutEscapes]
  split
  · next found hfound =>
      rw [h] at hfound
      cases hfound
  · rfl

/-- Whatever is written after it, the first text is shown as the second. -/
def ShowsAs (written shown : List Char) : Prop :=
  ∀ later, withoutEscapes (written ++ later) = shown ++ withoutEscapes later

namespace ShowsAs

variable {written shown : List Char}

theorem nil : ShowsAs [] [] := fun _ => rfl

theorem append {written' shown' : List Char} (hfirst : ShowsAs written shown)
    (hsecond : ShowsAs written' shown') : ShowsAs (written ++ written') (shown ++ shown') := by
  intro later
  rw [List.append_assoc, hfirst, hsecond, List.append_assoc]

theorem flatMap {α : Type} {parts : List α} {write display : α → List Char}
    (h : ∀ part ∈ parts, ShowsAs (write part) (display part)) :
    ShowsAs (parts.flatMap write) (parts.flatMap display) := by
  induction parts with
  | nil => exact nil
  | cons part parts ih =>
      obtain ⟨hpart, hparts⟩ := List.forall_mem_cons.mp h
      exact hpart.append (ih hparts)

/-- All that is written is shown, as no sequence can begin in it. -/
theorem plain (h : '\x1b' ∉ written) : ShowsAs written written := by
  intro later
  induction written with
  | nil => rfl
  | cons c written ih =>
      rw [List.mem_cons, not_or] at h
      have hlead : escape.lead c = false := beq_false_of_ne (Ne.symm h.1)
      rw [List.cons_append, withoutEscapes_of_none (Pattern.cut?_cons_of_lead hlead _), ih h.2,
        List.cons_append]

theorem setRendition {parameters : List Char} (h : 'm' ∉ parameters) :
    ShowsAs (Terminal.setRendition parameters) [] := by
  intro later
  have hparameters : ∀ c ∈ parameters, (c != 'm') = true := by
    intro c hc
    rw [bne_iff_ne]
    rintro rfl
    exact h hc
  have hreads : escape.Reads (Terminal.setRendition parameters) later :=
    .append (.append (.literal _ _) (.run hparameters (Pattern.stops_cons rfl _))) (.literal _ _)
  exact withoutEscapes_of_some hreads

end ShowsAs

/-- A token of a line in its colour. -/
def paintToken (line : List Char) (token : Token) : List Char :=
  setRendition token.kind.rendition ++ token.textIn line

theorem paintPiece_showsAs {piece : Piece} (h : '\x1b' ∉ piece.text) :
    ShowsAs (paintPiece piece) piece.text := by
  have hparameters : 'm' ∉ piece.kind.rendition := by
    cases piece.kind <;> decide
  exact (ShowsAs.setRendition hparameters).append (.plain h)

theorem paintLine_eq {line : Line} (h : line.pieces.flatMap Piece.text = line.text.toList) :
    paintLine line = line.tokens.flatMap (paintToken line.text.toList) ++ setRendition ['0'] ++
      ['\n'] := by
  have hpaint : line.tokens.flatMap (paintToken line.text.toList) =
      line.pieces.flatMap paintPiece := by
    rw [← line.map_pieceIn_tokens h, List.flatMap_map]
    rfl
  rw [paintLine, hpaint]

theorem paintLine_showsAs {line : Line} (h : line.pieces.flatMap Piece.text = line.text.toList)
    (hplain : '\x1b' ∉ line.text.toList) :
    ShowsAs (paintLine line) (line.text.toList ++ ['\n']) := by
  have hpieces : ∀ piece ∈ line.pieces, ShowsAs (paintPiece piece) piece.text := by
    intro piece hpiece
    apply paintPiece_showsAs
    rw [← h] at hplain
    exact fun hmem => hplain (List.mem_flatMap_of_mem hpiece hmem)
  have hreset : ShowsAs (setRendition ['0']) [] := .setRendition (by decide)
  have hbreak : ShowsAs ['\n'] ['\n'] := .plain (by decide)
  have hline := ((ShowsAs.flatMap hpieces).append hreset).append hbreak
  rw [h, List.append_nil] at hline
  exact hline

end Terminal

namespace Document

variable (settings : Settings) (text : String)

theorem load_texts :
    (load settings text).document.lines.map Line.text = Text.lines text :=
  Pass.lex_texts settings.tabWidth .initial (Text.lines text)

theorem load_pieces :
    ∀ line ∈ (load settings text).document.lines,
      line.pieces.flatMap Piece.text = line.text.toList := by
  intro line hline
  have hchained := Pass.lex_chained settings.tabWidth .initial (Text.lines text)
  rw [hchained.pieces_eq hline]
  exact line.start.lexLine_text settings.tabWidth line.text.toList

/-- Every character of a line is one of the text. -/
theorem mem_of_mem_load {line : Line} {c : Char}
    (hline : line ∈ (load settings text).document.lines) (hc : c ∈ line.text.toList) :
    c ∈ text.toList := by
  have htext : line.text ∈ Text.lines text := by
    rw [← load_texts settings text]
    exact List.mem_map_of_mem hline
  obtain ⟨chars, hchars, hsame⟩ := List.mem_map.mp htext
  rw [← hsame, String.toList_ofList] at hc
  exact Text.mem_of_mem_splitLines hchars hc

/-- Closed by a line feed each, the stored lines are the text they were loaded from. -/
theorem flatMap_load :
    (load settings text).document.lines.flatMap (fun line => line.text.toList ++ ['\n']) =
      Text.unixBreaks text.toList ++ Text.missingBreak text.toList := by
  calc (load settings text).document.lines.flatMap (fun line => line.text.toList ++ ['\n'])
      = ((load settings text).document.lines.map Line.text).flatMap (·.toList ++ ['\n']) := by
        rw [List.flatMap_map]
    _ = (Text.splitLines text.toList).flatMap (· ++ ['\n']) := by
        simp only [load_texts, Text.lines, List.flatMap_map, String.toList_ofList]
    _ = Text.unixBreaks text.toList ++ Text.missingBreak text.toList :=
        Text.flatMap_splitLines text.toList

end Document

theorem Terminal.paintBytes_toUTF8 (text : String) :
    paintBytes text.toUTF8 = .ok (paint text) := by
  have hdecoded : String.fromUTF8? text.toUTF8 = some text := by
    rw [String.fromUTF8?, String.toUTF8_eq_toByteArray, dif_pos text.isValidUTF8]
    rfl
  rw [paintBytes, hdecoded]

/-- A text without escape characters is painted without loss. Its bytes are decoded, every token
of every line is written once, behind one escape sequence, and nothing else is written but the
sequence and the line feed that end each line. So all that a terminal shows is the text. -/
theorem paint_shows_text (text : String) (htext : '\x1b' ∉ text.toList) :
    let lines := (Document.load {} text).document.lines
    Terminal.paintBytes text.toUTF8 = .ok (Terminal.paint text) ∧
      Terminal.withoutEscapes (Terminal.paint text).toList =
        Text.unixBreaks text.toList ++ Text.missingBreak text.toList ∧
      (Terminal.paint text).toList = lines.flatMap (fun line =>
        line.tokens.flatMap (Terminal.paintToken line.text.toList) ++
          Terminal.setRendition ['0'] ++ ['\n']) ∧
      lines.map Line.text = Text.lines text ∧
      ∀ line ∈ lines, line.tokens.flatMap (Token.textIn line.text.toList) = line.text.toList ∧
        '\x1b' ∉ line.text.toList := by
  intro lines
  have hpieces := Document.load_pieces {} text
  have hplain : ∀ line ∈ lines, '\x1b' ∉ line.text.toList :=
    fun line hline hmem => htext (Document.mem_of_mem_load {} text hline hmem)
  have hpaint : (Terminal.paint text).toList = lines.flatMap Terminal.paintLine :=
    String.toList_ofList
  refine ⟨Terminal.paintBytes_toUTF8 text, ?_, ?_, Document.load_texts {} text, ?_⟩
  · have hshows := Terminal.ShowsAs.flatMap fun line hline =>
      Terminal.paintLine_showsAs (hpieces line hline) (hplain line hline)
    have hall := hshows []
    rw [List.append_nil, Terminal.withoutEscapes, List.append_nil] at hall
    rw [hpaint, hall, Document.flatMap_load]
  · rw [hpaint]
    exact List.flatMap_congr fun line hline => Terminal.paintLine_eq (hpieces line hline)
  · intro line hline
    exact ⟨line.flatMap_textIn_tokens (hpieces line hline), hplain line hline⟩

theorem paint_shows_text_carriageReturn :
    '\x1b' ∉ "# a\r\nb".toList ∧
      Terminal.paintBytes "# a\r\nb".toUTF8 = .ok (Terminal.paint "# a\r\nb") ∧
      Terminal.withoutEscapes (Terminal.paint "# a\r\nb").toList =
        ['#', ' ', 'a', '\n', 'b', '\n'] := by
  have hplain : '\x1b' ∉ "# a\r\nb".toList := by decide
  obtain ⟨hbytes, hshown, _⟩ := paint_shows_text _ hplain
  exact ⟨hplain, hbytes, hshown⟩

end StitchMarkup
