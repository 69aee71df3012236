import Mathlib.Data.List.Forall2
import StitchMarkup.Proofs.EditHistory

/-!
How much an edit lexes again. The lines brought in have to be lexed, and after them the old lines
up to the first one that would start in the context it started in before. An edit lexes these and
no others: each old line it lexes again had lost its context, and all the lines it keeps are kept
as they were. Its log tells exactly this.
-/

namespace StitchMarkup

/-- The decisions behind the pieces of a stored line. -/
def Line.decisions (tabWidth : Nat) (line : Line) : List Decision :=
  (line.start.lexLine tabWidth line.text.toList).decisions

/-- The line has the text of an old one but starts in another context. -/
def Line.Restarts (line old : Line) : Prop := line.text = old.text ∧ line.start ≠ old.start

namespace Pass

variable (tabWidth : Nat) (ctx : Context)

theorem lex_decisions (texts : List String) :
    (lex tabWidth ctx texts).decisions =
      (lex tabWidth ctx texts).lines.flatMap (Line.decisions tabWidth) := by
  induction texts generalizing ctx with
  | nil => rfl
  | cons text texts ih =>
      exact congrArg ((ctx.lexLine tabWidth text.toList).decisions ++ ·) (ih _)

/-- The lines lexed again stand for the first old ones, each of which had to start anew, and the
lines kept are the old ones after these. -/
theorem relex_spec (lines : List Line) :
    ∃ old, lines = old ++ (relex tabWidth ctx lines).2 ∧
      List.Forall₂ Line.Restarts (relex tabWidth ctx lines).1.lines old ∧
      (relex tabWidth ctx lines).1.decisions =
        (relex tabWidth ctx lines).1.lines.flatMap (Line.decisions tabWidth) := by
  induction lines generalizing ctx with
  | nil => exact ⟨[], rfl, .nil, rfl⟩
  | cons line lines ih =>
      by_cases hstart : line.start = ctx
      · rw [relex, if_pos hstart]
        exact ⟨[], rfl, .nil, rfl⟩
      · obtain ⟨old, hlines, hrestarts, hdecisions⟩ :=
          ih (ctx.lexLine tabWidth line.text.toList).next
        rw [relex, if_neg hstart]
        refine ⟨line :: old, congrArg (line :: ·) hlines, .cons ⟨rfl, Ne.symm hstart⟩ hrestarts, ?_⟩
        exact congrArg ((ctx.lexLine tabWidth line.text.toList).decisions ++ ·) hdecisions

end Pass

namespace Document

variable {doc : Document} {start stop index : Nat} {texts : List String} {edit : Edit}
  {fresh stale old kept : List Line}

theorem contextBefore?_of_getElem? {line : Line} (h : doc.lines[index]? = some line) :
    doc.contextBefore? index = some line.start := by
  have hinside : index ≠ doc.lineCount := Nat.ne_of_lt (List.getElem?_eq_some_iff.mp h).1
  rw [contextBefore?, if_neg hinside, h]
  rfl

/-- What an accepted edit is put together from: `fresh` lines for the texts it brings in, `stale`
ones for the `old` lines it lexes again, and the lines `kept` after them. -/
structure Rebuilds (doc : Document) (start stop : Nat) (texts : List String) (edit : Edit)
    (fresh stale old kept : List Line) : Prop where
  lines : edit.document.lines = doc.lines.take start ++ (fresh ++ (stale ++ kept))
  old_lines : doc.lines.drop stop = old ++ kept
  fresh_texts : fresh.map Line.text = texts
  stale_restarts : List.Forall₂ Line.Restarts stale old
  final : kept ≠ [] → edit.document.final = doc.final
  count : edit.count = fresh.length + stale.length
  log : edit.log =
    Record.ofDecisions doc.settings.trace
        ((fresh ++ stale).flatMap (Line.decisions doc.settings.tabWidth)) ++
      [.relexed edit.count start (if kept = [] then none else some (start + edit.count))]

theorem replace_rebuilds (hstart : start ≤ stop) (hstop : stop ≤ doc.lineCount)
    (texts : List String) :
    ∃ edit fresh stale old kept, doc.replace start stop texts = .ok edit ∧
      doc.Rebuilds start stop texts edit fresh stale old kept := by
  obtain ⟨old, hold, hrestarts, hdecisions⟩ := Pass.relex_spec doc.settings.tabWidth
    (Pass.lex doc.settings.tabWidth ((doc.contextBefore? start).getD doc.final) texts).next
    (doc.lines.drop stop)
  refine ⟨_, _, _, old, _, if_pos ⟨hstart, hstop⟩, ?_, hold, Pass.lex_texts _ _ texts, hrestarts,
    ?_, rfl, ?_⟩
  · simp only [List.append_assoc]
  · intro hkept
    simp [hkept]
  · simp only [List.flatMap_append, ← Pass.lex_decisions, ← hdecisions, List.isEmpty_iff]

namespace Rebuilds

variable (h : doc.Rebuilds start stop texts edit fresh stale old kept)

include h

theorem length_fresh : fresh.length = texts.length := by
  rw [← h.fresh_texts, List.length_map]

theorem length_stale : stale.length = old.length := h.stale_restarts.length_eq

/-- Whether an old line is kept is seen by the number of lines lexed again. -/
theorem lineCount_eq (hstop : stop ≤ doc.lineCount) :
    doc.lineCount = stop + stale.length + kept.length := by
  have hlength := congrArg List.length h.old_lines
  rw [List.length_drop, List.length_append, ← h.length_stale] at hlength
  unfold lineCount at hstop ⊢
  omega

theorem texts_eq :
    edit.document.texts = doc.texts.take start ++ texts ++ doc.texts.drop stop := by
  have hstale : stale.map Line.text = old.map Line.text := by
    have htexts : List.Forall₂ (· = ·) (stale.map Line.text) (old.map Line.text) := by
      rw [List.forall₂_map_left_iff, List.forall₂_map_right_iff]
      exact h.stale_restarts.imp fun _ _ hrestarts => hrestarts.1
    rw [List.forall₂_eq_eq_eq] at htexts
    exact htexts
  simp only [Document.texts, h.lines, List.map_append, h.fresh_texts, hstale, List.map_take,
    List.append_assoc, ← List.map_drop, h.old_lines]

variable (hstart : start ≤ doc.lineCount)

include hstart

theorem lineCount_edited :
    edit.document.lineCount = start + texts.length + stale.length + kept.length := by
  have hlength := congrArg List.length h.lines
  simp only [List.length_append, List.length_take_of_le hstart, h.length_fresh] at hlength
  unfold lineCount
  omega

theorem take_start : edit.document.lines.take start = doc.lines.take start := by
  have hlength : (doc.lines.take start).length = start := List.length_take_of_le hstart
  rw [h.lines, List.take_append_of_le_length (Nat.le_of_eq hlength.symm), List.take_take,
    Nat.min_self]

theorem drop_start : edit.document.lines.drop start = fresh ++ (stale ++ kept) := by
  have hlength : (doc.lines.take start).length = start := List.length_take_of_le hstart
  rw [h.lines, List.drop_left' hlength]

theorem drop_inserted : edit.document.lines.drop (start + texts.length) = stale ++ kept := by
  rw [← List.drop_drop, h.drop_start hstart, List.drop_left' h.length_fresh]

theorem drop_relexed : edit.document.lines.drop (start + edit.count) = kept := by
  rw [h.count, h.length_fresh, ← Nat.add_assoc, ← List.drop_drop, h.drop_inserted hstart,
    List.drop_left]

theorem take_relexed : (edit.document.lines.drop start).take edit.count = fresh ++ stale := by
  rw [h.drop_start hstart, h.count, ← List.append_assoc, ← List.length_append, List.take_left]

/-- A line lexed again does not start where it did. -/
theorem contextBefore?_ne {k : Nat} (hk : k < stale.length) :
    edit.document.contextBefore? (start + texts.length + k) ≠ doc.contextBefore? (stop + k) := by
  have hnew : edit.document.lines[start + texts.length + k]? = some stale[k] := by
    rw [← List.getElem?_drop, h.drop_inserted hstart, List.getElem?_append_left hk,
      List.getElem?_eq_getElem hk]
  have hk' : k < old.length := by
    rw [← h.length_stale]
    exact hk
  have hold : doc.lines[stop + k]? = some old[k] := by
    rw [← List.getElem?_drop, h.old_lines, List.getElem?_append_left hk',
      List.getElem?_eq_getElem hk']
  rw [contextBefore?_of_getElem? hnew, contextBefore?_of_getElem? hold]
  intro hsame
  exact (h.stale_restarts.get hk hk').2 (Option.some.inj hsame)

/-- The first line kept starts where it did. -/
theorem contextBefore?_eq (hkept : kept ≠ []) :
    edit.document.contextBefore? (start + texts.length + stale.length) =
      doc.contextBefore? (stop + stale.length) := by
  obtain ⟨line, rest, rfl⟩ := List.exists_cons_of_ne_nil hkept
  have hnew : edit.document.lines[start + texts.length + stale.length]? = some line := by
    rw [← List.getElem?_drop, h.drop_inserted hstart, List.getElem?_append_right (Nat.le_refl _),
      Nat.sub_self]
    rfl
  have hold : doc.lines[stop + stale.length]? = some line := by
    rw [← List.getElem?_drop, h.old_lines, h.length_stale,
      List.getElem?_append_right (Nat.le_refl _), Nat.sub_self]
    rfl
  rw [contextBefore?_of_getElem? hnew, contextBefore?_of_getElem? hold]

end Rebuilds

/-- Lines that are replaced by what they are already are lexed again and nothing else is, and the
document does not change. -/
theorem Consistent.replace_own_texts (hdoc : doc.Consistent) (hstart : start ≤ stop)
    (hstop : stop ≤ doc.lineCount) :
    ∃ edit, doc.replace start stop ((doc.texts.drop start).take (stop - start)) = .ok edit ∧
      edit.document = doc ∧ edit.count = stop - start := by
  obtain ⟨edit, fresh, stale, old, kept, hedit, h⟩ := replace_rebuilds hstart hstop
    ((doc.texts.drop start).take (stop - start))
  have hstart' : start ≤ doc.lineCount := Nat.le_trans hstart hstop
  have hlength : ((doc.texts.drop start).take (stop - start)).length = stop - start := by
    rw [List.length_take, List.length_drop, texts, List.length_map]
    unfold lineCount at hstop
    omega
  have htexts : edit.document.texts = doc.texts := by
    have hdrop : doc.texts.drop stop = (doc.texts.drop start).drop (stop - start) := by
      rw [List.drop_drop, Nat.add_sub_cancel' hstart]
    rw [h.texts_eq, hdrop, List.append_assoc, List.take_append_drop, List.take_append_drop]
  have hsame : edit.document = doc := by
    have hedited := hdoc.replace hedit
    have hsettings := replace_settings hedit
    unfold Consistent at hedited hdoc
    rw [hsettings] at hedited
    obtain ⟨hlines, hfinal⟩ := Chained.eq_of_texts hedited hdoc htexts
    calc edit.document
        = ⟨edit.document.settings, edit.document.lines, edit.document.final⟩ := rfl
      _ = doc := by rw [hsettings, hlines, hfinal]
  refine ⟨edit, hedit, hsame, ?_⟩
  -- The contexts before and after the edit are those of one document, so no line can restart.
  have hstale : stale.length = 0 := by
    by_contra hne
    have hmeets := h.contextBefore?_ne hstart' (Nat.pos_of_ne_zero hne)
    rw [hsame, hlength, Nat.add_sub_cancel' hstart] at hmeets
    exact hmeets rfl
  rw [h.count, h.length_fresh, hlength, hstale, Nat.add_zero]

end Document

namespace Edit

variable (edit : Edit) (doc : Document) (request : Replacement)

/-- The old line `k` places after the range starts in the context in which it started before. -/
def Meets (k : Nat) : Prop :=
  edit.document.contextBefore? (request.start + request.texts.length + k) =
    doc.contextBefore? (request.stop + k)

/-- The records of the decisions on the lines that were lexed. -/
def trace : List Record :=
  let relexed := (edit.document.lines.drop request.start).take edit.count
  Record.ofDecisions doc.settings.trace
    (relexed.flatMap (Line.decisions doc.settings.tabWidth))

/-- The edit stopped at an old line, the first one that starts in the context it had before. -/
def Converges : Prop :=
  ∃ k, request.stop + k < doc.lineCount ∧ edit.Meets doc request k ∧
    (∀ j < k, ¬ edit.Meets doc request j) ∧ edit.count = request.texts.length + k ∧
    edit.document.final = doc.final ∧
    edit.log = edit.trace doc request ++
      [.relexed edit.count request.start (some (request.start + edit.count))]

/-- No old line starts in the context it had before, so the edit went on to the end. -/
def ReachesEnd : Prop :=
  (∀ k, request.stop + k < doc.lineCount → ¬ edit.Meets doc request k) ∧
    request.start + edit.count = edit.document.lineCount ∧
    edit.log = edit.trace doc request ++ [.relexed edit.count request.start none]

/-- The edit lexed the lines it brings in, the fewest old ones after them, and no others. -/
structure LexesLeast : Prop where
  texts : edit.document.texts =
    doc.texts.take request.start ++ request.texts ++ doc.texts.drop request.stop
  /-- The new lines end where the numbers of lines before and after the edit put their end, and
  that subtraction cannot go below zero. -/
  inserted : doc.lineCount ≤ edit.document.lineCount + request.stop ∧
    edit.document.lineCount + request.stop - doc.lineCount =
      request.start + request.texts.length
  converges_or_reachesEnd : edit.Converges doc request ∨ edit.ReachesEnd doc request
  before : edit.document.lines.take request.start = doc.lines.take request.start
  after : edit.document.lines.drop (request.start + edit.count) =
    doc.lines.drop (request.stop + (edit.count - request.texts.length))

end Edit

theorem Document.Rebuilds.lexesLeast {doc : Document} {request : Replacement} {edit : Edit}
    {fresh stale old kept : List Line}
    (h : doc.Rebuilds request.start request.stop request.texts edit fresh stale old kept)
    (hstart : request.start ≤ request.stop) (hstop : request.stop ≤ doc.lineCount) :
    edit.LexesLeast doc request := by
  have hbegin : request.start ≤ doc.lineCount := Nat.le_trans hstart hstop
  have hcount : edit.count = request.texts.length + stale.length := by
    rw [h.count, h.length_fresh]
  have hlines := h.lineCount_eq hstop
  have hedited := h.lineCount_edited hbegin
  have hlog := h.log
  rw [← h.take_relexed hbegin] at hlog
  refine ⟨h.texts_eq, ⟨by omega, by omega⟩, ?_, h.take_start hbegin, ?_⟩
  · by_cases hkept : kept = []
    · rw [if_pos hkept] at hlog
      rw [hkept, List.length_nil] at hlines hedited
      refine Or.inr ⟨?_, by omega, hlog⟩
      intro k hk
      exact h.contextBefore?_ne hbegin (by omega)
    · rw [if_neg hkept] at hlog
      have hpos : 0 < kept.length := List.length_pos_iff.mpr hkept
      refine Or.inl ⟨stale.length, by omega, h.contextBefore?_eq hbegin hkept, ?_, hcount,
        h.final hkept, hlog⟩
      intro k hk
      exact h.contextBefore?_ne hbegin hk
  · rw [h.drop_relexed hbegin, hcount, Nat.add_sub_cancel_left, ← List.drop_drop, h.old_lines,
      h.length_stale, List.drop_left]

/-- An accepted edit lexes the lines it brings in and after them the fewest old lines that it
can: up to the first that starts in the context it had before, or else up to the end of the
document. All other lines stay as they are, and the log ends in one record that tells how many
lines were lexed and up to where. Lines replaced by themselves leave the document as it is. -/
theorem replace_relexes_least (settings : Settings) (origin : Origin) (edits : List Replacement)
    (request : Replacement) (hstart : request.start ≤ request.stop)
    (hstop : request.stop ≤ ((origin.document settings).edited edits).lineCount) :
    let doc := (origin.document settings).edited edits
    (∃ edit, doc.replace request.start request.stop request.texts = .ok edit ∧
        edit.LexesLeast doc request) ∧
      ∃ edit, doc.replace request.start request.stop
          ((doc.texts.drop request.start).take (request.stop - request.start)) = .ok edit ∧
        edit.document = doc ∧ edit.count = request.stop - request.start := by
  intro doc
  have hdoc : doc.Consistent := (origin.document_consistent settings).edited edits
  obtain ⟨edit, fresh, stale, old, kept, hedit, h⟩ :=
    Document.replace_rebuilds hstart hstop request.texts
  exact ⟨⟨edit, hedit, h.lexesLeast hstart hstop⟩, hdoc.replace_own_texts hstart hstop⟩

/-- A comment is closed one line earlier in a document of three lines. -/
theorem replace_relexes_least_closing :
    let doc := (Origin.empty.document {}).edited [⟨0, 0, ["a \x7b-", "b", "-\x7d c"]⟩]
    (1 ≤ 2 ∧ 2 ≤ doc.lineCount) ∧
      (∃ edit, doc.replace 1 2 ["-\x7d"] = .ok edit ∧ edit.LexesLeast doc ⟨1, 2, ["-\x7d"]⟩) ∧
      ∃ edit, doc.replace 1 2 ((doc.texts.drop 1).take 1) = .ok edit ∧ edit.document = doc ∧
        edit.count = 1 :=
  ⟨by decide,
    replace_relexes_least {} .empty [⟨0, 0, ["a \x7b-", "b", "-\x7d c"]⟩] ⟨1, 2, ["-\x7d"]⟩
      (by decide) (by decide)⟩

end StitchMarkup
