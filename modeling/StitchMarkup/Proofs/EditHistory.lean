import StitchMarkup.Proofs.Chained

/-!
Documents under edits. Whatever a host does to a document, what is stored for its lines is what
lexing the present lines from the start would store. The invariant is that the lines are chained
from the initial context to the final one: an edit cuts the chain at its two ends, chains the new
lines to the context at the first cut and mends the rest up to where nothing can differ any more.
-/

namespace StitchMarkup

/-- How a document comes into being. -/
inductive Origin where
  | empty
  | loaded (text : String)

def Origin.document (settings : Settings) : Origin → Document
  | .empty => .empty settings
  | .loaded text => (Document.load settings text).document

namespace Document

/-- The document a host holds after it asked for an edit. A refused one changes nothing. -/
def afterEdit (doc : Document) (edit : Replacement) : Document :=
  match doc.replace edit.start edit.stop edit.texts with
  | .ok edited => edited.document
  | .error _ => doc

def edited (doc : Document) (edits : List Replacement) : Document :=
  edits.foldl afterEdit doc

def texts (doc : Document) : List String := doc.lines.map Line.text

/-- The stored lines read on from the initial context up to the stored final one. -/
def Consistent (doc : Document) : Prop :=
  Chained doc.settings.tabWidth .initial doc.lines doc.final

theorem empty_consistent (settings : Settings) : (empty settings).Consistent := by
  unfold Consistent
  rfl

theorem load_consistent (settings : Settings) (text : String) :
    (load settings text).document.Consistent :=
  Pass.lex_chained settings.tabWidth .initial (Text.lines text)

theorem Consistent.contextBefore? {doc : Document} (h : doc.Consistent) {index : Nat}
    (hindex : index ≤ doc.lineCount) :
    doc.contextBefore? index =
      some (Context.initial.afterLines doc.settings.tabWidth (doc.texts.take index)) := by
  unfold Document.contextBefore?
  split
  · next hend =>
      have hall : doc.texts.take index = doc.texts :=
        List.take_of_length_le (by simp [texts, hend, lineCount])
      rw [hall]
      exact congrArg some (Chained.final_eq h)
  · next hinside =>
      have hlt : index < doc.lines.length := by
        unfold lineCount at hindex hinside
        omega
      have hline : doc.lines[index]? = some doc.lines[index] := List.getElem?_eq_getElem hlt
      rw [hline]
      exact congrArg some (Chained.start_eq h hline)

/-- The context an edit takes up lexing in is the one the lines before it end in, also where it
appends to the document. -/
theorem Consistent.take_chained {doc : Document} (h : doc.Consistent) {start : Nat}
    (hstart : start ≤ doc.lineCount) :
    Chained doc.settings.tabWidth .initial (doc.lines.take start)
      ((doc.contextBefore? start).getD doc.final) := by
  have hsplit : Chained doc.settings.tabWidth .initial
      (doc.lines.take start ++ doc.lines.drop start) doc.final := by
    rw [List.take_append_drop]
    exact h
  obtain ⟨middle, hbefore, _⟩ := chained_append.mp hsplit
  have hmiddle : middle = (doc.contextBefore? start).getD doc.final := by
    rw [h.contextBefore? hstart, hbefore.final_eq, List.map_take]
    rfl
  rw [← hmiddle]
  exact hbefore

/-- An accepted edit keeps the stored lines consistent. The suffix it never looks at is joined
to the rest of the chain by the context that stopped the lexer there. -/
theorem Consistent.replace {doc : Document} (h : doc.Consistent) {start stop : Nat}
    {texts : List String} {edit : Edit} (hedit : doc.replace start stop texts = .ok edit) :
    edit.document.Consistent := by
  unfold Document.replace at hedit
  split at hedit
  · next hrange =>
      have hsplit : Chained doc.settings.tabWidth .initial
          (doc.lines.take stop ++ doc.lines.drop stop) doc.final := by
        rw [List.take_append_drop]
        exact h
      obtain ⟨middle, _, hsuffix⟩ := chained_append.mp hsplit
      have hbefore := h.take_chained (Nat.le_trans hrange.1 hrange.2)
      have hfresh := Pass.lex_chained doc.settings.tabWidth
        ((doc.contextBefore? start).getD doc.final) texts
      have hmended := Pass.relex_chained hsuffix (Pass.lex doc.settings.tabWidth
        ((doc.contextBefore? start).getD doc.final) texts).next
      simp only [Except.ok.injEq] at hedit
      subst edit
      unfold Consistent
      simp only [List.append_assoc]
      apply chained_append.mpr
      refine ⟨_, hbefore, ?_⟩
      apply chained_append.mpr
      exact ⟨_, hfresh, hmended⟩
  · cases hedit

theorem replace_settings {doc : Document} {start stop : Nat} {texts : List String} {edit : Edit}
    (hedit : doc.replace start stop texts = .ok edit) :
    edit.document.settings = doc.settings := by
  unfold replace at hedit
  split at hedit
  · simp only [Except.ok.injEq] at hedit
    subst edit
    rfl
  · cases hedit

theorem Consistent.afterEdit {doc : Document} (h : doc.Consistent) (edit : Replacement) :
    (doc.afterEdit edit).Consistent := by
  unfold Document.afterEdit
  split
  · next edited hedited => exact h.replace hedited
  · exact h

theorem afterEdit_settings (doc : Document) (edit : Replacement) :
    (doc.afterEdit edit).settings = doc.settings := by
  unfold afterEdit
  split
  · next edited hedited => exact replace_settings hedited
  · rfl

theorem Consistent.edited {doc : Document} (h : doc.Consistent) (edits : List Replacement) :
    (doc.edited edits).Consistent := by
  induction edits generalizing doc with
  | nil => exact h
  | cons edit edits ih => exact ih (h.afterEdit edit)

theorem edited_settings (doc : Document) (edits : List Replacement) :
    (doc.edited edits).settings = doc.settings := by
  induction edits generalizing doc with
  | nil => rfl
  | cons edit edits ih => exact (ih (doc.afterEdit edit)).trans (doc.afterEdit_settings edit)

end Document

theorem Origin.document_consistent (settings : Settings) (origin : Origin) :
    (origin.document settings).Consistent := by
  cases origin with
  | empty => exact Document.empty_consistent settings
  | loaded text => exact Document.load_consistent settings text

theorem Origin.document_settings (settings : Settings) (origin : Origin) :
    (origin.document settings).settings = settings := by
  cases origin <;> rfl

/-- A line that is read after some others starts where they stop. -/
theorem Context.afterLines_take_succ {tabWidth index : Nat} {ctx : Context} {texts : List String}
    {text : String} (htext : texts[index]? = some text) :
    ctx.afterLines tabWidth (texts.take (index + 1)) =
      ((ctx.afterLines tabWidth (texts.take index)).lexLine tabWidth text.toList).next := by
  unfold Context.afterLines
  rw [List.take_add_one, htext, List.foldl_append]
  rfl

/-- However a document came to its present lines, every context and every token stored for them
is the one that reading these lines from the initial context gives. In particular each line
starts where the one before it stopped, and the last one stops in the final context. -/
theorem edited_document_is_fresh (settings : Settings) (origin : Origin)
    (edits : List Replacement) :
    let doc := (origin.document settings).edited edits
    let contextAt := fun index =>
      Context.initial.afterLines settings.tabWidth (doc.texts.take index)
    (∀ index ≤ doc.lineCount, doc.contextBefore? index = some (contextAt index)) ∧
      (∀ index line, doc.lines[index]? = some line →
        line.tokens = Token.ofPieces
            ((contextAt index).lexLine settings.tabWidth line.text.toList).pieces ∧
          doc.contextBefore? (index + 1) =
            some ((contextAt index).lexLine settings.tabWidth line.text.toList).next) ∧
      doc.contextBefore? 0 = some .initial ∧
      doc.contextBefore? doc.lineCount = some doc.final ∧
      doc.final = Context.initial.afterLines settings.tabWidth doc.texts ∧
      (doc.lines = [] → doc.final = .initial) := by
  intro doc contextAt
  have hdoc : doc.Consistent := (origin.document_consistent settings).edited edits
  have hsettings : doc.settings = settings :=
    (Document.edited_settings _ edits).trans (origin.document_settings settings)
  have hbefore : ∀ index ≤ doc.lineCount,
      doc.contextBefore? index = some (contextAt index) := by
    intro index hindex
    rw [hdoc.contextBefore? hindex, hsettings]
  have hfinal : doc.final = Context.initial.afterLines settings.tabWidth doc.texts := by
    rw [← hsettings]
    exact Chained.final_eq hdoc
  refine ⟨hbefore, ?_, hbefore 0 (Nat.zero_le _), by simp [Document.contextBefore?], hfinal, ?_⟩
  · intro index line hline
    have hlt : index < doc.lineCount := (List.getElem?_eq_some_iff.mp hline).1
    have htext : doc.texts[index]? = some line.text := by
      rw [Document.texts, List.getElem?_map, hline]
      rfl
    have hstart : line.start = contextAt index := by
      rw [Chained.start_eq hdoc hline, hsettings]
      rfl
    constructor
    · rw [Line.tokens, Chained.pieces_eq hdoc (List.mem_of_getElem? hline), hstart, hsettings]
    · rw [hbefore (index + 1) hlt]
      exact congrArg some (Context.afterLines_take_succ htext)
  · intro hempty
    rw [hfinal, Document.texts, hempty]
    rfl

end StitchMarkup
