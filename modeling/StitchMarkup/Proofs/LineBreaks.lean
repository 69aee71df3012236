import StitchMarkup.Proofs.EditHistory

/-!
Lines written into a text and loaded again. A line that holds no line feed and does not end in a
carriage return comes back as it was when a line feed follows it. The last line needs none unless
it is empty, since a final line feed starts no further line. Loading a text and putting its lines
into an empty document are the same, down to the log.
-/

namespace StitchMarkup

namespace Text

/-- The line stands in a text as it is. A carriage return at its end would be taken for a part of
the break. -/
def IsLine (line : String) : Prop := '\n' ∉ line.toList ∧ line.toList.getLast? ≠ some '\r'

/-- The text in which a line feed follows every line. -/
def closed (lines : List String) : String := String.join (lines.map (· ++ "\n"))

/-- The text in which a line feed stands between the lines. -/
def separated (lines : List String) : String := "\n".intercalate lines

theorem splitLines_cons {c : Char} {rest : List Char} (hfeed : c ≠ '\n')
    (hbreak : ¬ ['\r', '\n'] <+: c :: rest) :
    splitLines (c :: rest) =
      match splitLines rest with
      | [] => [[c]]
      | line :: lines => (c :: line) :: lines := by
  have hreturn : ∀ tail, c = '\r' → rest = '\n' :: tail → False := by
    rintro tail rfl rfl
    exact hbreak ⟨tail, rfl⟩
  exact splitLines.eq_4 c rest hfeed hreturn

/-- A line that is closed is split off the text. -/
theorem splitLines_line {line : List Char} (rest : List Char) (hfeed : '\n' ∉ line)
    (hreturn : line.getLast? ≠ some '\r') :
    splitLines (line ++ '\n' :: rest) = line :: splitLines rest := by
  induction line with
  | nil => rfl
  | cons c line ih =>
      rw [List.mem_cons, not_or] at hfeed
      cases line with
      | nil =>
          have hbreak : ¬ ['\r', '\n'] <+: c :: '\n' :: rest := by
            rintro ⟨tail, htail⟩
            exact hreturn (congrArg some (List.cons.inj htail).1.symm)
          rw [List.singleton_append, splitLines_cons (Ne.symm hfeed.1) hbreak]
          rfl
      | cons d line =>
          have hd : d ≠ '\n' := fun hd => hfeed.2 (hd ▸ List.mem_cons_self)
          have hbreak : ¬ ['\r', '\n'] <+: c :: (d :: line ++ '\n' :: rest) := by
            rintro ⟨tail, htail⟩
            exact hd (List.cons.inj (List.cons.inj htail).2).1.symm
          rw [List.getLast?_cons_cons] at hreturn
          rw [List.cons_append, splitLines_cons (Ne.symm hfeed.1) hbreak, ih hfeed.2 hreturn]

/-- A text without a line feed is one line, if it is anything. -/
theorem splitLines_of_not_mem {text : List Char} (htext : text ≠ []) (hfeed : '\n' ∉ text) :
    splitLines text = [text] := by
  induction text with
  | nil => exact absurd rfl htext
  | cons c text ih =>
      rw [List.mem_cons, not_or] at hfeed
      have hbreak : ¬ ['\r', '\n'] <+: c :: text := by
        rintro ⟨tail, htail⟩
        exact hfeed.2 ((List.cons.inj htail).2 ▸ List.mem_cons_self)
      rw [splitLines_cons (Ne.symm hfeed.1) hbreak]
      by_cases hrest : text = []
      · rw [hrest]
        rfl
      · rw [ih hrest hfeed.2]

variable {texts : List String}

theorem lines_closed_append (h : ∀ text ∈ texts, IsLine text) (last : String) :
    lines (closed texts ++ last) = texts ++ lines last := by
  induction texts with
  | nil => simp [closed]
  | cons text texts ih =>
      obtain ⟨⟨hfeed, hreturn⟩, hlater⟩ := List.forall_mem_cons.mp h
      have htext : (closed (text :: texts) ++ last).toList =
          text.toList ++ '\n' :: (closed texts ++ last).toList := by
        simp [closed]
      rw [lines, htext, splitLines_line _ hfeed hreturn, List.map_cons, String.ofList_toList]
      exact congrArg (text :: ·) (ih hlater)

/-- The lines of a text in which all lines are closed are these. -/
theorem lines_closed (h : ∀ text ∈ texts, IsLine text) : lines (closed texts) = texts := by
  have hlines := lines_closed_append h ""
  rw [String.append_empty] at hlines
  rw [hlines]
  exact List.append_nil texts

theorem separated_append (texts : List String) (last : String) :
    separated (texts ++ [last]) = closed texts ++ last := by
  induction texts with
  | nil => simp [separated, closed]
  | cons text texts ih =>
      have hlater : texts ++ [last] ≠ [] := by simp
      calc separated (text :: (texts ++ [last]))
          = text ++ "\n" ++ separated (texts ++ [last]) :=
            String.intercalate_cons_of_ne_nil hlater
        _ = text ++ "\n" ++ (closed texts ++ last) := by rw [ih]
        _ = closed (text :: texts) ++ last := by simp [closed, String.append_assoc]

theorem lines_of_isLine {text : String} (h : IsLine text) (htext : text ≠ "") :
    lines text = [text] := by
  have hnonempty : text.toList ≠ [] := fun hnil => htext (String.toList_injective hnil)
  rw [lines, splitLines_of_not_mem hnonempty h.1, List.map_singleton, String.ofList_toList]

/-- Lines with a break between each and the next are read back but for an empty last line, which
a text cannot show in this way. -/
theorem lines_separated_iff (h : ∀ text ∈ texts, IsLine text) :
    lines (separated texts) = texts ↔ texts = [] ∨ ∃ last ∈ texts.getLast?, last ≠ "" := by
  rcases List.eq_nil_or_concat texts with rfl | ⟨before, last, rfl⟩
  · exact ⟨fun _ => Or.inl rfl, fun _ => rfl⟩
  rw [List.concat_eq_append] at h ⊢
  obtain ⟨hbefore, hlast⟩ := List.forall_mem_append.mp h
  rw [separated_append, lines_closed_append hbefore, List.append_cancel_left_eq]
  simp only [List.append_eq_nil_iff, List.cons_ne_self, and_false, false_or, List.getLast?_concat,
    Option.mem_some, exists_eq_left']
  constructor
  · rintro hlines rfl
    cases hlines
  · exact lines_of_isLine (hlast last List.mem_cons_self)

end Text

namespace Document

/-- Putting the lines of a text into an empty document is loading it. -/
theorem replace_empty_lines (settings : Settings) (text : String) :
    (empty settings).replace 0 0 (Text.lines text) = .ok (load settings text) := by
  simp [replace, load, empty, lineCount, contextBefore?, Pass.relex, Pass.nothing]

theorem load_document_texts (settings : Settings) (text : String) :
    (load settings text).document.texts = Text.lines text :=
  Pass.lex_texts settings.tabWidth .initial (Text.lines text)

/-- Two documents that a host cannot tell apart: all it can ask for of them is the same. -/
def Alike (doc other : Document) : Prop :=
  doc.texts = other.texts ∧ doc.lines.map Line.tokens = other.lines.map Line.tokens ∧
    (∀ index, doc.contextBefore? index = other.contextBefore? index) ∧ doc.final = other.final

theorem Alike.refl (doc : Document) : doc.Alike doc := ⟨rfl, rfl, fun _ => rfl, rfl⟩

/-- Nothing of a text but its lines is in the document it is loaded into. -/
theorem load_eq_load_of_lines_eq (settings : Settings) {text other : String}
    (h : Text.lines text = Text.lines other) : load settings text = load settings other := by
  rw [load, h]
  rfl

theorem lines_eq_of_alike {settings : Settings} {text other : String}
    (h : (load settings text).document.Alike (load settings other).document) :
    Text.lines text = Text.lines other := by
  rw [← load_document_texts settings text, ← load_document_texts settings other]
  exact h.1

end Document

/-- Loading undoes writing. If a text closes each of some lines that can stand in one, loading it
is putting the lines into an empty document, with the same tokens and contexts and the same log.
If the text only has a break between each line and the next, the two are the same document, and
also look the same to a host, just where there is no line or the last one is not empty. And
loading any text is putting its lines into an empty document. -/
theorem loading_undoes_writing (settings : Settings) :
    (∀ texts : List String, (∀ text ∈ texts, Text.IsLine text) →
      let closed := Document.load settings (Text.closed texts)
      let separated := Document.load settings (Text.separated texts)
      let closes := texts = [] ∨ ∃ last ∈ texts.getLast?, last ≠ ""
      (Document.empty settings).replace 0 0 texts = .ok closed ∧
        (separated = closed ↔ closes) ∧ (separated.document.Alike closed.document ↔ closes)) ∧
      ∀ text, (Document.empty settings).replace 0 0 (Text.lines text) =
        .ok (Document.load settings text) := by
  refine ⟨?_, Document.replace_empty_lines settings⟩
  intro texts htexts closed separated closes
  have hclosed : Text.lines (Text.closed texts) = texts := Text.lines_closed htexts
  have hcloses : Text.lines (Text.separated texts) = Text.lines (Text.closed texts) ↔ closes := by
    rw [hclosed]
    exact Text.lines_separated_iff htexts
  have hsame : closes → separated = closed := fun hlast =>
    Document.load_eq_load_of_lines_eq settings (hcloses.mpr hlast)
  have hdiffer : separated.document.Alike closed.document → closes := fun halike =>
    hcloses.mp (Document.lines_eq_of_alike halike)
  refine ⟨?_, ⟨?_, hsame⟩, ⟨hdiffer, ?_⟩⟩
  · have hreplaced := Document.replace_empty_lines settings (Text.closed texts)
    rw [hclosed] at hreplaced
    exact hreplaced
  · intro hequal
    exact hdiffer (hequal ▸ Document.Alike.refl closed.document)
  · intro hlast
    rw [hsame hlast]
    exact Document.Alike.refl closed.document

/-- A carriage return inside a line, an empty line and a comment left open. -/
theorem loading_undoes_writing_open :
    let texts := ["a\rb", "", "\x7b- c"]
    (∀ text ∈ texts, Text.IsLine text) ∧
      (Document.empty {}).replace 0 0 texts =
        .ok (Document.load {} (Text.closed texts)) ∧
      Document.load {} (Text.separated texts) = Document.load {} (Text.closed texts) := by
  intro texts
  have htexts : ∀ text ∈ texts, Text.IsLine text := by
    simp [texts, Text.IsLine]
  obtain ⟨hreplaced, hsame, _⟩ := (loading_undoes_writing {}).1 texts htexts
  exact ⟨htexts, hreplaced, hsame.mpr (Or.inr ⟨_, rfl, by decide⟩)⟩

end StitchMarkup
