import StitchMarkup.Proofs.ByteCursor
import StitchMarkup.Proofs.Lexemes

/-!
Recognition of the forms. The grammar of a form is written out here with sets of characters and
the operations on languages alone, so it says nothing of patterns or of the order in which a text
is read. A pattern recognizes a grammar when it finds a text of it exactly where one begins, and
then takes the longest. All forms do, with and without the blanks after them. What is measured is
the size in bytes, by a reader that slices its text at every step and would fail inside of a
character.
-/

namespace StitchMarkup

open scoped Computability

namespace Grammar

/-- The texts of a single character of a set. -/
def oneOf (chars : Set Char) : Language Char := {text | ∃ c ∈ chars, text = [c]}

def small : Set Char := {c | 'a' ≤ c ∧ c ≤ 'z'}

def capital : Set Char := {c | 'A' ≤ c ∧ c ≤ 'Z'}

def digit : Set Char := {c | '0' ≤ c ∧ c ≤ '9'}

def nameTail : Set Char := small ∪ capital ∪ digit ∪ {'_', '-'}

/-- What may stand between the quotes of a string. -/
def quotable : Set Char :=
  small ∪ capital ∪ digit ∪ {'(', ')', '/', '\\', ' ', '_', ',', '.', '!', '?', '\'', '-'}

def blanks : Language Char := (oneOf {' ', '\t'})∗

def name : Language Char := oneOf small * (oneOf nameTail)∗

def tagName : Language Char := blanks * name

def label : Language Char := {['|', '>']} * tagName

def integer : Language Char := oneOf digit * (oneOf digit)∗

def quoted : Language Char := {['"']} * (oneOf quotable)∗ * {['"']}

def arrow : Language Char := {['-', '>']}

def commentOpen : Language Char := {['{', '-']}

def indentedCommentOpen : Language Char := blanks * commentOpen

end Grammar

/-- The forms a host can look for at a place, each with its grammar. -/
def recognizers : List (Pattern × Language Char) :=
  [(Form.name, Grammar.name), (Form.tagName, Grammar.tagName), (Form.label, Grammar.label),
    (Form.integer, Grammar.integer), (Form.quoted, Grammar.quoted), (Form.arrow, Grammar.arrow),
    (Form.commentOpen, Grammar.commentOpen),
    (Form.indentedCommentOpen, Grammar.indentedCommentOpen)]

theorem singles_eq_oneOf {p : Char → Bool} {chars : Set Char} (h : ∀ c, p c ↔ c ∈ chars) :
    singles p = Grammar.oneOf chars := by
  ext text
  constructor
  · rintro ⟨c, hc, rfl⟩
    exact ⟨c, (h c).mp hc, rfl⟩
  · rintro ⟨c, hc, rfl⟩
    exact ⟨c, (h c).mpr hc, rfl⟩

theorem runs_eq_kstar (p : Char → Bool) : runs p = (singles p)∗ := by
  ext text
  rw [Language.mem_kstar]
  constructor
  · intro hruns
    refine ⟨text.map fun c => [c], ?_, ?_⟩
    · rw [← List.flatMap_def, List.flatMap_singleton']
    · intro single hsingle
      obtain ⟨c, hc, rfl⟩ := List.mem_map.mp hsingle
      exact ⟨c, hruns c hc, rfl⟩
  · rintro ⟨parts, rfl, hparts⟩ c hc
    obtain ⟨part, hpart, hmem⟩ := List.mem_flatten.mp hc
    obtain ⟨d, hd, rfl⟩ := hparts part hpart
    rw [List.mem_singleton.mp hmem]
    exact hd

theorem runs_eq_oneOf {p : Char → Bool} {chars : Set Char} (h : ∀ c, p c ↔ c ∈ chars) :
    runs p = (Grammar.oneOf chars)∗ := by
  rw [runs_eq_kstar, singles_eq_oneOf h]

theorem byteLength_le_of_prefix {first second : List Char} (h : first <+: second) :
    byteLength first ≤ byteLength second := by
  obtain ⟨rest, rfl⟩ := h
  rw [byteLength_append]
  exact Nat.le_add_right _ _

namespace Pattern

variable {pattern first second : Pattern} {language : Language Char} {text : List Char}
  {cut : Cut} {size : Nat}

/-- The size in bytes of the match of a pattern. -/
def size? (pattern : Pattern) (text : List Char) : Option Nat :=
  (pattern.cut? text).map fun cut => byteLength cut.taken

/-- The pattern finds the texts of a language, and where several of them begin, the longest. -/
structure Recognizes (pattern : Pattern) (language : Language Char) : Prop where
  /-- A reader that slices its text at every step does not fail. -/
  measured : ∀ text, pattern.measure text = .ok (pattern.size? text)
  finds_iff : ∀ text, (∃ size, pattern.size? text = some size) ↔ ∃ word ∈ language, word <+: text
  /-- The match is the longest, and read by itself it is matched to its end. -/
  longest : ∀ text size, pattern.size? text = some size →
    ∃ word ∈ language, word <+: text ∧ size = byteLength word ∧
      (∀ other ∈ language, other <+: text → byteLength other ≤ size) ∧
      pattern.size? word = some size
  boundary : ∀ text size, pattern.size? text = some size → 0 < size ∧ IsBoundary text size

theorem begins_append {c : Char} (h : first.begins c) : (first ++ second).begins c := by
  induction first with
  | nil => cases h
  | cons atom atoms ih =>
      cases atom with
      | one p => exact h
      | run p =>
          rw [begins, Bool.or_eq_true] at h
          rw [List.cons_append, begins, Bool.or_eq_true]
          exact h.imp id ih

theorem Settled.of_append (h : (first ++ second).Settled) : first.Settled := by
  induction first with
  | nil => trivial
  | cons atom atoms ih =>
      cases atom with
      | one p => exact ih h
      | run p =>
          refine ⟨fun c hc => ?_, ih h.2⟩
          rw [Bool.eq_false_iff]
          intro hbegins
          exact Bool.false_ne_true ((h.1 c hc).symm.trans (begins_append hbegins))

theorem minLength_append (first second : Pattern) :
    (first ++ second).minLength = first.minLength + second.minLength := by
  induction first with
  | nil => simp [minLength]
  | cons atom atoms ih =>
      cases atom with
      | one p =>
          simp only [List.cons_append, minLength, ih]
          omega
      | run p => exact ih

theorem size?_eq_some_iff :
    pattern.size? text = some size ↔
      ∃ cut, pattern.cut? text = some cut ∧ byteLength cut.taken = size :=
  Option.map_eq_some_iff

/-- A settled pattern matches the whole of what it matched before. -/
theorem cut?_taken (hsettled : pattern.Settled) (h : pattern.cut? text = some cut) :
    pattern.cut? cut.taken = some ⟨cut.taken, []⟩ := by
  obtain ⟨whole, hwhole, hlength⟩ :=
    exists_cut?_of_mem_language hsettled (mem_language_of_cut? h) []
  rw [List.append_nil] at hwhole
  have htext : whole.taken ++ whole.rest = cut.taken := whole_of_cut? hwhole
  -- The match is no shorter than the text it was looked for in.
  have hrest : whole.rest = [] := by
    rw [← htext, List.length_append] at hlength
    exact List.length_eq_zero_iff.mp (by omega)
  rw [hrest, List.append_nil] at htext
  rw [hwhole, ← htext, ← hrest]

/-- A settled pattern without an empty match recognizes its language. -/
theorem recognizes_language (hsettled : pattern.Settled) (hpos : 0 < pattern.minLength) :
    pattern.Recognizes pattern.language := by
  refine ⟨pattern.measure_eq, fun text => ⟨?_, ?_⟩, ?_, ?_⟩
  · rintro ⟨size, hsize⟩
    obtain ⟨cut, hcut, _⟩ := size?_eq_some_iff.mp hsize
    exact ⟨cut.taken, mem_language_of_cut? hcut, cut.rest, whole_of_cut? hcut⟩
  · rintro ⟨word, hword, hprefix⟩
    cases hcut : pattern.cut? text with
    | none => exact absurd hprefix (not_prefix_of_cut?_eq_none hsettled hcut word hword)
    | some cut => exact ⟨byteLength cut.taken, size?_eq_some_iff.mpr ⟨cut, hcut, rfl⟩⟩
  · intro text size hsize
    obtain ⟨cut, hcut, rfl⟩ := size?_eq_some_iff.mp hsize
    obtain ⟨hword, hlongest⟩ := longest_of_cut? hsettled hcut
    have hwhole : cut.taken ++ cut.rest = text := whole_of_cut? hcut
    refine ⟨cut.taken, hword, ⟨cut.rest, hwhole⟩, rfl, fun other hother hprefix => ?_, ?_⟩
    · rw [← hwhole] at hprefix
      have hlength := hlongest other hother hprefix
      exact byteLength_le_of_prefix
        (List.prefix_of_prefix_length_le hprefix (List.prefix_append _ _) hlength)
    · exact size?_eq_some_iff.mpr ⟨_, cut?_taken hsettled hcut, rfl⟩
  · intro text size hsize
    obtain ⟨cut, hcut, rfl⟩ := size?_eq_some_iff.mp hsize
    have htaken := (advances_of_cut? hpos hcut).2
    refine ⟨?_, cut.taken, cut.rest, (whole_of_cut? hcut).symm, rfl⟩
    exact Nat.pos_of_ne_zero fun hzero => htaken (byteLength_eq_zero_iff.mp hzero)

end Pattern

/-! The characters of each class and the texts of each form. -/

theorem isBlank_iff_mem (c : Char) : Form.isBlank c ↔ c ∈ ({' ', '\t'} : Set Char) := by
  simp [Form.isBlank]

theorem isLower_iff_mem (c : Char) : c.isLower ↔ c ∈ Grammar.small := by
  have hrange : c.isLower = (decide (c.val ≥ 'a'.val) && decide (c.val ≤ 'z'.val)) := rfl
  rw [hrange, Bool.and_eq_true, decide_eq_true_eq, decide_eq_true_eq]
  rfl

theorem isUpper_iff_mem (c : Char) : c.isUpper ↔ c ∈ Grammar.capital :=
  decide_eq_true_iff

theorem isDigit_iff_mem (c : Char) : c.isDigit ↔ c ∈ Grammar.digit := by
  simp only [Char.isDigit, Bool.and_eq_true, decide_eq_true_eq]
  rfl

theorem isAlphanum_iff_mem (c : Char) :
    c.isAlphanum ↔ c ∈ Grammar.small ∪ Grammar.capital ∪ Grammar.digit := by
  have hclasses : c.isAlphanum = (c.isUpper || c.isLower || c.isDigit) := rfl
  rw [hclasses, Bool.or_eq_true, Bool.or_eq_true, isUpper_iff_mem, isLower_iff_mem,
    isDigit_iff_mem, @or_comm (c ∈ Grammar.capital)]
  rfl

theorem isNameTail_iff_mem (c : Char) : Form.isNameTail c ↔ c ∈ Grammar.nameTail := by
  rw [Form.isNameTail, Bool.or_assoc, Bool.or_eq_true, isAlphanum_iff_mem, Bool.or_eq_true,
    beq_iff_eq, beq_iff_eq]
  rfl

theorem isQuotable_iff_mem (c : Char) : Form.isQuotable c ↔ c ∈ Grammar.quotable := by
  rw [Form.isQuotable, Bool.or_eq_true, isAlphanum_iff_mem, List.contains_iff_mem]
  simp only [List.mem_cons, List.not_mem_nil, or_false]
  rfl

namespace Grammar

theorem blanks_eq : blanks = Form.blanks.language := by
  rw [Form.language_blanks, Lexeme.blanks, runs_eq_oneOf isBlank_iff_mem, blanks]

theorem name_eq : name = Form.name.language := by
  rw [Form.language_name, Lexeme.name, singles_eq_oneOf isLower_iff_mem,
    runs_eq_oneOf isNameTail_iff_mem, name]

theorem tagName_eq : tagName = Form.tagName.language := by
  rw [Form.tagName, Pattern.language_append, tagName, blanks_eq, name_eq]

theorem label_eq : label = Form.label.language := by
  rw [Form.label, Pattern.language_append, Form.labelMark, Pattern.language_literal, label,
    tagName_eq]

theorem integer_eq : integer = Form.integer.language := by
  rw [Form.language_integer, singles_eq_oneOf isDigit_iff_mem, runs_eq_oneOf isDigit_iff_mem,
    integer]

theorem quoted_eq : quoted = Form.quoted.language := by
  rw [Form.language_quoted, runs_eq_oneOf isQuotable_iff_mem, quoted]

theorem arrow_eq : arrow = Form.arrow.language := Form.language_arrow.symm

theorem commentOpen_eq : commentOpen = Form.commentOpen.language :=
  (Pattern.language_literal ['{', '-']).symm

theorem indentedCommentOpen_eq : indentedCommentOpen = Form.indentedCommentOpen.language := by
  rw [Form.indentedCommentOpen, Pattern.language_append, indentedCommentOpen, blanks_eq,
    commentOpen_eq]

end Grammar

namespace Form

theorem settled_indentedCommentOpen : (thenBlanks indentedCommentOpen).Settled :=
  ⟨eq_false_of_isBlank (by decide), settled_blanks⟩

theorem settled_tagName_thenBlanks : (thenBlanks tagName).Settled :=
  ⟨eq_false_of_isBlank (by decide), settled_name⟩

/-- A form recognizes its grammar, and with the blanks after it also its grammar with blanks. -/
theorem recognizes {form : Pattern} {grammar : Language Char} (hgrammar : grammar = form.language)
    (hsettled : (thenBlanks form).Settled) (hpos : 0 < form.minLength) :
    form.Recognizes grammar ∧ (thenBlanks form).Recognizes (grammar * Grammar.blanks) := by
  have hlonger : 0 < (thenBlanks form).minLength := by
    rw [thenBlanks, Pattern.minLength_append]
    exact Nat.add_pos_left hpos _
  have hblanks : grammar * Grammar.blanks = (thenBlanks form).language := by
    rw [thenBlanks, Pattern.language_append, hgrammar, Grammar.blanks_eq]
  rw [hblanks, hgrammar]
  exact ⟨Pattern.recognizes_language hsettled.of_append hpos,
    Pattern.recognizes_language hsettled hlonger⟩

end Form

/-- Every form a host can look for recognizes its grammar: it is found where a text of the grammar
begins and nowhere else, its size is that of the longest such text and ends between two
characters, and the match read by itself is matched again. All of this stays true with the blanks
after the form. -/
theorem forms_recognize_grammar :
    ∀ entry ∈ recognizers, entry.1.Recognizes entry.2 ∧
      (Form.thenBlanks entry.1).Recognizes (entry.2 * Grammar.blanks) := by
  intro entry hentry
  simp only [recognizers, List.mem_cons, List.not_mem_nil, or_false] at hentry
  rcases hentry with rfl | rfl | rfl | rfl | rfl | rfl | rfl | rfl
  · exact Form.recognizes Grammar.name_eq Form.settled_name (by decide)
  · exact Form.recognizes Grammar.tagName_eq Form.settled_tagName_thenBlanks (by decide)
  · exact Form.recognizes Grammar.label_eq Form.settled_tagName_thenBlanks (by decide)
  · exact Form.recognizes Grammar.integer_eq
      ⟨Form.settled_before_blanks (by decide), Form.settled_blanks⟩ (by decide)
  · exact Form.recognizes Grammar.quoted_eq
      ⟨Pattern.not_mark_of (by decide), Form.settled_blanks⟩ (by decide)
  · exact Form.recognizes Grammar.arrow_eq Form.settled_blanks (by decide)
  · exact Form.recognizes Grammar.commentOpen_eq Form.settled_blanks (by decide)
  · exact Form.recognizes Grammar.indentedCommentOpen_eq Form.settled_indentedCommentOpen
      (by decide)

/-- The tab inside a label belongs to it, the space after it only where blanks are taken too. -/
theorem forms_recognize_grammar_label :
    (Form.label, Grammar.label) ∈ recognizers ∧
      Form.label.size? ['|', '>', '\t', 'n', 'A', ' ', 'é'] = some 5 ∧
      (Form.thenBlanks Form.label).size? ['|', '>', '\t', 'n', 'A', ' ', 'é'] = some 6 ∧
      Form.label.Recognizes Grammar.label ∧
      (Form.thenBlanks Form.label).Recognizes (Grammar.label * Grammar.blanks) := by
  have hentry : (Form.label, Grammar.label) ∈ recognizers := by simp [recognizers]
  exact ⟨hentry, by decide, by decide, forms_recognize_grammar _ hentry⟩

end StitchMarkup
