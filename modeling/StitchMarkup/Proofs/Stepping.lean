import StitchMarkup.Line
import StitchMarkup.Proofs.Matching

/-!
What a step of the lexer can be. The statements below say once, for each function that decides
between rules, which rules there are and what the text looks like where each of them is taken.
Whatever is proved of all steps is proved by these cases, and of all lines by induction on the
steps that are left.
-/

namespace StitchMarkup

/-- The text is a title of its line: a single header mark that may be indented, and what follows
it up to the end of the line. -/
def IsTitle (line indent title : List Char) : Prop :=
  (∀ c ∈ indent, Form.isBlank c) ∧ line = indent ++ '#' :: title ∧ title.head? ≠ some '#'

/-- The line begins with a comment, which may be indented. -/
def OpensComment (line indent rest : List Char) : Prop :=
  (∀ c ∈ indent, Form.isBlank c) ∧ line = indent ++ '{' :: '-' :: rest

theorem IsTitle.ne_nil {line indent title : List Char} (h : IsTitle line indent title) :
    line ≠ [] := by
  rw [h.2.1]
  simp

theorem OpensComment.ne_nil {line indent rest : List Char} (h : OpensComment line indent rest) :
    line ≠ [] := by
  rw [h.2]
  simp

/-- A line opens no comment if its first character after the indentation is another one. -/
theorem not_opensComment {indent tail : List Char} {c : Char}
    (hindent : ∀ x ∈ indent, Form.isBlank x) (hblank : Form.isBlank c = false) (hc : c ≠ '{') :
    ∀ other rest, ¬ OpensComment (indent ++ c :: tail) other rest := by
  rintro other rest ⟨hother, hwhole⟩
  have hhead := congrArg (List.dropWhile Form.isBlank) hwhole
  rw [List.dropWhile_append_of_pos hindent, List.dropWhile_append_of_pos hother,
    List.dropWhile_cons_of_neg (by simp [hblank]),
    List.dropWhile_cons_of_neg (by simp [Form.isBlank])] at hhead
  exact hc (List.cons.inj hhead).1

namespace LineHead

variable {line indent title : List Char}

theorem stitchMark_of_isTitle (h : IsTitle line indent title) :
    Form.stitchMark.cut? line = none := by
  obtain ⟨hindent, rfl, hhead⟩ := h
  rw [Form.stitchMark, Form.cut?_thenBlanks_eq_none_iff,
    Form.cut?_blanks_literal_eq_none_iff hindent (Pattern.stops_cons (by decide) _)]
  rintro ⟨rest, hrest⟩
  simp only [List.cons_append, List.nil_append, List.cons.injEq, true_and] at hrest
  apply hhead
  rw [← hrest]
  rfl

theorem titleMark_of_isTitle (h : IsTitle line indent title) :
    Form.titleMark.cut? line = some ⟨indent ++ ['#'], title⟩ := by
  obtain ⟨hindent, rfl, _⟩ := h
  have hmark : (Pattern.literal ['#']).cut? ('#' :: title) = some ⟨['#'], title⟩ :=
    Pattern.cut?_literal_append ['#'] title
  rw [Form.titleMark, Form.cut?_blanks_append _ hindent (Pattern.stops_cons (by decide) _), hmark]
  rfl

theorem isTitle_of_titleMark {mark : Cut} (hstitch : Form.stitchMark.cut? line = none)
    (hmark : Form.titleMark.cut? line = some mark) :
    ∃ indent, IsTitle line indent mark.rest ∧ mark.taken = indent ++ ['#'] := by
  obtain ⟨indent, hindent, htaken⟩ := Form.taken_of_cut?_blanks_literal hmark
  have hline : line = indent ++ '#' :: mark.rest := by
    rw [← Pattern.whole_of_cut? hmark, Cut.whole, htaken, List.append_assoc]
    rfl
  refine ⟨indent, ⟨hindent, hline, ?_⟩, htaken⟩
  intro hhead
  obtain ⟨rest, hrest⟩ : ∃ rest, mark.rest = '#' :: rest := List.head?_eq_some_iff.mp hhead
  rw [hline, hrest, Form.stitchMark, Form.cut?_thenBlanks_eq_none_iff,
    Form.cut?_blanks_literal_eq_none_iff hindent (Pattern.stops_cons (by decide) _)] at hstitch
  exact hstitch ⟨rest, rfl⟩

/-- A title is read before anything else about its line is looked at. -/
theorem read_of_isTitle (h : IsTitle line indent title) :
    read line =
      match Form.labelMark.find? title with
      | some cut => (.titleWithLabel, cut.after (indent ++ ['#']))
      | none => (.title, .everything line) := by
  have hstitch : stitchHeader? line = none := by
    rw [stitchHeader?, stitchMark_of_isTitle h]
    rfl
  have htitle : title? line = some
      (match Form.labelMark.find? title with
      | some cut => (.titleWithLabel, cut.after (indent ++ ['#']))
      | none => (.title, .everything line)) := by
    rw [title?, titleMark_of_isTitle h]
    rfl
  simp only [read, List.findSome?_cons, hstitch, htitle]

/-- The forms a line can begin with, in the order in which they are tried. -/
theorem read_cases (line : List Char) :
    (∃ cut, Form.stitchMark.cut? line = some cut ∧
        ((cut.rest = [] ∧ read line = (.bareHeader, cut)) ∨
          (['|', '>'] <+: cut.rest ∧ read line = (.labeledHeader, cut)) ∨
          read line = (.stitchHeader, cut))) ∨
      (∃ indent title, IsTitle line indent title ∧
        ((¬ ['|', '>'] <:+: title ∧ read line = (.title, .everything line)) ∨
          ∃ before rest, title = before ++ rest ∧ ['|', '>'] <+: rest ∧
            ¬ ['|', '>'] <:+: before ∧
            read line = (.titleWithLabel, ⟨indent ++ '#' :: before, rest⟩))) ∨
      (∃ cut, Form.tag.cut? line = some cut ∧ read line = (.tag, cut)) ∨
      (∃ cut, Form.tag.cut? line = none ∧ Form.tagMark.cut? line = some cut ∧
        read line = (.malformedTag, cut)) ∨
      read line = (.prose, .run Form.isBlank line) := by
  cases hstitch : Form.stitchMark.cut? line with
  | some cut =>
      refine Or.inl ⟨cut, rfl, ?_⟩
      simp only [read, List.findSome?_cons, stitchHeader?, hstitch, Option.map_some]
      split
      · next hempty => exact Or.inl ⟨by simpa using hempty, rfl⟩
      · split
        · next hlabel =>
            exact Or.inr (Or.inl ⟨Pattern.startsAt_literal_iff.mp hlabel, rfl⟩)
        · exact Or.inr (Or.inr rfl)
  | none =>
      apply Or.inr
      cases hmark : Form.titleMark.cut? line with
      | some mark =>
          obtain ⟨indent, htitle, _⟩ := isTitle_of_titleMark hstitch hmark
          refine Or.inl ⟨indent, mark.rest, htitle, ?_⟩
          rw [read_of_isTitle htitle]
          cases hfind : Form.labelMark.find? mark.rest with
          | none => exact Or.inl ⟨Pattern.find?_literal_eq_none_iff.mp hfind, rfl⟩
          | some cut =>
              obtain ⟨hlabel, hbefore⟩ := Pattern.of_find?_literal (by simp) hfind
              refine Or.inr ⟨cut.taken, cut.rest, (Pattern.whole_of_find? hfind).symm, hlabel,
                hbefore, ?_⟩
              simp [Cut.after]
      | none =>
          apply Or.inr
          simp only [read, List.findSome?_cons, stitchHeader?, hstitch, title?, hmark, tag?,
            malformedTag?, Option.map_none, List.findSome?_nil]
          cases htag : Form.tag.cut? line with
          | some cut => exact Or.inl ⟨cut, rfl, rfl⟩
          | none =>
              apply Or.inr
              cases hbad : Form.tagMark.cut? line with
              | some cut => exact Or.inl ⟨cut, rfl, rfl, rfl⟩
              | none => exact Or.inr rfl

/-- What the head of a line is matched by where the line is no title. -/
def forms : List Pattern := [Form.stitchMark, Form.tag, Form.tagMark, Form.blanks]

theorem read_eq_cut (htitle : ∀ indent title, ¬ IsTitle line indent title) :
    ∃ form ∈ forms, form.cut? line = some (read line).2 := by
  rcases read_cases line with ⟨cut, hcut, hread⟩ | ⟨indent, title, his, _⟩ |
      ⟨cut, hcut, hread⟩ | ⟨cut, _, hcut, hread⟩ | hread
  · refine ⟨Form.stitchMark, by simp [forms], ?_⟩
    rcases hread with ⟨_, hread⟩ | ⟨_, hread⟩ | hread
    all_goals
      rw [hread]
      exact hcut
  · exact absurd his (htitle indent title)
  · refine ⟨Form.tag, by simp [forms], ?_⟩
    rw [hread]
    exact hcut
  · refine ⟨Form.tagMark, by simp [forms], ?_⟩
    rw [hread]
    exact hcut
  · refine ⟨Form.blanks, by simp [forms], ?_⟩
    rw [hread]
    exact Pattern.cut?_run Form.isBlank line

/-- Only prose can have a head that takes nothing. -/
theorem read_of_taken_eq_nil (hline : line ≠ []) (h : (read line).2.taken = []) :
    read line = (.prose, .nothing line) := by
  rcases read_cases line with ⟨cut, hcut, hread⟩ | ⟨indent, title, _, ⟨_, hread⟩ |
      ⟨before, rest, _, _, _, hread⟩⟩ | ⟨cut, hcut, hread⟩ | ⟨cut, _, hcut, hread⟩ | hread
  · have htaken := (Pattern.advances_of_cut? (by decide) hcut).2
    rcases hread with ⟨_, hread⟩ | ⟨_, hread⟩ | hread <;> (rw [hread] at h; exact absurd h htaken)
  · rw [hread] at h
    exact absurd h hline
  · rw [hread] at h
    simp at h
  · rw [hread] at h
    exact absurd h (Pattern.advances_of_cut? (by decide) hcut).2
  · rw [hread] at h
    exact absurd h (Pattern.advances_of_cut? (by decide) hcut).2
  · rw [hread] at h ⊢
    have hrest : line.dropWhile Form.isBlank = line := by
      have hwhole := Cut.whole_run Form.isBlank line
      rw [Cut.whole, h] at hwhole
      exact hwhole
    rw [Cut.run, hrest, show line.takeWhile Form.isBlank = [] from h]
    rfl

end LineHead

namespace PropertyRule

/-- An entry is read by the form of its kind, as the quote of a string that is not closed, or as
a character that no rule claims. -/
theorem read_cases {text : List Char} (htext : text ≠ []) :
    (∃ kind form cut, (kind, form) ∈ forms ∧ (Form.thenBlanks form).cut? text = some cut ∧
        read all text = (kind, cut)) ∨
      (Form.isUnclosed text ∧ read all text = (.unterminatedString, .one text)) ∨
      ((∀ rule ∈ all, rule text = none) ∧ read all text = (.malformed, .one text)) := by
  have hnonempty : text.isEmpty = false := by simpa using htext
  unfold read
  split
  · next entry hentry =>
      obtain ⟨rule, hrule, hread⟩ := List.exists_of_findSome?_eq_some hentry
      rcases mem_all_iff.mp hrule with ⟨kind, form, hform, rfl⟩ | rfl
      · obtain ⟨cut, hcut, rfl⟩ := Option.map_eq_some_iff.mp hread
        exact Or.inl ⟨kind, form, cut, hform, hcut, rfl⟩
      · rw [unterminated, Option.ite_none_right_eq_some] at hread
        exact Or.inr (Or.inl ⟨hread.1, (Option.some.inj hread.2).symm⟩)
  · next hnone =>
      refine Or.inr (Or.inr ⟨List.findSome?_eq_none_iff.mp hnone, ?_⟩)
      rw [hnonempty]
      rfl

theorem isLower_eq_false_of_isDigit (c : Char) (h : c.isDigit = true) : c.isLower = false := by
  have hdigit : c.val ≤ 57 := of_decide_eq_true (Bool.and_eq_true_iff.mp h).2
  rw [Bool.eq_false_iff]
  intro hlower
  have hletter : 97 ≤ c.val := of_decide_eq_true (Bool.and_eq_true_iff.mp hlower).1
  rw [UInt32.le_iff_toNat_le] at hdigit hletter
  have hbounds : (97 : Nat) ≤ 57 := Nat.le_trans hletter hdigit
  omega

/-- Each form begins with a character of its own. -/
theorem forms_disjoint :
    forms.Pairwise fun first second =>
      ∀ c, (Form.thenBlanks first.2).lead c = true → (Form.thenBlanks second.2).lead c = false := by
  simp only [forms, List.pairwise_cons, List.mem_cons, List.not_mem_nil, or_false,
    forall_eq_or_imp, forall_eq, false_implies, implies_true, List.Pairwise.nil, and_true]
  refine ⟨⟨?_, ?_, ?_, ?_⟩, ⟨?_, ?_, ?_⟩, ⟨?_, ?_⟩, ?_⟩
  · exact Pattern.not_of_mark (by decide)
  · exact Pattern.not_of_mark (by decide)
  · exact Pattern.not_of_mark (by decide)
  · exact Pattern.not_of_mark (by decide)
  · exact isLower_eq_false_of_isDigit
  · exact Pattern.not_mark_of (by decide)
  · exact Pattern.not_mark_of (by decide)
  · exact Pattern.not_mark_of (by decide)
  · exact Pattern.not_mark_of (by decide)
  · exact Pattern.not_of_mark (by decide)

/-- No form has the first character of an opening mark in it, so no entry runs into a comment. -/
theorem excludes_of_form {kind : PropertyKind} {form : Pattern} (hform : (kind, form) ∈ forms) :
    (Form.thenBlanks form).excludes '{' := by
  have hall : ∀ entry ∈ forms, (Form.thenBlanks entry.2).excludes '{' := by decide
  exact hall (kind, form) hform

theorem ne_nil_of_form {kind : PropertyKind} {form : Pattern} {text : List Char} {cut : Cut}
    (hform : (kind, form) ∈ forms) (hcut : (Form.thenBlanks form).cut? text = some cut) :
    text ≠ [] := by
  obtain ⟨hwhole, htaken⟩ := advances_of_form hform hcut
  rw [← hwhole]
  exact List.append_ne_nil_of_left_ne_nil htaken cut.rest

/-- So the order of the rules does not keep a form from being read. -/
theorem read_of_form {kind : PropertyKind} {form : Pattern} {text : List Char} {cut : Cut}
    (hform : (kind, form) ∈ forms) (hcut : (Form.thenBlanks form).cut? text = some cut) :
    read all text = (kind, cut) := by
  obtain ⟨before, after, hsplit⟩ := List.append_of_mem hform
  have hall : all = before.map (fun entry => ofForm entry.1 entry.2) ++
      ofForm kind form :: (after.map (fun entry => ofForm entry.1 entry.2) ++ [unterminated]) := by
    rw [all, hsplit]
    simp
  have hbefore : (before.map fun entry => ofForm entry.1 entry.2).findSome? (· text) = none := by
    rw [List.findSome?_map, List.findSome?_eq_none_iff]
    intro entry hentry
    have hdisjoint := forms_disjoint
    rw [hsplit] at hdisjoint
    have hlead := (List.pairwise_append.mp hdisjoint).2.2 entry hentry (kind, form)
      List.mem_cons_self
    obtain ⟨c, rest, rfl⟩ := List.exists_cons_of_ne_nil (ne_nil_of_form hform hcut)
    have hown := Pattern.lead_of_cut? hcut
    have hnone : (Form.thenBlanks entry.2).cut? (c :: rest) = none := by
      apply Pattern.cut?_cons_of_lead
      rw [← Bool.not_eq_true]
      intro hother
      rw [hlead c hother] at hown
      cases hown
    rw [Function.comp, ofForm, hnone]
    rfl
  have hrule : ofForm kind form text = some (kind, cut) := by
    rw [ofForm, hcut]
    rfl
  rw [read, hall, List.findSome?_append, hbefore, Option.none_or, List.findSome?_cons, hrule]

/-- A mark of a label either begins one or is no entry at all. -/
theorem read_of_labelMark {text : List Char} (h : ['|', '>'] <+: text) :
    (read all text).1 = .label ∨ (read all text).1 = .malformed := by
  obtain ⟨rest, rfl⟩ := h
  have htext : ['|', '>'] ++ rest ≠ [] := by simp
  rcases read_cases htext with
    ⟨kind, form, cut, hform, hcut, hread⟩ | ⟨hunclosed, _⟩ | ⟨_, hread⟩
  · rw [hread]
    apply Or.inl
    simp only [forms, List.mem_cons, List.not_mem_nil, or_false, Prod.mk.injEq] at hform
    rcases hform with ⟨rfl, rfl⟩ | ⟨rfl, rfl⟩ | ⟨rfl, rfl⟩ | ⟨rfl, rfl⟩ | ⟨rfl, rfl⟩
    · rfl
    all_goals
      rw [Form.thenBlanks, Pattern.cut?_append] at hcut
      cases hcut
  · cases hunclosed
  · exact Or.inr (by rw [hread])

end PropertyRule

theorem LineKind.tokenKind_ne_comment (kind : LineKind) : kind.tokenKind ≠ .comment := by
  cases kind <;> simp [tokenKind]

theorem PropertyKind.tokenKind_ne_comment (kind : PropertyKind) : kind.tokenKind ≠ .comment := by
  cases kind <;> simp [tokenKind]

namespace Step

/-- The first step outside comments takes the head of the line, or one character of prose where
there is none. -/
theorem lineHead_cases (tabWidth : Nat) (ctx : Context) {line : List Char} (hline : line ≠ []) :
    ((LineHead.read line).2.taken ≠ [] ∧
        lineHead tabWidth ctx line =
          ⟨(LineHead.read line).2, (LineHead.read line).1.tokenKind,
            ctx.expecting (LineHead.read line).1.expects (LineHead.read line).2.rest,
            [.lineStart (LineHead.read line).1 (Column.indentation tabWidth line)]⟩) ∨
      (LineHead.read line = (.prose, .nothing line) ∧
        lineHead tabWidth ctx line =
          ⟨.one line, .plain, ctx,
            [.lineStart .prose (Column.indentation tabWidth line), .prose]⟩) := by
  unfold lineHead
  dsimp only
  split
  · next htaken =>
      have hread := LineHead.read_of_taken_eq_nil hline (by simpa using htaken)
      exact Or.inr ⟨hread, by rw [hread]⟩
  · next htaken => exact Or.inl ⟨by simpa using htaken, rfl⟩

theorem insideComment_cases (ctx : Context) (text : List Char) :
    (∃ rest, text = '-' :: '}' :: rest ∧
        insideComment ctx text = comment ctx ⟨['-', '}'], rest⟩ (ctx.depth - 1)) ∨
      (∃ rest, text = '{' :: '-' :: rest ∧
        insideComment ctx text = comment ctx ⟨['{', '-'], rest⟩ (ctx.depth + 1)) ∨
      (¬ ['-', '}'] <+: text ∧ ¬ ['{', '-'] <+: text ∧
        insideComment ctx text = comment ctx (.one text) ctx.depth) := by
  unfold insideComment
  split
  · next cut hclose =>
      refine Or.inl ⟨cut.rest, Pattern.eq_of_cut?_literal hclose, ?_⟩
      rw [← Pattern.taken_of_cut?_literal hclose]
  · next cut _ hopen =>
      refine Or.inr (Or.inl ⟨cut.rest, Pattern.eq_of_cut?_literal hopen, ?_⟩)
      rw [← Pattern.taken_of_cut?_literal hopen]
  · next hclose hopen =>
      exact Or.inr (Or.inr ⟨Pattern.cut?_literal_eq_none_iff.mp hclose,
        Pattern.cut?_literal_eq_none_iff.mp hopen, rfl⟩)

@[simp] theorem expected_depth (ctx : Context) (expectation : Expectation) (text : List Char) :
    (expected ctx expectation text).next.depth = ctx.depth := by
  have hstitch (expectation : Expectation) :
      (stitch ctx.endLine expectation text).next.depth = ctx.depth := by
    unfold stitch
    split <;> rfl
  cases expectation with
  | stitchName => exact hstitch .stitchName
  | arrowTarget => exact hstitch .arrowTarget
  | properties => rfl
  | stringTail => rfl

@[simp] theorem lineHead_depth (tabWidth : Nat) (ctx : Context) (text : List Char) :
    (lineHead tabWidth ctx text).next.depth = ctx.depth := by
  unfold lineHead
  dsimp only
  split <;> rfl

/-- Inside comments the depth grows by an opening mark only, and then by one. -/
theorem insideComment_deepens {ctx : Context} {text : List Char}
    (h : ctx.depth < (insideComment ctx text).next.depth) :
    ['{', '-'] <+: text ∧ (insideComment ctx text).next.depth = ctx.depth + 1 := by
  rcases insideComment_cases ctx text with ⟨rest, rfl, hstep⟩ | ⟨rest, rfl, hstep⟩ |
      ⟨hclose, hopen, hstep⟩
  · rw [hstep] at h
    exact absurd (Nat.lt_of_lt_of_le h (Nat.sub_le _ 1)) (Nat.lt_irrefl _)
  · rw [hstep]
    exact ⟨⟨rest, rfl⟩, rfl⟩
  · rw [hstep] at h
    exact absurd h (Nat.lt_irrefl _)

end Step

namespace Context

theorem step_cases (ctx : Context) {text : List Char} (htext : text ≠ []) :
    (0 < ctx.depth ∧ ctx.step text = .insideComment ctx text) ∨
      (∃ rest, ctx.depth = 0 ∧ text = '{' :: '-' :: rest ∧
        ctx.step text = .openComment ctx ⟨['{', '-'], rest⟩) ∨
      (∃ expectation, ctx.depth = 0 ∧ ¬ ['{', '-'] <+: text ∧ ctx.pending = some expectation ∧
        ctx.step text = .expected ctx expectation text) ∨
      (ctx.depth = 0 ∧ ¬ ['{', '-'] <+: text ∧ ctx.pending = none ∧
        ctx.step text = .prose ctx text) := by
  have hnonempty : ¬ text.isEmpty = true := by simpa using htext
  unfold step
  rw [if_neg hnonempty]
  split
  · next hcomment => exact Or.inl ⟨by simpa [inComment] using hcomment, rfl⟩
  · next hcomment =>
      have hdepth : ctx.depth = 0 := by simpa [inComment] using hcomment
      split
      · next cut hopen =>
          refine Or.inr (Or.inl ⟨cut.rest, hdepth, Pattern.eq_of_cut?_literal hopen, ?_⟩)
          rw [← Pattern.taken_of_cut?_literal hopen]
      · next expectation hopen hpending =>
          exact Or.inr (Or.inr (Or.inl ⟨expectation, hdepth,
            Pattern.cut?_literal_eq_none_iff.mp hopen, hpending, rfl⟩))
      · next hopen hpending =>
          exact Or.inr (Or.inr (Or.inr ⟨hdepth,
            Pattern.cut?_literal_eq_none_iff.mp hopen, hpending, rfl⟩))

theorem firstStep_cases (tabWidth : Nat) (ctx : Context) {line : List Char} (hline : line ≠ []) :
    (0 < ctx.depth ∧ ctx.firstStep tabWidth line = .insideComment ctx.endLine line) ∨
      (∃ indent rest, ctx.depth = 0 ∧ OpensComment line indent rest ∧
        ctx.firstStep tabWidth line =
          .openComment ctx.endLine ⟨indent ++ ['{', '-'], rest⟩) ∨
      (ctx.depth = 0 ∧ (∀ indent rest, ¬ OpensComment line indent rest) ∧
        ctx.firstStep tabWidth line = .lineHead tabWidth ctx.endLine line) := by
  have hnonempty : ¬ line.isEmpty = true := by simpa using hline
  unfold firstStep
  rw [if_neg hnonempty]
  split
  · next hcomment => exact Or.inl ⟨by simpa [inComment] using hcomment, rfl⟩
  · next hcomment =>
      have hdepth : ctx.depth = 0 := by simpa [inComment] using hcomment
      split
      · next cut hopen =>
          obtain ⟨indent, hindent, htaken⟩ := Form.taken_of_cut?_blanks_literal hopen
          refine Or.inr (Or.inl ⟨indent, cut.rest, hdepth, ⟨hindent, ?_⟩, ?_⟩)
          · rw [← Pattern.whole_of_cut? hopen, Cut.whole, htaken, List.append_assoc]
            rfl
          · rw [← htaken]
      · next hopen =>
          refine Or.inr (Or.inr ⟨hdepth, ?_, rfl⟩)
          rintro indent rest ⟨hindent, rfl⟩
          have hnone := (Form.cut?_blanks_literal_eq_none_iff hindent
            (Pattern.stops_cons (by decide) _)).mp hopen
          exact hnone ⟨rest, rfl⟩

theorem step_of_inside {ctx : Context} {text : List Char} (hdepth : 0 < ctx.depth)
    (htext : text ≠ []) :
    ctx.step text = .insideComment ctx text := by
  rcases ctx.step_cases htext with ⟨_, hstep⟩ | ⟨_, hzero, _⟩ | ⟨_, hzero, _⟩ | ⟨hzero, _⟩
  · exact hstep
  all_goals omega

theorem firstStep_of_inside (tabWidth : Nat) {ctx : Context} {line : List Char}
    (hdepth : 0 < ctx.depth) (hline : line ≠ []) :
    ctx.firstStep tabWidth line = .insideComment ctx.endLine line := by
  rcases ctx.firstStep_cases tabWidth hline with ⟨_, hstep⟩ | ⟨_, _, hzero, _⟩ | ⟨hzero, _⟩
  · exact hstep
  all_goals omega

/-- A pending expectation is taken up where no comment begins. -/
theorem step_of_pending {ctx : Context} {text : List Char} {expectation : Expectation}
    (htext : text ≠ []) (hdepth : ctx.depth = 0) (hopen : ¬ ['{', '-'] <+: text)
    (hpending : ctx.pending = some expectation) :
    ctx.step text = .expected ctx expectation text := by
  rcases ctx.step_cases htext with ⟨hinside, _⟩ | ⟨tail, _, htail, _⟩ |
      ⟨other, _, _, hother, hstep⟩ | ⟨_, _, hnone, _⟩
  · omega
  · exact absurd ⟨tail, htail.symm⟩ hopen
  · rw [hpending] at hother
    cases hother
    exact hstep
  · rw [hpending] at hnone
    cases hnone

theorem firstStep_of_opensComment (tabWidth : Nat) {ctx : Context} {line indent rest : List Char}
    (hdepth : ctx.depth = 0) (hopen : OpensComment line indent rest) :
    ctx.firstStep tabWidth line = .openComment ctx.endLine ⟨indent ++ ['{', '-'], rest⟩ := by
  obtain ⟨hindent, rfl⟩ := hopen
  have hcut : Form.indentedCommentOpen.cut? (indent ++ '{' :: '-' :: rest) =
      some ⟨indent ++ ['{', '-'], rest⟩ := by
    have hmark : Form.commentOpen.cut? ('{' :: '-' :: rest) = some ⟨['{', '-'], rest⟩ :=
      Pattern.cut?_literal_append ['{', '-'] rest
    rw [Form.indentedCommentOpen,
      Form.cut?_blanks_append _ hindent (Pattern.stops_cons (by decide) _), hmark]
    rfl
  simp [firstStep, inComment, hdepth, hcut]

/-- A line that begins with a mark other than that of a comment is taken up by its head. -/
theorem firstStep_of_mark (tabWidth : Nat) {ctx : Context} {line indent tail : List Char}
    {mark : Char} {kind : LineKind} {cut : Cut} (hdepth : ctx.depth = 0)
    (hindent : ∀ c ∈ indent, Form.isBlank c) (hblank : Form.isBlank mark = false)
    (hmark : mark ≠ '{') (hline : line = indent ++ mark :: tail)
    (hread : LineHead.read line = (kind, cut)) (htaken : cut.taken ≠ []) :
    ctx.firstStep tabWidth line =
      ⟨cut, kind.tokenKind, ctx.endLine.expecting kind.expects cut.rest,
        [.lineStart kind (Column.indentation tabWidth line)]⟩ := by
  have hnonempty : line ≠ [] := by
    rw [hline]
    simp
  rcases ctx.firstStep_cases tabWidth hnonempty with ⟨hinside, _⟩ | ⟨other, rest, _, hopen, _⟩ |
      ⟨_, _, hstep⟩
  · omega
  · rw [hline] at hopen
    exact absurd hopen (not_opensComment hindent hblank hmark other rest)
  · rcases Step.lineHead_cases tabWidth ctx.endLine hnonempty with ⟨_, hhead⟩ | ⟨hprose, _⟩
    · rw [hstep, hhead, hread]
    · exfalso
      apply htaken
      rw [hread] at hprose
      cases hprose
      rfl

/-- A title is taken by the first step of its line. -/
theorem firstStep_of_isTitle (tabWidth : Nat) {ctx : Context} {line indent title : List Char}
    (hdepth : ctx.depth = 0) (his : IsTitle line indent title) :
    (ctx.firstStep tabWidth line).toCut = (LineHead.read line).2 ∧
      (ctx.firstStep tabWidth line).kind = .header ∧
      (ctx.firstStep tabWidth line).next.depth = 0 := by
  have hread := LineHead.read_of_isTitle his
  obtain ⟨hindent, hline, _⟩ := id his
  cases hfind : Form.labelMark.find? title with
  | none =>
      rw [hfind] at hread
      rw [firstStep_of_mark tabWidth hdepth hindent (by decide) (by decide) hline hread his.ne_nil,
        hread]
      exact ⟨rfl, rfl, hdepth⟩
  | some cut =>
      rw [hfind] at hread
      have htaken : (cut.after (indent ++ ['#'])).taken ≠ [] := by simp [Cut.after]
      rw [firstStep_of_mark tabWidth hdepth hindent (by decide) (by decide) hline hread htaken,
        hread]
      exact ⟨rfl, rfl, hdepth⟩

theorem steps_of_ne_nil (ctx : Context) {text : List Char} (htext : text ≠ []) :
    ctx.steps text =
      ctx.step text :: (ctx.step text).next.steps (ctx.step text).rest := by
  cases text with
  | nil => exact absurd rfl htext
  | cons c rest => rw [steps]

theorem lineSteps_of_ne_nil (tabWidth : Nat) (ctx : Context) {line : List Char}
    (hline : line ≠ []) :
    ctx.lineSteps tabWidth line =
      ctx.firstStep tabWidth line ::
        (ctx.firstStep tabWidth line).next.steps (ctx.firstStep tabWidth line).rest := by
  cases line with
  | nil => exact absurd rfl hline
  | cons c rest => rfl

/-- A line is its first step and what the steps after it make of the rest. -/
theorem lexLine_of_ne_nil (tabWidth : Nat) (ctx : Context) {line : List Char}
    (hline : line ≠ []) :
    let first := ctx.firstStep tabWidth line
    let later := first.next.steps first.rest
    (ctx.lexLine tabWidth line).pieces = first.piece :: later.map Step.piece ∧
      (ctx.lexLine tabWidth line).next = (first.next.afterSteps later).endLine := by
  simp only [lexLine, lineSteps_of_ne_nil tabWidth ctx hline]
  exact ⟨rfl, rfl⟩

end Context

end StitchMarkup
