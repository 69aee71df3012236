import StitchMarkup.Proofs.CaretMoves

/-!
Tab stops. A tab goes to the next multiple of the tab width, so a line whose leading tabs are
written out shows its indentation as a number of spaces, and to these no tab width matters any
more. Stops of width zero are the exception: a tab goes nowhere and only the spaces count. The
indentation is that of the line, wherever a host has moved in it, and the one fault in counting it
is a column above the largest number.
-/

namespace StitchMarkup

namespace Column

open Pattern

variable {tabWidth column limit : Nat} {text expanded : List Char}

/-- Where a tab goes: the least multiple of the tab width past its column. -/
structure IsNextStop (tabWidth column stop : Nat) : Prop where
  dvd : tabWidth ∣ stop
  lt : column < stop
  least : ∀ other, tabWidth ∣ other → column < other → stop ≤ other

theorem IsNextStop.unique {first second : Nat} (hfirst : IsNextStop tabWidth column first)
    (hsecond : IsNextStop tabWidth column second) : first = second := by
  apply Nat.le_antisymm
  · exact hfirst.least second hsecond.dvd hsecond.lt
  · exact hsecond.least first hfirst.dvd hfirst.lt

theorem nextStop_isNextStop (hwidth : 1 ≤ tabWidth) (column : Nat) :
    IsNextStop tabWidth column (nextStop tabWidth column) := by
  have hmod : column % tabWidth < tabWidth := Nat.mod_lt column hwidth
  have hcolumn : tabWidth * (column / tabWidth) + column % tabWidth = column :=
    Nat.div_add_mod column tabWidth
  have hstop : nextStop tabWidth column = tabWidth * (column / tabWidth + 1) := by
    rw [nextStop, Nat.max_eq_left hwidth, Nat.mul_succ]
    omega
  rw [hstop]
  constructor
  · exact Nat.dvd_mul_right tabWidth _
  · rw [Nat.mul_succ]
    omega
  · rintro other ⟨count, rfl⟩ hpast
    have hcount : column / tabWidth < count := Nat.div_lt_of_lt_mul hpast
    exact Nat.mul_le_mul_left tabWidth hcount

theorem nextStop_zero (column : Nat) : nextStop 0 column = column := by
  simp [nextStop]

/-- A text that starts at a column, beside the same text with its leading tabs written out: from
left to right, each becomes the spaces up to where it goes. -/
inductive Expands (tabWidth : Nat) : Nat → List Char → List Char → Prop where
  | space {column : Nat} {rest expanded : List Char}
      (later : Expands tabWidth (column + 1) rest expanded) :
      Expands tabWidth column (' ' :: rest) (' ' :: expanded)
  | tab {column count : Nat} {rest expanded : List Char}
      (stop : IsNextStop tabWidth column (column + count))
      (later : Expands tabWidth (column + count) rest expanded) :
      Expands tabWidth column ('\t' :: rest) (List.replicate count ' ' ++ expanded)
  | other {column : Nat} {text : List Char} (stops : Stops Form.isBlank text) :
      Expands tabWidth column text text

theorem afterBlanks_of_stops (tabWidth column : Nat) (hstops : Stops Form.isBlank text) :
    afterBlanks tabWidth column text = column := by
  fun_cases afterBlanks tabWidth column text with
  | case1 rest => cases hstops ' ' rfl
  | case2 rest => cases hstops '\t' rfl
  | case3 => rfl

theorem stops_of_no_blank (hspace : ∀ rest, text = ' ' :: rest → False)
    (htab : ∀ rest, text = '\t' :: rest → False) : Stops Form.isBlank text := by
  intro c hc
  rw [Bool.eq_false_iff]
  intro hblank
  obtain ⟨rest, rfl⟩ := List.head?_eq_some_iff.mp hc
  rcases Form.eq_of_isBlank hblank with rfl | rfl
  · exact hspace rest rfl
  · exact htab rest rfl

theorem exists_expands (hwidth : 1 ≤ tabWidth) (column : Nat) (text : List Char) :
    ∃ expanded, Expands tabWidth column text expanded := by
  fun_induction afterBlanks tabWidth column text with
  | case1 column rest ih =>
      obtain ⟨expanded, hlater⟩ := ih
      exact ⟨_, .space hlater⟩
  | case2 column rest ih =>
      obtain ⟨expanded, hlater⟩ := ih
      exact ⟨_, .tab (nextStop_isNextStop hwidth column) hlater⟩
  | case3 text column hspace htab => exact ⟨text, .other (stops_of_no_blank hspace htab)⟩

/-- Written out, the blanks are as many spaces as it takes to the column they lead to. -/
theorem Expands.eq_replicate_append (h : Expands tabWidth column text expanded)
    (hwidth : 1 ≤ tabWidth) :
    ∃ count, column + count = afterBlanks tabWidth column text ∧
      expanded = List.replicate count ' ' ++ text.dropWhile Form.isBlank := by
  induction h with
  | @space column rest expanded _ ih =>
      obtain ⟨count, hcount, rfl⟩ := ih
      refine ⟨count + 1, ?_, rfl⟩
      rw [afterBlanks, ← hcount]
      omega
  | @tab column count rest expanded hstop _ ih =>
      obtain ⟨more, hmore, rfl⟩ := ih
      -- There is one next stop, so the spaces go where the tab went.
      have hcolumn : column + count = nextStop tabWidth column :=
        hstop.unique (nextStop_isNextStop hwidth column)
      refine ⟨count + more, ?_, ?_⟩
      · rw [afterBlanks, ← hcolumn, ← hmore, Nat.add_assoc]
      · rw [← List.replicate_append_replicate, List.append_assoc]
        rfl
  | @other column text hstops =>
      refine ⟨0, (afterBlanks_of_stops tabWidth column hstops).symm, ?_⟩
      exact (dropWhile_of_stops hstops).symm

/-- A line is written out in one way: its indentation in spaces, then what follows its blanks. -/
theorem expands_iff (hwidth : 1 ≤ tabWidth) {line : List Char} :
    Expands tabWidth 0 line expanded ↔
      expanded = List.replicate (indentation tabWidth line) ' ' ++ line.dropWhile Form.isBlank := by
  have hunique (other : List Char) (hother : Expands tabWidth 0 line other) :
      other = List.replicate (indentation tabWidth line) ' ' ++ line.dropWhile Form.isBlank := by
    obtain ⟨count, hcount, hother⟩ := hother.eq_replicate_append hwidth
    rw [Nat.zero_add] at hcount
    rw [hother, hcount, indentation]
  constructor
  · exact hunique expanded
  -- Some text is written out for the line, so it is the only one there can be.
  · rintro rfl
    obtain ⟨other, hother⟩ := exists_expands hwidth 0 line
    rw [← hunique other hother]
    exact hother

theorem afterBlanks_replicate_append (tabWidth column count : Nat) (text : List Char) :
    afterBlanks tabWidth column (List.replicate count ' ' ++ text) =
      afterBlanks tabWidth (column + count) text := by
  induction count generalizing column with
  | zero => rfl
  | succ count ih =>
      rw [List.replicate_succ, List.cons_append, afterBlanks, ih]
      congr 1
      omega

/-- Spaces are as wide as they are many, whatever the tab width. -/
theorem indentation_replicate_append (tabWidth count : Nat) (hstops : Stops Form.isBlank text) :
    indentation tabWidth (List.replicate count ' ' ++ text) = count := by
  rw [indentation, afterBlanks_replicate_append, afterBlanks_of_stops _ _ hstops, Nat.zero_add]

theorem takeWhile_replicate_append (count : Nat) (hstops : Stops Form.isBlank text) :
    (List.replicate count ' ' ++ text).takeWhile (· == ' ') = List.replicate count ' ' := by
  have hspaces : ∀ c ∈ List.replicate count ' ', c == ' ' := by
    intro c hc
    exact beq_iff_eq.mpr (List.eq_of_mem_replicate hc)
  have htext : Stops (· == ' ') text := by
    intro c hc
    exact (Bool.or_eq_false_iff.mp (hstops c hc)).1
  rw [List.takeWhile_append_of_pos hspaces, takeWhile_of_stops htext, List.append_nil]

/-- Every blank leads at least one column further. -/
theorem add_length_le_afterBlanks (hwidth : 1 ≤ tabWidth) (column : Nat) (text : List Char) :
    column + (text.takeWhile Form.isBlank).length ≤ afterBlanks tabWidth column text := by
  fun_induction afterBlanks tabWidth column text with
  | case1 column rest ih =>
      rw [List.takeWhile_cons_of_pos (by rfl), List.length_cons]
      omega
  | case2 column rest ih =>
      have hlt : column < nextStop tabWidth column := (nextStop_isNextStop hwidth column).lt
      rw [List.takeWhile_cons_of_pos (by rfl), List.length_cons]
      omega
  | case3 text column hspace htab =>
      rw [takeWhile_of_stops (stops_of_no_blank hspace htab)]
      exact Nat.le_refl column

theorem afterBlanks_zero (column : Nat) (text : List Char) :
    afterBlanks 0 column text = column + (text.takeWhile Form.isBlank).count ' ' := by
  fun_induction afterBlanks 0 column text with
  | case1 column rest ih =>
      rw [ih, List.takeWhile_cons_of_pos (by rfl), List.count_cons_self]
      omega
  | case2 column rest ih =>
      rw [ih, nextStop_zero, List.takeWhile_cons_of_pos (by rfl),
        List.count_cons_of_ne (by decide)]
  | case3 text column hspace htab =>
      rw [takeWhile_of_stops (stops_of_no_blank hspace htab), List.count_nil, Nat.add_zero]

theorem checkedAfterBlanks_ne_underflow (hcolumn : column ≤ limit) :
    checkedAfterBlanks limit tabWidth column text ≠ .error .underflow := by
  rw [checkedAfterBlanks_eq_ite hcolumn]
  split <;> simp

end Column

namespace Caret

/-- A move changes the indentation only if it sets another tab width. -/
theorem indentation_moves (caret : Caret) (moves : List Move) :
    (caret.moves moves).indentation =
      Column.indentation (caret.moves moves).tabWidth caret.line := by
  rw [indentation, line_moves]

end Caret

/-- Where tabs have a width, there is one way to write a line out, and its indentation is the
number of leading spaces it has then, which no tab width changes. Each blank counts at least once.
Tabs of width zero add nothing. Wherever a host stands in the line, it gets this number unless it
is above its largest one, and it never meets a difference below zero on the way. -/
theorem indentation_is_expanded_width (line : List Char) (tabWidth limit : Nat) :
    let size := Column.indentation tabWidth line
    (1 ≤ tabWidth →
      (∃! expanded, Column.Expands tabWidth 0 line expanded) ∧
        (∀ expanded, Column.Expands tabWidth 0 line expanded →
          (expanded.takeWhile (· == ' ')).length = size ∧
            ∀ width, Column.indentation width expanded = size) ∧
        (line.takeWhile Form.isBlank).length ≤ size) ∧
      (tabWidth = 0 → size = (line.takeWhile Form.isBlank).count ' ') ∧
      (∀ (start : Nat) (moves : List Move),
        let caret := (Caret.atStart line start).moves moves
        caret.tabWidth = tabWidth →
          caret.indentation = size ∧
            caret.toCursor.indentation limit =
              if size ≤ limit then .ok size else .error .overflow) ∧
      ∀ column ≤ limit, ∀ text,
        Column.checkedAfterBlanks limit tabWidth column text ≠ .error .underflow := by
  intro size
  refine ⟨?_, ?_, ?_, ?_⟩
  · intro hwidth
    have hstops := Pattern.stops_dropWhile Form.isBlank line
    refine ⟨⟨_, (Column.expands_iff hwidth).mpr rfl, ?_⟩, ?_, ?_⟩
    · intro other hother
      exact (Column.expands_iff hwidth).mp hother
    · intro expanded hexpanded
      rw [(Column.expands_iff hwidth).mp hexpanded]
      refine ⟨?_, ?_⟩
      · rw [Column.takeWhile_replicate_append size hstops, List.length_replicate]
      · intro width
        exact Column.indentation_replicate_append width size hstops
    · have hlength := Column.add_length_le_afterBlanks hwidth 0 line
      rwa [Nat.zero_add] at hlength
  · rintro rfl
    exact (Column.afterBlanks_zero 0 line).trans (Nat.zero_add _)
  · intro start moves caret hcaret
    have hsize : caret.indentation = Column.indentation caret.tabWidth line :=
      (Caret.atStart line start).indentation_moves moves
    rw [hcaret] at hsize
    refine ⟨hsize, ?_⟩
    rw [caret.toCursor_indentation_eq_ite limit, hsize]
  · intro column hcolumn text
    exact Column.checkedAfterBlanks_ne_underflow hcolumn

/-- The first tab stands off a stop and the second one on it. -/
theorem indentation_is_expanded_width_mixed :
    let line := [' ', '\t', '\t', 'g', 'o']
    let expanded := List.replicate 8 ' ' ++ ['g', 'o']
    let caret := (Caret.atStart line 8).moves [.ahead .toEnd, .tabWidth 4, .back 1]
    (1 ≤ 4 ∧ Column.Expands 4 0 line expanded ∧ (expanded.takeWhile (· == ' ')).length = 8 ∧
        Column.indentation 3 expanded = 8) ∧
      (caret.tabWidth = 4 ∧ caret.toCursor.indentation 8 = .ok 8 ∧
        caret.toCursor.indentation 7 = .error .overflow) ∧
      Column.indentation 0 line = 1 ∧
      5 ≤ 7 ∧ Column.checkedAfterBlanks 7 0 5 line ≠ .error .underflow := by
  intro line expanded caret
  let word := ['g', 'o']
  have hword : Column.Expands 4 8 word word := .other (Pattern.stops_cons rfl ['o'])
  have hon : Column.Expands 4 4 ('\t' :: word) (List.replicate 4 ' ' ++ word) :=
    .tab (Column.nextStop_isNextStop (by decide) 4) hword
  have hoff : Column.Expands 4 1 ('\t' :: '\t' :: word)
      (List.replicate 3 ' ' ++ (List.replicate 4 ' ' ++ word)) :=
    .tab (Column.nextStop_isNextStop (by decide) 1) hon
  have hexpands : Column.Expands 4 0 line expanded := .space hoff
  obtain ⟨hwide, _, hplace, _⟩ := indentation_is_expanded_width line 4 8
  obtain ⟨_, _, hover, _⟩ := indentation_is_expanded_width line 4 7
  obtain ⟨_, hzero, _, hdifference⟩ := indentation_is_expanded_width line 0 7
  have hsize := (hwide (by decide)).2.1 expanded hexpands
  refine ⟨⟨by decide, hexpands, hsize.1, hsize.2 3⟩, ⟨rfl, ?_, ?_⟩, hzero rfl, by decide, ?_⟩
  · exact (hplace 8 [.ahead .toEnd, .tabWidth 4, .back 1] rfl).2
  · exact (hover 8 [.ahead .toEnd, .tabWidth 4, .back 1] rfl).2
  · exact hdifference 5 (by decide) line

end StitchMarkup
