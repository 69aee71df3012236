import Mathlib.Data.List.TakeWhile
import StitchMarkup.Form

/-!
How patterns match. A pattern reads a text in front of another when its match stops exactly
between the two, so a reading is a fact about both sides of the place where it stops: the run of
a class ends where the text after it does not go on with the class. Readings compose along the
pattern, which is how a form is shown to read what is written for it. In the other direction,
all that later proofs need of a match is which characters it cannot hold.
-/

namespace StitchMarkup

namespace Cut

@[simp] theorem after_nil (cut : Cut) : cut.after [] = cut := rfl

end Cut

namespace Pattern

variable {pattern first second : Pattern} {text taken rest : List Char} {cut : Cut}
  {p : Char → Bool}

/-- Patterns in a row match one after the other. -/
theorem cut?_append (first second : Pattern) (text : List Char) :
    (first ++ second).cut? text =
      (first.cut? text).bind fun cut => (second.cut? cut.rest).map (·.after cut.taken) := by
  fun_induction cut? first text with
  | case1 text => simp [Cut.nothing]
  | case2 p atoms => simp [cut?]
  | case3 p atoms c rest hc ih =>
      simp only [List.cons_append, cut?, if_pos hc]
      rw [ih]
      cases cut? atoms rest with
      | none => rfl
      | some cut =>
          simp only [Option.bind_some, Option.map_some, Option.map_map]
          rfl
  | case4 p atoms c rest hc => simp [cut?, hc]
  | case5 p atoms text ih =>
      simp only [List.cons_append, cut?]
      rw [ih]
      cases cut? atoms (text.dropWhile p) with
      | none => rfl
      | some cut =>
          simp only [Option.bind_some, Option.map_some, Option.map_map]
          congr 1
          funext later
          simp [Cut.after]

@[simp] theorem cut?_run (p : Char → Bool) (text : List Char) :
    cut? [.run p] text = some (.run p text) := by
  simp [cut?, Cut.nothing, Cut.after, Cut.run]

theorem cut?_literal_append (mark rest : List Char) :
    (literal mark).cut? (mark ++ rest) = some ⟨mark, rest⟩ := by
  induction mark with
  | nil => rfl
  | cons c mark ih =>
      have htail : cut? (mark.map fun c => .one (· == c)) (mark ++ rest) = some ⟨mark, rest⟩ := ih
      simp [literal, cut?, htail, Cut.after]

theorem taken_of_cut?_literal {mark : List Char} (h : (literal mark).cut? text = some cut) :
    cut.taken = mark := by
  induction mark generalizing text cut with
  | nil =>
      cases h
      rfl
  | cons c mark ih =>
      cases text with
      | nil => cases h
      | cons head tail =>
          simp only [literal, List.map_cons, cut?] at h
          split at h
          · next hhead =>
              obtain ⟨inner, hinner, rfl⟩ := Option.map_eq_some_iff.mp h
              rw [beq_iff_eq] at hhead
              subst hhead
              simp only [Cut.after, List.singleton_append, List.cons.injEq, true_and]
              exact ih hinner
          · cases h

/-- A literal matches where the text begins with it and nowhere else. -/
theorem cut?_literal_eq_none_iff {mark : List Char} :
    (literal mark).cut? text = none ↔ ¬ mark <+: text := by
  constructor
  · rintro hnone ⟨rest, rfl⟩
    rw [cut?_literal_append] at hnone
    cases hnone
  · intro hprefix
    cases h : (literal mark).cut? text with
    | none => rfl
    | some cut =>
        refine absurd ⟨cut.rest, ?_⟩ hprefix
        rw [← taken_of_cut?_literal h]
        exact whole_of_cut? h

theorem eq_of_cut?_literal {mark : List Char} (h : (literal mark).cut? text = some cut) :
    text = mark ++ cut.rest := by
  rw [← taken_of_cut?_literal h]
  exact (whole_of_cut? h).symm

theorem startsAt_literal_iff {mark : List Char} :
    (literal mark).startsAt text ↔ mark <+: text := by
  rw [startsAt, Option.isSome_iff_ne_none, ne_eq, cut?_literal_eq_none_iff,
    Decidable.not_not]

/-- The match of the pattern stops exactly where the one text ends and the other begins. -/
def Reads (pattern : Pattern) (taken rest : List Char) : Prop :=
  pattern.cut? (taken ++ rest) = some ⟨taken, rest⟩

/-- The text does not go on with the class. -/
def Stops (p : Char → Bool) (text : List Char) : Prop := ∀ c ∈ text.head?, p c = false

theorem stops_nil (p : Char → Bool) : Stops p [] := by
  intro c hc
  cases hc

theorem stops_cons {c : Char} (hc : p c = false) (rest : List Char) : Stops p (c :: rest) := by
  intro other hother
  cases hother
  exact hc

/-- A run leaves a text that does not go on with its class. -/
theorem stops_dropWhile (p : Char → Bool) (text : List Char) : Stops p (text.dropWhile p) := by
  intro c hc
  have hhead := List.head?_dropWhile_not p text
  have hfirst : (text.dropWhile p).head? = some c := hc
  rw [hfirst] at hhead
  simpa using hhead

theorem takeWhile_of_stops (hstops : Stops p text) : text.takeWhile p = [] := by
  cases text with
  | nil => rfl
  | cons c rest =>
      have hc : p c = false := hstops c rfl
      simp [hc]

theorem dropWhile_of_stops (hstops : Stops p text) : text.dropWhile p = text := by
  have htext : text.takeWhile p ++ text.dropWhile p = text := List.takeWhile_append_dropWhile
  rwa [takeWhile_of_stops hstops, List.nil_append] at htext

namespace Reads

theorem append {later : List Char} (hfirst : first.Reads taken (later ++ rest))
    (hsecond : second.Reads later rest) : (first ++ second).Reads (taken ++ later) rest := by
  unfold Reads at hfirst hsecond ⊢
  rw [List.append_assoc, cut?_append, hfirst]
  simp only [Option.bind_some, hsecond, Option.map_some, Cut.after]

theorem one {c : Char} (hc : p c) (rest : List Char) : Reads [.one p] [c] rest := by
  simp [Reads, cut?, hc, Cut.nothing, Cut.after]

theorem run (htaken : ∀ c ∈ taken, p c) (hrest : Stops p rest) :
    Reads [.run p] taken rest := by
  rw [Reads, cut?_run, Cut.run, List.takeWhile_append_of_pos htaken,
    List.dropWhile_append_of_pos htaken, takeWhile_of_stops hrest, dropWhile_of_stops hrest,
    List.append_nil]

theorem literal (mark rest : List Char) : (literal mark).Reads mark rest :=
  cut?_literal_append mark rest

end Reads

/-- No match of the pattern holds the character. -/
def excludes (c : Char) (pattern : Pattern) : Bool :=
  pattern.all fun
    | .one p => !p c
    | .run p => !p c

theorem not_mem_of_excludes {c : Char} (hpattern : pattern.excludes c)
    (h : pattern.cut? text = some cut) : c ∉ cut.taken := by
  fun_induction cut? pattern text generalizing cut with
  | case1 text =>
      cases h
      exact List.not_mem_nil
  | case2 => cases h
  | case3 p atoms head rest hhead ih =>
      obtain ⟨inner, hinner, rfl⟩ := Option.map_eq_some_iff.mp h
      simp only [excludes, List.all_cons, Bool.and_eq_true, Bool.not_eq_true'] at hpattern
      have hne : c ≠ head := by
        rintro rfl
        rw [hpattern.1] at hhead
        cases hhead
      simp only [Cut.after, List.singleton_append, List.mem_cons, not_or]
      exact ⟨hne, ih hpattern.2 hinner⟩
  | case4 => cases h
  | case5 p atoms text ih =>
      obtain ⟨inner, hinner, rfl⟩ := Option.map_eq_some_iff.mp h
      simp only [excludes, List.all_cons, Bool.and_eq_true, Bool.not_eq_true'] at hpattern
      simp only [Cut.after, List.mem_append, not_or]
      refine ⟨?_, ih hpattern.2 hinner⟩
      intro hmem
      have hc : p c = true := List.mem_takeWhile_imp hmem
      rw [hc] at hpattern
      cases hpattern.1

/-- The class of the first character of a match, where the pattern says that there is one. -/
def lead : Pattern → Char → Bool
  | .one p :: _, c => p c
  | _, _ => true

theorem cut?_cons_of_lead {c : Char} (hc : pattern.lead c = false) (rest : List Char) :
    pattern.cut? (c :: rest) = none := by
  match pattern with
  | [] => cases hc
  | .one p :: atoms =>
      have hp : p c = false := hc
      simp [cut?, hp]
  | .run p :: atoms => cases hc

theorem lead_of_cut? {c : Char} (h : pattern.cut? (c :: rest) = some cut) :
    pattern.lead c := by
  rw [← Bool.not_eq_false]
  intro hlead
  rw [cut?_cons_of_lead hlead] at h
  cases h

theorem not_of_mark {mark : Char} (h : p mark = false) (c : Char) (hc : (c == mark) = true) :
    p c = false := by
  rw [eq_of_beq hc]
  exact h

theorem not_mark_of {mark : Char} (h : p mark = false) (c : Char) (hc : p c = true) :
    (c == mark) = false := by
  rw [beq_eq_false_iff_ne]
  rintro rfl
  rw [h] at hc
  cases hc

/-! The first place of a mark of two different characters, which cannot overlap itself. -/

theorem find?_literal_eq_none_iff {mark : List Char} :
    (literal mark).find? text = none ↔ ¬ mark <:+: text := by
  induction text with
  | nil =>
      simp only [find?, startsAt_literal_iff, List.infix_nil, List.prefix_nil]
      split <;> simp_all
  | cons c text ih =>
      simp only [find?, startsAt_literal_iff, List.infix_cons_iff, not_or]
      split
      · next hhere => simp [hhere]
      · next hhere => simp [hhere, ih]

theorem of_find?_literal {mark : List Char} (hmark : mark ≠ [])
    (h : (literal mark).find? text = some cut) :
    mark <+: cut.rest ∧ ¬ mark <:+: cut.taken := by
  induction text generalizing cut with
  | nil =>
      have hnone : (literal mark).find? [] = none :=
        find?_literal_eq_none_iff.mpr fun hinfix => hmark (List.infix_nil.mp hinfix)
      rw [hnone] at h
      cases h
  | cons c text ih =>
      simp only [find?, startsAt_literal_iff] at h
      split at h
      · next hhere =>
          cases h
          exact ⟨hhere, fun hinfix => hmark (List.infix_nil.mp hinfix)⟩
      · next hhere =>
          obtain ⟨inner, hinner, rfl⟩ := Option.map_eq_some_iff.mp h
          obtain ⟨hrest, htaken⟩ := ih hinner
          have hwhole : inner.taken ++ inner.rest = text := whole_of_find? hinner
          refine ⟨hrest, fun hinfix => ?_⟩
          rcases List.infix_cons_iff.mp hinfix with hprefix | hlater
          · apply hhere
            rw [← hwhole]
            exact hprefix.trans (List.prefix_append (c :: inner.taken) inner.rest)
          · exact htaken hlater

theorem find?_literal_append {a b : Char} (hab : a ≠ b) {before after : List Char}
    (h : ¬ [a, b] <:+: before) :
    (literal [a, b]).find? (before ++ a :: b :: after) = some ⟨before, a :: b :: after⟩ := by
  induction before with
  | nil =>
      have hhere : (literal [a, b]).startsAt (a :: b :: after) :=
        startsAt_literal_iff.mpr ⟨after, rfl⟩
      simp [find?, hhere, Cut.nothing]
  | cons c before ih =>
      have hhere : ¬ (literal [a, b]).startsAt (c :: (before ++ a :: b :: after)) := by
        rw [startsAt_literal_iff]
        rintro ⟨rest, hrest⟩
        simp only [List.cons_append, List.nil_append, List.cons.injEq] at hrest
        obtain ⟨rfl, hrest⟩ := hrest
        cases before with
        | nil =>
            simp only [List.nil_append, List.cons.injEq] at hrest
            exact hab hrest.1.symm
        | cons d before =>
            simp only [List.cons_append, List.cons.injEq] at hrest
            obtain ⟨rfl, _⟩ := hrest
            exact h ⟨[], before, rfl⟩
      have hlater : ¬ [a, b] <:+: before := fun hinfix => h (List.infix_cons hinfix)
      simp [find?, hhere, ih hlater, Cut.after]

end Pattern

namespace Form

variable {indent text : List Char} {cut : Cut}

theorem eq_of_isBlank {c : Char} (h : isBlank c) : c = ' ' ∨ c = '\t' := by
  simpa [isBlank] using h

theorem isTagMark_iff {c : Char} : isTagMark c ↔ c = '!' ∨ c = '?' := by
  simp [isTagMark]

/-- A class without the two blanks stops at blanks that separate it from what follows. -/
theorem stops_blanks {p : Char → Bool} {after rest : List Char}
    (hp : p ' ' = false ∧ p '\t' = false) (hafter : ∀ c ∈ after, isBlank c)
    (hsep : after ≠ [] ∨ rest = []) : Pattern.Stops p (after ++ rest) := by
  cases after with
  | nil =>
      have hrest : rest = [] := hsep.resolve_left fun hne => hne rfl
      rw [hrest]
      exact Pattern.stops_nil p
  | cons c after =>
      apply Pattern.stops_cons
      rcases eq_of_isBlank (hafter c List.mem_cons_self) with rfl | rfl
      · exact hp.1
      · exact hp.2

/-- Blanks stop where a class without blanks goes on. -/
theorem isBlank_eq_false {p : Char → Bool} {c : Char} (hp : p ' ' = false ∧ p '\t' = false)
    (hc : p c) : isBlank c = false := by
  rw [Bool.eq_false_iff]
  intro hblank
  rcases eq_of_isBlank hblank with rfl | rfl
  · rw [hp.1] at hc
    cases hc
  · rw [hp.2] at hc
    cases hc

theorem reads_thenBlanks {form : Pattern} {taken after rest : List Char}
    (hform : form.Reads taken (after ++ rest)) (hafter : ∀ c ∈ after, isBlank c)
    (hrest : Pattern.Stops isBlank rest) : (thenBlanks form).Reads (taken ++ after) rest :=
  hform.append (Pattern.Reads.run hafter hrest)

/-- A pattern that may be indented is matched after the indentation of the text. -/
theorem cut?_blanks_append (pattern : Pattern) (hindent : ∀ c ∈ indent, isBlank c)
    (htext : Pattern.Stops isBlank text) :
    (blanks ++ pattern).cut? (indent ++ text) =
      (pattern.cut? text).map (·.after indent) := by
  have hblanks : blanks.cut? (indent ++ text) = some ⟨indent, text⟩ :=
    Pattern.Reads.run hindent htext
  rw [Pattern.cut?_append, hblanks]
  rfl

theorem cut?_blanks_literal_eq_none_iff {mark : List Char} (hindent : ∀ c ∈ indent, isBlank c)
    (htext : Pattern.Stops isBlank text) :
    (blanks ++ Pattern.literal mark).cut? (indent ++ text) = none ↔ ¬ mark <+: text := by
  rw [cut?_blanks_append _ hindent htext, Option.map_eq_none_iff, Pattern.cut?_literal_eq_none_iff]

/-- An indented mark is matched with nothing but blanks before it. -/
theorem taken_of_cut?_blanks_literal {mark : List Char}
    (h : (blanks ++ Pattern.literal mark).cut? text = some cut) :
    ∃ indent, (∀ c ∈ indent, isBlank c) ∧ cut.taken = indent ++ mark := by
  have hblanks : blanks.cut? text = some (.run isBlank text) := Pattern.cut?_run isBlank text
  rw [Pattern.cut?_append, hblanks] at h
  obtain ⟨inner, hinner, rfl⟩ := Option.map_eq_some_iff.mp h
  refine ⟨text.takeWhile isBlank, ?_, ?_⟩
  · intro c hc
    exact List.mem_takeWhile_imp hc
  · rw [← Pattern.taken_of_cut?_literal hinner]
    rfl

theorem cut?_thenBlanks_eq_none_iff {form : Pattern} :
    (thenBlanks form).cut? text = none ↔ form.cut? text = none := by
  rw [thenBlanks, Pattern.cut?_append]
  cases form.cut? text <;> simp [blanks]

end Form

end StitchMarkup
