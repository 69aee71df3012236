import Mathlib.Computability.Language
import StitchMarkup.Proofs.Matching

/-!
The languages of patterns. A language says which texts can be written for a pattern and nothing
about how they are read: it has a text for each atom, in a row. Matching is sound for it, and it
is complete and greedy where every run of the pattern ends at a character that the run could not
have taken. All forms of the markup are of that sort, so a match is the longest text of its form
that stands at its place, and where there is no match there is no text of the form at all.
-/

namespace StitchMarkup

/-- The texts of a single character of a class. -/
def singles (p : Char → Bool) : Language Char := {text | ∃ c, p c ∧ text = [c]}

/-- The texts over a class, of any length. -/
def runs (p : Char → Bool) : Language Char := {text | ∀ c ∈ text, p c}

/-- The text is in the language, and no longer text of the language stands at its place. -/
def Longest (language : Language Char) (text after : List Char) : Prop :=
  text ∈ language ∧ ∀ other ∈ language, other <+: text ++ after → other.length ≤ text.length

namespace Pattern

variable {pattern first second : Pattern} {text written rest : List Char} {cut : Cut}
  {p : Char → Bool}

/-- The texts that can be written for a pattern. -/
def language : Pattern → Language Char
  | [] => 1
  | .one p :: atoms => singles p * language atoms
  | .run p :: atoms => runs p * language atoms

@[simp] theorem language_append (first second : Pattern) :
    (first ++ second).language = first.language * second.language := by
  induction first with
  | nil => simp [language]
  | cons atom atoms ih => cases atom <;> simp [language, ih, mul_assoc]

@[simp] theorem language_one (p : Char → Bool) : language [.one p] = singles p := by
  simp [language]

@[simp] theorem language_run (p : Char → Bool) : language [.run p] = runs p := by
  simp [language]

@[simp] theorem language_literal (mark : List Char) : (literal mark).language = {mark} := by
  induction mark with
  | nil => rfl
  | cons c mark ih =>
      have hcons : (literal (c :: mark)).language = singles (· == c) * (literal mark).language :=
        rfl
      rw [hcons, ih]
      ext text
      rw [Language.mem_mul]
      constructor
      · rintro ⟨single, ⟨d, hd, rfl⟩, other, rfl, rfl⟩
        rw [eq_of_beq hd]
        rfl
      · intro htext
        have heq : text = c :: mark := htext
        exact ⟨[c], ⟨c, beq_self_eq_true c, rfl⟩, mark, rfl, heq.symm⟩

/-- What a pattern matches can be written for it. -/
theorem mem_language_of_cut? (h : pattern.cut? text = some cut) :
    cut.taken ∈ pattern.language := by
  fun_induction cut? pattern text generalizing cut with
  | case1 text =>
      cases h
      exact Language.nil_mem_one
  | case2 => cases h
  | case3 p atoms c rest hc ih =>
      obtain ⟨inner, hinner, rfl⟩ := Option.map_eq_some_iff.mp h
      exact Language.append_mem_mul ⟨c, hc, rfl⟩ (ih hinner)
  | case4 => cases h
  | case5 p atoms text ih =>
      obtain ⟨inner, hinner, rfl⟩ := Option.map_eq_some_iff.mp h
      have hrun : text.takeWhile p ∈ runs p :=
        fun c hc => List.mem_takeWhile_imp hc
      exact Language.append_mem_mul hrun (ih hinner)

/-- The class of the characters that a text of the pattern can begin with. -/
def begins : Pattern → Char → Bool
  | [], _ => false
  | .one p :: _, c => p c
  | .run p :: atoms, c => p c || begins atoms c

theorem begins_of_mem_language {c : Char} (h : c :: text ∈ pattern.language) :
    pattern.begins c := by
  induction pattern with
  | nil => cases h
  | cons atom atoms ih =>
      cases atom with
      | one p =>
          obtain ⟨single, ⟨d, hd, rfl⟩, other, _, heq⟩ := Language.mem_mul.mp h
          rw [← (List.cons.inj heq).1]
          exact hd
      | run p =>
          obtain ⟨taken, htaken, other, hother, heq⟩ := Language.mem_mul.mp h
          cases taken with
          | nil =>
              rw [List.nil_append] at heq
              rw [heq] at hother
              simp [begins, ih hother]
          | cons d taken =>
              have hd : p d := htaken d List.mem_cons_self
              rw [(List.cons.inj heq).1] at hd
              simp [begins, hd]

/-- No run of the pattern can take a character that what comes after it begins with. -/
def Settled : Pattern → Prop
  | [] => True
  | .one _ :: atoms => Settled atoms
  | .run p :: atoms => (∀ c, p c = true → begins atoms c = false) ∧ Settled atoms

/-- A text that can be written for a settled pattern is read, up to its end at least. The
induction follows the pattern: a run goes on beyond what was written for it only where nothing
was written for the atoms after it. -/
theorem exists_cut?_of_mem_language (hpattern : pattern.Settled)
    (h : written ∈ pattern.language) (rest : List Char) :
    ∃ cut, pattern.cut? (written ++ rest) = some cut ∧ written.length ≤ cut.taken.length := by
  induction pattern generalizing written rest with
  | nil =>
      have hnil : written = [] := h
      rw [hnil]
      exact ⟨.nothing rest, rfl, Nat.le_refl 0⟩
  | cons atom atoms ih =>
      cases atom with
      | one p =>
          obtain ⟨single, ⟨c, hc, rfl⟩, later, hlater, rfl⟩ := Language.mem_mul.mp h
          obtain ⟨cut, hcut, hlength⟩ := ih hpattern hlater rest
          refine ⟨cut.after [c], ?_, ?_⟩
          · simp [cut?, hc, hcut]
          · simp only [Cut.after, List.length_append]
            omega
      | run p =>
          obtain ⟨taken, htaken, later, hlater, rfl⟩ := Language.mem_mul.mp h
          cases later with
          | nil =>
              obtain ⟨cut, hcut, _⟩ := ih hpattern.2 hlater (rest.dropWhile p)
              rw [List.nil_append] at hcut
              refine ⟨cut.after ((taken ++ rest).takeWhile p), ?_, ?_⟩
              · rw [List.append_nil, cut?, List.dropWhile_append_of_pos htaken, hcut]
                rfl
              · rw [List.takeWhile_append_of_pos htaken]
                simp only [Cut.after, List.append_nil, List.length_append]
                omega
          | cons c later =>
              have hstop : p c = false := by
                rw [Bool.eq_false_iff]
                intro hp
                have hbegins := begins_of_mem_language hlater
                rw [hpattern.1 c hp] at hbegins
                cases hbegins
              obtain ⟨cut, hcut, hlength⟩ := ih hpattern.2 hlater rest
              have hrun := Reads.run htaken (stops_cons hstop (later ++ rest))
              rw [Reads, cut?_run, Cut.run, Option.some.injEq, Cut.mk.injEq] at hrun
              refine ⟨cut.after taken, ?_, ?_⟩
              · rw [List.append_assoc, List.cons_append, cut?, hrun.1, hrun.2, ← List.cons_append,
                  hcut]
                rfl
              · simp only [Cut.after, List.length_append]
                omega

/-- A match is the longest text of its pattern that stands at its place. -/
theorem longest_of_cut? (hpattern : pattern.Settled) (h : pattern.cut? text = some cut) :
    Longest pattern.language cut.taken cut.rest := by
  refine ⟨mem_language_of_cut? h, ?_⟩
  have hwhole : cut.taken ++ cut.rest = text := whole_of_cut? h
  rintro other hother ⟨rest, hrest⟩
  obtain ⟨longest, hlongest, hlength⟩ := exists_cut?_of_mem_language hpattern hother rest
  rw [hrest, hwhole, h] at hlongest
  cases hlongest
  exact hlength

/-- Without a match no text of the pattern stands at the place. -/
theorem not_prefix_of_cut?_eq_none (hpattern : pattern.Settled) (h : pattern.cut? text = none) :
    ∀ other ∈ pattern.language, ¬ other <+: text := by
  rintro other hother ⟨rest, rfl⟩
  obtain ⟨cut, hcut, _⟩ := exists_cut?_of_mem_language hpattern hother rest
  rw [h] at hcut
  cases hcut

/-- The class of the last atom of a pattern if that is a run, and an empty class otherwise. -/
def lastRun : Pattern → Char → Bool
  | [] => fun _ => false
  | [.run p] => p
  | _ :: atoms => lastRun atoms

theorem lastRun_append_run (first : Pattern) (p : Char → Bool) :
    lastRun (first ++ [.run p]) = p := by
  induction first with
  | nil => rfl
  | cons atom atoms ih =>
      cases atoms with
      | nil => cases atom <;> rfl
      | cons next atoms => cases atom <;> exact ih

/-- A run at the end of a pattern is followed by a character that it cannot take. -/
theorem stops_of_cut? (h : pattern.cut? text = some cut) : Stops pattern.lastRun cut.rest := by
  induction pattern generalizing text cut with
  | nil => exact fun _ _ => rfl
  | cons atom atoms ih =>
      cases atom with
      | one p =>
          cases text with
          | nil => cases h
          | cons c rest =>
              simp only [cut?, Option.ite_none_right_eq_some] at h
              obtain ⟨inner, hinner, rfl⟩ := Option.map_eq_some_iff.mp h.2
              have hlater : Stops (lastRun atoms) inner.rest := ih hinner
              cases atoms <;> exact hlater
      | run p =>
          obtain ⟨inner, hinner, rfl⟩ := Option.map_eq_some_iff.mp h
          cases atoms with
          | nil =>
              cases hinner
              exact stops_dropWhile p text
          | cons next atoms =>
              have hlater : Stops (lastRun (next :: atoms)) inner.rest := ih hinner
              exact hlater

end Pattern

namespace Form

theorem eq_false_of_isBlank {p : Char → Bool} (hp : p ' ' = false ∧ p '\t' = false) (c : Char)
    (hc : isBlank c = true) : p c = false := by
  rcases eq_of_isBlank hc with rfl | rfl
  · exact hp.1
  · exact hp.2

end Form

end StitchMarkup
