import StitchMarkup.Text

/-!
Cuts of a text and the patterns that make them. A cut keeps both the text it takes and the text
it leaves, so nothing is lost, repeated or reordered by cutting. A pattern is a sequence of
atoms, each of them one character of a class or the longest run of a class, and it is matched
from left to right without ever going back.
-/

namespace StitchMarkup

structure Cut where
  taken : List Char
  rest : List Char
deriving DecidableEq, Repr

namespace Cut

def whole (cut : Cut) : List Char := cut.taken ++ cut.rest

def nothing (text : List Char) : Cut := ⟨[], text⟩

def everything (text : List Char) : Cut := ⟨text, []⟩

/-- Takes the first character, or nothing at the end of the text. -/
def one (text : List Char) : Cut := ⟨text.take 1, text.drop 1⟩

/-- Takes the longest run of a class, possibly empty. -/
def run (p : Char → Bool) (text : List Char) : Cut :=
  ⟨text.takeWhile p, text.dropWhile p⟩

/-- The same cut of a longer text, with `first` taken as well. -/
def after (first : List Char) (cut : Cut) : Cut :=
  ⟨first ++ cut.taken, cut.rest⟩

/-- Takes the characters that fit into `size` bytes. A size that ends inside a character stops
before it, and one past the end takes everything. -/
def bytes : Nat → List Char → Cut
  | _, [] => nothing []
  | size, c :: rest =>
      if c.utf8Size ≤ size then (bytes (size - c.utf8Size) rest).after [c]
      else nothing (c :: rest)

/-- The cut takes something off the front of the text, so what it leaves is shorter. -/
def Advances (cut : Cut) (text : List Char) : Prop :=
  cut.whole = text ∧ cut.taken ≠ []

theorem Advances.length_rest_lt {cut : Cut} {text : List Char} (h : cut.Advances text) :
    cut.rest.length < text.length := by
  have htaken : 0 < cut.taken.length := List.length_pos_iff.mpr h.2
  rw [← h.1]
  simp only [whole, List.length_append]
  omega

theorem one_advances {text : List Char} (h : text ≠ []) : (one text).Advances text := by
  cases text with
  | nil => exact absurd rfl h
  | cons c rest => exact ⟨rfl, by simp [one]⟩

@[simp] theorem whole_nothing (text : List Char) : (nothing text).whole = text := rfl

@[simp] theorem whole_everything (text : List Char) : (everything text).whole = text := by
  simp [whole, everything]

@[simp] theorem whole_one (text : List Char) : (one text).whole = text :=
  List.take_append_drop 1 text

@[simp] theorem whole_run (p : Char → Bool) (text : List Char) : (run p text).whole = text := by
  simp [whole, run]

@[simp] theorem whole_after (first : List Char) (cut : Cut) :
    (cut.after first).whole = first ++ cut.whole := by
  simp [whole, after]

@[simp] theorem whole_bytes (size : Nat) (text : List Char) : (bytes size text).whole = text := by
  induction text generalizing size with
  | nil => rfl
  | cons c rest ih =>
      simp only [bytes]
      split
      · simp [ih]
      · simp

end Cut

inductive Atom where
  | one : (Char → Bool) → Atom
  | run : (Char → Bool) → Atom

abbrev Pattern := List Atom

namespace Pattern

/-- The pattern that only the given text matches. -/
def literal (text : List Char) : Pattern :=
  text.map fun c => .one (· == c)

/-- Cuts the match of a pattern off the front of a text. -/
def cut? : Pattern → List Char → Option Cut
  | [], text => some (.nothing text)
  | .one _ :: _, [] => none
  | .one p :: atoms, c :: rest =>
      if p c then (cut? atoms rest).map (·.after [c]) else none
  | .run p :: atoms, text =>
      (cut? atoms (text.dropWhile p)).map (·.after (text.takeWhile p))

def startsAt (pattern : Pattern) (text : List Char) : Bool :=
  (pattern.cut? text).isSome

/-- Cuts a text right before the first place where the pattern matches. -/
def find? (pattern : Pattern) : List Char → Option Cut
  | [] => if pattern.startsAt [] then some (.nothing []) else none
  | c :: rest =>
      if pattern.startsAt (c :: rest) then some (.nothing (c :: rest))
      else (find? pattern rest).map (·.after [c])

theorem whole_of_cut? {pattern : Pattern} {text : List Char} {cut : Cut}
    (h : pattern.cut? text = some cut) : cut.whole = text := by
  fun_induction cut? pattern text generalizing cut with
  | case1 text => cases h; rfl
  | case2 => cases h
  | case3 p atoms c rest _ ih =>
      obtain ⟨inner, hinner, rfl⟩ := Option.map_eq_some_iff.mp h
      simp [ih hinner]
  | case4 => cases h
  | case5 p atoms text ih =>
      obtain ⟨inner, hinner, rfl⟩ := Option.map_eq_some_iff.mp h
      simp [ih hinner]

/-- The number of characters that every match has at least. -/
def minLength : Pattern → Nat
  | [] => 0
  | .one _ :: atoms => minLength atoms + 1
  | .run _ :: atoms => minLength atoms

theorem minLength_le_of_cut? {pattern : Pattern} {text : List Char} {cut : Cut}
    (h : pattern.cut? text = some cut) : pattern.minLength ≤ cut.taken.length := by
  fun_induction cut? pattern text generalizing cut with
  | case1 text => simp [minLength]
  | case2 => cases h
  | case3 p atoms c rest _ ih =>
      obtain ⟨inner, hinner, rfl⟩ := Option.map_eq_some_iff.mp h
      have := ih hinner
      simp only [minLength, Cut.after, List.length_append, List.length_singleton]
      omega
  | case4 => cases h
  | case5 p atoms text ih =>
      obtain ⟨inner, hinner, rfl⟩ := Option.map_eq_some_iff.mp h
      have := ih hinner
      simp only [minLength, Cut.after, List.length_append]
      omega

theorem advances_of_cut? {pattern : Pattern} {text : List Char} {cut : Cut}
    (hpos : 0 < pattern.minLength) (h : pattern.cut? text = some cut) : cut.Advances text := by
  refine ⟨whole_of_cut? h, ?_⟩
  have hlen := minLength_le_of_cut? h
  exact List.ne_nil_of_length_pos (by omega)

theorem whole_of_find? {pattern : Pattern} {text : List Char} {cut : Cut}
    (h : pattern.find? text = some cut) : cut.whole = text := by
  fun_induction find? pattern text generalizing cut with
  | case1 => cases h; rfl
  | case2 => cases h
  | case3 => cases h; rfl
  | case4 c rest _ ih =>
      obtain ⟨inner, hinner, rfl⟩ := Option.map_eq_some_iff.mp h
      simp [ih hinner]

end Pattern

end StitchMarkup
