import StitchMarkup.Pattern

/-!
Checked operations. A host may know a place in a text only as an offset into its bytes and count
in numbers with a largest one. There an offset inside a character, a range past the end, a
difference below zero and a sum past the largest number are faults, and each operation has such a
fault where it could meet it.
-/

namespace StitchMarkup

inductive Fault where
  /-- An offset inside a character or past the end of the text. -/
  | noBoundary (offset : Nat)
  /-- A difference below zero. -/
  | underflow
  /-- A sum above the largest number. -/
  | overflow
  /-- A line that has not ended within the steps allowed for it. -/
  | unfinished
deriving DecidableEq, Repr

abbrev Checked := Except Fault

namespace Checked

def add (limit first second : Nat) : Checked Nat :=
  if first + second ≤ limit then .ok (first + second) else .error .overflow

def sub (first second : Nat) : Checked Nat :=
  if second ≤ first then .ok (first - second) else .error .underflow

@[simp] theorem ok_bind {α β : Type} (value : α) (next : α → Checked β) :
    ((Except.ok value : Checked α) >>= next) = next value := rfl

@[simp] theorem pure_eq_ok {α : Type} (value : α) : (pure value : Checked α) = .ok value := rfl

theorem add_of_le {limit first second : Nat} (h : first + second ≤ limit) :
    add limit first second = .ok (first + second) := if_pos h

theorem add_of_lt {limit first second : Nat} (h : limit < first + second) :
    add limit first second = .error .overflow := if_neg (Nat.not_le_of_lt h)

theorem sub_of_le {first second : Nat} (h : second ≤ first) :
    sub first second = .ok (first - second) := if_pos h

/-- Puts new items in place of those from `start` up to, but not including, `stop`. -/
def splice {α : Type} (start stop : Nat) (fresh items : List α) : Checked (List α) := do
  let _ ← sub stop start
  let _ ← sub items.length stop
  return items.take start ++ (fresh ++ items.drop stop)

/-- The sizes of the characters of a text, summed up one by one. -/
def sumSizes (limit : Nat) : List Char → Nat → Checked Nat
  | [], total => return total
  | c :: text, total => do sumSizes limit text (← add limit total c.utf8Size)

end Checked

/-- The text from an offset on. -/
def sliceFrom (offset : Nat) (text : List Char) : Checked (List Char) :=
  let cut := Cut.bytes offset text
  if byteLength cut.taken = offset then .ok cut.rest else .error (.noBoundary offset)

/-- The text up to an offset. -/
def sliceTo (offset : Nat) (text : List Char) : Checked (List Char) :=
  let cut := Cut.bytes offset text
  if byteLength cut.taken = offset then .ok cut.taken else .error (.noBoundary offset)

end StitchMarkup
