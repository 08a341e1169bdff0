/-! # Members

The members of a mapping as a document has them: in order, and with repeated keys.
-/

namespace Stylebook.Member

variable {α : Type}

/-- The value under a key that stands exactly once. -/
def single? (k : String) (ms : List (String × α)) : Option α :=
  match ms.filter (·.1 = k) with
  | [m] => some m.2
  | _ => none

/-- The value under a key that stands at most once. -/
def optional? (k : String) (ms : List (String × α)) : Option (Option α) :=
  match ms.filter (·.1 = k) with
  | [] => some none
  | [m] => some (some m.2)
  | _ => none

end Stylebook.Member
