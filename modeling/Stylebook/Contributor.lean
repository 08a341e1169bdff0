/-! # Contributors -/

namespace Stylebook

structure Contributor where
  first : String
  last : String
deriving DecidableEq, Repr

namespace Contributor

/-- Last name first, as in an index. -/
def display (c : Contributor) : String :=
  if c.first.isEmpty then c.last else c.last ++ ", " ++ c.first

end Contributor

/-- How a list of names is written. -/
structure NameFormat where
  pattern : String
  separator : String
  finalSeparator : String
deriving DecidableEq, Repr

namespace NameFormat

def usual : NameFormat := ⟨"Last, F.", ", ", " & "⟩

instance : Inhabited NameFormat := ⟨usual⟩

end NameFormat

end Stylebook
