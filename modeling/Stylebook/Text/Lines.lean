/-! # Lines and columns -/

namespace Stylebook.Text

/-- Every line is ended by a newline. -/
def unlines (ls : List String) : String := String.join (ls.map (· ++ "\n"))

def spaces (n : Nat) : String := String.ofList (List.replicate n ' ')

def padRight (n : Nat) (s : String) : String := s ++ spaces (n - s.length)

def padLeft (n : Nat) (s : String) : String := spaces (n - s.length) ++ s

end Stylebook.Text
