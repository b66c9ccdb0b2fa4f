/-!
# Text of lists

How messages write lists of sizes. An unknown size is `None` and a known one `Some(n)` where both
can occur; where all are known the sizes stand alone.
-/

namespace TensorLowering.Text

/-- The entries between square brackets, separated by a comma and a blank. -/
def list (entries : List String) : String :=
  "[" ++ ", ".intercalate entries ++ "]"

def naturals (ns : List Nat) : String :=
  list (ns.map toString)

def integers (ns : List Int) : String :=
  list (ns.map toString)

/-- Sizes of which some may be unknown. -/
def sizes (dims : List (Option Nat)) : String :=
  list (dims.map fun
    | some n => s!"Some({n})"
    | none => "None")

end TensorLowering.Text
