/-!
# Listings

Items in square brackets, divided by a comma and a blank.
-/

namespace HadamardFree.Text

def listing (items : List String) : String :=
  "[" ++ ", ".intercalate items ++ "]"

def numbers (ns : List Nat) : String :=
  listing (ns.map toString)

/-- Lines divided by a line end, with none after the last. -/
def lines (ls : List String) : String :=
  "\n".intercalate ls

end HadamardFree.Text
