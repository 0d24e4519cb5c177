/-!
# Lists of lines

A value that is shown on several lines is a list of lines, so that it can be indented and set into
the lines of another value.
-/

namespace DemandPaging.Text

/-- A line set four columns to the right. -/
def indented (line : String) : String :=
  "    " ++ line

/-- The lines with the first one changed. -/
def mapFirst (f : String → String) : List String → List String
  | [] => []
  | line :: lines => f line :: lines

/-- The lines with the last one changed. -/
def mapLast (f : String → String) : List String → List String
  | [] => []
  | [line] => [f line]
  | line :: lines => line :: mapLast f lines

/-- Items in brackets on one line. -/
def bracketed (items : List String) : String :=
  "[" ++ ", ".intercalate items ++ "]"

/-- Items in brackets with a line for each of them; no items take one line only. -/
def bracketedLines : List String → List String
  | [] => ["[]"]
  | items => ["["] ++ items.map (fun item => indented item ++ ",") ++ ["]"]

end DemandPaging.Text
