import DemandPaging.Text.Lines

/-!
# Spin locks

A lock that holds a value and lends it to one owner at a time. Shown as text it tells its value, or
that the value is lent.
-/

namespace DemandPaging

/-- A value and whether it is lent. -/
structure SpinLock (α : Type) where
  data : α
  locked : Bool
deriving DecidableEq

namespace SpinLock

variable {α : Type}

/-- A lock that is free. -/
def free (data : α) : SpinLock α :=
  ⟨data, false⟩

instance [Inhabited α] : Inhabited (SpinLock α) :=
  ⟨free default⟩

/-- Takes the lock, if it is free, and lends the value. -/
def lock? (lock : SpinLock α) : Option (α × SpinLock α) :=
  if lock.locked then none else some (lock.data, { lock with locked := true })

/-- Gives the value back, as its owner left it. -/
def unlock (lock : SpinLock α) (data : α) : SpinLock α :=
  { lock with data, locked := false }

/-- The text while the value is lent. -/
def lockedText : String :=
  "SpinMutex \x7b <locked> \x7d"

/-- The lock on one line, from the text of its value. -/
def debug (render : α → String) (lock : SpinLock α) : String :=
  if lock.locked then lockedText
  else "SpinMutex \x7b data: " ++ render lock.data ++ " \x7d"

/-- The lock on several lines, from the lines of its value: the value stands indented between the
braces and a comma ends it. -/
def debugLines (render : α → List String) (lock : SpinLock α) : List String :=
  if lock.locked then [lockedText]
  else
    let value := Text.mapLast (· ++ ",") (Text.mapFirst ("data: " ++ ·) (render lock.data))
    ["SpinMutex \x7b"] ++ value.map Text.indented ++ ["\x7d"]

end SpinLock

end DemandPaging
