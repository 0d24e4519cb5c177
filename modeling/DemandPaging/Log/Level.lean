/-!
# Log levels

Levels are ordered from the most severe to the most detailed. A filter lets a level pass, and with
it every level that is more severe.
-/

namespace DemandPaging

/-- How severe a log record is. -/
inductive Level where
  | error
  | warn
  | info
  | debug
  | trace
deriving DecidableEq

namespace Level

/-- Every level, the most severe first. -/
def all : List Level :=
  [error, warn, info, debug, trace]

/-- The place of a level; the most severe comes first. -/
def rank : Level → Nat
  | error => 1
  | warn => 2
  | info => 3
  | debug => 4
  | trace => 5

/-- The name of a level. -/
def name : Level → String
  | error => "ERROR"
  | warn => "WARN"
  | info => "INFO"
  | debug => "DEBUG"
  | trace => "TRACE"

/-- The terminal colour of a level. -/
def colour : Level → Nat
  | error => 31
  | warn => 93
  | info => 34
  | debug => 32
  | trace => 90

/-- The level of a name. -/
def ofName? (name : String) : Option Level :=
  all.find? fun level => level.name = name

/-- The line for a record: the level in brackets, five columns wide, then the text, all of it in
the colour of the level. -/
def line (level : Level) (text : String) : String :=
  let padding := String.ofList (List.replicate (5 - level.name.length) ' ')
  s!"\x1b[{level.colour}m[" ++ padding ++ level.name ++ "] " ++ text ++ "\x1b[0m\n"

end Level

/-- The most detailed level that passes; nothing passes a filter that is off. -/
inductive LevelFilter where
  | off
  | upTo (level : Level)
deriving DecidableEq

namespace LevelFilter

/-- Whether records of a level pass. -/
def passes : LevelFilter → Level → Bool
  | off, _ => false
  | upTo limit, level => level.rank ≤ limit.rank

/-- The name of a filter. -/
def name : LevelFilter → String
  | off => "OFF"
  | upTo level => level.name

/-- The filter of a name. -/
def ofName? (name : String) : Option LevelFilter :=
  if name = "OFF" then some off else (Level.ofName? name).map upTo

end LevelFilter

end DemandPaging
