import DemandPaging.Log.Level

/-!
# The console logger

The logger is installed once, with a filter of its own; from then on the filter of the program can
change but the logger cannot be replaced. A record reaches the console if it passes both filters.
-/

namespace DemandPaging

/-- The state of logging. -/
structure Console where
  /-- The filter of the installed logger. -/
  logger : Option LevelFilter
  /-- The filter of the program. -/
  limit : LevelFilter
deriving DecidableEq

namespace Console

/-- Logging before a logger is installed. -/
def bare : Console :=
  ⟨none, .off⟩

/-- Installs a logger and makes its filter the program's, unless a logger is installed already. -/
def install (console : Console) (filter : LevelFilter) : Console :=
  match console.logger with
  | none => ⟨some filter, filter⟩
  | some _ => console

/-- The filter of a logger that is installed without a level: nothing passes it. -/
def defaultFilter : LevelFilter :=
  .off

/-- Changes the filter of the program. -/
def setLimit (console : Console) (limit : LevelFilter) : Console :=
  { console with limit }

/-- The line that reaches the console for a record, if one does. -/
def line? (console : Console) (level : Level) (text : String) : Option String :=
  match console.logger with
  | none => none
  | some filter =>
    if console.limit.passes level && filter.passes level then some (level.line text) else none

end Console

end DemandPaging
