/-!
# Error numbers

The recoverable failures of an operation, each with the negative number and the text that a process
sees.
-/

namespace DemandPaging

/-- Why an operation was refused. -/
inductive Errno where
  /-- A file delivered fewer bytes than it promised. -/
  | ioError
  /-- A descriptor names no file that can be mapped. -/
  | badFile
  /-- An address is not valid for the access. -/
  | badAddress
  /-- A page is registered there already. -/
  | alreadyExists
  /-- An argument is malformed or out of range. -/
  | invalidArgument
deriving DecidableEq, Inhabited

namespace Errno

/-- Every error number. -/
def all : List Errno :=
  [ioError, badFile, badAddress, alreadyExists, invalidArgument]

/-- The number that stands for the error. -/
def code : Errno → Int
  | ioError => -5
  | badFile => -9
  | badAddress => -14
  | alreadyExists => -17
  | invalidArgument => -22

/-- The symbol of the error. -/
def symbol : Errno → String
  | ioError => "EIO"
  | badFile => "EBADF"
  | badAddress => "EFAULT"
  | alreadyExists => "EEXIST"
  | invalidArgument => "EINVAL"

/-- What the error means. -/
def meaning : Errno → String
  | ioError => "I/O error."
  | badFile => "Bad file number."
  | badAddress => "Bad address."
  | alreadyExists => "File exists."
  | invalidArgument => "Invalid argument."

/-- The text of the error: its symbol and, in quotes, its meaning. -/
def message (e : Errno) : String :=
  e.symbol ++ ", \"" ++ e.meaning ++ "\""

/-- The error as a diagnostic shows it. -/
def debug (e : Errno) : String :=
  s!"Error({e.code})"

/-- The error that a number stands for. -/
def ofCode? (code : Int) : Option Errno :=
  all.find? fun e => e.code = code

/-- The text for any number; numbers that stand for no error share one text. -/
def describe (code : Int) : String :=
  ((ofCode? code).map message).getD "unknown errno"

theorem ofCode?_code (e : Errno) : ofCode? e.code = some e := by
  cases e <;> rfl

theorem describe_code (e : Errno) : describe e.code = e.message := by
  rw [describe, ofCode?_code]
  rfl

end Errno

end DemandPaging
