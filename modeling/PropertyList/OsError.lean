/-
  PropertyList.OsError

  Failures that the operating system reports.
-/

namespace PropertyList

/-- A failure: a number with a text, a text alone, or nothing that could be shown. -/
inductive OsError where
  | system (number : Int) (text : String)
  | described (text : String)
  | bare
  deriving DecidableEq, Inhabited

namespace OsError

/-- What is said about a failure: its text, or its number if the text is empty. -/
def text : OsError → String
  | system number "" => s!"[Errno {number}] "
  | system _ text => text
  | described text => text
  | bare => ""

/-! ## Failures of paths -/

/-- Nothing is under the path. -/
def noEntry : OsError := .system 2 "No such file or directory"

/-- Something on the way is no directory. -/
def notDirectory : OsError := .system 20 "Not a directory"

/-- The path leads to a directory. -/
def isDirectory : OsError := .system 21 "Is a directory"

/-- The device takes no more bytes. -/
def noSpace : OsError := .system 28 "No space left on device"

/-- The path, or a component of it, is too long. -/
def nameTooLong : OsError := .system 36 "File name too long"

end OsError

end PropertyList
