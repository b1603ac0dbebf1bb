/-
  PropertyList.Settings

  What the environment can change: the size of the input buffer, the form of the
  output, how much is logged, and two addresses in the usage text.
-/
import PropertyList.Number.Integer
import PropertyList.Text.Uppercase

namespace PropertyList

/-- Named texts of the environment. -/
abbrev Environment := List (String × Text)

/-- What can be set. -/
structure Settings where
  bufferSize : Nat := 4096
  prettyJson : Bool := false
  sortKeys : Bool := false
  logLevel : Text := Text.ofString "WARNING"
  homepage : Text := Text.ofString "https://libimobiledevice.org"
  bugReports : Text := Text.ofString "https://github.com/libimobiledevice/libplist/issues"

namespace Settings

/-- The word that selects a standard stream where a path is expected. -/
def standardStream : String := "-"

/-- A small ASCII letter for a capital one. -/
def lowerAscii (c : CodePoint) : CodePoint :=
  match c with
  | .scalar c => .scalar c.toLower
  | c => c

/-- Whether a text turns a switch on: one of four words, in any case and with blanks around. -/
def isOn (t : Text) : Bool :=
  let word := (Text.trim CodePoint.isBlank t).map lowerAscii
  ["1", "true", "yes", "on"].any fun w => word = Text.ofString w

/-- The positive integer in a text. -/
def positive? (t : Text) : Option Nat :=
  match Integer.ofDecimal? (Text.trim CodePoint.isBlank t) with
  | some n => if 0 < n then some n.toNat else none
  | none => none

/-- The names under which the environment holds settings. -/
def variableNames : List String := [
  "PLISTUTIL_STDIN_BUFFER_SIZE", "PLISTUTIL_JSON_PRETTY", "PLISTUTIL_SORT_KEYS",
  "PLISTUTIL_LOG_LEVEL", "PLISTUTIL_PACKAGE_URL", "PLISTUTIL_PACKAGE_BUGREPORT"]

/-- The settings of an environment; what is missing, or no number where one is needed, has its
    default. -/
def ofEnvironment (env : Environment) : Settings :=
  let d : Settings := {}
  let text (name : String) (default : Text) : Text := (env.lookup name).getD default
  { bufferSize := ((env.lookup "PLISTUTIL_STDIN_BUFFER_SIZE").bind positive?).getD d.bufferSize
    prettyJson := ((env.lookup "PLISTUTIL_JSON_PRETTY").map isOn).getD d.prettyJson
    sortKeys := ((env.lookup "PLISTUTIL_SORT_KEYS").map isOn).getD d.sortKeys
    logLevel := (text "PLISTUTIL_LOG_LEVEL" d.logLevel).toUpper
    homepage := text "PLISTUTIL_PACKAGE_URL" d.homepage
    bugReports := text "PLISTUTIL_PACKAGE_BUGREPORT" d.bugReports }

/-- Whether everything is logged: at the level of debugging, or with no level set. -/
def logsEverything (s : Settings) : Bool :=
  s.logLevel = Text.ofString "DEBUG" || s.logLevel = Text.ofString "NOTSET"

end Settings

end PropertyList
