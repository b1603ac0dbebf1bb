/-
  PropertyList.CommandLine

  The arguments of the tool.  A word that starts with a hyphen is an option if it
  is the name of one, or starts with such a name and goes on with a value; short
  flags can share a hyphen.  Words that are neither options nor their values are
  not wanted.
-/
import PropertyList.Encoding
import PropertyList.Text.Digit
import PropertyList.Text.Printable

namespace PropertyList.CommandLine

/-! ## Options -/

/-- The options. -/
inductive Opt where
  | infile
  | outfile
  | format
  | debug
  | help
  | version
  deriving DecidableEq

namespace Opt

/-- All options. -/
def all : List Opt := [infile, outfile, format, debug, help, version]

/-- The short name of an option. -/
def short : Opt → List Char
  | infile => ['-', 'i']
  | outfile => ['-', 'o']
  | format => ['-', 'f']
  | debug => ['-', 'd']
  | help => ['-', 'h']
  | version => ['-', 'v']

/-- The long name of an option. -/
def long : Opt → List Char
  | infile => "--infile".toList
  | outfile => "--outfile".toList
  | format => "--format".toList
  | debug => "--debug".toList
  | help => "--help".toList
  | version => "--version".toList

/-- Whether an option has a value. -/
def takesValue : Opt → Bool
  | infile => true
  | outfile => true
  | format => true
  | _ => false

/-- The option with a given name. -/
def named? (name : List Char) : Option Opt := all.find? fun o => o.short = name || o.long = name

/-- Both names of an option. -/
def title (o : Opt) : String := String.ofList (o.short ++ '/' :: o.long)

end Opt

/-! ## Mistakes -/

/-- What is wrong with a command line. -/
inductive Mistake where
  | missingValue (o : Opt)
  | unwantedValue (o : Opt) (value : List Char)
  | unknownFormat
  | unwanted (words : List String)
  deriving DecidableEq

/-- The message of a mistake. -/
def Mistake.message : Mistake → String
  | missingValue o => s!"argument {o.title}: expected one argument"
  | unwantedValue o value =>
    s!"argument {o.title}: ignored explicit argument {(Text.ofChars value).quoted}"
  | unknownFormat => s!"argument {Opt.format.title}: Unsupported output format"
  | unwanted words => "unrecognized arguments: " ++ " ".intercalate words

/-! ## Words -/

/-- What a word is, as far as the word alone shows. -/
inductive Word where
  /-- A value, or a word that is not wanted. -/
  | plain (word : String)
  /-- An option, and the value that is part of the word. -/
  | option (o : Opt) (longName : Bool) (value : Option (List Char))
  /-- A word with the form of an option, but not the name of one. -/
  | unknown (word : String)
  /-- The mark behind which there are no more options. -/
  | mark
  deriving DecidableEq

/-- Whether a word is a negative number: a hyphen and digits, perhaps with a point before the last
    ones, and perhaps a line feed at the end. -/
def isNegativeNumber (word : List Char) : Bool :=
  let isDigit (c : Char) : Bool := (CodePoint.scalar c).digit?.isSome
  let word := if word.getLast? = some '\n' then word.dropLast else word
  match word with
  | '-' :: s =>
    match s.span isDigit with
    | (_ :: _, []) => true
    | (_, '.' :: t) => !t.isEmpty && t.all isDigit
    | _ => false
  | _ => false

/-- What a word is. -/
def classify (word : String) : Word :=
  let cs := word.toList
  match cs with
  | [] => .plain word
  | ['-'] => .plain word
  | '-' :: second :: tail =>
    match Opt.named? cs with
    | some o => .option o (second = '-') none
    | none =>
      let (name, value) := cs.span (· ≠ '=')
      match Opt.named? name, value with
      | some o, _ :: value => .option o (second = '-') (some value)
      | _, _ =>
        match Opt.named? ['-', second] with
        | some o => .option o false (some tail)
        | none =>
          if isNegativeNumber cs || cs.contains ' ' then .plain word else .unknown word
  | _ => .plain word

/-- What the words of a command line are.  Behind the mark all words are plain. -/
def classifyAll : List String → List Word
  | [] => []
  | w :: rest => if w = "--" then .mark :: rest.map .plain else classify w :: classifyAll rest

/-! ## Arguments -/

/-- The value of an option; a value that is the mark itself drops out. -/
inductive Given (α : Type) where
  | value (a : α)
  | dropped

/-- What a command line asks for. -/
structure Arguments where
  infile : Option String := none
  outfile : Option String := none
  format : Given Selector := .value .auto
  debug : Bool := false
  help : Bool := false
  version : Bool := false

/-- Sets an option to a value. -/
def Arguments.set (a : Arguments) (o : Opt) (value : List Char) : Except Mistake Arguments :=
  let path : Option String := if value = ['-', '-'] then none else some (String.ofList value)
  match o with
  | .infile => .ok { a with infile := path }
  | .outfile => .ok { a with outfile := path }
  | .format =>
    if value = ['-', '-'] then .ok { a with format := .dropped }
    else
      match Selector.ofWord? value with
      | some s => .ok { a with format := .value s }
      | none => .error .unknownFormat
  | _ => .ok a

/-- Sets a flag. -/
def Arguments.raise (a : Arguments) (o : Opt) : Arguments :=
  match o with
  | .debug => { a with debug := true }
  | .help => { a with help := true }
  | .version => { a with version := true }
  | _ => a

/-- The options in one word: flags, of which all but the first follow in `value`, and perhaps an
    option with a value at the end.  If that option lacks its value, it is the second result. -/
def Arguments.takeWord (a : Arguments) (o : Opt) (longName : Bool) :
    Option (List Char) → Except Mistake (Arguments × Option Opt)
  | none => if o.takesValue then .ok (a, some o) else .ok (a.raise o, none)
  | some value =>
    if o.takesValue then (a.set o value).map (·, none)
    else
      match value with
      | [] => .error (.unwantedValue o [])
      | c :: rest =>
        if longName then .error (.unwantedValue o (c :: rest))
        else
          match Opt.named? ['-', c] with
          | none => .error (.unwantedValue o (c :: rest))
          | some next =>
            match rest with
            | [] => takeWord (a.raise o) next false none
            | d :: rest => takeWord (a.raise o) next false (some (d :: rest))

/-- Takes the words one after the other; `unwanted` holds those that are not wanted, the last one
    first. -/
def takeWords (a : Arguments) (unwanted : List String) :
    List Word → Except Mistake (Arguments × List String)
  | [] => .ok (a, unwanted.reverse)
  | .plain w :: rest => takeWords a (w :: unwanted) rest
  | .unknown w :: rest => takeWords a (w :: unwanted) rest
  | .mark :: rest => takeWords a ("--" :: unwanted) rest
  | .option o longName value :: rest => do
    let (a, pending) ← a.takeWord o longName value
    match pending with
    | none => takeWords a unwanted rest
    | some o =>
      match rest with
      | .plain w :: rest => do
        let a ← a.set o w.toList
        takeWords a unwanted rest
      | _ => .error (.missingValue o)

/-- The arguments of a command line. -/
def parse (words : List String) : Except Mistake Arguments := do
  let (a, unwanted) ← takeWords {} [] (classifyAll words)
  if unwanted.isEmpty then .ok a else .error (.unwanted unwanted)

end PropertyList.CommandLine
