/-
  BlockSync.CommandLine.Arguments
  ───────────────────────────────
  **OPTIONS AND WORDS ON A COMMAND LINE.**

  An option has a letter and a name.  Its value is attached to it or is the
  next argument, and it may be given once.  The first argument that belongs to
  no option is a word, which is left to the caller with all that follows it.
-/
namespace BlockSync.CommandLine

/-! ## §1. One argument. -/

/-- An option that takes a value. -/
structure Flag where
  letter : Char
  name : String
deriving Repr, DecidableEq

/-- What a single argument is. -/
inductive Argument where
  /-- Two hyphens: no option follows. -/
  | divider
  | help (long : Bool)
  | unknown
  /-- An option whose value is the next argument. -/
  | flag (flag : Flag)
  /-- An option with its value. -/
  | assigned (flag : Flag) (value : String)
  | word
deriving Repr, DecidableEq

/-- An option whose name follows two hyphens. -/
def named (flags : List Flag) (cs : List Char) : Argument :=
  let name := String.ofList (cs.takeWhile (· ≠ '='))
  let value? := match cs.dropWhile (· ≠ '=') with
    | [] => none
    | _ :: value => some (String.ofList value)
  match flags.find? (·.name == name), value? with
  | some f, some value => .assigned f value
  | some f, none => .flag f
  | none, none => if name = "help" then .help true else .unknown
  | none, some _ => .unknown

/-- An option whose letter follows a hyphen. -/
def lettered (flags : List Flag) (letter : Char) (cs : List Char) : Argument :=
  match flags.find? (·.letter == letter), cs with
  | some f, [] => .flag f
  | some f, '=' :: value => .assigned f (String.ofList value)
  | some f, value => .assigned f (String.ofList value)
  | none, _ => if letter = 'h' then .help false else .unknown

/-- What an argument is. -/
def Argument.ofString (flags : List Flag) (s : String) : Argument :=
  match s.toList with
  | ['-', '-'] => .divider
  | '-' :: '-' :: cs => named flags cs
  | '-' :: letter :: cs => lettered flags letter cs
  | _ => .word

/-! ## §2. A list of arguments. -/

/-- The options met so far with their values. -/
abbrev Values := List (Flag × String)

/-- How the reading of arguments ends. -/
inductive Reading where
  | misuse
  | help (long : Bool)
  /-- There are options only. -/
  | options (values : Values)
  /-- A word, the options before it and what follows it. -/
  | word (word : String) (values : Values) (rest : List String)
deriving Repr, DecidableEq

/-- The options met so far and one more; none may be given twice. -/
def Values.add? (accepts : Flag → String → Bool) (values : Values) (f : Flag) (value : String) :
    Option Values :=
  if (values.lookup f).isNone && accepts f value then some ((f, value) :: values) else none

/-- **The options in front of the first word.**  What is no proper value of an
option is told by `accepts`. -/
def readArguments (flags : List Flag) (accepts : Flag → String → Bool) :
    Values → List String → Reading
  | values, [] => .options values
  | values, a :: rest =>
    match Argument.ofString flags a with
    | .divider => if rest.isEmpty then .options values else .misuse
    | .help long => .help long
    | .unknown => .misuse
    | .word => .word a values rest
    | .assigned f value =>
      match values.add? accepts f value with
      | some values => readArguments flags accepts values rest
      | none => .misuse
    | .flag f =>
      match rest with
      | value :: rest =>
        match Argument.ofString flags value, values.add? accepts f value with
        | .word, some values => readArguments flags accepts values rest
        | _, _ => .misuse
      | [] => .misuse

end BlockSync.CommandLine
