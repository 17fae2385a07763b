/-
  BlockSync.CommandLine.Request
  ─────────────────────────────
  **FROM ARGUMENTS TO A COMMAND AND ITS SURROUNDINGS.**

  The data directory must be named, a file of settings may be; then comes the
  command with options of its own.
-/
import BlockSync.CommandLine.Arguments
import BlockSync.CommandLine.Command
import BlockSync.CommandLine.Help
import BlockSync.Settings.Document

namespace BlockSync.CommandLine

/-! ## §1. Requests. -/

/-- A command, the directory to run it on and the file of settings. -/
structure Request where
  dataDir : String
  settingsPath : Option String
  command : Command
deriving Repr, DecidableEq

/-- What a list of arguments asks for. -/
inductive Invocation where
  | run (request : Request)
  /-- Print a page of help. -/
  | help (page : List String)
  | misuse
deriving Repr, DecidableEq

/-- The option for the data directory. -/
def dataFlag : Flag := ⟨'d', "data-dir"⟩

/-- The option for the file of settings. -/
def settingsFlag : Flag := ⟨'c', "config"⟩

/-- The option for the count of hashes to show. -/
def countFlag : Flag := ⟨'n', "count"⟩

/-- How many hashes are shown where no count is given. -/
def standardCount : Nat := 10

/-- A proper value of an option: a count is a number, a path is not empty. -/
def isProper (f : Flag) (value : String) : Bool :=
  if f = countFlag then (Numeral.ofDecimal? value.toList).isSome else value ≠ ""

/-- The count that options give. -/
def countOf (values : Values) : Nat :=
  ((values.lookup countFlag).bind fun v => Numeral.ofDecimal? v.toList).getD standardCount

/-! ## §2. Reading. -/

/-- What the arguments behind the name of a command ask for, the options in
front of it being known. -/
def ofCommand (page : List String) (flags : List Flag) (command : Values → Command)
    (values : Values) (rest : List String) : Invocation :=
  match readArguments flags isProper [] rest with
  | .misuse | .word .. => .misuse
  | .help _ => .help page
  | .options own =>
    match values.lookup dataFlag with
    | some dataDir => .run ⟨dataDir, values.lookup settingsFlag, command own⟩
    | none => .misuse

/-- The page of help on a topic. -/
def helpOn : List String → Invocation
  | [] => .help (Help.program true)
  | ["status"] => .help Help.status
  | ["hashes"] => .help Help.hashes
  | ["clear"] => .help Help.clear
  | _ => .misuse

/-- **What a list of arguments asks for.** -/
def Invocation.ofArguments (arguments : List String) : Invocation :=
  match readArguments [dataFlag, settingsFlag] isProper [] arguments with
  | .misuse | .options _ => .misuse
  | .help long => .help (Help.program long)
  | .word name values rest =>
    match name with
    | "status" => ofCommand Help.status [] (fun _ => .status) values rest
    | "hashes" => ofCommand Help.hashes [countFlag] (fun own => .hashes (countOf own)) values rest
    | "clear" => ofCommand Help.clear [] (fun _ => .clear) values rest
    | "help" => helpOn rest
    | _ => .misuse

/-! ## §3. Running. -/

namespace Request

/-- The settings of a request, given the file that it names. -/
def settings (r : Request) (file : Settings.File) : Except Failure Settings :=
  match r.settingsPath with
  | none => .ok .standard
  | some path => (Settings.load path file).mapError (.settings path)

/-- **The report on a request**, and the database after it.  The settings are
read before the database is opened. -/
def run (r : Request) (file : Settings.File) (data : Except StoreError Database) :
    Report × Except StoreError Database :=
  match r.settings file with
  | .error failure => (.failed [] failure, data)
  | .ok settings =>
    match data with
    | .error e => (.failed [] (.database r.dataDir e), data)
    | .ok d =>
      let (report, d) := r.command.run settings.maxBlocksQueued d
      (report, .ok d)

end Request
end BlockSync.CommandLine
