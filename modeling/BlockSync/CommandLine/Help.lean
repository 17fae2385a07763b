/-
  BlockSync.CommandLine.Help
  ──────────────────────────
  **THE PAGES OF HELP.**
-/
namespace BlockSync.CommandLine.Help

/-- What the program is for, in one line. -/
def purpose : String := "Inspect or reset a persisted block sync queue"

/-- How the program is called. -/
def usage : String := "Usage: block_queue [OPTIONS] --data-dir <DATA_DIR> <COMMAND>"

/-- The commands with what they do. -/
def commands : List String :=
  ["Commands:",
    "  status  Print queue sizes and the current sync target",
    "  hashes  List hashes at the front of the frontier without removing them",
    "  clear   Remove every queued hash and block",
    "  help    Print this message or the help of the given subcommand(s)"]

/-- The page about the program, in few words or in many. -/
def program (long : Bool) : List String :=
  if long then
    [purpose ++ ".", "",
      "The stores are opened without an import worker, so nothing is consumed.", "",
      usage, ""] ++ commands ++
    ["", "Options:",
      "  -d, --data-dir <DATA_DIR>", "          Directory holding the sled database", "",
      "  -c, --config <CONFIG>", "          YAML file with sync settings", "",
      "  -h, --help", "          Print help (see a summary with '-h')"]
  else
    [purpose, "", usage, ""] ++ commands ++
    ["", "Options:",
      "  -d, --data-dir <DATA_DIR>  Directory holding the sled database",
      "  -c, --config <CONFIG>      YAML file with sync settings",
      "  -h, --help                 Print help (see more with '--help')"]

/-- The page about a command without options of its own. -/
def plainCommand (name does : String) : List String :=
  [does, "", "Usage: block_queue --data-dir <DATA_DIR> " ++ name, "", "Options:",
    "  -h, --help  Print help"]

/-- The page about `status`. -/
def status : List String :=
  plainCommand "status" "Print queue sizes and the current sync target"

/-- The page about `clear`. -/
def clear : List String :=
  plainCommand "clear" "Remove every queued hash and block"

/-- The page about `hashes`. -/
def hashes : List String :=
  ["List hashes at the front of the frontier without removing them", "",
    "Usage: block_queue --data-dir <DATA_DIR> hashes [OPTIONS]", "", "Options:",
    "  -n, --count <COUNT>  [default: 10]",
    "  -h, --help           Print help"]

end BlockSync.CommandLine.Help
