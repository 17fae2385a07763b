/-
  BlockSync.Main
  ──────────────
  **THE COMMAND LINE.**

  Reads the file of settings and the data directory that the arguments name,
  runs the command, writes the database back and prints the report.
-/
import BlockSync.CommandLine.Request
import BlockSync.Store.Listing

namespace BlockSync.CommandLine

/-- The content of an open file. -/
def readContent (file : IO.FS.Handle) : IO Settings.File := do
  try
    return .content (← file.readBinToEnd).toList
  catch _ => return .unreadable

/-- The file of settings under a path. -/
def readSettings (path : String) : IO Settings.File := do
  try
    readContent (← IO.FS.Handle.mk path .read)
  catch
    | .noFileOrDirectory .. => return .missing Settings.noSuchFile
    | e => return .missing (toString e)

/-- The file in a data directory that holds its entries. -/
def entriesPath (dataDir : String) : String := dataDir ++ "/entries"

/-- The text of the entries; a new directory has none. -/
def readEntries (dataDir : String) : IO String := do
  try
    IO.FS.readFile (entriesPath dataDir)
  catch _ => return ""

/-- The database of a data directory, which is made if it does not exist. -/
def openData (dataDir : String) : IO (Except StoreError Database) := do
  try
    IO.FS.createDirAll dataDir
    match Database.ofListing? (← readEntries dataDir) with
    | some d => return .ok d
    | none => return .error (.database "sled open: malformed entries")
  catch e => return .error (.database ("sled open: " ++ toString e))

/-- Carry out a request and print its report. -/
def perform (r : Request) : IO UInt32 := do
  let file ← match r.settingsPath with
    | some path => readSettings path
    | none => pure .unreadable
  let ready := (r.settings file).toBool
  let data ← if ready then openData r.dataDir else pure (.ok .empty)
  let (report, data) := r.run file data
  if let (true, .ok d) := (ready, data) then
    IO.FS.writeFile (entriesPath r.dataDir) d.listing
  report.lines.forM IO.println
  report.errorLines.forM IO.eprintln
  return report.code.toUInt32

end BlockSync.CommandLine

/-- The program. -/
def main (arguments : List String) : IO UInt32 := do
  match BlockSync.CommandLine.Invocation.ofArguments arguments with
  | .run request => BlockSync.CommandLine.perform request
  | .help page =>
    page.forM IO.println
    return 0
  | .misuse =>
    (BlockSync.CommandLine.Help.program false).forM IO.eprintln
    return 2
