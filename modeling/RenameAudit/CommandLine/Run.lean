import RenameAudit.Archive.Zip.Files
import RenameAudit.Auditor
import RenameAudit.CommandLine.Options
import RenameAudit.Files.Basic
import RenameAudit.Settings.LogEvent
import RenameAudit.Settings.Reader
import RenameAudit.Text.Blank
/-!
# CommandLine.Run — a whole audit

A run takes its settings, its tables and its class files from where the options say, in a fixed order, and ends at the
first that cannot be read.  The jar comes before the libraries, so that its classes win over those of the same name.  The
log begins after the settings, and what is read later may be the file of the log itself.
-/
namespace RenameAudit

/-- Why a table cannot be read. -/
inductive LoadFault where
  | file (path : String) (fault : FileFault)
  | table (fault : TableFault)
  deriving DecidableEq, Repr

/-- The words of the report. -/
def LoadFault.message : LoadFault → String
  | file path fault => "failed to read " ++ path ++ ": " ++ fault.message
  | table fault => fault.message

/-- Why class files cannot be read. -/
inductive ArchiveFault where
  | file (path : String) (fault : FileFault)
  | zip (path : String) (fault : JarFault Zip.EntryFault)
  deriving DecidableEq, Repr

/-- The words of the report. -/
def ArchiveFault.message : ArchiveFault → String
  | file path fault => "failed to open archive " ++ path ++ ": " ++ fault.message
  | zip _ .noArchive => "failed to read zip"
  | zip path (.entry index fault) => "failed to read entry " ++ toString index ++ " of " ++ path ++ ": " ++ fault.message
  | zip path (.contents name fault) => "failed to read " ++ name ++ " from " ++ path ++ ": " ++ fault.message

/-- Why a run ends without a report. -/
inductive RunFault where
  | settingsFile (path : String) (fault : FileFault)
  | settings
  | renameTable (path : String) (fault : LoadFault)
  | sideTable (fault : LoadFault)
  | task (fault : UnknownTask)
  | jar (path : String) (fault : ArchiveFault)
  | libraryList (path : String) (fault : FileFault)
  | library (path : String) (fault : ArchiveFault)
  deriving DecidableEq, Repr

/-- The words of the report. -/
def RunFault.message : RunFault → String
  | settingsFile path fault => "failed to read config file " ++ path ++ ": " ++ fault.message ++ ": " ++ fault.message
  | settings => "failed to parse toml config"
  | renameTable path fault => "failed to load mappings from " ++ path ++ ": " ++ fault.message
  | sideTable fault => fault.message
  | task fault => fault.message
  | jar path fault => "failed to load " ++ path ++ ": " ++ fault.message
  | libraryList path fault => "failed to read library list " ++ path ++ ": " ++ fault.message
  | library path fault => "failed to load library " ++ path ++ ": " ++ fault.message

/-- What a program leaves: its code, what it prints, and its complaint. -/
structure Outcome where
  code : Nat
  output : String
  complaint : Option String
  deriving DecidableEq, Repr

namespace Options

/-- The settings with the options on top. -/
def apply (o : Options) (s : Settings) : Settings :=
  { s with
    tasks := if o.tasks.isEmpty then s.tasks else o.tasks
    logging :=
      { s.logging with
        file := o.log.or s.logging.file
        level := if o.verbose then "debug" else s.logging.level } }

end Options

/-- The paths of a list of libraries, one a line.  A number sign begins a comment, and a mark before the path does not
count. -/
def libraryPaths (text : String) : List String :=
  (Text.splitOn '\n' text.toList).filterMap fun line =>
    let content := Text.trim (line.takeWhile (· != '#'))
    if content.isEmpty then none
    else some (String.ofList ((Text.after? "-e=".toList content).getD content))

namespace Run

variable {m : Type → Type} [Monad m]

/-- The text of a file. -/
def readText (look : Lookup m) (path : String) : m (Except FileFault String) := do
  return (← look path).bind Place.text

/-- The table of a file. -/
def readTable {α : Type} (look : Lookup m) (parse : String → Except TableFault α) (path : String) :
    m (Except LoadFault α) := do
  match ← readText look path with
  | .error fault => return .error (.file path fault)
  | .ok text => return (parse text).mapError .table

/-- The classes of a jar or a folder. -/
def readClasses (look : Lookup m) (path : String) : m (Except ArchiveFault (List ArchivedClass)) := do
  match ← look path with
  | .error fault => return .error (.file path fault)
  | .ok (.folder files) => return .ok (Archive.ofFolder files)
  | .ok (.file contents) => return (Archive.readJar Zip.library contents).mapError (.zip path)

/-- A computation whose fault is a fault of the run. -/
def orElse {α ε : Type} (fault : ε → RunFault) (x : m (Except ε α)) : ExceptT RunFault m α :=
  .mk do return (← x).mapError fault

/-- The settings that a file may give. -/
def readSettings (look : Lookup m) : Option String → ExceptT RunFault m Settings
  | none => return .default
  | some path => do
    let text ← orElse (.settingsFile path) (readText look path)
    match Settings.parse text with
    | some s => return s
    | none => throw .settings

/-- The libraries of a list that may be given. -/
def readLibraryList (look : Lookup m) : Option String → ExceptT RunFault m (List String)
  | none => return []
  | some path => libraryPaths <$> orElse (.libraryList path) (readText look path)

/-! ## The log -/

/-- The log of a run: its settings, and its file where that can be written. -/
structure Log where
  settings : LogSettings
  file : Option String

/-- The log with its file made, if there is to be one. -/
def openLog (disk : Disk m) (settings : LogSettings) : ExceptT RunFault m Log := .lift do
  match settings.file with
  | none => return ⟨settings, none⟩
  | some path => return ⟨settings, if ← disk.append path "" then some path else none⟩

/-- Writes an event to the file of the log. -/
def Log.write (disk : Disk m) (log : Log) (e : LogEvent) : ExceptT RunFault m Unit := .lift do
  match log.file with
  | none => return
  | some path =>
    if LogFilter.takes (log.settings.filter none) e then
      let _ ← disk.append path (e.line log.settings.json (← disk.now))

/-- The event that a rename table was read. -/
def tableRead (path : String) (t : RenameTable) : LogEvent :=
  ⟨.info, "mapverify_mappings::mappings", "loaded mappings", [("path", .string path), ("classes", .number t.classCount)]⟩

/-- The event that something for the auditor was read. -/
def partRead (message path : String) (fields : List (String × JsonValue)) : LogEvent :=
  ⟨.info, "mapverify_checks::verifier", message, ("path", .string path) :: fields⟩

/-! ## The audit -/

/-- The auditor with the classes of an archive, unless that cannot be read. -/
def loadArchive (disk : Disk m) (log : Log) (a : Auditor) (owned : Bool) (path : String)
    (fault : ArchiveFault → RunFault) : ExceptT RunFault m Auditor := do
  let classes ← orElse fault (readClasses disk.look path)
  let (a, count) := a.loadAll (classes.map (·.bytes)) owned
  log.write disk (partRead "loaded archive" path [("owned", .bool owned), ("classes", .number count)])
  return a

/-- The auditor with the classes of libraries. -/
def loadLibraries (disk : Disk m) (log : Log) (a : Auditor) : List String → ExceptT RunFault m Auditor
  | [] => return a
  | path :: rest => do
    let a ← loadArchive disk log a false path (.library path)
    loadLibraries disk log a rest

/-- The rename table of a file. -/
def loadTable (disk : Disk m) (log : Log) (path : String) : ExceptT RunFault m RenameTable := do
  let table ← orElse (.renameTable path) (readTable disk.look RenameTable.parse path)
  log.write disk (tableRead path table)
  return table

/-- The constructor table of a file that may be given. -/
def loadConstructors (disk : Disk m) (log : Log) : Option String → ExceptT RunFault m (Option ConstructorTable)
  | none => return none
  | some path => do
    let table ← orElse .sideTable (readTable disk.look ConstructorTable.parse path)
    log.write disk (partRead "loaded constructor ids" path [("entries", .number table.size)])
    return some table

/-- The suffix table of a file that may be given. -/
def loadSuffixes (disk : Disk m) (log : Log) : Option String → ExceptT RunFault m (Option SuffixTable)
  | none => return none
  | some path => do
    let table ← orElse .sideTable (readTable disk.look SuffixTable.parse path)
    log.write disk (partRead "loaded class suffixes" path [])
    return some table

/-- The report of an audit. -/
def report (disk : Disk m) (jar map : String) (o : Options) : ExceptT RunFault m AuditReport := do
  let settings := o.apply (← readSettings disk.look o.config)
  let log ← openLog disk settings.logging
  let table ← loadTable disk log map
  let (auditor, unknown) := (Auditor.new table).configure settings
  if let some unknown := unknown then throw (.task unknown)
  let constructors ← loadConstructors disk log o.constructors
  let suffixes ← loadSuffixes disk log o.suffixes
  let auditor ← loadArchive disk log { auditor with constructors, suffixes } true jar (.jar jar)
  let listed ← readLibraryList disk.look o.libraryList
  let auditor ← loadLibraries disk log auditor (o.libraries ++ listed)
  return auditor.run.2

/-! ## What a run leaves -/

/-- Lines of text. -/
def unlines (lines : List String) : String :=
  String.join (lines.map (· ++ "\n"))

/-- What a report leaves: code zero where every task has passed, and else one. -/
def ofReport (json : Bool) (r : AuditReport) : Outcome where
  code := if r.passed then 0 else 1
  output := if json then r.toJson.text ++ "\n" else unlines r.lines
  complaint := none

/-- The answer to the question for the version. -/
def versionText : String := "mapverify 0.1.0\n"

/-- The answer to the question for help. -/
def helpText : String :=
  unlines
    ["Check a rename mapping against the jar it renames",
     "",
     "Usage: mapverify [OPTIONS] --jar <JAR> --map <MAP>",
     "",
     "Options:",
     "      --jar <JAR>            Jar (or exploded class directory) the mappings rename",
     "      --map <MAP>            Mapping file (SRG, CSRG, TSRG or TSRG2)",
     "      --lib <JAR>            Library jar the classes under test reference (repeatable)",
     "      --libs <FILE>          File listing library jars, one per line",
     "      --ctrs <CTRS>          Constructor id table (`<id> <class> <descriptor>` per line)",
     "      --suffixes <SUFFIXES>  Class suffix table (`<ancestor> <Suffix>` per line)",
     "      --task <NAME>          Task to run (repeatable); defaults to accesslevels, overridenames and uniqueids",
     "      --config <CONFIG>      TOML configuration file",
     "      --log <LOG>            Append log output to this file",
     "  -v, --verbose              Log at debug level",
     "      --json                 Emit the report as JSON",
     "  -h, --help                 Print help",
     "  -V, --version              Print version"]

/-- What a request leaves. -/
def answer (disk : Disk m) : Request → m Outcome
  | .help => return ⟨0, helpText, none⟩
  | .version => return ⟨0, versionText, none⟩
  | .run jar map o => do
    match ← (report disk jar map o).run with
    | .ok r => return ofReport o.json r
    | .error fault => return ⟨2, "", some fault.message⟩

end Run
end RenameAudit
