import BlockScript.CommandLine.Arguments
import BlockScript.Compilation.Json
import BlockScript.Files
import BlockScript.Settings

/-!
# Runs

A run of the compiler on files: what it prints, what it writes, and whether it succeeds. Every file
is compiled with the settings next to it, unless the command line names a configuration file. A
problem with one file does not keep the others from being compiled.

The files are worked on at the same time. The work on a file is a sequence of steps, each of which
reads or changes the files that all of them share. A schedule says whose step is next.
-/

namespace BlockScript

/-- Why a file has no result. -/
inductive RunFault where
  | unreadable (path reason : String)
  | unwritable (reason : String)
  | configuration (path reason : String)
  | compilation (path : String) (failure : CompileFailure)

/-- The wording of a fault. -/
def RunFault.message : RunFault → String
  | .unreadable path reason => "Cannot read " ++ path ++ ": " ++ reason
  | .unwritable reason => "I/O error: " ++ reason
  | .configuration path reason => "Invalid configuration " ++ path ++ ": " ++ reason
  | .compilation path failure => path ++ ": " ++ failure.message

/-- A file that was compiled. -/
structure Built where
  /-- The compilation. -/
  compilation : Compilation
  /-- The file that was written. -/
  output : Option String

/-- The result for a file. -/
structure Report where
  /-- The source file. -/
  path : String
  /-- The result. -/
  result : Except RunFault Built

/-- How far the work on a file is. -/
inductive Work where
  | waiting
  /-- The settings have been read. -/
  | configured (settings : Settings)
  /-- The source has been read. -/
  | opened (settings : Settings) (source : Source)
  /-- The output is there, but not yet written. -/
  | compiled (compilation : Compilation)
  /-- The directories of the output are there. -/
  | housed (compilation : Compilation)
  /-- The output is written to a file of its own. -/
  | staged (compilation : Compilation)
  | finished (result : Except RunFault Built)

/-- The number of steps that are left at most. -/
def Work.left : Work → Nat
  | .waiting => 6
  | .configured _ => 5
  | .opened .. => 4
  | .compiled _ => 3
  | .housed _ => 2
  | .staged _ => 1
  | .finished _ => 0

/-- The work on a file whose output cannot be written. -/
def Work.unwritten (fault : FileFault) : Work := .finished (.error (.unwritable fault.message))

/-- A file that is worked on. -/
structure Job where
  /-- The source file. -/
  path : String
  /-- How far it is. -/
  work : Work

/-- The result for a file that is finished. -/
def Job.report? : Job → Option Report
  | ⟨path, .finished result⟩ => some ⟨path, result⟩
  | _ => none

/-- What a run leaves behind. -/
structure Outcome where
  /-- The exit code. -/
  exit : Nat := 0
  /-- What it prints. -/
  printed : String := ""
  /-- What it prints as messages. -/
  messages : String := ""
  /-- The files after it. -/
  files : Files

namespace Settings

/-- The settings in a file that must be there. -/
def load (files : Files) (path : String) : Except RunFault Settings :=
  match files.text path with
  | .error fault => .error (.unreadable path fault.message)
  | .ok text =>
    match read text with
    | some settings => .ok settings
    | none => .error (.configuration path "the file does not hold settings")

/-- The settings in a directory; without a file there are the usual ones. -/
def loadFrom (files : Files) (directory : String) : Except RunFault Settings :=
  let path := Path.config directory
  if files.holds path then load files path else .ok {}

end Settings

namespace Invocation

/-- The settings for a source file. -/
def settings (i : Invocation) (files : Files) (path : String) : Except RunFault Settings :=
  let settings := match i.config with
    | some config => Settings.load files config
    | none => Settings.loadFrom files (Path.directory path)
  settings.map (·.withDefines i.defines)

/-- Reads the settings for a source file. -/
def configure (i : Invocation) (files : Files) (path : String) : Work :=
  match i.settings files path with
  | .ok settings => .configured settings
  | .error fault => .finished (.error fault)

/-- Reads a source. -/
def openSource (files : Files) (path : String) (settings : Settings) : Work :=
  match files.source path with
  | .ok source => .opened settings source
  | .error fault => .finished (.error (.unreadable path fault.message))

/-- Compiles a source with the pictures that are there. -/
def compileSource (i : Invocation) (files : Files) (path : String) (settings : Settings)
    (source : Source) : Work :=
  match compile path Robot.catalog (files.pictures (settings.imageRootFor path)) settings.options
      source with
  | .error failure => .finished (.error (.compilation path failure))
  | .ok compilation =>
    if i.command = some .build then .compiled compilation
    else .finished (.ok ⟨compilation, none⟩)

/-- Makes the directories of an output. -/
def house (i : Invocation) (files : Files) (path : String) (compilation : Compilation) :
    Work × Files :=
  match files.makeParents (Path.output path i.out) with
  | (files, none) => (.housed compilation, files)
  | (files, some fault) => (.unwritten fault, files)

/-- Writes an output to a file of its own. -/
def stage (i : Invocation) (files : Files) (path : String) (compilation : Compilation) :
    Work × Files :=
  match files.create (Path.staging path i.out) compilation.target.json.pretty with
  | .ok files => (.staged compilation, files)
  | .error fault => (.unwritten fault, files)

/-- Renames the file that was written, so that nobody sees half of an output. It goes away in any
case. -/
def publish (i : Invocation) (files : Files) (path : String) (compilation : Compilation) :
    Work × Files :=
  let output := Path.output path i.out
  match files.rename (Path.staging path i.out) output with
  | .ok files => (.finished (.ok ⟨compilation, some output⟩), files)
  | .error fault => (.unwritten fault, files.remove (Path.staging path i.out))

/-- The next step of the work on a file. -/
def step (i : Invocation) (files : Files) (path : String) : Work → Work × Files
  | .waiting => (i.configure files path, files)
  | .configured settings => (openSource files path settings, files)
  | .opened settings source => (i.compileSource files path settings source, files)
  | .compiled compilation => i.house files path compilation
  | .housed compilation => i.stage files path compilation
  | .staged compilation => i.publish files path compilation
  | .finished result => (.finished result, files)

/-- Makes the next step of the work on one of some files. -/
def advance (i : Invocation) (run : List Job × Files) (index : Nat) : List Job × Files :=
  match run.1[index]? with
  | none => run
  | some job =>
    let (work, files) := i.step run.2 job.path job.work
    (run.1.set index { job with work }, files)

/-- Works on files from the beginning, by a schedule. -/
def workOn (i : Invocation) (files : Files) (paths : List String) (schedule : List Nat) :
    List Job × Files :=
  schedule.foldl i.advance (paths.map (⟨·, .waiting⟩), files)

/-- The schedule that finishes files one after the other. -/
def finishing (count : Nat) : List Nat :=
  (List.range count).flatMap (List.replicate Work.waiting.left)

/-- Compiles files: first by a schedule, and then one after the other until all are finished. -/
def runFiles (i : Invocation) (files : Files) (paths : List String) (schedule : List Nat) :
    List Report × Files :=
  let (jobs, files) := i.workOn files paths (schedule ++ finishing paths.length)
  (jobs.filterMap Job.report?, files)

end Invocation

/-- Whether a file has a result. -/
def Report.succeeds (r : Report) : Bool :=
  match r.result with
  | .ok _ => true
  | .error _ => false

/-- The lines that show diagnostics: one line each, or with excerpts. -/
def diagnosticLines (path : String) (diagnostics : List Diagnostic) (lines : List String)
    (short : Bool) : String :=
  String.join (diagnostics.map fun d =>
    if short then path ++ ": " ++ d.notice.short ++ "\n" else d.notice.render lines ++ "\n")

/-- What a report prints. -/
def Report.printed (r : Report) : String :=
  match r.result with
  | .ok ⟨_, some output⟩ => r.path ++ " -> " ++ output ++ "\n"
  | .ok ⟨_, none⟩ => r.path ++ ": ok\n"
  | .error _ => ""

/-- What a report prints as messages. -/
def Report.messages (short : Bool) (r : Report) : String :=
  match r.result with
  | .ok built => diagnosticLines r.path built.compilation.warnings built.compilation.lines short
  | .error (.compilation _ failure) =>
    diagnosticLines r.path failure.errors failure.lines short ++
      diagnosticLines r.path failure.warnings failure.lines short ++
      r.path ++ ": " ++ failure.message ++ "\n"
  | .error fault => "Error: " ++ fault.message ++ "\n"

/-- A report as JSON. -/
def Report.json (r : Report) : Json :=
  let path := ("path", Json.string r.path)
  match r.result with
  | .ok built =>
    .object [path, ("ok", .bool true), ("output", .ofOption .string built.output),
      ("blocks", .integer built.compilation.graph.size),
      ("warnings", .ofList Diagnostic.json built.compilation.warnings)]
  | .error (.compilation _ failure) =>
    .object [path, ("ok", .bool false), ("errors", .ofList Diagnostic.json failure.errors),
      ("warnings", .ofList Diagnostic.json failure.warnings)]
  | .error fault => .object [path, ("ok", .bool false), ("error", .string fault.message)]

/-- A text with spaces after it, up to a width. -/
def padRight (width : Nat) (text : String) : String :=
  text ++ String.ofList (List.replicate (width - text.length) ' ')

/-- The lines of an entry in the listing of a catalog. -/
def CatalogEntry.lines (e : CatalogEntry) : String :=
  padRight 9 e.category ++ " " ++ padRight 28 e.name ++ " " ++ e.description ++ "\n" ++
    String.join (e.signatures.map fun signature => padRight 9 "" ++ "   " ++ signature ++ "\n")

/-- The listing of a catalog. -/
def Catalog.text (c : Catalog) (json : Bool) : String :=
  if json then (Json.ofList CatalogEntry.json c.listing).pretty ++ "\n"
  else String.join (c.listing.map CatalogEntry.lines)

namespace Outcome

/-- The outcome of compiling files. -/
def ofReports (i : Invocation) (reports : List Report) (files : Files) : Outcome :=
  let exit := if reports.all (·.succeeds) then 0 else 1
  if i.json then
    { exit, printed := (Json.ofList Report.json reports).sorted.pretty ++ "\n", files }
  else
    { exit, printed := String.join (reports.map Report.printed),
      messages := String.join (reports.map (Report.messages (i.command = some .check))), files }

end Outcome

/-- Runs the command line on files, by a schedule. -/
def run (arguments : List String) (files : Files) (schedule : List Nat) : Outcome :=
  match Invocation.ofArguments arguments with
  | none =>
    { exit := 2, files,
      messages := "error: unexpected arguments, try 'build', 'check', 'schema' or 'catalog'\n" }
  | some i =>
    match i.command with
    | some .schema => { printed := Settings.schema.pretty ++ "\n", files }
    | some .catalog => { printed := Robot.catalog.text i.json, files }
    | _ =>
      let (reports, after) := i.runFiles files i.files schedule
      .ofReports i reports after

end BlockScript
