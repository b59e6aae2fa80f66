import ClassLang.Template.Directory
import ClassLang.Template.Scope
import ClassLang.Template.Source

/-!
# Running templates

A runner executes one template on a scope; it may change the scope and it may fail. `runFile` calls
it for each class of one file in order and stops at the first failure, or at the first class that
has no view. `run` does so for every source file: each file has its own scope, and a failure in one
file leaves the others alone. A failure is one that a run goes on after; what ends a run as a whole,
such as an interrupt or an exit that is asked for, is no failure here.
-/

namespace ClassLang.Template

/-- Executes a template: gives the scope afterwards, or the message of a failure. -/
abbrev Runner := Path → Scope → Except String Scope

/-- What the classes of files are run by: a runner, and how deep calls can be nested where the views
of a class are built. -/
structure Host where
  depth : Nat
  runner : Runner

/-- One execution: the template and the scope it was given. -/
structure Call where
  template : Path
  scope : Scope

/-- Why the work on a file is broken off. -/
inductive Halt where
  | runner (message : String)
  | tooDeep
  | nullByte
  deriving DecidableEq

def Halt.text : Halt → String
  | runner message => message
  | tooDeep => "maximum recursion depth exceeded"
  | nullByte => DiskError.nullByte.text

/-- What happened to one file: whether it was run, or why the work was broken off, with all calls
and events in order. -/
structure Report where
  result : Except Halt Bool
  calls : List Call
  events : List Event

namespace Report

def prepend (call : Call) (events : List Event) (r : Report) : Report :=
  ⟨r.result, call :: r.calls, events ++ r.events⟩

/-- Whether the work on a file came to its end and the file was not skipped. -/
def succeeded (r : Report) : Bool :=
  match r.result with
  | .ok b => b
  | .error _ => false

end Report

/-- Runs the templates of classes on one scope. -/
def runClasses (config : Config) (disk : Disk) (host : Host) : Scope → List Class → Report
  | _, [] => ⟨.ok true, [], []⟩
  | scope, c :: cs =>
    match Scope.classEntries? host.depth c with
    | none => ⟨.error .tooDeep, [], []⟩
    | some entries =>
      let scope := scope.setAll entries
      let (template, events) := choose config disk c.name c.primaryBase
      match host.runner template scope with
      | .error message => ⟨.error (.runner message), [⟨template, scope⟩], events⟩
      | .ok after => (runClasses config disk host after cs).prepend ⟨template, scope⟩ events

/-- Runs the templates of a file. A file that is skipped makes no call. -/
def runFile (config : Config) (disk : Disk) (host : Host) (p : Path) : Report :=
  match Source.load disk p with
  | .error .nullByte => ⟨.error .nullByte, [], []⟩
  | .error (.skipped reason) => ⟨.ok false, [], [.skipped p reason]⟩
  | .ok u => runClasses config disk host (.ofFile disk.work p) u.classes

inductive RunError where
  | disk (e : DiskError)
  | workers
  deriving DecidableEq

def RunError.text : RunError → String
  | .disk e => e.text
  | .workers => "max_workers must be greater than 0"

/-- What happened in a run: for each file whether it was run, in the order of discovery. -/
structure RunReport where
  results : Except RunError (List (Path × Bool))
  disk : Disk
  calls : List Call
  events : List Event

/-- The report of a run before which something was logged. -/
def RunReport.after (events : List Event) (r : RunReport) : RunReport :=
  { r with events := events ++ r.events }

/-- Whether so many workers can be had; none given or zero means one for each file. -/
def workersAllowed : Option Int → Bool
  | none => true
  | some n => 0 ≤ n

/-- The events at the end of a run: one for each file on which the work was broken off. -/
def failures (reports : List (Path × Report)) : List Event :=
  reports.filterMap fun (p, r) =>
    match r.result with
    | .ok _ => none
    | .error _ => some (.runFailed p)

/-- Runs the templates of the given files, which are all there is to run. -/
def runFiles (config : Config) (disk : Disk) (host : Host) (paths : List Path) : RunReport :=
  let found := paths.map Event.foundSource
  if paths.isEmpty then ⟨.ok [], disk, [], [.noSources config.extension config.runPath]⟩
  else if !workersAllowed config.maxWorkers then ⟨.error .workers, disk, [], found⟩
  else
    let reports := paths.map fun p => (p, runFile config disk host p)
    ⟨.ok (reports.map fun (p, r) => (p, r.succeeded)), disk,
      reports.flatMap fun (_, r) => r.calls,
      found ++ (reports.flatMap fun (_, r) => r.events) ++ failures reports⟩

/-- Runs the templates of all source files. -/
def run (config : Config) (disk : Disk) (host : Host) : RunReport :=
  match prepare config disk with
  | (.error e, disk, events) => ⟨.error (.disk e), disk, [], events⟩
  | (.ok _, disk, events) =>
    match Source.discover disk config.runPath config.extension with
    | .error e => ⟨.error (.disk e), disk, [], events⟩
    | .ok paths => (runFiles config disk host paths).after events

end ClassLang.Template
