import ClassLang.Template.Run

/-!
# Workers

How a run works on many files at once. The files are handed in one after the other. A limited
number of workers takes them up in that order, and the work on a file goes on in small steps, so the
steps on different files may mix in any order. All scopes lie in one store, where the work on a file
knows its own by its place. A schedule says which step is taken next. `runScheduled` is a run under
a schedule: it gives a report if the schedule only asks for steps that can be taken and the work on
all files has ended with it.
-/

namespace ClassLang.Template

/-! ### The work on one file -/

/-- How far the work on a file has got: before the file is read, between two classes, while the
names that describe a class are set, before and after the call of the runner, and at the end. -/
inductive Work where
  | begun
  | between (scope : Nat) (classes : List Class)
  | describing (scope : Nat) (entries : List (String × ScopeValue)) (c : Class)
      (classes : List Class)
  | calling (scope : Nat) (template : Path) (classes : List Class)
  | called (scope : Nat) (after : Except String Scope) (classes : List Class)
  | ended (result : Except Halt Bool)

def Work.isEnded : Work → Bool
  | ended _ => true
  | _ => false

/-- What a step on a file leaves: how far the work is then, the store, and what was called and
logged. -/
structure Effect where
  work : Work
  scopes : List Scope
  calls : List Call := []
  events : List Event := []

/-- The next step on the file at a path. -/
def Work.step (config : Config) (disk : Disk) (host : Host) (p : Path) (scopes : List Scope) :
    Work → Option Effect
  | begun =>
    match Source.load disk p with
    | .error .nullByte => some { work := .ended (.error .nullByte), scopes }
    | .error (.skipped reason) =>
      some { work := .ended (.ok false), scopes, events := [.skipped p reason] }
    | .ok u =>
      some { work := .between scopes.length u.classes, scopes := scopes ++ [.ofFile disk.work p] }
  | between _ [] => some { work := .ended (.ok true), scopes }
  | between scope (c :: classes) =>
    match Scope.classEntries? host.depth c with
    | none => some { work := .ended (.error .tooDeep), scopes }
    | some entries => some { work := .describing scope entries c classes, scopes }
  | describing scope (e :: entries) c classes =>
    some { work := .describing scope entries c classes,
           scopes := scopes.modify scope fun s => s.set e.1 e.2 }
  | describing scope [] c classes =>
    let (template, events) := choose config disk c.name c.primaryBase
    some { work := .calling scope template classes, scopes, events }
  | calling scope template classes =>
    scopes[scope]?.map fun s =>
      { work := .called scope (host.runner template s) classes, scopes, calls := [⟨template, s⟩] }
  | called _ (.error message) _ => some { work := .ended (.error (.runner message)), scopes }
  | called scope (.ok after) classes =>
    some { work := .between scope classes, scopes := scopes.set scope after }
  | ended _ => none

/-! ### The work on all files -/

/-- The state of a run: how many files are handed in, the work on those that have been taken up, the
store, and what was called and logged so far, each with the number of the file it belongs to. -/
structure Pool where
  submitted : Nat
  works : List Work
  scopes : List Scope
  calls : List (Nat × Call)
  events : List (Nat × Event)

/-- Which step is taken: the next file is handed in, a worker takes the next file up, or the work on
the file with this number goes on. -/
inductive Choice where
  | submit
  | start
  | advance (file : Nat)

/-- How many workers there are; none given or zero means one for each file. -/
def workerCount (config : Config) (paths : List Path) : Nat :=
  match config.maxWorkers with
  | none => paths.length
  | some n => if n = 0 then paths.length else n.toNat

namespace Pool

def empty : Pool := ⟨0, [], [], [], []⟩

/-- How many workers are at work. -/
def busy (pool : Pool) : Nat := pool.works.countP fun w => !w.isEnded

/-- The state after a step on the file with a number. -/
def record (pool : Pool) (file : Nat) (s : Effect) : Pool :=
  { pool with
    works := pool.works.set file s.work
    scopes := s.scopes
    calls := pool.calls ++ s.calls.map fun c => (file, c)
    events := pool.events ++ s.events.map fun e => (file, e) }

def step (config : Config) (disk : Disk) (host : Host) (paths : List Path) (pool : Pool) :
    Choice → Option Pool
  | .submit =>
    if pool.submitted < paths.length then some { pool with submitted := pool.submitted + 1 }
    else none
  | .start =>
    if pool.works.length < pool.submitted ∧ pool.busy < workerCount config paths then
      some { pool with works := pool.works ++ [.begun] }
    else none
  | .advance file => do
    let p ← paths[file]?
    let w ← pool.works[file]?
    let s ← w.step config disk host p pool.scopes
    return pool.record file s

/-- The state after the steps of a schedule. -/
def run (config : Config) (disk : Disk) (host : Host) (paths : List Path) (pool : Pool)
    (schedule : List Choice) : Option Pool :=
  schedule.foldlM (step config disk host paths) pool

/-- What belongs to the file with a number. -/
def ofFile {α : Type} (file : Nat) (items : List (Nat × α)) : List α :=
  items.filterMap fun (n, a) => if n = file then some a else none

/-- The report of a file on which the work has ended. -/
def report? (pool : Pool) (file : Nat) : Option Report :=
  match pool.works[file]? with
  | some (.ended result) => some ⟨result, ofFile file pool.calls, ofFile file pool.events⟩
  | _ => none

def reports? (paths : List Path) (pool : Pool) : Option (List (Path × Report)) :=
  paths.zipIdx.mapM fun (p, file) => (pool.report? file).map fun r => (p, r)

end Pool

/-! ### Whole runs -/

/-- What a run does before there are workers: it finds the files that they are to work on. -/
def opening (config : Config) (disk : Disk) :
    Except RunError (List Path) × Disk × List Event :=
  match prepare config disk with
  | (.error e, disk, events) => (.error (.disk e), disk, events)
  | (.ok _, disk, events) =>
    match Source.discover disk config.runPath config.extension with
    | .error e => (.error (.disk e), disk, events)
    | .ok paths =>
      if paths.isEmpty then
        (.ok [], disk, events ++ [.noSources config.extension config.runPath])
      else if !workersAllowed config.maxWorkers then
        (.error .workers, disk, events ++ paths.map Event.foundSource)
      else (.ok paths, disk, events ++ paths.map Event.foundSource)

/-- The state of a run after the steps of a schedule. A run that is refused has no files. -/
def play (config : Config) (disk : Disk) (host : Host) (schedule : List Choice) :
    Option Pool :=
  let (files, disk, _) := opening config disk
  Pool.empty.run config disk host (files.toOption.getD []) schedule

/-- What happened in a run under a schedule: the calls in the order in which they were made, each
with the number of the file it belongs to. -/
structure ScheduledReport where
  results : Except RunError (List (Path × Bool))
  disk : Disk
  calls : List (Nat × Call)
  events : List Event

/-- A run under a schedule, if the schedule leads to its end. -/
def runScheduled (config : Config) (disk : Disk) (host : Host) (schedule : List Choice) :
    Option ScheduledReport :=
  (play config disk host schedule).bind fun pool =>
    match opening config disk with
    | (.error e, disk, events) => some ⟨.error e, disk, pool.calls, events⟩
    | (.ok paths, disk, events) =>
      (pool.reports? paths).map fun reports =>
        ⟨.ok (reports.map fun (p, r) => (p, r.succeeded)), disk, pool.calls,
          events ++ pool.events.map Prod.snd ++ failures reports⟩

end ClassLang.Template
