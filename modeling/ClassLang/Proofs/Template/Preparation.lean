import ClassLang.Proofs.Template.Discovery
import ClassLang.Proofs.Template.Isolation

/-!
# Preparation

Preparing the template directory adds directories on the way to it and an empty default template,
and leaves all else as it was (`grows_prepare`); a run then works on the source files that are there
afterwards (`sources_of_opening`). Once there is the directory and something in the place of the
default template it has nothing left to do (`prepare_of_prepared`), so a run on the disk that
another run left works on the same files and on the same disk. Main statement: preparing destroys
nothing, and where it has made the directory it can be repeated without any effect.
-/

namespace ClassLang

/-- A path that ends in a dot has a text. -/
theorem Path.text_ne_of_baseName {p : Path} (h : p.trimmed.baseName = ".") : p.text ≠ "" := by
  intro htext
  obtain rfl | rfl := eq_of_text_eq_empty htext
  · exact absurd h (by decide)
  · exact absurd h (by decide)

namespace Template

variable {config : Config} {disk after : Disk} {host : Host} {made : Path}
  {events : List Event}

/-! ### What is added -/

/-- The entries that preparing makes: directories on the way to the template directory, and an empty
default template. -/
inductive IsMade (config : Config) : Path → Kind → Prop
  | folder {p : Path} {kind : Kind} (h : Disk.IsOnWay config.templatePath p kind) :
    IsMade config p kind
  | template : IsMade config config.defaultPath (.file [])

theorem adds_makeFolder (config : Config) (disk : Disk) :
    disk.Adds (IsMade config) (makeFolder config disk).2.1 := by
  rw [makeFolder]
  split
  · exact .same
  · exact (disk.adds_makeDirectories config.templatePath).imp fun _ _ => .folder

theorem adds_prepare (config : Config) (disk : Disk) :
    disk.Adds (IsMade config) (prepare config disk).2.1 := by
  have hfolder := adds_makeFolder config disk
  rw [prepare]
  generalize makeFolder config disk = folder at hfolder
  obtain ⟨made, mid, events⟩ := folder
  cases made with
  | error e => exact hfolder
  | ok _ =>
    cases htouch : mid.touch config.defaultPath with
    | error e =>
      simp only [htouch]
      exact hfolder
    | ok after =>
      simp only [htouch]
      refine hfolder.trans ((Disk.adds_touch htouch).imp ?_)
      rintro p kind ⟨rfl, rfl⟩
      exact .template

/-- What preparing may add to a disk: a directory at a place on the way to the template directory,
and an empty file in the place of the default template. -/
inductive Addition (config : Config) (disk : Disk) : List String → Kind → Prop
  | folder {place : List String} (h : disk.IsWaypoint config.templatePath place) :
    Addition config disk place .folder
  | template : Addition config disk (disk.placeOf config.defaultPath.names) (.file [])

theorem grows_prepare (config : Config) (disk : Disk) :
    Disk.Grows (Addition config disk) disk (prepare config disk).2.1 := by
  refine (adds_prepare config disk).grows.imp ?_
  rintro place kind ⟨p, hmade, rfl⟩
  cases hmade with
  | folder h =>
    obtain ⟨rfl, hnames⟩ := h
    exact .folder ⟨_, hnames, rfl⟩
  | template => exact .template

/-! ### What is there afterwards -/

theorem prepare_eq_ok (h : prepare config disk = (.ok made, after, events)) :
    made = config.defaultPath ∧ ∃ mid, makeFolder config disk = (.ok (), mid, events) ∧
      mid.touch config.defaultPath = .ok after := by
  rw [prepare] at h
  split at h
  · cases h
  · split at h
    · cases h
    · cases h
      exact ⟨rfl, _, ‹_›, ‹_›⟩

/-- Once the template directory has been prepared the default template is there. -/
theorem contains_of_prepare (h : prepare config disk = (.ok made, after, events)) :
    after.contains config.defaultPath = true := by
  obtain ⟨-, mid, -, htouch⟩ := prepare_eq_ok h
  exact Disk.contains_of_touch htouch

theorem isDirectory_of_makeFolder (hbase : config.templatePath.trimmed.baseName ≠ ".")
    (h : makeFolder config disk = (.ok (), after, events)) :
    after.isDirectory config.templatePath = true := by
  rw [makeFolder] at h
  split at h
  · cases h
    assumption
  · have hmade := (Prod.mk.inj h).1
    have hafter := (Prod.mk.inj (Prod.mk.inj h).2).1
    rw [← hafter]
    exact Disk.isDirectory_of_makeDirectories hbase hmade

/-- The template directory is there too, unless its path ends in a dot and the default template is
somewhere else. -/
theorem isDirectory_of_prepare (h : prepare config disk = (.ok made, after, events))
    (hpath : config.defaultTemplate.toList.head? ≠ some '/' ∨
      config.templatePath.trimmed.baseName ≠ ".") :
    after.isDirectory config.templatePath = true := by
  by_cases hbase : config.templatePath.trimmed.baseName = "."
  · have hrelative := hpath.resolve_right fun hne => hne hbase
    exact Disk.isDirectory_of_contains_join hrelative (Path.text_ne_of_baseName hbase)
      (contains_of_prepare h)
  · obtain ⟨-, mid, hfolder, htouch⟩ := prepare_eq_ok h
    exact (Disk.adds_touch htouch).grows.isDirectory (isDirectory_of_makeFolder hbase hfolder)

/-! ### What a run works on -/

theorem isProper_prepare (hdisk : disk.top.IsProper) (hpath : config.templatePath.IsSplit) :
    (prepare config disk).2.1.top.IsProper := by
  refine (adds_prepare config disk).isProper hdisk ?_
  intro p kind hmade
  cases hmade with
  | folder h => exact hpath.of_prefix h.2
  | template => exact hpath.join _

/-- A run on a proper disk works on the source files that are there once the template directory has
been prepared, those in the template directory among them. -/
theorem sources_of_opening {paths : List Path} (hafter : after.top.IsProper)
    (h : opening config disk = (.ok paths, after, events)) :
    paths = (Source.places after config.runPath config.extension).map config.runPath.below := by
  obtain ⟨-, hfound, -⟩ := opening_ok h
  refine Except.ok.inj (hfound.symm.trans (Source.discover_eq hafter ?_))
  intro hnull
  rw [Source.discover, hnull] at hfound
  cases hfound

/-! ### Once more -/

theorem prepare_of_prepared (hdir : disk.isDirectory config.templatePath = true)
    (hdefault : disk.contains config.defaultPath = true) :
    prepare config disk = (.ok config.defaultPath, disk, []) := by
  simp only [prepare, makeFolder, hdir, Disk.touch, hdefault, if_true]

/-- A run works on the files that are found once the directory has been prepared, so one that finds
it prepared works on the same files. -/
theorem opening_again (h : prepare config disk = (.ok made, after, events))
    (hagain : prepare config after = (.ok made, after, [])) :
    (opening config after).1 = (opening config disk).1 ∧ (opening config disk).2.1 = after ∧
      (opening config after).2.1 = after := by
  rw [opening, opening, h, hagain]
  cases hfound : Source.discover after config.runPath config.extension with
  | error e => simp only [hfound, and_self]
  | ok paths =>
    simp only [hfound]
    split
    · exact ⟨rfl, rfl, rfl⟩
    · split <;> exact ⟨rfl, rfl, rfl⟩

theorem run_again (h : prepare config disk = (.ok made, after, events))
    (hagain : prepare config after = (.ok made, after, [])) :
    (run config after host).results = (run config disk host).results ∧
      (run config after host).calls = (run config disk host).calls := by
  rw [run, run, h, hagain]
  cases hfound : Source.discover after config.runPath config.extension with
  | error e => simp only [hfound, and_self]
  | ok paths =>
    simp only [hfound]
    exact ⟨rfl, rfl⟩

theorem play_again (h : prepare config disk = (.ok made, after, events))
    (hagain : prepare config after = (.ok made, after, [])) (schedule : List Choice) :
    play config after host schedule = play config disk host schedule := by
  obtain ⟨hfiles, hdisk, hafter⟩ := opening_again h hagain
  show Pool.empty.run config (opening config after).2.1 host
      ((opening config after).1.toOption.getD []) schedule =
    Pool.empty.run config (opening config disk).2.1 host
      ((opening config disk).1.toOption.getD []) schedule
  rw [hfiles, hdisk, hafter]

/-- Files that are isolated from one another are called the same however often they are run. -/
theorem ScheduledReport.Isolated.calls_eq {report again : ScheduledReport}
    (h : report.Isolated config disk host) (hagain : again.Isolated config disk host)
    (hresults : again.results = report.results) (file : Nat) :
    Pool.ofFile file again.calls = Pool.ofFile file report.calls := by
  obtain ⟨e, he, hnone⟩ | ⟨paths, hfound, hok, hcalls, htags⟩ := h
  · obtain ⟨e', he', hnone'⟩ | ⟨paths', hfound', hok', -⟩ := hagain
    · rw [hnone, hnone']
    · rw [hok', he] at hresults
      cases hresults
  · obtain ⟨e', he', hnone'⟩ | ⟨paths', hfound', hok', hcalls', htags'⟩ := hagain
    · rw [he', hok] at hresults
      cases hresults
    · obtain rfl := Except.ok.inj (hfound.symm.trans hfound')
      cases hp : paths[file]? with
      | some p => rw [hcalls file p hp, hcalls' file p hp]
      | none =>
        have hlength := List.getElem?_eq_none_iff.1 hp
        rw [Pool.ofFile_eq_nil, Pool.ofFile_eq_nil]
        · intro call hcall htag
          have hlt := htags call hcall
          omega
        · intro call hcall htag
          have hlt := htags' call hcall
          omega

theorem disk_of_runScheduled {schedule : List Choice} {report : ScheduledReport}
    (h : runScheduled config disk host schedule = some report) :
    report.disk = (opening config disk).2.1 := by
  obtain ⟨pool, -, hreport⟩ := Option.bind_eq_some_iff.1 h
  cases ho : opening config disk with
  | mk files rest =>
    obtain ⟨after, events⟩ := rest
    rw [ho] at hreport
    cases files with
    | error e =>
      obtain rfl := Option.some.inj hreport
      rfl
    | ok paths =>
      obtain ⟨reports, -, rfl⟩ := Option.map_eq_some_iff.1 hreport
      rfl

/-- A run that comes after another one, on the disk that this one leaves: it comes to an end under
the same schedule, and under any schedule it gives the same entries, leaves the disk as it is and
makes the same calls for each file. -/
structure Repeats (config : Config) (disk after : Disk) (host : Host) : Prop where
  results : (run config after host).results = (run config disk host).results
  calls : (run config after host).calls = (run config disk host).calls
  ends : ∀ schedule report, runScheduled config disk host schedule = some report →
    report.disk = after ∧ (runScheduled config after host schedule).isSome = true
  same : ∀ schedule report schedule' again,
    runScheduled config disk host schedule = some report →
    runScheduled config after host schedule' = some again →
    again.results = report.results ∧ again.disk = after ∧
      ∀ file, Pool.ofFile file again.calls = Pool.ofFile file report.calls

theorem repeats (h : prepare config disk = (.ok made, after, events))
    (hagain : prepare config after = (.ok made, after, [])) (host : Host) :
    Repeats config disk after host where
  results := (run_again h hagain).1
  calls := (run_again h hagain).2
  ends := by
    intro schedule report hreport
    obtain ⟨hfiles, hdisk, -⟩ := opening_again h hagain
    refine ⟨(disk_of_runScheduled hreport).trans hdisk, ?_⟩
    obtain ⟨pool, hplay, hpool⟩ := Option.bind_eq_some_iff.1 hreport
    rw [runScheduled, play_again h hagain, hplay, Option.bind_some]
    revert hfiles hpool
    obtain ⟨files, disk', events'⟩ := opening config disk
    obtain ⟨files', after', again⟩ := opening config after
    rintro rfl hpool
    cases files' with
    | error e => rfl
    | ok paths =>
      obtain ⟨reports, hreports, -⟩ := Option.map_eq_some_iff.1 hpool
      show ((pool.reports? paths).map _).isSome = true
      rw [hreports]
      rfl
  same := by
    intro schedule report schedule' again hreport hsecond
    obtain ⟨-, -, hafter⟩ := opening_again h hagain
    have hresults : again.results = report.results := by
      rw [results_of_runScheduled hreport, results_of_runScheduled hsecond, (run_again h hagain).1]
    have hisolated := isolated_of_runScheduled hreport
    have hisolated' := isolated_of_runScheduled hsecond
    rw [h] at hisolated
    rw [hagain] at hisolated'
    exact ⟨hresults, (disk_of_runScheduled hsecond).trans hafter,
      fun file => hisolated.calls_eq hisolated' hresults file⟩

/-- Where nothing was in the place of the default template there is an empty file afterwards, unless
a directory had to be made there on the way to the template directory. -/
theorem kindAt?_default (h : prepare config disk = (.ok made, after, events))
    (hfree : disk.kindAt? (disk.placeOf config.defaultPath.names) = none) :
    after.kindAt? (disk.placeOf config.defaultPath.names) = some (.file []) ∨
      disk.IsWaypoint config.templatePath (disk.placeOf config.defaultPath.names) ∧
        after.kindAt? (disk.placeOf config.defaultPath.names) = some .folder := by
  have hgrows := grows_prepare config disk
  rw [h] at hgrows
  have hthere := contains_of_prepare h
  rw [Disk.contains] at hthere
  split at hthere
  · rename_i e hlook
    have hentry : after.top.entryAt? (disk.placeOf config.defaultPath.names) = some e := by
      rw [← hgrows.placeOf]
      exact Disk.entryAt?_of_follow (Disk.look_eq_ok.1 hlook).2
    have hkind : after.kindAt? (disk.placeOf config.defaultPath.names) = some e.kind :=
      congrArg (Option.map Entry.kind) hentry
    have hgained := hgrows.gained _ _ hfree hkind
    rw [hkind]
    generalize e.kind = kind at hgained
    cases hgained with
    | folder hway => exact .inr ⟨hway, rfl⟩
    | template => exact .inl rfl
  · cases hthere

/-- What preparing has done when nothing was refused. -/
structure Prepared (config : Config) (disk : Disk) (made : Path) (after : Disk) : Prop where
  path : made = config.defaultPath
  default : after.contains made = true
  fresh : disk.kindAt? (disk.placeOf made.names) = none →
    after.kindAt? (disk.placeOf made.names) = some (.file []) ∨
      disk.IsWaypoint config.templatePath (disk.placeOf made.names) ∧
        after.kindAt? (disk.placeOf made.names) = some .folder
  directory : config.defaultTemplate.toList.head? ≠ some '/' ∨
      config.templatePath.trimmed.baseName ≠ "." →
    after.isDirectory config.templatePath = true
  sources : disk.top.IsProper → config.templatePath.IsSplit → after.top.IsProper ∧
    ∀ paths events, opening config disk = (.ok paths, after, events) →
      paths = (Source.places after config.runPath config.extension).map config.runPath.below
  again : after.isDirectory config.templatePath = true →
    prepare config after = (.ok made, after, []) ∧
      ∀ host, Repeats config disk after host

/-- Preparing the template directory destroys nothing, whether something is refused or not: it only
adds directories on the way to it and an empty default template. When nothing was refused a run
works on all source files that are there then, and preparing can be repeated without effect wherever
the template directory is there, and it is, unless its path ends in a dot and that of the default
template starts at the root of all paths. So can a run. -/
theorem prepare_grows (config : Config) (disk : Disk) :
    Disk.Grows (Addition config disk) disk (prepare config disk).2.1 ∧
      ∀ made after events, prepare config disk = (.ok made, after, events) →
        Prepared config disk made after := by
  refine ⟨grows_prepare config disk, fun made after events h => ?_⟩
  obtain ⟨rfl, -⟩ := prepare_eq_ok h
  refine ⟨rfl, contains_of_prepare h, kindAt?_default h, isDirectory_of_prepare h,
    fun hdisk hpath => ?_, fun hdir => ?_⟩
  · have hafter := isProper_prepare hdisk hpath
    rw [h] at hafter
    exact ⟨hafter, fun paths events hopening => sources_of_opening hafter hopening⟩
  · have hagain := prepare_of_prepared hdir (contains_of_prepare h)
    exact ⟨hagain, repeats h hagain⟩

/-- A source tree into which the template directory is put. -/
def sourceDisk : Disk :=
  ⟨[], .folder "src" (.file "x.m" ("class A \x7b \x7d".toList.map fun c => c.toNat.toUInt8)
    .empty) .empty⟩

/-- Runs the classes of files by a runner that changes nothing. -/
def quietHost : Host := ⟨490, fun _ s => .ok s⟩

def insideConfig : Config :=
  { runPath := ⟨["src"]⟩, templatePath := ⟨["src", "t", "u", "."]⟩, extension := ".m" }

theorem prepare_grows_sourceDisk :
    ∃ after events,
      prepare insideConfig sourceDisk = (.ok insideConfig.defaultPath, after, events) ∧
      events = [.creatingDirectory insideConfig.templatePath] ∧
      after.kindAt? ["src", "t", "u", "empty.rhai"] = some (.file []) ∧
      prepare insideConfig after = (.ok insideConfig.defaultPath, after, []) ∧
      (run insideConfig after quietHost).results.toOption = some [(⟨["src", "x.m"]⟩, true)] := by
  obtain ⟨-, hprepared⟩ := prepare_grows insideConfig sourceDisk
  cases hprepare : prepare insideConfig sourceDisk with
  | mk made rest =>
    obtain ⟨after, events⟩ := rest
    have hmade : (prepare insideConfig sourceDisk).1 = .ok insideConfig.defaultPath := rfl
    have hevents : (prepare insideConfig sourceDisk).2.2 =
        [.creatingDirectory insideConfig.templatePath] := rfl
    have hkind : (prepare insideConfig sourceDisk).2.1.kindAt? ["src", "t", "u", "empty.rhai"] =
        some (.file []) := rfl
    have hresults : (run insideConfig sourceDisk quietHost).results.toOption =
        some [(⟨["src", "x.m"]⟩, true)] := by decide +kernel
    rw [hprepare] at hmade hevents hkind
    obtain rfl : made = .ok insideConfig.defaultPath := hmade
    have hdone := hprepared _ _ _ hprepare
    obtain ⟨hagain, hrepeats⟩ := hdone.again (hdone.directory (.inl (by decide)))
    refine ⟨after, events, rfl, hevents, hkind, hagain, ?_⟩
    rw [(hrepeats _).results, hresults]

/-- The template directory is to be that of a file, which is only seen to be one once a directory
has been made on the way to it, and there is something in the place of the default template
anyway. -/
def detourConfig : Config :=
  { runPath := ⟨["."]⟩, templatePath := ⟨["a", "..", "f", "."]⟩, defaultTemplate := "/" }

def fileDisk : Disk := ⟨[], .file "f" [] .empty⟩

/-- Preparing can give the default template without a template directory, and is refused when it is
repeated, as are runs. -/
theorem prepare_detourConfig :
    (prepare detourConfig fileDisk).1 = .ok detourConfig.defaultPath ∧
      (prepare detourConfig (prepare detourConfig fileDisk).2.1).1 =
        .error (.refused .notDirectory detourConfig.templatePath) ∧
      (run detourConfig fileDisk quietHost).results.toOption = some [] ∧
      (run detourConfig (run detourConfig fileDisk quietHost).disk quietHost).results.toOption =
        none := by
  refine ⟨rfl, rfl, ?_, ?_⟩
  · decide +kernel
  · decide +kernel

end Template

end ClassLang
