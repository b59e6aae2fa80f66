import ClassLang.Template.Pool

/-!
# Files under a schedule

What is left to be done on a file depends on the file, on how far the work on it has got and on the
scope it holds in the store, and a step on it only moves something from what is left to what has
been done. No two files hold the same scope, so a step on one file leaves alone what is left of the
others. Main statement: whatever the schedule, what happens to a file is what happens when it is run
on its own.
-/

namespace ClassLang.Template

variable {config : Config} {disk : Disk} {host : Host} {p : Path}

/-! ### What is left of a file -/

/-- A report with something in front. -/
def Report.before (r : Report) (calls : List Call) (events : List Event) : Report :=
  ⟨r.result, calls ++ r.calls, events ++ r.events⟩

@[simp]
theorem Report.before_nil (r : Report) : r.before [] [] = r := rfl

theorem Report.before_before (r : Report) (cs ds : List Call) (es fs : List Event) :
    (r.before ds fs).before cs es = r.before (cs ++ ds) (es ++ fs) := by
  simp [before]

/-- What happens from the call of the runner for a class on. -/
def execute (config : Config) (disk : Disk) (host : Host) (template : Path) (scope : Scope)
    (classes : List Class) : Report :=
  match host.runner template scope with
  | .error message => ⟨.error (.runner message), [⟨template, scope⟩], []⟩
  | .ok after => (runClasses config disk host after classes).before [⟨template, scope⟩] []

variable {c : Class} {classes : List Class}

/-- Nothing is called for a class that has no view. -/
theorem runClasses_of_none (h : Scope.classEntries? host.depth c = none) (scope : Scope) :
    runClasses config disk host scope (c :: classes) = ⟨.error .tooDeep, [], []⟩ := by
  rw [runClasses, h]

theorem runClasses_of_some {entries : List (String × ScopeValue)}
    (h : Scope.classEntries? host.depth c = some entries) (scope : Scope) :
    runClasses config disk host scope (c :: classes) =
      (execute config disk host (choose config disk c.name c.primaryBase).1
        (scope.setAll entries) classes).before [] (choose config disk c.name c.primaryBase).2 := by
  simp only [runClasses, h, execute]
  cases host.runner (choose config disk c.name c.primaryBase).1 (scope.setAll entries) with
  | error message => simp [Report.before]
  | ok after => simp [Report.before, Report.prepend]

def scopeAt (scopes : List Scope) (place : Nat) : Scope := scopes[place]?.getD ⟨[]⟩

namespace Work

/-- The place of the scope that the work on a file holds. -/
def holds? : Work → Option Nat
  | between scope _ => some scope
  | describing scope _ _ _ => some scope
  | calling scope _ _ => some scope
  | called scope _ _ => some scope
  | _ => none

/-- What happens on a file from now on, if nothing else touches its scope. -/
def remaining (config : Config) (disk : Disk) (host : Host) (p : Path) (scopes : List Scope) :
    Work → Report
  | begun => runFile config disk host p
  | between place classes => runClasses config disk host (scopeAt scopes place) classes
  | describing place entries c classes =>
    (execute config disk host (choose config disk c.name c.primaryBase).1
      ((scopeAt scopes place).setAll entries) classes).before []
      (choose config disk c.name c.primaryBase).2
  | calling place template classes =>
    execute config disk host template (scopeAt scopes place) classes
  | called _ (.error message) _ => ⟨.error (.runner message), [], []⟩
  | called _ (.ok after) classes => runClasses config disk host after classes
  | ended result => ⟨result, [], []⟩

variable {w : Work} {scopes scopes' : List Scope} {s : Effect}

/-- What is left depends on no scope but the one that is held. -/
theorem remaining_congr (h : ∀ place, w.holds? = some place → scopes'[place]? = scopes[place]?) :
    w.remaining config disk host p scopes' = w.remaining config disk host p scopes := by
  have hscope : ∀ place, w.holds? = some place → scopeAt scopes' place = scopeAt scopes place := by
    intro place hplace
    rw [scopeAt, scopeAt, h place hplace]
  cases w with
  | begun => rfl
  | between place classes => simp only [remaining, hscope place rfl]
  | describing place entries c classes => simp only [remaining, hscope place rfl]
  | calling place template classes => simp only [remaining, hscope place rfl]
  | called place after classes => cases after <;> rfl
  | ended result => rfl

/-! ### One step on a file -/

/-- The steps on a file: it is read; for each of its classes the names that describe the class are
set one by one, a template is chosen, the runner is called and the scope that it leaves is stored.
-/
inductive Advance (config : Config) (disk : Disk) (host : Host) (p : Path) (scopes : List Scope) :
    Work → Effect → Prop
  | nullByte : Source.load disk p = .error .nullByte →
    Advance config disk host p scopes .begun { work := .ended (.error .nullByte), scopes }
  | skipped {reason : String} : Source.load disk p = .error (.skipped reason) →
    Advance config disk host p scopes .begun
      { work := .ended (.ok false), scopes, events := [.skipped p reason] }
  | loaded {u : SourceUnit} : Source.load disk p = .ok u →
    Advance config disk host p scopes .begun
      { work := .between scopes.length u.classes, scopes := scopes ++ [.ofFile disk.work p] }
  | finished {place : Nat} :
    Advance config disk host p scopes (.between place []) { work := .ended (.ok true), scopes }
  | tooDeep {place : Nat} {c : Class} {classes : List Class} :
    Scope.classEntries? host.depth c = none →
    Advance config disk host p scopes (.between place (c :: classes))
      { work := .ended (.error .tooDeep), scopes }
  | described {place : Nat} {c : Class} {classes : List Class}
    {entries : List (String × ScopeValue)} : Scope.classEntries? host.depth c = some entries →
    Advance config disk host p scopes (.between place (c :: classes))
      { work := .describing place entries c classes, scopes }
  | set {place : Nat} {e : String × ScopeValue} {entries : List (String × ScopeValue)} {c : Class}
    {classes : List Class} :
    Advance config disk host p scopes (.describing place (e :: entries) c classes)
      { work := .describing place entries c classes,
        scopes := scopes.modify place fun s => s.set e.1 e.2 }
  | chosen {place : Nat} {c : Class} {classes : List Class} :
    Advance config disk host p scopes (.describing place [] c classes)
      { work := .calling place (choose config disk c.name c.primaryBase).1 classes, scopes,
        events := (choose config disk c.name c.primaryBase).2 }
  | run {place : Nat} {template : Path} {classes : List Class} {scope : Scope} :
    scopes[place]? = some scope →
    Advance config disk host p scopes (.calling place template classes)
      { work := .called place (host.runner template scope) classes, scopes,
        calls := [⟨template, scope⟩] }
  | failed {place : Nat} {message : String} {classes : List Class} :
    Advance config disk host p scopes (.called place (.error message) classes)
      { work := .ended (.error (.runner message)), scopes }
  | stored {place : Nat} {after : Scope} {classes : List Class} :
    Advance config disk host p scopes (.called place (.ok after) classes)
      { work := .between place classes, scopes := scopes.set place after }

theorem advance_of_step (h : w.step config disk host p scopes = some s) :
    Advance config disk host p scopes w s := by
  unfold step at h
  split at h
  · split at h <;> cases h
    · exact .nullByte ‹_›
    · exact .skipped ‹_›
    · exact .loaded ‹_›
  · cases h
    exact .finished
  · split at h <;> cases h
    · exact .tooDeep ‹_›
    · exact .described ‹_›
  · cases h
    exact .set
  · cases h
    exact .chosen
  · obtain ⟨scope, hscope, rfl⟩ := Option.map_eq_some_iff.1 h
    exact .run hscope
  · cases h
    exact .failed
  · cases h
    exact .stored
  · cases h

/-- A step moves something from what is left of a file to what has been done. -/
theorem step_remaining (h : w.step config disk host p scopes = some s)
    (hw : ∀ place, w.holds? = some place → place < scopes.length) :
    w.remaining config disk host p scopes =
      (s.work.remaining config disk host p s.scopes).before s.calls s.events := by
  cases advance_of_step h with
  | nullByte hload | skipped hload => simp [remaining, runFile, hload, Report.before]
  | loaded hload => simp [remaining, runFile, hload, scopeAt]
  | finished | chosen | failed => rfl
  | tooDeep hnone => simp [remaining, runClasses_of_none hnone]
  | described hsome => simp [remaining, runClasses_of_some hsome]
  | @set place =>
    have hplace : place < scopes.length := hw place rfl
    simp [remaining, Scope.setAll, scopeAt, hplace]
  | @run place template classes scope hscope =>
    simp only [remaining, execute, scopeAt, hscope, Option.getD_some]
    cases host.runner template scope <;> rfl
  | @stored place =>
    have hplace : place < scopes.length := hw place rfl
    simp [remaining, scopeAt, hplace]

/-- A step touches no scope but the one that is held, and then holds that one or a new one. -/
theorem step_scopes (h : w.step config disk host p scopes = some s)
    (hw : ∀ place, w.holds? = some place → place < scopes.length) :
    scopes.length ≤ s.scopes.length ∧
      (∀ place < scopes.length, w.holds? ≠ some place → s.scopes[place]? = scopes[place]?) ∧
      ∀ place, s.work.holds? = some place → place < s.scopes.length ∧
        (w.holds? = some place ∨ place = scopes.length) := by
  cases advance_of_step h with
  | nullByte _ | skipped _ | finished | tooDeep _ | failed => simp [holds?]
  | loaded _ =>
    refine ⟨by simp, ?_, by simp [holds?]⟩
    intro place hplace _
    exact List.getElem?_append_left hplace
  | @described place | @chosen place | @run place =>
    have hplace : place < scopes.length := hw place rfl
    simp [holds?, hplace]
  | @set place | @stored place =>
    have hplace : place < scopes.length := hw place rfl
    refine ⟨by simp, ?_, by simp [holds?, hplace]⟩
    intro other _ hne
    have hother : place ≠ other := fun he => hne (congrArg some he)
    simp [hother]

/-- Work that has not ended can go on. -/
theorem exists_step (hw : ∀ place, w.holds? = some place → place < scopes.length)
    (he : w.isEnded = false) : ∃ s, w.step config disk host p scopes = some s := by
  cases w with
  | begun =>
    simp only [step]
    split <;> exact ⟨_, rfl⟩
  | between place classes =>
    cases classes with
    | nil => exact ⟨_, rfl⟩
    | cons c classes =>
      simp only [step]
      split <;> exact ⟨_, rfl⟩
  | describing place entries c classes => cases entries <;> exact ⟨_, rfl⟩
  | calling place template classes =>
    have hplace : place < scopes.length := hw place rfl
    simp [step, hplace]
  | called place after classes => cases after <;> exact ⟨_, rfl⟩
  | ended result => cases he

/-- How many steps on a file are left at most. -/
def left (disk : Disk) (p : Path) : Work → Nat
  | begun =>
    match Source.load disk p with
    | .ok u => 2 + 10 * u.classes.length
    | .error _ => 1
  | between _ classes => 1 + 10 * classes.length
  | describing _ entries _ classes => 4 + entries.length + 10 * classes.length
  | calling _ _ classes => 3 + 10 * classes.length
  | called _ _ classes => 2 + 10 * classes.length
  | ended _ => 0

theorem left_step (h : w.step config disk host p scopes = some s) :
    s.work.left disk p < w.left disk p := by
  cases advance_of_step h with
  | nullByte hload | skipped hload | loaded hload => simp [left, hload]
  | described hsome =>
    obtain ⟨view, fields, -, -, rfl⟩ := Scope.classEntries?_eq_some.1 hsome
    simp only [left, List.length_cons, List.length_nil]
    omega
  | finished | tooDeep _ | set | chosen | run _ | failed | stored =>
    simp only [left, List.length_cons, List.length_nil]
    omega

end Work

/-! ### The state of a run -/

namespace Pool

variable {paths : List Path} {pool pool' : Pool}

theorem ofFile_append {α : Type} (file : Nat) (items more : List (Nat × α)) :
    ofFile file (items ++ more) = ofFile file items ++ ofFile file more := by
  simp [ofFile]

theorem ofFile_tag {α : Type} (file other : Nat) (items : List α) :
    ofFile file (items.map fun a => (other, a)) = if other = file then items else [] := by
  induction items with
  | nil => simp [ofFile]
  | cons a items ih =>
    have hcons : ofFile file ((other, a) :: items.map fun a => (other, a)) =
        (if other = file then [a] else []) ++ ofFile file (items.map fun a => (other, a)) := by
      by_cases h : other = file <;> simp [ofFile, h]
    rw [List.map_cons, hcons, ih]
    by_cases h : other = file <;> simp [h]

theorem ofFile_eq_nil {α : Type} {file : Nat} {items : List (Nat × α)}
    (h : ∀ item ∈ items, item.1 ≠ file) : ofFile file items = [] := by
  simp only [ofFile, List.filterMap_eq_nil_iff]
  intro item hitem
  exact if_neg (h item hitem)

/-- What every state of a run is like. No two files hold the same scope, and what has been done on a
file, with what is left of it, is what happens when it is run on its own. -/
structure Sound (config : Config) (disk : Disk) (host : Host) (paths : List Path)
    (pool : Pool) : Prop where
  started : pool.works.length ≤ pool.submitted ∧ pool.submitted ≤ paths.length
  held : ∀ (file : Nat) (w : Work), pool.works[file]? = some w →
    ∀ place, w.holds? = some place → place < pool.scopes.length
  apart : ∀ (file other : Nat) (w v : Work), pool.works[file]? = some w →
    pool.works[other]? = some v → ∀ place, w.holds? = some place → v.holds? = some place →
      file = other
  tagged : (∀ call ∈ pool.calls, call.1 < pool.works.length) ∧
    ∀ event ∈ pool.events, event.1 < pool.works.length
  conserved : ∀ (file : Nat) (p : Path) (w : Work), paths[file]? = some p →
    pool.works[file]? = some w →
      (w.remaining config disk host p pool.scopes).before (ofFile file pool.calls)
        (ofFile file pool.events) = runFile config disk host p

theorem sound_empty : empty.Sound config disk host paths :=
  ⟨⟨Nat.le_refl 0, Nat.zero_le _⟩, nofun, nofun, ⟨nofun, nofun⟩, nofun⟩

theorem Sound.submit (h : pool.Sound config disk host paths)
    (hs : pool.submitted < paths.length) :
    ({ pool with submitted := pool.submitted + 1 } : Pool).Sound config disk host paths :=
  ⟨⟨Nat.le_succ_of_le h.started.1, hs⟩, h.held, h.apart, h.tagged, h.conserved⟩

theorem work_of_start {works : List Work} {file : Nat} {w : Work}
    (h : (works ++ [Work.begun])[file]? = some w) :
    works[file]? = some w ∨ file = works.length ∧ w = .begun := by
  rw [List.getElem?_append] at h
  split at h
  · exact Or.inl h
  · rw [List.getElem?_singleton] at h
    obtain ⟨hfirst, hbegun⟩ := Option.ite_none_right_eq_some.1 h
    exact Or.inr ⟨by omega, (Option.some.inj hbegun).symm⟩

/-- A file that is taken up holds no scope, and nothing has happened on it. -/
theorem Sound.start (h : pool.Sound config disk host paths)
    (hs : pool.works.length < pool.submitted) :
    ({ pool with works := pool.works ++ [.begun] } : Pool).Sound config disk host paths := by
  refine ⟨⟨?_, h.started.2⟩, ?_, ?_, ⟨?_, ?_⟩, ?_⟩
  · simp only [List.length_append, List.length_singleton]
    omega
  · intro file w hw place hplace
    rcases work_of_start hw with hold | ⟨-, rfl⟩
    · exact h.held file w hold place hplace
    · cases hplace
  · intro file other w v hw hv place hwp hvp
    rcases work_of_start hw with hw | ⟨-, rfl⟩
    · rcases work_of_start hv with hv | ⟨-, rfl⟩
      · exact h.apart file other w v hw hv place hwp hvp
      · cases hvp
    · cases hwp
  · intro call hcall
    have hlt := h.tagged.1 call hcall
    simp only [List.length_append, List.length_singleton]
    omega
  · intro event hevent
    have hlt := h.tagged.2 event hevent
    simp only [List.length_append, List.length_singleton]
    omega
  · intro file p w hp hw
    rcases work_of_start hw with hold | ⟨rfl, rfl⟩
    · exact h.conserved file p w hp hold
    · have hcalls : ofFile pool.works.length pool.calls = [] :=
        ofFile_eq_nil fun call hcall => Nat.ne_of_lt (h.tagged.1 call hcall)
      have hevents : ofFile pool.works.length pool.events = [] :=
        ofFile_eq_nil fun event hevent => Nat.ne_of_lt (h.tagged.2 event hevent)
      simp only [hcalls, hevents, Report.before_nil]
      rfl

theorem work_of_record {file other : Nat} {v : Work} {s : Effect}
    (h : (pool.record file s).works[other]? = some v) :
    other = file ∧ v = s.work ∨ other ≠ file ∧ pool.works[other]? = some v := by
  simp only [record, List.getElem?_set] at h
  split at h
  · obtain ⟨-, hv⟩ := Option.ite_none_right_eq_some.1 h
    exact Or.inl ⟨Eq.symm ‹_›, (Option.some.inj hv).symm⟩
  · exact Or.inr ⟨Ne.symm ‹_›, h⟩

section

variable {file : Nat} {w : Work} {s : Effect}

/-- A scope that another file holds is neither the one that this file held nor a new one. -/
theorem Sound.foreign (h : pool.Sound config disk host paths)
    (hw : pool.works[file]? = some w) (hs : w.step config disk host p pool.scopes = some s)
    {other : Nat} {v : Work} (hne : other ≠ file) (hv : pool.works[other]? = some v) {place : Nat}
    (hplace : v.holds? = some place) :
    place < pool.scopes.length ∧ w.holds? ≠ some place ∧ s.work.holds? ≠ some place := by
  obtain ⟨-, -, hholds⟩ := Work.step_scopes hs (h.held file w hw)
  have hlt := h.held other v hv place hplace
  have hnot : w.holds? ≠ some place := fun hmine =>
    hne (h.apart other file v w hv hw place hplace hmine)
  refine ⟨hlt, hnot, fun hnow => ?_⟩
  rcases (hholds place hnow).2 with hmine | hnew
  · exact hnot hmine
  · omega

/-- What is left of another file is what it was. -/
theorem Sound.remaining_record (h : pool.Sound config disk host paths)
    (hw : pool.works[file]? = some w) (hs : w.step config disk host p pool.scopes = some s)
    {other : Nat} {v : Work} (hne : other ≠ file) (hv : pool.works[other]? = some v) (q : Path) :
    v.remaining config disk host q s.scopes = v.remaining config disk host q pool.scopes := by
  obtain ⟨-, hframe, -⟩ := Work.step_scopes hs (h.held file w hw)
  refine Work.remaining_congr fun place hplace => ?_
  obtain ⟨hlt, hnot, -⟩ := h.foreign hw hs hne hv hplace
  exact hframe place hlt hnot

/-- A step on one file keeps what is known of that file, and leaves the others as they are. -/
theorem Sound.record (h : pool.Sound config disk host paths) (hp : paths[file]? = some p)
    (hw : pool.works[file]? = some w) (hs : w.step config disk host p pool.scopes = some s) :
    (pool.record file s).Sound config disk host paths := by
  have hheld := h.held file w hw
  have hfile : file < pool.works.length := (List.getElem?_eq_some_iff.1 hw).1
  obtain ⟨hlength, -, hholds⟩ := Work.step_scopes hs hheld
  refine ⟨⟨?_, h.started.2⟩, ?_, ?_, ⟨?_, ?_⟩, ?_⟩
  · simpa [Pool.record] using h.started.1
  · intro other v hv place hplace
    obtain ⟨-, rfl⟩ | ⟨-, hold⟩ := work_of_record hv
    · exact (hholds place hplace).1
    · exact Nat.lt_of_lt_of_le (h.held other v hold place hplace) hlength
  · intro i j v u hv hu place hvp hup
    obtain ⟨rfl, rfl⟩ | ⟨hi, hold⟩ := work_of_record hv
    · obtain ⟨rfl, -⟩ | ⟨hj, hold⟩ := work_of_record hu
      · rfl
      · exact absurd hvp (h.foreign hw hs hj hold hup).2.2
    · obtain ⟨rfl, rfl⟩ | ⟨-, hold'⟩ := work_of_record hu
      · exact absurd hup (h.foreign hw hs hi hold hvp).2.2
      · exact h.apart i j v u hold hold' place hvp hup
  · intro call hcall
    simp only [Pool.record, List.mem_append, List.mem_map, List.length_set] at hcall ⊢
    rcases hcall with hold | ⟨c, -, rfl⟩
    · exact h.tagged.1 call hold
    · exact hfile
  · intro event hevent
    simp only [Pool.record, List.mem_append, List.mem_map, List.length_set] at hevent ⊢
    rcases hevent with hold | ⟨e, -, rfl⟩
    · exact h.tagged.2 event hold
    · exact hfile
  · intro other q v hq hv
    simp only [Pool.record, ofFile_append, ofFile_tag]
    obtain ⟨rfl, rfl⟩ | ⟨hne, hold⟩ := work_of_record hv
    · obtain rfl := Option.some.inj (hp.symm.trans hq)
      have hall := h.conserved other p w hp hw
      rw [Work.step_remaining hs hheld, Report.before_before] at hall
      simpa using hall
    · have hall := h.conserved other q v hq hold
      simpa [h.remaining_record hw hs hne hold q, Ne.symm hne] using hall

end

/-- What a step of a run can be: a file is handed in, it is taken up, or the work on it goes on. -/
theorem step_cases {choice : Choice}
    (h : pool.step config disk host paths choice = some pool') :
    (pool.submitted < paths.length ∧ pool' = { pool with submitted := pool.submitted + 1 }) ∨
    (pool.works.length < pool.submitted ∧ pool' = { pool with works := pool.works ++ [.begun] }) ∨
    ∃ file p w s, paths[file]? = some p ∧ pool.works[file]? = some w ∧
      w.step config disk host p pool.scopes = some s ∧ pool' = pool.record file s := by
  cases choice with
  | submit =>
    obtain ⟨hlt, hnext⟩ := Option.ite_none_right_eq_some.1 h
    exact Or.inl ⟨hlt, (Option.some.inj hnext).symm⟩
  | start =>
    obtain ⟨⟨hlt, -⟩, hnext⟩ := Option.ite_none_right_eq_some.1 h
    exact Or.inr (Or.inl ⟨hlt, (Option.some.inj hnext).symm⟩)
  | advance file =>
    simp only [step, Option.bind_eq_bind, Option.bind_eq_some_iff, Option.pure_def,
      Option.some.injEq] at h
    obtain ⟨p, hp, w, hw, s, hs, rfl⟩ := h
    exact Or.inr (Or.inr ⟨file, p, w, s, hp, hw, hs, rfl⟩)

theorem Sound.step {choice : Choice} (h : pool.Sound config disk host paths)
    (hs : pool.step config disk host paths choice = some pool') :
    pool'.Sound config disk host paths := by
  obtain ⟨hlt, rfl⟩ | ⟨hlt, rfl⟩ | ⟨file, p, w, s, hp, hw, hstep, rfl⟩ := step_cases hs
  · exact h.submit hlt
  · exact h.start hlt
  · exact h.record hp hw hstep

theorem run_cons (choice : Choice) (schedule : List Choice) :
    pool.run config disk host paths (choice :: schedule) =
      (pool.step config disk host paths choice).bind fun pool =>
        pool.run config disk host paths schedule := rfl

theorem run_append (schedule more : List Choice) :
    pool.run config disk host paths (schedule ++ more) =
      (pool.run config disk host paths schedule).bind fun pool =>
        pool.run config disk host paths more := by
  simp only [run, List.foldlM_append]
  rfl

/-- Whatever the schedule, its steps keep a state sound. -/
theorem Sound.run {schedule : List Choice} (h : pool.Sound config disk host paths)
    (hs : pool.run config disk host paths schedule = some pool') :
    pool'.Sound config disk host paths := by
  induction schedule generalizing pool with
  | nil =>
    obtain rfl := Option.some.inj hs
    exact h
  | cons choice schedule ih =>
    rw [run_cons] at hs
    obtain ⟨next, hstep, hrun⟩ := Option.bind_eq_some_iff.1 hs
    exact ih (h.step hstep) hrun

/-- A file on which the work has ended has the report that it has on its own. -/
theorem Sound.report? {file : Nat} {r : Report} (h : pool.Sound config disk host paths)
    (hp : paths[file]? = some p) (hr : pool.report? file = some r) :
    r = runFile config disk host p := by
  unfold Pool.report? at hr
  split at hr
  · rename_i result hended
    obtain rfl := Option.some.inj hr
    have hall := h.conserved file p (.ended result) hp hended
    simpa [Work.remaining, Report.before] using hall
  · cases hr

/-! ### The end of a run -/

theorem eq_map_of_mapM {α β : Type} {f : α → Option β} {g : α → β} {as : List α} {bs : List β}
    (h : as.mapM f = some bs) (hg : ∀ a ∈ as, ∀ b, f a = some b → b = g a) : bs = as.map g := by
  induction as generalizing bs with
  | nil => simpa using h.symm
  | cons a as ih =>
    simp only [List.mapM_cons, Option.bind_eq_bind, Option.bind_eq_some_iff, Option.pure_def,
      Option.some.injEq] at h
    obtain ⟨b, hb, rest, hrest, rfl⟩ := h
    have hhead : b = g a := hg a List.mem_cons_self b hb
    have htail : rest = as.map g := ih hrest fun a ha => hg a (List.mem_cons_of_mem _ ha)
    rw [List.map_cons, hhead, htail]

theorem exists_of_mapM {α β : Type} {f : α → Option β} {as : List α} {bs : List β} {a : α}
    (h : as.mapM f = some bs) (ha : a ∈ as) : ∃ b, f a = some b := by
  induction as generalizing bs with
  | nil => cases ha
  | cons c as ih =>
    simp only [List.mapM_cons, Option.bind_eq_bind, Option.bind_eq_some_iff] at h
    obtain ⟨b, hb, rest, hrest, -⟩ := h
    rcases List.mem_cons.1 ha with rfl | ha
    · exact ⟨b, hb⟩
    · exact ih hrest ha

theorem isSome_mapM {α β : Type} {f : α → Option β} {as : List α}
    (h : ∀ a ∈ as, (f a).isSome = true) : (as.mapM f).isSome = true := by
  induction as with
  | nil => rfl
  | cons a as ih =>
    obtain ⟨b, hb⟩ := Option.isSome_iff_exists.1 (h a List.mem_cons_self)
    obtain ⟨bs, hbs⟩ :=
      Option.isSome_iff_exists.1 (ih fun a ha => h a (List.mem_cons_of_mem _ ha))
    simp [List.mapM_cons, hb, hbs]

/-- At the end of a run each file has the report that it has on its own. -/
theorem Sound.reports? {reports : List (Path × Report)} (h : pool.Sound config disk host paths)
    (hr : pool.reports? paths = some reports) :
    reports = paths.map fun p => (p, runFile config disk host p) := by
  have hmap : reports = paths.zipIdx.map fun x => (x.1, runFile config disk host x.1) := by
    refine eq_map_of_mapM hr ?_
    rintro ⟨p, file⟩ hmem ⟨q, r⟩ hreport
    have hp : paths[file]? = some p := List.mem_zipIdx_iff_getElem?.1 hmem
    obtain ⟨r', hr', he⟩ := Option.map_eq_some_iff.1 hreport
    obtain ⟨rfl, rfl⟩ := Prod.mk.inj he
    have hlone := h.report? hp hr'
    rw [hlone]
  have hfst : paths.zipIdx.map Prod.fst = paths := by simp
  calc
    reports = (paths.zipIdx.map Prod.fst).map fun p => (p, runFile config disk host p) := by
      rw [hmap, List.map_map]
      rfl
    _ = paths.map fun p => (p, runFile config disk host p) := by rw [hfst]

theorem exists_report? {reports : List (Path × Report)} {file : Nat}
    (hr : pool.reports? paths = some reports) (hp : paths[file]? = some p) :
    ∃ r, pool.report? file = some r ∧ r.calls = ofFile file pool.calls := by
  have hmem : (p, file) ∈ paths.zipIdx := List.mem_zipIdx_iff_getElem?.2 hp
  obtain ⟨⟨q, r⟩, hq⟩ := exists_of_mapM hr hmem
  obtain ⟨r', hr', -⟩ := Option.map_eq_some_iff.1 hq
  refine ⟨r', hr', ?_⟩
  unfold Pool.report? at hr'
  split at hr'
  · obtain rfl := Option.some.inj hr'
    rfl
  · cases hr'

theorem isSome_reports? (hl : pool.works.length = paths.length)
    (he : ∀ w ∈ pool.works, w.isEnded = true) : (pool.reports? paths).isSome = true := by
  refine isSome_mapM ?_
  rintro ⟨p, file⟩ hmem
  have hp : paths[file]? = some p := List.mem_zipIdx_iff_getElem?.1 hmem
  have hfile : file < pool.works.length := by
    have hlt := (List.getElem?_eq_some_iff.1 hp).1
    omega
  have hw : pool.works[file]? = some pool.works[file] := List.getElem?_eq_getElem hfile
  have hended := he _ (List.getElem_mem hfile)
  cases hwork : pool.works[file] with
  | ended result =>
    rw [hwork] at hw
    simp [Pool.report?, hw]
  | _ =>
    rw [hwork] at hended
    cases hended

/-! ### Every schedule comes to an end -/

/-- How many steps are left at most on files and the work on them. -/
def leftOn (disk : Disk) : List Path → List Work → Nat
  | [], _ => 0
  | p :: paths, [] => 1 + Work.begun.left disk p + leftOn disk paths []
  | p :: paths, w :: works => w.left disk p + leftOn disk paths works

def left (disk : Disk) (paths : List Path) (pool : Pool) : Nat :=
  (paths.length - pool.submitted) + leftOn disk paths pool.works

theorem leftOn_start {paths : List Path} {works : List Work} (h : works.length < paths.length) :
    leftOn disk paths (works ++ [.begun]) < leftOn disk paths works := by
  induction paths generalizing works with
  | nil => simp at h
  | cons p paths ih =>
    cases works with
    | nil =>
      simp only [List.nil_append, leftOn]
      omega
    | cons w works =>
      have hshort : works.length < paths.length := by simpa using h
      have hrest := ih hshort
      simp only [List.cons_append, leftOn]
      omega

theorem leftOn_set {paths : List Path} {works : List Work} {file : Nat} {w w' : Work}
    (hp : paths[file]? = some p) (hw : works[file]? = some w)
    (h : w'.left disk p < w.left disk p) :
    leftOn disk paths (works.set file w') < leftOn disk paths works := by
  induction paths generalizing works file with
  | nil => simp at hp
  | cons q paths ih =>
    cases works with
    | nil => simp at hw
    | cons v works =>
      cases file with
      | zero =>
        simp only [List.getElem?_cons_zero, Option.some.injEq] at hp hw
        subst hp hw
        simp only [List.set_cons_zero, leftOn]
        omega
      | succ file =>
        have hfile : paths[file]? = some p := by simpa using hp
        have hwork : works[file]? = some w := by simpa using hw
        have hrest := ih hfile hwork
        simp only [List.set_cons_succ, leftOn]
        omega

theorem Sound.left_step {choice : Choice} (h : pool.Sound config disk host paths)
    (hs : pool.step config disk host paths choice = some pool') :
    pool'.left disk paths < pool.left disk paths := by
  obtain ⟨hstarted, hsubmitted⟩ := h.started
  obtain ⟨hlt, rfl⟩ | ⟨hlt, rfl⟩ | ⟨file, p, w, s, hp, hw, hstep, rfl⟩ := step_cases hs
  · simp only [left]
    omega
  · have hwork : leftOn disk paths (pool.works ++ [Work.begun]) < leftOn disk paths pool.works :=
      leftOn_start (by omega)
    simp only [left]
    omega
  · have hwork := leftOn_set hp hw (Work.left_step hstep)
    simp only [left, Pool.record]
    omega

/-- A schedule takes no more steps than are left at its start. -/
theorem Sound.length_le {schedule : List Choice} (h : pool.Sound config disk host paths)
    (hs : pool.run config disk host paths schedule = some pool') :
    schedule.length + pool'.left disk paths ≤ pool.left disk paths := by
  induction schedule generalizing pool with
  | nil =>
    obtain rfl := Option.some.inj hs
    simp
  | cons choice schedule ih =>
    rw [run_cons] at hs
    obtain ⟨next, hstep, hrun⟩ := Option.bind_eq_some_iff.1 hs
    have hrest := ih (h.step hstep) hrun
    have hfirst := h.left_step hstep
    simp only [List.length_cons]
    omega

/-- Some step can be taken until the work on all files has ended. -/
theorem Sound.exists_step (h : pool.Sound config disk host paths)
    (hworkers : paths ≠ [] → 0 < workerCount config paths)
    (hr : (pool.reports? paths).isSome = false) :
    ∃ choice next, pool.step config disk host paths choice = some next := by
  obtain ⟨hstarted, hsubmitted⟩ := h.started
  by_cases hsubmit : pool.submitted < paths.length
  · exact ⟨.submit, _, if_pos hsubmit⟩
  by_cases hended : ∀ w ∈ pool.works, w.isEnded = true
  · -- all workers are idle, so one of them takes up the next file
    have hlt : pool.works.length < pool.submitted := by
      refine Nat.lt_of_le_of_ne hstarted fun he => ?_
      have hlength : pool.works.length = paths.length := by omega
      rw [isSome_reports? hlength hended] at hr
      cases hr
    have hbusy : pool.busy = 0 := by
      rw [busy, List.countP_eq_zero]
      intro w hw
      simp [hended w hw]
    have hne : paths ≠ [] := by
      rintro rfl
      simp at hsubmitted
      omega
    have hcount := hworkers hne
    exact ⟨.start, _, if_pos ⟨hlt, by omega⟩⟩
  · obtain ⟨w, hw, hgoes⟩ : ∃ w ∈ pool.works, w.isEnded = false := by simpa using hended
    obtain ⟨file, hfile, rfl⟩ := List.mem_iff_getElem.1 hw
    have hget : pool.works[file]? = some pool.works[file] := List.getElem?_eq_getElem hfile
    have hp : paths[file]? = some paths[file] := List.getElem?_eq_getElem (by omega)
    have hstep : ∃ s, pool.works[file].step config disk host paths[file] pool.scopes = some s :=
      Work.exists_step (h.held file _ hget) hgoes
    obtain ⟨s, hs⟩ := hstep
    exact ⟨.advance file, pool.record file s, by simp [Pool.step, hp, hget, hs]⟩

/-- A schedule can be carried on until the work on all files has ended. -/
theorem Sound.exists_more (h : pool.Sound config disk host paths)
    (hworkers : paths ≠ [] → 0 < workerCount config paths) :
    ∃ more next, pool.run config disk host paths more = some next ∧
      (next.reports? paths).isSome = true := by
  induction hn : pool.left disk paths using Nat.strongRecOn generalizing pool with
  | ind n ih =>
    subst hn
    cases hr : (pool.reports? paths).isSome with
    | true => exact ⟨[], pool, rfl, hr⟩
    | false =>
      obtain ⟨choice, next, hstep⟩ := h.exists_step hworkers hr
      obtain ⟨more, last, hrun, hlast⟩ := ih _ (h.left_step hstep) (h.step hstep) rfl
      refine ⟨choice :: more, last, ?_, hlast⟩
      rw [run_cons, hstep]
      exact hrun

end Pool

/-! ### Whole runs -/

theorem workerCount_pos {paths : List Path} (h : workersAllowed config.maxWorkers = true)
    (hp : paths ≠ []) : 0 < workerCount config paths := by
  have hlength : 0 < paths.length := List.length_pos_iff.2 hp
  unfold workerCount
  cases hmax : config.maxWorkers with
  | none => exact hlength
  | some n =>
    have hn : 0 ≤ n := by simpa [workersAllowed, hmax] using h
    simp only
    split <;> omega

/-- A run that is not refused works on all files that are found, and has workers for them. -/
theorem opening_ok {paths : List Path} {after : Disk} {events : List Event}
    (h : opening config disk = (.ok paths, after, events)) :
    after = (prepare config disk).2.1 ∧
      Source.discover after config.runPath config.extension = .ok paths ∧
      (paths ≠ [] → 0 < workerCount config paths) := by
  unfold opening at h
  split at h
  · cases h
  · rename_i made hprepare
    split at h
    · cases h
    · rename_i found hfound
      rw [hprepare]
      split at h
      · rename_i hempty
        obtain ⟨hpaths, hrest⟩ := Prod.mk.inj h
        obtain ⟨rfl, -⟩ := Prod.mk.inj hrest
        obtain rfl := Except.ok.inj hpaths
        obtain rfl := List.isEmpty_iff.1 hempty
        exact ⟨rfl, hfound, fun hne => absurd rfl hne⟩
      · split at h
        · cases h
        · rename_i hallowed
          obtain ⟨hpaths, hrest⟩ := Prod.mk.inj h
          obtain ⟨rfl, -⟩ := Prod.mk.inj hrest
          obtain rfl := Except.ok.inj hpaths
          have hallowed : workersAllowed config.maxWorkers = true := by simpa using hallowed
          exact ⟨rfl, hfound, workerCount_pos hallowed⟩

/-- The run without workers, file by file, has the entries that the files have on their own. -/
theorem run_results (config : Config) (disk : Disk) (host : Host) :
    (run config disk host).results = (opening config disk).1.map fun paths =>
      paths.map fun p => (p, (runFile config (opening config disk).2.1 host p).succeeded) := by
  unfold run opening
  obtain ⟨made, after, events⟩ := prepare config disk
  cases made with
  | error e => rfl
  | ok made =>
    cases hfound : Source.discover after config.runPath config.extension with
    | error e => simp only [hfound, Except.map]
    | ok paths =>
      simp only [hfound, RunReport.after, runFiles]
      split
      · rename_i hempty
        obtain rfl := List.isEmpty_iff.1 hempty
        rfl
      · split
        · rfl
        · simp only [Except.map, List.map_map]
          rfl

theorem sound_play {schedule : List Choice} {pool : Pool} {files : Except RunError (List Path)}
    {after : Disk} {events : List Event} (ho : opening config disk = (files, after, events))
    (h : play config disk host schedule = some pool) :
    pool.Sound config after host (files.toOption.getD []) := by
  rw [play, ho] at h
  exact Pool.sound_empty.run h

/-- A run that is refused takes no step. -/
theorem play_refused {schedule : List Choice} {pool : Pool} {e : RunError} {after : Disk}
    {events : List Event} (ho : opening config disk = (.error e, after, events))
    (h : play config disk host schedule = some pool) : schedule = [] ∧ pool = .empty := by
  rw [play, ho] at h
  have hbound := Pool.sound_empty.length_le h
  have hnil : schedule = [] := by
    have hzero : Pool.empty.left after [] = 0 := rfl
    refine List.eq_nil_of_length_eq_zero ?_
    simp only [Except.toOption, Option.getD_none] at hbound
    omega
  subst hnil
  exact ⟨rfl, (Option.some.inj h).symm⟩

/-- Either a run was refused before anything was called, or each file that was found has an entry,
in the order in which they were found. The entry and the calls of a file, with all that the runner
left in its scope, are then those that it has on its own, and there are no other calls. -/
def ScheduledReport.Isolated (config : Config) (disk : Disk) (host : Host)
    (report : ScheduledReport) : Prop :=
  (∃ e, report.results = .error e ∧ report.calls = []) ∨
    ∃ paths, Source.discover disk config.runPath config.extension = .ok paths ∧
      report.results = .ok (paths.map fun p => (p, (runFile config disk host p).succeeded)) ∧
      (∀ file p, paths[file]? = some p →
        Pool.ofFile file report.calls = (runFile config disk host p).calls) ∧
      ∀ call ∈ report.calls, call.1 < paths.length

theorem isolated_of_runScheduled {schedule : List Choice} {report : ScheduledReport}
    (h : runScheduled config disk host schedule = some report) :
    report.Isolated config (prepare config disk).2.1 host := by
  obtain ⟨pool, hplay, hreport⟩ := Option.bind_eq_some_iff.1 h
  cases ho : opening config disk with
  | mk files rest =>
    obtain ⟨after, events⟩ := rest
    rw [ho] at hreport
    cases files with
    | error e =>
      obtain ⟨-, rfl⟩ := play_refused ho hplay
      obtain rfl := Option.some.inj hreport
      exact Or.inl ⟨e, rfl, rfl⟩
    | ok paths =>
      obtain ⟨rfl, hfound, -⟩ := opening_ok ho
      have hsound := sound_play ho hplay
      obtain ⟨reports, hreports, rfl⟩ := Option.map_eq_some_iff.1 hreport
      have hlone := hsound.reports? hreports
      refine Or.inr ⟨paths, hfound, ?_, ?_, ?_⟩
      · rw [hlone, List.map_map]
        rfl
      · intro file p hp
        obtain ⟨r, hr, hcalls⟩ := Pool.exists_report? hreports hp
        have hfile := hsound.report? hp hr
        show Pool.ofFile file pool.calls = _
        rw [← hcalls, hfile]
      · intro call hcall
        have htag := hsound.tagged.1 call hcall
        have hworks := hsound.started
        simp only [Except.toOption, Option.getD_some] at hworks
        show call.1 < paths.length
        omega

/-- Files are isolated from one another, whatever the configuration, the source tree and the runner.
Each schedule of steps is the front of one that leads to the end of the run, and none goes on for
ever; and at the end nothing that happened to a file depended on the others. -/
theorem runScheduled_isolated (config : Config) (disk : Disk) (host : Host) :
    (∃ bound, ∀ schedule pool, play config disk host schedule = some pool →
      schedule.length ≤ bound ∧
        ∃ more, (runScheduled config disk host (schedule ++ more)).isSome = true) ∧
    ∀ schedule report, runScheduled config disk host schedule = some report →
      report.Isolated config (prepare config disk).2.1 host := by
  refine ⟨?_, fun schedule report h => isolated_of_runScheduled h⟩
  cases ho : opening config disk with
  | mk files rest =>
    obtain ⟨after, events⟩ := rest
    refine ⟨Pool.empty.left after (files.toOption.getD []), fun schedule pool hplay => ?_⟩
    have hrun :
        Pool.empty.run config after host (files.toOption.getD []) schedule = some pool := by
      rwa [play, ho] at hplay
    have hlength := Pool.sound_empty.length_le hrun
    refine ⟨by omega, ?_⟩
    cases files with
    | error e =>
      refine ⟨[], ?_⟩
      rw [List.append_nil, runScheduled, hplay, ho]
      rfl
    | ok paths =>
      have hworkers := (opening_ok ho).2.2
      obtain ⟨more, last, hmore, hlast⟩ := (sound_play ho hplay).exists_more hworkers
      refine ⟨more, ?_⟩
      have hall : play config disk host (schedule ++ more) = some last := by
        rw [play, ho]
        show Pool.empty.run config after host paths (schedule ++ more) = some last
        rw [Pool.run_append]
        exact Option.bind_eq_some_iff.2 ⟨pool, hrun, hmore⟩
      rw [runScheduled, hall, ho]
      show ((last.reports? paths).map _).isSome = true
      rw [Option.isSome_map]
      exact hlast

/-- A run under any schedule has the entries of the run that works file by file. -/
theorem results_of_runScheduled {schedule : List Choice} {report : ScheduledReport}
    (h : runScheduled config disk host schedule = some report) :
    report.results = (run config disk host).results := by
  obtain ⟨pool, hplay, hreport⟩ := Option.bind_eq_some_iff.1 h
  rw [run_results]
  cases ho : opening config disk with
  | mk files rest =>
    obtain ⟨after, events⟩ := rest
    rw [ho] at hreport
    cases files with
    | error e =>
      obtain rfl := Option.some.inj hreport
      rfl
    | ok paths =>
      obtain ⟨reports, hreports, rfl⟩ := Option.map_eq_some_iff.1 hreport
      have hlone := (sound_play ho hplay).reports? hreports
      simp only [hlone, Except.map, List.map_map]
      rfl

end ClassLang.Template
