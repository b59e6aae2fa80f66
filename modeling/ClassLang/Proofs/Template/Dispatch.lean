import ClassLang.Proofs.Template.Confinement
import ClassLang.Proofs.Views

/-!
# The calls for one file

A file that gives no unit is skipped with one warning and makes no call, wherever in it the fault
is. For a file that gives one the runner is called once for each class, in the order of the text, up
to the first call that fails or the first class that has no view. All calls of a file work on one
scope, so it has to be said what each of them sees: the names that describe a class are those of its
own class, and any other name is as the call before it left it. Main statement:
`runFile_dispatched`, for every file and every runner.
-/

namespace ClassLang

/-! ### What a scope says of a class -/

namespace Scope

/-- The names under which a scope describes a class. -/
def classNames : List String := ["Name", "Inherit", "Properties", "Class", "Fields", "Methods"]

/-- The description of a class in a scope is that of this class. -/
structure Describes (depth : Nat) (s : Scope) (c : Class) : Prop where
  name : s.get? "Name" = some (.text c.name)
  bases : s.get? "Inherit" = some (.texts c.bases)
  properties : s.get? "Properties" = some (.properties (c.properties.map Property.view))
  itself : ∃ view, c.view? depth = some view ∧ s.get? "Class" = some (.classView view)
  fields : ∃ views, c.fields.mapM (Field.view? depth) = some views ∧
    s.get? "Fields" = some (.fields views)
  methods : s.get? "Methods" = some (.methods (c.methods.map Method.view))

theorem get?_setAll {entries : List (String × ScopeValue)} (h : (entries.map Prod.fst).Nodup)
    (s : Scope) (name : String) :
    (s.setAll entries).get? name = (entries.lookup name).or (s.get? name) := by
  induction entries generalizing s with
  | nil => rfl
  | cons e entries ih =>
    obtain ⟨hfresh, hrest⟩ := List.nodup_cons.1 h
    have hset : s.setAll (e :: entries) = (s.set e.1 e.2).setAll entries := rfl
    rw [hset, ih hrest, get?_set, List.lookup_cons]
    by_cases hname : name = e.1
    · have hnone : entries.lookup name = none := by
        refine List.lookup_eq_none_iff.2 fun e' he' => bne_iff_ne.2 fun heq => ?_
        exact hfresh (hname ▸ heq ▸ List.mem_map_of_mem he')
      rw [if_pos hname, hnone, beq_iff_eq.2 hname, Option.none_or, Option.some_or]
    · rw [if_neg hname, beq_eq_false_iff_ne.2 hname]

section

variable {depth : Nat} {c : Class} {entries : List (String × ScopeValue)}

theorem names_of_classEntries? (h : classEntries? depth c = some entries) :
    entries.map Prod.fst = classNames := by
  obtain ⟨view, fields, -, -, rfl⟩ := classEntries?_eq_some.1 h
  rfl

theorem nodup_of_classEntries? (h : classEntries? depth c = some entries) :
    (entries.map Prod.fst).Nodup := by
  rw [names_of_classEntries? h]
  decide

theorem describes_setAll (h : classEntries? depth c = some entries) (s : Scope) :
    (s.setAll entries).Describes depth c := by
  have hget := get?_setAll (nodup_of_classEntries? h) s
  obtain ⟨view, fields, hview, hfields, rfl⟩ := classEntries?_eq_some.1 h
  exact ⟨hget _, hget _, hget _, ⟨view, hview, hget _⟩, ⟨fields, hfields, hget _⟩, hget _⟩

/-- What is set for a class leaves alone every name that does not describe it. -/
theorem get?_setAll_of_notMem (h : classEntries? depth c = some entries) (s : Scope)
    {name : String} (hname : name ∉ classNames) : (s.setAll entries).get? name = s.get? name := by
  have hnone : entries.lookup name = none := by
    refine List.lookup_eq_none_iff.2 fun e he => bne_iff_ne.2 fun heq => hname ?_
    rw [heq, ← names_of_classEntries? h]
    exact List.mem_map_of_mem he
  rw [get?_setAll (nodup_of_classEntries? h), hnone, Option.none_or]

/-- A class that cannot be described has a type with more layers than calls can be nested. -/
theorem exists_deep_of_classEntries? (h : classEntries? depth c = none) :
    ∃ f ∈ c.fields, depth < f.type.height := by
  by_contra hlow
  have hviewable : c.Viewable depth := fun f hf => by
    by_contra hdeep
    exact hlow ⟨f, hf, Nat.lt_of_not_le hdeep⟩
  have hview := Class.view?_eq_some.2 ⟨hviewable, rfl⟩
  have hfields := mapM_view?_eq_some.2 ⟨hviewable, rfl⟩
  rw [classEntries?_eq_some.2 ⟨_, _, hview, hfields, rfl⟩] at h
  cases h

end

/-- Two scopes say the same of every name that does not describe a class. -/
def AgreeElsewhere (s t : Scope) : Prop := ∀ name, name ∉ classNames → s.get? name = t.get? name

end Scope

namespace Template

variable {config : Config} {disk : Disk} {host : Host} {p : Path} {scope : Scope}
  {classes : List Class} {report : Report}

/-! ### The calls for classes -/

/-- The calls for classes that start from a scope. Call number `k` is for class number `k`, and the
calls stop behind the first one that fails, in front of the first class with a type of too many
layers, or when there is no class left. -/
structure Ran (config : Config) (disk : Disk) (host : Host) (scope : Scope)
    (classes : List Class) (report : Report) : Prop where
  each : ∀ (k : Nat) (call : Call), report.calls[k]? = some call →
    ∃ c : Class, classes[k]? = some c ∧
      call.template = (choose config disk c.name c.primaryBase).1 ∧
        call.scope.Describes host.depth c
  first : ∀ call : Call, report.calls[0]? = some call → call.scope.AgreeElsewhere scope
  next : ∀ (k : Nat) (call call' : Call), report.calls[k]? = some call →
    report.calls[k + 1]? = some call' →
    ∃ after, host.runner call.template call.scope = .ok after ∧ call'.scope.AgreeElsewhere after
  failed : ∀ (k : Nat) (call : Call) (message : String), report.calls[k]? = some call →
    host.runner call.template call.scope = .error message →
    report.calls.length = k + 1 ∧ report.result = .error (.runner message)
  completed : (∀ call ∈ report.calls, ∃ after, host.runner call.template call.scope = .ok after) →
    report.calls.length = classes.length ∧ report.result = .ok true ∨
    ∃ c : Class, classes[report.calls.length]? = some c ∧
      (∃ f ∈ c.fields, host.depth < f.type.height) ∧ report.result = .error .tooDeep
  quiet : ∀ event ∈ report.events, event.level = .debug

theorem ran_nil : Ran config disk host scope [] ⟨.ok true, [], []⟩ where
  each := nofun
  first := nofun
  next := nofun
  failed := nofun
  completed := fun _ => .inl ⟨rfl, rfl⟩
  quiet := nofun

/-- The first class has no view: there are no calls, however many classes there are. -/
theorem ran_of_deep {c : Class} (hdeep : Scope.classEntries? host.depth c = none) :
    Ran config disk host scope (c :: classes) ⟨.error .tooDeep, [], []⟩ where
  each := nofun
  first := nofun
  next := nofun
  failed := nofun
  completed := fun _ => .inr ⟨c, rfl, Scope.exists_deep_of_classEntries? hdeep, rfl⟩
  quiet := nofun

/-- The choice of a template is worth no more than a note. -/
theorem level_of_mem_choose {name : String} {base : Option String} {event : Event}
    (h : event ∈ (choose config disk name base).2) : event.level = .debug := by
  cases base with
  | none => cases h
  | some base =>
    rw [choose] at h
    split at h
    · cases h
    · rw [List.mem_singleton.1 h]
      rfl

/-- The first call fails: it is the only one, however many classes there are. -/
theorem ran_of_fails {c : Class} {entries : List (String × ScopeValue)} {message : String}
    (hclass : Scope.classEntries? host.depth c = some entries)
    (hrun : host.runner (choose config disk c.name c.primaryBase).1 (scope.setAll entries) =
      .error message) :
    Ran config disk host scope (c :: classes) ⟨.error (.runner message),
      [⟨(choose config disk c.name c.primaryBase).1, scope.setAll entries⟩],
      (choose config disk c.name c.primaryBase).2⟩ where
  each := by
    intro k call hcall
    cases k with
    | zero =>
      obtain rfl := Option.some.inj hcall
      exact ⟨c, rfl, rfl, Scope.describes_setAll hclass scope⟩
    | succ k => cases hcall
  first := by
    intro call hcall name hname
    obtain rfl := Option.some.inj hcall
    exact Scope.get?_setAll_of_notMem hclass scope hname
  next := nofun
  failed := by
    intro k call message' hcall hfails
    cases k with
    | zero =>
      obtain rfl := Option.some.inj hcall
      obtain rfl := Except.error.inj (hrun.symm.trans hfails)
      exact ⟨rfl, rfl⟩
    | succ k => cases hcall
  completed := by
    intro hall
    obtain ⟨after, hafter⟩ := hall _ (List.mem_singleton_self _)
    rw [hrun] at hafter
    cases hafter
  quiet := fun _ => level_of_mem_choose

/-- The first call is made and the others go on from the scope that it leaves. -/
theorem Ran.cons {c : Class} {entries : List (String × ScopeValue)} {after : Scope}
    (hclass : Scope.classEntries? host.depth c = some entries)
    (hrun : host.runner (choose config disk c.name c.primaryBase).1 (scope.setAll entries) =
      .ok after)
    (h : Ran config disk host after classes report) :
    Ran config disk host scope (c :: classes) (report.prepend
      ⟨(choose config disk c.name c.primaryBase).1, scope.setAll entries⟩
      (choose config disk c.name c.primaryBase).2) where
  each := by
    intro k call hcall
    cases k with
    | zero =>
      obtain rfl := Option.some.inj hcall
      exact ⟨c, rfl, rfl, Scope.describes_setAll hclass scope⟩
    | succ k => exact h.each k call hcall
  first := by
    intro call hcall name hname
    obtain rfl := Option.some.inj hcall
    exact Scope.get?_setAll_of_notMem hclass scope hname
  next := by
    intro k call call' hcall hnext
    cases k with
    | zero =>
      obtain rfl := Option.some.inj hcall
      exact ⟨after, hrun, h.first call' hnext⟩
    | succ k => exact h.next k call call' hcall hnext
  failed := by
    intro k call message hcall hfails
    cases k with
    | zero =>
      obtain rfl := Option.some.inj hcall
      rw [hrun] at hfails
      cases hfails
    | succ k =>
      obtain ⟨hlength, hresult⟩ := h.failed k call message hcall hfails
      exact ⟨congrArg Nat.succ hlength, hresult⟩
  completed := by
    intro hall
    obtain ⟨hlength, hresult⟩ | ⟨d, hd, hdeep⟩ := h.completed (List.forall_mem_cons.1 hall).2
    · exact .inl ⟨congrArg Nat.succ hlength, hresult⟩
    · exact .inr ⟨d, hd, hdeep⟩
  quiet := by
    intro event hevent
    exact (List.mem_append.1 hevent).elim level_of_mem_choose (h.quiet event)

theorem runClasses_ran : Ran config disk host scope classes
    (runClasses config disk host scope classes) := by
  induction classes generalizing scope with
  | nil => exact ran_nil
  | cons c classes ih =>
    rw [runClasses]
    cases hclass : Scope.classEntries? host.depth c with
    | none => exact ran_of_deep hclass
    | some entries =>
      cases hrun : host.runner (choose config disk c.name c.primaryBase).1
          (scope.setAll entries) with
      | error message =>
        simp only [hrun]
        exact ran_of_fails hclass hrun
      | ok after =>
        simp only [hrun]
        exact ih.cons hclass hrun

/-! ### The calls for a file -/

/-- A file that is not run: nothing is called, and there is one warning, which names the file. -/
structure Skipped (p : Path) (report : Report) : Prop where
  result : report.result = .ok false
  calls : report.calls = []
  warned : ∃ reason, report.events = [.skipped p reason] ∧
    (Event.skipped p reason).level = .warning

theorem skipped_of_load {reason : String}
    (h : Source.load disk p = .error (.skipped reason)) :
    Skipped p (runFile config disk host p) := by
  rw [runFile, h]
  exact ⟨rfl, rfl, reason, rfl, rfl⟩

theorem load_of_unread {e : DiskError} (h : disk.read p = .error e) (he : e ≠ .nullByte) :
    Source.load disk p = .error (.skipped e.text) := by
  rw [Source.load, h]
  cases e <;> first | rfl | exact absurd rfl he

theorem exists_load_of_unparsed {bytes : List UInt8} {e : FileFailure}
    (h : disk.read p = .ok bytes) (he : parseBytes bytes = .error e) :
    ∃ reason, Source.load disk p = .error (.skipped reason) := by
  rw [Source.load, h]
  simp only [he]
  cases e <;> exact ⟨_, rfl⟩

theorem load_of_parsed {bytes : List UInt8} {u : SourceUnit} (h : disk.read p = .ok bytes)
    (hu : parseBytes bytes = .ok u) : Source.load disk p = .ok u := by
  rw [Source.load, h]
  simp only [hu]

theorem get?_ofFile (work : List String) (p : Path) (name : String) :
    (Scope.ofFile work p).get? name =
      if name = "Filename" then some (.text p.baseName)
      else if name = "Path" then some (.text (p.directory work).text) else none := by
  rw [Scope.get?, Scope.ofFile, List.lookup_cons, List.lookup_cons, List.lookup_nil]
  by_cases hfile : name = "Filename"
  · rw [if_pos hfile, beq_iff_eq.2 hfile]
  · rw [if_neg hfile, beq_eq_false_iff_ne.2 hfile]
    by_cases hpath : name = "Path"
    · rw [if_pos hpath, beq_iff_eq.2 hpath]
    · rw [if_neg hpath, beq_eq_false_iff_ne.2 hpath]

/-- What happens to one file: it is skipped as a whole, or its classes are run, and the path that
they see is that of the directory the file is in. A path with a null byte is the path of no file,
and then the work is broken off before anything happens. -/
structure Dispatched (config : Config) (disk : Disk) (host : Host) (p : Path)
    (report : Report) : Prop where
  unread : ∀ e, disk.read p = .error e → e ≠ .nullByte → Skipped p report
  unparsed : ∀ bytes e, disk.read p = .ok bytes → parseBytes bytes = .error e → Skipped p report
  parsed : ∀ bytes u, disk.read p = .ok bytes → parseBytes bytes = .ok u →
    Declares disk p u.classes ∧ Ran config disk host (.ofFile disk.work p) u.classes report
  fresh : ∀ name, (Scope.ofFile disk.work p).get? name =
    if name = "Filename" then some (.text p.baseName)
    else if name = "Path" then some (.text (p.directory disk.work).text) else none
  around : ∀ bytes, disk.read p = .ok bytes →
    ∃ d, disk.find (p.directory disk.work).names = .ok (.folder d) ∧
      d.find? p.baseName = some (.file bytes)
  nameless : disk.read p = .error .nullByte → report = ⟨.error .nullByte, [], []⟩

/-- One file is dispatched as a whole or not at all. If it cannot be read, decoded or parsed,
nothing is called and there is exactly one warning. If it can, the runner is called for its classes
in the order of the text, up to the first call that fails, whose failure is what comes of the file,
or up to the first class with a type of too many layers, which is not called for. What call number
`k` sees of a class is the class number `k`, and any other name it sees as call number `k - 1` left
it, or, if it is the first call, there are the name of the file and the directory of the file and no
other name. -/
theorem runFile_dispatched (config : Config) (disk : Disk) (host : Host) (p : Path) :
    Dispatched config disk host p (runFile config disk host p) where
  unread := fun _ h he => skipped_of_load (load_of_unread h he)
  unparsed := by
    intro bytes e h he
    obtain ⟨reason, hload⟩ := exists_load_of_unparsed h he
    exact skipped_of_load hload
  parsed := by
    intro bytes u h hu
    have hload := load_of_parsed h hu
    refine ⟨(declares_of_load hload).1, ?_⟩
    rw [runFile, hload]
    exact runClasses_ran
  fresh := get?_ofFile disk.work p
  around := fun _ => Disk.find_directory
  nameless := by
    intro h
    rw [runFile, Source.load, h]

/-- A file in the working directory, with a type of more layers than calls can usually be nested. -/
def deepDisk : Disk :=
  ⟨["src"], .folder "src" (.file "x.moho" (deepField.map fun c => c.toNat.toUInt8) .empty) .empty⟩

/-- A file that is read and parsed can be given up before the runner is called. -/
theorem runFile_deepDisk : ∃ u, Source.load deepDisk ⟨["x.moho"]⟩ = .ok u ∧
    u.classes.length = 1 ∧
    runFile servedConfig deepDisk quietHost ⟨["x.moho"]⟩ = ⟨.error .tooDeep, [], []⟩ := by
  have hdeep : (Source.load deepDisk ⟨["x.moho"]⟩).toOption.map (fun u =>
      u.classes.map fun c => (Scope.classEntries? quietHost.depth c).isNone) = some [true] := by
    decide +kernel
  obtain ⟨u, hload, hclasses⟩ := exists_ok_of_map hdeep
  obtain ⟨c, hc, hnone⟩ := List.map_eq_singleton_iff.1 hclasses
  refine ⟨u, hload, by rw [hc]; rfl, ?_⟩
  rw [runFile, hload]
  simp only [hc]
  rw [runClasses, Option.isNone_iff_eq_none.1 hnone]

end Template

end ClassLang
