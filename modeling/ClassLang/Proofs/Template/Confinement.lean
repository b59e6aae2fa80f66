import ClassLang.Proofs.Build.WellFormed
import ClassLang.Proofs.Template.Preparation

/-!
# Templates are confined

The runner is only ever given templates that are files in the template directory itself. A base is
a name, so a path that is made from it and from a suffix without slashes leads nowhere else, and
what is chosen is either seen to be a file or it is the default template, which is there once the
directory has been prepared. Main statement: `play_confined`, for every call of every run.
-/

namespace ClassLang.Template

variable {config : Config} {disk : Disk} {host : Host} {p : Path}

/-! ### The choice of a template -/

/-- A template for a class with these bases: a file in the template directory, which is the one that
is named for the first base if there is such a file, and else the default one. -/
structure Serves (config : Config) (disk : Disk) (bases : List String) (template : Path) :
    Prop where
  isFile : disk.isFile template = true
  inside : ∃ name folder content, Path.IsPlain name ∧ template = config.templatePath.join name ∧
    disk.find config.templatePath.names = .ok (.folder folder) ∧
    folder.find? name = some (.file content)
  own : ∀ base ∈ bases.head?, disk.isFile (config.basePath base) = true →
    template = config.basePath base
  other : (∀ base ∈ bases.head?, disk.isFile (config.basePath base) = false) →
    template = config.defaultPath

/-- What the paths of templates are safe under: the directory has a path, no suffix leads out of it,
the default template has a name of its own, and it is a file. -/
structure Ready (config : Config) (disk : Disk) : Prop where
  path : config.templatePath.text ≠ ""
  suffix : '/' ∉ config.templateSuffix.toList
  plain : Path.IsPlain config.defaultTemplate
  isFile : disk.isFile config.defaultPath = true

/-- A name stays a plain one whatever is written behind it without a slash. -/
theorem isPlain_append {base suffix : String} (hb : Pattern.IsName base.toList)
    (hs : '/' ∉ suffix.toList) : Path.IsPlain (base ++ suffix) := by
  cases hlist : base.toList with
  | nil =>
    rw [hlist] at hb
    exact hb.elim
  | cons c cs =>
    rw [hlist] at hb
    obtain ⟨hstart, hrest⟩ := hb
    have htext : (base ++ suffix).toList = c :: (cs ++ suffix.toList) := by
      rw [String.toList_append, hlist, List.cons_append]
    have hdot : c ≠ '.' := by
      rintro rfl
      exact absurd hstart (by decide)
    have hslash : '/' ∉ c :: cs := by
      intro hmem
      obtain rfl | hmem := List.mem_cons.1 hmem
      · exact absurd hstart (by decide)
      · exact absurd (hrest _ hmem) (by decide)
    refine ⟨?_, ?_, ?_, ?_⟩
    · rintro heq
      rw [heq] at htext
      cases htext
    · rintro heq
      rw [heq] at htext
      exact hdot (List.cons.inj htext).1.symm
    · rintro heq
      rw [heq] at htext
      exact hdot (List.cons.inj htext).1.symm
    · rw [htext, ← List.cons_append]
      exact fun hmem => (List.mem_append.1 hmem).elim hslash hs

theorem inside_of_isFile {name : String} (hpath : config.templatePath.text ≠ "")
    (hname : Path.IsPlain name) (h : disk.isFile (config.templatePath.join name) = true) :
    ∃ folder content, disk.find config.templatePath.names = .ok (.folder folder) ∧
      folder.find? name = some (.file content) := by
  obtain ⟨content, hlook⟩ := Disk.exists_look_of_isFile h
  obtain ⟨folder, hfolder, hfile⟩ := Disk.find_join hpath hname (Disk.look_eq_ok.1 hlook).2
  exact ⟨folder, content, hfolder, hfile⟩

theorem serves_default (h : Ready config disk) {bases : List String}
    (hnone : ∀ base ∈ bases.head?, disk.isFile (config.basePath base) = false) :
    Serves config disk bases config.defaultPath where
  isFile := h.isFile
  inside := by
    obtain ⟨folder, content, hinside⟩ := inside_of_isFile h.path h.plain h.isFile
    exact ⟨_, folder, content, h.plain, rfl, hinside⟩
  own := by
    intro base hbase hfile
    rw [hnone base hbase] at hfile
    cases hfile
  other := fun _ => rfl

theorem serves_choose (h : Ready config disk) {c : Class}
    (hbases : ∀ base ∈ c.bases, Pattern.IsName base.toList) :
    Serves config disk c.bases (choose config disk c.name c.primaryBase).1 := by
  rw [Class.primaryBase]
  cases hhead : c.bases.head? with
  | none =>
    refine serves_default h ?_
    rw [hhead]
    exact nofun
  | some base =>
    have hname := isPlain_append (hbases base (List.mem_of_head? hhead)) h.suffix
    by_cases hfile : disk.isFile (config.basePath base) = true
    · have hown : choose config disk c.name (some base) = (config.basePath base, []) :=
        if_pos hfile
      rw [hown]
      obtain ⟨folder, content, hinside⟩ := inside_of_isFile h.path hname hfile
      refine ⟨hfile, ⟨_, folder, content, hname, rfl, hinside⟩, ?_, ?_⟩
      · intro other hother _
        rw [Option.some.inj (hhead.symm.trans hother)]
      · intro hnone
        rw [hnone base hhead] at hfile
        cases hfile
    · have hother : choose config disk c.name (some base) =
          (config.defaultPath, [.noTemplate base c.name]) := if_neg hfile
      rw [hother]
      refine serves_default h ?_
      intro other hother
      rw [← Option.some.inj (hhead.symm.trans hother)]
      exact Bool.eq_false_iff.2 hfile

/-! ### The template directory -/

theorem text_ne_of_prepare {made : Path} {after : Disk} {events : List Event}
    (h : prepare config disk = (.ok made, after, events)) : config.templatePath.text ≠ "" := by
  obtain ⟨-, mid, hfolder, -⟩ := prepare_eq_ok h
  rw [makeFolder] at hfolder
  split at hfolder
  · exact (Disk.check_eq_ok.1 (Disk.isDirectory_iff.1 ‹_›).1).2.1
  · exact Disk.text_ne_of_makeDirectories (Prod.mk.inj hfolder).1

theorem ready_of_prepare {made : Path} {after : Disk} {events : List Event}
    (hsuffix : '/' ∉ config.templateSuffix.toList) (hplain : Path.IsPlain config.defaultTemplate)
    (hdir : after.isDirectory config.defaultPath = false)
    (h : prepare config disk = (.ok made, after, events)) : Ready config after :=
  ⟨text_ne_of_prepare h, hsuffix, hplain, Disk.isFile_of_contains (contains_of_prepare h) hdir⟩

/-! ### The calls for a file -/

/-- The classes that are declared in a file, in the order of its text. -/
def Declares (disk : Disk) (p : Path) (classes : List Class) : Prop :=
  ∃ bytes cs range ts, disk.read p = .ok bytes ∧ Utf8.decode bytes = .ok cs ∧
    tokenize .unit (Newline.normalize cs) = .ok (.node (.known .unit) range ts) ∧
    List.Forall₂ (Tree.DenotesClass (Newline.normalize cs)) ts classes

/-- Calls for the first classes of a list, each with a template that serves its class. -/
def Served (config : Config) (disk : Disk) (classes : List Class) (calls : List Call) : Prop :=
  ∃ front, front <+: classes ∧
    List.Forall₂ (fun c call => Serves config disk c.bases call.template) front calls

/-- What is loaded from a file are the classes it declares, and their bases are names. -/
theorem declares_of_load {u : SourceUnit} (h : Source.load disk p = .ok u) :
    Declares disk p u.classes ∧ ∀ c ∈ u.classes, ∀ base ∈ c.bases, Pattern.IsName base.toList := by
  rw [Source.load] at h
  split at h
  · cases h
  · cases h
  rename_i bytes hread
  split at h
  · cases h
    rename_i hparse
    rw [parseBytes] at hparse
    split at hparse
    · cases hparse
    rename_i cs hdecode
    split at hparse
    · cases hparse
    · cases hparse
      rename_i hunit
      obtain ⟨range, ts, htree, hclasses⟩ := classes_of_parse hunit
      have hsound := StartRule.sound_of_read (read_of_tokenize htree)
      refine ⟨⟨bytes, cs, range, ts, hread, hdecode, htree, hclasses⟩, ?_⟩
      exact fun c hc => (Tree.forall_denoted hclasses hsound.child
        (fun _ _ => Tree.DenotesClass.wellFormed) c hc).bases
  · cases h
  · cases h

theorem served_nil (classes : List Class) : Served config disk classes [] :=
  ⟨[], List.nil_prefix, .nil⟩

theorem Served.cons {c : Class} {classes : List Class} {call : Call} {calls : List Call}
    (hc : Serves config disk c.bases call.template) (h : Served config disk classes calls) :
    Served config disk (c :: classes) (call :: calls) := by
  obtain ⟨front, hfront, hcalls⟩ := h
  exact ⟨c :: front, List.cons_prefix_cons.2 ⟨rfl, hfront⟩, .cons hc hcalls⟩

/-- The calls made so far are the first of all calls. -/
theorem Served.front {classes : List Class} {calls more : List Call}
    (h : Served config disk classes (calls ++ more)) : Served config disk classes calls := by
  obtain ⟨front, hfront, hcalls⟩ := h
  refine ⟨front.take calls.length, (List.take_prefix _ _).trans hfront, ?_⟩
  have htake := List.forall₂_take calls.length hcalls
  rwa [List.take_left] at htake

theorem runClasses_served (h : Ready config disk) {classes : List Class}
    (hbases : ∀ c ∈ classes, ∀ base ∈ c.bases, Pattern.IsName base.toList) (scope : Scope) :
    Served config disk classes (runClasses config disk host scope classes).calls ∧
      ((runClasses config disk host scope classes).result = .ok true →
        (runClasses config disk host scope classes).calls.length = classes.length) := by
  induction classes generalizing scope with
  | nil => exact ⟨served_nil [], fun _ => rfl⟩
  | cons c classes ih =>
    obtain ⟨hc, hclasses⟩ := List.forall_mem_cons.1 hbases
    have hserves := serves_choose h hc
    cases hdescribed : Scope.classEntries? host.depth c with
    | none =>
      rw [runClasses_of_none hdescribed]
      refine ⟨served_nil _, fun hresult => ?_⟩
      cases hresult
    | some entries =>
      rw [runClasses_of_some hdescribed, execute]
      cases host.runner (choose config disk c.name c.primaryBase).1 (scope.setAll entries) with
      | error message =>
        -- the class was served before its template failed, and the classes behind it are not
        refine ⟨(served_nil classes).cons hserves, fun hresult => ?_⟩
        cases hresult
      | ok after =>
        obtain ⟨hserved, hall⟩ := ih hclasses after
        exact ⟨hserved.cons hserves, fun hresult => congrArg Nat.succ (hall hresult)⟩

/-- What is known of the calls for a file so far: there are none for a file that gives no unit, and
those for one that does are for its first classes, or for all of them once it was run. -/
structure Confined (config : Config) (disk : Disk) (p : Path) (calls : List Call) (done : Prop) :
    Prop where
  skipped : ∀ cause, Source.load disk p = .error cause → calls = []
  loaded : ∀ u, Source.load disk p = .ok u → Declares disk p u.classes ∧
    Served config disk u.classes calls ∧ (done → calls.length = u.classes.length)

theorem runFile_confined (h : Ready config disk) :
    Confined config disk p (runFile config disk host p).calls
      ((runFile config disk host p).result = .ok true) where
  skipped := by
    intro cause hcause
    rw [runFile, hcause]
    cases cause <;> rfl
  loaded := by
    intro u hu
    obtain ⟨hdeclares, hbases⟩ := declares_of_load hu
    rw [runFile, hu]
    exact ⟨hdeclares, runClasses_served h hbases _⟩

theorem Served.exists_class {classes : List Class} {calls : List Call} {call : Call}
    (h : Served config disk classes calls) (hcall : call ∈ calls) :
    ∃ c ∈ classes, Serves config disk c.bases call.template := by
  obtain ⟨front, hfront, hcalls⟩ := h
  obtain ⟨n, hn, rfl⟩ := List.mem_iff_getElem.1 hcall
  have hlength : n < front.length := hcalls.length_eq ▸ hn
  exact ⟨front[n], hfront.subset (List.getElem_mem hlength), hcalls.get hlength hn⟩

/-! ### Whole runs -/

namespace Pool

variable {paths : List Path} {pool : Pool} {file : Nat}

/-- The calls so far for a file are the first of those that it has on its own, and once the work on
it has ended they are all of them. -/
theorem Sound.calls (h : pool.Sound config disk host paths) (hp : paths[file]? = some p) :
    ∃ more, (runFile config disk host p).calls = ofFile file pool.calls ++ more ∧
      ∀ result, pool.works[file]? = some (.ended result) →
        more = [] ∧ (runFile config disk host p).result = result := by
  cases hw : pool.works[file]? with
  | none =>
    -- work on the file was not started
    have hnone : ofFile file pool.calls = [] := by
      refine ofFile_eq_nil fun call hcall htag => ?_
      have hlength := h.tagged.1 call hcall
      have hover := List.getElem?_eq_none_iff.1 hw
      omega
    exact ⟨_, by rw [hnone, List.nil_append], nofun⟩
  | some w =>
    have hconserved := h.conserved file p w hp hw
    refine ⟨(w.remaining config disk host p pool.scopes).calls, ?_, ?_⟩
    · rw [← hconserved]
      rfl
    · intro result hresult
      obtain rfl := Option.some.inj hresult
      rw [← hconserved]
      exact ⟨rfl, rfl⟩

theorem Sound.confined (h : pool.Sound config disk host paths) (hready : Ready config disk)
    (hp : paths[file]? = some p) :
    Confined config disk p (ofFile file pool.calls)
      (pool.works[file]? = some (.ended (.ok true))) := by
  obtain ⟨more, hcalls, hended⟩ := h.calls hp
  have hconfined := @runFile_confined _ _ host p hready
  rw [hcalls] at hconfined
  refine ⟨fun cause hcause => ?_, fun u hu => ?_⟩
  · exact (List.append_eq_nil_iff.1 (hconfined.skipped cause hcause)).1
  · obtain ⟨hdeclares, hserved, hall⟩ := hconfined.loaded u hu
    refine ⟨hdeclares, hserved.front, fun hwork => ?_⟩
    obtain ⟨rfl, hresult⟩ := hended _ hwork
    rw [List.append_nil] at hall
    exact hall hresult

end Pool

theorem ready_of_opening {paths : List Path} {after : Disk} {events : List Event}
    (hsuffix : '/' ∉ config.templateSuffix.toList) (hplain : Path.IsPlain config.defaultTemplate)
    (hdir : (prepare config disk).2.1.isDirectory config.defaultPath = false)
    (h : opening config disk = (.ok paths, after, events)) : Ready config after := by
  rw [(opening_ok h).1]
  rw [opening] at h
  split at h
  · cases h
  · rename_i hprepare
    rw [hprepare] at hdir ⊢
    exact ready_of_prepare hsuffix hplain hdir hprepare

/-- What is called file by file is called for one of the files. -/
theorem exists_file_of_run {call : Call} (h : call ∈ (run config disk host).calls) :
    ∃ paths after events p, opening config disk = (.ok paths, after, events) ∧
      call ∈ (runFile config after host p).calls := by
  rw [run] at h
  rw [opening]
  cases hprepare : prepare config disk with
  | mk made rest =>
    obtain ⟨after, events⟩ := rest
    cases made with
    | error e =>
      simp only [hprepare] at h
      exact absurd h List.not_mem_nil
    | ok place =>
      cases hfound : Source.discover after config.runPath config.extension with
      | error e =>
        simp only [hprepare, hfound] at h
        exact absurd h List.not_mem_nil
      | ok paths =>
        simp only [hprepare, hfound] at h ⊢
        rw [RunReport.after, runFiles] at h
        split at h
        · exact absurd h List.not_mem_nil
        rename_i hempty
        split at h
        · exact absurd h List.not_mem_nil
        rename_i hworkers
        rw [if_neg hempty, if_neg hworkers]
        obtain ⟨report, hreport, hcall⟩ := List.mem_flatMap.1 h
        obtain ⟨p, -, rfl⟩ := List.mem_map.1 hreport
        exact ⟨paths, after, _, p, rfl, hcall⟩

/-- Templates do not leave the template directory and are always there. Whatever the sources, the
runner and the schedule, a run is either refused and calls nothing, or each call is made for one of
the files that were found, and the calls for a file give the templates that serve its classes, in
their order and whatever names it uses as bases. The default template must have a name of its own,
and there must be no directory of that name when the template directory has been prepared. -/
theorem play_confined (hsuffix : '/' ∉ config.templateSuffix.toList)
    (hplain : Path.IsPlain config.defaultTemplate)
    (hdir : (prepare config disk).2.1.isDirectory config.defaultPath = false) :
    (∀ schedule pool, play config disk host schedule = some pool →
      (∃ e, (opening config disk).1 = .error e ∧ pool.calls = []) ∨
      ∃ paths, (opening config disk).1 = .ok paths ∧
        (∀ call ∈ pool.calls, call.1 < paths.length) ∧
        ∀ file p, paths[file]? = some p →
          Confined config (prepare config disk).2.1 p (Pool.ofFile file pool.calls)
            (pool.works[file]? = some (.ended (.ok true)))) ∧
    ∀ call ∈ (run config disk host).calls, ∃ p u c,
      Source.load (prepare config disk).2.1 p = .ok u ∧ c ∈ u.classes ∧
        Serves config (prepare config disk).2.1 c.bases call.template := by
  refine ⟨fun schedule pool hplay => ?_, fun call hcall => ?_⟩
  · cases ho : opening config disk with
    | mk files rest =>
      obtain ⟨after, events⟩ := rest
      cases files with
      | error e =>
        obtain ⟨-, rfl⟩ := play_refused ho hplay
        exact Or.inl ⟨e, rfl, rfl⟩
      | ok paths =>
        have hready := ready_of_opening hsuffix hplain hdir ho
        have hsound := sound_play ho hplay
        simp only [Except.toOption, Option.getD_some] at hsound
        obtain ⟨rfl, -⟩ := opening_ok ho
        refine Or.inr ⟨paths, rfl, ?_, fun file p hp => hsound.confined hready hp⟩
        intro call hcall
        have htag := hsound.tagged.1 call hcall
        have hworks := hsound.started
        omega
  · obtain ⟨paths, after, events, p, ho, hcall⟩ := exists_file_of_run hcall
    have hready := ready_of_opening hsuffix hplain hdir ho
    obtain ⟨rfl, -⟩ := opening_ok ho
    have hconfined := @runFile_confined _ _ host p hready
    cases hload : Source.load (prepare config disk).2.1 p with
    | error cause =>
      rw [hconfined.skipped cause hload] at hcall
      exact absurd hcall List.not_mem_nil
    | ok u =>
      obtain ⟨c, hc, hserves⟩ := (hconfined.loaded u hload).2.1.exists_class hcall
      exact ⟨p, u, c, hload, hc, hserves⟩

/-- A source file with a class that has a base and one that has none, and a template for this
base. -/
def servedDisk : Disk :=
  ⟨[], .folder "src" (.file "x.moho"
    ("class A : B \x7b \x7d class C \x7b \x7d".toList.map fun c => c.toNat.toUInt8) .empty)
    (.folder "t" (.file "B.rhai" [] .empty) .empty)⟩

def servedConfig : Config := { runPath := ⟨["src"]⟩, templatePath := ⟨["t"]⟩ }

theorem play_confined_servedDisk :
    (∃ p u c, Source.load (prepare servedConfig servedDisk).2.1 p = .ok u ∧ c ∈ u.classes ∧
      Serves servedConfig (prepare servedConfig servedDisk).2.1 c.bases ⟨["t", "B.rhai"]⟩) ∧
    ∃ pool, play servedConfig servedDisk quietHost
        (.submit :: .start :: List.replicate 22 (.advance 0)) = some pool ∧
      pool.calls.length = 2 ∧
      Confined servedConfig (prepare servedConfig servedDisk).2.1 ⟨["src", "x.moho"]⟩
        (Pool.ofFile 0 pool.calls) (pool.works[0]? = some (.ended (.ok true))) := by
  have hplain : Path.IsPlain servedConfig.defaultTemplate := by
    refine ⟨?_, ?_, ?_, ?_⟩ <;> decide
  obtain ⟨hplay, hrun⟩ := @play_confined servedConfig servedDisk quietHost (by decide)
    hplain (by decide +kernel)
  constructor
  · have hany : ((run servedConfig servedDisk quietHost).calls.any
        fun call => call.template = ⟨["t", "B.rhai"]⟩) = true := by decide +kernel
    obtain ⟨call, hcall, htemplate⟩ := List.any_eq_true.1 hany
    rw [← of_decide_eq_true htemplate]
    exact hrun call hcall
  · have hcalls : ((play servedConfig servedDisk quietHost
        (.submit :: .start :: List.replicate 22 (.advance 0))).map fun pool => pool.calls.length) =
        some 2 := by decide +kernel
    have hfound : (opening servedConfig servedDisk).1.toOption =
        some [⟨["src", "x.moho"]⟩] := by decide +kernel
    obtain ⟨pool, hpool, hlength⟩ := Option.map_eq_some_iff.1 hcalls
    refine ⟨pool, hpool, hlength, ?_⟩
    obtain ⟨e, herror, -⟩ | ⟨paths, hpaths, -, hconfined⟩ := hplay _ pool hpool
    · rw [herror] at hfound
      cases hfound
    · rw [hpaths] at hfound
      obtain rfl := Option.some.inj hfound
      exact hconfined 0 _ rfl

/-- The template directory is the one around a directory that has the name of the default template
and is not there yet. -/
def roundaboutConfig : Config :=
  { runPath := ⟨["src"]⟩, templatePath := ⟨["a", ".."]⟩, defaultTemplate := "a" }

/-- A directory that is made on the way to the template directory can be in the place of the default
template: before such a run there is no directory of that name, and in it one is given to the
runner. -/
theorem run_roundaboutConfig :
    '/' ∉ roundaboutConfig.templateSuffix.toList ∧
    Path.IsPlain roundaboutConfig.defaultTemplate ∧
    servedDisk.isDirectory roundaboutConfig.defaultPath = false ∧
    ∃ call ∈ (run roundaboutConfig servedDisk quietHost).calls,
      (run roundaboutConfig servedDisk quietHost).disk.isFile call.template = false ∧
      (run roundaboutConfig servedDisk quietHost).disk.isDirectory call.template = true := by
  have hplain : Path.IsPlain roundaboutConfig.defaultTemplate := by
    refine ⟨?_, ?_, ?_, ?_⟩ <;> decide
  have hany : ((run roundaboutConfig servedDisk quietHost).calls.any fun call =>
      !(run roundaboutConfig servedDisk quietHost).disk.isFile call.template &&
        (run roundaboutConfig servedDisk quietHost).disk.isDirectory call.template) =
      true := by decide +kernel
  obtain ⟨call, hcall, hkinds⟩ := List.any_eq_true.1 hany
  obtain ⟨hfile, hfolder⟩ := Bool.and_eq_true_iff.1 hkinds
  exact ⟨by decide, hplain, by decide +kernel, call, hcall,
    Bool.eq_false_iff.2 fun h => by simp only [h, Bool.not_true, Bool.false_eq_true] at hfile,
    hfolder⟩

end ClassLang.Template
