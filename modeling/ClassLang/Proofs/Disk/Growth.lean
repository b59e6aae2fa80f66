import ClassLang.Proofs.Disk.Place

/-!
# Growth

What is seen of a disk is which places have a file, with which content, and which have a folder. A
new entry is made where nothing is, and nothing else is seen to change (`Disk.IsFree.grows`), so
whatever only adds entries, one after the other, leaves all that was there as it was, and all that
is new has been made by one of the steps (`Disk.Adds.grows`). Making the directories on the way to a
path is of that kind (`Disk.adds_makeDirectories`), and so is making an empty file
(`Disk.adds_touch`).
-/

namespace ClassLang

/-- What stands at a place: a file with its content, or a folder, whatever it holds. -/
inductive Kind where
  | file (content : List UInt8)
  | folder
  deriving DecidableEq, Repr

def Entry.kind : Entry → Kind
  | .file content => .file content
  | .folder _ => .folder

/-- A new entry of a kind. -/
def Kind.entry : Kind → Entry
  | file content => .file content
  | folder => .folder .empty

theorem Entry.exists_folder {e : Entry} (h : e.kind = .folder) : ∃ d, e = .folder d := by
  cases e with
  | file content => cases h
  | folder d => exact ⟨d, rfl⟩

/-! ### New entries in a directory -/

namespace Directory

variable {d inner : Directory} {place other names : List String} {name : String} {e : Entry}
  {kind : Kind}

/-- What stands at a place of a directory. -/
def kindAt? (place : List String) (d : Directory) : Option Kind := (d.entryAt? place).map Entry.kind

theorem kindAt?_cons_congr {d' : Directory} (h : d.find? name = d'.find? name) :
    d.kindAt? (name :: names) = d'.kindAt? (name :: names) := by
  rw [kindAt?, kindAt?, entryAt?, entryAt?, h]

theorem kindAt?_folder (h : d.find? name = some (.folder inner)) :
    d.kindAt? (name :: names) = inner.kindAt? names := by
  rw [kindAt?, kindAt?, entryAt?_folder h]

/-- Nothing stands below a new entry. -/
theorem kindAt?_new (h : d.find? name = some kind.entry) :
    d.kindAt? (name :: names) = if names = [] then some kind else none := by
  cases kind with
  | file content =>
    have hfile : d.find? name = some (.file content) := h
    rw [kindAt?, entryAt?, hfile]
    show Option.map Entry.kind (if names = [] then some (.file content) else none) = _
    split <;> rfl
  | folder =>
    rw [kindAt?_folder h]
    cases names <;> rfl

theorem kindAt?_of_find?_none (h : d.find? name = none) : d.kindAt? (name :: names) = none := by
  rw [kindAt?, entryAt?, h]
  rfl

theorem putAt_cons (h : d.find? name = some (.folder inner)) (hne : names ≠ []) :
    d.putAt (name :: names) e = d.put name (.folder (inner.putAt names e)) := by
  cases names with
  | nil => exact absurd rfl hne
  | cons n names =>
    rw [putAt, h]
    exact List.cons_ne_nil _ _

theorem putAt_snoc_cons (h : d.find? name = some (.folder inner)) (n : String) :
    d.putAt (name :: place ++ [n]) e = d.put name (.folder (inner.putAt (place ++ [n]) e)) :=
  putAt_cons h (List.append_ne_nil_of_right_ne_nil _ (List.cons_ne_nil _ _))

/-- A new entry where nothing was is all that is seen to change. -/
theorem kindAt?_putAt (h : d.entryAt? place = some (.folder inner))
    (hfree : inner.find? name = none) :
    (d.putAt (place ++ [name]) kind.entry).kindAt? other =
      if other = place ++ [name] then some kind else d.kindAt? other := by
  induction place generalizing d other with
  | nil =>
    obtain rfl := Entry.folder.inj (Option.some.inj h)
    show (d.put name kind.entry).kindAt? other = _
    cases other with
    | nil => rfl
    | cons o other =>
      by_cases hne : name = o
      · subst hne
        rw [kindAt?_new (find?_put_self _ _ _), kindAt?_of_find?_none hfree]
        simp only [List.nil_append, List.cons.injEq, true_and]
      · rw [kindAt?_cons_congr (find?_put_of_ne hne _ _), if_neg]
        exact fun ho => hne (List.cons.inj ho).1.symm
  | cons n place ih =>
    obtain ⟨next, hnext, h⟩ := exists_next h
    rw [putAt_snoc_cons hnext]
    cases other with
    | nil => rfl
    | cons o other =>
      by_cases hne : n = o
      · subst hne
        rw [kindAt?_folder (find?_put_self _ _ _), kindAt?_folder hnext, ih h]
        simp only [List.cons_append, List.cons.injEq, true_and]
      · rw [kindAt?_cons_congr (find?_put_of_ne hne _ _), if_neg]
        exact fun ho => hne (List.cons.inj ho).1.symm

end Directory

namespace Disk

variable {disk mid after : Disk} {p q : Path} {place names : List String} {name : String}
  {d : Directory} {kind : Kind} {content : List UInt8} {gain gain' : List String → Kind → Prop}

/-! ### Growth -/

def kindAt? (disk : Disk) (place : List String) : Option Kind := disk.top.kindAt? place

/-- The place that names lead to. -/
def placeOf (disk : Disk) (names : List String) : List String :=
  Path.normalize (disk.namesBelow names)

/-- A place on the way to a path. -/
def IsWaypoint (disk : Disk) (p : Path) (place : List String) : Prop :=
  ∃ names, names <+: p.names ∧ place = disk.placeOf names

/-- All that is on a disk is on another one as well, and what is there beside it is a gain. -/
structure Grows (gain : List String → Kind → Prop) (disk after : Disk) : Prop where
  work : after.work = disk.work
  kept : ∀ place kind, disk.kindAt? place = some kind → after.kindAt? place = some kind
  gained : ∀ place kind, disk.kindAt? place = none → after.kindAt? place = some kind →
    gain place kind

theorem Grows.refl (disk : Disk) : Grows gain disk disk :=
  ⟨rfl, fun _ _ h => h, fun _ _ hnone h => by rw [hnone] at h; cases h⟩

theorem Grows.trans (h : Grows gain disk mid) (h' : Grows gain mid after) :
    Grows gain disk after where
  work := h'.work.trans h.work
  kept place kind hkind := h'.kept place kind (h.kept place kind hkind)
  gained place kind hnone hkind := by
    cases hmid : mid.kindAt? place with
    | none => exact h'.gained place kind hmid hkind
    | some k =>
      obtain rfl := Option.some.inj ((h'.kept place k hmid).symm.trans hkind)
      exact h.gained place k hnone hmid

theorem Grows.imp (h : Grows gain disk after)
    (hgain : ∀ place kind, gain place kind → gain' place kind) : Grows gain' disk after where
  work := h.work
  kept := h.kept
  gained place kind hnone hkind := hgain place kind (h.gained place kind hnone hkind)

theorem Grows.namesBelow (h : Grows gain disk after) (names : List String) :
    after.namesBelow names = disk.namesBelow names := by
  rw [Disk.namesBelow, Disk.namesBelow, h.work]

theorem Grows.placeOf (h : Grows gain disk after) (names : List String) :
    after.placeOf names = disk.placeOf names := by
  rw [Disk.placeOf, Disk.placeOf, h.namesBelow]

theorem exists_of_kindAt? (h : disk.kindAt? place = some kind) :
    ∃ e, disk.top.entryAt? place = some e ∧ e.kind = kind :=
  Option.map_eq_some_iff.1 h

theorem Grows.keeps (h : Grows gain disk after) : disk.Keeps after := by
  intro place d hd
  have hkind : disk.kindAt? place = some .folder := by rw [kindAt?, Directory.kindAt?, hd]; rfl
  obtain ⟨e, he, hfolder⟩ := exists_of_kindAt? (h.kept place .folder hkind)
  obtain ⟨d', rfl⟩ := Entry.exists_folder hfolder
  exact ⟨d', he⟩

theorem Grows.find (h : Grows gain disk after) (hd : disk.find names = .ok (.folder d)) :
    ∃ d', after.find names = .ok (.folder d') := by
  obtain ⟨d', hd'⟩ := h.keeps _ _ (entryAt?_of_follow hd)
  have hfollow : after.follow [] (disk.namesBelow names ++ []) =
      after.follow ((disk.namesBelow names).foldl Path.push []) [] := follow_append h.keeps hd
  rw [List.append_nil] at hfollow
  refine ⟨d', ?_⟩
  rw [Disk.find, h.namesBelow, hfollow]
  exact follow_nil_eq_ok.2 hd'

theorem Grows.isDirectory (h : Grows gain disk after) (hd : disk.isDirectory p = true) :
    after.isDirectory p = true := by
  obtain ⟨hcheck, d, hfind⟩ := isDirectory_iff.1 hd
  exact isDirectory_iff.2 ⟨hcheck, h.find hfind⟩

/-! ### Where nothing is -/

/-- Nothing is at a path, whose last name can be made in a directory that is there. -/
structure IsFree (disk : Disk) (p : Path) (front : List String) (name : String) (d : Directory) :
    Prop where
  names : p.names = front ++ [name]
  step : Path.IsStep name
  folder : disk.find front = .ok (.folder d)
  free : d.find? name = none
  short : ¬ nameLimit < name.utf8ByteSize

theorem exists_isFree (hmissing : disk.find p.names = .error .missing)
    (hfolder : disk.hasFolder p.around.names = true) :
    ∃ front name d, disk.IsFree p front name d := by
  obtain hnil | ⟨front, name, hnames⟩ := List.eq_nil_or_concat p.names
  · rw [Path.around, hnil, List.dropLast_nil, hasFolder] at hfolder
    rw [hnil] at hmissing
    rw [hmissing] at hfolder
    cases hfolder
  rw [List.concat_eq_append] at hnames
  rw [Path.around, hnames, List.dropLast_concat, hasFolder] at hfolder
  split at hfolder
  · rename_i d hfront
    rw [hnames] at hmissing
    have hne : front = [] → name ≠ "" := by
      rintro rfl rfl
      cases hmissing
    rw [find, namesBelow_snoc hne] at hmissing
    have hstep := isStep_of_follow hfront fun inner hinner => by
      rw [hmissing] at hinner
      cases hinner
    rw [follow_step (.refl disk) hstep hfront] at hmissing
    split at hmissing
    · cases hmissing
    rename_i hshort
    split at hmissing
    · rename_i hnone
      rw [Directory.entryAt?_snoc (entryAt?_of_follow hfront)] at hnone
      exact ⟨front, name, d, hnames, hstep, hfront, hnone, hshort⟩
    · cases hmissing
  · cases hfolder

namespace IsFree

variable {front : List String}

theorem placeOf (h : disk.IsFree p front name d) :
    disk.placeOf p.names = disk.placeOf front ++ [name] := by
  rw [Disk.placeOf, h.names, namesBelow_snoc fun _ => h.step.1, Path.normalize, List.foldl_append]
  exact Path.push_of_isStep h.step _

theorem kindAt?_eq_none (h : disk.IsFree p front name d) :
    disk.kindAt? (disk.placeOf p.names) = none := by
  have hentry : disk.top.entryAt? (disk.placeOf front ++ [name]) = none :=
    (Directory.entryAt?_snoc (entryAt?_of_follow h.folder)).trans h.free
  rw [h.placeOf, Disk.kindAt?, Directory.kindAt?, hentry]
  rfl

theorem kindAt?_put (h : disk.IsFree p front name d) (kind : Kind) (other : List String) :
    (disk.put p kind.entry).kindAt? other =
      if other = disk.placeOf p.names then some kind else disk.kindAt? other := by
  show (disk.top.putAt (disk.placeOf p.names) kind.entry).kindAt? other = _
  rw [h.placeOf]
  exact Directory.kindAt?_putAt (entryAt?_of_follow h.folder) h.free

/-- What is new is what has been put there. -/
theorem grows (h : disk.IsFree p front name d) (kind : Kind) :
    Grows (fun place k => k = kind ∧ place = disk.placeOf p.names) disk
      (disk.put p kind.entry) where
  work := rfl
  kept place k hk := by
    rw [h.kindAt?_put, if_neg]
    · exact hk
    · rintro rfl
      rw [h.kindAt?_eq_none] at hk
      cases hk
  gained place k hnone hk := by
    rw [h.kindAt?_put] at hk
    split at hk
    · exact ⟨(Option.some.inj hk).symm, ‹_›⟩
    · rw [hnone] at hk
      cases hk

/-- What has been put somewhere is found there. -/
theorem find_put (h : disk.IsFree p front name d) (kind : Kind) :
    ∃ e, (disk.put p kind.entry).find p.names = .ok e ∧ e.kind = kind := by
  have hkind : (disk.put p kind.entry).kindAt? (disk.placeOf p.names) = some kind := by
    rw [h.kindAt?_put, if_pos rfl]
  obtain ⟨e, he, hk⟩ := exists_of_kindAt? hkind
  have hplace : (disk.namesBelow front).foldl Path.push [] ++ [name] = disk.placeOf p.names :=
    h.placeOf.symm
  refine ⟨e, ?_, hk⟩
  show (disk.put p kind.entry).follow [] (disk.namesBelow p.names) = .ok e
  rw [h.names, namesBelow_snoc fun _ => h.step.1, follow_step (h.grows kind).keeps h.step h.folder,
    if_neg h.short, hplace, he]

end IsFree

/-! ### New entries -/

/-- What a disk becomes by new entries, made one after the other, each where nothing is. -/
inductive Adds (new : Path → Kind → Prop) (disk : Disk) : Disk → Prop
  | same : Adds new disk disk
  | put {mid : Disk} {p : Path} {kind : Kind} {front : List String} {name : String} {d : Directory}
    (h : Adds new disk mid) (hfree : mid.IsFree p front name d) (hnew : new p kind) :
    Adds new disk (mid.put p kind.entry)

namespace Adds

variable {new new' : Path → Kind → Prop}

theorem trans (h : Adds new disk mid) (h' : Adds new mid after) : Adds new disk after := by
  induction h' with
  | same => exact h
  | put _ hfree hnew ih => exact ih.put hfree hnew

theorem imp (h : Adds new disk after) (hnew : ∀ p kind, new p kind → new' p kind) :
    Adds new' disk after := by
  induction h with
  | same => exact .same
  | put _ hfree hp ih => exact ih.put hfree (hnew _ _ hp)

/-- What is there beside what was there before is one of the new entries. -/
theorem grows (h : Adds new disk after) :
    Grows (fun place kind => ∃ p, new p kind ∧ place = disk.placeOf p.names) disk after := by
  induction h with
  | same => exact .refl disk
  | put _ hfree hnew ih =>
    refine ih.trans ((hfree.grows _).imp ?_)
    rintro place kind ⟨rfl, rfl⟩
    exact ⟨_, hnew, ih.placeOf _⟩

end Adds

/-! ### Directories -/

theorem find_trimmed (hne : p.trimmed.names ≠ [])
    (h : disk.find p.trimmed.names = .ok (.folder d)) : disk.find p.names = .ok (.folder d) := by
  obtain ⟨slashes, hnames, hslashes⟩ := p.exists_trimmed
  rw [hnames]
  clear hnames
  generalize p.trimmed.names = names at hne h
  induction slashes generalizing names with
  | nil => rwa [List.append_nil]
  | cons slash slashes ih =>
    obtain ⟨rfl, hrest⟩ := List.forall_mem_cons.1 hslashes
    rw [List.append_cons]
    exact ih hrest _ (List.append_ne_nil_of_left_ne_nil hne _) (find_slash hne h)

theorem makeDirectory_eq_ok (h : disk.makeDirectory p = .ok after) :
    check p = .ok () ∧ (∃ front name d, disk.IsFree p.trimmed front name d) ∧
      after = disk.put p.trimmed Kind.folder.entry := by
  cases hcheck : check p with
  | error err =>
    rw [makeDirectory, hcheck] at h
    cases h
  | ok _ =>
    simp only [makeDirectory, hcheck, bind, Except.bind] at h
    split at h
    · cases h
    · rename_i hmissing
      split at h
      · cases h
        exact ⟨rfl, exists_isFree hmissing ‹_›, rfl⟩
      · cases h
    · cases h

/-- A directory on the way to a path. -/
def IsOnWay (p q : Path) (kind : Kind) : Prop := kind = .folder ∧ q.names <+: p.names

theorem adds_ensureDirectory (hq : q.names <+: p.names) :
    Adds (IsOnWay p) disk (disk.ensureDirectory q).2 := by
  rw [ensureDirectory]
  split
  · rename_i after hmade
    obtain ⟨-, ⟨front, name, d, hfree⟩, rfl⟩ := makeDirectory_eq_ok hmade
    exact Adds.same.put hfree ⟨rfl, q.trimmed_prefix.trans hq⟩
  · exact .same

theorem adds_ensureLast (hq : q.names <+: p.names) :
    Adds (IsOnWay p) disk (disk.ensureLast q).2 := by
  rw [ensureLast]
  split
  · exact .same
  · exact adds_ensureDirectory hq

theorem adds_ensureInside {way : List Path} (hq : q.names <+: p.names)
    (hway : ∀ r ∈ way, r.names <+: p.names) :
    Adds (IsOnWay p) disk (disk.ensureInside q way).2 := by
  induction way generalizing q with
  | nil => exact adds_ensureDirectory hq
  | cons around way ih =>
    obtain ⟨haround, hway⟩ := List.forall_mem_cons.1 hway
    have hmid := ih haround hway
    rw [ensureInside]
    split
    · exact adds_ensureDirectory hq
    · generalize disk.ensureInside around way = inside at hmid
      obtain ⟨made, mid⟩ := inside
      have hlast : Adds (IsOnWay p) disk (mid.ensureLast q).2 :=
        hmid.trans (adds_ensureLast hq)
      cases made with
      | ok _ => exact hlast
      | error e =>
        cases e with
        | nullByte => exact hmid
        | refused fault r =>
          cases fault with
          | occupied => exact hlast
          | _ => exact hmid

/-- Making the directories on the way to a path adds nothing else, also where it is refused. -/
theorem adds_makeDirectories (disk : Disk) (p : Path) :
    Adds (IsOnWay p) disk (disk.makeDirectories p).2 := by
  refine adds_ensureInside (List.prefix_refl _) fun r hr => ?_
  obtain ⟨hr, -⟩ := List.mem_filter.1 (List.mem_reverse.1 hr)
  obtain ⟨n, -, rfl⟩ := List.mem_map.1 hr
  exact List.take_prefix n p.names

theorem isDirectory_of_ensureDirectory (h : (disk.ensureDirectory p).1 = .ok ()) :
    (disk.ensureDirectory p).2.isDirectory p = true := by
  rw [ensureDirectory] at h ⊢
  split at h
  · rename_i after hmade
    obtain ⟨hcheck, ⟨front, name, d, hfree⟩, rfl⟩ := makeDirectory_eq_ok hmade
    obtain ⟨e, he, hkind⟩ := hfree.find_put .folder
    obtain ⟨d', rfl⟩ := Entry.exists_folder hkind
    have hne : p.trimmed.names ≠ [] := by
      rw [hfree.names]
      exact List.append_ne_nil_of_right_ne_nil _ (List.cons_ne_nil _ _)
    exact isDirectory_iff.2 ⟨hcheck, d', find_trimmed hne he⟩
  · rename_i err hrefused
    split at h
    · assumption
    · cases h

/-- A path that does not end in a dot leads to a directory once the directories on the way to it
have been made. -/
theorem isDirectory_of_makeDirectories (hbase : p.trimmed.baseName ≠ ".")
    (h : (disk.makeDirectories p).1 = .ok ()) :
    (disk.makeDirectories p).2.isDirectory p = true := by
  have hlast : ∀ disk : Disk, disk.ensureLast p = disk.ensureDirectory p :=
    fun disk => if_neg hbase
  rw [makeDirectories] at h ⊢
  cases hway : p.way with
  | nil =>
    rw [hway] at h
    exact isDirectory_of_ensureDirectory h
  | cons around way =>
    rw [hway, ensureInside] at h
    rw [ensureInside]
    split
    · rw [if_pos ‹_›] at h
      exact isDirectory_of_ensureDirectory h
    · rw [if_neg ‹_›] at h
      split at h
      · simp only [*] at h ⊢
        exact isDirectory_of_ensureDirectory h
      · cases h
      · simp only [*] at h ⊢
        exact isDirectory_of_ensureDirectory h

/-- An empty path leads nowhere and cannot be made. -/
theorem text_ne_of_makeDirectories (h : (disk.makeDirectories p).1 = .ok ()) : p.text ≠ "" := by
  intro htext
  have hway : p.way = [] := by
    obtain rfl | rfl := Path.eq_of_text_eq_empty htext <;> rfl
  rw [makeDirectories, hway] at h
  exact (check_eq_ok.1 (isDirectory_iff.1 (isDirectory_of_ensureDirectory h)).1).2.1 htext

/-! ### Files -/

theorem write_eq_ok (h : disk.write p content = .ok after) :
    check p = .ok () ∧ after = disk.put p (Kind.file content).entry ∧
      ((∃ old, disk.find p.names = .ok (.file old)) ∨
        ∃ front name d, disk.IsFree p front name d) := by
  cases hcheck : check p with
  | error err =>
    rw [write, hcheck] at h
    cases h
  | ok _ =>
    simp only [write, hcheck, bind, Except.bind] at h
    split at h
    · split at h
      · cases h
        exact ⟨rfl, rfl, .inl ⟨_, ‹_›⟩⟩
      · cases h
      · rename_i hmissing
        split at h
        · cases h
          exact ⟨rfl, rfl, .inr (exists_isFree hmissing ‹_›)⟩
        · cases h
      · cases h
    · split at h <;> cases h

theorem touch_eq_ok (h : disk.touch p = .ok after) :
    disk.contains p = true ∧ after = disk ∨
    check p = .ok () ∧ (∃ front name d, disk.IsFree p front name d) ∧
      after = disk.put p (Kind.file []).entry := by
  rw [touch] at h
  split at h
  · cases h
    exact .inl ⟨‹_›, rfl⟩
  · rename_i hnone
    obtain ⟨hcheck, rfl, ⟨old, hold⟩ | hfree⟩ := write_eq_ok h
    · exact absurd (contains_of_look (look_eq_ok.2 ⟨hcheck, hold⟩)) hnone
    · exact .inr ⟨hcheck, hfree, rfl⟩

theorem adds_touch (h : disk.touch p = .ok after) :
    Adds (fun q kind => kind = .file [] ∧ q = p) disk after := by
  obtain ⟨-, rfl⟩ | ⟨-, ⟨front, name, d, hfree⟩, rfl⟩ := touch_eq_ok h
  · exact .same
  · exact Adds.same.put hfree ⟨rfl, rfl⟩

theorem contains_of_touch (h : disk.touch p = .ok after) : after.contains p = true := by
  obtain ⟨hcontains, rfl⟩ | ⟨hcheck, ⟨front, name, d, hfree⟩, rfl⟩ := touch_eq_ok h
  · exact hcontains
  · obtain ⟨e, he, -⟩ := hfree.find_put (.file [])
    exact contains_of_look (look_eq_ok.2 ⟨hcheck, he⟩)

/-! ### Relative texts -/

/-- A path is not longer than what is joined to it. -/
theorem check_of_check_join {s : String} (hs : s.toList.head? ≠ some '/') (htext : p.text ≠ "")
    (h : check (p.join s) = .ok ()) : check p = .ok () := by
  obtain ⟨hnames, -, hsize⟩ := check_eq_ok.1 h
  have hfront := Path.front_ne_nil htext
  have hmore := Path.namesOf_ne_nil s
  have hjoin := Path.names_join_of_relative p hs
  rw [hjoin] at hnames
  have hlong : (p.join s).text.utf8ByteSize =
      (Path.text ⟨p.front⟩).utf8ByteSize + 1 + (Path.text ⟨Path.namesOf s⟩).utf8ByteSize := by
    have htexts : (p.join s).text = Path.text ⟨p.front⟩ ++ "/" ++ Path.text ⟨Path.namesOf s⟩ := by
      rw [← Path.text_append hfront hmore, ← hjoin]
    rw [htexts, String.utf8ByteSize_append, String.utf8ByteSize_append]
    rfl
  have hshort : p.text.utf8ByteSize ≤ (Path.text ⟨p.front⟩).utf8ByteSize + 1 := by
    obtain hp | hp := p.front_cases
    · have heq : p.text = Path.text ⟨p.front⟩ := by rw [← hp]
      rw [heq]
      omega
    · have heq : p.text = Path.text ⟨p.front⟩ ++ "/" ++ "" := by
        rw [← Path.text_singleton "", ← Path.text_append hfront (List.cons_ne_nil _ _), ← hp]
      rw [heq, String.utf8ByteSize_append, String.utf8ByteSize_append]
      exact Nat.le_refl _
  refine check_eq_ok.2 ⟨fun name hname => ?_, htext, by omega⟩
  obtain hp | hp := p.front_cases
  · rw [hp] at hname
    exact hnames name (List.mem_append_left _ hname)
  · rw [hp] at hname
    obtain hname | hname := List.mem_append.1 hname
    · exact hnames name (List.mem_append_left _ hname)
    · rw [List.mem_singleton.1 hname]
      exact List.not_mem_nil

/-- What is there behind a path and a relative text is inside the directory that the path leads
to. -/
theorem isDirectory_of_contains_join {s : String} (hs : s.toList.head? ≠ some '/')
    (htext : p.text ≠ "") (h : disk.contains (p.join s) = true) : disk.isDirectory p = true := by
  rw [contains] at h
  split at h
  · obtain ⟨hcheck, hfind⟩ := look_eq_ok.1 ‹_›
    rw [Path.names_join_of_relative p hs, find,
      namesBelow_append (Path.front_ne_nil htext)] at hfind
    obtain ⟨d, hd⟩ := exists_folder_of_follow rfl (Path.namesOf_ne_nil s) hfind
    exact isDirectory_iff.2
      ⟨check_of_check_join hs htext hcheck, d, find_front (Path.front_ne_nil htext) hd⟩
  · cases h

end Disk

end ClassLang
