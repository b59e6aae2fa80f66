import ClassLang.Disk.Basic
import Mathlib.Data.List.Induction

/-!
# Places on a disk

The names of a path lead to a place on the disk, which is what is left of them without those that
only move about. A file that is found at a joined path is one of the directory that is joined to
(`Disk.find_join`), and the directory of the path of a file is the one that the file is in
(`Disk.find_directory`). What leads somewhere on a disk leads to a directory again on any disk that
keeps the directories of the first one in their places (`Disk.follow_append`).
-/

namespace ClassLang

/-! ### Names and texts of paths -/

namespace Path

/-- A name that leads one step down, since it is none of those that only move about. -/
def IsStep (name : String) : Prop := name ≠ "" ∧ name ≠ "." ∧ name ≠ ".."

theorem IsPlain.isStep {name : String} (h : IsPlain name) : IsStep name := ⟨h.1, h.2.1, h.2.2.1⟩

theorem push_of_isStep {name : String} (h : IsStep name) (names : List String) :
    push names name = names ++ [name] := by
  rw [push, if_neg (by simp only [h.1, h.2.1, or_self, not_false_eq_true]), if_neg h.2.2]

theorem foldl_push_of_isStep {place : List String} (h : ∀ name ∈ place, IsStep name)
    (names : List String) : place.foldl push names = names ++ place := by
  induction place generalizing names with
  | nil => rw [List.foldl_nil, List.append_nil]
  | cons name place ih =>
    obtain ⟨hname, hplace⟩ := List.forall_mem_cons.1 h
    rw [List.foldl_cons, push_of_isStep hname, ih hplace, List.append_assoc,
      List.singleton_append]

theorem root_cases (p : Path) : p.root = [""] ∨ p.root = ["", ""] := by
  rw [root]
  split
  · exact .inr rfl
  · split
    · exact .inl rfl
    · exact .inr rfl
  · exact .inl rfl

/-- The names in front of those that are joined to a path. -/
def front (p : Path) : List String :=
  if p.names.getLast? = some "" then p.names.dropLast else p.names

/-- The names of a path are those in front of what is joined to it, but for a slash at its end. -/
theorem front_cases (p : Path) : p.names = p.front ∨ p.names = p.front ++ [""] := by
  by_cases hlast : p.names.getLast? = some ""
  · obtain ⟨names, hnames⟩ := List.getLast?_eq_some_iff.1 hlast
    have hfront : p.front = names := by
      rw [front, if_pos hlast, hnames, List.dropLast_concat]
    exact .inr (hnames.trans (by rw [hfront]))
  · exact .inl (by rw [front, if_neg hlast])

theorem names_join_of_relative (p : Path) {s : String} (h : s.toList.head? ≠ some '/') :
    (p.join s).names = p.front ++ namesOf s := by
  rw [join, if_neg h, front]
  split <;> rfl

theorem names_join (p : Path) {name : String} (h : IsPlain name) :
    (p.join name).names = p.front ++ [name] := by
  rw [names_join_of_relative p fun hc => h.2.2.2 (List.mem_of_head? hc),
    namesOf_of_not_mem h.2.2.2]

theorem namesOf_ne_nil (s : String) : namesOf s ≠ [] := fun hnil =>
  List.splitOn_ne_nil _ _ (List.map_eq_nil_iff.1 hnil)

theorem text_singleton (name : String) : text ⟨[name]⟩ = name := String.intercalate_singleton

theorem text_cons (name : String) {names : List String} (h : names ≠ []) :
    text ⟨name :: names⟩ = name ++ "/" ++ text ⟨names⟩ :=
  String.intercalate_cons_of_ne_nil h

theorem text_append {front more : List String} (hf : front ≠ []) (hm : more ≠ []) :
    text ⟨front ++ more⟩ = text ⟨front⟩ ++ "/" ++ text ⟨more⟩ := by
  induction front with
  | nil => exact absurd rfl hf
  | cons name front ih =>
    cases front with
    | nil => rw [List.singleton_append, text_cons name hm, text_singleton]
    | cons next front =>
      rw [List.cons_append, text_cons name (List.append_ne_nil_of_right_ne_nil _ hm),
        ih (List.cons_ne_nil _ _), text_cons name (List.cons_ne_nil _ _)]
      simp only [String.append_assoc]

theorem eq_of_text_eq_empty {p : Path} (h : p.text = "") : p = ⟨[]⟩ ∨ p = ⟨[""]⟩ := by
  obtain ⟨names⟩ := p
  match names, h with
  | [], _ => exact .inl rfl
  | [name], h =>
    rw [text_singleton] at h
    rw [h]
    exact .inr rfl
  | name :: next :: names, h =>
    rw [text_cons name (List.cons_ne_nil _ _)] at h
    simp at h

theorem front_ne_nil {p : Path} (h : p.text ≠ "") : p.front ≠ [] := by
  intro hnil
  obtain hnames | hnames := p.front_cases
  · exact h (by rw [text, hnames, hnil, String.intercalate_nil])
  · exact h (by rw [text, hnames, hnil, List.nil_append, String.intercalate_singleton])

/-- All that a path has behind its last name are slashes. -/
theorem exists_trimmed (p : Path) :
    ∃ slashes, p.names = p.trimmed.names ++ slashes ∧ ∀ name ∈ slashes, name = "" := by
  rw [trimmed]
  split
  · exact ⟨[], (List.append_nil _).symm, nofun⟩
  · refine ⟨(p.names.reverse.takeWhile (· = "")).reverse, ?_, fun name hname => ?_⟩
    · rw [← List.reverse_append, List.takeWhile_append_dropWhile, List.reverse_reverse]
    · exact of_decide_eq_true
        (List.all_eq_true.1 List.all_takeWhile name (List.mem_reverse.1 hname))

theorem trimmed_prefix (p : Path) : p.trimmed.names <+: p.names := by
  obtain ⟨slashes, hnames, -⟩ := p.exists_trimmed
  exact ⟨slashes, hnames.symm⟩

end Path

namespace Directory

variable {d inner : Directory} {place names : List String} {name : String} {e : Entry}

theorem entryAt?_folder (h : d.find? name = some (.folder inner)) :
    d.entryAt? (name :: names) = inner.entryAt? names := by
  rw [entryAt?, h]

theorem entryAt?_single : d.entryAt? [name] = d.find? name := by
  rw [entryAt?]
  cases d.find? name with
  | none => rfl
  | some e => cases e <;> rfl

/-- The way to a directory leads through directories. -/
theorem exists_next (h : d.entryAt? (name :: names) = some (.folder inner)) :
    ∃ next, d.find? name = some (.folder next) ∧ next.entryAt? names = some (.folder inner) := by
  rw [entryAt?] at h
  split at h
  · exact ⟨_, ‹_›, h⟩
  · split at h <;> cases h
  · cases h

theorem entryAt?_snoc (h : d.entryAt? place = some (.folder inner)) :
    d.entryAt? (place ++ [name]) = inner.find? name := by
  induction place generalizing d with
  | nil =>
    obtain rfl := Entry.folder.inj (Option.some.inj h)
    exact entryAt?_single
  | cons n place ih =>
    obtain ⟨next, hnext, h⟩ := exists_next h
    rw [List.cons_append, entryAt?_folder hnext, ih h]

/-- What lies at a place lies in a directory. -/
theorem exists_folder_of_entryAt? (h : d.entryAt? (place ++ [name]) = some e) :
    ∃ inner, d.entryAt? place = some (.folder inner) := by
  induction place generalizing d with
  | nil => exact ⟨d, rfl⟩
  | cons n place ih =>
    rw [List.cons_append, entryAt?] at h
    split at h
    · rename_i next hnext
      rw [entryAt?_folder hnext]
      exact ih h
    · rw [if_neg (List.append_ne_nil_of_right_ne_nil _ (List.cons_ne_nil _ _))] at h
      cases h
    · cases h

theorem exists_folder_dropLast (h : d.entryAt? place = some (.folder inner)) :
    ∃ around, d.entryAt? place.dropLast = some (.folder around) := by
  obtain hnil | ⟨around, last, hlast⟩ := List.eq_nil_or_concat place
  · rw [hnil]
    exact ⟨d, rfl⟩
  · rw [hlast, List.concat_eq_append] at h
    rw [hlast, List.concat_eq_append, List.dropLast_concat]
    exact exists_folder_of_entryAt? h

end Directory

namespace Disk

variable {disk after : Disk} {place names more : List String} {name : String} {d : Directory}
  {e : Entry}

/-! ### Following names -/

/-- Where one disk has a directory the other has one. -/
def Keeps (disk after : Disk) : Prop :=
  ∀ place d, disk.top.entryAt? place = some (.folder d) →
    ∃ d', after.top.entryAt? place = some (.folder d')

theorem Keeps.refl (disk : Disk) : disk.Keeps disk := fun _ d h => ⟨d, h⟩

theorem follow_nil_eq_ok : disk.follow place [] = .ok e ↔ disk.top.entryAt? place = some e := by
  rw [follow]
  cases disk.top.entryAt? place with
  | none => simp only [reduceCtorEq]
  | some e' => simp only [Except.ok.injEq, Option.some.injEq]

/-- Where names lead on behind the first one, that one leads from directory to directory, unless it
is the name of a file and the only one. -/
theorem follow_cons (h : disk.follow place (name :: names) = .ok e) :
    (disk.follow (Path.push place name) names = .ok e ∧
      ∀ after, disk.Keeps after → ∀ more,
        after.follow place (name :: more) = after.follow (Path.push place name) more) ∨
    names = [] ∧ disk.top.entryAt? (Path.push place name) = some e ∧
      ∃ content, e = .file content := by
  rw [follow] at h
  simp only [follow, Path.push]
  -- names that only move about lead on whatever is there
  split at h
  · exact .inl ⟨by rwa [if_pos ‹_›], fun _ _ _ => by rw [if_pos ‹_›, if_pos ‹_›]⟩
  rename_i hdot
  split at h
  · rename_i hup
    simp only [if_neg hdot, if_pos hup]
    exact .inl ⟨h, fun _ _ _ => trivial⟩
  rename_i hup
  simp only [if_neg hdot, if_neg hup]
  split at h
  · cases h
  rename_i hlimit
  split at h
  · cases h
  · rename_i hentry
    refine .inl ⟨h, fun after hkept more => ?_⟩
    obtain ⟨d', hd⟩ := hkept _ _ hentry
    rw [if_neg hlimit, hd]
  · rename_i hentry
    split at h
    · cases h
      exact .inr ⟨‹_›, hentry, _, rfl⟩
    · cases h

/-- Names lead to the place that is left of them without those that only move about. -/
theorem entryAt?_of_follow (h : disk.follow place names = .ok e) :
    disk.top.entryAt? (names.foldl Path.push place) = some e := by
  induction names generalizing place with
  | nil => exact follow_nil_eq_ok.1 h
  | cons name names ih =>
    obtain ⟨h, -⟩ | ⟨rfl, h, -⟩ := follow_cons h
    · exact ih h
    · exact h

/-- Behind names that lead to a directory other names go on from there. -/
theorem follow_append (hkept : disk.Keeps after) (h : disk.follow place names = .ok (.folder d)) :
    after.follow place (names ++ more) = after.follow (names.foldl Path.push place) more := by
  induction names generalizing place with
  | nil => rfl
  | cons name names ih =>
    obtain ⟨h, hnext⟩ | ⟨-, -, _, h⟩ := follow_cons h
    · rw [List.cons_append, List.foldl_cons, hnext after hkept, ih h]
    · cases h

/-- What is found behind a name that leads down is an entry of the directory in front of the
name. -/
theorem follow_snoc (hname : Path.IsStep name)
    (h : disk.follow place (names ++ [name]) = .ok e) :
    ∃ d, disk.follow place names = .ok (.folder d) ∧ d.find? name = some e := by
  induction names generalizing place with
  | nil =>
    rw [List.nil_append] at h
    have hentry := entryAt?_of_follow h
    rw [List.foldl_cons, List.foldl_nil, Path.push_of_isStep hname] at hentry
    obtain ⟨inner, hinner⟩ := Directory.exists_folder_of_entryAt? hentry
    exact ⟨inner, follow_nil_eq_ok.2 hinner, (Directory.entryAt?_snoc hinner).symm.trans hentry⟩
  | cons n names ih =>
    obtain ⟨h, hnext⟩ | ⟨hnil, -⟩ := follow_cons h
    · rw [hnext disk (.refl disk)]
      exact ih h
    · exact absurd hnil (List.append_ne_nil_of_right_ne_nil _ (List.cons_ne_nil _ _))

/-- A name that leads down behind names that lead to a directory. -/
theorem follow_step (hkept : disk.Keeps after) (hname : Path.IsStep name)
    (h : disk.follow place names = .ok (.folder d)) :
    after.follow place (names ++ [name]) =
      if nameLimit < name.utf8ByteSize then .error .nameTooLong
      else
        match after.top.entryAt? (names.foldl Path.push place ++ [name]) with
        | none => .error .missing
        | some e => .ok e := by
  rw [follow_append hkept h, follow, if_neg (by simp only [hname.1, hname.2.1, or_self,
    not_false_eq_true]), if_neg hname.2.2]
  split
  · rfl
  · cases hentry : after.top.entryAt? (names.foldl Path.push place ++ [name]) with
    | none => rfl
    | some e =>
      cases e with
      | file content => rfl
      | folder inner => exact follow_nil_eq_ok.2 hentry

/-- A name behind which other names lead on leads from a directory to a directory. -/
theorem exists_folder_push (hplace : disk.top.entryAt? place = some (.folder d))
    (hne : names ≠ []) (h : disk.follow place (name :: names) = .ok e) :
    ∃ d', disk.top.entryAt? (Path.push place name) = some (.folder d') := by
  rw [follow] at h
  rw [Path.push]
  split at h
  · rw [if_pos ‹_›]
    exact ⟨d, hplace⟩
  rw [if_neg ‹_›]
  split at h
  · rw [if_pos ‹_›]
    exact Directory.exists_folder_dropLast hplace
  rw [if_neg ‹_›]
  split at h
  · cases h
  split at h
  · cases h
  · exact ⟨_, ‹_›⟩
  · cases h

theorem exists_folder_of_follow (hplace : disk.top.entryAt? place = some (.folder d))
    (hmore : more ≠ []) (h : disk.follow place (names ++ more) = .ok e) :
    ∃ d', disk.follow place names = .ok (.folder d') := by
  induction names generalizing place d with
  | nil => exact ⟨d, follow_nil_eq_ok.2 hplace⟩
  | cons name names ih =>
    have hne : names ++ more ≠ [] := List.append_ne_nil_of_right_ne_nil _ hmore
    obtain ⟨hrest, hnext⟩ | ⟨hnil, -⟩ := follow_cons h
    · obtain ⟨inner, hinner⟩ := exists_folder_push hplace hne h
      rw [hnext disk (.refl disk)]
      exact ih hinner hrest
    · exact absurd hnil hne

/-- A name that only moves about leads from a directory to a directory. -/
theorem isStep_of_follow (hfront : disk.follow place names = .ok (.folder d))
    (h : ∀ inner, disk.follow place (names ++ [name]) ≠ .ok (.folder inner)) :
    Path.IsStep name := by
  have hplace := entryAt?_of_follow hfront
  have hstay : disk.follow (names.foldl Path.push place) [] = .ok (.folder d) :=
    follow_nil_eq_ok.2 hplace
  simp only [follow_append (.refl disk) hfront, follow] at h
  refine ⟨?_, ?_, ?_⟩
  · rintro rfl
    exact h d hstay
  · rintro rfl
    exact h d hstay
  · rintro rfl
    obtain ⟨around, haround⟩ := Directory.exists_folder_dropLast hplace
    exact h around (follow_nil_eq_ok.2 haround)

/-! ### Joined paths -/

theorem namesBelow_append (h : names ≠ []) :
    disk.namesBelow (names ++ more) = disk.namesBelow names ++ more := by
  cases names with
  | nil => exact absurd rfl h
  | cons n names =>
    rw [namesBelow, namesBelow, List.cons_append, List.head?_cons, List.head?_cons]
    split
    · rfl
    · exact (List.append_assoc _ (n :: names) more).symm

/-- An empty name stands for the root, but only where no other one is in front of it. -/
theorem namesBelow_snoc (h : names = [] → name ≠ "") :
    disk.namesBelow (names ++ [name]) = disk.namesBelow names ++ [name] := by
  by_cases hnil : names = []
  · have hroot : ¬ [name].head? = some "" := fun hroot => h hnil (Option.some.inj hroot)
    rw [hnil, List.nil_append, namesBelow, if_neg hroot]
    exact congrArg (· ++ [name]) (List.append_nil disk.work).symm
  · exact namesBelow_append hnil

theorem find_snoc (hname : Path.IsStep name) (h : disk.find (names ++ [name]) = .ok e) :
    ∃ d, disk.find names = .ok (.folder d) ∧ d.find? name = some e := by
  rw [find, namesBelow_snoc fun _ => hname.1] at h
  exact follow_snoc hname h

/-- A slash behind the path of a directory makes no difference. -/
theorem find_slash (hne : names ≠ []) (h : disk.find names = .ok (.folder d)) :
    disk.find (names ++ [""]) = .ok (.folder d) := by
  rw [find, namesBelow_append hne, follow_append (.refl disk) h]
  exact follow_nil_eq_ok.2 (entryAt?_of_follow h)

variable {p : Path}

theorem find_front (hp : p.front ≠ []) (h : disk.find p.front = .ok (.folder d)) :
    disk.find p.names = .ok (.folder d) := by
  obtain hnames | hnames := p.front_cases
  · rwa [hnames]
  · rw [hnames]
    exact find_slash hp h

/-- A file that is found at a path behind a plain name is one of the directory that the name was
joined to. -/
theorem find_join {content : List UInt8} (hp : p.text ≠ "") (hname : Path.IsPlain name)
    (h : disk.find (p.join name).names = .ok (.file content)) :
    ∃ d, disk.find p.names = .ok (.folder d) ∧ d.find? name = some (.file content) := by
  rw [Path.names_join p hname] at h
  obtain ⟨d, hd, hfile⟩ := find_snoc hname.isStep h
  exact ⟨d, find_front (Path.front_ne_nil hp) hd, hfile⟩

/-! ### Operations -/

theorem check_eq_ok : check p = .ok () ↔
    (∀ name ∈ p.names, '\x00' ∉ name.toList) ∧ p.text ≠ "" ∧ p.text.utf8ByteSize ≤ pathLimit := by
  constructor
  · intro h
    rw [check] at h
    split at h
    · cases h
    rename_i hnull
    split at h
    · cases h
    split at h
    · cases h
    refine ⟨fun name hname hmem => hnull ?_, ‹_›, Nat.le_of_not_lt ‹_›⟩
    exact List.any_eq_true.2 ⟨name, hname, List.contains_iff_mem.2 hmem⟩
  · rintro ⟨hnames, htext, hsize⟩
    rw [check, if_neg, if_neg htext, if_neg (Nat.not_lt.2 hsize)]
    intro hnull
    obtain ⟨name, hname, hcontains⟩ := List.any_eq_true.1 hnull
    exact hnames name hname (List.contains_iff_mem.1 hcontains)

theorem look_eq_ok : disk.look p = .ok e ↔ check p = .ok () ∧ disk.find p.names = .ok e := by
  cases hcheck : check p with
  | error err => simp only [look, hcheck, bind, Except.bind, reduceCtorEq, false_and]
  | ok _ =>
    cases hfind : disk.find p.names with
    | error fault => simp only [look, hcheck, hfind, bind, Except.bind, reduceCtorEq, and_false]
    | ok e' => simp only [look, hcheck, hfind, bind, Except.bind, Except.ok.injEq, true_and]

theorem contains_of_look (h : disk.look p = .ok e) : disk.contains p = true := by
  rw [contains, h]

theorem isDirectory_iff : disk.isDirectory p = true ↔
    check p = .ok () ∧ ∃ d, disk.find p.names = .ok (.folder d) := by
  constructor
  · intro h
    rw [isDirectory] at h
    split at h
    · obtain ⟨hcheck, hfind⟩ := look_eq_ok.1 ‹_›
      exact ⟨hcheck, _, hfind⟩
    · cases h
  · rintro ⟨hcheck, d, hfind⟩
    rw [isDirectory, look_eq_ok.2 ⟨hcheck, hfind⟩]

theorem exists_look_of_isFile (h : disk.isFile p = true) :
    ∃ content, disk.look p = .ok (.file content) := by
  rw [isFile] at h
  split at h
  · exact ⟨_, ‹_›⟩
  · cases h

theorem isFile_of_contains (h : disk.contains p = true) (hd : disk.isDirectory p = false) :
    disk.isFile p = true := by
  rw [contains] at h
  rw [isDirectory] at hd
  rw [isFile]
  cases hlook : disk.look p with
  | error err =>
    rw [hlook] at h
    cases h
  | ok e =>
    cases e with
    | file content => rfl
    | folder inner =>
      rw [hlook] at hd
      cases hd

theorem read_eq_ok {content : List UInt8} :
    disk.read p = .ok content ↔ disk.look p = .ok (.file content) := by
  cases hlook : disk.look p with
  | error err => simp only [read, hlook, bind, Except.bind, reduceCtorEq]
  | ok e =>
    cases e with
    | file own => simp only [read, hlook, bind, Except.bind, Except.ok.injEq, Entry.file.injEq]
    | folder inner =>
      simp only [read, hlook, bind, Except.bind, reduceCtorEq, Except.ok.injEq]

/-! ### The directory around a file -/

/-- A name that leads down and is not too long. -/
def CanFollow (name : String) : Prop := Path.IsStep name ∧ ¬ nameLimit < name.utf8ByteSize

/-- What names lead to is at a place whose names can be followed. -/
theorem canFollow_of_follow (hplace : ∀ name ∈ place, CanFollow name)
    (h : disk.follow place names = .ok e) :
    ∀ name ∈ names.foldl Path.push place, CanFollow name := by
  induction names generalizing place with
  | nil => exact hplace
  | cons name names ih =>
    have hnext : ∀ n ∈ Path.push place name, CanFollow n := by
      rw [Path.push]
      split
      · exact hplace
      rename_i hdot
      split
      · exact fun n hn => hplace n (List.dropLast_subset _ hn)
      rename_i hup
      rw [follow, if_neg hdot, if_neg hup] at h
      split at h
      · cases h
      rename_i hshort
      refine List.forall_mem_append.2 ⟨hplace, List.forall_mem_singleton.2 ⟨?_, hshort⟩⟩
      exact ⟨fun he => hdot (.inl he), fun he => hdot (.inr he), hup⟩
    obtain ⟨h, -⟩ | ⟨rfl, -⟩ := follow_cons h
    · exact ih hnext h
    · exact hnext

/-- Names that can be followed lead to what is at the place of these names. -/
theorem follow_of_entryAt? (hnames : ∀ name ∈ names, CanFollow name)
    (h : disk.top.entryAt? names = some e) : disk.follow [] names = .ok e := by
  induction names using List.reverseRecOn generalizing e with
  | nil => exact follow_nil_eq_ok.2 h
  | append_singleton names name ih =>
    obtain ⟨hfront, hname⟩ := List.forall_mem_append.1 hnames
    obtain ⟨hstep, hshort⟩ := List.forall_mem_singleton.1 hname
    obtain ⟨inner, hinner⟩ := Directory.exists_folder_of_entryAt? h
    have hplace : names.foldl Path.push [] = names := by
      rw [Path.foldl_push_of_isStep fun n hn => (hfront n hn).1, List.nil_append]
    rw [follow_step (.refl disk) hstep (ih hfront hinner), hplace, if_neg hshort, h]

/-- The last name of a path that is not empty, and what is in front of it. -/
theorem exists_last (disk : Disk) (h : p.text ≠ "") :
    ∃ front name, p.names = front ++ [name] ∧
      disk.namesBelow p.names = disk.namesBelow front ++ [name] := by
  obtain hnil | ⟨front, name, hnames⟩ := List.eq_nil_or_concat p.names
  · exact absurd (by rw [Path.text, hnil]; rfl) h
  rw [List.concat_eq_append] at hnames
  refine ⟨front, name, hnames, ?_⟩
  rw [hnames]
  refine namesBelow_snoc ?_
  rintro rfl rfl
  exact h (by rw [Path.text, hnames]; rfl)

/-- The path from the root of all paths leads to where the path leads. -/
theorem normalize_absolute (h : p.text ≠ "") :
    Path.normalize (if p.isAbsolute then p.names else disk.work ++ p.names) =
      Path.normalize (disk.namesBelow p.names) := by
  obtain ⟨names⟩ := p
  cases names with
  | nil => exact absurd rfl h
  | cons n names =>
    by_cases hn : n = ""
    · subst hn
      have hne : names ≠ [] := by
        rintro rfl
        exact h rfl
      have habsolute : (Path.mk ("" :: names)).isAbsolute = true := by
        simp [Path.isAbsolute, List.length_pos_iff.2 hne]
      have hroot : ("" :: names).head? = some "" := rfl
      rw [if_pos habsolute, namesBelow, if_pos hroot]
      rfl
    · simp [Path.isAbsolute, namesBelow, hn]

theorem follow_slash : disk.follow place ("" :: names) = disk.follow place names := by
  rw [follow, if_pos (.inl rfl)]

/-- Names behind what stands in front of a normalized path are followed from the root. -/
theorem find_root (hnames : ∀ name ∈ names, CanFollow name)
    (h : disk.top.entryAt? names = some (.folder d)) :
    disk.find (p.root ++ if names = [] then [""] else names) = .ok (.folder d) := by
  have hfollow : disk.follow [] (if names = [] then [""] else names) = .ok (.folder d) := by
    split
    · rename_i hnil
      subst hnil
      exact follow_slash.trans (follow_of_entryAt? hnames h)
    · exact follow_of_entryAt? hnames h
  generalize (if names = [] then [""] else names) = more at hfollow
  have hfind : disk.find ("" :: more) = .ok (.folder d) := by
    have hroot : ("" :: more).head? = some "" := rfl
    rw [find, namesBelow, if_pos hroot]
    exact hfollow
  obtain hroot | hroot := p.root_cases
  · rw [hroot]
    exact hfind
  · rw [hroot]
    exact follow_slash.trans hfind

/-- The directory of the path of a file is the one that the file is in. -/
theorem find_directory {content : List UInt8} (h : disk.read p = .ok content) :
    ∃ d, disk.find (p.directory disk.work).names = .ok (.folder d) ∧
      d.find? p.baseName = some (.file content) := by
  obtain ⟨hcheck, hfind⟩ := look_eq_ok.1 (read_eq_ok.1 h)
  have htext := (check_eq_ok.1 hcheck).2.1
  obtain ⟨front, name, hnames, hbelow⟩ := exists_last disk htext
  rw [find, hbelow] at hfind
  obtain ⟨inner, hinner⟩ := exists_folder_of_follow rfl (List.cons_ne_nil _ _) hfind
  have hstep : Path.IsStep name := isStep_of_follow hinner fun d hd => by
    rw [hfind] at hd
    cases hd
  obtain ⟨d, hd, hfile⟩ := follow_snoc hstep hfind
  have hplace : (Path.normalize (disk.namesBelow p.names)).dropLast =
      Path.normalize (disk.namesBelow front) := by
    rw [hbelow, Path.normalize, List.foldl_append, List.foldl_cons, List.foldl_nil,
      Path.push_of_isStep hstep, List.dropLast_concat, Path.normalize]
  refine ⟨d, ?_, ?_⟩
  · rw [Path.directory, normalize_absolute htext, hplace]
    exact find_root (canFollow_of_follow nofun hd) (entryAt?_of_follow hd)
  · rw [Path.baseName, hnames, List.getLast?_concat]
    exact hfile

/-- A relative path starts in the working directory. -/
example : ((Path.ofText "../src//x.moho").directory ["home", "me"]).text = "/home/src" := by
  decide +kernel

/-- Two slashes at the start are kept, and what lies in the root lies in a slash. -/
example : ((Path.ofText "//src/x.moho").directory []).text = "//src" ∧
    ((Path.ofText "///x.moho").directory []).text = "/" := by
  decide +kernel

end Disk

end ClassLang
