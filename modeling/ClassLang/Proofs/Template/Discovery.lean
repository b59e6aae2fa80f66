import ClassLang.Proofs.Disk.Walk
import ClassLang.Template.Source

/-!
# Discovery

Where the names on the way are plain, the path of a file below a directory is made by joining them
to the path of the directory, it leads to that file and nowhere else
(`Disk.entryAt?_of_find_below`), and no other file has a path of that text (`Path.text_below_inj`).
Main statement: what is discovered are the source files below a path, each once and in the order of
the walk.
-/

namespace ClassLang

namespace Path

variable {p : Path} {front place other : List String}

/-- The path of what lies at a place below a path. -/
def below (p : Path) (place : List String) : Path := place.foldl join p

theorem front_join {name : String} (h : IsPlain name) :
    (p.join name).front = p.front ++ [name] := by
  rw [front, names_join p h, List.getLast?_concat, if_neg fun e => h.1 (Option.some.inj e)]

theorem names_below (h : ∀ name ∈ place, IsPlain name) (hne : place ≠ []) :
    (p.below place).names = p.front ++ place := by
  induction place generalizing p with
  | nil => exact absurd rfl hne
  | cons name place ih =>
    obtain ⟨hname, hplace⟩ := List.forall_mem_cons.1 h
    show ((p.join name).below place).names = p.front ++ name :: place
    cases place with
    | nil => exact names_join p hname
    | cons next place =>
      rw [ih hplace (List.cons_ne_nil _ _), front_join hname, List.append_assoc,
        List.singleton_append]

/-! ### Texts -/

/-- The same names in front of two texts can be left out. -/
theorem text_append_cancel (hp : place ≠ []) (ho : other ≠ [])
    (h : text ⟨front ++ place⟩ = text ⟨front ++ other⟩) : text ⟨place⟩ = text ⟨other⟩ := by
  cases front with
  | nil => exact h
  | cons name front =>
    rw [text_append (List.cons_ne_nil _ _) hp, text_append (List.cons_ne_nil _ _) ho] at h
    exact (String.append_right_inj _).1 h

/-- Names without slashes can be read off their text. -/
theorem splitOn_text (h : ∀ name ∈ place, '/' ∉ name.toList) (hne : place ≠ []) :
    (text ⟨place⟩).toList.splitOn '/' = place.map String.toList := by
  rw [text, String.toList_intercalate]
  refine List.splitOn_intercalate '/' ?_ (by simpa using hne)
  intro l hl
  obtain ⟨name, hname, rfl⟩ := List.mem_map.1 hl
  exact h name hname

theorem text_below_inj (hplace : ∀ name ∈ place, IsPlain name) (hp : place ≠ [])
    (hother : ∀ name ∈ other, IsPlain name) (ho : other ≠ [])
    (h : (p.below place).text = (p.below other).text) : place = other := by
  have hcancel : text ⟨place⟩ = text ⟨other⟩ := by
    refine text_append_cancel hp ho (?_ : text ⟨p.front ++ place⟩ = text ⟨p.front ++ other⟩)
    rw [← names_below hplace hp, ← names_below hother ho]
    exact h
  have hlists : place.map String.toList = other.map String.toList := by
    rw [← splitOn_text (fun name hname => (hplace name hname).2.2.2) hp, hcancel,
      splitOn_text (fun name hname => (hother name hname).2.2.2) ho]
  exact (List.map_inj_right fun _ _ => String.toList_injective).1 hlists

end Path

namespace Directory

variable {d inner : Directory} {place more : List String}

theorem entryAt?_append (h : d.entryAt? place = some (.folder inner)) :
    d.entryAt? (place ++ more) = inner.entryAt? more := by
  induction place generalizing d with
  | nil =>
    obtain rfl := Entry.folder.inj (Option.some.inj h)
    rfl
  | cons n place ih =>
    obtain ⟨next, hnext, h⟩ := exists_next h
    rw [List.cons_append, entryAt?_folder hnext, ih h]

end Directory

namespace Disk

variable {disk : Disk} {p : Path} {d : Directory} {e : Entry} {place : List String}

theorem normalize_front (h : p.front ≠ []) :
    Path.normalize (disk.namesBelow p.front) = Path.normalize (disk.namesBelow p.names) := by
  obtain hnames | hnames := p.front_cases
  · rw [← hnames]
  · rw [hnames, namesBelow_append h, Path.normalize, Path.normalize, List.foldl_append]
    rfl

/-- What is found at the path of a place below a directory is the entry at that place. -/
theorem entryAt?_of_find_below (hp : disk.look p = .ok (.folder d))
    (hplain : ∀ name ∈ place, Path.IsPlain name) (hne : place ≠ [])
    (h : disk.look (p.below place) = .ok e) : d.entryAt? place = some e := by
  have hfront := Path.front_ne_nil (check_eq_ok.1 (look_eq_ok.1 hp).1).2.1
  have hfolder := entryAt?_of_follow (look_eq_ok.1 hp).2
  have hentry := entryAt?_of_follow (look_eq_ok.1 h).2
  rw [Path.names_below hplain hne, namesBelow_append hfront, List.foldl_append,
    Path.foldl_push_of_isStep fun name hname => (hplain name hname).isStep] at hentry
  rw [← Path.normalize, ← normalize_front hfront] at hfolder
  rw [← Directory.entryAt?_append hfolder]
  exact hentry

end Disk

namespace Source

variable {disk : Disk} {p : Path} {extension : String}

/-- At this place below the directory that a path leads to there is a source file: a file whose name
ends with the extension. -/
def IsSource (disk : Disk) (p : Path) (extension : String) (place : List String) : Prop :=
  ∃ d content name, disk.look p = .ok (.folder d) ∧
    d.entryAt? place = some (.file content) ∧ place.getLast? = some name ∧
    extension.toList <:+ name.toList

/-- The places of the source files below the directory that a path leads to, in the order of the
walk. -/
def places (disk : Disk) (p : Path) (extension : String) : List (List String) :=
  match disk.look p with
  | .ok (.folder d) => (d.walk []).filter fun place =>
    match place.getLast? with
    | some name => extension.toList.isSuffixOf name.toList
    | none => false
  | _ => []

theorem mem_places (hdisk : disk.top.IsProper) {place : List String} :
    place ∈ places disk p extension ↔ IsSource disk p extension place := by
  rw [places]
  split
  · rename_i d hd
    have hproper := Disk.isProper_of_look hdisk hd
    rw [List.mem_filter, Directory.mem_walk hproper]
    constructor
    · rintro ⟨⟨names, content, rfl, hfile⟩, hends⟩
      split at hends
      · exact ⟨d, content, _, hd, hfile, ‹_›, List.isSuffixOf_iff_suffix.1 hends⟩
      · cases hends
    · rintro ⟨d', content, name, hd', hfile, hlast, hends⟩
      obtain rfl := Entry.folder.inj (Except.ok.inj (hd.symm.trans hd'))
      refine ⟨⟨place, content, rfl, hfile⟩, ?_⟩
      rw [hlast]
      exact List.isSuffixOf_iff_suffix.2 hends
  · rename_i hfolder
    refine ⟨nofun, ?_⟩
    rintro ⟨d, content, name, hd, -⟩
    exact absurd hd (hfolder d)

/-- Where there is a file the place has a name, and all names on the way to it are plain. -/
theorem IsSource.plain {place : List String} (hdisk : disk.top.IsProper)
    (h : IsSource disk p extension place) :
    (∀ name ∈ place, Path.IsPlain name) ∧ place ≠ [] := by
  obtain ⟨d, content, name, hd, hfile, hlast, -⟩ := h
  have hproper := Disk.isProper_of_look hdisk hd
  refine ⟨hproper.isPlain_of_entryAt? hfile, ?_⟩
  rintro rfl
  cases hlast

/-- A source file is found at its path, if that is not too long, and no directory is. -/
theorem IsSource.exists_content {place : List String} {e : Entry} (hdisk : disk.top.IsProper)
    (h : IsSource disk p extension place) (he : disk.look (p.below place) = .ok e) :
    ∃ content, e = .file content := by
  obtain ⟨hplain, hne⟩ := h.plain hdisk
  obtain ⟨d, content, name, hd, hfile, -⟩ := h
  have hentry := Disk.entryAt?_of_find_below hd hplain hne he
  exact ⟨content, Option.some.inj (hentry.symm.trans hfile)⟩

theorem pairwise_places (hdisk : disk.top.IsProper) :
    (places disk p extension).Pairwise Directory.Precedes := by
  rw [places]
  split
  · rename_i d hd
    have hproper := Disk.isProper_of_look hdisk hd
    exact (Directory.pairwise_walk hproper).filter _
  · exact .nil

/-- The text of a path tells source files apart, and no place precedes itself. -/
theorem nodup_places (hdisk : disk.top.IsProper) :
    ((places disk p extension).map fun place => (p.below place).text).Nodup := by
  refine List.pairwise_map.2 ((pairwise_places hdisk).imp_of_mem ?_)
  intro place other hplace hother hprecedes htext
  obtain ⟨hplain, hne⟩ := ((mem_places hdisk).1 hplace).plain hdisk
  obtain ⟨hplainOther, hneOther⟩ := ((mem_places hdisk).1 hother).plain hdisk
  obtain rfl := Path.text_below_inj hplain hne hplainOther hneOther htext
  exact Directory.Precedes.irrefl hprecedes

theorem discover_eq (hdisk : disk.top.IsProper) (hp : disk.look p ≠ .error .nullByte) :
    discover disk p extension = .ok ((places disk p extension).map p.below) := by
  have hnames : ∀ place ∈ places disk p extension, (p.below place).names = p.front ++ place := by
    intro place hplace
    obtain ⟨hplain, hne⟩ := ((mem_places hdisk).1 hplace).plain hdisk
    exact Path.names_below hplain hne
  rw [places] at hnames
  rw [discover, places]
  cases hlook : disk.look p with
  | error e =>
    cases e with
    | nullByte => exact absurd hlook hp
    | refused fault q => rfl
  | ok e =>
    cases e with
    | file content => rfl
    | folder d =>
      rw [hlook] at hnames
      refine congrArg Except.ok (List.map_congr_left fun place hplace => ?_)
      have hbelow := hnames place hplace
      rw [Path.front] at hbelow
      split
      · rw [if_pos ‹_›] at hbelow
        rw [← hbelow]
      · rw [if_neg ‹_›] at hbelow
        rw [← hbelow]

/-- What is discovered are the source files below a path, whatever the tree and the extension: none
where there is no directory, and else each one once, no directory among them, and in an order that
for two of them only depends on where their places part. -/
theorem discover_sources (hproper : disk.top.IsProper) (hp : disk.look p ≠ .error .nullByte)
    (extension : String) :
    ∃ found : List (List String), discover disk p extension = .ok (found.map p.below) ∧
      (∀ place, place ∈ found ↔ IsSource disk p extension place) ∧
      (found.map fun place => (p.below place).text).Nodup ∧
      (∀ place ∈ found, ∀ e, disk.look (p.below place) = .ok e → ∃ content, e = .file content) ∧
      found.Pairwise Directory.Precedes := by
  refine ⟨places disk p extension, discover_eq hproper hp, fun _ => mem_places hproper,
    nodup_places hproper, ?_, pairwise_places hproper⟩
  intro place hplace e he
  exact ((mem_places hproper).1 hplace).exists_content hproper he

/-- A disk on which the order of the walk is neither that of the entries nor that of the texts of
the paths, and a directory has the name of a source file. -/
def walkedDisk : Disk :=
  ⟨["d"], .folder "d" (.folder "a-b" (.file "q.m" [] .empty) (.folder "e.m" .empty
    (.folder "a" (.file "z.m" [] (.file "y.m" [] .empty))
      (.file "x.m" [] (.file "b.m" [] .empty))))) (.file "c.m" [] .empty)⟩

theorem discover_sources_walkedDisk :
    ∃ found : List (List String),
      discover walkedDisk ⟨["."]⟩ ".m" = .ok (found.map (Path.below ⟨["."]⟩)) ∧
      found.Pairwise Directory.Precedes ∧ ["a", "z.m"] ∈ found ∧ ["e.m"] ∉ found := by
  have hproper : walkedDisk.top.IsProper := by decide
  obtain ⟨d, hd⟩ : ∃ d, walkedDisk.look ⟨["."]⟩ = .ok (.folder d) := ⟨_, rfl⟩
  have hp : walkedDisk.look ⟨["."]⟩ ≠ .error .nullByte := by
    rw [hd]
    exact nofun
  obtain ⟨found, hfound, hmem, -, -, horder⟩ := discover_sources hproper hp ".m"
  refine ⟨found, hfound, horder, ?_, fun hfolder => ?_⟩
  · exact (hmem _).2 ⟨_, [], "z.m", rfl, rfl, rfl, by decide⟩
  · obtain ⟨d', content, name, hd', hfile, -⟩ := (hmem _).1 hfolder
    obtain rfl := Entry.folder.inj (Except.ok.inj hd')
    cases hfile

end Source

end ClassLang
