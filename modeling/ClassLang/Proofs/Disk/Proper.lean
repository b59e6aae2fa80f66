import ClassLang.Proofs.Disk.Growth

/-!
# Proper directories

In a proper directory each name is a plain one and stands for one entry, so what is in it can be
read off the list of its entries. New entries keep a disk proper when the names of their paths are
what stands between slashes (`Disk.Adds.isProper`).
-/

namespace ClassLang

namespace Path

variable {p q : Path} {name : String}

instance decidableIsPlain (name : String) : Decidable (IsPlain name) :=
  inferInstanceAs (Decidable (_ ∧ _))

theorem IsStep.isPlain (h : IsStep name) (hslash : '/' ∉ name.toList) : IsPlain name :=
  ⟨h.1, h.2.1, h.2.2, hslash⟩

/-- The names of a path are what stands between slashes. -/
def IsSplit (p : Path) : Prop := ∀ name ∈ p.names, '/' ∉ name.toList

theorem not_mem_of_mem_splitOn {c : Char} {cs part : List Char} (h : part ∈ cs.splitOn c) :
    c ∉ part := by
  induction cs generalizing part with
  | nil =>
    rw [List.splitOn_nil, List.mem_singleton] at h
    rw [h]
    exact List.not_mem_nil
  | cons x cs ih =>
    rw [List.splitOn_cons_eq_if_modifyHead] at h
    split at h
    · obtain rfl | h := List.mem_cons.1 h
      · exact List.not_mem_nil
      · exact ih h
    · rename_i hx
      cases hsplit : cs.splitOn c with
      | nil => exact absurd hsplit (List.splitOn_ne_nil _ _)
      | cons first parts =>
        rw [hsplit, List.modifyHead_cons] at h
        rw [hsplit] at ih
        obtain rfl | h := List.mem_cons.1 h
        · refine fun hmem => (List.mem_cons.1 hmem).elim ?_ (ih (List.mem_cons_self ..))
          rintro rfl
          exact hx (beq_self_eq_true c)
        · exact ih (List.mem_cons_of_mem _ h)

theorem isSplit_ofText (s : String) : (ofText s).IsSplit := by
  intro name hname
  obtain ⟨part, hpart, rfl⟩ := List.mem_map.1 hname
  rw [String.toList_ofList]
  exact not_mem_of_mem_splitOn hpart

theorem IsSplit.of_prefix (h : p.IsSplit) (hq : q.names <+: p.names) : q.IsSplit :=
  fun name hname => h name (hq.subset hname)

theorem IsSplit.join (h : p.IsSplit) (s : String) : (p.join s).IsSplit := by
  rw [Path.join]
  split
  · exact isSplit_ofText s
  · split
    · exact List.forall_mem_append.2
        ⟨fun name hname => h name (List.dropLast_subset _ hname), isSplit_ofText s⟩
    · exact List.forall_mem_append.2 ⟨h, isSplit_ofText s⟩

end Path

namespace Directory

variable {d inner : Directory} {name : String} {place : List String} {e : Entry}

/-! ### Proper directories -/

/-- The names of the entries of a directory. -/
def ownNames : Directory → List String
  | empty => []
  | file name _ rest => name :: ownNames rest
  | folder name _ rest => name :: ownNames rest

/-- In a directory and in all below it, names are plain and no two entries share one. -/
def IsProper : Directory → Prop
  | empty => True
  | file name _ rest => Path.IsPlain name ∧ name ∉ ownNames rest ∧ IsProper rest
  | folder name inner rest =>
    Path.IsPlain name ∧ name ∉ ownNames rest ∧ IsProper inner ∧ IsProper rest

instance decidableIsProper : (d : Directory) → Decidable d.IsProper
  | empty => inferInstanceAs (Decidable True)
  | file _ _ rest =>
    have := decidableIsProper rest
    inferInstanceAs (Decidable (_ ∧ _))
  | folder _ inner rest =>
    have := decidableIsProper inner
    have := decidableIsProper rest
    inferInstanceAs (Decidable (_ ∧ _))

/-- An entry that is a file or a proper directory. -/
def IsProperEntry : Entry → Prop
  | .file _ => True
  | .folder d => d.IsProper

/-- A directory is a list of entries, whatever kind they are of. -/
@[elab_as_elim]
theorem cons_induction {motive : Directory → Prop} (empty : motive empty)
    (cons : ∀ name e rest, motive rest → motive (cons name e rest)) (d : Directory) :
    motive d := by
  induction d with
  | empty => exact empty
  | file name content rest ih => exact cons name (.file content) rest ih
  | folder name inner rest _ ih => exact cons name (.folder inner) rest ih

theorem ownNames_cons (name : String) (e : Entry) (d : Directory) :
    (cons name e d).ownNames = name :: d.ownNames := by
  cases e <;> rfl

theorem isProper_cons : (cons name e d).IsProper ↔
    Path.IsPlain name ∧ name ∉ d.ownNames ∧ IsProperEntry e ∧ d.IsProper := by
  cases e with
  | file content => simp only [cons, IsProper, IsProperEntry, true_and]
  | folder inner => exact .rfl

theorem mem_ownNames_of_find? (h : d.find? name = some e) : name ∈ d.ownNames := by
  induction d using cons_induction with
  | empty => cases h
  | cons n own rest ih =>
    rw [find?_cons] at h
    rw [ownNames_cons]
    split at h
    · exact List.mem_cons.2 (.inl (Eq.symm ‹_›))
    · exact List.mem_cons_of_mem _ (ih h)

theorem find?_eq_none (h : name ∉ d.ownNames) : d.find? name = none :=
  Option.eq_none_iff_forall_ne_some.2 fun _ he => h (mem_ownNames_of_find? he)

namespace IsProper

theorem nodup (h : d.IsProper) : d.ownNames.Nodup := by
  induction d using cons_induction with
  | empty => exact List.nodup_nil
  | cons n own rest ih =>
    obtain ⟨-, hn, -, hrest⟩ := isProper_cons.1 h
    rw [ownNames_cons]
    exact List.nodup_cons.2 ⟨hn, ih hrest⟩

theorem isPlain (h : d.IsProper) (he : d.find? name = some e) : Path.IsPlain name := by
  induction d using cons_induction with
  | empty => cases he
  | cons n own rest ih =>
    obtain ⟨hn, -, -, hrest⟩ := isProper_cons.1 h
    rw [find?_cons] at he
    split at he
    · rename_i heq
      exact heq ▸ hn
    · exact ih hrest he

theorem entry (h : d.IsProper) (he : d.find? name = some e) : IsProperEntry e := by
  induction d using cons_induction with
  | empty => cases he
  | cons n own rest ih =>
    obtain ⟨-, -, hown, hrest⟩ := isProper_cons.1 h
    rw [find?_cons] at he
    split at he
    · exact Option.some.inj he ▸ hown
    · exact ih hrest he

theorem below (h : d.IsProper) (hf : d.find? name = some (.folder inner)) : inner.IsProper :=
  h.entry hf

theorem entryAt? (h : d.IsProper) (he : d.entryAt? place = some (.folder inner)) :
    inner.IsProper := by
  induction place generalizing d with
  | nil =>
    obtain rfl := Entry.folder.inj (Option.some.inj he)
    exact h
  | cons n place ih =>
    obtain ⟨next, hnext, he⟩ := exists_next he
    exact ih (h.below hnext) he

/-- The way to an entry is made of plain names. -/
theorem isPlain_of_entryAt? (h : d.IsProper) (he : d.entryAt? place = some e) :
    ∀ name ∈ place, Path.IsPlain name := by
  induction place generalizing d with
  | nil => exact nofun
  | cons n place ih =>
    rw [List.forall_mem_cons]
    rw [Directory.entryAt?] at he
    split at he
    · rename_i next hnext
      exact ⟨h.isPlain hnext, ih (h.below hnext) he⟩
    · rename_i content hfile
      split at he
      · rename_i hnil
        rw [hnil]
        exact ⟨h.isPlain hfile, nofun⟩
      · cases he
    · cases he

end IsProper

/-! ### Changes -/

theorem isProperEntry_new (kind : Kind) : IsProperEntry kind.entry := by
  cases kind <;> exact trivial

theorem put_cons (n name : String) (own e : Entry) (rest : Directory) :
    (cons n own rest).put name e =
      if n = name then cons name e rest else cons n own (rest.put name e) := by
  cases own <;> rfl

theorem mem_ownNames_put {other : String} (h : other ∈ (d.put name e).ownNames) :
    other = name ∨ other ∈ d.ownNames := by
  induction d using cons_induction with
  | empty =>
    rw [put, ownNames_cons] at h
    exact List.mem_cons.1 h
  | cons n own rest ih =>
    rw [put_cons] at h
    rw [ownNames_cons]
    split at h
    · rw [ownNames_cons] at h
      exact (List.mem_cons.1 h).imp_right (List.mem_cons_of_mem _)
    · rw [ownNames_cons] at h
      obtain rfl | h := List.mem_cons.1 h
      · exact .inr (List.mem_cons_self ..)
      · exact (ih h).imp_right (List.mem_cons_of_mem _)

theorem IsProper.put (h : d.IsProper) (hname : Path.IsPlain name) (he : IsProperEntry e) :
    (d.put name e).IsProper := by
  induction d using cons_induction with
  | empty => exact isProper_cons.2 ⟨hname, List.not_mem_nil, he, h⟩
  | cons n own rest ih =>
    obtain ⟨hn, hfree, hown, hrest⟩ := isProper_cons.1 h
    rw [put_cons]
    split
    · rename_i heq
      exact isProper_cons.2 ⟨hname, heq ▸ hfree, he, hrest⟩
    · rename_i hne
      exact isProper_cons.2 ⟨hn, fun hmem => (mem_ownNames_put hmem).elim hne hfree, hown,
        ih hrest⟩

theorem IsProper.putAt (h : d.IsProper) (hplace : ∀ name ∈ place, Path.IsPlain name)
    (he : IsProperEntry e) : (d.putAt place e).IsProper := by
  induction place generalizing d with
  | nil => exact h
  | cons name place ih =>
    obtain ⟨hname, hplace⟩ := List.forall_mem_cons.1 hplace
    cases place with
    | nil => exact h.put hname he
    | cons next place =>
      rw [Directory.putAt]
      · split
        · rename_i inner hinner
          exact h.put hname (ih (h.below hinner) hplace)
        · exact h
      · exact List.cons_ne_nil _ _

end Directory

namespace Disk

variable {disk after : Disk} {p : Path} {front : List String} {name : String} {d : Directory}

theorem isProper_of_look (hdisk : disk.top.IsProper) (h : disk.look p = .ok (.folder d)) :
    d.IsProper :=
  hdisk.entryAt? (entryAt?_of_follow (look_eq_ok.1 h).2)

theorem IsFree.isProper (h : disk.IsFree p front name d) (hdisk : disk.top.IsProper)
    (hp : p.IsSplit) (kind : Kind) : (disk.put p kind.entry).top.IsProper := by
  refine hdisk.putAt (?_ : ∀ n ∈ disk.placeOf p.names, Path.IsPlain n)
    (Directory.isProperEntry_new kind)
  rw [h.placeOf, List.forall_mem_append, List.forall_mem_singleton]
  refine ⟨hdisk.isPlain_of_entryAt? (entryAt?_of_follow h.folder), h.step.isPlain (hp name ?_)⟩
  rw [h.names]
  exact List.mem_concat_self

theorem Adds.isProper {new : Path → Kind → Prop} (h : Adds new disk after)
    (hdisk : disk.top.IsProper) (hnew : ∀ p kind, new p kind → p.IsSplit) :
    after.top.IsProper := by
  induction h with
  | same => exact hdisk
  | put _ hfree hp ih => exact hfree.isProper ih (hnew _ _ hp) _

end Disk

end ClassLang
