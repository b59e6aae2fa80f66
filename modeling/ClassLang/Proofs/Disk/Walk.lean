import ClassLang.Proofs.Disk.Proper

/-!
# Walks

A walk of a proper directory lists the place of each file below it (`Directory.mem_walk`), and which
of two places is listed first depends only on where they part (`Directory.pairwise_walk`).
-/

namespace ClassLang

namespace Directory

variable {d : Directory} {name : String} {place : List String}

/-! ### What a walk lists -/

/-- What holds of a directory when it holds of those in it holds of every directory. -/
@[elab_as_elim]
theorem below_induction {motive : Directory → Prop}
    (step : ∀ d, (∀ name inner, d.find? name = some (.folder inner) → motive inner) → motive d)
    (d : Directory) : motive d := by
  -- the rest of a list of entries is no directory below, so it is those below that are followed
  suffices hbelow : ∀ name inner, d.find? name = some (.folder inner) → motive inner from
    step d hbelow
  induction d with
  | empty => exact nofun
  | file n content rest ih =>
    intro name inner h
    rw [find?] at h
    split at h
    · cases h
    · exact ih name inner h
  | folder n own rest ihOwn ih =>
    intro name inner h
    rw [find?] at h
    split at h
    · cases h
      exact step own ihOwn
    · exact ih name inner h

theorem mem_fileNames (h : d.IsProper) :
    name ∈ d.fileNames ↔ ∃ content, d.find? name = some (.file content) := by
  induction d with
  | empty => simp [fileNames, find?]
  | file n content rest ih =>
    rw [fileNames, find?, List.mem_cons, ih h.2.2]
    by_cases hn : n = name
    · simp [hn]
    · simp [hn, Ne.symm hn]
  | folder n inner rest _ ih =>
    rw [fileNames, find?, ih h.2.2.2]
    by_cases hn : n = name
    · -- behind a folder its name is not used again
      subst hn
      simp [find?_eq_none h.2.1]
    · simp [hn]

theorem mem_folderFiles (h : d.IsProper) {places : List (List String)} :
    (name, places) ∈ folderFiles place d ↔
      ∃ inner, d.find? name = some (.folder inner) ∧ places = walk (place ++ [name]) inner := by
  induction d with
  | empty => simp [folderFiles, find?]
  | file n content rest ih =>
    rw [folderFiles, find?, ih h.2.2]
    by_cases hn : n = name
    · subst hn
      simp [find?_eq_none h.2.1]
    · simp [hn]
  | folder n inner rest _ ih =>
    rw [folderFiles_folder, find?, List.mem_cons, ih h.2.2.2]
    by_cases hn : n = name
    · subst hn
      simp [find?_eq_none h.2.1]
    · simp [hn, Ne.symm hn]

/-- A walk lists the files of a directory itself and what the walks of its folders list. -/
theorem mem_walk_iff (h : d.IsProper) {q : List String} :
    q ∈ walk place d ↔
      (∃ name content, d.find? name = some (.file content) ∧ q = place ++ [name]) ∨
      ∃ name inner, d.find? name = some (.folder inner) ∧ q ∈ walk (place ++ [name]) inner := by
  rw [walk, List.mem_append, ownFiles, sortNames, sortNamed, List.mem_map, List.mem_flatMap]
  simp only [List.mem_mergeSort, mem_fileNames h]
  refine or_congr ⟨?_, ?_⟩ ⟨?_, ?_⟩
  · rintro ⟨name, ⟨content, hfile⟩, rfl⟩
    exact ⟨name, content, hfile, rfl⟩
  · rintro ⟨name, content, hfile, rfl⟩
    exact ⟨name, ⟨content, hfile⟩, rfl⟩
  · rintro ⟨⟨name, places⟩, hitem, hq⟩
    obtain ⟨inner, hfolder, rfl⟩ := (mem_folderFiles h).1 hitem
    exact ⟨name, inner, hfolder, hq⟩
  · rintro ⟨name, inner, hfolder, hq⟩
    exact ⟨(name, _), (mem_folderFiles h).2 ⟨inner, hfolder, rfl⟩, hq⟩

/-- A walk lists the places of the files below a directory. -/
theorem mem_walk (h : d.IsProper) {q : List String} :
    q ∈ walk place d ↔
      ∃ names content, q = place ++ names ∧ d.entryAt? names = some (.file content) := by
  induction d using below_induction generalizing place with
  | step d ih =>
    rw [mem_walk_iff h]
    constructor
    · rintro (⟨name, content, hfile, rfl⟩ | ⟨name, inner, hfolder, hq⟩)
      · exact ⟨[name], content, rfl, entryAt?_single.trans hfile⟩
      · obtain ⟨names, content, rfl, hfile⟩ := (ih name inner hfolder (h.below hfolder)).1 hq
        exact ⟨name :: names, content, List.append_assoc .., (entryAt?_folder hfolder).trans hfile⟩
    · rintro ⟨names, content, rfl, he⟩
      cases names with
      | nil => cases he
      | cons name names =>
        rw [entryAt?] at he
        split at he
        · rename_i inner hfolder
          refine .inr ⟨name, inner, hfolder, ?_⟩
          rw [ih name inner hfolder (h.below hfolder)]
          exact ⟨names, content, by rw [List.append_assoc, List.singleton_append], he⟩
        · rename_i content' hfile
          split at he
          · rename_i hnil
            subst hnil
            exact .inl ⟨name, content', hfile, rfl⟩
          · cases he
        · cases he

/-! ### The order of a walk -/

/-- Which of two places of files is listed first. In the directory where they part, its own files
come before those further down, its files come in the order of their names, and so do those further
down by the names of the folders they are in. -/
inductive Precedes : List String → List String → Prop
  | files {a b : String} (h : a < b) : Precedes [a] [b]
  | down (a b c : String) (bs : List String) : Precedes [a] (b :: c :: bs)
  | folders {a b : String} (h : a < b) (c c' : String) (as bs : List String) :
    Precedes (a :: c :: as) (b :: c' :: bs)
  | together (a : String) {as bs : List String} (h : Precedes as bs) :
    Precedes (a :: as) (a :: bs)

theorem Precedes.behind {as bs : List String} (h : Precedes as bs) (place : List String) :
    Precedes (place ++ as) (place ++ bs) := by
  induction place with
  | nil => exact h
  | cons a place ih => exact .together a ih

theorem Precedes.irrefl {as : List String} : ¬ Precedes as as := by
  induction as with
  | nil => exact nofun
  | cons a as ih =>
    intro h
    cases h with
    | files h => exact String.lt_irrefl a h
    | folders h => exact String.lt_irrefl a h
    | together _ h => exact ih h

theorem fileNames_sublist (d : Directory) : d.fileNames.Sublist d.ownNames := by
  induction d with
  | empty => exact .slnil
  | file n content rest ih => exact ih.cons_cons n
  | folder n inner rest _ ih => exact ih.cons n

theorem folderFiles_sublist (place : List String) (d : Directory) :
    ((folderFiles place d).map Prod.fst).Sublist d.ownNames := by
  induction d with
  | empty => exact .slnil
  | file n content rest ih => exact ih.cons n
  | folder n inner rest _ ih => exact ih.cons_cons n

/-- Sorting by names puts them in order if no two are the same. -/
theorem pairwise_mergeSort_key {α : Type} (key : α → String) {items : List α}
    (h : (items.map key).Nodup) :
    (items.mergeSort fun a b => key a ≤ key b).Pairwise fun a b => key a < key b := by
  have hle : (items.mergeSort fun a b => key a ≤ key b).Pairwise
      fun a b => decide (key a ≤ key b) = true := by
    refine List.pairwise_mergeSort ?_ ?_ items
    · intro a b c hab hbc
      exact decide_eq_true (String.le_trans (of_decide_eq_true hab) (of_decide_eq_true hbc))
    · intro a b
      simpa using String.le_total (key a) (key b)
  have hne : (items.mergeSort fun a b => key a ≤ key b).Pairwise fun a b => key a ≠ key b :=
    List.pairwise_map.1 (((List.mergeSort_perm items _).map key).nodup_iff.2 h)
  exact (hle.and hne).imp fun ⟨hab, hn⟩ => Std.lt_of_le_of_ne (of_decide_eq_true hab) hn

/-- The places in a folder are those of the files below it. -/
theorem eq_behind_of_mem (h : d.IsProper) {item : String × List (List String)}
    (hitem : item ∈ sortNamed (folderFiles place d)) :
    ∀ q ∈ item.2, ∃ c names, q = place ++ item.1 :: c :: names := by
  intro q hq
  obtain ⟨inner, hinner, hwalk⟩ := (mem_folderFiles h).1 (List.mem_mergeSort.1 hitem)
  rw [hwalk] at hq
  obtain ⟨names, content, rfl, hfile⟩ := (mem_walk (h.below hinner)).1 hq
  cases names with
  | nil => cases hfile
  | cons c names => exact ⟨c, names, by rw [List.append_assoc, List.singleton_append]⟩

theorem pairwise_walk (h : d.IsProper) : (walk place d).Pairwise Precedes := by
  induction d using below_induction generalizing place with
  | step d ih =>
    rw [walk, List.pairwise_append]
    refine ⟨?_, ?_, ?_⟩
    · have hsorted := pairwise_mergeSort_key id
        (by rw [List.map_id]; exact h.nodup.sublist (fileNames_sublist d))
      exact List.pairwise_map.2 (hsorted.imp fun hlt => (Precedes.files hlt).behind place)
    · have hsorted := pairwise_mergeSort_key Prod.fst
        (h.nodup.sublist (folderFiles_sublist place d))
      refine List.pairwise_flatMap.2 ⟨fun item hitem => ?_, ?_⟩
      · obtain ⟨inner, hinner, hwalk⟩ := (mem_folderFiles h).1 (List.mem_mergeSort.1 hitem)
        rw [hwalk]
        exact ih _ inner hinner (h.below hinner)
      · refine hsorted.imp_of_mem fun {a b} ha hb hlt q hq r hr => ?_
        obtain ⟨c, names, rfl⟩ := eq_behind_of_mem h ha q hq
        obtain ⟨c', names', rfl⟩ := eq_behind_of_mem h hb r hr
        exact (Precedes.folders hlt c c' names names').behind place
    · intro q hq r hr
      obtain ⟨name, -, rfl⟩ := List.mem_map.1 hq
      obtain ⟨item, hitem, hr⟩ := List.mem_flatMap.1 hr
      obtain ⟨c, names, rfl⟩ := eq_behind_of_mem h hitem r hr
      exact (Precedes.down name item.1 c names).behind place

end Directory

end ClassLang
