/-!
# Directories

A directory is a list of named files and folders. `find?` looks a name up, `put` gives a name a new
entry and leaves all others as they are. `walk` lists what lies below a directory: the files of a
directory in the order of their names, then the content of each of its folders in that order.
-/

namespace ClassLang

inductive Directory where
  | empty
  | file (name : String) (content : List UInt8) (rest : Directory)
  | folder (name : String) (inner : Directory) (rest : Directory)

inductive Entry where
  | file (content : List UInt8)
  | folder (inner : Directory)

namespace Directory

def find? (name : String) : Directory → Option Entry
  | empty => none
  | file n content rest => if n = name then some (.file content) else find? name rest
  | folder n inner rest => if n = name then some (.folder inner) else find? name rest

def cons (name : String) (e : Entry) (rest : Directory) : Directory :=
  match e with
  | .file content => file name content rest
  | .folder inner => folder name inner rest

/-- Gives a name an entry, in place of the one it has. -/
def put (name : String) (e : Entry) : Directory → Directory
  | empty => cons name e empty
  | file n content rest => if n = name then cons name e rest else file n content (put name e rest)
  | folder n inner rest => if n = name then cons name e rest else folder n inner (put name e rest)

theorem find?_cons (name other : String) (e : Entry) (d : Directory) :
    (cons name e d).find? other = if name = other then some e else d.find? other := by
  cases e <;> rfl

theorem find?_put (name other : String) (e : Entry) (d : Directory) :
    (d.put name e).find? other = if name = other then some e else d.find? other := by
  induction d with
  | empty => rw [put, find?_cons]
  | file n content rest ih =>
    rw [put]
    by_cases hn : n = name
    · rw [if_pos hn, find?_cons, find?, hn]
      by_cases ho : name = other <;> simp only [ho, if_true, if_false]
    · rw [if_neg hn, find?, find?, ih]
      by_cases ho : name = other
      · rw [if_pos ho, if_neg (fun e => hn (e.trans ho.symm)), if_pos ho]
      · rw [if_neg ho, if_neg ho]
  | folder n inner rest ihInner ih =>
    rw [put]
    by_cases hn : n = name
    · rw [if_pos hn, find?_cons, find?, hn]
      by_cases ho : name = other <;> simp only [ho, if_true, if_false]
    · rw [if_neg hn, find?, find?, ih]
      by_cases ho : name = other
      · rw [if_pos ho, if_neg (fun e => hn (e.trans ho.symm)), if_pos ho]
      · rw [if_neg ho, if_neg ho]

theorem find?_put_self (name : String) (e : Entry) (d : Directory) :
    (d.put name e).find? name = some e := by
  rw [find?_put, if_pos rfl]

theorem find?_put_of_ne {name other : String} (h : name ≠ other) (e : Entry) (d : Directory) :
    (d.put name e).find? other = d.find? other := by
  rw [find?_put, if_neg h]

/-- Gives the end of a path of plain names an entry. The folders on the way have to be there. -/
def putAt : List String → Entry → Directory → Directory
  | [], _, d => d
  | [name], e, d => d.put name e
  | name :: names, e, d =>
    match d.find? name with
    | some (.folder inner) => d.put name (.folder (putAt names e inner))
    | _ => d

/-- The entry at the end of a path of plain names. No names lead to the directory itself. -/
def entryAt? : List String → Directory → Option Entry
  | [], d => some (.folder d)
  | name :: names, d =>
    match d.find? name with
    | some (.folder inner) => entryAt? names inner
    | some (.file content) => if names = [] then some (.file content) else none
    | none => none

/-! ### Listing -/

/-- Everything below a directory: folders with their names, files with their sizes. -/
def list (place : List String) : Directory → List (List String × Option Nat)
  | empty => []
  | file name content rest => (place ++ [name], some content.length) :: list place rest
  | folder name inner rest =>
    (place ++ [name], none) :: (list (place ++ [name]) inner ++ list place rest)

def fileNames : Directory → List String
  | empty => []
  | file name _ rest => name :: fileNames rest
  | folder _ _ rest => fileNames rest

def sortNames (names : List String) : List String := names.mergeSort fun a b => a ≤ b

def sortNamed {α : Type} (items : List (String × α)) : List (String × α) :=
  items.mergeSort fun a b => a.1 ≤ b.1

def ownFiles (place : List String) (d : Directory) : List (List String) :=
  (sortNames d.fileNames).map fun name => place ++ [name]

/-- The files below each folder of a directory. -/
def folderFiles (place : List String) : Directory → List (String × List (List String))
  | empty => []
  | file _ _ rest => folderFiles place rest
  | folder name inner rest =>
    let place' := place ++ [name]
    (name, ownFiles place' inner ++ (sortNamed (folderFiles place' inner)).flatMap Prod.snd) ::
      folderFiles place rest

/-- All files below a directory, in the order of a walk. -/
def walk (place : List String) (d : Directory) : List (List String) :=
  ownFiles place d ++ (sortNamed (folderFiles place d)).flatMap Prod.snd

theorem folderFiles_folder (place : List String) (name : String) (inner rest : Directory) :
    folderFiles place (folder name inner rest) =
      (name, walk (place ++ [name]) inner) :: folderFiles place rest := rfl

end Directory

end ClassLang
