import ClassLang.Disk.Directory
import ClassLang.Disk.Path
import ClassLang.Text.Quoted

/-!
# Disks

A disk is the directory at the root of all paths with the place of the working directory in it.
There are files and directories on it and nothing else, and nothing lies above the root. Looking a
path up follows its names one by one, from the root or from the working directory; a file on the way
stops it, and so does a name that nothing has. Making directories adds to a disk and takes nothing
away, and what was made before a refusal stays; only `write` changes what a file holds.
-/

namespace ClassLang

/-- Why the disk refuses an operation. -/
inductive DiskFault where
  | missing
  | occupied
  | notDirectory
  | isDirectory
  | nameTooLong
  deriving DecidableEq, Repr

/-- An operation is refused at a path, or what is given is no path at all. -/
inductive DiskError where
  | refused (fault : DiskFault) (path : Path)
  | nullByte
  deriving DecidableEq, Repr

namespace DiskFault

def number : DiskFault → Nat
  | missing => 2
  | occupied => 17
  | notDirectory => 20
  | isDirectory => 21
  | nameTooLong => 36

def reason : DiskFault → String
  | missing => "No such file or directory"
  | occupied => "File exists"
  | notDirectory => "Not a directory"
  | isDirectory => "Is a directory"
  | nameTooLong => "File name too long"

end DiskFault

def DiskError.text : DiskError → String
  | refused fault path => s!"[Errno {fault.number}] {fault.reason}: " ++ Quoted.quote path.text
  | nullByte => "embedded null byte"

/-- The directory at the root of all paths, and the names that lead from there to the working
directory. -/
structure Disk where
  work : List String
  top : Directory

namespace Disk

/-! ### Looking up -/

/-- The most bytes that a name may have. -/
def nameLimit : Nat := 255

/-- The most bytes that the text of a path may have. -/
def pathLimit : Nat := 4095

/-- Follows names from the directory at a place of the disk. -/
def follow (disk : Disk) : List String → List String → Except DiskFault Entry
  | place, [] =>
    match disk.top.entryAt? place with
    | some e => .ok e
    | none => .error .missing
  | place, name :: names =>
    if name = "" ∨ name = "." then follow disk place names
    else if name = ".." then follow disk place.dropLast names
    else if nameLimit < name.utf8ByteSize then .error .nameTooLong
    else
      match disk.top.entryAt? (place ++ [name]) with
      | none => .error .missing
      | some (.folder _) => follow disk (place ++ [name]) names
      | some (.file content) => if names = [] then .ok (.file content) else .error .notDirectory

/-- The names that lead from the root to what the names of a path lead to. -/
def namesBelow (disk : Disk) (names : List String) : List String :=
  if names.head? = some "" then names.tail else disk.work ++ names

/-- What the names of a path lead to. -/
def find (disk : Disk) (names : List String) : Except DiskFault Entry :=
  disk.follow [] (disk.namesBelow names)

/-- Refuses texts that cannot be paths. -/
def check (p : Path) : Except DiskError Unit :=
  if p.names.any fun name => name.toList.contains '\x00' then .error .nullByte
  else if p.text = "" then .error (.refused .missing p)
  else if pathLimit < p.text.utf8ByteSize then .error (.refused .nameTooLong p)
  else .ok ()

def look (disk : Disk) (p : Path) : Except DiskError Entry := do
  check p
  match disk.find p.names with
  | .ok e => .ok e
  | .error fault => .error (.refused fault p)

def isDirectory (disk : Disk) (p : Path) : Bool :=
  match disk.look p with
  | .ok (.folder _) => true
  | _ => false

def isFile (disk : Disk) (p : Path) : Bool :=
  match disk.look p with
  | .ok (.file _) => true
  | _ => false

def contains (disk : Disk) (p : Path) : Bool :=
  match disk.look p with
  | .ok _ => true
  | .error _ => false

def read (disk : Disk) (p : Path) : Except DiskError (List UInt8) := do
  match ← disk.look p with
  | .file content => .ok content
  | .folder _ => .error (.refused .isDirectory p)

/-! ### Changing -/

/-- Gives a path an entry. -/
def put (disk : Disk) (p : Path) (e : Entry) : Disk :=
  { disk with top := disk.top.putAt (Path.normalize (disk.namesBelow p.names)) e }

/-- Whether names lead to a directory. -/
def hasFolder (disk : Disk) (names : List String) : Bool :=
  match disk.find names with
  | .ok (.folder _) => true
  | _ => false

/-- Makes a directory where nothing is, inside a directory that is there. -/
def makeDirectory (disk : Disk) (p : Path) : Except DiskError Disk := do
  check p
  match disk.find p.trimmed.names with
  | .ok _ => .error (.refused .occupied p)
  | .error .missing =>
    if disk.hasFolder p.trimmed.around.names then .ok (disk.put p.trimmed (.folder .empty))
    else .error (.refused .missing p)
  | .error fault => .error (.refused fault p)

/-- Makes a directory unless there is one. -/
def ensureDirectory (disk : Disk) (p : Path) : Except DiskError Unit × Disk :=
  match disk.makeDirectory p with
  | .ok disk => (.ok (), disk)
  | .error e => (if disk.isDirectory p then .ok () else .error e, disk)

/-- Makes the last directory of a path; a dot at its end means no other one. -/
def ensureLast (disk : Disk) (p : Path) : Except DiskError Unit × Disk :=
  if p.trimmed.baseName = "." then (.ok (), disk) else disk.ensureDirectory p

/-- Makes a directory that lies in the given ones, the nearest first, after those of them that are
not there. That something else is in the place of one of them does not stop it. -/
def ensureInside (disk : Disk) (p : Path) : List Path → Except DiskError Unit × Disk
  | [] => disk.ensureDirectory p
  | around :: way =>
    if disk.contains around then disk.ensureDirectory p
    else
      match disk.ensureInside around way with
      | (.error (.refused .occupied _), disk) => disk.ensureLast p
      | (.error e, disk) => (.error e, disk)
      | (.ok _, disk) => disk.ensureLast p

/-- Makes a directory and all directories on the way to it that are not there. -/
def makeDirectories (disk : Disk) (p : Path) : Except DiskError Unit × Disk :=
  disk.ensureInside p p.way

/-- Gives a file its content, and makes the file if nothing is there. -/
def write (disk : Disk) (p : Path) (content : List UInt8) : Except DiskError Disk := do
  check p
  if p.trimmed = p then
    match disk.find p.names with
    | .ok (.file _) => .ok (disk.put p (.file content))
    | .ok (.folder _) => .error (.refused .isDirectory p)
    | .error .missing =>
      if disk.hasFolder p.around.names then .ok (disk.put p (.file content))
      else .error (.refused .missing p)
    | .error fault => .error (.refused fault p)
  else
    match disk.find p.trimmed.around.names with
    | .ok (.folder _) => .error (.refused .isDirectory p)
    | .ok (.file _) => .error (.refused .notDirectory p)
    | .error fault => .error (.refused fault p)

/-- Makes an empty file unless something is there. -/
def touch (disk : Disk) (p : Path) : Except DiskError Disk :=
  if disk.contains p then .ok disk else disk.write p []

end Disk

end ClassLang
