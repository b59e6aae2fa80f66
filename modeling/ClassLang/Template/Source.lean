import ClassLang.Parse
import ClassLang.Template.Config

/-!
# Source files

`discover` lists the files below a path whose names have an extension, in the order of the walk.
`load` reads one of them; a file that cannot be read, decoded or parsed is skipped for a reason.
-/

namespace ClassLang.Source

/-- The files below a path whose names end with an extension. Where there is no directory there
are none. -/
def discover (disk : Disk) (p : Path) (extension : String) : Except DiskError (List Path) :=
  match disk.look p with
  | .ok (.folder d) =>
    let found := (d.walk []).filter fun place =>
      match place.getLast? with
      | some name => extension.toList.isSuffixOf name.toList
      | none => false
    .ok (found.map fun place =>
      if p.names.getLast? = some "" then ⟨p.names.dropLast ++ place⟩ else ⟨p.names ++ place⟩)
  | .error .nullByte => .error .nullByte
  | _ => .ok []

/-- Why a text is skipped: what is wrong with it, and where. -/
def reason (f : Failure) : String :=
  match f.diagnostic? with
  | some d =>
    d.detail ++ " at line " ++ Diagnostic.number d.place.line? ++ ", column " ++
      Diagnostic.number d.place.column?
  | none => f.message

/-- Why there is no unit: the file is skipped for a reason, or what is given is no path. -/
inductive LoadFailure where
  | skipped (reason : String)
  | nullByte
  deriving DecidableEq

/-- The unit of the file at a path. -/
def load (disk : Disk) (p : Path) : Except LoadFailure SourceUnit :=
  match disk.read p with
  | .error .nullByte => .error .nullByte
  | .error e => .error (.skipped e.text)
  | .ok bytes =>
    match parseBytes bytes with
    | .ok u => .ok u
    | .error (.encoding cause) => .error (.skipped cause.text)
    | .error (.text cause) => .error (.skipped (reason cause))

end ClassLang.Source
