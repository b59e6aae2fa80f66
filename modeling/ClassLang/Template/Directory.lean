import ClassLang.Template.Config

/-!
# The template directory

`prepare` makes the template directory and an empty default template unless they are there.
`choose` picks the template of a class: the one named for its primary base if there is such a file,
else the default one.
-/

namespace ClassLang.Template

/-- Makes the template directory unless it is there, which is logged. -/
def makeFolder (config : Config) (disk : Disk) : Except DiskError Unit × Disk × List Event :=
  if disk.isDirectory config.templatePath then (.ok (), disk, [])
  else
    let (made, disk) := disk.makeDirectories config.templatePath
    (made, disk, [.creatingDirectory config.templatePath])

/-- Makes sure that the template directory and the default template are there. Gives the path of
the default template, the disk afterwards and what is logged; directories that were made stay when
something is refused. -/
def prepare (config : Config) (disk : Disk) : Except DiskError Path × Disk × List Event :=
  match makeFolder config disk with
  | (.error e, disk, events) => (.error e, disk, events)
  | (.ok _, disk, events) =>
    match disk.touch config.defaultPath with
    | .error e => (.error e, disk, events)
    | .ok disk => (.ok config.defaultPath, disk, events)

/-- The template of a class with this name and this primary base. -/
def choose (config : Config) (disk : Disk) (name : String) (base : Option String) :
    Path × List Event :=
  match base with
  | none => (config.defaultPath, [])
  | some base =>
    if disk.isFile (config.basePath base) then (config.basePath base, [])
    else (config.defaultPath, [.noTemplate base name])

end ClassLang.Template
