import ClassLang.Disk.Basic

/-!
# Configuration and log

What a run over source files is told, and what it says about itself. Each event has one message and
one level.
-/

namespace ClassLang

/-- How the names of source files end unless another ending is asked for. -/
def sourceExtension : String := ".moho"

/-- Where sources and templates are and what they are called. -/
structure Config where
  runPath : Path
  templatePath : Path
  extension : String := sourceExtension
  defaultTemplate : String := "empty.rhai"
  templateSuffix : String := ".rhai"
  maxWorkers : Option Int := none

namespace Config

/-- The template of classes that have none of their own. -/
def defaultPath (c : Config) : Path := c.templatePath.join c.defaultTemplate

/-- The template of the classes with this base. -/
def basePath (c : Config) (base : String) : Path := c.templatePath.join (base ++ c.templateSuffix)

end Config

inductive Level where
  | debug
  | info
  | warning
  | error
  deriving DecidableEq, Repr

def Level.word : Level → String
  | .debug => "DEBUG"
  | .info => "INFO"
  | .warning => "WARNING"
  | .error => "ERROR"

inductive Event where
  | creatingDirectory (p : Path)
  | foundSource (p : Path)
  | noTemplate (base name : String)
  | skipped (p : Path) (reason : String)
  | noSources (extension : String) (p : Path)
  | runFailed (p : Path)
  deriving DecidableEq, Repr

namespace Event

def level : Event → Level
  | creatingDirectory _ => .info
  | foundSource _ => .debug
  | noTemplate _ _ => .debug
  | skipped _ _ => .warning
  | noSources _ _ => .info
  | runFailed _ => .error

def message : Event → String
  | creatingDirectory p => "Creating template directory " ++ p.text
  | foundSource p => "Found source file " ++ p.text
  | noTemplate base name => "No template for base " ++ base ++ " of " ++ name ++ ", using default"
  | skipped p reason => "Skipping " ++ p.text ++ ": " ++ reason
  | noSources extension p => "No " ++ extension ++ " files under " ++ p.text
  | runFailed p => "Template run failed for " ++ p.text

end Event

end ClassLang
