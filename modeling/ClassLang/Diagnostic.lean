import ClassLang.Text.Position
import ClassLang.Text.Quoted

/-!
# Diagnostics

How a fault of a text is reported: at which stage it was found, what is wrong, and where. A place
is a span of the text, or only a line and a column, or unknown.
-/

namespace ClassLang

inductive Stage where
  | parse
  | tokenizer
  | property
  | value
  | classes
  | declaration
  | type
  | field
  | argument
  deriving DecidableEq, Repr

def Stage.word : Stage → String
  | .parse => "parse"
  | .tokenizer => "tokenizer"
  | .property => "property"
  | .value => "value"
  | .classes => "class"
  | .declaration => "declaration"
  | .type => "type"
  | .field => "field"
  | .argument => "argument"

inductive Place where
  | unknown
  | point (line column : Option Int)
  | span (s : Span)
  deriving DecidableEq, Repr

namespace Place

def line? : Place → Option Int
  | unknown => none
  | point line _ => line
  | span s => some s.line

def column? : Place → Option Int
  | unknown => none
  | point _ column => column
  | span s => some s.column

def span? : Place → Option Span
  | span s => some s
  | _ => none

def ofPosition (p : Position) : Place := point (some p.line) (some p.column)

def ofSpan? : Option Span → Place
  | some s => span s
  | none => unknown

end Place

structure Diagnostic where
  stage : Stage
  detail : String
  place : Place
  deriving DecidableEq, Repr

namespace Diagnostic

def number : Option Int → String
  | some n => toString n
  | none => Quoted.missing

def text (d : Diagnostic) : String :=
  match d.place with
  | .unknown => d.stage.word ++ ": " ++ d.detail
  | .point line column =>
    d.stage.word ++ " at " ++ number line ++ ":" ++ number column ++ ": " ++ d.detail
  | .span s =>
    d.stage.word ++ " at " ++ s.text ++ ": " ++ d.detail ++ " (" ++ Quoted.quote s.fragment ++ ")"

end Diagnostic

end ClassLang
