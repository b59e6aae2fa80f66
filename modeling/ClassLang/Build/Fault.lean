import ClassLang.Diagnostic
import ClassLang.Number.Numeral
import ClassLang.Syntax.Read

/-!
# Faults of a text

Why no declaration can be built from a text: the grammar rejects it, a literal denotes no value, a
construct is not supported, or a node of a tree has the wrong children. Each cause has one message.
Nodes with the wrong children never come from a text, only from trees made by hand.
-/

namespace ClassLang

inductive Fault where
  | numeral (cause : Numeral.Fault)
  | charRange (n : Int)
  | unknownBool (text : String)
  | unknownLiteral
  | propertyName
  | inClass (shown : String)
  | classNameMissing
  | inDeclaration (shown : String)
  | malformedBlock
  | inField (shown : String)
  | qualifiedField (name : String)
  | inMethod (shown : String)
  | malformedArgument
  deriving DecidableEq

namespace Fault

def stage : Fault → Stage
  | numeral _ => .value
  | charRange _ => .value
  | unknownBool _ => .value
  | unknownLiteral => .value
  | propertyName => .property
  | inClass _ => .classes
  | classNameMissing => .classes
  | inDeclaration _ => .declaration
  | malformedBlock => .declaration
  | inField _ => .field
  | qualifiedField _ => .field
  | inMethod _ => .declaration
  | malformedArgument => .argument

def detail : Fault → String
  | numeral cause => cause.text
  | charRange n => s!"char value {n} is out of range for a byte"
  | unknownBool text => Quoted.quote text
  | unknownLiteral => "Cannot read value"
  | propertyName => "Expected property name"
  | inClass shown => "Cannot parse " ++ shown ++ " in class."
  | classNameMissing => "Class name missing."
  | inDeclaration shown => "Unexpected token " ++ shown ++ " in block."
  | malformedBlock => "Malformed block."
  | inField shown => "Cannot parse " ++ shown ++ " in field."
  | qualifiedField name => "Qualifier on field " ++ name ++ " is not supported."
  | inMethod shown => "Cannot parse " ++ shown ++ " in method."
  | malformedArgument => "Cannot parse argument."

end Fault

/-- How the children of a node fail its rule. -/
inductive Misfit where
  | tooFew (expected got : Nat)
  | tooMany (expected : Nat)
  | empty
  | lacks (kind part : String)
  | notText (place : Nat) (kind : String)
  | notCallable (kind : String)
  deriving DecidableEq

def Misfit.text : Misfit → String
  | tooFew expected got => s!"not enough values to unpack (expected {expected}, got {got})"
  | tooMany expected => s!"too many values to unpack (expected {expected})"
  | empty => "list index out of range"
  | lacks kind part => "'" ++ kind ++ "' object has no attribute '" ++ part ++ "'"
  | notText place kind => s!"sequence item {place}: expected str instance, {kind} found"
  | notCallable kind => "'" ++ kind ++ "' object is not callable"

/-- Why reading or building fails. -/
inductive Failure where
  | rejected (text : List Char) (cause : Rejection)
  | fault (cause : Fault) (span : Option Span)
  | misfit (rule : Label Rule) (cause : Misfit)
  deriving DecidableEq

namespace Failure

/-- The report of a failure; misfits are not reported but shown as they are. -/
def diagnostic? : Failure → Option Diagnostic
  | rejected text cause =>
    some ⟨.tokenizer, cause.detail text, .ofPosition cause.place⟩
  | fault cause span => some ⟨cause.stage, cause.detail, .ofSpan? span⟩
  | misfit _ _ => none

def message : Failure → String
  | rejected text cause =>
    Diagnostic.text ⟨.tokenizer, cause.detail text, .ofPosition cause.place⟩
  | fault cause span => Diagnostic.text ⟨cause.stage, cause.detail, .ofSpan? span⟩
  | misfit rule cause =>
    "Error trying to process rule \"" ++ rule.ruleName ++ "\":\n\n" ++ cause.text

theorem message_of_diagnostic? {f : Failure} {d : Diagnostic} (h : f.diagnostic? = some d) :
    f.message = d.text := by
  cases f <;> simp only [diagnostic?, Option.some.injEq, reduceCtorEq] at h <;> subst h <;> rfl

end Failure

end ClassLang
