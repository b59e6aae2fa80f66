import ClassLang.Parse
import ClassLang.Proofs.Build.Agreement
import ClassLang.Proofs.Build.CharLiteral
import ClassLang.Proofs.Build.LineEnds
import ClassLang.Proofs.Build.Outcome
import ClassLang.Proofs.Build.Placement
import ClassLang.Proofs.Build.Regrouping
import ClassLang.Proofs.Build.Relaid
import ClassLang.Proofs.Build.WellFormed
import ClassLang.Proofs.Build.WrittenClass
import ClassLang.Proofs.Build.WrittenMethod
import ClassLang.Proofs.EarlyFlattening
import ClassLang.Proofs.Flattening
import ClassLang.Proofs.Lookup
import ClassLang.Proofs.Syntax.Caret
import ClassLang.Proofs.Syntax.Cut
import ClassLang.Proofs.Syntax.Renaming
import ClassLang.Proofs.Syntax.WholeWords
import ClassLang.Proofs.Template.Dispatch
import ClassLang.Proofs.Views
import ClassLang.Syntax.Progress
import ClassLang.View
