import LoxLang.Main
import LoxLang.Notation.Diagnostic
import LoxLang.Notation.Scope
import LoxLang.Proofs.Grammar.Slices
import LoxLang.Proofs.Grammar.Writing
import LoxLang.Proofs.Session.Super
import LoxLang.Proofs.Variation.Steps
import LoxLang.Scoping.Uses
import LoxLang.Proofs.Grammar.ExpressionRepeating
import LoxLang.Proofs.Grammar.ProgramRepeating
import LoxLang.Proofs.Variation.Marking
import LoxLang.Proofs.Variation.Rewording
import LoxLang.Proofs.Variation.Runs
import LoxLang.Proofs.Variation.Sessions
import LoxLang.Proofs.Machine.Confinement
import LoxLang.Proofs.Machine.Globals
import LoxLang.Proofs.Machine.Separation
import LoxLang.Proofs.Scoping.Breaches
import LoxLang.Proofs.Scoping.Reports
import LoxLang.Proofs.Session.Globals
import LoxLang.Proofs.Token.Munch
import LoxLang.Proofs.Token.Reading
import LoxLang.Proofs.Session.Joining
import LoxLang.Proofs.Grammar.Variables
import LoxLang.Proofs.Scoping.Distinct
import LoxLang.Proofs.Session.Renaming
import LoxLang.Proofs.Session.Limit
import LoxLang.Proofs.Session.Stages
import LoxLang.Proofs.Session.Nodes
import LoxLang.Proofs.Session.Loops
import LoxLang.Proofs.Session.Braces
import LoxLang.Proofs.Grammar.ProgramProgress
import LoxLang.Proofs.Grammar.Appending
import LoxLang.Proofs.Session.Calls
import LoxLang.Proofs.Store.Search
import LoxLang.Proofs.Token.Layout
import LoxLang.Proofs.Session.Properties
import LoxLang.Proofs.Session.Chains
import LoxLang.Proofs.Value.Numbers
import LoxLang.Proofs.Notation.Programs
