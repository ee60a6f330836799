import GrammarForms.Derivation
import GrammarForms.Grammar.Building
import GrammarForms.IndexedGrammar
import GrammarForms.Main
import GrammarForms.Workbench
import GrammarForms.Proofs.Analyses
import GrammarForms.Proofs.EmptyRules
import GrammarForms.Proofs.Cleaning
import GrammarForms.Proofs.Naming
import GrammarForms.Proofs.Isolation
import GrammarForms.Proofs.FreshStart
import GrammarForms.Proofs.Splitting
import GrammarForms.Proofs.Chomsky
import GrammarForms.Proofs.Leaders
import GrammarForms.Proofs.Repetition
import GrammarForms.Proofs.Splicing
import GrammarForms.Proofs.LeftRecursion
import GrammarForms.Proofs.Descent
import GrammarForms.Proofs.LeftCorners
import GrammarForms.Proofs.BackSubstitution
import GrammarForms.Proofs.Greibach
import GrammarForms.Proofs.Simplification
import GrammarForms.Proofs.InOrder
import GrammarForms.Proofs.Lines
import GrammarForms.Proofs.RoundTrip
import GrammarForms.Proofs.Issuing
import GrammarForms.Proofs.Transformations
import GrammarForms.Proofs.Conversions
import GrammarForms.Proofs.Threading
import GrammarForms.Proofs.RuleSets
import GrammarForms.Proofs.Usefulness
import GrammarForms.Proofs.Rereading
import GrammarForms.Proofs.ReadableTexts
import GrammarForms.Proofs.TidyGrammars
import GrammarForms.Proofs.FixedPoints
import GrammarForms.Proofs.OrderIndependence
import GrammarForms.Proofs.SeparateOutputs
import GrammarForms.Proofs.Rebuilding
import GrammarForms.Proofs.Plumbing
import GrammarForms.Proofs.NameDemand
import GrammarForms.Proofs.IndexInvariant
import GrammarForms.Proofs.UsefulPart
import GrammarForms.Proofs.FirstFault
import GrammarForms.Proofs.CycleReports
import GrammarForms.Proofs.SecondElimination
import GrammarForms.Proofs.Agenda
import GrammarForms.Proofs.FreshNames
import GrammarForms.Proofs.AcyclicLeaders
import GrammarForms.Proofs.FaithfulListings
import GrammarForms.Proofs.ReadBack
