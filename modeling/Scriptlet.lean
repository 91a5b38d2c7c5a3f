import Scriptlet.CommandLine
import Scriptlet.Decimal.Binary
import Scriptlet.Decimal.Layout
import Scriptlet.Decimal.Read
import Scriptlet.Decimal.Shortest
import Scriptlet.Error
import Scriptlet.Execution
import Scriptlet.Fault
import Scriptlet.File.Contents
import Scriptlet.File.Path
import Scriptlet.File.Tree
import Scriptlet.Host
import Scriptlet.Json
import Scriptlet.Json.BareKeys
import Scriptlet.Machine
import Scriptlet.Machine.Eval
import Scriptlet.Machine.Natives
import Scriptlet.Main
import Scriptlet.Number
import Scriptlet.Output
import Scriptlet.Program
import Scriptlet.Program.Cursor
import Scriptlet.Program.Expression
import Scriptlet.Program.Parse
import Scriptlet.Program.Tree
import Scriptlet.Random
import Scriptlet.Schedule
import Scriptlet.Settings
import Scriptlet.Settings.Document
import Scriptlet.Store
import Scriptlet.Store.Display
import Scriptlet.Store.Edit
import Scriptlet.Store.Equality
import Scriptlet.Store.Member
import Scriptlet.Store.Scope
import Scriptlet.Text.Blank
import Scriptlet.Text.Cased
import Scriptlet.Text.Position
import Scriptlet.Text.Quoted
import Scriptlet.Token
import Scriptlet.Token.Scan
import Scriptlet.Toolbox
import Scriptlet.Value
import Scriptlet.Proofs.Grammar
import Scriptlet.Proofs.GrammarSound
import Scriptlet.Proofs.GrammarStatements
import Scriptlet.Proofs.Height
import Scriptlet.Proofs.Layers
import Scriptlet.Proofs.LexicalGrammar
import Scriptlet.Proofs.Tallest
import Scriptlet.Proofs.PrintedTokens
import Scriptlet.Proofs.PrintedReads
import Scriptlet.Proofs.PrintedPrograms
import Scriptlet.Proofs.Runs
import Scriptlet.Proofs.StoreGrowth
import Scriptlet.Proofs.Tasks
import Scriptlet.Proofs.Plans
import Scriptlet.Proofs.OwnActions
import Scriptlet.Proofs.CallDepth
import Scriptlet.Proofs.PlainActions
import Scriptlet.Proofs.StoredCode
import Scriptlet.Proofs.Termination
import Scriptlet.Proofs.Installation
import Scriptlet.Proofs.Declarations
import Scriptlet.Proofs.RegularTrees
import Scriptlet.Proofs.StrayReturns
import Scriptlet.Proofs.Parts
import Scriptlet.Proofs.Lockstep
import Scriptlet.Proofs.LockstepHosts
import Scriptlet.Proofs.CallLimit
import Scriptlet.Proofs.Contents
import Scriptlet.Proofs.NormalReturns
import Scriptlet.Proofs.SelfReference
import Scriptlet.Proofs.Calls
import Scriptlet.Proofs.FrameCallbacks
import Scriptlet.Proofs.Stepping
import Scriptlet.Proofs.StepLimit
import Scriptlet.Proofs.Effects
import Scriptlet.Proofs.Courses
import Scriptlet.Proofs.Stopping
import Scriptlet.Proofs.WriteOnlyOutput
import Scriptlet.Proofs.LineBreaks
import Scriptlet.Proofs.Persistence
import Scriptlet.Proofs.Semicolons
import Scriptlet.Proofs.TreeRoundTrip
import Scriptlet.Proofs.Bisimilarity
import Scriptlet.Proofs.Unfolding
import Scriptlet.Proofs.BareKeys
import Scriptlet.Proofs.Entries
import Scriptlet.Proofs.StructFields
import Scriptlet.Proofs.Scopes
import Scriptlet.Proofs.Rounding
import Scriptlet.Proofs.Doubles
import Scriptlet.Proofs.DoubleSums
import Scriptlet.Proofs.Members
import Scriptlet.Proofs.CatchingUp
import Scriptlet.Proofs.Timetable
import Scriptlet.Proofs.Standstill
import Scriptlet.Proofs.Comparisons
import Scriptlet.Proofs.TokenPlaces
import Scriptlet.Proofs.Rescanning
import Scriptlet.Proofs.RootFrame
import Scriptlet.Proofs.OmittedValues
import Scriptlet.Proofs.Routines
import Scriptlet.Proofs.RoutineRuns
import Scriptlet.Proofs.RoutineRules
import Scriptlet.Proofs.RoutineExpressions
import Scriptlet.Proofs.RoutineStatements
import Scriptlet.Proofs.ReadingBounds
