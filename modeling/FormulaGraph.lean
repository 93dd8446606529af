import FormulaGraph.Engine.Command
import FormulaGraph.Enumeration.Enumerator
import FormulaGraph.Op.Indexed
import FormulaGraph.Proofs.Rewrite.Walk
import FormulaGraph.Proofs.Term.Shape
import FormulaGraph.Race
import FormulaGraph.Scripted
import FormulaGraph.Term.Conjuncts
import FormulaGraph.Term.Symbols
import FormulaGraph.Proofs.Solver.Canonical
import FormulaGraph.Proofs.Engine.Contract
import FormulaGraph.Proofs.Error
import FormulaGraph.Proofs.Op.ResultSort
import FormulaGraph.Proofs.Solver.Coherent
import FormulaGraph.Proofs.Solver.Calls
import FormulaGraph.Proofs.Literal.Normal
import FormulaGraph.Proofs.Solver.Build
import FormulaGraph.Proofs.Solver.Query
import FormulaGraph.Proofs.Rewrite.Invariant
import FormulaGraph.Proofs.Solver.Rewriting
import FormulaGraph.Proofs.Solver.Run
import FormulaGraph.Proofs.Solver.HashConsing
import FormulaGraph.Proofs.Enumeration.Datum
import FormulaGraph.Proofs.Enumeration.Eval
import FormulaGraph.Proofs.Enumeration.Search
import FormulaGraph.Proofs.Enumeration.Contract
import FormulaGraph.Proofs.Solver.OverEnumerator
import FormulaGraph.Proofs.Solver.LockStep
import FormulaGraph.Proofs.Rewrite.Replacement
import FormulaGraph.Proofs.Solver.Substitution
import FormulaGraph.Race.Protocol
import FormulaGraph.Proofs.Race.Protocol
import FormulaGraph.Proofs.Race.Outcome
import FormulaGraph.Proofs.Race.Progress
import FormulaGraph.Proofs.Enumeration.Decoding
import FormulaGraph.Proofs.Enumeration.Symbols
import FormulaGraph.Proofs.Enumeration.Completeness
import FormulaGraph.Proofs.Enumeration.Numbering
import FormulaGraph.Proofs.Enumeration.Collection
import FormulaGraph.Proofs.Enumeration.Additions
import FormulaGraph.Proofs.Enumeration.Checks
import FormulaGraph.Proofs.Solver.Frame
import FormulaGraph.Proofs.Solver.Assertions
import FormulaGraph.Proofs.Solver.Verdicts
import FormulaGraph.Proofs.Solver.Translation
import FormulaGraph.Proofs.Solver.Transfer
import FormulaGraph.Proofs.Enumeration.Totality
import FormulaGraph.Proofs.Solver.Valuation
import FormulaGraph.Proofs.Solver.Solve
import FormulaGraph.Race.Contest
import FormulaGraph.Proofs.Race.Answers
import FormulaGraph.Proofs.Race.Contest
import FormulaGraph.Proofs.Solver.Foreign
import FormulaGraph.Proofs.Solver.Isolation
import FormulaGraph.Proofs.Enumeration.Cores
import FormulaGraph.Proofs.Solver.Cores
import FormulaGraph.Proofs.Enumeration.Readout
import FormulaGraph.Proofs.Solver.Values
import FormulaGraph.Proofs.Enumeration.Aliasing
import FormulaGraph.Proofs.Solver.Blind
import FormulaGraph.Proofs.Solver.BlindReads
import FormulaGraph.Proofs.Rewrite.Abreast
import FormulaGraph.Proofs.Solver.BlindRequests
import FormulaGraph.Proofs.Solver.Aliasing
import FormulaGraph.Proofs.Term.Symbols
import FormulaGraph.Proofs.Solver.Occurrences
import FormulaGraph.Proofs.Solver.Collectors
import FormulaGraph.Proofs.Solver.SubstitutedValues
import FormulaGraph.Proofs.Term.Renaming
import FormulaGraph.Proofs.Agreement
import FormulaGraph.Proofs.Rewrite.Renamed
import FormulaGraph.Proofs.Solver.Likeness
import FormulaGraph.Proofs.Solver.LikeRequests
import FormulaGraph.Proofs.Solver.Parallel
import FormulaGraph.Proofs.Solver.Coupled
import FormulaGraph.Proofs.Solver.CoupledCalls
import FormulaGraph.Proofs.Solver.Reset
import FormulaGraph.Proofs.Op.Origin
import FormulaGraph.Proofs.Concur
import FormulaGraph.Proofs.Solver.Stacked
import FormulaGraph.Proofs.Solver.StackedSorts
import FormulaGraph.Proofs.Solver.StackedTerms
import FormulaGraph.Proofs.Solver.StackedQueries
import FormulaGraph.Proofs.Solver.StackedReads
import FormulaGraph.Proofs.Solver.Stacking
import FormulaGraph.Proofs.Rewrite.Steady
import FormulaGraph.Proofs.Solver.Continuation
import FormulaGraph.Proofs.Solver.SortKeeping
import FormulaGraph.Proofs.Literal.Element
import FormulaGraph.Proofs.Solver.EqualLiterals
import FormulaGraph.Proofs.Solver.Changes
import FormulaGraph.Proofs.Solver.Evolution
import FormulaGraph.Proofs.Solver.FailedRequests
import FormulaGraph.Proofs.Solver.AdmittedSorts
import FormulaGraph.Proofs.Rewrite.Resumption
import FormulaGraph.Proofs.Rewrite.Course
import FormulaGraph.Proofs.Op.Guarded
import FormulaGraph.Proofs.Op.Width
import FormulaGraph.Proofs.Engine.Transcript
import FormulaGraph.Proofs.Solver.Conduct
import FormulaGraph.Proofs.Solver.SortMaking
import FormulaGraph.Proofs.Solver.Ledger
import FormulaGraph.Proofs.Solver.NativeSorts
import FormulaGraph.Proofs.Solver.SortAttempts
import FormulaGraph.Proofs.Solver.Retention
import FormulaGraph.Proofs.Engine.Recall
import FormulaGraph.Proofs.Literal.Guarded
import FormulaGraph.Proofs.Solver.IntegerLiterals
import FormulaGraph.Proofs.Solver.Conjuncts
import FormulaGraph.Proofs.Enumeration.Words
import FormulaGraph.Proofs.Solver.Evaluation
import FormulaGraph.Proofs.Enumeration.Growth
import FormulaGraph.Proofs.Enumeration.Assumptions
import FormulaGraph.Proofs.Solver.Veiled
import FormulaGraph.Proofs.Solver.VeiledRequests
import FormulaGraph.Proofs.Solver.Rechecks
import FormulaGraph.Proofs.Solver.LaterChecks
import FormulaGraph.Proofs.Solver.Assumptions
import FormulaGraph.Proofs.Solver.Nesting
import FormulaGraph.Proofs.Enumeration.Interruption
import FormulaGraph.Proofs.Solver.Freshness
import FormulaGraph.Proofs.Solver.ForeignSubstitution
import FormulaGraph.Proofs.Term.Binding
import FormulaGraph.Proofs.Solver.Capture
import FormulaGraph.Proofs.Datatype.Edits
import FormulaGraph.Proofs.Datatype.Resolution
import FormulaGraph.Proofs.Term.Text
