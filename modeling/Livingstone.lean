import Livingstone.Lib.Loop
import Livingstone.Lib.SwapRemove
import Livingstone.Lib.UnitPropagation
import Livingstone.Lib.Backlinks
import Livingstone.Lib.HittingSet
import Livingstone.Lib.Classes
import Livingstone.Lib.Codec
import Livingstone.Lib.BinaryHeap
import Livingstone.Lib.Odometer
import Livingstone.Lib.Bucket
import Livingstone.Lib.Insertion
import Livingstone.Lib.FirstFit
import Livingstone.Lib.HashTable
import Livingstone.Lib.Chain
import Livingstone.Lib.Placement
import Livingstone.Lib.Blocks
import Livingstone.Lib.Memory
import Livingstone.Lib.LinkedList
import Livingstone.Lib.FiniteMap
import Livingstone.Lib.OneHot
import Livingstone.Tms.Ptheory
import Livingstone.Tms.Ltms
import Livingstone.Tms.Destroy
import Livingstone.Tms.Invariant
import Livingstone.Tms.Fringe
import Livingstone.Tms.Assign
import Livingstone.Tms.Update
import Livingstone.Tms.Operations
import Livingstone.Tms.Transfer
import Livingstone.Tms.Move
import Livingstone.Tms.Propagation
import Livingstone.Tms.Trace
import Livingstone.Tms.Run
import Livingstone.Tms.Stuck
import Livingstone.Tms.Sweep
import Livingstone.Tms.Flags
import Livingstone.Tms.Finish
import Livingstone.Tms.Variable
import Livingstone.ConflictDb.Conflict
import Livingstone.ConflictDb.Agree
import Livingstone.ConflictDb.Candidate
import Livingstone.Cover.Cover
import Livingstone.Cover.Enumerate
import Livingstone.Cover.ProtoSet
import Livingstone.Opsat.Agenda
import Livingstone.Opsat.Search
import Livingstone.Opsat.BinaryHeap
import Livingstone.Diagnosis.Engine
import Livingstone.Diagnosis.Assigning
import Livingstone.Diagnosis.Adopting
import Livingstone.Diagnosis.Nogoods
import Livingstone.Diagnosis.Examining
import Livingstone.Diagnosis.Creating
import Livingstone.Diagnosis.Tracker
import Livingstone.Diagnosis.Meaning
import Livingstone.Diagnosis.Session
import Livingstone.Readers.ToTSystem
import Livingstone.Readers.L2File
import Livingstone.Readers.Expand
import Livingstone.Readers.Translator
import Livingstone.Readers.Copies
import Livingstone.Readers.MergeEqVars
import Livingstone.Readers.RemoveDuplicates
import Livingstone.Readers.ToBin
import Livingstone.Readers.SortProps
import Livingstone.Readers.Strip
import Livingstone.Readers.FromMemory
import Livingstone.Readers.FromL2
import Livingstone.Readers.FromXmpl
import Livingstone.Jmpl.Logic
import Livingstone.Jmpl.Statement
import Livingstone.Jmpl.Unfold
import Livingstone.Jmpl.Clauses
import Livingstone.Jmpl.NormalForm
import Livingstone.Jmpl.StateSpace
import Livingstone.Jmpl.Relation
import Livingstone.Jmpl.Transition
import Livingstone.Realtime.Queue
import Livingstone.Utils.ArrayAllocator
import Livingstone.Utils.Slist
import Livingstone.Utils.HashTable
import Livingstone.Checkpoint.File
import Livingstone.Transition.Transitioned
import Livingstone.Transition.Trajectory
import Livingstone.Transition.CandidateEqClass
import Livingstone.Transition.ModeTransitions
import Livingstone.Transition.Variables
import Livingstone.Transition.TSystem
import Livingstone.Transition.LtmsSolver
import Livingstone.Transition.Growth
import Livingstone.Transition.Tidy
import Livingstone.Transition.Removal
import Livingstone.Transition.Observations
import Livingstone.Transition.Additions
import Livingstone.Transition.Present
import Livingstone.Transition.Ordered
import Livingstone.Transition.OrderedRemoval
import Livingstone.Proofs.Closure
import Livingstone.Proofs.Reachable
import Livingstone.Proofs.PartialPropagate
import Livingstone.Proofs.MoveSupport
import Livingstone.Proofs.Retraction
import Livingstone.Proofs.Database
import Livingstone.Proofs.Coverage
import Livingstone.Proofs.Expansion
import Livingstone.Proofs.EqualVars
import Livingstone.Proofs.Duplicates
import Livingstone.Proofs.WrittenBytes
import Livingstone.Proofs.BinaryModel
import Livingstone.Proofs.BinaryRoundTrip
import Livingstone.Proofs.SearchLimits
import Livingstone.Proofs.BestFirst
import Livingstone.Diagnosis.Searching
import Livingstone.Proofs.Diagnosis
import Livingstone.Proofs.DiagnosisRuns
import Livingstone.Proofs.Loading
import Livingstone.Proofs.Autonomous
import Livingstone.Proofs.InitialState
import Livingstone.Proofs.StatementMeaning
import Livingstone.Proofs.ClauseGeneration
import Livingstone.Proofs.StatementClauses
import Livingstone.Proofs.FrameAxioms
import Livingstone.Proofs.QueueRuns
import Livingstone.Proofs.CheckpointFile
import Livingstone.Proofs.CommandIndex
import Livingstone.Proofs.ReadInteger
import Livingstone.Proofs.ClauseSizes
import Livingstone.Proofs.StateValues
import Livingstone.Proofs.Trajectories
import Livingstone.Proofs.Summaries
import Livingstone.Proofs.CandidatePartition
import Livingstone.Proofs.CandidateInvariant
import Livingstone.Proofs.CandidateConflicts
import Livingstone.Proofs.ProtoSets
import Livingstone.Proofs.TransitionCosts
import Livingstone.Proofs.ModeCells
import Livingstone.Proofs.Observations
import Livingstone.Proofs.PastCopies
import Livingstone.Proofs.OrderedChains
import Livingstone.Proofs.ClosestVariables
import Livingstone.Proofs.HistoryWindow
import Livingstone.Proofs.StepClauses
import Livingstone.Proofs.SortedClauses
import Livingstone.Proofs.XmplClauses
import Livingstone.Proofs.PropBlocks
import Livingstone.Proofs.Stripped
import Livingstone.Proofs.RelationExpansion
import Livingstone.Proofs.TransitionCheck
import Livingstone.Proofs.AllocatorRuns
import Livingstone.Proofs.HeapRuns
import Livingstone.Proofs.InsertBefore
import Livingstone.Proofs.HashTableKeys
import Livingstone.Proofs.HashTableRuns
