import Mlang.UnsignedTrees
import Mlang.ConstantFolding
import Mlang.ConstexprStatements
import Mlang.MoveSoundness
import Mlang.CleanupSoundness
import Mlang.TypeRoundTrip
import Mlang.Imports
import Mlang.InferenceMatching
import Mlang.CallSelection
import Mlang.BorrowExclusivity
import Mlang.ExpirySoundness
import Mlang.TaskDeadlocks
import Mlang.TaskAgreement
import Mlang.RequirementMatching
import Mlang.PackageAudit
import Mlang.LockStability
import Mlang.LockFreeQueues
import Mlang.ChannelOrder
import Mlang.ChannelWakeups
import Mlang.UnorderedRefinement
import Mlang.BitsetRefinement
import Mlang.TranscodingReadings
import Mlang.ArtifactKeys
import Mlang.WorkspaceIndexes
import Mlang.BarrierPhases
import Mlang.FrameBoundaries
import Mlang.FrameLengths
import Mlang.StopLifetimes
import Mlang.AtomicCells
import Mlang.FlatContainers
import Mlang.CallExclusivity
import Mlang.ModuleLoading
import Mlang.BorrowPlaces
import Mlang.BitFields
import Mlang.NumericLiterals
import Mlang.RangeLoops
import Mlang.ImplicitConversions
import Mlang.AliasHygiene
import Mlang.TargetLinking
import Mlang.ProfileKeys
import Mlang.InlineDependencies
import Mlang.Materialisation
import Mlang.PublishedIndex
import Mlang.AddedDependencies
import Mlang.LifeSteps
import Mlang.SerdeFailures
import Mlang.TimePoints
import Mlang.UnixTimes
import Mlang.WeekDates
import Mlang.CalendarOffsets
import Mlang.IntervalTimers
import Mlang.DecoderReads
import Mlang.StringBuilders
import Mlang.RecoverySuffixes
import Mlang.NumericAlgorithms
import Mlang.FuzzyRankings
import Mlang.OrganizedImports
import Mlang.JsonStrings
import Mlang.BitCounts
import Mlang.FlatMultimaps
import Mlang.SetOperations
import Mlang.NthElements
import Mlang.AtomicWaits
