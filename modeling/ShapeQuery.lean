import ShapeQuery.Comparison
import ShapeQuery.WhereClause
import ShapeQuery.Registry.Call
import ShapeQuery.Query.Call
import ShapeQuery.Declaration
import ShapeQuery.Release.Settings
import ShapeQuery.Release.Windows
import ShapeQuery.Game.Request
import ShapeQuery.Sample
import ShapeQuery.Proofs.Nesting
import ShapeQuery.Proofs.WalkSteps
import ShapeQuery.Proofs.RegistrySound
import ShapeQuery.Proofs.SoundWalk
import ShapeQuery.Proofs.Expansion
import ShapeQuery.Proofs.CacheTransparency
import ShapeQuery.Proofs.PathsOutcome
import ShapeQuery.Proofs.ConditionText
import ShapeQuery.Proofs.WriteOnce
import ShapeQuery.Proofs.Positions
import ShapeQuery.Proofs.ResolvedShapes
import ShapeQuery.Proofs.Grouping
import ShapeQuery.Proofs.LeftForm
import ShapeQuery.Proofs.ClauseSlots
import ShapeQuery.Proofs.LastCalls
import ShapeQuery.Proofs.ShapeSelection
import ShapeQuery.Proofs.QueryText
import ShapeQuery.Proofs.ChainFold
import ShapeQuery.Proofs.JoinedText
import ShapeQuery.Proofs.CheckOutcome
import ShapeQuery.Proofs.NameTree
import ShapeQuery.Proofs.LeafChains
import ShapeQuery.Proofs.OptionGrammar
import ShapeQuery.Proofs.TypeContent
import ShapeQuery.Proofs.Acceptance
import ShapeQuery.Proofs.DeclaredCheck
import ShapeQuery.Proofs.RecursionChain
import ShapeQuery.Proofs.RetypedFields
import ShapeQuery.Proofs.WrapperStacks
import ShapeQuery.Proofs.UngroupedTypes
import ShapeQuery.Proofs.AttributeOutcome
import ShapeQuery.Proofs.LiteralText
import ShapeQuery.Proofs.SourceText
import ShapeQuery.Proofs.CheckByIndex
import ShapeQuery.Proofs.SkippedFields
import ShapeQuery.Proofs.BuiltConditions
import ShapeQuery.Proofs.GameFieldList
import ShapeQuery.Proofs.RequestText
import ShapeQuery.Proofs.RequestHistory
import ShapeQuery.Proofs.WalkEntries
import ShapeQuery.Proofs.WalkDepth
import ShapeQuery.Proofs.PrintedComparisons
import ShapeQuery.Proofs.ReleaseDates
import ShapeQuery.Proofs.SettingsText
