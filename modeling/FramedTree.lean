import FramedTree.Access
import FramedTree.Bytes
import FramedTree.Codec
import FramedTree.Codec.Json
import FramedTree.Decimal.Binary64
import FramedTree.Decimal.Shortest
import FramedTree.Document.Basic
import FramedTree.Document.Entry
import FramedTree.Document.Equality
import FramedTree.Document.Identity
import FramedTree.Document.Resolve
import FramedTree.Document.Save
import FramedTree.Error
import FramedTree.Frame.Basic
import FramedTree.Frame.Sink
import FramedTree.Frame.Transfer
import FramedTree.Header
import FramedTree.Header.Descriptor
import FramedTree.Header.Document
import FramedTree.Header.Entry
import FramedTree.Header.Identity
import FramedTree.Json.Error
import FramedTree.Json.Reader
import FramedTree.Json.Skip
import FramedTree.Lazy
import FramedTree.Navigate
import FramedTree.Outline
import FramedTree.Ownership
import FramedTree.Path
import FramedTree.Proofs.Activity
import FramedTree.Proofs.BackToBack
import FramedTree.Proofs.Canonical
import FramedTree.Proofs.CodecTexts
import FramedTree.Proofs.Comparison
import FramedTree.Proofs.Contents
import FramedTree.Proofs.CounterpartWork
import FramedTree.Proofs.CounterpartWorkspaces
import FramedTree.Proofs.Counterparts
import FramedTree.Proofs.CrossRoot
import FramedTree.Proofs.CurtailedSaves
import FramedTree.Proofs.Decimals
import FramedTree.Proofs.EasedStreams
import FramedTree.Proofs.EasedTransfers
import FramedTree.Proofs.EasedTrees
import FramedTree.Proofs.Emission
import FramedTree.Proofs.EqualDocuments
import FramedTree.Proofs.FailedSaves
import FramedTree.Proofs.FaithfulTexts
import FramedTree.Proofs.FaultFreeTrees
import FramedTree.Proofs.FaultRemoval
import FramedTree.Proofs.Faults
import FramedTree.Proofs.FirstFailure
import FramedTree.Proofs.Frames
import FramedTree.Proofs.FramesAnywhere
import FramedTree.Proofs.Isolation
import FramedTree.Proofs.JsonNames
import FramedTree.Proofs.JsonSkips
import FramedTree.Proofs.JsonTexts
import FramedTree.Proofs.LaterSaves
import FramedTree.Proofs.LazyEager
import FramedTree.Proofs.LazyHistory
import FramedTree.Proofs.LengthPrefixes
import FramedTree.Proofs.Limits
import FramedTree.Proofs.MoveTrails
import FramedTree.Proofs.OperationReach
import FramedTree.Proofs.PairedSaves
import FramedTree.Proofs.Prefixes
import FramedTree.Proofs.PreservedRelations
import FramedTree.Proofs.Recovery
import FramedTree.Proofs.References
import FramedTree.Proofs.Renderings
import FramedTree.Proofs.Reopening
import FramedTree.Proofs.Resolution
import FramedTree.Proofs.RootFrames
import FramedTree.Proofs.RoundTrip
import FramedTree.Proofs.SaveRemnants
import FramedTree.Proofs.Saving
import FramedTree.Proofs.SeekLog
import FramedTree.Proofs.Sessions
import FramedTree.Proofs.SideBySide
import FramedTree.Proofs.SimulationRules
import FramedTree.Proofs.SingleOwner
import FramedTree.Proofs.SinkCount
import FramedTree.Proofs.SlotCustody
import FramedTree.Proofs.SlotLedger
import FramedTree.Proofs.SourceReads
import FramedTree.Proofs.Spellings
import FramedTree.Proofs.TextLines
import FramedTree.Proofs.Tiling
import FramedTree.Proofs.Transfer
import FramedTree.Proofs.TreeGrowth
import FramedTree.Proofs.TreeMoves
import FramedTree.Proofs.Unchanged
import FramedTree.Proofs.Wire
import FramedTree.Proofs.WorkspaceRuns
import FramedTree.Proofs.WorkspaceTrees
import FramedTree.Root
import FramedTree.Session
import FramedTree.Slots.Access
import FramedTree.Slots.Action
import FramedTree.Slots.Basic
import FramedTree.Source
import FramedTree.Stream.Basic
import FramedTree.Stream.Streams
import FramedTree.Stream.Transfer
import FramedTree.Table
import FramedTree.Text.Hidden
import FramedTree.Text.Quoted
import FramedTree.Wire.DecodeError
import FramedTree.Wire.Field
import FramedTree.Wire.Input
import FramedTree.Wire.Key
import FramedTree.Wire.Message
import FramedTree.Wire.Varint
import FramedTree.Workspace.Basic
import FramedTree.Workspace.Op
import FramedTree.Workspace.Step
