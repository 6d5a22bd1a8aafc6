import LatteWork.Snapshot.Records
import LatteWork.Lib.Fallible
import LatteWork.Lib.Table
import LatteWork.Store.Tables
import LatteWork.Store.Sessions
import LatteWork.Store.MessageQueue
import LatteWork.Store.Reopen
import LatteWork.Lib.Runs
import LatteWork.Lib.Ring
import LatteWork.Store.Operations
import LatteWork.Proofs.StoreCases
import LatteWork.Proofs.Quiet
import LatteWork.Proofs.QueueMoves
import LatteWork.Proofs.HandOff
import LatteWork.Proofs.QueueOrder
import LatteWork.Lib.Paging
import LatteWork.Store.History
import LatteWork.Proofs.HistoryPages
import LatteWork.Wire.JsonSize
import LatteWork.Proofs.PageSizes
import LatteWork.Snapshot.Disk
import LatteWork.Snapshot.Objects
import LatteWork.Snapshot.Frozen
import LatteWork.Snapshot.Undo
import LatteWork.Proofs.UndoRestores
import LatteWork.Server.Turns
import LatteWork.Server.UndoRequest
import LatteWork.Proofs.TurnRecords
import LatteWork.Proofs.UndoProtocol
import LatteWork.Lib.Program
import LatteWork.Runtime.Adapter
import LatteWork.Runtime.Process
import LatteWork.Runtime.Admission
import LatteWork.Runtime.Actor
import LatteWork.Proofs.ActorRules
import LatteWork.Agents.Registry
import LatteWork.Proofs.NativeRequests
import LatteWork.Proofs.Interactions
import LatteWork.Proofs.RunningTurns
import LatteWork.Proofs.ChildRows
import LatteWork.Proofs.Recovery
import LatteWork.Agents.Messages
import LatteWork.Agents.Traex
import LatteWork.Lib.Machine
import LatteWork.Proofs.TraexMoves
import LatteWork.Proofs.TraexCompletion
import LatteWork.Proofs.TraexSteering
import LatteWork.Agents.Claude
import LatteWork.Proofs.ClaudeDiscipline
import LatteWork.Proofs.ClaudeInputs
import LatteWork.Lib.Occurrence
import LatteWork.Proofs.Redaction
import LatteWork.Proofs.CredentialLeaks
import LatteWork.Proofs.Ownership
import LatteWork.Lib.Marking
import LatteWork.Snapshot.Garbage
import LatteWork.Proofs.Collection
import LatteWork.Lib.OrdMap
import LatteWork.Providers.App
import LatteWork.Providers.Host
import LatteWork.Proofs.ProviderIntegrity
import LatteWork.Proofs.SyncedRecords
import LatteWork.Proofs.CredentialBinding
import LatteWork.Store.Projects
import LatteWork.Store.Marks
import LatteWork.Proofs.PinLimit
import LatteWork.Store.ChildHistory
import LatteWork.Proofs.ChildPages
import LatteWork.Lib.Lines
import LatteWork.Agents.ChildHistory
import LatteWork.Server.ChildIndexing
import LatteWork.Proofs.ChildIndexing
import LatteWork.Proofs.QueueReorder
import LatteWork.Proofs.QueueCapacity
import LatteWork.Proofs.ChildEnds
import LatteWork.Proofs.SessionMoves
import LatteWork.Proofs.UnreadFlag
import LatteWork.Lib.Keyset
import LatteWork.Proofs.RecentOrder
import LatteWork.Desktop.Hosts
import LatteWork.Desktop.Quit
import LatteWork.Proofs.HostCalls
import LatteWork.Proofs.QuitCloses
import LatteWork.Desktop.PendingClose
import LatteWork.Proofs.QuitJournal
import LatteWork.Workbench.Transcript
import LatteWork.Workbench.Activity
import LatteWork.Lib.KeyedMerge
import LatteWork.Proofs.Projection
import LatteWork.Proofs.PageEnds
import LatteWork.Proofs.PendingShown
import LatteWork.Workbench.Window
import LatteWork.Workbench.HistoryCache
import LatteWork.Workbench.Loading
import LatteWork.Proofs.LoadedWindows
import LatteWork.Proofs.LoadedLog
import LatteWork.Server.Terminal
import LatteWork.Proofs.OutputRing
import LatteWork.Agents.TitleIndex
import LatteWork.Proofs.TitleScan
import LatteWork.Proofs.ChangePages
import LatteWork.Proofs.ChangeLists
import LatteWork.Proofs.UndoPermissions
import LatteWork.Lib.FirstSeen
import LatteWork.Store.Sources
import LatteWork.Proofs.SourceCounts
import LatteWork.Snapshot.Migration
import LatteWork.Proofs.LegacyRecords
import LatteWork.Proofs.MigrationRuns
import LatteWork.Proofs.ClaudeTexts
import LatteWork.Proofs.TraexItems
import LatteWork.Proofs.TraexCommands
import LatteWork.Wire.F64
import LatteWork.Agents.ChildTranscript
import LatteWork.Proofs.ChildReports
import LatteWork.Proofs.RedactedEvents
import LatteWork.Server.Attachments
import LatteWork.Proofs.UploadIntegrity
import LatteWork.Git.Listing
import LatteWork.Proofs.BoundedListings
import LatteWork.Git.Review
import LatteWork.Lib.Patch
import LatteWork.Proofs.UntrackedPatches
import LatteWork.Server.Skills
import LatteWork.Proofs.SkillImports
import LatteWork.Runtime.TitleRefresh
import LatteWork.Proofs.TitleRefresh
import LatteWork.Proofs.QuestionAnswers
import LatteWork.Proofs.DeliveredTexts
import LatteWork.Desktop.Drafts
import LatteWork.Proofs.DraftVersions
import LatteWork.Proofs.GrantedAccess
import LatteWork.Store.Grants
import LatteWork.Wire.JsonText
import LatteWork.Proofs.JsonReading
import LatteWork.Workbench.References
import LatteWork.Proofs.ReferenceManifests
import LatteWork.Lib.UnifiedDiff
import LatteWork.Workbench.GitDiff
import LatteWork.Proofs.ShownDiffs
import LatteWork.Client.Exchange
import LatteWork.Client.Requests
import LatteWork.Proofs.ClientExchanges
import LatteWork.Lib.Chunks
import LatteWork.Server.Preview
import LatteWork.Workbench.SourceLoader
import LatteWork.Proofs.SourcePreviews
import LatteWork.Server.ImagePreview
import LatteWork.Workbench.ChangeImageLoader
import LatteWork.Proofs.ChangeImages
import LatteWork.Workbench.Resources
import LatteWork.Workbench.TaskInfo
import LatteWork.Proofs.TaskReader
import LatteWork.Lib.Paragraphs
import LatteWork.Proofs.TaskParagraphs
import LatteWork.Server.SkillStaging
import LatteWork.Proofs.StageRecovery
import LatteWork.Proofs.StageRemovals
import LatteWork.Lib.Slots
import LatteWork.Proofs.ListOrders
import LatteWork.Workbench.ListOrder
import LatteWork.Workbench.SkillImport
import LatteWork.Proofs.SkillManifests
import LatteWork.Agents.TraexMetadata
import LatteWork.Proofs.TraexCatalog
import LatteWork.Desktop.Downloads
import LatteWork.Proofs.DownloadRecords
import LatteWork.Proofs.DownloadRuns
import LatteWork.Proofs.DownloadFile
import LatteWork.Workbench.Workspace
import LatteWork.Proofs.WorkspaceTabs
import LatteWork.Proofs.WorkspaceRuns
import LatteWork.Workbench.TurnTranscript
import LatteWork.Proofs.TurnGroups
import LatteWork.Proofs.TurnActivity
import LatteWork.Proofs.ToolPairing
import LatteWork.Proofs.TurnRows
import LatteWork.Proofs.TurnItems
import LatteWork.Proofs.TurnItems
import LatteWork.Proofs.TurnViews
