import Hindsight.Lib.Run
import Hindsight.Lib.Chunk
import Hindsight.Lib.WriteAhead
import Hindsight.Lib.Span
import Hindsight.Lib.Writes
import Hindsight.Lib.Varint
import Hindsight.Lib.Decimal
import Hindsight.Lib.NumberFormat
import Hindsight.Lib.Files
import Hindsight.Lib.LuaText
import Hindsight.Lib.LuaChunk
import Hindsight.Lib.LuaApi
import Hindsight.Checkpoint
import Hindsight.CheckpointFile
import Hindsight.CheckpointWrite
import Hindsight.CheckpointRemoval
import Hindsight.OutputShutdown
import Hindsight.Output
import Hindsight.Config
import Hindsight.QueueWriter
import Hindsight.OutputOpen
import Hindsight.InputPlugin
import Hindsight.OutputPlugin
import Hindsight.Pipeline
import Hindsight.InputDelivery
import Hindsight.AnalysisDelivery
import Hindsight.AnalysisRollover
import Hindsight.AnalysisReload
import Hindsight.OutputReinject
import Hindsight.Throttle
import Hindsight.OutputSync
import Hindsight.OutputAsync
import Hindsight.OutputProgress
import Hindsight.Input
import Hindsight.ReaderRace
import Hindsight.InputBuffer
import Hindsight.QueueContent
import Hindsight.QueueFeed
import Hindsight.CliThread
import Hindsight.CliTimer
import Hindsight.CliDrain
import Hindsight.ReaderResume
import Hindsight.OutputStreams
import Hindsight.OutputRing
import Hindsight.OutputCatchUp
import Hindsight.OutputTermination
import Hindsight.InputCheckpoint
import Hindsight.InputRestart
import Hindsight.PositionStore
import Hindsight.CheckpointCleanup
import Hindsight.PluginList
import Hindsight.LoadConfig
import Hindsight.ByteOrigins
import Hindsight.RecordedPosition
import Hindsight.SharedBackpressure
import Hindsight.RuntimeConfig
import Hindsight.GapSkip
import Hindsight.SandboxOptions
import Hindsight.ThreadPlacement
import Hindsight.OutputReload
import Hindsight.OutputOrder
import Hindsight.MainOptions
import Hindsight.ReadFile
import Hindsight.QueueNames
import Hindsight.PluginTables
import Hindsight.AnalyzeMessage
import Hindsight.Locking
import Hindsight.ServiceLives
import Hindsight.DynamicLoad
import Hindsight.OutputLives
import Hindsight.AnalysisInstances
import Hindsight.CliExit
