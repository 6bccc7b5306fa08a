import Nefor.ConversationManager.Replay
import Nefor.ConversationManager.Compaction
import Nefor.Mag.Encoding
import Nefor.Mag.Agreement
import Nefor.ConversationManager.Notices
import Nefor.Chat.Agreement
import Nefor.Chat.QueuedInput
import Nefor.Chat.QueuedRows
import Nefor.Chat.QueuedEchoes
import Nefor.ToolGate.Settled
import Nefor.Ncp.LastLines
import Nefor.Ncp.Dispatch
import Nefor.Ncp.Reader
import Nefor.Ncp.Writer
import Nefor.Mag.Declarations
import Nefor.Mag.DescriptorJson
import Nefor.Mag.InputSources
import Nefor.Mag.Reassociate
import Nefor.Core.Attach
import Nefor.Protocol.RoundTrip
import Nefor.Sse.Agreement
import Nefor.Provider.Attempts
import Nefor.Provider.RetryDelay
import Nefor.Provider.ToolCalls
import Nefor.Provider.Assembly
import Nefor.Kernel.Continuation
import Nefor.Tool.SchemaValidate
import Nefor.Kernel.Settlement
import Nefor.Mag.Literals
import Nefor.Kernel.Assemblies
import Nefor.AgenticLoop.RequestCompletion
import Nefor.Tui.TextInput
import Nefor.Tui.WrapRows
import Nefor.Tui.Editing
import Nefor.Tui.WrapPartition
import Nefor.Tui.VisualPosition
import Nefor.Tui.Description
import Nefor.Tui.Instance
import Nefor.Tui.Reconciler
import Nefor.Tui.Matching
import Nefor.Tui.StateKeeping
import Nefor.Tui.WrapText
import Nefor.Tui.WrapStyled
import Nefor.Tui.WrapAgreement
import Nefor.Behaviour
import Nefor.Kernel.Constellation
import Nefor.Kernel.ActorLives
import Nefor.Kernel.RunSteps
import Nefor.Kernel.RunMoves
import Nefor.Kernel.ActorRuns
import Nefor.Kernel.Requests
import Nefor.Kernel.CompactionBroker
import Nefor.Kernel.CommandAnswers
import Nefor.Kernel.Barriers
import Nefor.Kernel.Interrupts
import Nefor.Kernel.DynamicList
import Nefor.Kernel.DynamicStreams
import Nefor.Kernel.DynamicTraversal
import Nefor.LeadWorkflow.RunRegistry
import Nefor.LeadWorkflow.Coherence
import Nefor.LeadWorkflow.Settlement
import Nefor.LeadWorkflow.RegistryCalls
import Nefor.LeadWorkflow.RegistryRuns
