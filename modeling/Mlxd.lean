import Mlxd.Lib.BinaryHeap
import Mlxd.Lib.HeapLaps
import Mlxd.Lib.GreedyMerge
import Mlxd.Unicode
import Mlxd.Json
import Mlxd.TokLoad
import Mlxd.BpeMerge
import Mlxd.BpeRefine
import Mlxd.BpeCrowded
import Mlxd.Lib.Regex
import Mlxd.Pretokenize
import Mlxd.PretokenizeRegex
import Mlxd.TokTables
import Mlxd.ByteLevel
import Mlxd.Encode
import Mlxd.SpecialScan
import Mlxd.TokConsistent
import Mlxd.EncodeIds
import Mlxd.Injection
import Mlxd.Legacy
import Mlxd.LegacyDoc
import Mlxd.LegacyAgree
import Mlxd.Decode
import Mlxd.Detok
import Mlxd.SpRoundTrip
import Mlxd.Lib.RingBuffer
import Mlxd.Lib.Program
import Mlxd.Lib.Threads
import Mlxd.Stream
import Mlxd.StreamFifo
import Mlxd.Generate
import Mlxd.GenerateRefine
import Mlxd.Engine
import Mlxd.GenerateSettles
import Mlxd.ContextLimit
import Mlxd.ByteFallback
import Mlxd.Wordpiece
import Mlxd.ScratchBounds
import Mlxd.HubPull
import Mlxd.EngineProtocol
import Mlxd.EngineTerminal
import Mlxd.EngineLoad
import Mlxd.EngineFlight
import Mlxd.EngineShutdown
import Mlxd.Mailbox
import Mlxd.MailboxConserved
import Mlxd.KvCache
import Mlxd.KvRefine
import Mlxd.KvReached
import Mlxd.ModelConfig
import Mlxd.Weights
import Mlxd.ForwardDemands
import Mlxd.LoadSound
import Mlxd.LoadCovered
import Mlxd.Attention
import Mlxd.AttentionRun
import Mlxd.Response
import Mlxd.GenRequest
import Mlxd.GenReentrancy
import Mlxd.GenTerminal
import Mlxd.GenLifetime
import Mlxd.GenLifetimeProtocol
import Mlxd.GenLifetimeSafe
import Mlxd.Server
import Mlxd.DrainAccounting
import Mlxd.Utf8Codec
import Mlxd.DetokStream
import Mlxd.Sse
import Mlxd.Registry
import Mlxd.Resolve
import Mlxd.Openai
import Mlxd.TokMap
import Mlxd.MoeRoute
import Mlxd.SwitchGlu
import Mlxd.Sampler
import Mlxd.GenAgree
import Mlxd.Logprobs
import Mlxd.Embedding
import Mlxd.HttpParser
import Mlxd.Dispatch
import Mlxd.Discover
import Mlxd.Forward
import Mlxd.ForwardRows
import Mlxd.ForwardOps
import Mlxd.ForwardRun
import Mlxd.Serve
import Mlxd.Moe
import Mlxd.WeightsLoad
import Mlxd.WeightsAccepted
import Mlxd.Lib.HttpReader
import Mlxd.HttpResponse
import Mlxd.Conversation
