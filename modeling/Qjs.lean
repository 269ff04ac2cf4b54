import Qjs.Lib.Binary64
import Qjs.Lib.Wtf8
import Qjs.Lib.Search
import Qjs.Lib.Linked
import Qjs.Lib.BitStream
import Qjs.Lib.RatRound
import Qjs.Lib.SigDigits
import Qjs.Lib.JsonText
import Qjs.Lib.JsonTree
import Qjs.Lib.Records
import Qjs.Lib.RingSlots
import Qjs.Lib.ProbeRank
import Qjs.Lib.SwapRemove
import Qjs.SoftFp
import Qjs.Value
import Qjs.Arith
import Qjs.Alloc
import Qjs.Stack
import Qjs.Str
import Qjs.Atoms
import Qjs.Props
import Qjs.Bytecode
import Qjs.Vars
import Qjs.Emit
import Qjs.StackSize
import Qjs.Call
import Qjs.Json
import Qjs.Stringify
import Qjs.GcRef
import Qjs.Spsc
import Qjs.HashMap
import Qjs.Mailbox
import Qjs.Coop
import Qjs.ActorLists
import Qjs.SharedMap
import Qjs.AetherJson
import Qjs.AetherStringify
import Qjs.Proofs.SoftFp
import Qjs.Proofs.Value
import Qjs.Proofs.Arith
import Qjs.Proofs.Alloc
import Qjs.Proofs.Stack
import Qjs.Proofs.Utf8
import Qjs.Proofs.Pos
import Qjs.Proofs.Str
import Qjs.Proofs.StrBuffer
import Qjs.Proofs.Compare
import Qjs.Proofs.Atoms
import Qjs.Proofs.Props
import Qjs.Proofs.PropsOps
import Qjs.Proofs.PropsDelete
import Qjs.Proofs.PropsMap
import Qjs.Proofs.PropsRun
import Qjs.Proofs.Bytecode
import Qjs.Proofs.Vars
import Qjs.Proofs.Pc2line
import Qjs.Proofs.Emit
import Qjs.Proofs.Hoist
import Qjs.Proofs.StackSize
import Qjs.Proofs.Call
import Qjs.Proofs.JsonLex
import Qjs.Proofs.JsonParse
import Qjs.Proofs.Keys
import Qjs.Proofs.StringifyRun
import Qjs.Proofs.JsonRoundTrip
import Qjs.Proofs.GcRef
import Qjs.Proofs.Spsc
import Qjs.Proofs.HashMap
import Qjs.Proofs.HashMapRun
import Qjs.Proofs.Mailbox
import Qjs.Proofs.Coop
import Qjs.Proofs.ActorLists
import Qjs.Proofs.SharedMap
import Qjs.Proofs.AetherScan
import Qjs.Proofs.AetherString
import Qjs.Proofs.AetherNumber
import Qjs.Proofs.AetherParse
import Qjs.Proofs.AetherFormat
import Qjs.Proofs.AetherRoundTrip
import Qjs.Proofs.DeadCode
import Qjs.Proofs.Sandbox
import Qjs.Proofs.HttpConn
import Qjs.Proofs.ConstFold
import Qjs.PosCache
import Qjs.Proofs.PosCache
import Qjs.Number
import Qjs.Proofs.Number
import Qjs.Atod
import Qjs.Proofs.Atod
import Qjs.Proofs.GetLength
import Qjs.Proofs.GcMark
import Qjs.Proofs.Lexer
import Qjs.Proofs.Prune
import Qjs.Proofs.PropKey
import Qjs.Proofs.Vcr
import Qjs.Proofs.RegexpClassItem
import Qjs.Proofs.RegexpBacktrack
import Qjs.Proofs.RegexpHalts
import Qjs.Proofs.RegexpRegisters
import Qjs.Proofs.RegexpLiteral
import Qjs.Proofs.SoftFpConvert
import Qjs.Proofs.StringMethods
import Qjs.Proofs.Arrays
import Qjs.Proofs.HttpParams
import Qjs.Proofs.SharedMapImage
import Qjs.Proofs.Redactions
import Qjs.Proofs.Pqueue
import Qjs.Proofs.StringSeq
import Qjs.Proofs.AetherSpan
import Qjs.Proofs.VcrMatch
import Qjs.Proofs.WebSocket
import Qjs.Proofs.RateLimit
import Qjs.Proofs.ChainedMap
import Qjs.AetherBytes
import Qjs.Proofs.AetherBytes
import Qjs.Lib.Separated
import Qjs.AetherText
import Qjs.Proofs.AetherText
import Qjs.ConnPool
import Qjs.Proofs.ConnPool
import Qjs.HttpResponse
import Qjs.Proofs.HttpResponse
import Qjs.StaticFiles
import Qjs.Proofs.StaticFiles
import Qjs.AetherLexer
import Qjs.Proofs.AetherLexer
import Qjs.Interp
import Qjs.Proofs.Interp
import Qjs.ExprParser
import Qjs.Proofs.ExprParser
