import OpenwrtAc.Outcome
import OpenwrtAc.MachineInt
import OpenwrtAc.RuleMask
import OpenwrtAc.ListSum
import OpenwrtAc.TokenBucket
import OpenwrtAc.RoundRobin
import OpenwrtAc.KernelList
import OpenwrtAc.TbqTypes
import OpenwrtAc.TbqTokens
import OpenwrtAc.TbqQueue
import OpenwrtAc.TbqSched
import OpenwrtAc.TbqLinks
import OpenwrtAc.TbqEffects
import OpenwrtAc.TbqShed
import OpenwrtAc.TbqAccounting
import OpenwrtAc.TbqTransfer
import OpenwrtAc.TbqBound
import OpenwrtAc.TbqErrors
import OpenwrtAc.TbqLive
import OpenwrtAc.TbqInvariant
import OpenwrtAc.TbqDequeue
import OpenwrtAc.TbqLoops
import OpenwrtAc.TbqTrack
import OpenwrtAc.TbqUserFree
import OpenwrtAc.TbqRuns
import OpenwrtAc.TbqRounds
import OpenwrtAc.TbqSafety
import OpenwrtAc.TbqRates
import OpenwrtAc.TbqTurns
import OpenwrtAc.TbqFair
import OpenwrtAc.TbqShares
import OpenwrtAc.TbqTracks
import OpenwrtAc.TbqTermination
import OpenwrtAc.TbqConfig
import OpenwrtAc.TbqIface
import OpenwrtAc.TbqSysfs
import OpenwrtAc.TbqRateText
import OpenwrtAc.TbqApps
import OpenwrtAc.TbqWheel
import OpenwrtAc.Simulation
import OpenwrtAc.TbqLinked
import OpenwrtAc.TbqLinkedSim
import OpenwrtAc.TbqLinkedRuns
import OpenwrtAc.NosIpgrp
import OpenwrtAc.NprotoStat
import OpenwrtAc.NprotoRealtime
import OpenwrtAc.NprotoFlush
import OpenwrtAc.RingQueue
import OpenwrtAc.NtrackRbf
import OpenwrtAc.NtrackMsg
import OpenwrtAc.NacsSets
import OpenwrtAc.ByteCodec
import OpenwrtAc.RuleTable
import OpenwrtAc.NacsTable
import OpenwrtAc.NacsVerdict
import OpenwrtAc.NacsFresh
import OpenwrtAc.RuleParse
import OpenwrtAc.RuleCommit
import OpenwrtAc.SkipSearch
import OpenwrtAc.Mwm
import OpenwrtAc.MwmEngines
import OpenwrtAc.NprotoMatch
import OpenwrtAc.NprotoSets
import OpenwrtAc.NprotoSearch
import OpenwrtAc.NprotoConds
import OpenwrtAc.CString
import OpenwrtAc.NprotoHttp
import OpenwrtAc.NprotoExtract
import OpenwrtAc.NprotoReads
import OpenwrtAc.SlotStore
import OpenwrtAc.NosCtl
import OpenwrtAc.NosLines
import OpenwrtAc.NosStores
import OpenwrtAc.RdsParser
import OpenwrtAc.RdsRoundTrip
import OpenwrtAc.LuaTable
import OpenwrtAc.SandsBroker
import OpenwrtAc.SandsForward
import OpenwrtAc.SandsRules
import OpenwrtAc.SandsCommands
import OpenwrtAc.SandsRegistry
import OpenwrtAc.SandsAuth
import OpenwrtAc.SandsRobust
import OpenwrtAc.RdsTail
import OpenwrtAc.RdsStream
import OpenwrtAc.RdsHostile
import OpenwrtAc.DbRestore
import OpenwrtAc.UpdateLog
import OpenwrtAc.SqlTable
import OpenwrtAc.DbSync
import OpenwrtAc.LeadsTo
import OpenwrtAc.SkiChan
import OpenwrtAc.SandcProxy
import OpenwrtAc.SandcQuery
import OpenwrtAc.SandcRuns
import OpenwrtAc.SandcSafe
import OpenwrtAc.SandcLive
import OpenwrtAc.SkiSched
import OpenwrtAc.SkiOneItem
import OpenwrtAc.SkiView
import OpenwrtAc.SkiSafe
import OpenwrtAc.SkiRuns
import OpenwrtAc.Encrypt
import OpenwrtAc.Sandc1
import OpenwrtAc.Sandc1Frames
import OpenwrtAc.Sandc1Link
import OpenwrtAc.Sandc1Publish
import OpenwrtAc.AcConfig
import OpenwrtAc.AcCommit
import OpenwrtAc.AcRuns
import OpenwrtAc.AcLatest
import OpenwrtAc.AcRetry
import OpenwrtAc.AcProto
import OpenwrtAc.AuthOnline
import OpenwrtAc.AuthLogin
import OpenwrtAc.AuthCache
import OpenwrtAc.NacsWalk
import OpenwrtAc.NacsBounds
import OpenwrtAc.HeapOrder
import OpenwrtAc.LuaHeap
import OpenwrtAc.LuaBatch
import OpenwrtAc.AuthSlices
import OpenwrtAc.AuthTimeout
import OpenwrtAc.AuthWechat
import OpenwrtAc.RdsLen
import OpenwrtAc.RdsAlloc
import OpenwrtAc.AuthBypass
import OpenwrtAc.Intervals
import OpenwrtAc.IpOps
import OpenwrtAc.IpGroup
import OpenwrtAc.IpHex
import OpenwrtAc.FpSame
import OpenwrtAc.Bmh
import OpenwrtAc.RuleArray
import OpenwrtAc.LzWindow
import OpenwrtAc.Lz4Format
import OpenwrtAc.Lz4Compress
import OpenwrtAc.Lz4Search
import OpenwrtAc.Lz4Encode
import OpenwrtAc.Lz4Decompress
import OpenwrtAc.Lz4Copy
import OpenwrtAc.Lz4Decode
import OpenwrtAc.Lz4Codec
import OpenwrtAc.InPlace
import OpenwrtAc.Qsort
import OpenwrtAc.QsortSpec
import OpenwrtAc.MwmSort
import OpenwrtAc.NxJsonParse
import OpenwrtAc.NxJsonText
import OpenwrtAc.NxJsonLex
import OpenwrtAc.NxJsonString
import OpenwrtAc.NxJsonSound
import OpenwrtAc.NxJsonComplete
import OpenwrtAc.NxJsonStore
import OpenwrtAc.KeyedRows
import OpenwrtAc.CfgStore
import OpenwrtAc.CfgTables
import OpenwrtAc.CfgRuns
import OpenwrtAc.CfgRefs
import OpenwrtAc.CfgOrder
import OpenwrtAc.RpcCall
import OpenwrtAc.RpcRuns
import OpenwrtAc.NosGate
import OpenwrtAc.NosGateRuns
import OpenwrtAc.NosKeepalive
import OpenwrtAc.AcLog
