import AvaServe.BeamSearch.KvConservation
import AvaServe.BeamSearch.OverlapRuns
import AvaServe.Dcp.TransferPlan
import AvaServe.Disaggregation.StagingWatermark
import AvaServe.Eplb.RelocationRuns
import AvaServe.Frontend.IntakePlaces
import AvaServe.Indexer.EngineAgreement
import AvaServe.Indexer.TokenCounts
import AvaServe.Mamba.PingPong
import AvaServe.Memory.DeviceBuffer
import AvaServe.Memory.EagerCompaction
import AvaServe.Memory.ExtendKernel
import AvaServe.Memory.SegmentFrees
import AvaServe.Memory.SwaAtomicity
import AvaServe.Memory.SwaPairing
import AvaServe.Ngram.Corpus
import AvaServe.Pipeline.OutputRuns
import AvaServe.Pipeline.ReqForward
import AvaServe.Radix.LockSession
import AvaServe.Router.KvEventLifecycle
import AvaServe.Scheduler.PrefillAdder
import AvaServe.Scheduler.PrefillDelayer
import AvaServe.Scheduler.PrefillPhase
