import Vek280Miner.Lib.Balance
import Vek280Miner.Rtl.EngineRestart
import Vek280Miner.Rtl.EngineScan
import Vek280Miner.Rtl.StopWrite
import Vek280Miner.Rtl.Snapshot
import Vek280Miner.Rtl.RunningStatus
import Vek280Miner.Rtl.DiscardResults
import Vek280Miner.Rtl.BridgeProgress
import Vek280Miner.Rtl.BridgeExclusion
import Vek280Miner.Rtl.InterleavedRefines
import Vek280Miner.Rtl.InterleavedSystem
import Vek280Miner.Rtl.ScanAccounts
import Vek280Miner.Rtl.BridgedProgress
import Vek280Miner.Rtl.WriteStrobes
import Vek280Miner.Rtl.ResultQueue
import Vek280Miner.Software.JobRegisters
import Vek280Miner.Software.ClearWrites
import Vek280Miner.Software.HexCodec
import Vek280Miner.Software.TelnetConsole
import Vek280Miner.Software.MerkleRoot
import Vek280Miner.Software.SubmittedNonce
import Vek280Miner.Software.RangePartition
import Vek280Miner.Software.SendLine
import Vek280Miner.Software.Sha256Stream
import Vek280Miner.Software.DifficultyTarget
import Vek280Miner.Software.HeaderFields
import Vek280Miner.Software.LineBounds
import Vek280Miner.Software.NotifyStrings
import Vek280Miner.Software.NotifyRoundTrip
import Vek280Miner.Software.SubscribeResponse
import Vek280Miner.Software.SubmitEcho
import Vek280Miner.Board.ResultEvents
import Vek280Miner.Board.WakeUp
import Vek280Miner.Board.DrainWindow
import Vek280Miner.Board.StoppedRange
import Vek280Miner.Board.FreshWork
import Vek280Miner.Board.Trace
import Vek280Miner.Board.Shares
import Vek280Miner.Board.MessageAccounts
import Vek280Miner.Board.StatusLeds
import Vek280Miner.Net.ReceiveSafety
import Vek280Miner.Net.TransmitSafety
import Vek280Miner.Net.FramesServed
import Vek280Miner.Net.ErrorList
import Vek280Miner.Software.RandomNumbers
