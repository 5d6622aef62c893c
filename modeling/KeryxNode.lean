import KeryxNode.OrdMap
import KeryxNode.Collateral
import KeryxNode.ServiceLedger
import KeryxNode.FoldSplit
import KeryxNode.ByteCodec
import KeryxNode.LedgerSnapshot
import KeryxNode.SnapshotCodec
import KeryxNode.SnapshotTransfer
import KeryxNode.ChainData
import KeryxNode.ServiceStores
import KeryxNode.ServiceBond
import KeryxNode.Suspension
import KeryxNode.ReorgUndo
import KeryxNode.RefoldBooks
import KeryxNode.VaultHistory
import KeryxNode.WarmupRefold
import KeryxNode.SealedCommit
import KeryxNode.BootReload
import KeryxNode.FinalityFlush
import KeryxNode.StreakRecords
import KeryxNode.RunRows
import KeryxNode.StackRows
import KeryxNode.LiveRun
import KeryxNode.AgeBalance
import KeryxNode.UtxoCommitment
import KeryxNode.ByteKeys
import KeryxNode.ChainTree
import KeryxNode.ProductionIndex
import KeryxNode.ProductionWindow
import KeryxNode.ServiceHandoff
import KeryxNode.BodyProcessor
import KeryxNode.TierRewards
import KeryxNode.LiveCommit
import KeryxNode.StrikeLog
import KeryxNode.PomRewalk
import KeryxNode.PomWireExact
import KeryxNode.CoinbaseSplit
import KeryxNode.BlockTemplate
import KeryxNode.AuditFairness
import KeryxNode.EarlyAnswers
import KeryxNode.SelectedChainStore
import KeryxNode.MempoolGraph
import KeryxNode.MempoolIntake
import KeryxNode.MempoolPriority
import KeryxNode.ReplaceByFee
import KeryxNode.LedgerSnapshots
import KeryxNode.ParentsBuilder
import KeryxNode.GhostdagRun
import KeryxNode.DaaIndexes
import KeryxNode.UtxoIndex
import KeryxNode.RewardMints
import KeryxNode.EscrowConservation
import KeryxNode.CarryOver
import KeryxNode.StrikeEscalation
import KeryxNode.CompactBits
import KeryxNode.MerkleRoot
import KeryxNode.WideMul
