import Libdogecoin.NodeRead
import Libdogecoin.AuxpowCommitment
import Libdogecoin.VerifiedHeader
import Libdogecoin.ActiveHistory
import Libdogecoin.HistoryWindows
import Libdogecoin.ParHdrLinked
import Libdogecoin.PsbtReparse
import Libdogecoin.PsbtRuns
import Libdogecoin.PsbtMultisig
import Libdogecoin.SighashBuilt
import Libdogecoin.TxRegistry
import Libdogecoin.EckeyContext
import Libdogecoin.CompactTarget
import Libdogecoin.MerkleRootFaults
import Libdogecoin.Bip37Canonical
import Libdogecoin.MatchTree
import Libdogecoin.BlockMessage
import Libdogecoin.CompactOrder
import Libdogecoin.CompactReconstruct
import Libdogecoin.ScriptCopy
import Libdogecoin.P2pkhSign
import Libdogecoin.Bip39
import Libdogecoin.Bip38Keys
import Libdogecoin.UtxoEnumeration
import Libdogecoin.WalletOwnership
import Libdogecoin.AuxpowHeader
import Libdogecoin.TxBase
import Libdogecoin.ThrcDerive
import Libdogecoin.AuxpowSkip
import Libdogecoin.WalletDebit
import Libdogecoin.SmpvIds
import Libdogecoin.WalletUnregister
import Libdogecoin.KoinuBuffers
import Libdogecoin.CfiltersDb
import Libdogecoin.PqcCarrierLengths
import Libdogecoin.HdWrappers
import Libdogecoin.SignRecovery
import Libdogecoin.Wif
import Libdogecoin.SweepValidate
import Libdogecoin.VersionMessage
import Libdogecoin.GetHeaders
import Libdogecoin.ZkPayload
import Libdogecoin.ZkPublicInput
import Libdogecoin.ThrcSignature
import Libdogecoin.ParHdrCheck
import Libdogecoin.Slip0039
