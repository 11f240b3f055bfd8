import UcxProofs.Lib.SerialNumber
import UcxProofs.Lib.Bits
import UcxProofs.Lib.Lists
import UcxProofs.Lib.AddrBits
import UcxProofs.Lib.Intervals
import UcxProofs.Status
import UcxProofs.FragList
import UcxProofs.SrdRx
import UcxProofs.Pgtable
import UcxProofs.PgtableSearch
import UcxProofs.PgtableTree
import UcxProofs.PgtablePages
import UcxProofs.PgtableTable
import UcxProofs.PgtableRefine
import UcxProofs.TagMatch
import UcxProofs.TagRecv
import UcxProofs.TagQueues
import UcxProofs.TagRefine
import UcxProofs.Rcache
import UcxProofs.RcacheCreate
import UcxProofs.IntervalTree
import UcxProofs.IntervalTreeInv
import UcxProofs.Lib.Rewriting
import UcxProofs.IntervalTreeMerge
import UcxProofs.Lib.RedBlack
import UcxProofs.IntervalRb
import UcxProofs.IntervalRbRepr
import UcxProofs.IntervalRbInsert
import UcxProofs.IntervalRbDelete
import UcxProofs.IntervalRbRemove
import UcxProofs.IntervalRbRun
import UcxProofs.IntervalRbInvariant
import UcxProofs.PtrArray
import UcxProofs.DtIov
import UcxProofs.ProtoMulti
import UcxProofs.RndvPpln
import UcxProofs.UdEp
import UcxProofs.Lib.Cycle
import UcxProofs.Arbiter
import UcxProofs.ArbiterSpec
import UcxProofs.ArbiterRefine
import UcxProofs.ArbiterPurge
import UcxProofs.ArbiterDispatch
import UcxProofs.FragListCount
import UcxProofs.PiecewiseFunc
import UcxProofs.MpoolSet
import UcxProofs.Hlist
import UcxProofs.ConnMatch
import UcxProofs.ConnMatchRefine
import UcxProofs.TimerWheel
import UcxProofs.Lib.Lines
import UcxProofs.PerfEnvelope
import UcxProofs.UdEpAckReq
import UcxProofs.Lib.Decimal
import UcxProofs.Memunits
import UcxProofs.Mlx5Txwq
import UcxProofs.Lib.Separated
import UcxProofs.ConfigAllowList
