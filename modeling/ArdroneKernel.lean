import ArdroneKernel.AshmemRequestRuns
import ArdroneKernel.BchSolver
import ArdroneKernel.BchRecurrence
import ArdroneKernel.BchGeneratorCode
import ArdroneKernel.OmapPage
import ArdroneKernel.PmemPartition
import ArdroneKernel.UbiVolumeBounds
import ArdroneKernel.LoggerEntries
import ArdroneKernel.BinderAsyncOrder
import ArdroneKernel.BinderBufferRuns
import ArdroneKernel.WakeLockLists
import ArdroneKernel.UbifsLogRuns
import ArdroneKernel.UbifsCategoryRuns
import ArdroneKernel.UbifsMasterRuns
import ArdroneKernel.UbifsFsyncRuns
import ArdroneKernel.PwmRuns
import ArdroneKernel.PwmDevice
import ArdroneKernel.UbifsXattrRuns
import ArdroneKernel.UbifsDirRuns
import ArdroneKernel.UbifsWbufRuns
import ArdroneKernel.DspChannelRuns
import ArdroneKernel.DspMessageRuns
import ArdroneKernel.BinderHandles
import ArdroneKernel.DspDmmRuns
import ArdroneKernel.DspRmmRuns
import ArdroneKernel.DspCmmRuns
import ArdroneKernel.AndroidAlarmRuns
import ArdroneKernel.UbifsLptFresh
import ArdroneKernel.DloadReloc
import ArdroneKernel.UbifsGapRuns
import ArdroneKernel.UbifsJnlBuffers
import ArdroneKernel.UbifsSizeReplay
import ArdroneKernel.UbifsRecoverRuns
import ArdroneKernel.UbiVolumeSizes
import ArdroneKernel.UbiEbaInit
import ArdroneKernel.RamConsoleRuns
import ArdroneKernel.UbiUpdateSplit
import ArdroneKernel.CmdlineLayout
import ArdroneKernel.CmdlineReadBack
import ArdroneKernel.UbiLayoutSafety
import ArdroneKernel.UbiWlPick
import ArdroneKernel.UbiScanLookups
