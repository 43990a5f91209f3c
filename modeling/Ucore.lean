import Ucore.DefaultPmmProofs
import Ucore.KpuProtocolProofs
import Ucore.KpuSpoolingProofs
import Ucore.ProcessProofs
import Ucore.SfsContentProofs
import Ucore.SfsVolumeProofs
import Ucore.PagingRuns
import Ucore.MonitorProofs
import Ucore.CheckSyncProofs
import Ucore.WakeUpProofs
import Ucore.PidHashProofs
import Ucore.StrideProofs
import Ucore.PidProofs
import Ucore.ExecProofs
import Ucore.SysFileReads
import Ucore.KmallocSafety
import Ucore.PageFaultProofs
import Ucore.SfsBitmapProofs
import Ucore.SkewHeapLinksProofs
import Ucore.PlicProofs
import Ucore.RingBuffer
import Ucore.StdinProofs
import Ucore.SfsDirectoryProofs
import Ucore.AllocPagesProofs
import Ucore.SfsMountProofs
import Ucore.PrintfmtProofs
import Ucore.BlockLayerProofs
import Ucore.Kmonitor
import Ucore.KmonitorProofs
import Ucore.MmMapRuns
import Ucore.DupMmapRuns
import Ucore.SfsNamefileProofs
import Ucore.InodeCacheProofs
import Ucore.FsLocksProofs
import Ucore.VfsGetcwdProofs
import Ucore.QsortProofs
import Ucore.StrideFairness
import Ucore.FileTableCalls
