import OpenSync.Arena.Resize
import OpenSync.Arena.Static
import OpenSync.Dhcp.Bounds
import OpenSync.Ds.IntCmp
import OpenSync.Ds.Synclist
import OpenSync.Ds.TreeIter
import OpenSync.Execsh.Args
import OpenSync.Fsm.PolicyRun
import OpenSync.Gkc.Names
import OpenSync.Inet.UnitRun
import OpenSync.NetworkZone.Best
import OpenSync.Osbus.MsgRun
import OpenSync.Osn.MapPorts
import OpenSync.Osw.AssocRecursion
import OpenSync.Osw.ScanSched
import OpenSync.Osw.StaAssocLinks
import OpenSync.Osw.StaAssocRun
import OpenSync.Osw.Throttle
import OpenSync.Osw.TimerDispatch
import OpenSync.Osw.TlvCodec
import OpenSync.Osw.TokenPool
import OpenSync.Ow.BtmResponse
import OpenSync.Ow.DfsChanClip
import OpenSync.Ow.PolicyStack
import OpenSync.Ow.SnrXingConfig
import OpenSync.Psfs.Cursor
import OpenSync.Psfs.Format
import OpenSync.Psfs.Retry
import OpenSync.Qm.Queue
import OpenSync.Qm.Stream
import OpenSync.Rq.Run
import OpenSync.Rts.MpmcFailed
import OpenSync.Rts.SlobRun
import OpenSync.Tags.Run
import OpenSync.Ustack.Ipv6
import OpenSync.We.TabRun
