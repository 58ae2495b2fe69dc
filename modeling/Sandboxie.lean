import Sandboxie.Common.NetFwOrder
import Sandboxie.Drv.RuleOrder
import Sandboxie.Drv.Specificity
import Sandboxie.Dll.InStep
import Sandboxie.ImBox.RamDisk
import Sandboxie.Drv.ConfLookup
import Sandboxie.Drv.ConfUse
import Sandboxie.Svc.IniRequest
import Sandboxie.Dll.Snapshots
import Sandboxie.Dll.ShortName
import Sandboxie.Drv.MonitorText
import Sandboxie.Svc.QueueSafety
import Sandboxie.Plus.ScheduleFresh
import Sandboxie.Drv.ApiLogRun
import Sandboxie.Plus.HistoryRestore
import Sandboxie.ImBox.CryptoIO
import Sandboxie.Plus.TabPromise
import Sandboxie.Common.Lock
import Sandboxie.Dll.PipeName
import Sandboxie.Svc.ProxyHandle
import Sandboxie.Drv.Certificate
import Sandboxie.Svc.MountUse
import Sandboxie.Svc.Breakout
import Sandboxie.Svc.ComRun
import Sandboxie.Plus.ScheduledWindow
import Sandboxie.Drv.ConfUser
import Sandboxie.Drv.PathLevels
import Sandboxie.Common.PatternLanguage
import Sandboxie.Common.NetFwRuleText
import Sandboxie.Dll.DnsResponse
import Sandboxie.Dll.KeyDummys
import Sandboxie.Dll.PathAppend
import Sandboxie.Dll.StringList
import Sandboxie.Common.Stream
import Sandboxie.Common.Rc4
import Sandboxie.Svc.EditPassword
import Sandboxie.Dll.CanonizeTarget
import Sandboxie.Drv.StringReturn
import Sandboxie.Dll.DirChain
import Sandboxie.Drv.ConfDerived
import Sandboxie.Dll.DummyList
import Sandboxie.Drv.ApiStrings
import Sandboxie.Drv.FwUuid
import Sandboxie.Svc.KillServer
import Sandboxie.Dll.HandleState
import Sandboxie.Dll.LinkRewrite
import Sandboxie.Svc.IpHlpServer
import Sandboxie.Svc.NamedPipeServer
import Sandboxie.Drv.Symlinks
import Sandboxie.Drv.ReparseCache
import Sandboxie.ImBox.DataSearch
import Sandboxie.Plus.ProcPath
import Sandboxie.Plus.SectionRename
import Sandboxie.Plus.SettingValues
import Sandboxie.Plus.TextMap
