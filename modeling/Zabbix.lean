import Zabbix.ProxyBuffer.Resend
import Zabbix.Eval.Postfix
import Zabbix.Str.Escape
import Zabbix.Str.Natural
import Zabbix.Eval.Preselection
import Zabbix.Shmem.Sizing
import Zabbix.Algo.HeapInvariant
import Zabbix.Eval.Functionids
import Zabbix.Services.Membership
import Zabbix.Ha.SingleActive
import Zabbix.ProxyGroup.Consistency
import Zabbix.ProxyGroup.Distribution
import Zabbix.Interval.Agreement
import Zabbix.Json.FilterRendering
import Zabbix.Agent.ResultLedger
import Zabbix.Maintenance.Occurrence
import Zabbix.Agent.KeyAccessRules
import Zabbix.Discoverer.Progress
import Zabbix.Shmem.Atomic
import Zabbix.Trends.Coherence
import Zabbix.Trends.Range
import Zabbix.Ipc.Delivery
import Zabbix.Algo.HashsetIter
import Zabbix.Algo.Int128
import Zabbix.Algo.Queue
import Zabbix.Crypto.Base64RoundTrip
import Zabbix.Preproc.CsvMemory
import Zabbix.Preproc.Throttle
import Zabbix.ValueCache.Lookup
import Zabbix.ValueCache.Sections
import Zabbix.ValueCache.Database
import Zabbix.Eval.StringFunctions
import Zabbix.Eval.VectorToDbl
import Zabbix.ProxyBuffer.Prefix
import Zabbix.Json.Lookup
import Zabbix.Json.Reopen
import Zabbix.Json.QueryCorrect
import Zabbix.Interval.Iso8601
import Zabbix.Ip.Iprange
import Zabbix.Agent.MakeKey
import Zabbix.Expr.KeySubstitution
import Zabbix.Expr.FunctionParams
import Zabbix.Expr.UserMacro
import Zabbix.Services.RootCause
import Zabbix.Agent.DiskFidelity
import Zabbix.Expr.Vault
import Zabbix.Maintenance.Tags
import Zabbix.Maintenance.UpdateFlags
