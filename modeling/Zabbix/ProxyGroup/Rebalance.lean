import Mathlib.Algebra.GroupWithZero.Nat
import Mathlib.Data.List.Sort
import Zabbix.ProxyGroup.Update

/-!
# Rebalancing and flushing

Unassigned hosts are distributed between the online proxies of their group, then the pending
updates are flushed to the host map. The order of equal elements after a sort, which is not
specified in the source, is the order before it.
-/

namespace Zabbix.ProxyGroup

/-- `zbx_pg_proxy_hosts_t` of one proxy. -/
structure ProxyHosts where
  proxyid : ℕ
  hostRefs : List ℕ
  hostsNum : ℤ
  deriving DecidableEq

namespace PgCache

def unassigned (cache : PgCache) (groupid : ℕ) : List ℕ :=
  (cache.groups.lookup groupid).elim [] PgGroup.unassignedHostids

def proxyUnassignHost (cache : PgCache) (groupid proxyid hostid : ℕ) : PgCache :=
  ((cache.modifyGroup groupid fun group =>
    { group with unassignedHostids := group.unassignedHostids ++ [hostid] }).setHostProxy hostid
      0).modifyProxy proxyid fun proxy => { proxy with hosts := proxy.hosts.erase hostid }

/-- The inner loop of `pg_cache_group_unassign_excess_hosts`. -/
def unassignPass (groupid required : ℕ) (hostsNum : ℤ) :
    PgCache → List ProxyHosts → PgCache × List ProxyHosts
  | cache, [] => (cache, [])
  | cache, ph :: proxies =>
    if required ≤ (cache.unassigned groupid).length then (cache, ph :: proxies)
    else if hostsNum ≥ ph.hostRefs.length then (cache, ph :: proxies)
    else
      match ph.hostRefs.getLast? with
      | none => (cache, ph :: proxies)
      | some hostid =>
        let (cache, proxies) := unassignPass groupid required hostsNum
          (cache.proxyUnassignHost groupid ph.proxyid hostid) proxies
        (cache, { ph with
          hostRefs := ph.hostRefs.dropLast
          hostsNum := ph.hostsNum - 1 } :: proxies)

/-- The outer loop of `pg_cache_group_unassign_excess_hosts`; each pass unassigns a host, so that
`required` passes are enough. -/
def unassignLoop (groupid required : ℕ) (limit : ℤ) :
    ℕ → PgCache → List ProxyHosts → PgCache × List ProxyHosts
  | 0, cache, proxies => (cache, proxies)
  | fuel + 1, cache, proxies =>
    if required ≤ (cache.unassigned groupid).length then (cache, proxies)
    else
      match proxies with
      | [] => (cache, [])
      | first :: _ =>
        let hostsNum : ℤ := first.hostRefs.length - 1
        if limit > hostsNum then (cache, proxies)
        else
          let (cache, proxies) := unassignPass groupid required hostsNum cache proxies
          unassignLoop groupid required limit fuel cache proxies

def unassignExcessHosts (cache : PgCache) (groupid : ℕ) (proxies : List ProxyHosts) (limit : ℤ)
    (required : ℕ) : PgCache × List ProxyHosts :=
  unassignLoop groupid required limit required cache
    (proxies.insertionSort fun a b => b.hostRefs.length ≤ a.hostRefs.length)

def assignLast (cache : PgCache) (groupid proxyid : ℕ) : PgCache :=
  match (cache.unassigned groupid).getLast? with
  | none => cache
  | some hostid =>
    (cache.setHostProxy hostid proxyid).modifyGroup groupid fun group =>
      { group with unassignedHostids := group.unassignedHostids.dropLast }

def distributePass (groupid : ℕ) (hostsNum : ℤ) :
    PgCache → List ProxyHosts → PgCache × List ProxyHosts
  | cache, [] => (cache, [])
  | cache, ph :: proxies =>
    if cache.unassigned groupid = [] then (cache, ph :: proxies)
    else if hostsNum ≤ ph.hostsNum then (cache, ph :: proxies)
    else
      let (cache, proxies) :=
        distributePass groupid hostsNum (cache.assignLast groupid ph.proxyid) proxies
      (cache, { ph with hostsNum := ph.hostsNum + 1 } :: proxies)

/-- The outer loop of `pg_cache_group_distribute_hosts`; each pass assigns a host, so that there are
enough passes for the unassigned ones. -/
def distributeLoop (groupid : ℕ) : ℕ → PgCache → List ProxyHosts → PgCache × List ProxyHosts
  | 0, cache, proxies => (cache, proxies)
  | fuel + 1, cache, proxies =>
    if cache.unassigned groupid = [] then (cache, proxies)
    else
      match proxies with
      | [] => (cache, [])
      | first :: _ =>
        let (cache, proxies) := distributePass groupid (first.hostsNum + 1) cache proxies
        distributeLoop groupid fuel cache proxies

/-- `pg_cache_group_distribute_hosts` where the group has unassigned hosts. -/
def distributeHosts (cache : PgCache) (groupid : ℕ) (proxies : List ProxyHosts) :
    PgCache × List ProxyHosts :=
  distributeLoop groupid (cache.unassigned groupid).length cache
    (proxies.insertionSort fun a b => a.hostRefs.length ≤ b.hostRefs.length)

def isAssignable (cache : PgCache) (proxy : PgProxy) : Bool :=
  proxy.state = .online ∧ proxy.version = cache.supportedVersion

def isGroupBalanced (cache : PgCache) (minOnline : ℤ) (group : PgGroup) : Bool :=
  let proxies := cache.groupProxies group
  let assignable := proxies.filter cache.isAssignable
  if group.unassignedHostids ≠ [] then false
  else if (∃ proxy ∈ assignable, proxy.hosts = []) ∧ ∃ proxy ∈ proxies, 1 < proxy.hosts.length then
    false
  else if assignable = [] ∨ (assignable.length : ℤ) < minOnlineOf minOnline then true
  else
    let avg := (assignable.map fun proxy => proxy.hosts.length).sum / assignable.length
    !assignable.any fun proxy =>
      decide ((10 ≤ (proxy.hosts.length : ℤ) - avg ∧ avg ≠ 0 ∧ 2 ≤ proxy.hosts.length / avg) ∨
        (10 ≤ (avg : ℤ) - proxy.hosts.length ∧ proxy.hosts ≠ [] ∧
          2 ≤ avg / proxy.hosts.length))

def onlineProxies (cache : PgCache) (group : PgGroup) : List (ℕ × PgProxy) :=
  group.proxies.filterMap fun proxyid =>
    (cache.proxies.lookup proxyid).bind fun proxy =>
      if cache.isAssignable proxy then some (proxyid, proxy) else none

def hostRevision (cache : PgCache) (hostid : ℕ) : ℕ :=
  (cache.hostmap.lookup hostid).elim 0 PgHost.revision

def withHostRefs (cache : PgCache) (hostsMin : ℤ) (entry : ℕ × PgProxy) : ProxyHosts where
  proxyid := entry.1
  hostRefs :=
    if (entry.2.hosts.length : ℤ) < hostsMin then []
    else entry.2.hosts.insertionSort fun a b => cache.hostRevision a ≤ cache.hostRevision b
  hostsNum := entry.2.hosts.length

def reassignHosts (cache : PgCache) (groupid : ℕ) : PgCache × Bool :=
  match cache.groups.lookup groupid with
  | none => (cache, false)
  | some group =>
    let proxies := cache.onlineProxies group
    if proxies = [] then (cache, false)
    else if group.unassignedHostids ≠ [] then
      ((cache.distributeHosts groupid
        (proxies.map fun entry => ⟨entry.1, [], entry.2.hosts.length⟩)).1, false)
    else
      let hostsNum := (proxies.map fun entry => entry.2.hosts.length).sum
      let hostsMin := if hostsNum > proxies.length then hostsNum / proxies.length else 1
      let required := (proxies.map fun entry => hostsMin - entry.2.hosts.length).sum
      let (cache, phs) :=
        cache.unassignExcessHosts groupid (proxies.map (cache.withHostRefs hostsMin)) hostsMin
          required
      ((cache.distributeHosts groupid phs).1, true)

def unbalancePeriodCoeff : ℤ := 10

def setBalanced (cache : PgCache) (groupid : ℕ) : PgCache :=
  cache.modifyGroup groupid fun group => { group with balanceTime := 0, unbalanced := false }

def rebalanceGroup (now : ℤ) (failoverDelay minOnline : ℕ → ℤ) (cache : PgCache) (groupid : ℕ) :
    PgCache :=
  match cache.groups.lookup groupid with
  | none => cache
  | some group =>
    if group.state ≠ .online then cache
    else if cache.isGroupBalanced (minOnline groupid) group then cache.setBalanced groupid
    else
      let balanceTime := if group.unassignedHostids ≠ [] then now else group.balanceTime
      let cache := cache.modifyGroup groupid fun group =>
        { group with unbalanced := true, balanceTime }
      if balanceTime = 0 then
        cache.modifyGroup groupid fun group =>
          { group with balanceTime := now + failoverDelay groupid * unbalancePeriodCoeff }
      else if now ≥ balanceTime then
        let (cache, rebalanced) := cache.reassignHosts groupid
        if rebalanced then cache.setBalanced groupid else cache
      else cache

def rebalanceGroups (cache : PgCache) (now : ℤ) (failoverDelay minOnline : ℕ → ℤ) : PgCache :=
  cache.groupUpdates.foldl (rebalanceGroup now failoverDelay minOnline) cache

def resetFlags (cache : PgCache) (groupid : ℕ) : PgCache :=
  match cache.groups.lookup groupid with
  | none => cache
  | some group =>
    group.proxies.foldl
      (fun cache proxyid => cache.modifyProxy proxyid fun proxy => { proxy with flags := 0 })
      (cache.modifyGroup groupid fun group => { group with flags := 0 })

def staysQueued (cache : PgCache) (groupid : ℕ) : Bool :=
  (cache.groups.lookup groupid).any fun group => group.state = .recovering ∨ group.unbalanced

/-- The groups that stay in the queue; `index` is the next group to look at. -/
def keepQueued (cache : PgCache) : ℕ → ℕ → List ℕ → List ℕ
  | 0, _, queue => queue
  | fuel + 1, index, queue =>
    match queue[index]? with
    | none => queue
    | some groupid =>
      if cache.staysQueued groupid then keepQueued cache fuel (index + 1) queue
      else keepQueued cache fuel index (Vector.removeNoorder queue index)

def getGroupAndProxyUpdates (cache : PgCache) : PgCache :=
  let cache := cache.groupUpdates.foldl resetFlags cache
  { cache with
    groupUpdates := cache.keepQueued cache.groupUpdates.length 0 cache.groupUpdates }

def addProxyHost (cache : PgCache) (proxyid hostid : ℕ) : PgCache :=
  cache.modifyProxy proxyid fun proxy =>
    if hostid ∈ proxy.hosts then proxy else { proxy with hosts := proxy.hosts ++ [hostid] }

def groupidOf (cache : PgCache) (proxyid : ℕ) : List ℕ :=
  ((cache.proxies.lookup proxyid).bind PgProxy.group).toList

structure Flush where
  cache : PgCache
  hostsNew : List (ℕ × ℕ)
  groupids : List ℕ

def flushUpdate (flush : Flush) (update : ℕ × ℕ) : Flush :=
  let (hostid, proxyid) := update
  let cache := flush.cache
  match cache.hostmap.lookup hostid with
  | some host =>
    if proxyid = 0 then
      { flush with
        cache := { cache with hostmap := cache.hostmap.erase hostid }
        groupids := flush.groupids ++ cache.groupidOf host.proxyid }
    else
      let host' := { host with proxyid, revision := cache.hostmapRevision }
      let cache' := { cache with hostmap := cache.hostmap.insert hostid host' }
      { flush with
        cache := cache'.addProxyHost proxyid hostid
        groupids := flush.groupids ++ cache.groupidOf host.proxyid ++ cache.groupidOf proxyid }
  | none =>
    if proxyid = 0 then flush else { flush with hostsNew := flush.hostsNew ++ [(hostid, proxyid)] }

def updates (cache : PgCache) : List (ℕ × ℕ) :=
  cache.hostmapUpdates.entries.map fun entry => (entry.1, entry.2)

def getHostmapUpdates (cache : PgCache) : Flush :=
  if cache.hostmapUpdates.entries = [] then ⟨cache, [], []⟩
  else
    let flush := cache.updates.foldl flushUpdate
      ⟨{ cache with hostmapRevision := cache.hostmapRevision + 1 }, [], []⟩
    { flush with cache := { flush.cache with hostmapUpdates := ∅ } }

def addNewHostmap (state : PgCache × ℕ) (link : ℕ × ℕ) : PgCache × ℕ :=
  let (hostid, proxyid) := link
  let cache := state.1
  let host : PgHost := ⟨proxyid, cache.hostmapRevision, state.2⟩
  let cache := { cache with hostmap := cache.hostmap.insert hostid host }
  (cache.addProxyHost proxyid hostid, state.2 + 1)

/-- `pg_cache_add_new_hostmaps`; `hostproxyid` is the first new record id. -/
def addNewHostmaps (cache : PgCache) (hostsNew : List (ℕ × ℕ)) (hostproxyid : ℕ) : PgCache :=
  (hostsNew.foldl addNewHostmap (cache, hostproxyid)).1

def pgmRebalanceAndFlushUpdates (cache : PgCache) (now : ℤ) (failoverDelay minOnline : ℕ → ℤ)
    (hostproxyid : ℕ) : PgCache :=
  let cache := (cache.rebalanceGroups now failoverDelay minOnline).getGroupAndProxyUpdates
  let flush := cache.getHostmapUpdates
  flush.cache.addNewHostmaps flush.hostsNew hostproxyid

def updateHostmapRevision (cache : PgCache) (groupids : List ℕ) : PgCache :=
  groupids.foldl
    (fun cache groupid => cache.modifyGroup groupid fun group =>
      { group with hostmapRevision := cache.hostmapRevision })
    cache

end PgCache

end Zabbix.ProxyGroup
