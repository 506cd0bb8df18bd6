import Mathlib.Data.Fintype.Basic
import Zabbix.Foundation.Transition
import Zabbix.ProxyGroup.Rebalance

/-!
# The proxy group manager

The manager loads the hosts once, then its thread and the service take turns under the lock of the
cache. The configuration cache tells the service where a host comes from and where it goes.
-/

namespace Zabbix.ProxyGroup

namespace PgCache

/-- A row of `pgm_db_get_hosts`; ids that are null in the database are 0, and the group is 0 for a
host that is not monitored by a proxy group. -/
structure HostRow where
  hostid : ℕ
  proxyid : ℕ
  revision : ℕ
  hostproxyid : ℕ
  proxyGroupid : ℕ
  deriving DecidableEq

def getHost (cache : PgCache) (row : HostRow) : PgCache :=
  match (if row.proxyGroupid = 0 then none else cache.groups.lookup row.proxyGroupid) with
  | none => if row.proxyid ≠ 0 then cache.setHostProxy row.hostid 0 else cache
  | some _ =>
    let cache := cache.modifyGroup row.proxyGroupid fun group =>
      { group with hostids := group.hostids.insert row.hostid }
    let unassign (cache : PgCache) := cache.modifyGroup row.proxyGroupid fun group =>
      { group with unassignedHostids := group.unassignedHostids ++ [row.hostid] }
    if row.proxyid = 0 then unassign cache
    else if (cache.proxies.lookup row.proxyid).bind PgProxy.group ≠ some row.proxyGroupid then
      (unassign cache).setHostProxy row.hostid 0
    else
      let host : PgHost := ⟨row.proxyid, row.revision, row.hostproxyid⟩
      let cache := { cache with hostmap := cache.hostmap.insert row.hostid host }
      (cache.addProxyHost row.proxyid row.hostid).modifyGroup row.proxyGroupid fun group =>
        { group with hostmapRevision := max row.revision group.hostmapRevision }

def pgmDbGetHosts (cache : PgCache) (rows : List HostRow) : PgCache :=
  rows.foldl getHost cache

def renameHost (cache : PgCache) (hostid : ℕ) : PgCache :=
  match cache.hostmap.lookup hostid with
  | none => cache
  | some host =>
    let cache := cache.setHostProxy hostid host.proxyid
    match (cache.proxies.lookup host.proxyid).bind PgProxy.group with
    | none => cache
    | some groupid => cache.queueGroupUpdate groupid

def relocateHost (cache : PgCache) (hostid srcid dstid : ℕ) : PgCache :=
  if srcid = dstid then cache.renameHost hostid
  else
    let cache :=
      if srcid ≠ 0 ∧ (cache.groups.lookup srcid).isSome then cache.groupRemoveHost srcid hostid
      else cache
    if dstid ≠ 0 ∧ (cache.groups.lookup dstid).isSome then cache.groupAddHost dstid hostid
    else cache

def updateProxyRtdata (cache : PgCache) (proxyid : ℕ) (lastaccess : ℤ) (version : ℕ) : PgCache :=
  cache.modifyProxy proxyid fun proxy =>
    { proxy with
      lastaccess := if lastaccess ≠ 0 then lastaccess else proxy.lastaccess
      version := if version ≠ 0 then version else proxy.version }

end PgCache

open PgCache

structure System where
  cache : PgCache
  hostGroups : ℕ → ℕ

/-- `dc_host_set_proxy_group` for a host with a new group, and what the service does then. -/
def System.setProxyGroup (s : System) (move : ℕ × ℕ) : System :=
  let (hostid, proxyGroupid) := move
  let cache :=
    if proxyGroupid ≠ 0 ∨ s.hostGroups hostid ≠ 0 then
      s.cache.relocateHost hostid (s.hostGroups hostid) proxyGroupid
    else s.cache
  ⟨cache, Function.update s.hostGroups hostid proxyGroupid⟩

inductive Event
  | update (config : Config) (now : ℤ) (failoverDelay minOnline : ℕ → ℤ)
  | hostPgroupUpdate (config : Config) (moves : List (ℕ × ℕ))
  | proxyRtdata (proxyid : ℕ) (lastaccess : ℤ) (version : ℕ)
  | rebalanceAndFlush (now : ℤ) (failoverDelay minOnline : ℕ → ℤ) (hostproxyid : ℕ)
  | updateHostmapRevision (groupids : List ℕ)

def step (s : System) : Event → Option System
  | .update config now failoverDelay minOnline =>
    some { s with cache := s.cache.pgmUpdate config now failoverDelay minOnline }
  | .hostPgroupUpdate config moves =>
    some (moves.foldl System.setProxyGroup { s with cache := (s.cache.updateGroups config).1 })
  | .proxyRtdata proxyid lastaccess version =>
    some { s with cache := s.cache.updateProxyRtdata proxyid lastaccess version }
  | .rebalanceAndFlush now failoverDelay minOnline hostproxyid =>
    some { s with
      cache := s.cache.pgmRebalanceAndFlushUpdates now failoverDelay minOnline hostproxyid }
  | .updateHostmapRevision groupids =>
    some { s with cache := s.cache.updateHostmapRevision groupids }

structure Startup where
  startupTime : ℤ
  supportedVersion : ℕ
  mapRevision : ℕ
  config : Config
  now : ℤ
  failoverDelay : ℕ → ℤ
  minOnline : ℕ → ℤ
  rows : List HostRow
  hostids_nodup : (rows.map HostRow.hostid).Nodup

/-- The start of the manager: `pgm_init`, `pgm_update` and `pgm_db_get_hosts`. -/
def Startup.system (startup : Startup) : System where
  cache := ((pgCacheInit startup.startupTime startup.supportedVersion
    startup.mapRevision).pgmUpdate startup.config startup.now startup.failoverDelay
      startup.minOnline).pgmDbGetHosts startup.rows
  hostGroups hostid := ((startup.rows.find? (·.hostid = hostid)).map HostRow.proxyGroupid).getD 0

def Started (s : System) : Prop := ∃ startup : Startup, s = startup.system

def PgCache.Assigned (cache : PgCache) (groupid hostid : ℕ) : Prop :=
  ∃ host proxy, cache.hostmap.lookup hostid = some host ∧
    cache.proxies.lookup host.proxyid = some proxy ∧ proxy.group = some groupid ∧
    hostid ∈ proxy.hosts

def PgCache.OnePlace (cache : PgCache) (groupid : ℕ) (group : PgGroup) (hostid : ℕ) : Prop :=
  (group.unassignedHostids.count hostid = 1 ∧ ¬ cache.Assigned groupid hostid) ∨
    (group.unassignedHostids.count hostid = 0 ∧ cache.Assigned groupid hostid)

structure PgCache.Consistent (cache : PgCache) : Prop where
  onePlace : ∀ groupid group, cache.groups.lookup groupid = some group →
    ∀ hostid ∈ group.hostids, cache.OnePlace groupid group hostid
  unassigned : ∀ groupid group, cache.groups.lookup groupid = some group →
    group.unassignedHostids ⊆ group.hostids
  hosts : ∀ proxyid proxy, cache.proxies.lookup proxyid = some proxy → ∀ hostid ∈ proxy.hosts,
    ∃ host, cache.hostmap.lookup hostid = some host ∧ host.proxyid = proxyid
  hostmap : ∀ hostid host, cache.hostmap.lookup hostid = some host →
    (cache.proxies.lookup host.proxyid).isSome
  hostmapUpdates : ∀ hostid proxyid, cache.hostmapUpdates.lookup hostid = some proxyid →
    proxyid ≠ 0 → (cache.proxies.lookup proxyid).isSome
  proxyGroup : ∀ proxyid proxy groupid, cache.proxies.lookup proxyid = some proxy →
    proxy.group = some groupid → ∃ group, cache.groups.lookup groupid = some group ∧
      proxyid ∈ group.proxies
  groupProxies : ∀ groupid group, cache.groups.lookup groupid = some group →
    ∀ proxyid ∈ group.proxies, ∃ proxy, cache.proxies.lookup proxyid = some proxy ∧
      proxy.group = some groupid
  groupUpdates : ∀ groupid ∈ cache.groupUpdates, (cache.groups.lookup groupid).isSome

def PgCache.GroupsOk (cache : PgCache) (config : Config) : Prop :=
  cache.groupRevision < config.groupRevision → ∀ groupid ∈ cache.groups.keys, groupid ≠ 0 →
    (∀ dcGroup ∈ config.groups, dcGroup.proxyGroupid ≠ groupid) →
    ∀ group ∈ cache.groups.lookup groupid, ∀ proxyid ∈ group.proxies,
      ∀ proxy ∈ cache.proxies.lookup proxyid, proxy.hosts = []

def PgCache.Fetches (cache : PgCache) (config : Config) : Prop :=
  cache.groupRevision < config.groupRevision ∨ cache.proxyRevision < config.proxyRevision

def Config.Lists (config : Config) (cache : PgCache) (proxyid : ℕ) : Prop :=
  ∃ dcProxy ∈ config.proxies, dcProxy.proxyid = proxyid ∧
    (dcProxy.proxyGroupid = 0 ∨ (cache.groups.lookup dcProxy.proxyGroupid).isSome)

def PgCache.Deletes (cache : PgCache) (config : Config) (proxyid : ℕ) (proxy : PgProxy) : Prop :=
  (cache.Fetches config ∧ ¬ config.Lists (cache.updateGroups config).1 proxyid ∧
      proxy.revision ≠ config.proxyRevision) ∨
    (¬ cache.Fetches config ∧ proxy.revision ≠ cache.proxyRevision)

def PgCache.ProxiesOk (cache : PgCache) (config : Config) : Prop :=
  ∀ proxyid ∈ cache.proxies.keys, ∀ proxy ∈ cache.proxies.lookup proxyid,
    cache.Deletes config proxyid proxy → ∀ hostid ∈ cache.hostmapUpdates.keys,
      ∀ host ∈ cache.hostmap.lookup hostid, host.proxyid ≠ proxyid

def PgCache.RenameOk (cache : PgCache) (hostid : ℕ) : Prop :=
  ∀ host ∈ cache.hostmap.lookup hostid, ∀ proxy ∈ cache.proxies.lookup host.proxyid,
    hostid ∈ proxy.hosts

def MovesOk : System → List (ℕ × ℕ) → Prop
  | _, [] => True
  | s, move :: moves =>
    (s.hostGroups move.1 = move.2 → move.2 ≠ 0 → s.cache.RenameOk move.1) ∧
      MovesOk (s.setProxyGroup move) moves

def StepOk (s : System) : Event → Prop
  | .update config _ _ _ => s.cache.GroupsOk config ∧ s.cache.ProxiesOk config
  | .hostPgroupUpdate config moves =>
    s.cache.GroupsOk config ∧ MovesOk { s with cache := (s.cache.updateGroups config).1 } moves
  | _ => True

instance (cache : PgCache) (config : Config) : Decidable (cache.GroupsOk config) := by
  unfold PgCache.GroupsOk
  infer_instance

instance (cache : PgCache) (config : Config) (p : ℕ) : Decidable (config.Lists cache p) := by
  unfold Config.Lists
  infer_instance

instance (cache : PgCache) (config : Config) : Decidable (cache.ProxiesOk config) := by
  unfold PgCache.ProxiesOk PgCache.Deletes PgCache.Fetches
  infer_instance

instance (cache : PgCache) (h : ℕ) : Decidable (cache.RenameOk h) := by
  unfold PgCache.RenameOk
  infer_instance

instance MovesOk.decidable : ∀ s moves, Decidable (MovesOk s moves)
  | _, [] => isTrue trivial
  | s, move :: moves =>
    have := MovesOk.decidable (s.setProxyGroup move) moves
    inferInstanceAs (Decidable ((_ → _ → _) ∧ _))

instance (s : System) : ∀ event, Decidable (StepOk s event)
  | .update _ _ _ _ => inferInstanceAs (Decidable (_ ∧ _))
  | .hostPgroupUpdate _ _ => inferInstanceAs (Decidable (_ ∧ _))
  | .proxyRtdata _ _ _ => isTrue trivial
  | .rebalanceAndFlush _ _ _ _ => isTrue trivial
  | .updateHostmapRevision _ => isTrue trivial

end Zabbix.ProxyGroup
