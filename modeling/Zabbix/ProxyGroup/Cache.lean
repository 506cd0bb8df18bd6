import Zabbix.Foundation.Table
import Zabbix.Foundation.Vector

/-!
# The cache of the proxy group manager

Groups, proxies, the host map and its pending updates, with the operations on single hosts and
proxies. Names, the links that are kept for the synchronisation with proxies and what is written to
the database are left out.
-/

namespace Zabbix.ProxyGroup

open Zabbix.Vector

inductive ProxyState
  | unknown
  | offline
  | online
  deriving DecidableEq

inductive GroupState
  | unknown
  | offline
  | recovering
  | online
  | degrading
  | disabled
  deriving DecidableEq

structure PgHost where
  proxyid : ℕ
  revision : ℕ
  hostproxyid : ℕ
  deriving DecidableEq

/-- `zbx_pg_proxy_t`, under its id. The group is `none` where it is `NULL` in the source; `hosts` has
the ids of the referenced entries of the host map. -/
structure PgProxy where
  revision : ℕ
  state : ProxyState
  version : ℕ
  lastaccess : ℤ
  firstaccess : ℤ
  flags : ℕ
  group : Option ℕ
  hosts : List ℕ
  deriving DecidableEq

structure PgGroup where
  revision : ℕ
  hostmapRevision : ℕ
  state : GroupState
  stateTime : ℤ
  unbalanced : Bool
  balanceTime : ℤ
  flags : ℕ
  proxies : List ℕ
  hostids : List ℕ
  unassignedHostids : List ℕ
  deriving DecidableEq

/-- `zbx_pg_cache_t`; the pending updates of the host map have only a proxy id, which is 0 for a
host that loses its proxy. -/
structure PgCache where
  startupTime : ℤ
  supportedVersion : ℕ
  groups : Table PgGroup
  groupUpdates : List ℕ
  groupRevision : ℕ
  proxyRevision : ℕ
  hostmap : Table PgHost
  hostmapUpdates : Table ℕ
  hostmapRevision : ℕ
  proxies : Table PgProxy

def PgGroup.new (flags : ℕ) : PgGroup :=
  ⟨0, 0, .unknown, 0, false, 0, flags, [], [], []⟩

def pgCacheInit (startupTime : ℤ) (supportedVersion mapRevision : ℕ) : PgCache where
  startupTime := startupTime
  supportedVersion := supportedVersion
  groups := (∅ : Table PgGroup).insert 0 { PgGroup.new 0 with state := .disabled }
  groupUpdates := []
  groupRevision := 0
  proxyRevision := 0
  hostmap := ∅
  hostmapUpdates := ∅
  hostmapRevision := mapRevision
  proxies := ∅

namespace PgCache

def modifyGroup (cache : PgCache) (groupid : ℕ) (f : PgGroup → PgGroup) : PgCache :=
  { cache with groups := cache.groups.modify groupid f }

def modifyProxy (cache : PgCache) (proxyid : ℕ) (f : PgProxy → PgProxy) : PgCache :=
  { cache with proxies := cache.proxies.modify proxyid f }

def queueGroupUpdate (cache : PgCache) (groupid : ℕ) : PgCache :=
  if groupid ∈ cache.groupUpdates then cache
  else { cache with groupUpdates := cache.groupUpdates ++ [groupid] }

def removeGroupUpdate (cache : PgCache) (groupid : ℕ) : PgCache :=
  { cache with groupUpdates := removeValue cache.groupUpdates groupid }

def setHostProxy (cache : PgCache) (hostid proxyid : ℕ) : PgCache :=
  { cache with hostmapUpdates := cache.hostmapUpdates.insert hostid proxyid }

/-- `pg_cache_set_host_proxy` with proxy 0 for all hosts of a proxy. -/
def unsetHosts (cache : PgCache) (hostids : List ℕ) : PgCache :=
  { cache with hostmapUpdates := cache.hostmapUpdates.insertAll hostids 0 }

def unmapHosts (cache : PgCache) (hostids : List ℕ) : PgCache :=
  { cache with hostmap := cache.hostmap.eraseAll hostids }

def releaseHosts (cache : PgCache) (groupid proxyid : ℕ) (hosts : List ℕ) : PgCache :=
  (cache.modifyGroup groupid fun group =>
    { group with unassignedHostids := group.unassignedHostids ++ hosts }).modifyProxy proxyid
      fun proxy => { proxy with hosts := [] }

def leaveGroup (cache : PgCache) (groupid proxyid : ℕ) : PgCache :=
  (cache.modifyGroup groupid fun group =>
    { group with proxies := removeValue group.proxies proxyid }).modifyProxy proxyid
      fun proxy => { proxy with group := none }

inductive Removal
  | deletedProxy
  | reassignedProxy
  deriving DecidableEq

/-- `pg_cache_group_remove_proxy`; the group of the proxy is not `NULL` where it is called. -/
def groupRemoveProxy (cache : PgCache) (proxyid : ℕ) (removal : Removal) : PgCache :=
  match cache.proxies.lookup proxyid with
  | none => cache
  | some proxy =>
    match proxy.group with
    | none => cache
    | some groupid =>
      let cache := cache.queueGroupUpdate groupid
      let cache := match removal with
        | .reassignedProxy => cache.unsetHosts proxy.hosts
        | .deletedProxy => cache.unmapHosts proxy.hosts
      (cache.releaseHosts groupid proxyid proxy.hosts).leaveGroup groupid proxyid

def groupRemoveHost (cache : PgCache) (groupid hostid : ℕ) : PgCache :=
  let cache := cache.modifyGroup groupid fun group =>
    { group with
      hostids := group.hostids.erase hostid
      unassignedHostids := removeValue group.unassignedHostids hostid }
  let cache := match cache.hostmap.lookup hostid with
    | none => cache
    | some host =>
      (cache.modifyProxy host.proxyid fun proxy =>
        { proxy with hosts := proxy.hosts.erase hostid }).setHostProxy hostid 0
  cache.queueGroupUpdate groupid

def groupAddHost (cache : PgCache) (groupid hostid : ℕ) : PgCache :=
  let cache := cache.modifyGroup groupid fun group =>
    if hostid ∈ group.hostids then group
    else
      { group with
        hostids := group.hostids ++ [hostid]
        unassignedHostids := group.unassignedHostids ++ [hostid] }
  cache.queueGroupUpdate groupid

def clearOfflineProxy (cache : PgCache) (groupid proxyid : ℕ) : PgCache :=
  match cache.proxies.lookup proxyid with
  | none => cache
  | some proxy =>
    if proxy.state = .online ∨ proxy.hosts = [] then cache
    else (cache.unsetHosts proxy.hosts).releaseHosts groupid proxyid proxy.hosts

def clearOfflineProxies (cache : PgCache) (groupid : ℕ) : PgCache :=
  match cache.groups.lookup groupid with
  | none => cache
  | some group => group.proxies.foldl (fun cache proxyid => cache.clearOfflineProxy groupid proxyid)
      cache

end PgCache

end Zabbix.ProxyGroup
