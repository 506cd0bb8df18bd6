import Zabbix.ProxyGroup.Cache

/-!
# Configuration and state updates

What `pgm_update` does. User macros are expanded by the caller: the failover delay and the minimum
of online proxies of a group are given as numbers.
-/

namespace Zabbix.ProxyGroup

structure DcProxyGroup where
  proxyGroupid : ℕ
  revision : ℕ
  proxyGroupid_ne : proxyGroupid ≠ 0
  deriving DecidableEq

structure DcProxy where
  proxyid : ℕ
  proxyGroupid : ℕ
  lastaccess : ℤ
  version : ℕ
  proxyid_ne : proxyid ≠ 0
  deriving DecidableEq

structure Config where
  groupRevision : ℕ
  groups : List DcProxyGroup
  proxyRevision : ℕ
  proxies : List DcProxy
  deriving DecidableEq

namespace PgCache

def fetchProxyGroup (cache : PgCache) (dcGroup : DcProxyGroup) : PgCache :=
  let cache := match cache.groups.lookup dcGroup.proxyGroupid with
    | none =>
      { cache with groups := cache.groups.insert dcGroup.proxyGroupid (PgGroup.new 0x100) }
    | some _ => cache.modifyGroup dcGroup.proxyGroupid fun group => { group with flags := 0x200 }
  cache.modifyGroup dcGroup.proxyGroupid fun group =>
    { group with revision := max dcGroup.revision group.revision }

def resetGroupFlags (cache : PgCache) : PgCache :=
  cache.groups.keys.foldl
    (fun cache groupid => cache.modifyGroup groupid fun group => { group with flags := 0 }) cache

def fetchProxyGroups (cache : PgCache) (config : Config) : Option PgCache :=
  if config.groupRevision ≤ cache.groupRevision then none
  else some (config.groups.foldl fetchProxyGroup
    { cache.resetGroupFlags with groupRevision := config.groupRevision })

def groupClear (cache : PgCache) (groupid : ℕ) : PgCache :=
  match cache.groups.lookup groupid with
  | none => cache
  | some group =>
    let cache := group.proxies.foldl
      (fun cache proxyid => cache.modifyProxy proxyid fun proxy => { proxy with group := none })
      cache
    { cache with groups := cache.groups.erase groupid }

def updateGroup (oldRevision : ℕ) (cache : PgCache) (groupid : ℕ) : PgCache :=
  match cache.groups.lookup groupid with
  | none => cache
  | some group =>
    if groupid = 0 then cache
    else if group.flags = 0 then (cache.removeGroupUpdate groupid).groupClear groupid
    else
      let cache := cache.modifyGroup groupid fun group => { group with flags := 0 }
      if oldRevision < group.revision then cache.queueGroupUpdate groupid else cache

def updateGroups (cache : PgCache) (config : Config) : PgCache × Bool :=
  match cache.fetchProxyGroups config with
  | none => (cache, false)
  | some fetched => (fetched.groups.keys.foldl (updateGroup cache.groupRevision) fetched, true)

def newProxy (revision : ℕ) (dcProxy : DcProxy) : PgProxy :=
  ⟨revision, .unknown, dcProxy.version, dcProxy.lastaccess, 0, 0, none, []⟩

def fetchProxy (state : PgCache × List (ℕ × ℕ)) (dcProxy : DcProxy) : PgCache × List (ℕ × ℕ) :=
  let cache := state.1
  if dcProxy.proxyGroupid ≠ 0 ∧ cache.groups.lookup dcProxy.proxyGroupid = none then state
  else
    match cache.proxies.lookup dcProxy.proxyid with
    | none =>
      ({ cache with proxies :=
          cache.proxies.insert dcProxy.proxyid (newProxy cache.proxyRevision dcProxy) },
        state.2 ++ [(dcProxy.proxyid, dcProxy.proxyGroupid)])
    | some proxy =>
      (cache.modifyProxy dcProxy.proxyid fun proxy =>
        { proxy with
          lastaccess := dcProxy.lastaccess
          version := dcProxy.version
          revision := cache.proxyRevision },
        if proxy.group ≠ none ∧ proxy.group ≠ some dcProxy.proxyGroupid then
          state.2 ++ [(dcProxy.proxyid, dcProxy.proxyGroupid)]
        else state.2)

def fetchProxies (cache : PgCache) (config : Config) (force : Bool) :
    Option (PgCache × List (ℕ × ℕ)) :=
  if force = false ∧ config.proxyRevision ≤ cache.proxyRevision then none
  else
    some (config.proxies.foldl fetchProxy ({ cache with proxyRevision := config.proxyRevision }, []))

/-- `pg_cache_update_proxies` for one proxy that may be deleted. -/
def updateProxy (cache : PgCache) (proxyid : ℕ) : PgCache :=
  match cache.proxies.lookup proxyid with
  | none => cache
  | some proxy =>
    if proxy.revision = cache.proxyRevision then cache
    else
      let cache := cache.groupRemoveProxy proxyid .deletedProxy
      { cache with proxies := cache.proxies.erase proxyid }

def joinGroup (cache : PgCache) (groupid proxyid : ℕ) : PgCache :=
  (cache.modifyGroup groupid fun group =>
    { group with proxies := group.proxies ++ [proxyid] }).modifyProxy proxyid
      fun proxy => { proxy with group := some groupid }

def relocateProxy (cache : PgCache) (reloc : ℕ × ℕ) : PgCache :=
  match cache.proxies.lookup reloc.1 with
  | none => cache
  | some _ =>
    let cache := cache.groupRemoveProxy reloc.1 .reassignedProxy
    match cache.groups.lookup reloc.2 with
    | none => cache
    | some _ => (cache.joinGroup reloc.2 reloc.1).queueGroupUpdate reloc.2

def updateProxies (cache : PgCache) (config : Config) (force : Bool) : PgCache :=
  let (cache, relocs) := (cache.fetchProxies config force).getD (cache, [])
  relocs.foldl relocateProxy (cache.proxies.keys.foldl updateProxy cache)

def proxyState (startupTime now failoverDelay : ℤ) (groupid : ℕ) (proxy : PgProxy) :
    Option ProxyState × ℤ :=
  if now - proxy.lastaccess ≥ failoverDelay then
    if now - startupTime ≥ failoverDelay then (some .offline, 0) else (none, proxy.firstaccess)
  else
    let firstaccess := if proxy.firstaccess = 0 then proxy.lastaccess else proxy.firstaccess
    if proxy.state = .unknown ∨ groupid = 0 ∨ now - firstaccess ≥ failoverDelay then
      (some .online, firstaccess)
    else (none, firstaccess)

def updateProxyStateOf (now failoverDelay : ℤ) (groupid : ℕ) (state : PgCache × Bool)
    (proxyid : ℕ) : PgCache × Bool :=
  match state.1.proxies.lookup proxyid with
  | none => state
  | some proxy =>
    let (newState, firstaccess) := proxyState state.1.startupTime now failoverDelay groupid proxy
    let cache := state.1.modifyProxy proxyid fun proxy => { proxy with firstaccess }
    match newState with
    | none => (cache, state.2)
    | some newState =>
      if proxy.state = newState then (cache, state.2)
      else
        (cache.modifyProxy proxyid fun proxy =>
          { proxy with state := newState, flags := proxy.flags ||| 1 }, true)

def updateProxyStateIn (now : ℤ) (failoverDelay : ℕ → ℤ) (cache : PgCache) (groupid : ℕ) :
    PgCache :=
  match cache.groups.lookup groupid with
  | none => cache
  | some group =>
    let (cache, changed) :=
      group.proxies.foldl (updateProxyStateOf now (failoverDelay groupid) groupid) (cache, false)
    if changed then cache.queueGroupUpdate groupid else cache

def updateProxyState (cache : PgCache) (now : ℤ) (failoverDelay : ℕ → ℤ) : PgCache :=
  cache.groups.keys.foldl (updateProxyStateIn now failoverDelay) cache

def groupProxies (cache : PgCache) (group : PgGroup) : List PgProxy :=
  group.proxies.filterMap cache.proxies.lookup

structure ProxyCounts where
  online : ℤ
  offline : ℤ
  healthy : ℤ
  total : ℤ

def stateCheckInterval : ℤ := 5

def countProxies (cache : PgCache) (now failoverDelay : ℤ) (group : PgGroup) : ProxyCounts :=
  (cache.groupProxies group).foldl
    (fun counts proxy =>
      if proxy.version ≠ cache.supportedVersion then { counts with offline := counts.offline + 1 }
      else
        match proxy.state with
        | .online =>
          { counts with
            online := counts.online + 1
            healthy :=
              if now - proxy.lastaccess + stateCheckInterval < failoverDelay then
                counts.healthy + 1
              else counts.healthy }
        | .offline => { counts with offline := counts.offline + 1 }
        | .unknown => counts)
    ⟨0, 0, 0, group.proxies.length⟩

/-- The state of a recovering group by `pg_cache_update_group_state`. -/
def recoveringState (state : GroupState) (stateTime now failoverDelay minOnline : ℤ)
    (counts : ProxyCounts) : GroupState :=
  if counts.total - counts.offline < minOnline then .offline
  else if counts.total = counts.online then .online
  else if now - stateTime > failoverDelay then
    if counts.online ≥ minOnline then .online else .offline
  else state

/-- The state of a group by `pg_cache_update_group_state` with its state time. -/
def groupState (now failoverDelay minOnline : ℤ) (group : PgGroup) (counts : ProxyCounts) :
    GroupState × ℤ :=
  match group.state with
  | .unknown => (recoveringState .recovering now now failoverDelay minOnline counts, now)
  | .recovering =>
    (recoveringState .recovering group.stateTime now failoverDelay minOnline counts,
      group.stateTime)
  | .degrading =>
    (if counts.healthy ≥ minOnline then .online
      else if counts.online < minOnline then .offline
      else .degrading, group.stateTime)
  | .offline => (if counts.online ≥ minOnline then .recovering else .offline, group.stateTime)
  | .online =>
    (if counts.total - counts.offline < minOnline then .offline
      else if counts.healthy < minOnline then .degrading
      else .online, group.stateTime)
  | .disabled => (.disabled, group.stateTime)

def minOnlineOf (minOnline : ℤ) : ℤ := if minOnline = 0 then 1 else minOnline

def updateGroupStateOf (now : ℤ) (failoverDelay minOnline : ℕ → ℤ) (cache : PgCache)
    (groupid : ℕ) : PgCache :=
  match cache.groups.lookup groupid with
  | none => cache
  | some group =>
    if group.state = .disabled then cache
    else
      let counts := cache.countProxies now (failoverDelay groupid) group
      let (state, stateTime) :=
        groupState now (failoverDelay groupid) (minOnlineOf (minOnline groupid)) group counts
      let cache := cache.modifyGroup groupid fun group => { group with stateTime }
      let cache :=
        if state = group.state then cache
        else
          let cache := cache.modifyGroup groupid fun group =>
            { group with state, stateTime := now, flags := group.flags ||| 1 }
          if state = .online then cache.queueGroupUpdate groupid else cache
      if state = .online then cache.clearOfflineProxies groupid else cache

def updateGroupState (cache : PgCache) (now : ℤ) (failoverDelay minOnline : ℕ → ℤ) : PgCache :=
  cache.groups.keys.foldl (updateGroupStateOf now failoverDelay minOnline) cache

def pgmUpdate (cache : PgCache) (config : Config) (now : ℤ) (failoverDelay minOnline : ℕ → ℤ) :
    PgCache :=
  let (cache, fetched) := cache.updateGroups config
  let cache := cache.updateProxies config fetched
  (cache.updateProxyState now failoverDelay).updateGroupState now failoverDelay minOnline

end PgCache

end Zabbix.ProxyGroup
