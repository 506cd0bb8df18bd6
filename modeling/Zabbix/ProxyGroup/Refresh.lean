import Zabbix.ProxyGroup.Abstraction

/-!
# Configuration updates keep the cache consistent

Groups may be deleted when their proxies have no hosts, proxies when no host that is mapped to them
waits for an update.
-/

namespace Zabbix.ProxyGroup

open Option PgCache Zabbix.Vector

variable {cache : PgCache} {next : ℕ → ℕ → Prop} {groupid : ℕ → Option ℕ} {g p h : ℕ} {group : PgGroup}
  {proxy : PgProxy} {config : Config}
variable {dcGroup : DcProxyGroup} {dcProxy : DcProxy}

theorem assignment_addGroup (hg : cache.groups.lookup g = none) (flags : ℕ) :
    ({ cache with groups := cache.groups.insert g (PgGroup.new flags) } : PgCache).assignment =
      cache.assignment.addGroup g := by
  ext
  all_goals simp only [assignment, Table.lookup_insert_eq, Assignment.addGroup]
  case isGroup g' => by_cases heq : g' = g <;> simp [heq]
  all_goals
    next g' _ =>
    by_cases heq : g' = g
    · rw [heq, hg, if_pos rfl]
      rfl
    · rw [if_neg heq]

theorem PgCache.Ok.addGroup (hc : cache.Ok groupid) (hg : cache.groups.lookup g = none)
    (flags : ℕ) :
    ({ cache with groups := cache.groups.insert g (PgGroup.new flags) } : PgCache).Ok groupid := by
  have hassignment := assignment_addGroup hg flags
  have hsame : ∀ {β : Type} (b : List β) (proj : PgGroup → List β) (g' : ℕ),
      proj (PgGroup.new flags) = [] →
      ((cache.groups.lookup g').elim [] proj).Nodup →
      (((cache.groups.insert g (PgGroup.new flags)).lookup g').elim [] proj).Nodup := by
    intro β b proj g' hnil hold
    rw [Table.lookup_insert_eq]
    split
    · rw [elim_some, hnil]
      exact List.nodup_nil
    · exact hold
  refine ⟨⟨?_, ⟨fun g' => ?_, fun g' => ?_, fun g' => ?_, hc.nodups.hosts⟩, fun g' hg' => ?_,
    hc.queue_nodup⟩, ?_⟩
  · rw [hassignment]
    exact hc.valid.addGroup
  · exact hsame [] _ g' rfl (hc.nodups.proxies g')
  · exact hsame [] _ g' rfl (hc.nodups.hostids g')
  · exact hsame [] _ g' rfl (hc.nodups.unassigned g')
  · rw [hassignment]
    exact .inr (hc.queued g' hg')
  · rw [hassignment]
    exact hc.settled

theorem PgCache.Ok.fetchProxyGroup (hc : cache.Ok groupid) (dcGroup : DcProxyGroup) :
    (cache.fetchProxyGroup dcGroup).Ok groupid := by
  unfold PgCache.fetchProxyGroup
  refine Ok.modifyGroup_of ?_ (fun _ => rfl) (fun _ => rfl) fun _ => rfl
  cases hg : cache.groups.lookup dcGroup.proxyGroupid with
  | none => exact hc.addGroup hg 0x100
  | some group => exact hc.modifyGroup_of (fun _ => rfl) (fun _ => rfl) fun _ => rfl

theorem PgCache.Ok.resetGroupFlags (hc : cache.Ok groupid) : cache.resetGroupFlags.Ok groupid := by
  unfold PgCache.resetGroupFlags
  refine Table.foldl_preserves (I := fun cache : PgCache => cache.Ok groupid)
    (fun _ _ _ hc => ?_) hc
  exact hc.modifyGroup_of (fun _ => rfl) (fun _ => rfl) fun _ => rfl

variable {fetched : PgCache}

theorem PgCache.Ok.fetchProxyGroups (hc : cache.Ok groupid)
    (hf : cache.fetchProxyGroups config = some fetched) : fetched.Ok groupid := by
  obtain ⟨-, ⟨⟩⟩ := ite_none_left_eq_some.mp hf
  exact Table.foldl_preserves (I := fun cache : PgCache => cache.Ok groupid)
    (fun _ dcGroup _ hc => hc.fetchProxyGroup dcGroup)
    (hc.resetGroupFlags.congr rfl rfl rfl rfl rfl)

theorem lookup_fetchProxyGroup_of_ne (hne : g ≠ dcGroup.proxyGroupid) :
    (cache.fetchProxyGroup dcGroup).groups.lookup g = cache.groups.lookup g := by
  unfold PgCache.fetchProxyGroup
  simp only [modifyGroup, Table.lookup_modify_of_ne hne]
  split
  · exact AList.lookup_insert_ne hne
  · exact Table.lookup_modify_of_ne hne _ _

theorem flags_fetchProxyGroup
    (hg : (cache.fetchProxyGroup dcGroup).groups.lookup dcGroup.proxyGroupid = some group) :
    group.flags ≠ 0 := by
  unfold PgCache.fetchProxyGroup at hg
  simp only [modifyGroup, Table.lookup_modify_self] at hg
  obtain ⟨old, hold, rfl⟩ := map_eq_some_iff.mp hg
  cases hlookup : cache.groups.lookup dcGroup.proxyGroupid with
  | none =>
    simp only [hlookup, AList.lookup_insert, Option.some.injEq] at hold
    obtain rfl := hold
    show 0x100 ≠ 0
    omega
  | some group =>
    simp only [hlookup, Table.lookup_modify_self, map_some, Option.some.injEq] at hold
    obtain rfl := hold
    show 0x200 ≠ 0
    omega

theorem notMem_of_flags {dcGroups : List DcProxyGroup}
    (hg : (dcGroups.foldl PgCache.fetchProxyGroup cache).groups.lookup g = some group)
    (hflags : group.flags = 0) : ∀ dcGroup ∈ dcGroups, dcGroup.proxyGroupid ≠ g := by
  induction dcGroups using List.reverseRecOn with
  | nil => nofun
  | append_singleton dcGroups last ih =>
    rw [List.foldl_concat] at hg
    intro dcGroup hmem
    by_cases hne : g = last.proxyGroupid
    · subst hne
      exact absurd hflags (flags_fetchProxyGroup hg)
    · obtain hmem | hmem := List.mem_append.mp hmem
      · exact ih (lookup_fetchProxyGroup_of_ne hne ▸ hg) dcGroup hmem
      · rw [List.mem_singleton.mp hmem]
        exact Ne.symm hne

theorem proxies_fetchProxyGroups (hf : cache.fetchProxyGroups config = some fetched) :
    fetched.proxies = cache.proxies := by
  obtain ⟨-, ⟨⟩⟩ := ite_none_left_eq_some.mp hf
  refine Table.foldl_preserves (I := fun c : PgCache => c.proxies = cache.proxies)
    (fun c dcGroup _ hc => ?_) ?_
  · rw [← hc]
    unfold PgCache.fetchProxyGroup
    cases c.groups.lookup dcGroup.proxyGroupid <;> rfl
  · show cache.resetGroupFlags.proxies = cache.proxies
    unfold PgCache.resetGroupFlags
    refine Table.foldl_preserves (I := fun c : PgCache => c.proxies = cache.proxies)
      (fun c g _ hc => ?_) rfl
    exact hc

theorem foldl_modifyProxy (cache : PgCache) (ps : List ℕ) {f : PgProxy → PgProxy} (hf : ∀ P, f (f P) = f P) :
    ∃ proxies, ps.foldl (fun c p => c.modifyProxy p f) cache = { cache with proxies := proxies } ∧
      ∀ p, proxies.lookup p =
        if p ∈ ps then (cache.proxies.lookup p).map f else cache.proxies.lookup p := by
  induction ps generalizing cache with
  | nil => exact ⟨cache.proxies, rfl, fun p => rfl⟩
  | cons p' ps ih =>
    obtain ⟨proxies, heq, hlookup⟩ := ih (cache.modifyProxy p' f)
    refine ⟨proxies, heq, fun p => ?_⟩
    rw [hlookup]
    simp only [modifyProxy, Table.lookup_modify_eq, List.mem_cons]
    have hf' : f ∘ f = f := funext hf
    by_cases heq : p = p'
    · by_cases hmem : p ∈ ps <;> simp [heq, hf', map_map]
    · simp [heq]

theorem assignment_groupClear (hg : cache.groups.lookup g = some group)
    (hlists : ∀ p, p ∈ group.proxies ↔ cache.assignment.groupOf p = some g) :
    (cache.groupClear g).assignment = cache.assignment.removeGroup g := by
  unfold PgCache.groupClear
  rw [hg]
  obtain ⟨proxies, hfold, hlookup⟩ := foldl_modifyProxy cache group.proxies
    (f := fun proxy => { proxy with group := none }) fun _ => rfl
  dsimp only
  rw [hfold]
  ext
  case groupOf p g' =>
    show (proxies.lookup p).bind PgProxy.group = some g' ↔
      (if cache.assignment.groupOf p = some g then none else cache.assignment.groupOf p) = some g'
    rw [hlookup]
    by_cases hmem : p ∈ group.proxies
    · rw [if_pos hmem, if_pos ((hlists p).mp hmem)]
      cases cache.proxies.lookup p <;> simp
    · rw [if_neg hmem, if_neg fun h => hmem ((hlists p).mpr h)]
      rfl
  all_goals simp only [assignment, Table.lookup_erase_eq, Assignment.removeGroup, hlookup]
  case isProxy p => split <;> simp
  case held p h =>
    split
    · rw [elim_map]
      rfl
    · rfl
  all_goals grind

theorem lookup_groupClear_of_ne {g' : ℕ} (hne : g' ≠ g) :
    (cache.groupClear g).groups.lookup g' = cache.groups.lookup g' := by
  unfold PgCache.groupClear
  cases cache.groups.lookup g with
  | none => rfl
  | some group =>
    obtain ⟨proxies, hfold, -⟩ := foldl_modifyProxy cache group.proxies
      (f := fun proxy => { proxy with group := none }) fun _ => rfl
    dsimp only
    rw [hfold]
    exact AList.lookup_erase_ne hne

theorem PgCache.Ok.groupClear (hc : cache.Ok groupid) (hqueue : g ∉ cache.groupUpdates)
    (hheld : ∀ p, cache.assignment.groupOf p = some g → ∀ h, ¬ cache.assignment.held p h) :
    (cache.groupClear g).Ok groupid := by
  cases hg : cache.groups.lookup g with
  | none =>
    unfold PgCache.groupClear
    rwa [hg]
  | some group =>
    have hassignment : (cache.groupClear g).assignment = cache.assignment.removeGroup g :=
      assignment_groupClear hg fun p => (assignment_lists hg p).symm.trans (hc.valid.group g p)
    unfold PgCache.groupClear at hassignment ⊢
    rw [hg] at hassignment ⊢
    obtain ⟨proxies, hfold, hlookup⟩ := foldl_modifyProxy cache group.proxies
      (f := fun proxy => { proxy with group := none }) fun _ => rfl
    dsimp only at hassignment ⊢
    rw [hfold] at hassignment ⊢
    refine ⟨⟨?_, ⟨fun g' => ?_, fun g' => ?_, fun g' => ?_, fun p => ?_⟩, ?_, hc.queue_nodup⟩, ?_⟩
    · rw [hassignment]
      exact hc.valid.removeGroup hc.settled hheld
    · have hold := hc.nodups.proxies g'
      simp only [Table.lookup_erase_eq]
      split <;> simp_all
    · have hold := hc.nodups.hostids g'
      simp only [Table.lookup_erase_eq]
      split <;> simp_all
    · have hold := hc.nodups.unassigned g'
      simp only [Table.lookup_erase_eq]
      split <;> simp_all
    · have hold := hc.nodups.hosts p
      simp only [hlookup]
      split
      · rwa [elim_map]
      · exact hold
    · rw [hassignment]
      intro g' hg'
      exact ⟨fun heq => hqueue (heq ▸ hg'), hc.queued g' hg'⟩
    · rw [hassignment]
      exact hc.settled

theorem PgCache.Ok.removeGroupUpdate (hc : cache.Ok groupid) (g : ℕ) :
    (cache.removeGroupUpdate g).Ok groupid :=
  ⟨⟨hc.valid, ⟨hc.nodups.proxies, hc.nodups.hostids, hc.nodups.unassigned, hc.nodups.hosts⟩,
    fun g' hg' => hc.queued g' ((mem_removeValue hc.queue_nodup).mp hg').2,
    nodup_removeValue hc.queue_nodup⟩, hc.settled⟩

def PgCache.Clearable (cache : PgCache) (g : ℕ) : Prop :=
  ∀ p, cache.assignment.groupOf p = some g → ∀ h, ¬ cache.assignment.held p h

variable (hc : cache.Ok groupid)

include hc

theorem PgCache.Ok.updateGroup (rev g : ℕ)
    (hclear : g ≠ 0 → ∀ group, cache.groups.lookup g = some group → group.flags = 0 →
      cache.Clearable g) : (cache.updateGroup rev g).Ok groupid := by
  unfold PgCache.updateGroup
  cases hg : cache.groups.lookup g with
  | none => exact hc
  | some group =>
    dsimp only
    split
    · exact hc
    · next hne =>
      split
      · next hflags =>
        refine (hc.removeGroupUpdate g).groupClear ?_ (hclear hne group hg hflags)
        exact fun hmem => ((mem_removeValue hc.queue_nodup).mp hmem).1 rfl
      · have hmodify := hc.modifyGroup_of (g := g) (f := fun group => { group with flags := 0 })
          (fun _ => rfl) (fun _ => rfl) fun _ => rfl
        split
        · refine hmodify.queueGroupUpdate ?_
          rw [modifyGroup, Table.isSome_modify, hg]
          rfl
        · exact hmodify

theorem updateGroup_frame (rev g : ℕ) :
    (∀ g', g' ≠ g → (cache.updateGroup rev g).groups.lookup g' = cache.groups.lookup g') ∧
    (∀ p g', (cache.updateGroup rev g).assignment.groupOf p = some g' →
      cache.assignment.groupOf p = some g') ∧
    (cache.updateGroup rev g).assignment.held = cache.assignment.held := by
  unfold PgCache.updateGroup
  cases hg : cache.groups.lookup g with
  | none => exact ⟨fun _ _ => rfl, fun _ _ => id, rfl⟩
  | some group =>
    dsimp only
    split
    · exact ⟨fun _ _ => rfl, fun _ _ => id, rfl⟩
    · split
      · have hassignment : ((cache.removeGroupUpdate g).groupClear g).assignment =
            cache.assignment.removeGroup g :=
          assignment_groupClear hg fun p => (assignment_lists hg p).symm.trans (hc.valid.group g p)
        rw [hassignment]
        refine ⟨fun g' hne => ?_, fun p g' hp => ?_, rfl⟩
        · exact lookup_groupClear_of_ne hne
        · simp only [Assignment.removeGroup] at hp
          split at hp
          · cases hp
          · exact hp
      · have hassignment : (cache.modifyGroup g fun group => { group with flags := 0 }).assignment =
            cache.assignment :=
          assignment_modifyGroup_of (fun _ => rfl) (fun _ => rfl) fun _ => rfl
        split
        · rw [assignment_queueGroupUpdate, hassignment, groups_queueGroupUpdate]
          exact ⟨fun g' hne => Table.lookup_modify_of_ne hne _ _, fun _ _ => id, rfl⟩
        · rw [hassignment]
          exact ⟨fun g' hne => Table.lookup_modify_of_ne hne _ _, fun _ _ => id, rfl⟩

theorem PgCache.Ok.foldl_updateGroup (rev : ℕ) {gs : List ℕ} (hgs : gs.Nodup)
    (hclear : ∀ g ∈ gs, g ≠ 0 → ∀ group, cache.groups.lookup g = some group → group.flags = 0 →
      cache.Clearable g) : (gs.foldl (PgCache.updateGroup rev) cache).Ok groupid := by
  induction gs generalizing cache with
  | nil => exact hc
  | cons g gs ih =>
    obtain ⟨hnot, hgs⟩ := List.nodup_cons.mp hgs
    obtain ⟨hlookup, hgroupOf, hheld⟩ := updateGroup_frame hc rev g
    refine ih (hc.updateGroup rev g (hclear g List.mem_cons_self)) hgs ?_
    intro g' hmem hne group hg' hflags p hp
    rw [hheld]
    rw [hlookup g' fun heq => hnot (heq ▸ hmem)] at hg'
    exact hclear g' (List.mem_cons_of_mem g hmem) hne group hg' hflags p (hgroupOf p g' hp)

theorem PgCache.Ok.updateGroups (hguard : cache.GroupsOk config) :
    (cache.updateGroups config).1.Ok groupid := by
  unfold PgCache.updateGroups
  cases hf : cache.fetchProxyGroups config with
  | none => exact hc
  | some fetched =>
    have hrev : cache.groupRevision < config.groupRevision := by
      obtain ⟨hnot, -⟩ := ite_none_left_eq_some.mp hf
      exact Nat.lt_of_not_le hnot
    have hproxies := proxies_fetchProxyGroups hf
    refine (hc.fetchProxyGroups hf).foldl_updateGroup _ fetched.groups.nodupKeys ?_
    rintro g - hne group hg hflags p hp h hheld
    have hnot : ∀ dcGroup ∈ config.groups, dcGroup.proxyGroupid ≠ g := by
      obtain ⟨-, ⟨⟩⟩ := ite_none_left_eq_some.mp hf
      exact notMem_of_flags hg hflags
    simp only [assignment, hproxies] at hp hheld
    obtain ⟨proxy, hproxy, hgroup⟩ := bind_eq_some_iff.mp hp
    have hgroupOf : cache.assignment.groupOf p = some g := hp
    obtain ⟨old, hold⟩ := hc.lookup_group hgroupOf
    have hmem : p ∈ old.proxies := (assignment_lists hold p).mp ((hc.valid.group g p).mpr hgroupOf)
    have hhosts := hguard hrev g ?_ hne hnot old hold p hmem proxy hproxy
    · rw [hproxy, elim_some, hhosts] at hheld
      cases hheld
    · exact AList.mem_keys.mp (AList.lookup_isSome.mp (isSome_iff_exists.mpr ⟨old, hold⟩))

omit hc

theorem assignment_addProxy (hp : cache.proxies.lookup p = none) (hgroup : proxy.group = none)
    (hhosts : proxy.hosts = []) :
    ({ cache with proxies := cache.proxies.insert p proxy } : PgCache).assignment =
      cache.assignment.addProxy p := by
  ext
  all_goals simp only [assignment, Table.lookup_insert_eq, Assignment.addProxy]
  case isProxy p' => by_cases heq : p' = p <;> simp [heq]
  case groupOf p' g' =>
    by_cases heq : p' = p
    · subst heq
      simp [hp, hgroup]
    · simp [heq]
  case held p' h' =>
    by_cases heq : p' = p
    · subst heq
      simp [hp, hhosts]
    · simp [heq]

theorem PgCache.Ok.addProxy (hc : cache.Ok groupid) (hp : cache.proxies.lookup p = none)
    (hne : p ≠ 0) (hgroup : proxy.group = none) (hhosts : proxy.hosts = []) :
    ({ cache with proxies := cache.proxies.insert p proxy } : PgCache).Ok groupid := by
  have hassignment := assignment_addProxy hp hgroup hhosts
  refine ⟨⟨?_, ⟨hc.nodups.proxies, hc.nodups.hostids, hc.nodups.unassigned, fun p' => ?_⟩, ?_,
    hc.queue_nodup⟩, ?_⟩
  · rw [hassignment]
    exact hc.valid.addProxy hne
  · simp only [Table.lookup_insert_eq]
    split
    · rw [elim_some, hhosts]
      exact List.nodup_nil
    · exact hc.nodups.hosts p'
  · rw [hassignment]
    exact hc.queued
  · rw [hassignment]
    exact hc.settled

variable {state : PgCache × List (ℕ × ℕ)}

theorem PgCache.Ok.fetchProxy (hc : state.1.Ok groupid) (dcProxy : DcProxy) :
    (PgCache.fetchProxy state dcProxy).1.Ok groupid := by
  unfold PgCache.fetchProxy
  dsimp only
  split
  · exact hc
  · cases hp : state.1.proxies.lookup dcProxy.proxyid with
    | none => exact hc.addProxy hp dcProxy.proxyid_ne rfl rfl
    | some proxy => exact hc.modifyProxy_of (fun _ => rfl) fun _ => rfl

structure Fetched (cache cache' : PgCache) : Prop where
  groups : cache'.groups = cache.groups
  hostmap : cache'.hostmap = cache.hostmap
  hostmapUpdates : cache'.hostmapUpdates = cache.hostmapUpdates
  proxyRevision : cache'.proxyRevision = cache.proxyRevision

theorem fetched_fetchProxy (state : PgCache × List (ℕ × ℕ)) (dcProxy : DcProxy) :
    Fetched state.1 (PgCache.fetchProxy state dcProxy).1 := by
  unfold PgCache.fetchProxy
  dsimp only
  split
  · exact ⟨rfl, rfl, rfl, rfl⟩
  · cases state.1.proxies.lookup dcProxy.proxyid with
    | none | some proxy => exact ⟨rfl, rfl, rfl, rfl⟩

theorem lookup_fetchProxy_of_ne (hne : p ≠ dcProxy.proxyid) :
    (PgCache.fetchProxy state dcProxy).1.proxies.lookup p = state.1.proxies.lookup p := by
  unfold PgCache.fetchProxy
  dsimp only
  split
  · rfl
  · cases state.1.proxies.lookup dcProxy.proxyid with
    | none => exact AList.lookup_insert_ne hne
    | some proxy => exact Table.lookup_modify_of_ne hne _ _

theorem lookup_fetchProxy
    (hp : (PgCache.fetchProxy state dcProxy).1.proxies.lookup dcProxy.proxyid = some proxy)
    (hrev : proxy.revision ≠ state.1.proxyRevision) :
    state.1.proxies.lookup dcProxy.proxyid = some proxy ∧ dcProxy.proxyGroupid ≠ 0 ∧
      state.1.groups.lookup dcProxy.proxyGroupid = none := by
  unfold PgCache.fetchProxy at hp
  dsimp only at hp
  split at hp
  · next hskip => exact ⟨hp, hskip⟩
  · refine absurd ?_ hrev
    cases hlookup : state.1.proxies.lookup dcProxy.proxyid with
    | none =>
      simp only [hlookup, AList.lookup_insert, Option.some.injEq] at hp
      exact hp ▸ rfl
    | some old =>
      simp only [hlookup, modifyProxy, Table.lookup_modify_self, map_some, Option.some.injEq] at hp
      exact hp ▸ rfl

theorem foldl_fetchProxy (dcProxies : List DcProxy) (hc : cache.Ok groupid) :
    (dcProxies.foldl PgCache.fetchProxy (cache, [])).1.Ok groupid ∧
    Fetched cache (dcProxies.foldl PgCache.fetchProxy (cache, [])).1 ∧
    ∀ p proxy, (dcProxies.foldl PgCache.fetchProxy (cache, [])).1.proxies.lookup p = some proxy →
      proxy.revision ≠ cache.proxyRevision → cache.proxies.lookup p = some proxy ∧
        ∀ dcProxy ∈ dcProxies, dcProxy.proxyid = p →
          dcProxy.proxyGroupid ≠ 0 ∧ cache.groups.lookup dcProxy.proxyGroupid = none := by
  induction dcProxies using List.reverseRecOn with
  | nil => exact ⟨hc, ⟨rfl, rfl, rfl, rfl⟩, fun p proxy hp _ => ⟨hp, nofun⟩⟩
  | append_singleton dcProxies last ih =>
    rw [List.foldl_concat]
    obtain ⟨hok, hfetched, hlookup⟩ := ih
    have hframe := fetched_fetchProxy (dcProxies.foldl PgCache.fetchProxy (cache, [])) last
    refine ⟨hok.fetchProxy last, ⟨hframe.groups.trans hfetched.groups,
      hframe.hostmap.trans hfetched.hostmap, hframe.hostmapUpdates.trans hfetched.hostmapUpdates,
      hframe.proxyRevision.trans hfetched.proxyRevision⟩, fun p proxy hp hrev => ?_⟩
    by_cases heq : p = last.proxyid
    · subst heq
      obtain ⟨hold, hgroup, hnone⟩ := lookup_fetchProxy hp (hfetched.proxyRevision.symm ▸ hrev)
      obtain ⟨hcache, hall⟩ := hlookup last.proxyid proxy hold hrev
      refine ⟨hcache, fun dcProxy hmem hid => ?_⟩
      obtain hmem | hmem := List.mem_append.mp hmem
      · exact hall dcProxy hmem hid
      · rw [List.mem_singleton.mp hmem]
        exact ⟨hgroup, hfetched.groups ▸ hnone⟩
    · rw [lookup_fetchProxy_of_ne heq] at hp
      obtain ⟨hcache, hall⟩ := hlookup p proxy hp hrev
      refine ⟨hcache, fun dcProxy hmem hid => ?_⟩
      obtain hmem | hmem := List.mem_append.mp hmem
      · exact hall dcProxy hmem hid
      · rw [List.mem_singleton.mp hmem] at hid
        exact absurd hid.symm heq

theorem assignment_removeProxy (hgroup : cache.assignment.groupOf p = none)
    (hheld : ∀ h, ¬ cache.assignment.held p h) :
    ({ cache with proxies := cache.proxies.erase p } : PgCache).assignment =
      cache.assignment.removeProxy p := by
  simp only [assignment] at hgroup hheld
  ext
  all_goals simp only [assignment, Table.lookup_erase_eq, Assignment.removeProxy]
  case isProxy p' => by_cases heq : p' = p <;> simp [heq]
  case groupOf p' g' =>
    by_cases heq : p' = p
    · subst heq
      simp [hgroup]
    · simp [heq]
  case held p' h' =>
    by_cases heq : p' = p
    · subst heq
      simp [hheld]
    · simp [heq]

theorem PgCache.Ok.removeProxy (hc : cache.Ok groupid) (hgroup : cache.assignment.groupOf p = none)
    (hquiet : cache.Quiet p) :
    ({ cache with proxies := cache.proxies.erase p } : PgCache).Ok groupid := by
  have hheld : ∀ h, ¬ cache.assignment.held p h := by
    intro h hh
    obtain ⟨g, hg, -⟩ := hc.valid.held_group p h hh
    exact nomatch hgroup.symm.trans hg
  have hassignment := assignment_removeProxy hgroup hheld
  refine ⟨⟨?_, ⟨hc.nodups.proxies, hc.nodups.hostids, hc.nodups.unassigned, fun p' => ?_⟩, ?_,
    hc.queue_nodup⟩, ?_⟩
  · rw [hassignment]
    refine hc.valid.removeProxy hgroup (fun h hmapped => ?_) fun h hnext => ?_
    · obtain hh | ⟨p', hnext⟩ := hc.valid.mapped_held h p hmapped
      · exact hheld h hh
      · exact hquiet h hmapped p' hnext
    · by_contra hne
      exact hheld h (hc.settled h p hnext hne)
  · simp only [Table.lookup_erase_eq]
    split
    · exact List.nodup_nil
    · exact hc.nodups.hosts p'
  · rw [hassignment]
    exact hc.queued
  · rw [hassignment]
    exact hc.settled

theorem PgCache.Ok.updateProxy (hc : cache.Ok groupid) (hquiet : ∀ proxy,
    cache.proxies.lookup p = some proxy → proxy.revision ≠ cache.proxyRevision → cache.Quiet p) :
    (cache.updateProxy p).Ok groupid := by
  unfold PgCache.updateProxy
  cases hp : cache.proxies.lookup p with
  | none => exact hc
  | some proxy =>
    dsimp only
    split
    · exact hc
    · next hrev =>
      have hq := hquiet proxy hp hrev
      obtain ⟨hnext, -, hmapped⟩ := groupRemoveProxy_deleted cache p
      refine (hc.groupRemoveProxy .deletedProxy fun _ => hq).removeProxy ?_ ?_
      · cases hlookup : (cache.groupRemoveProxy p .deletedProxy).proxies.lookup p with
        | none => simp only [assignment, hlookup, bind_none]
        | some proxy' =>
          rw [assignment_groupOf hlookup]
          exact groupRemoveProxy_lookup .deletedProxy hlookup
      · intro h hh p' hp'
        rw [hnext] at hp'
        exact hq h (hmapped h p hh) p' hp'

theorem updateProxy_frame (cache : PgCache) (p : ℕ) :
    (cache.updateProxy p).proxyRevision = cache.proxyRevision ∧
    (∀ p' proxy', (cache.updateProxy p).proxies.lookup p' = some proxy' →
      ∃ proxy, cache.proxies.lookup p' = some proxy ∧ proxy.revision = proxy'.revision) ∧
    ∀ p', cache.Quiet p' → (cache.updateProxy p).Quiet p' := by
  unfold PgCache.updateProxy
  cases hp : cache.proxies.lookup p with
  | none => exact ⟨rfl, fun p' proxy' hp' => ⟨proxy', hp', rfl⟩, fun _ => id⟩
  | some proxy =>
    dsimp only
    split
    · exact ⟨rfl, fun p' proxy' hp' => ⟨proxy', hp', rfl⟩, fun _ => id⟩
    · obtain ⟨hnext, hrev, hmapped⟩ := groupRemoveProxy_deleted cache p
      refine ⟨hrev, fun p' proxy' hp' => ?_, fun p' hq h hh p'' hpnext => ?_⟩
      · rw [Table.lookup_erase_eq] at hp'
        split at hp'
        · cases hp'
        · have hmap := groupRemoveProxy_revision cache p p' .deletedProxy
          rw [hp'] at hmap
          exact map_eq_some_iff.mp hmap.symm
      · have hold : cache.next h p'' := hnext ▸ hpnext
        exact hq h (hmapped h p' hh) p'' hold

theorem PgCache.Ok.foldl_updateProxy (hc : cache.Ok groupid) (ps : List ℕ) (hquiet : ∀ p proxy,
    cache.proxies.lookup p = some proxy → proxy.revision ≠ cache.proxyRevision → cache.Quiet p) :
    (ps.foldl PgCache.updateProxy cache).Ok groupid := by
  induction ps generalizing cache with
  | nil => exact hc
  | cons p ps ih =>
    obtain ⟨hrev, hlookup, hq⟩ := updateProxy_frame cache p
    refine ih (hc.updateProxy (hquiet p)) fun p' proxy' hp' hne => ?_
    obtain ⟨proxy, hproxy, heq⟩ := hlookup p' proxy' hp'
    rw [hrev, ← heq] at hne
    exact hq p' (hquiet p' proxy hproxy hne)

theorem assignment_joinGroup (hp : cache.proxies.lookup p = some proxy)
    (hg : cache.groups.lookup g = some group) :
    (cache.joinGroup g p).assignment = cache.assignment.join g p := by
  ext
  all_goals simp only [assignment, joinGroup, modifyGroup, modifyProxy, Table.elim_modify,
    Table.isSome_modify, Table.bind_modify, Assignment.join, Function.update_apply, ite_self]
  case lists g' p' =>
    by_cases heq : g' = g
    · subst heq
      simp [hg, or_comm]
    · simp [heq]
  case groupOf p' g' =>
    by_cases heq : p' = p
    · subst heq
      simp [hp]
    · simp [heq]

theorem PgCache.Ok.joinGroup (hc : cache.Ok groupid) (hp : cache.proxies.lookup p = some proxy)
    (hgroup : proxy.group = none) (hg : cache.groups.lookup g = some group) :
    (cache.joinGroup g p).Ok groupid := by
  have hassignment := assignment_joinGroup hp hg
  have hgroupOf : cache.assignment.groupOf p = none := (assignment_groupOf hp).trans hgroup
  have hisGroup : cache.assignment.isGroup g := isSome_iff_exists.mpr ⟨group, hg⟩
  refine ⟨⟨?_, ⟨fun g' => ?_, ?_, ?_, ?_⟩, ?_, hc.queue_nodup⟩, ?_⟩
  · rw [hassignment]
    exact hc.valid.join hgroupOf hisGroup (isSome_iff_exists.mpr ⟨proxy, hp⟩)
  · have hold := hc.nodups.proxies g'
    simp only [PgCache.joinGroup, modifyGroup, modifyProxy, Table.elim_modify]
    split
    · next heq =>
      subst heq
      rw [hg, elim_some] at hold ⊢
      refine hold.append (List.nodup_singleton p) (List.disjoint_singleton.mpr fun hmem => ?_)
      have hlists := (hc.valid.group g' p).mp ((assignment_lists hg p).mpr hmem)
      cases hgroupOf.symm.trans hlists
    · exact hold
  · simpa only [PgCache.joinGroup, modifyGroup, modifyProxy, Table.elim_modify, ite_self]
      using hc.nodups.hostids
  · simpa only [PgCache.joinGroup, modifyGroup, modifyProxy, Table.elim_modify, ite_self]
      using hc.nodups.unassigned
  · simpa only [PgCache.joinGroup, modifyGroup, modifyProxy, Table.elim_modify, ite_self]
      using hc.nodups.hosts
  · rw [hassignment]
    exact hc.queued
  · rw [hassignment]
    exact hc.settled

theorem PgCache.Ok.relocateProxy (hc : cache.Ok groupid) (reloc : ℕ × ℕ) :
    (cache.relocateProxy reloc).Ok groupid := by
  unfold PgCache.relocateProxy
  cases hp : cache.proxies.lookup reloc.1 with
  | none => exact hc
  | some proxy =>
    dsimp only
    have hremoved := hc.groupRemoveProxy (p := reloc.1) .reassignedProxy nofun
    split
    · exact hremoved
    · next group hg =>
      have hsome := groupRemoveProxy_isSome cache reloc.1 reloc.1 .reassignedProxy
      rw [hp, isSome_some] at hsome
      obtain ⟨proxy', hp'⟩ := isSome_iff_exists.mp hsome
      refine (hremoved.joinGroup hp' (groupRemoveProxy_lookup .reassignedProxy hp')
        hg).queueGroupUpdate ?_
      simp only [PgCache.joinGroup, modifyGroup, modifyProxy, Table.isSome_modify, hg]
      rfl

theorem PgCache.Ok.updateProxies (hc : cache.Ok groupid) (force : Bool)
    (hquiet : ∀ p proxy, cache.proxies.lookup p = some proxy →
      (if force = false ∧ config.proxyRevision ≤ cache.proxyRevision then
        proxy.revision ≠ cache.proxyRevision
      else ¬ config.Lists cache p ∧ proxy.revision ≠ config.proxyRevision) → cache.Quiet p) :
    (cache.updateProxies config force).Ok groupid := by
  unfold PgCache.updateProxies PgCache.fetchProxies
  split at hquiet
  · next hskip =>
    rw [if_pos hskip]
    exact Table.foldl_preserves (I := fun c : PgCache => c.Ok groupid)
      (fun _ reloc _ hc => hc.relocateProxy reloc) (hc.foldl_updateProxy _ hquiet)
  · next hskip =>
    rw [if_neg hskip]
    have hc' : PgCache.Ok { cache with proxyRevision := config.proxyRevision } groupid :=
      hc.congr rfl rfl rfl rfl rfl
    obtain ⟨hok, hfetched, hlookup⟩ := foldl_fetchProxy config.proxies hc'
    refine Table.foldl_preserves (I := fun c : PgCache => c.Ok groupid)
      (fun _ reloc _ hc => hc.relocateProxy reloc) (hok.foldl_updateProxy _ fun p proxy hp hrev => ?_)
    rw [hfetched.proxyRevision] at hrev
    obtain ⟨hold, hnot⟩ := hlookup p proxy hp hrev
    have hlists : ¬ config.Lists cache p := by
      rintro ⟨dcProxy, hmem, hid, hzero | hsome⟩
      · exact (hnot dcProxy hmem hid).1 hzero
      · rw [(hnot dcProxy hmem hid).2] at hsome
        exact nomatch hsome
    have hq := hquiet p proxy hold ⟨hlists, hrev⟩
    intro h hmapped p' hnext
    refine hq h ?_ p' ?_
    · simpa only [assignment, hfetched.hostmap] using hmapped
    · simpa only [PgCache.next, hfetched.hostmapUpdates] using hnext

theorem PgCache.Ok.updateProxyStateOf (now failoverDelay : ℤ) (g : ℕ) {state : PgCache × Bool}
    (hc : state.1.Ok groupid) (p : ℕ) :
    (PgCache.updateProxyStateOf now failoverDelay g state p).1.Ok groupid := by
  unfold PgCache.updateProxyStateOf
  cases state.1.proxies.lookup p with
  | none => exact hc
  | some proxy =>
    dsimp only
    have hmodify := hc.modifyProxy_of (p := p) (f := fun P => { P with
        firstaccess := (proxyState state.1.startupTime now failoverDelay g proxy).2 })
      (fun _ => rfl) fun _ => rfl
    split
    · exact hmodify
    · split
      · exact hmodify
      · exact hmodify.modifyProxy_of (fun _ => rfl) fun _ => rfl

theorem groups_updateProxyStateOf (now failoverDelay : ℤ) (g : ℕ) (state : PgCache × Bool) (p : ℕ) :
    (PgCache.updateProxyStateOf now failoverDelay g state p).1.groups = state.1.groups := by
  unfold PgCache.updateProxyStateOf
  cases state.1.proxies.lookup p with
  | none => rfl
  | some proxy =>
    dsimp only
    split
    · rfl
    · split <;> rfl

variable (hc : cache.Ok groupid)

include hc

theorem PgCache.Ok.updateProxyState (now : ℤ) (failoverDelay : ℕ → ℤ) :
    (cache.updateProxyState now failoverDelay).Ok groupid := by
  refine Table.foldl_preserves (I := fun c : PgCache => c.Ok groupid) (fun c g _ hc => ?_) hc
  unfold PgCache.updateProxyStateIn
  cases hg : c.groups.lookup g with
  | none => exact hc
  | some group =>
    have hfold := Table.foldl_preserves (l := group.proxies)
      (f := PgCache.updateProxyStateOf now (failoverDelay g) g)
      (I := fun state : PgCache × Bool => state.1.Ok groupid ∧ state.1.groups = c.groups)
      (fun state p _ hstate => ⟨hstate.1.updateProxyStateOf now (failoverDelay g) g p,
        (groups_updateProxyStateOf now (failoverDelay g) g state p).trans hstate.2⟩)
      (s := (c, false)) ⟨hc, rfl⟩
    dsimp only
    split
    · refine hfold.1.queueGroupUpdate ?_
      rw [hfold.2, hg]
      rfl
    · exact hfold.1

theorem PgCache.Ok.clearOfflineProxy (hg : cache.assignment.groupOf p = some g) :
    (cache.clearOfflineProxy g p).Ok groupid ∧
      (cache.clearOfflineProxy g p).assignment.groupOf = cache.assignment.groupOf := by
  unfold PgCache.clearOfflineProxy
  cases hp : cache.proxies.lookup p with
  | none => exact ⟨hc, rfl⟩
  | some proxy =>
    dsimp only
    split
    · exact ⟨hc, rfl⟩
    · obtain ⟨group, hgroup⟩ := hc.lookup_group hg
      refine ⟨hc.release hp ((assignment_groupOf hp).symm.trans hg), ?_⟩
      have hassignment : ((cache.unsetHosts proxy.hosts).releaseHosts g p proxy.hosts).assignment =
          cache.assignment.release g p := assignment_releaseHosts hp hgroup
      rw [hassignment]
      rfl

theorem PgCache.Ok.clearOfflineProxies (g : ℕ) : (cache.clearOfflineProxies g).Ok groupid := by
  unfold PgCache.clearOfflineProxies
  cases hg : cache.groups.lookup g with
  | none => exact hc
  | some group =>
    refine (Table.foldl_preserves (I := fun c : PgCache => c.Ok groupid ∧
      c.assignment.groupOf = cache.assignment.groupOf) (fun c p hmem hc' => ?_) ⟨hc, rfl⟩).1
    have hgroup : c.assignment.groupOf p = some g := by
      rw [hc'.2]
      exact (hc.valid.group g p).mp ((assignment_lists hg p).mpr hmem)
    obtain ⟨hok, heq⟩ := hc'.1.clearOfflineProxy hgroup
    exact ⟨hok, heq.trans hc'.2⟩

theorem PgCache.Ok.updateGroupState (now : ℤ) (failoverDelay minOnline : ℕ → ℤ) :
    (cache.updateGroupState now failoverDelay minOnline).Ok groupid := by
  refine Table.foldl_preserves (I := fun c : PgCache => c.Ok groupid) (fun c g _ hc => ?_) hc
  unfold PgCache.updateGroupStateOf
  cases hg : c.groups.lookup g with
  | none => exact hc
  | some group =>
    dsimp only
    split
    · exact hc
    · generalize groupState now (failoverDelay g) (minOnlineOf (minOnline g)) group
        (c.countProxies now (failoverDelay g) group) = new
      have htime : (c.modifyGroup g fun G => { G with stateTime := new.2 }).Ok groupid :=
        hc.modifyGroup_of (fun _ => rfl) (fun _ => rfl) fun _ => rfl
      have hstate : ((c.modifyGroup g fun G => { G with stateTime := new.2 }).modifyGroup g fun G =>
          { G with
            state := new.1
            stateTime := now
            flags := G.flags ||| 1 }).Ok groupid :=
        htime.modifyGroup_of (fun _ => rfl) (fun _ => rfl) fun _ => rfl
      by_cases hold : new.1 = group.state
      · simp only [if_pos hold]
        split
        · exact htime.clearOfflineProxies g
        · exact htime
      · simp only [if_neg hold]
        by_cases honline : new.1 = .online
        · simp only [if_pos honline]
          refine (hstate.queueGroupUpdate ?_).clearOfflineProxies g
          simp only [modifyGroup, Table.isSome_modify, hg]
          rfl
        · simp only [if_neg honline]
          exact hstate

omit hc

structure SameProxies (cache cache' : PgCache) : Prop where
  hostmap : cache'.hostmap = cache.hostmap
  hostmapUpdates : cache'.hostmapUpdates = cache.hostmapUpdates
  proxyRevision : cache'.proxyRevision = cache.proxyRevision
  revision : ∀ p, (cache'.proxies.lookup p).map PgProxy.revision =
    (cache.proxies.lookup p).map PgProxy.revision

variable {a b : PgCache}

theorem SameProxies.trans {c : PgCache} (hab : SameProxies a b) (hbc : SameProxies b c) :
    SameProxies a c :=
  ⟨hbc.hostmap.trans hab.hostmap, hbc.hostmapUpdates.trans hab.hostmapUpdates,
    hbc.proxyRevision.trans hab.proxyRevision, fun p => (hbc.revision p).trans (hab.revision p)⟩

theorem SameProxies.queueGroupUpdate (h : SameProxies a b) (g : ℕ) :
    SameProxies a (b.queueGroupUpdate g) := by
  unfold PgCache.queueGroupUpdate
  split
  · exact h
  · exact ⟨h.hostmap, h.hostmapUpdates, h.proxyRevision, h.revision⟩

theorem sameProxies_updateGroup (cache : PgCache) (rev g : ℕ) :
    SameProxies cache (cache.updateGroup rev g) := by
  unfold PgCache.updateGroup
  cases cache.groups.lookup g with
  | none => exact ⟨rfl, rfl, rfl, fun _ => rfl⟩
  | some group =>
    dsimp only
    split
    · exact ⟨rfl, rfl, rfl, fun _ => rfl⟩
    · split
      · unfold PgCache.groupClear
        cases (cache.removeGroupUpdate g).groups.lookup g with
        | none => exact ⟨rfl, rfl, rfl, fun _ => rfl⟩
        | some group =>
          obtain ⟨proxies, hfold, hlookup⟩ :=
            foldl_modifyProxy (cache.removeGroupUpdate g) group.proxies
              (f := fun proxy => { proxy with group := none }) fun _ => rfl
          dsimp only
          rw [hfold]
          refine ⟨rfl, rfl, rfl, fun p => ?_⟩
          rw [hlookup]
          split
          · rw [map_map]
            rfl
          · rfl
      · have hmodify : SameProxies cache (cache.modifyGroup g fun G => { G with flags := 0 }) :=
          ⟨rfl, rfl, rfl, fun _ => rfl⟩
        split
        · exact hmodify.queueGroupUpdate g
        · exact hmodify

theorem sameProxies_updateGroups (cache : PgCache) (config : Config) :
    SameProxies cache (cache.updateGroups config).1 := by
  unfold PgCache.updateGroups
  cases hf : cache.fetchProxyGroups config with
  | none => exact ⟨rfl, rfl, rfl, fun _ => rfl⟩
  | some fetched =>
    have hfetched : SameProxies cache fetched := by
      obtain ⟨-, ⟨⟩⟩ := ite_none_left_eq_some.mp hf
      refine Table.foldl_preserves (I := fun c : PgCache => SameProxies cache c)
        (fun c dcGroup _ hc => hc.trans ?_) ?_
      · unfold PgCache.fetchProxyGroup
        cases c.groups.lookup dcGroup.proxyGroupid <;> exact ⟨rfl, rfl, rfl, fun _ => rfl⟩
      · have hreset : SameProxies cache cache.resetGroupFlags := by
          unfold PgCache.resetGroupFlags
          refine Table.foldl_preserves (I := fun c : PgCache => SameProxies cache c)
            (fun c g _ hc => hc.trans ?_) ⟨rfl, rfl, rfl, fun _ => rfl⟩
          exact ⟨rfl, rfl, rfl, fun _ => rfl⟩
        exact hreset.trans ⟨rfl, rfl, rfl, fun _ => rfl⟩
    exact Table.foldl_preserves (I := fun c : PgCache => SameProxies cache c)
      (fun c g _ hc => hc.trans (sameProxies_updateGroup c _ g)) hfetched

theorem updateGroups_fetched (cache : PgCache) (config : Config) :
    (cache.updateGroups config).2 = true ↔ cache.groupRevision < config.groupRevision := by
  unfold PgCache.updateGroups PgCache.fetchProxyGroups
  split
  · next h =>
    split at h
    · next hle => exact ⟨nofun, fun hlt => absurd hle (Nat.not_le_of_lt hlt)⟩
    · cases h
  · next h =>
    split at h
    · cases h
    · next hnot => exact ⟨fun _ => Nat.lt_of_not_le hnot, fun _ => rfl⟩

theorem PgCache.Ok.pgmUpdate (hc : cache.Ok groupid) (hgroups : cache.GroupsOk config)
    (hproxies : cache.ProxiesOk config) (now : ℤ) (failoverDelay minOnline : ℕ → ℤ) :
    (cache.pgmUpdate config now failoverDelay minOnline).Ok groupid := by
  have hsame := sameProxies_updateGroups cache config
  have hok := hc.updateGroups hgroups
  have hfetched := updateGroups_fetched cache config
  refine ((hok.updateProxies (cache.updateGroups config).2
    fun p proxy hp hdeleted => ?_).updateProxyState now failoverDelay).updateGroupState now
      failoverDelay minOnline
  have hrev := hsame.revision p
  rw [hp] at hrev
  obtain ⟨old, hold, heq⟩ := map_eq_some_iff.mp hrev.symm
  have hdeletes : cache.Deletes config p old := by
    split at hdeleted
    · next hskip =>
      rw [hsame.proxyRevision] at hskip hdeleted
      refine .inr ⟨?_, heq ▸ hdeleted⟩
      rintro (hlt | hlt)
      · exact nomatch hskip.1.symm.trans (hfetched.mpr hlt)
      · exact absurd hskip.2 (Nat.not_le_of_lt hlt)
    · next hskip =>
      rw [hsame.proxyRevision] at hskip
      refine .inl ⟨?_, hdeleted.1, heq ▸ hdeleted.2⟩
      by_contra hnot
      refine hskip ⟨?_, Nat.le_of_not_lt fun hlt => hnot (.inr hlt)⟩
      exact Bool.eq_false_iff.mpr fun htrue => hnot (.inl (hfetched.mp htrue))
  intro h hmapped p' hnext
  have hmapped' : cache.assignment.mapped h = some p := by
    simpa only [assignment, hsame.hostmap] using hmapped
  have hnext' : cache.hostmapUpdates.lookup h = some p' := by
    simpa only [PgCache.next, hsame.hostmapUpdates] using hnext
  obtain ⟨host, hhost, heq'⟩ := map_eq_some_iff.mp hmapped'
  refine hproxies p ?_ old hold hdeletes h ?_ host hhost heq'
  · exact AList.mem_keys.mp (AList.lookup_isSome.mp (isSome_iff_exists.mpr ⟨old, hold⟩))
  · exact AList.mem_keys.mp (AList.lookup_isSome.mp (isSome_iff_exists.mpr ⟨p', hnext'⟩))

end Zabbix.ProxyGroup
