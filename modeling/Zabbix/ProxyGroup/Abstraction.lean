import Zabbix.ProxyGroup.Assignment
import Zabbix.ProxyGroup.Manager

/-!
# The assignment in the cache

The cache is read as an assignment of hosts to proxies.
-/

namespace Zabbix.ProxyGroup

open List Option PgCache Zabbix.Vector

variable {f : PgGroup → PgGroup}

def PgCache.assignment (cache : PgCache) : Assignment where
  isGroup g := (cache.groups.lookup g).isSome
  isProxy p := (cache.proxies.lookup p).isSome
  groupOf p := (cache.proxies.lookup p).bind PgProxy.group
  lists g p := p ∈ (cache.groups.lookup g).elim [] PgGroup.proxies
  hosts g h := h ∈ (cache.groups.lookup g).elim [] PgGroup.hostids
  free g h := h ∈ (cache.groups.lookup g).elim [] PgGroup.unassignedHostids
  held p h := h ∈ (cache.proxies.lookup p).elim [] PgProxy.hosts
  mapped h := (cache.hostmap.lookup h).map PgHost.proxyid

def PgCache.next (cache : PgCache) : ℕ → ℕ → Prop :=
  fun h p => cache.hostmapUpdates.lookup h = some p

structure PgCache.Nodups (cache : PgCache) : Prop where
  proxies : ∀ g, ((cache.groups.lookup g).elim [] PgGroup.proxies).Nodup
  hostids : ∀ g, ((cache.groups.lookup g).elim [] PgGroup.hostids).Nodup
  unassigned : ∀ g, ((cache.groups.lookup g).elim [] PgGroup.unassignedHostids).Nodup
  hosts : ∀ p, ((cache.proxies.lookup p).elim [] PgProxy.hosts).Nodup

structure PgCache.OkWith (cache : PgCache) (next : ℕ → ℕ → Prop) (groupid : ℕ → Option ℕ) : Prop where
  valid : cache.assignment.Valid next groupid
  nodups : cache.Nodups
  queued : ∀ g ∈ cache.groupUpdates, cache.assignment.isGroup g
  queue_nodup : cache.groupUpdates.Nodup

structure PgCache.Ok (cache : PgCache) (groupid : ℕ → Option ℕ) : Prop
    extends cache.OkWith cache.next groupid where
  settled : cache.assignment.Settled cache.next

variable {cache : PgCache} {next : ℕ → ℕ → Prop} {groupid : ℕ → Option ℕ} {g p h : ℕ} {group : PgGroup}
  {proxy : PgProxy}

variable {cache' : PgCache}

theorem PgCache.OkWith.congr (hc : cache.OkWith next groupid)
    (hgroups : cache'.groups = cache.groups) (hqueued : cache'.groupUpdates = cache.groupUpdates)
    (hmap : cache'.hostmap = cache.hostmap) (hproxies : cache'.proxies = cache.proxies) :
    cache'.OkWith next groupid := by
  have hassignment : cache'.assignment = cache.assignment := by
    simp only [assignment, hgroups, hmap, hproxies]
  refine ⟨?_, ⟨?_, ?_, ?_, ?_⟩, ?_, ?_⟩
  · rw [hassignment]
    exact hc.valid
  · rw [hgroups]
    exact hc.nodups.proxies
  · rw [hgroups]
    exact hc.nodups.hostids
  · rw [hgroups]
    exact hc.nodups.unassigned
  · rw [hproxies]
    exact hc.nodups.hosts
  · rw [hassignment, hqueued]
    exact hc.queued
  · rw [hqueued]
    exact hc.queue_nodup

theorem PgCache.Ok.congr (hc : cache.Ok groupid) (hgroups : cache'.groups = cache.groups)
    (hqueued : cache'.groupUpdates = cache.groupUpdates) (hmap : cache'.hostmap = cache.hostmap)
    (hnext : cache'.hostmapUpdates = cache.hostmapUpdates)
    (hproxies : cache'.proxies = cache.proxies) : cache'.Ok groupid := by
  have hassignment : cache'.assignment = cache.assignment := by
    simp only [assignment, hgroups, hmap, hproxies]
  have hnext' : cache'.next = cache.next := by
    unfold PgCache.next
    rw [hnext]
  refine ⟨?_, ?_⟩
  · rw [hnext']
    exact hc.toOkWith.congr hgroups hqueued hmap hproxies
  · rw [hassignment, hnext']
    exact hc.settled

theorem assignment_modifyGroup_of (hproxies : ∀ G, (f G).proxies = G.proxies)
    (hhostids : ∀ G, (f G).hostids = G.hostids)
    (hfree : ∀ G, (f G).unassignedHostids = G.unassignedHostids) :
    (cache.modifyGroup g f).assignment = cache.assignment := by
  ext
  all_goals simp only [assignment, modifyGroup, Table.elim_modify, Table.isSome_modify, hproxies,
    hhostids, hfree, ite_self]

theorem assignment_modifyProxy_of {f : PgProxy → PgProxy} (hgroup : ∀ P, (f P).group = P.group)
    (hhosts : ∀ P, (f P).hosts = P.hosts) :
    (cache.modifyProxy p f).assignment = cache.assignment := by
  ext
  all_goals simp only [assignment, modifyProxy, Table.elim_modify, Table.isSome_modify,
    Table.bind_modify, hgroup, hhosts, ite_self]

theorem PgCache.OkWith.modifyGroup_of (hc : cache.OkWith next groupid)
    (hproxies : ∀ G, (f G).proxies = G.proxies) (hhostids : ∀ G, (f G).hostids = G.hostids)
    (hfree : ∀ G, (f G).unassignedHostids = G.unassignedHostids) :
    (cache.modifyGroup g f).OkWith next groupid := by
  have heq : (cache.modifyGroup g f).assignment = cache.assignment :=
    assignment_modifyGroup_of hproxies hhostids hfree
  refine ⟨heq ▸ hc.valid, ⟨?_, ?_, ?_, hc.nodups.hosts⟩, ?_, hc.queue_nodup⟩
  · simpa only [modifyGroup, Table.elim_modify, hproxies, ite_self] using hc.nodups.proxies
  · simpa only [modifyGroup, Table.elim_modify, hhostids, ite_self] using hc.nodups.hostids
  · simpa only [modifyGroup, Table.elim_modify, hfree, ite_self] using hc.nodups.unassigned
  · rw [heq]
    exact hc.queued

theorem PgCache.OkWith.modifyProxy_of (hc : cache.OkWith next groupid) {f : PgProxy → PgProxy}
    (hgroup : ∀ P, (f P).group = P.group) (hhosts : ∀ P, (f P).hosts = P.hosts) :
    (cache.modifyProxy p f).OkWith next groupid := by
  have heq : (cache.modifyProxy p f).assignment = cache.assignment :=
    assignment_modifyProxy_of hgroup hhosts
  refine ⟨heq ▸ hc.valid, ⟨hc.nodups.proxies, hc.nodups.hostids, hc.nodups.unassigned, ?_⟩, ?_,
    hc.queue_nodup⟩
  · simpa only [modifyProxy, Table.elim_modify, hhosts, ite_self] using hc.nodups.hosts
  · rw [heq]
    exact hc.queued

theorem PgCache.Ok.modifyGroup_of (hc : cache.Ok groupid)
    (hproxies : ∀ G, (f G).proxies = G.proxies) (hhostids : ∀ G, (f G).hostids = G.hostids)
    (hfree : ∀ G, (f G).unassignedHostids = G.unassignedHostids) :
    (cache.modifyGroup g f).Ok groupid := by
  refine ⟨hc.toOkWith.modifyGroup_of hproxies hhostids hfree, ?_⟩
  rw [assignment_modifyGroup_of hproxies hhostids hfree]
  exact hc.settled

theorem PgCache.Ok.modifyProxy_of (hc : cache.Ok groupid) {f : PgProxy → PgProxy}
    (hgroup : ∀ P, (f P).group = P.group) (hhosts : ∀ P, (f P).hosts = P.hosts) :
    (cache.modifyProxy p f).Ok groupid := by
  refine ⟨hc.toOkWith.modifyProxy_of hgroup hhosts, ?_⟩
  rw [assignment_modifyProxy_of hgroup hhosts]
  exact hc.settled

@[simp] theorem assignment_queueGroupUpdate (cache : PgCache) (g : ℕ) :
    (cache.queueGroupUpdate g).assignment = cache.assignment := by
  unfold queueGroupUpdate
  split <;> rfl

theorem PgCache.Ok.queueGroupUpdate (hc : cache.Ok groupid)
    (hg : (cache.groups.lookup g).isSome) : (cache.queueGroupUpdate g).Ok groupid := by
  unfold PgCache.queueGroupUpdate
  split
  · exact hc
  · next hnot =>
    refine ⟨⟨hc.valid, ⟨hc.nodups.proxies, hc.nodups.hostids, hc.nodups.unassigned,
      hc.nodups.hosts⟩, fun g' hg' => ?_, ?_⟩, hc.settled⟩
    · obtain hg' | hg' := mem_append.mp hg'
      · exact hc.queued g' hg'
      · rw [mem_singleton.mp hg']
        exact hg
    · exact hc.queue_nodup.append (nodup_singleton g)
        (disjoint_singleton.mpr hnot)

theorem next_setHostProxy (cache : PgCache) (h p : ℕ) :
    (cache.setHostProxy h p).next = setNext cache.next h p := by
  funext h' p'
  simp only [PgCache.next, setHostProxy, Table.lookup_insert_eq, setNext]
  grind

theorem next_unsetHosts (cache : PgCache) (hs : List ℕ) :
    (cache.unsetHosts hs).next = clearNext cache.next (· ∈ hs) := by
  funext h' p'
  simp only [PgCache.next, unsetHosts, Table.lookup_insertAll, clearNext]
  grind

theorem assignment_releaseHosts (hp : cache.proxies.lookup p = some proxy)
    (hg : cache.groups.lookup g = some group) :
    (cache.releaseHosts g p proxy.hosts).assignment = cache.assignment.release g p := by
  ext
  all_goals simp only [assignment, releaseHosts, modifyGroup, modifyProxy, Table.elim_modify,
    Table.isSome_modify, Table.bind_modify, Assignment.release, ite_self]
  all_goals grind

theorem nodups_releaseHosts (hn : cache.Nodups) (hp : cache.proxies.lookup p = some proxy)
    (hfree : ∀ h ∈ proxy.hosts, ¬ cache.assignment.free g h) :
    (cache.releaseHosts g p proxy.hosts).Nodups := by
  refine ⟨?_, ?_, ?_, ?_⟩
  · simpa only [releaseHosts, modifyGroup, modifyProxy, Table.elim_modify, ite_self]
      using hn.proxies
  · simpa only [releaseHosts, modifyGroup, modifyProxy, Table.elim_modify, ite_self]
      using hn.hostids
  · intro g'
    simp only [releaseHosts, modifyGroup, modifyProxy, Table.elim_modify]
    have hold := hn.unassigned g'
    have hhosts := hn.hosts p
    rw [hp] at hhosts
    split
    · next heq =>
      subst heq
      simp only [assignment] at hfree
      cases hg : cache.groups.lookup g' with
      | none => exact nodup_nil
      | some group =>
        rw [hg] at hfree hold
        exact hold.append hhosts fun h hmem hmem' => hfree h hmem' hmem
    · exact hold
  · intro p'
    simp only [releaseHosts, modifyGroup, modifyProxy, Table.elim_modify]
    have hold := hn.hosts p'
    split
    · cases cache.proxies.lookup p' with
      | none => exact nodup_nil
      | some _ => exact nodup_nil
    · exact hold

theorem assignment_held (hp : cache.proxies.lookup p = some proxy) :
    cache.assignment.held p = (· ∈ proxy.hosts) := by
  funext h
  simp only [assignment, hp, elim_some]

theorem assignment_lists (hg : cache.groups.lookup g = some group) (p : ℕ) :
    cache.assignment.lists g p ↔ p ∈ group.proxies := by
  simp only [assignment, hg, elim_some]

theorem assignment_groupOf (hp : cache.proxies.lookup p = some proxy) :
    cache.assignment.groupOf p = proxy.group := by
  simp only [assignment, hp, bind_some]

theorem PgCache.OkWith.lookup_group (hc : cache.OkWith next groupid)
    (hg : cache.assignment.groupOf p = some g) : ∃ group, cache.groups.lookup g = some group :=
  isSome_iff_exists.mp (hc.valid.isGroup g p ((hc.valid.group g p).mpr hg))

theorem PgCache.Ok.release (hc : cache.Ok groupid) (hp : cache.proxies.lookup p = some proxy)
    (hg : proxy.group = some g) :
    ((cache.unsetHosts proxy.hosts).releaseHosts g p proxy.hosts).Ok groupid := by
  have hg' : cache.assignment.groupOf p = some g := (assignment_groupOf hp).trans hg
  obtain ⟨group, hgroup⟩ := hc.lookup_group hg'
  have hheld := assignment_held hp
  have hassignment : ((cache.unsetHosts proxy.hosts).releaseHosts g p proxy.hosts).assignment =
      cache.assignment.release g p := assignment_releaseHosts hp hgroup
  have hnext : ((cache.unsetHosts proxy.hosts).releaseHosts g p proxy.hosts).next =
      clearNext cache.next (cache.assignment.held p) := by
    rw [hheld]
    exact next_unsetHosts cache proxy.hosts
  refine ⟨⟨?_, nodups_releaseHosts ⟨hc.nodups.proxies, hc.nodups.hostids, hc.nodups.unassigned,
    hc.nodups.hosts⟩ hp ?_, ?_, hc.queue_nodup⟩, ?_⟩
  · rw [hassignment, hnext]
    exact hc.valid.release hg'
  · exact fun h hh => hc.valid.not_free hg' (hheld ▸ hh)
  · rw [hassignment]
    exact hc.queued
  · rw [hassignment, hnext]
    exact hc.settled.release g p

theorem assignment_unmapHosts (cache : PgCache) (hs : List ℕ) :
    (cache.unmapHosts hs).assignment = cache.assignment.unmap hs := by
  ext
  all_goals simp only [assignment, unmapHosts, Assignment.unmap, Table.lookup_eraseAll]
  grind

theorem PgCache.Ok.release_unmap (hc : cache.Ok groupid)
    (hp : cache.proxies.lookup p = some proxy) (hg : proxy.group = some g)
    (hnext : ∀ h, cache.assignment.mapped h = some p → ∀ p', ¬ cache.next h p') :
    ((cache.unmapHosts proxy.hosts).releaseHosts g p proxy.hosts).Ok groupid := by
  have hg' : cache.assignment.groupOf p = some g := (assignment_groupOf hp).trans hg
  obtain ⟨group, hgroup⟩ := hc.lookup_group hg'
  have hp' : (cache.unmapHosts proxy.hosts).proxies.lookup p = some proxy := hp
  have hgroup' : (cache.unmapHosts proxy.hosts).groups.lookup g = some group := hgroup
  have hheld := assignment_held hp
  have hassignment := assignment_releaseHosts hp' hgroup'
  rw [assignment_unmapHosts] at hassignment
  have hnext' : ((cache.unmapHosts proxy.hosts).releaseHosts g p proxy.hosts).next = cache.next :=
    rfl
  refine ⟨⟨?_, nodups_releaseHosts ⟨hc.nodups.proxies, hc.nodups.hostids, hc.nodups.unassigned,
    hc.nodups.hosts⟩ hp' ?_, ?_, hc.queue_nodup⟩, ?_⟩
  · rw [hassignment, hnext']
    exact hc.valid.release_unmap (fun h => by rw [hheld]) hg' hnext
  · exact fun h hh => hc.valid.not_free hg' (hheld ▸ hh)
  · rw [hassignment]
    exact hc.queued
  · rw [hassignment, hnext']
    exact hc.settled.release_unmap hc.valid g p proxy.hosts hnext

theorem assignment_leaveGroup (hn : cache.Nodups) (hp : cache.proxies.lookup p = some proxy)
    (hlists : ∀ g', cache.assignment.lists g' p → g' = g) :
    (cache.leaveGroup g p).assignment = cache.assignment.leave p := by
  have hproxies := hn.proxies g
  ext
  all_goals simp only [assignment, leaveGroup, modifyGroup, modifyProxy, Table.elim_modify,
    Table.isSome_modify, Table.bind_modify, Assignment.leave, Function.update_apply,
    ite_self] at hlists ⊢
  case lists g' p' =>
    by_cases hg : g' = g
    · subst hg
      rw [if_pos rfl]
      cases hgroup : cache.groups.lookup g' with
      | none => simp
      | some group =>
        rw [hgroup] at hproxies
        exact mem_removeValue hproxies
    · rw [if_neg hg]
      refine ⟨fun hmem => ⟨?_, hmem⟩, And.right⟩
      rintro rfl
      exact hg (hlists g' hmem)
  all_goals grind

theorem PgCache.Ok.leaveGroup (hc : cache.Ok groupid) (hp : cache.proxies.lookup p = some proxy)
    (hg : proxy.group = some g) (hhosts : proxy.hosts = []) :
    (cache.leaveGroup g p).Ok groupid := by
  have hheld : ∀ h, ¬ cache.assignment.held p h := by
    rw [assignment_held hp, hhosts]
    exact fun h => not_mem_nil
  have hassignment : (cache.leaveGroup g p).assignment = cache.assignment.leave p := by
    refine assignment_leaveGroup hc.nodups hp fun g' hlists => ?_
    have hg' := (hc.valid.group g' p).mp hlists
    exact Option.some.inj (hg'.symm.trans ((assignment_groupOf hp).trans hg))
  have hnext : (cache.leaveGroup g p).next = cache.next := rfl
  refine ⟨⟨?_, ⟨?_, ?_, ?_, ?_⟩, ?_, hc.queue_nodup⟩, ?_⟩
  · rw [hassignment, hnext]
    refine hc.valid.leave hheld fun h hh => ?_
    by_contra hne
    exact hheld h (hc.settled h p hh hne)
  · intro g'
    have hold := hc.nodups.proxies g'
    simp only [PgCache.leaveGroup, modifyGroup, modifyProxy, Table.elim_modify]
    split
    · cases hgroup : cache.groups.lookup g' with
      | none => exact nodup_nil
      | some group =>
        rw [hgroup] at hold
        exact nodup_removeValue hold
    · exact hold
  · simpa only [PgCache.leaveGroup, modifyGroup, modifyProxy, Table.elim_modify, ite_self]
      using hc.nodups.hostids
  · simpa only [PgCache.leaveGroup, modifyGroup, modifyProxy, Table.elim_modify, ite_self]
      using hc.nodups.unassigned
  · simpa only [PgCache.leaveGroup, modifyGroup, modifyProxy, Table.elim_modify, ite_self]
      using hc.nodups.hosts
  · rw [hassignment]
    exact hc.queued
  · rw [hassignment, hnext]
    exact hc.settled

def PgCache.Quiet (cache : PgCache) (p : ℕ) : Prop :=
  ∀ h, cache.assignment.mapped h = some p → ∀ p', ¬ cache.next h p'

@[simp] theorem proxies_queueGroupUpdate (cache : PgCache) (g : ℕ) :
    (cache.queueGroupUpdate g).proxies = cache.proxies := by
  unfold queueGroupUpdate
  split <;> rfl

@[simp] theorem groups_queueGroupUpdate (cache : PgCache) (g : ℕ) :
    (cache.queueGroupUpdate g).groups = cache.groups := by
  unfold queueGroupUpdate
  split <;> rfl

@[simp] theorem quiet_queueGroupUpdate (cache : PgCache) (g p : ℕ) :
    (cache.queueGroupUpdate g).Quiet p ↔ cache.Quiet p := by
  unfold queueGroupUpdate
  split <;> rfl

theorem lookup_releaseHosts (hp : cache.proxies.lookup p = some proxy) (g : ℕ) (hs : List ℕ) :
    (cache.releaseHosts g p hs).proxies.lookup p = some { proxy with hosts := [] } := by
  simp only [releaseHosts, modifyGroup, modifyProxy, Table.lookup_modify_self, hp, map_some]

theorem PgCache.Ok.groupRemoveProxy (hc : cache.Ok groupid) (removal : Removal)
    (hquiet : removal = .deletedProxy → cache.Quiet p) :
    (cache.groupRemoveProxy p removal).Ok groupid := by
  unfold PgCache.groupRemoveProxy
  cases hp : cache.proxies.lookup p with
  | none => exact hc
  | some proxy =>
    dsimp only
    cases hg : proxy.group with
    | none => exact hc
    | some g =>
      obtain ⟨group, hgroup⟩ := hc.lookup_group ((assignment_groupOf hp).trans hg)
      have hqueued := hc.queueGroupUpdate (isSome_iff_exists.mpr ⟨group, hgroup⟩)
      have hp' : (cache.queueGroupUpdate g).proxies.lookup p = some proxy := by
        rw [proxies_queueGroupUpdate, hp]
      cases removal with
      | reassignedProxy =>
        exact (hqueued.release hp' hg).leaveGroup (lookup_releaseHosts hp' g proxy.hosts) hg rfl
      | deletedProxy =>
        have hquiet' : (cache.queueGroupUpdate g).Quiet p :=
          (quiet_queueGroupUpdate cache g p).mpr (hquiet rfl)
        exact (hqueued.release_unmap hp' hg hquiet').leaveGroup (lookup_releaseHosts hp' g proxy.hosts) hg rfl

theorem groupRemoveProxy_lookup (removal : Removal)
    (hp : (cache.groupRemoveProxy p removal).proxies.lookup p = some proxy) :
    proxy.group = none := by
  unfold PgCache.groupRemoveProxy at hp
  cases hlookup : cache.proxies.lookup p with
  | none =>
    rw [hlookup] at hp
    exact nomatch hlookup.symm.trans hp
  | some old =>
    rw [hlookup] at hp
    dsimp only at hp
    cases hg : old.group with
    | none =>
      rw [hg] at hp
      obtain rfl := Option.some.inj (hlookup.symm.trans hp)
      exact hg
    | some g =>
      rw [hg] at hp
      simp only [leaveGroup, releaseHosts, modifyGroup, modifyProxy, Table.lookup_modify_self] at hp
      obtain ⟨old', -, rfl⟩ := map_eq_some_iff.mp hp
      rfl

theorem groupRemoveProxy_revision (cache : PgCache) (p p' : ℕ) (removal : Removal) :
    ((cache.groupRemoveProxy p removal).proxies.lookup p').map PgProxy.revision =
      (cache.proxies.lookup p').map PgProxy.revision := by
  unfold PgCache.groupRemoveProxy
  cases cache.proxies.lookup p with
  | none => rfl
  | some old =>
    cases hg : old.group with
    | none => simp only [hg]
    | some g =>
      simp only [hg, leaveGroup, releaseHosts, modifyGroup, modifyProxy]
      rw [Table.map_modify_of fun _ => by rfl, Table.map_modify_of fun _ => by rfl]
      cases removal
      · exact congrArg (fun t : Table PgProxy => (t.lookup p').map PgProxy.revision)
          (proxies_queueGroupUpdate cache g)
      · exact congrArg (fun t : Table PgProxy => (t.lookup p').map PgProxy.revision)
          (proxies_queueGroupUpdate cache g)

theorem groupRemoveProxy_isSome (cache : PgCache) (p p' : ℕ) (removal : Removal) :
    ((cache.groupRemoveProxy p removal).proxies.lookup p').isSome =
      (cache.proxies.lookup p').isSome := by
  have h := congrArg Option.isSome (groupRemoveProxy_revision cache p p' removal)
  rwa [isSome_map, isSome_map] at h

theorem groupRemoveProxy_deleted (cache : PgCache) (p : ℕ) :
    (cache.groupRemoveProxy p .deletedProxy).next = cache.next ∧
    (cache.groupRemoveProxy p .deletedProxy).proxyRevision = cache.proxyRevision ∧
    ∀ h p', (cache.groupRemoveProxy p .deletedProxy).assignment.mapped h = some p' →
      cache.assignment.mapped h = some p' := by
  unfold PgCache.groupRemoveProxy
  cases cache.proxies.lookup p with
  | none => exact ⟨rfl, rfl, fun _ _ => id⟩
  | some old =>
    cases hg : old.group with
    | none =>
      simp only [hg]
      exact ⟨trivial, trivial, fun _ _ => id⟩
    | some g =>
      simp only [hg]
      refine ⟨?_, ?_, fun h p' hmapped => ?_⟩
      · show (cache.queueGroupUpdate g).next = cache.next
        unfold queueGroupUpdate
        split <;> rfl
      · show (cache.queueGroupUpdate g).proxyRevision = cache.proxyRevision
        unfold queueGroupUpdate
        split <;> rfl
      · change ((((cache.queueGroupUpdate g).hostmap.eraseAll old.hosts).lookup h).map
          PgHost.proxyid) = some p' at hmapped
        rw [Table.lookup_eraseAll] at hmapped
        split at hmapped
        · cases hmapped
        · have heq : (cache.queueGroupUpdate g).assignment.mapped h = some p' := hmapped
          rwa [assignment_queueGroupUpdate] at heq

end Zabbix.ProxyGroup
