import Zabbix.ProxyGroup.Balance
import Zabbix.ProxyGroup.Refresh

/-!
# The cache stays consistent

Hosts are moved by messages.
-/

namespace Zabbix.ProxyGroup

open List Option Function PgCache Zabbix.Vector

variable {cache : PgCache} {groupid : ℕ → Option ℕ} {g p h : ℕ} {group : PgGroup} {proxy : PgProxy}
variable {f : PgGroup → PgGroup} {row : HostRow} {rows : List HostRow}

theorem PgCache.Ok.setHostProxy (hc : cache.Ok groupid) (hheld : cache.assignment.held p h) :
    (cache.setHostProxy h p).Ok groupid := by
  have hnext := next_setHostProxy cache h p
  refine ⟨⟨?_, ⟨hc.nodups.proxies, hc.nodups.hostids, hc.nodups.unassigned, hc.nodups.hosts⟩,
    hc.queued, hc.queue_nodup⟩, ?_⟩
  · rw [hnext]
    exact hc.valid.rename hheld
  · rw [hnext]
    rintro h' p' (⟨rfl, rfl⟩ | ⟨-, hp'⟩) hne
    · exact hheld
    · exact hc.settled h' p' hp' hne

theorem PgCache.Ok.renameHost (hc : cache.Ok groupid) (hrename : cache.RenameOk h) :
    (cache.renameHost h).Ok groupid := by
  unfold PgCache.renameHost
  cases hhost : cache.hostmap.lookup h with
  | none => exact hc
  | some host =>
    have hmapped : cache.assignment.mapped h = some host.proxyid := by
      simp only [assignment, hhost, map_some]
    obtain ⟨proxy, hproxy⟩ := isSome_iff_exists.mp (hc.valid.mapped_proxy h host.proxyid hmapped)
    have hheld : cache.assignment.held host.proxyid h := by
      rw [assignment_held hproxy]
      exact hrename host hhost proxy hproxy
    have hset := hc.setHostProxy hheld
    dsimp only
    split
    · exact hset
    · next g hg =>
      obtain ⟨group, hgroup⟩ := hc.lookup_group (p := host.proxyid) hg
      exact hset.queueGroupUpdate (isSome_iff_exists.mpr ⟨group, hgroup⟩)

/-- What `pg_cache_group_remove_host` does before the group is queued. -/
def PgCache.dropHost (cache : PgCache) (g h : ℕ) : PgCache :=
  let cache := cache.modifyGroup g fun group =>
    { group with
      hostids := group.hostids.erase h
      unassignedHostids := removeValue group.unassignedHostids h }
  match cache.hostmap.lookup h with
  | none => cache
  | some host =>
    (cache.modifyProxy host.proxyid fun proxy =>
      { proxy with hosts := proxy.hosts.erase h }).setHostProxy h 0

theorem groupRemoveHost_eq (cache : PgCache) (g h : ℕ) :
    cache.groupRemoveHost g h = (cache.dropHost g h).queueGroupUpdate g := rfl

theorem assignment_dropHost (hn : cache.Nodups) :
    (cache.dropHost g h).assignment = cache.assignment.removeHost g h := by
  unfold PgCache.dropHost
  have hhostids := hn.hostids g
  have hfree := hn.unassigned g
  -- the host leaves the lists of the group in the same way, whether it is mapped or not
  have hhosts : ∀ g' h', h' ∈ (if g' = g then (cache.groups.lookup g').elim []
      (fun G => G.hostids.erase h) else (cache.groups.lookup g').elim [] PgGroup.hostids) ↔
      h' ∈ (cache.groups.lookup g').elim [] PgGroup.hostids ∧ ¬ (g' = g ∧ h' = h) := by
    intro g' h'
    by_cases heq : g' = g
    · subst heq
      cases hg : cache.groups.lookup g' with
      | none => simp
      | some group =>
        rw [hg, elim_some] at hhostids
        simp [hhostids.mem_erase_iff, and_comm]
    · simp [heq]
  have hunassigned : ∀ g' h', h' ∈ (if g' = g then (cache.groups.lookup g').elim []
      (fun G => removeValue G.unassignedHostids h) else
        (cache.groups.lookup g').elim [] PgGroup.unassignedHostids) ↔
      h' ∈ (cache.groups.lookup g').elim [] PgGroup.unassignedHostids ∧ ¬ (g' = g ∧ h' = h) := by
    intro g' h'
    by_cases heq : g' = g
    · subst heq
      cases hg : cache.groups.lookup g' with
      | none => simp
      | some group =>
        rw [hg, elim_some] at hfree
        simp [mem_removeValue hfree, and_comm]
    · simp [heq]
  cases hhost : cache.hostmap.lookup h with
  | none =>
    simp only [modifyGroup, hhost]
    ext
    all_goals simp only [assignment, Table.elim_modify, Table.isSome_modify,
      Assignment.removeHost, ite_self, hhosts, hunassigned, hhost]
    case held p' h' => simp
  | some host =>
    simp only [modifyGroup, hhost]
    ext
    all_goals simp only [assignment, setHostProxy, modifyProxy, Table.elim_modify,
      Table.isSome_modify, Table.bind_modify, Assignment.removeHost, ite_self, hhosts,
      hunassigned, hhost]
    case held p' h' =>
      have hold := hn.hosts p'
      by_cases heq : p' = host.proxyid
      · subst heq
        cases hp : cache.proxies.lookup host.proxyid with
        | none => simp
        | some proxy =>
          rw [hp, elim_some] at hold
          simp [hold.mem_erase_iff, and_comm]
      · simp [heq, Ne.symm heq]

theorem next_dropHost (cache : PgCache) (g h : ℕ) :
    (cache.dropHost g h).next =
      if (cache.hostmap.lookup h).isSome then setNext cache.next h 0 else cache.next := by
  unfold PgCache.dropHost
  cases hhost : cache.hostmap.lookup h with
  | none =>
    simp only [modifyGroup, hhost]
    rfl
  | some host =>
    simp only [modifyGroup, hhost, isSome_some, if_true]
    exact next_setHostProxy _ h 0

theorem groupUpdates_dropHost (cache : PgCache) (g h : ℕ) :
    (cache.dropHost g h).groupUpdates = cache.groupUpdates := by
  unfold PgCache.dropHost
  cases hhost : cache.hostmap.lookup h with
  | none => simp only [modifyGroup, hhost]
  | some host =>
    simp only [modifyGroup, hhost]
    rfl

theorem nodups_dropHost (hn : cache.Nodups) : (cache.dropHost g h).Nodups := by
  have hmodify : (cache.modifyGroup g fun group =>
      { group with
        hostids := group.hostids.erase h
        unassignedHostids := removeValue group.unassignedHostids h }).Nodups := by
    refine ⟨?_, fun g' => ?_, fun g' => ?_, hn.hosts⟩
    · simpa only [modifyGroup, Table.elim_modify, ite_self] using hn.proxies
    · have hold := hn.hostids g'
      simp only [modifyGroup, Table.elim_modify]
      split
      · cases hg : cache.groups.lookup g' with
        | none => exact nodup_nil
        | some group =>
          rw [hg] at hold
          exact hold.erase h
      · exact hold
    · have hold := hn.unassigned g'
      simp only [modifyGroup, Table.elim_modify]
      split
      · cases hg : cache.groups.lookup g' with
        | none => exact nodup_nil
        | some group =>
          rw [hg] at hold
          exact nodup_removeValue hold
      · exact hold
  unfold PgCache.dropHost
  dsimp only
  split
  · exact hmodify
  · next host hhost =>
    refine ⟨hmodify.proxies, hmodify.hostids, hmodify.unassigned, fun p' => ?_⟩
    have hold := hn.hosts p'
    simp only [setHostProxy, modifyGroup, modifyProxy, Table.elim_modify]
    split
    · cases hp : cache.proxies.lookup p' with
      | none => exact nodup_nil
      | some proxy =>
        rw [hp] at hold
        exact hold.erase h
    · exact hold

theorem PgCache.Ok.groupRemoveHost (hc : cache.Ok groupid) (hg : groupid h = some g)
    (hgroup : (cache.groups.lookup g).isSome) : (cache.groupRemoveHost g h).Ok groupid := by
  have hassignment := assignment_dropHost (g := g) (h := h) hc.nodups
  have hnext := next_dropHost cache g h
  rw [groupRemoveHost_eq]
  refine Ok.queueGroupUpdate ⟨⟨?_, nodups_dropHost hc.nodups, ?_, ?_⟩, ?_⟩ ?_
  · rw [hassignment, hnext]
    split
    · exact hc.valid.removeHost_setNext hg
    · next hnone =>
      refine hc.valid.removeHost ?_ hc.settled
      simp only [assignment, not_isSome_iff_eq_none.mp hnone, map_none]
  · rw [hassignment, groupUpdates_dropHost]
    exact hc.queued
  · rw [groupUpdates_dropHost]
    exact hc.queue_nodup
  · rw [hassignment, hnext]
    intro h' p' hp' hne
    split at hp'
    · obtain ⟨-, hzero⟩ | ⟨hother, hp'⟩ := hp'
      · exact absurd hzero hne
      · exact ⟨hc.settled h' p' hp' hne, fun heq => hother heq.2⟩
    · next hnone =>
      refine ⟨hc.settled h' p' hp' hne, fun heq => ?_⟩
      simp only [assignment, not_isSome_iff_eq_none.mp hnone, map_none] at heq
      cases heq.1
  · show ((cache.dropHost g h).assignment).isGroup g
    rw [hassignment]
    exact hgroup

theorem assignment_addHost (hlookup : cache.groups.lookup g = some group)
    (hproxies : (f group).proxies = group.proxies)
    (hhostids : (f group).hostids.Perm (h :: group.hostids))
    (hfree : (f group).unassignedHostids = group.unassignedHostids ++ [h]) :
    (cache.modifyGroup g f).assignment = cache.assignment.addHost g h := by
  ext
  all_goals simp only [assignment, modifyGroup, Table.elim_modify, Table.isSome_modify,
    Assignment.addHost]
  case lists g' p' =>
    by_cases heq : g' = g
    · subst heq
      simp [hlookup, hproxies]
    · simp [heq]
  case hosts g' h' =>
    by_cases heq : g' = g
    · subst heq
      simp [hlookup, hhostids.mem_iff, or_comm]
    · simp [heq]
  case free g' h' =>
    by_cases heq : g' = g
    · subst heq
      simp [hlookup, hfree]
    · simp [heq]

theorem PgCache.Ok.addHost (hc : cache.Ok groupid) (hhost : ∀ g', ¬ cache.assignment.hosts g' h)
    (hg : g ≠ 0) (hlookup : cache.groups.lookup g = some group)
    (hproxies : (f group).proxies = group.proxies)
    (hhostids : (f group).hostids.Perm (h :: group.hostids))
    (hfree : (f group).unassignedHostids = group.unassignedHostids ++ [h]) :
    (cache.modifyGroup g f).Ok (update groupid h (some g)) := by
  have hnot : h ∉ group.hostids := by
    have hnot := hhost g
    simpa only [assignment, hlookup, elim_some] using hnot
  have hnotFree : h ∉ group.unassignedHostids := by
    intro hmem
    refine hhost g (hc.valid.free_hosts g h ?_)
    simpa only [assignment, hlookup, elim_some] using hmem
  have hassignment := assignment_addHost hlookup hproxies hhostids hfree
  refine ⟨⟨?_, ⟨fun g' => ?_, fun g' => ?_, fun g' => ?_, hc.nodups.hosts⟩, ?_, hc.queue_nodup⟩, ?_⟩
  · rw [hassignment]
    exact hc.valid.addHost (isSome_iff_exists.mpr ⟨group, hlookup⟩) hg hhost
  · have hold := hc.nodups.proxies g'
    simp only [modifyGroup, Table.elim_modify]
    split
    · next heq =>
      subst heq
      rw [hlookup, elim_some] at hold ⊢
      rwa [hproxies]
    · exact hold
  · have hold := hc.nodups.hostids g'
    simp only [modifyGroup, Table.elim_modify]
    split
    · next heq =>
      subst heq
      rw [hlookup, elim_some] at hold ⊢
      exact hhostids.nodup_iff.mpr (nodup_cons.mpr ⟨hnot, hold⟩)
    · exact hold
  · have hold := hc.nodups.unassigned g'
    simp only [modifyGroup, Table.elim_modify]
    split
    · next heq =>
      subst heq
      rw [hlookup, elim_some] at hold ⊢
      rw [hfree]
      exact hold.append (nodup_singleton h) (disjoint_singleton.mpr hnotFree)
    · exact hold
  · rw [hassignment]
    exact hc.queued
  · rw [hassignment]
    exact hc.settled

theorem notMem_hostids (hhost : ∀ g', ¬ cache.assignment.hosts g' h)
    (hlookup : cache.groups.lookup g = some group) : h ∉ group.hostids := by
  have hnot := hhost g
  simpa only [assignment, hlookup, elim_some] using hnot

theorem PgCache.Ok.groupAddHost (hc : cache.Ok groupid) (hhost : ∀ g', ¬ cache.assignment.hosts g' h)
    (hg : g ≠ 0) (hgroup : (cache.groups.lookup g).isSome) :
    (cache.groupAddHost g h).Ok (update groupid h (some g)) := by
  obtain ⟨group, hlookup⟩ := isSome_iff_exists.mp hgroup
  have hnot := notMem_hostids hhost hlookup
  unfold PgCache.groupAddHost
  refine Ok.queueGroupUpdate (hc.addHost hhost hg hlookup ?_ ?_ ?_) ?_
  · rw [if_neg hnot]
  · rw [if_neg hnot]
    exact perm_append_singleton h group.hostids
  · rw [if_neg hnot]
  · rw [modifyGroup, Table.isSome_modify]
    exact hgroup

theorem PgCache.Ok.setGroupid (hc : cache.Ok groupid) (hhost : ∀ g', ¬ cache.assignment.hosts g' h)
    (g : ℕ) : cache.Ok (update groupid h (some g)) :=
  ⟨⟨hc.valid.setGroupid hhost, hc.nodups, hc.queued, hc.queue_nodup⟩, hc.settled⟩

theorem PgCache.Ok.relocateHost {src dst : ℕ} (hc : cache.Ok groupid) (hsrc : groupid h = some src)
    (hrename : src = dst → cache.RenameOk h) :
    (cache.relocateHost h src dst).Ok (update groupid h (some dst)) := by
  unfold PgCache.relocateHost
  by_cases heq : src = dst
  · rw [if_pos heq]
    rw [← heq, ← hsrc, update_eq_self]
    exact hc.renameHost (hrename heq)
  · rw [if_neg heq]
    have hremoved : (if src ≠ 0 ∧ (cache.groups.lookup src).isSome then
        cache.groupRemoveHost src h else cache).Ok groupid ∧
        ∀ g', ¬ (if src ≠ 0 ∧ (cache.groups.lookup src).isSome then
          cache.groupRemoveHost src h else cache).assignment.hosts g' h := by
      split
      · next hmem =>
        refine ⟨hc.groupRemoveHost hsrc hmem.2, fun g' => ?_⟩
        rw [groupRemoveHost_eq, assignment_queueGroupUpdate, assignment_dropHost hc.nodups]
        rintro ⟨hh, hnot⟩
        obtain ⟨hg', -⟩ := hc.valid.hosts_groupid g' h hh
        exact hnot ⟨Option.some.inj (hg'.symm.trans hsrc), rfl⟩
      · next hnot =>
        refine ⟨hc, fun g' hh => hnot ?_⟩
        obtain ⟨hg', hne⟩ := hc.valid.hosts_groupid g' h hh
        obtain rfl : g' = src := Option.some.inj (hg'.symm.trans hsrc)
        exact ⟨hne, hc.valid.hosts_group g' h hh⟩
    generalize (if src ≠ 0 ∧ (cache.groups.lookup src).isSome then
      cache.groupRemoveHost src h else cache) = removed at hremoved
    obtain ⟨hok, hhost⟩ := hremoved
    dsimp only
    split
    · next hmem => exact hok.groupAddHost hhost hmem.1 hmem.2
    · exact hok.setGroupid hhost dst

theorem pgCacheInit_ok (startupTime : ℤ) (supportedVersion mapRevision : ℕ) :
    (pgCacheInit startupTime supportedVersion mapRevision).Ok fun _ => none := by
  have hgroups : ∀ {β : Type} (proj : PgGroup → List β) (g : ℕ),
      proj { PgGroup.new 0 with state := .disabled } = [] →
      ((pgCacheInit startupTime supportedVersion mapRevision).groups.lookup g).elim [] proj = [] := by
    intro β proj g hnil
    simp only [pgCacheInit, Table.lookup_insert_eq, AList.lookup_empty]
    split
    · exact hnil
    · rfl
  have hproxies : ∀ g, ((pgCacheInit startupTime supportedVersion mapRevision).groups.lookup g).elim
      [] PgGroup.proxies = [] := fun g => hgroups PgGroup.proxies g rfl
  have hhostids : ∀ g, ((pgCacheInit startupTime supportedVersion mapRevision).groups.lookup g).elim
      [] PgGroup.hostids = [] := fun g => hgroups PgGroup.hostids g rfl
  have hfree : ∀ g, ((pgCacheInit startupTime supportedVersion mapRevision).groups.lookup g).elim
      [] PgGroup.unassignedHostids = [] := fun g => hgroups PgGroup.unassignedHostids g rfl
  refine ⟨⟨?_, ⟨fun g => ?_, fun g => ?_, fun g => ?_, fun p => nodup_nil⟩, nofun,
    nodup_nil⟩, nofun⟩
  · constructor
    all_goals simp only [assignment, PgCache.next, hproxies, hhostids, hfree]
    all_goals simp [pgCacheInit]
  · rw [hproxies]
    exact nodup_nil
  · rw [hhostids]
    exact nodup_nil
  · rw [hfree]
    exact nodup_nil

structure PgCache.Unknown (cache : PgCache) (h : ℕ) : Prop where
  hosts : ∀ g, ¬ cache.assignment.hosts g h
  mapped : cache.assignment.mapped h = none
  next : ∀ p, ¬ cache.next h p

theorem PgCache.OkWith.not_held (hc : cache.OkWith cache.next groupid)
    (hh : ∀ g, ¬ cache.assignment.hosts g h) (p : ℕ) : ¬ cache.assignment.held p h := by
  intro hheld
  obtain ⟨g, -, hhosts, -⟩ := hc.valid.held_group p h hheld
  exact hh g hhosts

theorem PgCache.Ok.setHostProxy_zero (hc : cache.Ok groupid)
    (hheld : ∀ p, ¬ cache.assignment.held p h)
    (hhosts : ∀ g, cache.assignment.hosts g h → cache.assignment.free g h)
    (hknown : groupid h ≠ none) : (cache.setHostProxy h 0).Ok groupid := by
  have hnext := next_setHostProxy cache h 0
  refine ⟨⟨?_, ⟨hc.nodups.proxies, hc.nodups.hostids, hc.nodups.unassigned, hc.nodups.hosts⟩,
    hc.queued, hc.queue_nodup⟩, ?_⟩
  · rw [hnext]
    exact hc.valid.setNext_zero hheld hhosts hknown
  · rw [hnext]
    rintro h' p' (⟨-, rfl⟩ | ⟨-, hp'⟩) hne
    · exact absurd rfl hne
    · exact hc.settled h' p' hp' hne

theorem assignment_mapHost (hhost : ∀ g', ¬ cache.assignment.free g' h)
    (hlookup : cache.groups.lookup g = some group) :
    (cache.modifyGroup g fun G => { G with hostids := G.hostids.insert h }).assignment =
      (cache.assignment.addHost g h).take g h := by
  have hnot := hhost g
  ext
  all_goals simp only [assignment, modifyGroup, Table.elim_modify, Table.isSome_modify,
    Assignment.addHost, Assignment.take, ite_self] at hnot ⊢
  case hosts g' h' =>
    by_cases heq : g' = g
    · subst heq
      simp [hlookup, or_comm]
    · simp [heq]
  case free g' h' =>
    by_cases heq : g' = g ∧ h' = h
    · rw [heq.1, heq.2]
      simp [hnot]
    · simp [heq]

theorem PgCache.Ok.mapHost (hc : cache.Ok groupid) (hunknown : cache.Unknown h) (hne : g ≠ 0)
    (hgroupid : groupid h = some g) (hlookup : cache.groups.lookup g = some group)
    (hg : cache.assignment.groupOf p = some g) (host : PgHost) (hhost : host.proxyid = p) :
    let c := cache.modifyGroup g fun G => { G with hostids := G.hostids.insert h }
    (({ c with hostmap := c.hostmap.insert h host } : PgCache).addProxyHost p h).Ok groupid := by
  intro c
  have hfree : ∀ g', ¬ cache.assignment.free g' h := fun g' hf =>
    hunknown.hosts g' (hc.valid.free_hosts g' h hf)
  have hassignment : c.assignment = (cache.assignment.addHost g h).take g h :=
    assignment_mapHost hfree hlookup
  have hp : p ≠ 0 := by
    rintro rfl
    exact hc.valid.zero (hc.valid.isProxy g 0 ((hc.valid.group g 0).mpr hg))
  have hvalid := hc.valid.addHost (isSome_iff_exists.mpr ⟨group, hlookup⟩) hne hunknown.hosts
  rw [← hgroupid, update_eq_self] at hvalid
  have hwith : c.OkWith (setNext cache.next h p) groupid := by
    refine ⟨?_, ⟨?_, fun g' => ?_, ?_, hc.nodups.hosts⟩, ?_, hc.queue_nodup⟩
    · rw [hassignment]
      exact hvalid.take hg (.inr ⟨rfl, rfl⟩)
    · simpa only [c, modifyGroup, Table.elim_modify, ite_self] using hc.nodups.proxies
    · have hold := hc.nodups.hostids g'
      simp only [c, modifyGroup, Table.elim_modify]
      split
      · cases hg' : cache.groups.lookup g' with
        | none => exact nodup_nil
        | some group' =>
          rw [hg'] at hold
          exact hold.insert
      · exact hold
    · simpa only [c, modifyGroup, Table.elim_modify, ite_self] using hc.nodups.unassigned
    · rw [hassignment]
      exact hc.queued
  have hdone : doneNext (setNext cache.next h p) h = cache.next := by
    funext h' p'
    refine propext ⟨?_, fun hp' => ⟨fun heq => hunknown.next p' (heq ▸ hp'), .inr ⟨?_, hp'⟩⟩⟩
    · rintro ⟨hother, ⟨heq, -⟩ | ⟨-, hp'⟩⟩
      · exact absurd heq hother
      · exact hp'
    · exact fun heq => hunknown.next p' (heq ▸ hp')
  have hassign := hwith.assign (h := h) (.inl ⟨rfl, rfl⟩) hp
    (fun p' hp' => hp'.elim And.right fun hother => absurd rfl hother.1) hhost
  rw [hdone] at hassign
  refine ⟨hassign, fun h' p' hp' hne' => ?_⟩
  have hisProxy : (c.proxies.lookup p).isSome := hc.valid.isProxy g p ((hc.valid.group g p).mpr hg)
  rw [assignment_assign hisProxy hhost, hassignment]
  exact .inl (hc.settled h' p' hp' hne')

theorem PgCache.Ok.getHost (hc : cache.Ok groupid)
    (hgroupid : groupid row.hostid = some row.proxyGroupid) (hunknown : cache.Unknown row.hostid) :
    (cache.getHost row).Ok groupid ∧
      ∀ h, h ≠ row.hostid → cache.Unknown h → (cache.getHost row).Unknown h := by
  have hknown : groupid row.hostid ≠ none := hgroupid ▸ nofun
  have hheld := hc.not_held hunknown.hosts
  have hset : ∀ {c : PgCache} {h : ℕ}, h ≠ row.hostid → c.Unknown h →
      (c.setHostProxy row.hostid 0).Unknown h := by
    intro c h hne hc
    refine ⟨hc.hosts, hc.mapped, fun p hp => ?_⟩
    rw [next_setHostProxy] at hp
    obtain ⟨heq, -⟩ | ⟨-, hp⟩ := hp
    · exact hne heq
    · exact hc.next p hp
  unfold PgCache.getHost
  cases hlookup : (if row.proxyGroupid = 0 then none else
    cache.groups.lookup row.proxyGroupid) with
  | none =>
    dsimp only
    split
    · exact ⟨hc.setHostProxy_zero hheld (fun g hh => absurd hh (hunknown.hosts g)) hknown,
        fun h hne hh => hset hne hh⟩
    · exact ⟨hc, fun _ _ => id⟩
  | some group =>
    obtain ⟨hne, hgroup⟩ := ite_none_left_eq_some.mp hlookup
    have hnot := notMem_hostids hunknown.hosts hgroup
    have hinsert : (group.hostids.insert row.hostid).Perm (row.hostid :: group.hostids) := by
      rw [insert_of_not_mem hnot]
    -- the host joins the hosts of the group and its unassigned hosts
    have hadd := hc.addHost (f := fun G => { G with
        hostids := G.hostids.insert row.hostid
        unassignedHostids := G.unassignedHostids ++ [row.hostid] }) hunknown.hosts hne hgroup rfl
      hinsert rfl
    have hassignment := assignment_addHost (f := fun G => { G with
        hostids := G.hostids.insert row.hostid
        unassignedHostids := G.unassignedHostids ++ [row.hostid] }) hgroup rfl hinsert rfl
    rw [← hgroupid, update_eq_self] at hadd
    have hmodify : (cache.modifyGroup row.proxyGroupid fun G =>
        { G with hostids := G.hostids.insert row.hostid }).modifyGroup row.proxyGroupid (fun G =>
          { G with unassignedHostids := G.unassignedHostids ++ [row.hostid] }) =
        cache.modifyGroup row.proxyGroupid fun G => { G with
          hostids := G.hostids.insert row.hostid
          unassignedHostids := G.unassignedHostids ++ [row.hostid] } := by
      simp only [modifyGroup, Table.modify_modify]
    have haddUnknown : ∀ h, h ≠ row.hostid → cache.Unknown h →
        (cache.modifyGroup row.proxyGroupid fun G => { G with
          hostids := G.hostids.insert row.hostid
          unassignedHostids := G.unassignedHostids ++ [row.hostid] }).Unknown h := by
      intro h hother hh
      refine ⟨fun g hmem => ?_, ?_, hh.next⟩
      · rw [hassignment] at hmem
        exact hmem.elim (hh.hosts g) fun heq => hother heq.2
      · rw [hassignment]
        exact hh.mapped
    dsimp only
    split
    · rw [hmodify]
      exact ⟨hadd, haddUnknown⟩
    · split
      · rw [hmodify]
        refine ⟨hadd.setHostProxy_zero (fun p => ?_) (fun g hh => ?_) hknown, fun h hother hh =>
          hset hother (haddUnknown h hother hh)⟩
        · rw [hassignment]
          exact hheld p
        · rw [hassignment] at hh ⊢
          exact .inr (hh.resolve_left (hunknown.hosts g))
      · next hmapped =>
        have hg : cache.assignment.groupOf row.proxyid = some row.proxyGroupid := not_not.mp hmapped
        have hmap := hc.mapHost hunknown hne hgroupid hgroup hg
          ⟨row.proxyid, row.revision, row.hostproxyid⟩ rfl
        refine ⟨hmap.modifyGroup_of (fun _ => rfl) (fun _ => rfl) fun _ => rfl,
          fun h hother hh => ?_⟩
        have hfree : ∀ g', ¬ cache.assignment.free g' row.hostid := fun g' hf =>
          hunknown.hosts g' (hc.valid.free_hosts g' row.hostid hf)
        have hisProxy : (cache.proxies.lookup row.proxyid).isSome :=
          hc.valid.isProxy row.proxyGroupid row.proxyid ((hc.valid.group _ _).mpr hg)
        have hrevision : ∀ c : PgCache, (c.modifyGroup row.proxyGroupid fun G =>
            { G with hostmapRevision := max row.revision G.hostmapRevision }).assignment =
            c.assignment :=
          fun c => assignment_modifyGroup_of (fun _ => rfl) (fun _ => rfl) fun _ => rfl
        have hhost := assignment_mapHost hfree hgroup
        let host : PgHost := ⟨row.proxyid, row.revision, row.hostproxyid⟩
        have hisProxy' : ((cache.modifyGroup row.proxyGroupid fun G =>
            { G with hostids := G.hostids.insert row.hostid }).proxies.lookup row.proxyid).isSome :=
          hisProxy
        have hassign := assignment_assign (h := row.hostid) hisProxy' (rfl : host.proxyid = _)
        rw [hhost] at hassign
        have hfinal := (hrevision _).trans hassign
        refine ⟨fun g hmem => ?_, ?_, hh.next⟩
        · have hmem := (congrFun (congrFun (congrArg Assignment.hosts hfinal) g) h).mp hmem
          exact hmem.elim (hh.hosts g) fun heq => hother heq.2
        · refine (congrFun (congrArg Assignment.mapped hfinal) h).trans ?_
          show update _ _ _ _ = _
          rw [update_of_ne hother]
          exact hh.mapped

theorem PgCache.Ok.pgmDbGetHosts (hc : cache.Ok groupid) (hn : (rows.map HostRow.hostid).Nodup)
    (hgroupid : ∀ row ∈ rows, groupid row.hostid = some row.proxyGroupid)
    (hunknown : ∀ row ∈ rows, cache.Unknown row.hostid) :
    (cache.pgmDbGetHosts rows).Ok groupid := by
  induction rows generalizing cache with
  | nil => exact hc
  | cons row rows ih =>
    obtain ⟨hnot, hn⟩ := nodup_cons.mp hn
    obtain ⟨hok, hframe⟩ := hc.getHost (hgroupid row mem_cons_self)
      (hunknown row mem_cons_self)
    refine ih hok hn (fun row' hmem => hgroupid row' (mem_cons_of_mem row hmem))
      fun row' hmem => ?_
    refine hframe row'.hostid (fun heq => hnot ?_) (hunknown row' (mem_cons_of_mem row hmem))
    exact heq ▸ List.mem_map_of_mem hmem

theorem PgCache.Ok.unknown (hc : cache.Ok fun _ => none) (h : ℕ) : cache.Unknown h := by
  refine ⟨fun g hh => ?_, ?_, fun p hp => hc.valid.next_known h p hp rfl⟩
  · obtain ⟨hsome, -⟩ := hc.valid.hosts_groupid g h hh
    exact nomatch hsome
  · cases hmapped : cache.assignment.mapped h with
    | none => rfl
    | some p => exact absurd rfl (hc.valid.mapped_known h p hmapped)

def System.known (s : System) (h : ℕ) : Option ℕ := some (s.hostGroups h)

theorem find_hostid (hn : (rows.map HostRow.hostid).Nodup) (hmem : row ∈ rows) :
    rows.find? (·.hostid = row.hostid) = some row := by
  induction rows with
  | nil => exact nomatch hmem
  | cons first rows ih =>
    obtain ⟨hnot, hn⟩ := nodup_cons.mp hn
    obtain rfl | hmem := mem_cons.mp hmem
    · rw [List.find?_cons_of_pos (by simp)]
    · have hne : first.hostid ≠ row.hostid := fun heq => hnot (heq ▸ List.mem_map_of_mem hmem)
      rw [List.find?_cons_of_neg (by simpa using hne), ih hn hmem]

theorem Startup.ok (startup : Startup) : startup.system.cache.Ok startup.system.known := by
  have hinit := pgCacheInit_ok startup.startupTime startup.supportedVersion startup.mapRevision
  have hupdate := hinit.pgmUpdate (?_ : PgCache.GroupsOk _ startup.config) ?_ startup.now
    startup.failoverDelay startup.minOnline
  · refine Ok.pgmDbGetHosts ⟨⟨hupdate.valid.of_unknown, hupdate.nodups, hupdate.queued,
      hupdate.queue_nodup⟩, hupdate.settled⟩ startup.hostids_nodup (fun row hmem => ?_)
      fun row _ => hupdate.unknown row.hostid
    simp only [System.known, Startup.system, find_hostid startup.hostids_nodup hmem,
      map_some, getD_some]
  · intro _ g hg hne
    refine absurd ?_ hne
    simpa [pgCacheInit] using hg
  · exact nofun

theorem System.known_update (s : System) (h g : ℕ) (cache : PgCache) :
    (System.mk cache (update s.hostGroups h g)).known = update s.known h (some g) := by
  funext h'
  simp only [System.known, update_apply]
  split <;> rfl

variable {s : System}

theorem setProxyGroup_ok (hs : s.cache.Ok s.known) {move : ℕ × ℕ}
    (hrename : s.hostGroups move.1 = move.2 → move.2 ≠ 0 → s.cache.RenameOk move.1) :
    (s.setProxyGroup move).cache.Ok (s.setProxyGroup move).known := by
  unfold System.setProxyGroup
  obtain ⟨h, g⟩ := move
  dsimp only
  rw [System.known_update]
  split
  · next hany =>
    refine hs.relocateHost rfl fun heq => hrename heq ?_
    rintro rfl
    exact hany.elim (absurd rfl) fun hne => hne heq
  · next hnone =>
    obtain ⟨hzero, hold⟩ := not_or.mp hnone
    have hg : s.known h = some g := by rw [System.known, not_not.mp hold, not_not.mp hzero]
    rw [← hg, update_eq_self]
    exact hs

theorem foldl_setProxyGroup_ok (hs : s.cache.Ok s.known) {moves : List (ℕ × ℕ)}
    (hmoves : MovesOk s moves) :
    (moves.foldl System.setProxyGroup s).cache.Ok
      (moves.foldl System.setProxyGroup s).known := by
  induction moves generalizing s with
  | nil => exact hs
  | cons move moves ih => exact ih (setProxyGroup_ok hs hmoves.1) hmoves.2

theorem step_ok {s' : System} {event : Event} (hs : s.cache.Ok s.known)
    (hstep : step s event = some s') (hok : StepOk s event) : s'.cache.Ok s'.known := by
  cases event with
  | update config now failoverDelay minOnline =>
    obtain rfl := Option.some.inj hstep
    exact hs.pgmUpdate hok.1 hok.2 now failoverDelay minOnline
  | hostPgroupUpdate config moves =>
    obtain rfl := Option.some.inj hstep
    exact foldl_setProxyGroup_ok (hs.updateGroups hok.1) hok.2
  | proxyRtdata proxyid lastaccess version =>
    obtain rfl := Option.some.inj hstep
    exact hs.modifyProxy_of (fun _ => rfl) fun _ => rfl
  | rebalanceAndFlush now failoverDelay minOnline hostproxyid =>
    obtain rfl := Option.some.inj hstep
    exact hs.pgmRebalanceAndFlushUpdates now failoverDelay minOnline hostproxyid
  | updateHostmapRevision groupids =>
    obtain rfl := Option.some.inj hstep
    refine Table.foldl_preserves (I := fun c : PgCache => c.Ok s.known)
      (fun c g _ hc => ?_) hs
    exact hc.modifyGroup_of (fun _ => rfl) (fun _ => rfl) fun _ => rfl

theorem mem_free_iff (hg : cache.groups.lookup g = some group) :
    h ∈ group.unassignedHostids ↔ cache.assignment.free g h := by
  simp only [assignment, hg, elim_some]

theorem mem_hostids_iff (hg : cache.groups.lookup g = some group) :
    h ∈ group.hostids ↔ cache.assignment.hosts g h := by
  simp only [assignment, hg, elim_some]

theorem mapped_of_lookup {host : PgHost} (hh : cache.hostmap.lookup h = some host) :
    cache.assignment.mapped h = some host.proxyid := by
  simp only [assignment, hh, map_some]

theorem PgCache.Ok.assigned_iff (hc : cache.Ok groupid) : cache.Assigned g h ↔
    ∃ p, cache.assignment.groupOf p = some g ∧ cache.assignment.held p h := by
  constructor
  · rintro ⟨host, proxy, -, hproxy, hg, hmem⟩
    refine ⟨host.proxyid, (assignment_groupOf hproxy).trans hg, ?_⟩
    rw [assignment_held hproxy]
    exact hmem
  · rintro ⟨p, hg, hheld⟩
    obtain ⟨host, hhost, rfl⟩ := map_eq_some_iff.mp (hc.valid.held_mapped p h hheld)
    obtain ⟨proxy, hproxy, hgroup⟩ := bind_eq_some_iff.mp hg
    refine ⟨host, proxy, hhost, hproxy, hgroup, ?_⟩
    rwa [assignment_held hproxy] at hheld

theorem PgCache.Ok.onePlace (hc : cache.Ok groupid) (hg : cache.groups.lookup g = some group)
    (hh : h ∈ group.hostids) : cache.OnePlace g group h := by
  have hnodup := hc.nodups.unassigned g
  rw [hg, elim_some] at hnodup
  by_cases hfree : cache.assignment.free g h
  · refine .inl ⟨count_eq_one_of_mem hnodup ((mem_free_iff hg).mpr hfree), ?_⟩
    rw [hc.assigned_iff]
    rintro ⟨p, hp, hheld⟩
    exact hc.valid.not_free hp hheld hfree
  · refine .inr ⟨count_eq_zero_of_not_mem fun hmem => hfree ((mem_free_iff hg).mp hmem), ?_⟩
    rw [hc.assigned_iff]
    obtain ⟨p, hp, hplaced⟩ := hc.valid.placed g h ((mem_hostids_iff hg).mp hh) hfree
    exact ⟨p, hp, hplaced.elim id fun hnext => hc.settled h p hnext.1 hnext.2⟩

theorem PgCache.Ok.consistent (hc : cache.Ok groupid) : cache.Consistent := by
  refine ⟨fun g group hg h hh => hc.onePlace hg hh, fun g group hg h hh => ?_,
    fun p proxy hp h hh => ?_, fun h host hhost => ?_, fun h p hp hne => ?_,
    fun p proxy g hp hg => ?_, fun g group hg p hp => ?_, hc.queued⟩
  · exact (mem_hostids_iff hg).mpr (hc.valid.free_hosts g h ((mem_free_iff hg).mp hh))
  · have hheld : cache.assignment.held p h := by
      rw [assignment_held hp]
      exact hh
    exact map_eq_some_iff.mp (hc.valid.held_mapped p h hheld)
  · exact hc.valid.mapped_proxy h host.proxyid (mapped_of_lookup hhost)
  · exact hc.valid.next_proxy h p hp hne
  · have hgroupOf : cache.assignment.groupOf p = some g := (assignment_groupOf hp).trans hg
    obtain ⟨group, hgroup⟩ := hc.lookup_group hgroupOf
    exact ⟨group, hgroup, (assignment_lists hgroup p).mp ((hc.valid.group g p).mpr hgroupOf)⟩
  · have hgroupOf := (hc.valid.group g p).mp ((assignment_lists hg p).mpr hp)
    exact bind_eq_some_iff.mp hgroupOf

open Zabbix.Transition

/-- When no group is deleted whose proxies have hosts, no proxy is deleted while a host that is
mapped to it waits, and no host is renamed while it waits to leave its proxy, the cache stays
consistent. -/
theorem cache_consistent {s : System} (hs : Reach Started step StepOk s) : s.cache.Consistent := by
  have hok : s.cache.Ok s.known := by
    refine hs.invariant (I := fun s => s.cache.Ok s.known) ?_ fun s event s' h hok hstep =>
      step_ok h hstep hok
    rintro _ ⟨startup, rfl⟩
    exact startup.ok
  exact hok.consistent

def exampleStartup : Startup where
  startupTime := 100
  supportedVersion := 7
  mapRevision := 1
  config := ⟨1, [⟨1, 1, by decide⟩, ⟨2, 1, by decide⟩], 1,
    [⟨10, 1, 100, 7, by decide⟩, ⟨20, 2, 100, 7, by decide⟩]⟩
  now := 100
  failoverDelay := fun _ => 60
  minOnline := fun _ => 1
  rows := [⟨100, 0, 0, 0, 1⟩]
  hostids_nodup := by decide

def exampleFlush : Event := .rebalanceAndFlush 100 (fun _ => 60) (fun _ => 1) 1

def firstGroup : Config := ⟨2, [⟨1, 1, by decide⟩], 2, [⟨10, 1, 100, 7, by decide⟩]⟩

def renameRun : List Event :=
  [exampleFlush, .update firstGroup 101 (fun _ => 60) (fun _ => 1),
    .hostPgroupUpdate firstGroup [(100, 1)], exampleFlush]

theorem cache_consistent_rename : ∃ s, run step exampleStartup.system renameRun = some s ∧
    s.cache.hostmap.lookup 100 = some ⟨10, 3, 1⟩ ∧ s.cache.Consistent := by
  have hrun : (run step exampleStartup.system renameRun).any
      (fun s => s.cache.hostmap.lookup 100 = some ⟨10, 3, 1⟩) = true := by
    decide +kernel
  obtain ⟨s, hs, hmap⟩ := (Option.any_eq_true _ _).mp hrun
  have hguarded : Guarded step StepOk exampleStartup.system renameRun := by
    decide +kernel
  exact ⟨s, hs, of_decide_eq_true hmap,
    cache_consistent (Reach.of_run (.start ⟨exampleStartup, rfl⟩) hguarded hs)⟩

def secondGroup : Config :=
  ⟨2, [⟨2, 1, by decide⟩], 1, [⟨10, 1, 100, 7, by decide⟩, ⟨20, 2, 100, 7, by decide⟩]⟩

def PgCache.keepsHost (cache : PgCache) (p p' h : ℕ) : Bool :=
  (cache.proxies.lookup p).any (fun proxy => h ∈ proxy.hosts) &&
    (cache.hostmap.lookup h).any fun host => host.proxyid = p'

theorem not_consistent_of_keepsHost {p' : ℕ} (hkeeps : cache.keepsHost p p' h = true)
    (hne : p ≠ p') : ¬ cache.Consistent := by
  intro hc
  obtain ⟨hheld, hmapped⟩ := Bool.and_eq_true_iff.mp hkeeps
  obtain ⟨proxy, hp, hh⟩ := (Option.any_eq_true _ _).mp hheld
  obtain ⟨host, hhost, heq⟩ := (Option.any_eq_true _ _).mp hmapped
  obtain ⟨host', hhost', rfl⟩ := hc.hosts p proxy hp h (of_decide_eq_true hh)
  obtain rfl := Option.some.inj (hhost.symm.trans hhost')
  exact hne (of_decide_eq_true heq)

theorem deleted_group_keeps_host :
    ∃ s, Reach Started step anyEvent s ∧ ¬ s.cache.Consistent := by
  have hstart : Reach Started step anyEvent exampleStartup.system := .start ⟨exampleStartup, rfl⟩
  obtain ⟨s, hs, hkeeps⟩ := hstart.exists_of_run (p := fun s => s.cache.keepsHost 10 20 100)
    (guarded_anyEvent exampleStartup.system
      [exampleFlush, .hostPgroupUpdate secondGroup [(100, 2)], exampleFlush]) (by decide +kernel)
  exact ⟨s, hs, not_consistent_of_keepsHost hkeeps (by decide)⟩

end Zabbix.ProxyGroup
