import Zabbix.ProxyGroup.Abstraction

/-!
# Rebalancing keeps the cache consistent

Between the two loops of rebalancing, hosts wait for the map to be changed: the cache is consistent
with what it is to be changed to.
-/

namespace Zabbix.ProxyGroup

open Function List Option PgCache Zabbix.Vector

variable {cache : PgCache} {groupid : ℕ → Option ℕ} {g p h : ℕ} {group : PgGroup} {proxy : PgProxy}
variable {phs : List ProxyHosts} {host : PgHost} {updates rest : List (ℕ × ℕ)}

abbrev PgCache.Pending (cache : PgCache) (groupid : ℕ → Option ℕ) : Prop :=
  cache.OkWith cache.next groupid

theorem mem_unassigned (cache : PgCache) (g h : ℕ) :
    h ∈ cache.unassigned g ↔ cache.assignment.free g h := by
  simp only [unassigned, assignment]

theorem assignment_proxyUnassignHost (hn : cache.Nodups) (hg : cache.groups.lookup g = some group) :
    (cache.proxyUnassignHost g p h).assignment = cache.assignment.unassign g p h := by
  have hhosts := hn.hosts p
  ext
  all_goals simp only [assignment, proxyUnassignHost, setHostProxy, modifyGroup, modifyProxy,
    Table.elim_modify, Table.isSome_modify, Table.bind_modify, Assignment.unassign, ite_self]
  case free g' h' =>
    by_cases heq : g' = g
    · subst heq
      simp [hg]
    · simp [heq]
  case held p' h' =>
    by_cases heq : p' = p
    · subst heq
      cases hp : cache.proxies.lookup p' with
      | none => simp
      | some proxy =>
        rw [hp, elim_some] at hhosts
        simp [hhosts.mem_erase_iff, and_comm]
    · simp [heq]

theorem PgCache.OkWith.proxyUnassignHost (hc : cache.Pending groupid)
    (hg : cache.assignment.groupOf p = some g) (hheld : cache.assignment.held p h) :
    (cache.proxyUnassignHost g p h).Pending groupid := by
  obtain ⟨group, hgroup⟩ := hc.lookup_group hg
  have hassignment := assignment_proxyUnassignHost (p := p) (h := h) hc.nodups hgroup
  have hnext : (cache.proxyUnassignHost g p h).next = setNext cache.next h 0 :=
    next_setHostProxy cache h 0
  have hnot : ¬ cache.assignment.free g h := hc.valid.not_free hg hheld
  refine ⟨?_, ⟨?_, ?_, fun g' => ?_, fun p' => ?_⟩, ?_, hc.queue_nodup⟩
  · rw [hassignment, hnext]
    exact hc.valid.unassign hg hheld
  · simpa only [PgCache.proxyUnassignHost, setHostProxy, modifyGroup, modifyProxy,
      Table.elim_modify, ite_self] using hc.nodups.proxies
  · simpa only [PgCache.proxyUnassignHost, setHostProxy, modifyGroup, modifyProxy,
      Table.elim_modify, ite_self] using hc.nodups.hostids
  · have hold := hc.nodups.unassigned g'
    simp only [PgCache.proxyUnassignHost, setHostProxy, modifyGroup, modifyProxy, Table.elim_modify]
    split
    · next heq =>
      subst heq
      simp only [assignment, hgroup, elim_some] at hnot
      rw [hgroup, elim_some] at hold ⊢
      exact hold.append (nodup_singleton h) (disjoint_singleton.mpr hnot)
    · exact hold
  · have hold := hc.nodups.hosts p'
    simp only [PgCache.proxyUnassignHost, setHostProxy, modifyGroup, modifyProxy, Table.elim_modify]
    split
    · cases hp : cache.proxies.lookup p' with
      | none => exact nodup_nil
      | some proxy =>
        rw [hp] at hold
        exact hold.erase h
    · exact hold
  · rw [hassignment]
    exact hc.queued

/-- The proxies of one pass are in the group, and refer to hosts that they have. -/
structure Refs (cache : PgCache) (g : ℕ) (phs : List ProxyHosts) : Prop where
  nodup : (phs.map ProxyHosts.proxyid).Nodup
  groupOf : ∀ ph ∈ phs, cache.assignment.groupOf ph.proxyid = some g
  refs_nodup : ∀ ph ∈ phs, ph.hostRefs.Nodup
  held : ∀ ph ∈ phs, ∀ h ∈ ph.hostRefs, cache.assignment.held ph.proxyid h

theorem unassignPass_spec (g required : ℕ) (hostsNum : ℤ) (hc : cache.Pending groupid)
    (hr : Refs cache g phs) :
    let result := unassignPass g required hostsNum cache phs
    result.1.Pending groupid ∧ Refs result.1 g result.2 ∧
      result.2.map ProxyHosts.proxyid = phs.map ProxyHosts.proxyid ∧
      result.1.assignment.groupOf = cache.assignment.groupOf ∧
      ∀ p, p ∉ phs.map ProxyHosts.proxyid →
        result.1.assignment.held p = cache.assignment.held p := by
  induction phs generalizing cache with
  | nil => exact ⟨hc, hr, rfl, rfl, fun _ _ => rfl⟩
  | cons ph phs ih =>
    have hstay : cache.Pending groupid ∧ Refs cache g (ph :: phs) ∧
        (ph :: phs).map ProxyHosts.proxyid = (ph :: phs).map ProxyHosts.proxyid ∧
        cache.assignment.groupOf = cache.assignment.groupOf ∧
        ∀ p, p ∉ (ph :: phs).map ProxyHosts.proxyid →
          cache.assignment.held p = cache.assignment.held p :=
      ⟨hc, hr, rfl, rfl, fun _ _ => rfl⟩
    unfold unassignPass
    split
    · exact hstay
    · split
      · exact hstay
      · cases hlast : ph.hostRefs.getLast? with
        | none => exact hstay
        | some hostid =>
          have hmem : hostid ∈ ph.hostRefs := mem_of_getLast? hlast
          have hgroup := hr.groupOf ph mem_cons_self
          have hheld := hr.held ph mem_cons_self hostid hmem
          obtain ⟨group, hgroup'⟩ := hc.lookup_group hgroup
          obtain ⟨hnot, hnodup⟩ := nodup_cons.mp hr.nodup
          have hassignment :
              (cache.proxyUnassignHost g ph.proxyid hostid).assignment =
                cache.assignment.unassign g ph.proxyid hostid :=
            assignment_proxyUnassignHost hc.nodups hgroup'
          have hr' : Refs (cache.proxyUnassignHost g ph.proxyid hostid) g phs := by
            refine ⟨hnodup, fun ph' hmem' => ?_, fun ph' hmem' =>
              hr.refs_nodup ph' (mem_cons_of_mem ph hmem'), fun ph' hmem' h' hh' => ?_⟩
            · rw [hassignment]
              exact hr.groupOf ph' (mem_cons_of_mem ph hmem')
            · rw [hassignment]
              refine ⟨hr.held ph' (mem_cons_of_mem ph hmem') h' hh', fun heq => hnot ?_⟩
              exact List.mem_map.mpr ⟨ph', hmem', heq.1⟩
          obtain ⟨hc', hrefs, hids, hgroups, hframe⟩ := ih (hc.proxyUnassignHost hgroup hheld) hr'
          have hsplit : ph.hostRefs = ph.hostRefs.dropLast ++ [hostid] :=
            (dropLast_append_getLast? hostid hlast).symm
          have hrefsNodup := hr.refs_nodup ph mem_cons_self
          dsimp only
          refine ⟨hc', ⟨?_, ?_, ?_, ?_⟩, ?_, ?_, ?_⟩
          · rw [map_cons, hids]
            exact hr.nodup
          · intro ph' hmem'
            obtain rfl | hmem' := mem_cons.mp hmem'
            · rw [hgroups, hassignment]
              exact hgroup
            · exact hrefs.groupOf ph' hmem'
          · intro ph' hmem'
            obtain rfl | hmem' := mem_cons.mp hmem'
            · exact hrefsNodup.sublist (dropLast_sublist _)
            · exact hrefs.refs_nodup ph' hmem'
          · intro ph' hmem' h' hh'
            obtain rfl | hmem' := mem_cons.mp hmem'
            · rw [hframe ph.proxyid hnot, hassignment]
              refine ⟨hr.held ph mem_cons_self h' ((dropLast_sublist _).subset hh'), ?_⟩
              rintro ⟨-, rfl⟩
              rw [hsplit] at hrefsNodup
              exact (nodup_append.mp hrefsNodup).2.2 h' hh' h' mem_cons_self rfl
            · exact hrefs.held ph' hmem' h' hh'
          · rw [map_cons, hids, map_cons]
          · rw [hgroups, hassignment]
            rfl
          · intro p hp
            rw [map_cons, mem_cons, not_or] at hp
            rw [hframe p hp.2, hassignment]
            funext h'
            exact propext ⟨And.left, fun hh => ⟨hh, fun heq => hp.1 heq.1⟩⟩

theorem unassignLoop_spec (g required : ℕ) (limit : ℤ) (fuel : ℕ) (hc : cache.Pending groupid)
    (hr : Refs cache g phs) :
    let result := unassignLoop g required limit fuel cache phs
    result.1.Pending groupid ∧ Refs result.1 g result.2 := by
  induction fuel generalizing cache phs with
  | zero => exact ⟨hc, hr⟩
  | succ fuel ih =>
    unfold unassignLoop
    split
    · exact ⟨hc, hr⟩
    · cases phs with
      | nil => exact ⟨hc, hr⟩
      | cons first phs =>
        dsimp only
        split
        · exact ⟨hc, hr⟩
        · obtain ⟨hc', hr', -⟩ := unassignPass_spec g required (first.hostRefs.length - 1) hc hr
          exact ih hc' hr'

theorem Refs.perm {phs' : List ProxyHosts} (hr : Refs cache g phs) (h : phs'.Perm phs) :
    Refs cache g phs' :=
  ⟨(h.map _).nodup_iff.mpr hr.nodup, fun ph hmem => hr.groupOf ph (h.mem_iff.mp hmem),
    fun ph hmem => hr.refs_nodup ph (h.mem_iff.mp hmem),
    fun ph hmem => hr.held ph (h.mem_iff.mp hmem)⟩

theorem unassignExcessHosts_spec (g required : ℕ) (limit : ℤ) (hc : cache.Pending groupid)
    (hr : Refs cache g phs) :
    let result := cache.unassignExcessHosts g phs limit required
    result.1.Pending groupid ∧ Refs result.1 g result.2 :=
  unassignLoop_spec g required limit required hc (hr.perm (perm_insertionSort _ phs))

theorem PgCache.OkWith.assignLast (hc : cache.Pending groupid)
    (hg : cache.assignment.groupOf p = some g) :
    (cache.assignLast g p).Pending groupid ∧
      (cache.assignLast g p).assignment.groupOf = cache.assignment.groupOf := by
  unfold PgCache.assignLast
  cases hlast : (cache.unassigned g).getLast? with
  | none => exact ⟨hc, rfl⟩
  | some h =>
    obtain ⟨group, hgroup⟩ := hc.lookup_group hg
    have hunassigned : cache.unassigned g = group.unassignedHostids := by
      rw [unassigned, hgroup, elim_some]
    rw [hunassigned] at hlast
    have hfree : cache.assignment.free g h := by
      rw [← mem_unassigned, hunassigned]
      exact mem_of_getLast? hlast
    have hsplit := dropLast_append_getLast? h hlast
    have hnodup := hc.nodups.unassigned g
    rw [hgroup, elim_some] at hnodup
    have hassignment : ((cache.setHostProxy h p).modifyGroup g fun group =>
        { group with unassignedHostids := group.unassignedHostids.dropLast }).assignment =
          cache.assignment.take g h := by
      ext
      all_goals simp only [assignment, setHostProxy, modifyGroup, Table.elim_modify,
        Table.isSome_modify, Assignment.take, ite_self]
      case free g' h' =>
        by_cases heq : g' = g
        · subst heq
          rw [hgroup, if_pos rfl, elim_some, elim_some]
          rw [← hsplit] at hnodup ⊢
          obtain ⟨-, -, hdisjoint⟩ := nodup_append.mp hnodup
          rw [dropLast_concat, mem_append, mem_singleton]
          refine ⟨fun hmem => ⟨.inl hmem, fun hne => ?_⟩, fun hmem => ?_⟩
          · exact hdisjoint h' hmem h' (mem_singleton.mpr hne.2) rfl
          · exact hmem.1.resolve_right fun hne => hmem.2 ⟨rfl, hne⟩
        · simp [heq]
    have hnext : ((cache.setHostProxy h p).modifyGroup g fun group =>
        { group with unassignedHostids := group.unassignedHostids.dropLast }).next =
          setNext cache.next h p := next_setHostProxy cache h p
    dsimp only
    refine ⟨⟨?_, ⟨?_, ?_, fun g' => ?_, hc.nodups.hosts⟩, ?_, hc.queue_nodup⟩, ?_⟩
    · rw [hassignment, hnext]
      exact hc.valid.take hg hfree
    · simpa only [setHostProxy, modifyGroup, Table.elim_modify, ite_self] using hc.nodups.proxies
    · simpa only [setHostProxy, modifyGroup, Table.elim_modify, ite_self] using hc.nodups.hostids
    · have hold := hc.nodups.unassigned g'
      simp only [setHostProxy, modifyGroup, Table.elim_modify]
      split
      · cases hg' : cache.groups.lookup g' with
        | none => exact nodup_nil
        | some group' =>
          rw [hg'] at hold
          exact hold.sublist (dropLast_sublist _)
      · exact hold
    · rw [hassignment]
      exact hc.queued
    · rw [hassignment]
      rfl

theorem distributePass_spec (g : ℕ) (hostsNum : ℤ) (hc : cache.Pending groupid)
    (hr : ∀ ph ∈ phs, cache.assignment.groupOf ph.proxyid = some g) :
    let result := distributePass g hostsNum cache phs
    result.1.Pending groupid ∧ result.2.map ProxyHosts.proxyid = phs.map ProxyHosts.proxyid ∧
      result.1.assignment.groupOf = cache.assignment.groupOf := by
  induction phs generalizing cache with
  | nil => exact ⟨hc, rfl, rfl⟩
  | cons ph phs ih =>
    unfold distributePass
    split
    · exact ⟨hc, rfl, rfl⟩
    · split
      · exact ⟨hc, rfl, rfl⟩
      · obtain ⟨hc', hgroups⟩ := hc.assignLast (hr ph mem_cons_self)
        obtain ⟨hok, hids, hgroups'⟩ := ih hc' fun ph' hmem => by
          rw [hgroups]
          exact hr ph' (mem_cons_of_mem ph hmem)
        refine ⟨hok, ?_, hgroups'.trans hgroups⟩
        rw [map_cons, hids, map_cons]

theorem distributeLoop_spec (g fuel : ℕ) (hc : cache.Pending groupid)
    (hr : ∀ p ∈ phs.map ProxyHosts.proxyid, cache.assignment.groupOf p = some g) :
    (distributeLoop g fuel cache phs).1.Pending groupid := by
  induction fuel generalizing cache phs with
  | zero => exact hc
  | succ fuel ih =>
    unfold distributeLoop
    split
    · exact hc
    · cases phs with
      | nil => exact hc
      | cons first phs =>
        obtain ⟨hok, hids, hgroups⟩ := distributePass_spec g (first.hostsNum + 1) hc
          fun ph hmem => hr ph.proxyid (List.mem_map_of_mem hmem)
        have hr' : ∀ p ∈ (distributePass g (first.hostsNum + 1) cache (first :: phs)).2.map
            ProxyHosts.proxyid,
            (distributePass g (first.hostsNum + 1) cache
              (first :: phs)).1.assignment.groupOf p = some g := by
          rw [hids, hgroups]
          exact hr
        exact ih hok hr'

theorem distributeHosts_ok (g : ℕ) (hc : cache.Pending groupid)
    (hr : ∀ ph ∈ phs, cache.assignment.groupOf ph.proxyid = some g) :
    (cache.distributeHosts g phs).1.Pending groupid := by
  refine distributeLoop_spec g _ hc fun p hp => ?_
  obtain ⟨ph, hmem, rfl⟩ := List.mem_map.mp hp
  exact hr ph ((perm_insertionSort _ phs).mem_iff.mp hmem)

theorem mem_onlineProxies {entry : ℕ × PgProxy} (hmem : entry ∈ cache.onlineProxies group) :
    entry.1 ∈ group.proxies ∧ cache.proxies.lookup entry.1 = some entry.2 := by
  obtain ⟨p, hp, hentry⟩ := mem_filterMap.mp hmem
  obtain ⟨proxy, hproxy, hentry⟩ := bind_eq_some_iff.mp hentry
  obtain ⟨-, ⟨⟩⟩ := ite_none_right_eq_some.mp hentry
  exact ⟨hp, hproxy⟩

theorem onlineProxies_ids (cache : PgCache) (group : PgGroup) :
    ((cache.onlineProxies group).map Prod.fst).Sublist group.proxies := by
  unfold onlineProxies
  induction group.proxies with
  | nil => exact List.Sublist.refl _
  | cons p ps ih =>
    rw [filterMap_cons]
    split
    · exact ih.cons p
    · next entry hentry =>
      obtain ⟨proxy, -, hentry⟩ := bind_eq_some_iff.mp hentry
      obtain ⟨-, ⟨⟩⟩ := ite_none_right_eq_some.mp hentry
      exact ih.cons_cons p

variable (hc : cache.Pending groupid)

include hc

theorem refs_withHostRefs (hg : cache.groups.lookup g = some group) (hostsMin : ℤ) :
    Refs cache g ((cache.onlineProxies group).map (cache.withHostRefs hostsMin)) := by
  have hnodup := hc.nodups.proxies g
  rw [hg, elim_some] at hnodup
  refine ⟨?_, ?_, ?_, ?_⟩
  · rw [List.map_map]
    exact hnodup.sublist (onlineProxies_ids cache group)
  · intro ph hph
    obtain ⟨entry, hmem, rfl⟩ := List.mem_map.mp hph
    exact (hc.valid.group g entry.1).mp ((assignment_lists hg entry.1).mpr
      (mem_onlineProxies hmem).1)
  · intro ph hph
    obtain ⟨entry, hmem, rfl⟩ := List.mem_map.mp hph
    have hhosts := hc.nodups.hosts entry.1
    rw [(mem_onlineProxies hmem).2, elim_some] at hhosts
    simp only [withHostRefs]
    split
    · exact nodup_nil
    · exact (perm_insertionSort _ _).nodup_iff.mpr hhosts
  · intro ph hph h hh
    obtain ⟨entry, hmem, rfl⟩ := List.mem_map.mp hph
    rw [show cache.assignment.held (cache.withHostRefs hostsMin entry).proxyid =
      (· ∈ entry.2.hosts) from assignment_held (mem_onlineProxies hmem).2]
    simp only [withHostRefs] at hh
    split at hh
    · exact nomatch hh
    · exact (perm_insertionSort _ _).mem_iff.mp hh

theorem reassignHosts_ok (g : ℕ) : (cache.reassignHosts g).1.Pending groupid := by
  unfold PgCache.reassignHosts
  cases hg : cache.groups.lookup g with
  | none => exact hc
  | some group =>
    dsimp only
    split
    · exact hc
    · split
      · refine distributeHosts_ok g hc fun ph hph => ?_
        obtain ⟨entry, hmem, rfl⟩ := List.mem_map.mp hph
        exact (hc.valid.group g entry.1).mp ((assignment_lists hg entry.1).mpr
          (mem_onlineProxies hmem).1)
      · obtain ⟨hc', hr⟩ := unassignExcessHosts_spec g
          ((cache.onlineProxies group).map fun entry =>
            (if ((cache.onlineProxies group).map fun entry => entry.2.hosts.length).sum >
              (cache.onlineProxies group).length then
              ((cache.onlineProxies group).map fun entry => entry.2.hosts.length).sum /
                (cache.onlineProxies group).length
            else 1) - entry.2.hosts.length).sum _ hc (refs_withHostRefs hc hg _)
        exact distributeHosts_ok g hc' hr.groupOf

theorem rebalanceGroup_ok (now : ℤ) (failoverDelay minOnline : ℕ → ℤ) (g : ℕ)
    : (cache.rebalanceGroup now failoverDelay minOnline g).Pending groupid := by
  unfold PgCache.rebalanceGroup
  cases hg : cache.groups.lookup g with
  | none => exact hc
  | some group =>
    dsimp only
    split
    · exact hc
    · split
      · exact hc.modifyGroup_of (fun _ => rfl) (fun _ => rfl) fun _ => rfl
      · generalize (if group.unassignedHostids ≠ [] then now else group.balanceTime) = balanceTime
        have hmodify : (cache.modifyGroup g fun G =>
            { G with
              unbalanced := true
              balanceTime }).Pending groupid :=
          hc.modifyGroup_of (fun _ => rfl) (fun _ => rfl) fun _ => rfl
        split
        · exact hmodify.modifyGroup_of (fun _ => rfl) (fun _ => rfl) fun _ => rfl
        · split
          · have hreassign := reassignHosts_ok hmodify g
            split
            · exact hreassign.modifyGroup_of (fun _ => rfl) (fun _ => rfl) fun _ => rfl
            · exact hreassign
          · exact hmodify

theorem rebalanceGroups_ok (now : ℤ) (failoverDelay minOnline : ℕ → ℤ) :
    (cache.rebalanceGroups now failoverDelay minOnline).Pending groupid :=
  Table.foldl_preserves (I := fun c : PgCache => c.Pending groupid)
    (fun _ g _ hc => rebalanceGroup_ok hc now failoverDelay minOnline g) hc

omit hc

theorem keepQueued_spec (cache : PgCache) (fuel index : ℕ) (queue : List ℕ) :
    cache.keepQueued fuel index queue ⊆ queue ∧
      (queue.Nodup → (cache.keepQueued fuel index queue).Nodup) := by
  induction fuel generalizing index queue with
  | zero => exact ⟨List.Subset.refl queue, id⟩
  | succ fuel ih =>
    unfold keepQueued
    cases hindex : queue[index]? with
    | none => exact ⟨List.Subset.refl queue, id⟩
    | some g =>
      dsimp only
      split
      · exact ih (index + 1) queue
      · have hperm := perm_removeNoorder hindex
        obtain ⟨hsubset, hnodup⟩ := ih index (removeNoorder queue index)
        refine ⟨fun g' hg' => hperm.mem_iff.mpr (mem_cons_of_mem g (hsubset hg')), fun hn => ?_⟩
        exact hnodup (nodup_cons.mp (hperm.nodup_iff.mp hn)).2

theorem getGroupAndProxyUpdates_ok (hc : cache.Pending groupid) :
    cache.getGroupAndProxyUpdates.Pending groupid := by
  have hreset : (cache.groupUpdates.foldl resetFlags cache).Pending groupid ∧
      (cache.groupUpdates.foldl resetFlags cache).groupUpdates = cache.groupUpdates := by
    refine Table.foldl_preserves (I := fun c : PgCache => c.Pending groupid ∧
      c.groupUpdates = cache.groupUpdates) (fun c g _ hc => ?_) ⟨hc, rfl⟩
    unfold resetFlags
    cases c.groups.lookup g with
    | none => exact hc
    | some group =>
      have hmodify : (c.modifyGroup g fun G => { G with flags := 0 }).Pending groupid :=
        hc.1.modifyGroup_of (fun _ => rfl) (fun _ => rfl) fun _ => rfl
      refine Table.foldl_preserves (I := fun c : PgCache => c.Pending groupid ∧
        c.groupUpdates = cache.groupUpdates) (fun c p _ hc => ?_) ⟨hmodify, hc.2⟩
      exact ⟨hc.1.modifyProxy_of (fun _ => rfl) fun _ => rfl, hc.2⟩
  obtain ⟨hok, hqueue⟩ := hreset
  obtain ⟨hsubset, hnodup⟩ := keepQueued_spec (cache.groupUpdates.foldl resetFlags cache)
    (cache.groupUpdates.foldl resetFlags cache).groupUpdates.length 0
    (cache.groupUpdates.foldl resetFlags cache).groupUpdates
  exact ⟨hok.valid, ⟨hok.nodups.proxies, hok.nodups.hostids, hok.nodups.unassigned,
    hok.nodups.hosts⟩, fun g hg => hok.queued g (hsubset hg), hnodup hok.queue_nodup⟩

variable {next : ℕ → ℕ → Prop}

theorem assignment_assign (hp : (cache.proxies.lookup p).isSome) (hhost : host.proxyid = p) :
    (({ cache with hostmap := cache.hostmap.insert h host } : PgCache).addProxyHost p h).assignment =
      cache.assignment.assign h p := by
  obtain ⟨proxy, hp⟩ := isSome_iff_exists.mp hp
  ext
  all_goals simp only [assignment, addProxyHost, modifyProxy, Table.lookup_insert_eq,
    Table.elim_modify, Table.isSome_modify, Table.bind_modify, Assignment.assign,
    update_apply]
  case groupOf p' g' =>
    split
    · cases cache.proxies.lookup p' with
      | none => rfl
      | some proxy' =>
        rw [bind_some, bind_some]
        split <;> rfl
    · rfl
  case held p' h' =>
    by_cases heq : p' = p
    · subst heq
      rw [hp, if_pos rfl, elim_some, elim_some]
      split
      · next hmem =>
        refine ⟨.inl, fun hh => hh.elim id fun hh => ?_⟩
        rw [hh.2]
        exact hmem
      · simp
    · simp [heq]
  case mapped h' p' =>
    by_cases heq : h' = h
    · simp [heq, hhost]
    · simp [heq]

theorem PgCache.OkWith.assign (hc : cache.OkWith next groupid) (hnext : next h p) (hp : p ≠ 0)
    (hunique : ∀ p', next h p' → p' = p) (hhost : host.proxyid = p) :
    (({ cache with hostmap := cache.hostmap.insert h host } : PgCache).addProxyHost p h).OkWith
      (doneNext next h) groupid := by
  have hassignment := assignment_assign (h := h) (hc.valid.next_proxy h p hnext hp) hhost
  refine ⟨?_, ⟨hc.nodups.proxies, hc.nodups.hostids, hc.nodups.unassigned, fun p' => ?_⟩, ?_,
    hc.queue_nodup⟩
  · rw [hassignment]
    exact hc.valid.assign hnext hp hunique
  · have hold := hc.nodups.hosts p'
    simp only [addProxyHost, modifyProxy, Table.elim_modify]
    split
    · cases hlookup : cache.proxies.lookup p' with
      | none => exact nodup_nil
      | some proxy =>
        rw [hlookup, elim_some] at hold
        rw [elim_some]
        split
        · exact hold
        · next hnot => exact hold.append (nodup_singleton h) (disjoint_singleton.mpr hnot)
    · exact hold
  · rw [hassignment]
    exact hc.queued

theorem assignment_unmapHost (cache : PgCache) (h : ℕ) :
    ({ cache with hostmap := cache.hostmap.erase h } : PgCache).assignment =
      cache.assignment.unmapHost h := by
  ext
  all_goals simp only [assignment, Table.lookup_erase_eq, Assignment.unmapHost,
    update_apply]
  case mapped h' p' => by_cases heq : h' = h <;> simp [heq]

theorem PgCache.OkWith.unmapHost (hc : cache.OkWith next groupid) (hnext : next h 0)
    (hunique : ∀ p', next h p' → p' = 0) :
    ({ cache with hostmap := cache.hostmap.erase h } : PgCache).OkWith (doneNext next h)
      groupid := by
  have hassignment := assignment_unmapHost cache h
  refine ⟨?_, ⟨hc.nodups.proxies, hc.nodups.hostids, hc.nodups.unassigned, hc.nodups.hosts⟩, ?_,
    hc.queue_nodup⟩
  · rw [hassignment]
    exact hc.valid.unmapHost hnext hunique
  · rw [hassignment]
    exact hc.queued

theorem PgCache.OkWith.skipHost (hc : cache.OkWith next groupid) (hnext : next h 0)
    (hunique : ∀ p', next h p' → p' = 0) (hh : cache.hostmap.lookup h = none) :
    cache.OkWith (doneNext next h) groupid := by
  have hsame : cache.assignment.unmapHost h = cache.assignment := by
    ext
    all_goals simp only [assignment, Assignment.unmapHost, update_apply]
    case mapped h' p' =>
      by_cases heq : h' = h
      · subst heq
        simp [hh]
      · simp [heq]
  have hvalid := hc.valid.unmapHost hnext hunique
  rw [hsame] at hvalid
  exact ⟨hvalid, hc.nodups, hc.queued, hc.queue_nodup⟩

def links (updates : List (ℕ × ℕ)) : ℕ → ℕ → Prop :=
  fun h p => (h, p) ∈ updates

theorem eq_of_links (hn : (updates.map Prod.fst).Nodup) {p' : ℕ} (hp : links updates h p)
    (hp' : links updates h p') : p' = p := by
  have heq := inj_on_of_nodup_map hn hp' hp rfl
  exact congrArg Prod.snd heq

theorem doneNext_links (front : List (ℕ × ℕ)) (hn : ((front ++ (h, p) :: rest).map Prod.fst).Nodup)
    :
    doneNext (links (front ++ (h, p) :: rest)) h = links (front ++ rest) := by
  rw [map_append, map_cons, nodup_append] at hn
  obtain ⟨-, hcons, hdisjoint⟩ := hn
  have hrest := (nodup_cons.mp hcons).1
  funext h' p'
  refine propext ⟨?_, fun hmem => ?_⟩
  · rintro ⟨hne, hmem⟩
    obtain hmem | hmem := mem_append.mp hmem
    · exact mem_append.mpr (.inl hmem)
    · obtain heq | hmem := mem_cons.mp hmem
      · exact absurd (congrArg Prod.fst heq) hne
      · exact mem_append.mpr (.inr hmem)
  · obtain hmem | hmem := mem_append.mp hmem
    · refine ⟨?_, mem_append.mpr (.inl hmem)⟩
      exact hdisjoint h' (List.mem_map.mpr ⟨(h', p'), hmem, rfl⟩) h mem_cons_self
    · refine ⟨?_, mem_append.mpr (.inr (mem_cons_of_mem _ hmem))⟩
      rintro rfl
      exact hrest (List.mem_map.mpr ⟨(h', p'), hmem, rfl⟩)

structure PgCache.Flush.Ok (flush : Flush) (rest : List (ℕ × ℕ)) (groupid : ℕ → Option ℕ) : Prop where
  cache : flush.cache.OkWith (links (flush.hostsNew ++ rest)) groupid
  nodup : ((flush.hostsNew ++ rest).map Prod.fst).Nodup
  hostsNew : ∀ link ∈ flush.hostsNew, link.2 ≠ 0

theorem nodup_rest {front : List (ℕ × ℕ)} {link : ℕ × ℕ}
    (hn : ((front ++ link :: rest).map Prod.fst).Nodup) :
    ((front ++ rest).map Prod.fst).Nodup :=
  hn.sublist (((sublist_cons_self link rest).append_left front).map Prod.fst)

variable {flush : Flush}

theorem flushUpdate_ok {update : ℕ × ℕ} (hf : flush.Ok (update :: rest) groupid) :
    (flushUpdate flush update).Ok rest groupid := by
  obtain ⟨h, p⟩ := update
  have hlink : links (flush.hostsNew ++ (h, p) :: rest) h p := mem_append.mpr (.inr mem_cons_self)
  have hunique : ∀ p', links (flush.hostsNew ++ (h, p) :: rest) h p' → p' = p :=
    fun p' hp' => eq_of_links hf.nodup hlink hp'
  have hdone := doneNext_links _ hf.nodup
  have hnodup := nodup_rest hf.nodup
  unfold flushUpdate
  dsimp only
  cases hhost : flush.cache.hostmap.lookup h with
  | some host =>
    dsimp only
    split
    · next hzero =>
      subst hzero
      refine ⟨?_, hnodup, hf.hostsNew⟩
      rw [← hdone]
      exact hf.cache.unmapHost hlink hunique
    · next hne =>
      refine ⟨?_, hnodup, hf.hostsNew⟩
      rw [← hdone]
      exact hf.cache.assign hlink hne hunique rfl
  | none =>
    dsimp only
    split
    · next hzero =>
      subst hzero
      refine ⟨?_, hnodup, hf.hostsNew⟩
      rw [← hdone]
      exact hf.cache.skipHost hlink hunique hhost
    · next hne =>
      have heq : flush.hostsNew ++ [(h, p)] ++ rest = flush.hostsNew ++ (h, p) :: rest := by
        rw [append_assoc, singleton_append]
      refine ⟨?_, ?_, fun link hmem => ?_⟩
      · rw [heq]
        exact hf.cache
      · rw [heq]
        exact hf.nodup
      · obtain hmem | hmem := mem_append.mp hmem
        · exact hf.hostsNew link hmem
        · rw [mem_singleton.mp hmem]
          exact hne

theorem foldl_flushUpdate_ok (hf : flush.Ok updates groupid) :
    (updates.foldl flushUpdate flush).Ok [] groupid := by
  induction updates generalizing flush with
  | nil => exact hf
  | cons update updates ih => exact ih (flushUpdate_ok hf)

theorem foldl_addNewHostmap_ok (state : PgCache × ℕ) {hostsNew : List (ℕ × ℕ)}
    (hc : state.1.OkWith (links hostsNew) groupid) (hn : (hostsNew.map Prod.fst).Nodup)
    (hne : ∀ link ∈ hostsNew, link.2 ≠ 0) :
    (hostsNew.foldl addNewHostmap state).1.OkWith (links []) groupid := by
  induction hostsNew generalizing state with
  | nil => exact hc
  | cons link hostsNew ih =>
    have hlink : links (link :: hostsNew) link.1 link.2 := mem_cons_self
    have hdone : doneNext (links (link :: hostsNew)) link.1 = links hostsNew := doneNext_links [] hn
    refine ih (addNewHostmap state link) ?_ (nodup_cons.mp hn).2 fun link' hmem =>
      hne link' (mem_cons_of_mem link hmem)
    rw [← hdone]
    exact hc.assign hlink (hne link mem_cons_self) (fun p' hp' => eq_of_links hn hlink hp') rfl

theorem mem_updates : links cache.updates = cache.next := by
  funext h p
  refine propext ?_
  rw [links, updates, PgCache.next, List.mem_map]
  constructor
  · rintro ⟨entry, hmem, heq⟩
    obtain ⟨rfl, rfl⟩ := Prod.mk.injEq _ _ _ _ ▸ heq
    exact AList.mem_lookup_iff.mpr hmem
  · intro hlookup
    exact ⟨⟨h, p⟩, AList.mem_lookup_iff.mp hlookup, rfl⟩

theorem nodup_updates (cache : PgCache) : (cache.updates.map Prod.fst).Nodup := by
  rw [updates, List.map_map]
  exact cache.hostmapUpdates.keys_nodup

theorem PgCache.OkWith.ok_of_empty (hc : cache.OkWith (links []) groupid)
    (hempty : ∀ h, cache.hostmapUpdates.lookup h = none) : cache.Ok groupid := by
  have hnext : cache.next = links [] := by
    funext h p
    simp [PgCache.next, links, hempty]
  rw [← hnext] at hc
  exact ⟨hc, fun h p hp => absurd ((hempty h).symm.trans hp) (by simp)⟩

theorem addNewHostmaps_ok (hc : cache.Pending groupid) (hostproxyid : ℕ) :
    (cache.getHostmapUpdates.cache.addNewHostmaps cache.getHostmapUpdates.hostsNew
      hostproxyid).Ok groupid := by
  have hc' : cache.OkWith (links cache.updates) groupid := by
    rw [mem_updates]
    exact hc
  unfold getHostmapUpdates
  split
  · next hnil =>
    have hupdates : cache.updates = [] := by rw [updates, hnil, map_nil]
    rw [hupdates] at hc'
    refine hc'.ok_of_empty fun h => ?_
    rw [AList.lookup, hnil]
    rfl
  · have hstart : Flush.Ok ⟨{ cache with hostmapRevision := cache.hostmapRevision + 1 }, [], []⟩
        cache.updates groupid :=
      ⟨hc'.congr rfl rfl rfl rfl, nodup_updates cache, nofun⟩
    have hflush := foldl_flushUpdate_ok hstart
    generalize cache.updates.foldl flushUpdate
      ⟨{ cache with hostmapRevision := cache.hostmapRevision + 1 }, [], []⟩ = flush at hflush
    have hcache := hflush.cache
    have hnodup := hflush.nodup
    rw [append_nil] at hcache hnodup
    have hdone := foldl_addNewHostmap_ok
      ({ flush.cache with hostmapUpdates := ∅ }, hostproxyid)
      (hcache.congr rfl rfl rfl rfl) hnodup hflush.hostsNew
    refine hdone.ok_of_empty fun h => ?_
    refine Table.foldl_preserves (I := fun state : PgCache × ℕ =>
      state.1.hostmapUpdates.lookup h = none) (fun state link _ hs => ?_) ?_
    · exact hs
    · exact AList.lookup_empty h

theorem PgCache.Ok.pgmRebalanceAndFlushUpdates (hc : cache.Ok groupid) (now : ℤ)
    (failoverDelay minOnline : ℕ → ℤ) (hostproxyid : ℕ) :
    (cache.pgmRebalanceAndFlushUpdates now failoverDelay minOnline hostproxyid).Ok groupid :=
  addNewHostmaps_ok (getGroupAndProxyUpdates_ok
    (rebalanceGroups_ok hc.toOkWith now failoverDelay minOnline)) hostproxyid

end Zabbix.ProxyGroup
