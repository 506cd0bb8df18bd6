import Zabbix.Foundation.Dealing
import Zabbix.ProxyGroup.Abstraction

/-!
# Unassigned hosts are dealt to the proxies

The proxies are sorted by the hosts that may be taken from them, and the hosts are dealt in
rounds by the hosts that they have.
-/

namespace Zabbix.ProxyGroup

open Function List PgCache Dealing

variable {cache : PgCache} {g p h : ℕ} {phs : List ProxyHosts} {f : ℕ → ℤ} {given : List ℕ}

theorem assignLast_cases (cache : PgCache) (g p : ℕ) :
    cache.unassigned g = [] ∧ cache.assignLast g p = cache ∨
      ∃ hosts h, cache.unassigned g = hosts ++ [h] ∧ (cache.assignLast g p).unassigned g = hosts ∧
        (cache.assignLast g p).hostmapUpdates = cache.hostmapUpdates.insert h p := by
  unfold assignLast
  cases hlast : (cache.unassigned g).getLast? with
  | none => exact .inl ⟨getLast?_eq_none_iff.mp hlast, rfl⟩
  | some h =>
    have hsplit := dropLast_append_getLast? h hlast
    refine .inr ⟨_, h, hsplit.symm, ?_, rfl⟩
    simp only [unassigned, setHostProxy, modifyGroup, Table.elim_modify, if_true]
    cases cache.groups.lookup g <;> rfl

theorem unassigned_assignLast (cache : PgCache) (g p : ℕ) :
    (cache.assignLast g p).unassigned g = (cache.unassigned g).dropLast := by
  rcases assignLast_cases cache g p with ⟨hnone, hsame⟩ | ⟨hosts, h, hsplit, hrest, -⟩
  · rw [hsame, hnone, dropLast_nil]
  · rw [hrest, hsplit, dropLast_concat]

theorem length_unassigned_foldl (given : List ℕ) (cache : PgCache) :
    ((given.foldl (assignLast · g) cache).unassigned g).length =
      (cache.unassigned g).length - given.length := by
  induction given generalizing cache with
  | nil => rfl
  | cons p given ih =>
    rw [foldl_cons, ih, unassigned_assignLast, length_dropLast, length_cons]
    omega

theorem distributePass_eq (hostsNum : ℤ) (hnodup : (phs.map ProxyHosts.proxyid).Nodup)
    (hf : ∀ ph ∈ phs, ph.hostsNum = f ph.proxyid) (hgiven : given =
      (turn (phs.map ProxyHosts.proxyid) (hostsNum - 1) f).take (cache.unassigned g).length) :
    (distributePass g hostsNum cache phs).1 = given.foldl (assignLast · g) cache ∧
      (distributePass g hostsNum cache phs).2.map ProxyHosts.proxyid = phs.map ProxyHosts.proxyid ∧
      ∀ ph ∈ (distributePass g hostsNum cache phs).2, ph.hostsNum = raise given f ph.proxyid := by
  induction phs generalizing cache given with
  | nil =>
    obtain rfl : given = [] := by simpa [turn] using hgiven
    exact ⟨rfl, rfl, by simp [distributePass]⟩
  | cons ph phs ih =>
    have hfirst := hf ph mem_cons_self
    have hstop (hnone : given = []) : cache = given.foldl (assignLast · g) cache ∧
        ∀ ph' ∈ ph :: phs, ph'.hostsNum = raise given f ph'.proxyid := by
      rw [hnone]
      exact ⟨rfl, fun ph' hmem => by simpa [raise] using hf ph' hmem⟩
    unfold distributePass
    split
    · next hempty =>
      obtain ⟨hcache, hnums⟩ := hstop (by rw [hgiven, hempty]; rfl)
      exact ⟨hcache, rfl, hnums⟩
    · next hhosts =>
      split
      · next hmore =>
        have hround : turn ((ph :: phs).map ProxyHosts.proxyid) (hostsNum - 1) f = [] := by
          rw [turn, map_cons, takeWhile_cons_of_neg]
          simp only [decide_eq_true_eq, not_le]
          omega
        obtain ⟨hcache, hnums⟩ := hstop (by rw [hgiven, hround, take_nil])
        exact ⟨hcache, rfl, hnums⟩
      · next hless =>
        obtain ⟨hnot, hnodup⟩ := nodup_cons.mp hnodup
        obtain ⟨n, hn⟩ := Nat.exists_eq_succ_of_ne_zero (length_pos_iff.mpr hhosts).ne'
        have hround : turn ((ph :: phs).map ProxyHosts.proxyid) (hostsNum - 1) f =
            ph.proxyid :: turn (phs.map ProxyHosts.proxyid) (hostsNum - 1) f := by
          rw [turn, map_cons, takeWhile_cons_of_pos, turn]
          simp only [decide_eq_true_eq]
          omega
        have hlength : ((cache.assignLast g ph.proxyid).unassigned g).length = n := by
          rw [unassigned_assignLast, length_dropLast, hn, Nat.succ_sub_one]
        rw [hn, hround, take_succ_cons, ← hlength] at hgiven
        obtain ⟨hcache, hids, hnums⟩ :=
          ih hnodup (fun ph' hmem => hf ph' (mem_cons_of_mem _ hmem)) rfl
        have hsub := (take_sublist ((cache.assignLast g ph.proxyid).unassigned g).length
          (turn (phs.map ProxyHosts.proxyid) (hostsNum - 1) f)).trans (takeWhile_sublist _)
        subst hgiven
        refine ⟨hcache, by rw [map_cons, hids, map_cons], ?_⟩
        intro ph' hmem
        rcases mem_cons.mp hmem with rfl | hmem
        · rw [raise, count_cons_self, count_eq_zero_of_not_mem fun h => hnot (hsub.subset h)]
          dsimp only
          omega
        · have hne : ph.proxyid ≠ ph'.proxyid := fun heq =>
            hnot (heq ▸ hids ▸ mem_map_of_mem hmem)
          rw [hnums ph' hmem, raise, raise, count_cons_of_ne hne]

theorem distributeLoop_eq {first : ℕ} {rest : List ℕ} (fuel : ℕ)
    (hfuel : (cache.unassigned g).length ≤ fuel) (hids : phs.map ProxyHosts.proxyid = first :: rest)
    (hnodup : (first :: rest).Nodup) (hf : ∀ ph ∈ phs, ph.hostsNum = f ph.proxyid) :
    (distributeLoop g fuel cache phs).1 =
      (deal first rest (cache.unassigned g).length f).foldl (assignLast · g) cache := by
  induction fuel generalizing cache phs f with
  | zero =>
    rw [Nat.le_zero.mp hfuel, deal]
    rfl
  | succ fuel ih =>
    unfold distributeLoop
    split
    · next hempty =>
      rw [hempty, length_nil, deal]
      rfl
    · next hhosts =>
      cases phs with
      | nil => cases hids
      | cons ph phs =>
        obtain ⟨n, hn⟩ := Nat.exists_eq_succ_of_ne_zero (length_pos_iff.mpr hhosts).ne'
        have hfirst : ph.hostsNum = f first := by rw [hf ph mem_cons_self, (List.cons.inj hids).1]
        obtain ⟨hcache, hsame, hnums⟩ := distributePass_eq (ph.hostsNum + 1)
          (hids ▸ hnodup) hf (Eq.refl _)
        rw [hids, hfirst, add_sub_cancel_right] at hcache hnums
        rw [hids, hfirst] at hsame
        have hpos := length_pos_of_mem (first_mem_turn first rest f)
        have hlength := length_unassigned_foldl
          ((turn (first :: rest) (f first) f).take (cache.unassigned g).length) cache (g := g)
        rw [← hcache, length_take] at hlength
        dsimp only
        rw [hfirst, ih (by omega) hsame hnums, hlength, hcache, ← foldl_append, hn, deal,
          length_take]

theorem foldl_assignLast (hlength : given.length = (cache.unassigned g).length)
    (hnodup : (cache.unassigned g).Nodup) :
    (given.foldl (assignLast · g) cache).unassigned g = [] ∧
      (∀ h ∉ cache.unassigned g, (given.foldl (assignLast · g) cache).hostmapUpdates.lookup h =
        cache.hostmapUpdates.lookup h) ∧
      (∀ h ∈ cache.unassigned g, ∃ p ∈ given,
        (given.foldl (assignLast · g) cache).hostmapUpdates.lookup h = some p) ∧
      ∀ p, (cache.unassigned g).countP (fun h =>
        (given.foldl (assignLast · g) cache).hostmapUpdates.lookup h = some p) = given.count p := by
  induction given generalizing cache with
  | nil =>
    have hnone := length_eq_zero_iff.mp hlength.symm
    simp [hnone]
  | cons p given ih =>
    rcases assignLast_cases cache g p with ⟨hnone, -⟩ | ⟨hosts, h, hsplit, hrest, hupdates⟩
    · rw [hnone] at hlength
      cases hlength
    · rw [hsplit, length_append, length_singleton, length_cons] at hlength
      rw [hsplit] at hnodup
      obtain ⟨hhosts, -, hnot⟩ := nodup_append.mp hnodup
      have hnot : h ∉ hosts := fun hmem => hnot h hmem h (mem_singleton_self h) rfl
      rw [← hrest] at hhosts
      obtain ⟨hempty, hothers, hgiven, hcount⟩ := ih (by rw [hrest]; omega) hhosts
      rw [hrest, hupdates] at hothers
      rw [hrest] at hgiven hcount
      have hlast : (((p :: given).foldl (assignLast · g) cache).hostmapUpdates.lookup h) = some p := by
        rw [foldl_cons, hothers h hnot, Table.lookup_insert_eq, if_pos rfl]
      rw [hsplit]
      refine ⟨hempty, fun h' hmem => ?_, fun h' hmem => ?_, fun p' => ?_⟩
      · obtain ⟨hmem, hne⟩ := not_or.mp (fun h => hmem (mem_append.mpr h))
        rw [foldl_cons, hothers h' hmem, Table.lookup_insert_eq,
          if_neg fun heq => hne (mem_singleton.mpr heq)]
      · rcases mem_append.mp hmem with hmem | hmem
        · obtain ⟨p', hp', hlookup⟩ := hgiven h' hmem
          exact ⟨p', mem_cons_of_mem _ hp', hlookup⟩
        · rw [mem_singleton.mp hmem]
          exact ⟨p, mem_cons_self, hlast⟩
      · rw [countP_append, foldl_cons, hcount, count_cons]
        rw [foldl_cons] at hlast
        simp [hlast]

def received (cache result : PgCache) (g p : ℕ) : ℕ :=
  (cache.unassigned g).countP fun h => result.hostmapUpdates.lookup h = some p

/-- Every unassigned host is given to one of the proxies, and a proxy that is given some has at most
one host more than any other. -/
structure Distributed (cache result : PgCache) (g : ℕ) (phs : List ProxyHosts) : Prop where
  unassigned : result.unassigned g = []
  assigned : ∀ h ∈ cache.unassigned g, ∃ ph ∈ phs,
    result.hostmapUpdates.lookup h = some ph.proxyid
  others : ∀ h ∉ cache.unassigned g,
    result.hostmapUpdates.lookup h = cache.hostmapUpdates.lookup h
  level : ∀ ph ∈ phs, 0 < received cache result g ph.proxyid → ∀ other ∈ phs,
    ph.hostsNum + received cache result g ph.proxyid ≤
      other.hostsNum + received cache result g other.proxyid + 1

def dealingOrder (phs : List ProxyHosts) : List ProxyHosts :=
  phs.insertionSort fun a b => a.hostRefs.length ≤ b.hostRefs.length

theorem exists_hostsNum (hnodup : (phs.map ProxyHosts.proxyid).Nodup) :
    ∃ f : ℕ → ℤ, ∀ ph ∈ phs, ph.hostsNum = f ph.proxyid := by
  induction phs with
  | nil => exact ⟨0, by simp⟩
  | cons ph phs ih =>
    obtain ⟨hnot, hnodup⟩ := nodup_cons.mp hnodup
    obtain ⟨f, hf⟩ := ih hnodup
    refine ⟨update f ph.proxyid ph.hostsNum, forall_mem_cons.mpr ⟨?_, ?_⟩⟩
    · rw [update_self]
    · intro other hmem
      have hne : other.proxyid ≠ ph.proxyid := fun heq =>
        hnot (heq ▸ mem_map_of_mem (f := ProxyHosts.proxyid) hmem)
      rw [update_of_ne hne]
      exact hf other hmem

def someUnassigned (g n : ℕ) : PgCache :=
  { pgCacheInit 0 0 0 with
    groups := (∅ : Table PgGroup).insert g
      { PgGroup.new 0 with unassignedHostids := range n } }

theorem unassigned_someUnassigned (g n : ℕ) : (someUnassigned g n).unassigned g = range n := by
  rw [unassigned, someUnassigned, AList.lookup_insert]
  rfl

theorem distributed_iff_level {first : ℕ} {rest : List ℕ}
    (hids : (dealingOrder phs).map ProxyHosts.proxyid = first :: rest)
    (hnodup : (first :: rest).Nodup) (hf : ∀ ph ∈ phs, ph.hostsNum = f ph.proxyid)
    (hhosts : (cache.unassigned g).Nodup) :
    Distributed cache (cache.distributeHosts g phs).1 g phs ↔
      Level (first :: rest) (deal first rest (cache.unassigned g).length f) f := by
  have hmem (p : ℕ) : p ∈ first :: rest ↔ ∃ ph ∈ phs, ph.proxyid = p := by
    rw [← hids, mem_map]
    simp only [dealingOrder, mem_insertionSort]
  have hrun : (cache.distributeHosts g phs).1 =
      (deal first rest (cache.unassigned g).length f).foldl (assignLast · g) cache := by
    refine distributeLoop_eq _ le_rfl hids hnodup fun ph hph => hf ph ?_
    exact (perm_insertionSort _ phs).mem_iff.mp hph
  obtain ⟨hnone, hothers, hgiven, hcount⟩ :=
    foldl_assignLast (@length_deal _ _ first rest _ f) hhosts
  rw [← hrun] at hnone hothers hgiven hcount
  have hload : ∀ ph ∈ phs, ph.hostsNum +
      received cache (cache.distributeHosts g phs).1 g ph.proxyid =
        raise (deal first rest (cache.unassigned g).length f) f ph.proxyid := by
    intro ph hph
    rw [raise, received, hcount, hf ph hph]
  constructor
  · intro h p hp q hq
    obtain ⟨ph, hph, rfl⟩ := (hmem p).mp (deal_subset _ f hp)
    obtain ⟨other, hother, rfl⟩ := (hmem q).mp hq
    rw [← hload ph hph, ← hload other hother]
    refine h.level ph hph ?_ other hother
    rw [received, hcount]
    exact count_pos_iff.mpr hp
  · intro h
    refine ⟨hnone, fun h hh => ?_, hothers, fun ph hph hpos other hother => ?_⟩
    · obtain ⟨p, hp, hlookup⟩ := hgiven h hh
      obtain ⟨ph, hph, rfl⟩ := (hmem p).mp (deal_subset _ f hp)
      exact ⟨ph, hph, hlookup⟩
    · rw [received, hcount] at hpos
      rw [hload ph hph, hload other hother]
      exact h _ (count_pos_iff.mp hpos) _ ((hmem _).mpr ⟨other, hother, rfl⟩)

end Zabbix.ProxyGroup
