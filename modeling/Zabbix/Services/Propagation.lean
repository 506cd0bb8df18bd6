import Zabbix.Foundation.Recompute
import Zabbix.Services.Problems

/-!
# Statuses after an update

The services are a network in which the status of a service without children is found from its
problems and the status of any other one from those of its children.
-/

namespace Zabbix.Services

open Option List Zabbix.Recompute

variable {g g' : Graph} {m m' : Manager} {leaf status status' : ℕ → ℤ} {fuel s : ℕ}
  {diff : ServicesDiff} {diffs diffs' : List ServicesDiff}

theorem children_ne_nil_of_parent {p : ℕ} (h : p ∈ (g.service s).parents) :
    (g.service p).children ≠ [] :=
  ne_nil_of_mem ((g.links s p).mp h)

variable (g leaf) in
def statusNetwork : Network ℕ ℤ where
  compute status s := if (g.service s).children = [] then leaf s else computedStatus g status s
  dependents s := (g.service s).parents
  compute_congr {f f' s} h := by
    have hchildren : ∀ c ∈ (g.service s).children, f c = f' c :=
      fun c hc => h c ((g.links c s).mpr hc)
    simp only [computedStatus_congr hchildren]

theorem foldlM_congr {σ α : Type*} {step step' : σ → α → Option σ} {l : List α}
    (h : ∀ a ∈ l, ∀ x, step x a = step' x a) (x : σ) : l.foldlM step x = l.foldlM step' x := by
  induction l generalizing x with
  | nil => rfl
  | cons a l ih =>
    obtain ⟨ha, hl⟩ := forall_mem_cons.mp h
    simp only [foldlM_cons, ha, ih hl]

theorem itsItserviceUpdateStatus_eq_refresh (leaf : ℕ → ℤ) (recalculate : Bool) (fuel : ℕ)
    (h : (g.service s).children ≠ []) (status : ℕ → ℤ) :
    itsItserviceUpdateStatus g recalculate fuel s status =
      refresh (statusNetwork g leaf) recalculate fuel s status := by
  induction fuel generalizing s status with
  | zero => rfl
  | succ fuel ih =>
    have hparents (status : ℕ → ℤ) :
        (g.service s).parents.foldlM
            (fun status p => itsItserviceUpdateStatus g recalculate fuel p status) status =
          ((statusNetwork g leaf).dependents s).foldlM
            (fun status p => refresh (statusNetwork g leaf) recalculate fuel p status) status :=
      foldlM_congr (fun p hp status => ih (children_ne_nil_of_parent hp) status) status
    have hcompute : (statusNetwork g leaf).compute status s = computedStatus g status s := if_neg h
    simp only [itsItserviceUpdateStatus, refresh, hparents, hcompute]

theorem updateStatuses_eq_refresh (leaf : ℕ → ℤ) (hleaf : (g.service diff.serviceid).children = []) :
    updateStatuses g fuel diff (leaf diff.serviceid) status =
      refresh (statusNetwork g leaf) diff.recalculate (fuel + 1) diff.serviceid status := by
  have hparents (status : ℕ → ℤ) :
      (g.service diff.serviceid).parents.foldlM
          (fun status p => itsItserviceUpdateStatus g diff.recalculate fuel p status) status =
        ((statusNetwork g leaf).dependents diff.serviceid).foldlM
          (fun status p => refresh (statusNetwork g leaf) diff.recalculate fuel p status)
          status :=
    foldlM_congr (fun p hp status =>
      itsItserviceUpdateStatus_eq_refresh leaf _ fuel (children_ne_nil_of_parent hp) status) status
  have hcompute : (statusNetwork g leaf).compute status diff.serviceid = leaf diff.serviceid :=
    if_pos hleaf
  simp only [updateStatuses, refresh, hparents, hcompute]

theorem wellFounded_parents (g : Graph) : WellFounded fun p s => p ∈ (g.service s).parents :=
  wellFounded_of_acyclic (finite_toSet g.serviceids)
    (fun h => ⟨(g.known _ _ h).2, (g.known _ _ h).1⟩) g.acyclic

theorem wellFounded_children (g : Graph) : WellFounded fun c s => s ∈ (g.service c).parents :=
  wellFounded_of_acyclic (finite_toSet g.serviceids)
    (fun h => g.known _ _ h) fun s h => g.acyclic s (Relation.transGen_swap.mp h)

theorem updateStatuses_isSome (g : Graph) (diff : ServicesDiff) :
    ∃ bound, ∀ fuel ≥ bound, ∀ new status, (updateStatuses g fuel diff new status).isSome := by
  have hparent : ∀ p ∈ (g.service diff.serviceid).parents, ∃ bound, ∀ fuel ≥ bound, ∀ status,
      (itsItserviceUpdateStatus g diff.recalculate fuel p status).isSome := by
    intro p hp
    obtain ⟨bound, hbound⟩ := refresh_isSome (statusNetwork g fun _ => statusOk)
      (wellFounded_parents g) diff.recalculate p
    refine ⟨bound, fun fuel hfuel status => ?_⟩
    rw [itsItserviceUpdateStatus_eq_refresh _ _ _ (children_ne_nil_of_parent hp)]
    exact hbound fuel hfuel status
  obtain ⟨bound, hbound⟩ := exists_bound_of_forall hparent
  refine ⟨bound, fun fuel hfuel new status => ?_⟩
  have hparents (status : ℕ → ℤ) := foldlM_isSome
    (fun status p => itsItserviceUpdateStatus g diff.recalculate fuel p status)
    (fun p hp status => hbound p hp fuel hfuel status) status
  simp only [updateStatuses]
  split_ifs
  · exact hparents _
  · exact hparents _
  · rfl

theorem dbUpdateServices_isSome (g : Graph) (diffs : List ServicesDiff) :
    ∃ bound, ∀ fuel ≥ bound, ∀ m, (dbUpdateServices g fuel m diffs).isSome := by
  obtain ⟨bound, hbound⟩ := exists_bound_of_forall fun diff (_ : diff ∈ diffs) =>
    updateStatuses_isSome g diff
  refine ⟨bound, fun fuel hfuel m => ?_⟩
  induction diffs generalizing m with
  | nil => rfl
  | cons diff diffs ih =>
    obtain ⟨hdiff, hdiffs⟩ := forall_mem_cons.mp hbound
    have hone : (dbUpdateService g fuel m diff).isSome := by
      unfold dbUpdateService
      split
      · rfl
      · rw [isSome_map]
        exact hdiff fuel hfuel _ _
    obtain ⟨mid, hmid⟩ := isSome_iff_exists.mp hone
    rw [dbUpdateServices, foldlM_cons, hmid]
    exact ih hdiffs mid

theorem dbUpdateServices_eq (h : dbUpdateServices g fuel m diffs = some m') :
    m' = { m with
      toProblemLists := problemsAfter g m.toProblemLists diffs
      status := m'.status } := by
  induction diffs generalizing m with
  | nil =>
    obtain rfl : m = m' := by simpa [dbUpdateServices] using h
    rfl
  | cons diff diffs ih =>
    rw [dbUpdateServices, foldlM_cons] at h
    obtain ⟨mid, hmid, hrest⟩ := bind_eq_some_iff.mp h
    have htail := ih hrest
    unfold dbUpdateService at hmid
    split at hmid
    · next hknown =>
      obtain rfl := Option.some.inj hmid
      rw [problemsAfter, foldl_cons, if_neg hknown]
      exact htail
    · next hknown =>
      obtain ⟨status, -, rfl⟩ := map_eq_some_iff.mp hmid
      rw [problemsAfter, foldl_cons, if_pos (not_not.mp hknown)]
      exact htail

theorem dbUpdateServices_settled {pending : Set ℕ} (hdistinct : (diffs.map (·.serviceid)).Nodup)
    (hchildless : ∀ diff ∈ diffs, (g.service diff.serviceid).children = [])
    (hleaf : ∀ s, leaf s =
      m.problemsStatus ((problemsAfter g m.toProblemLists diffs).serviceProblems s))
    (hsettled : Settled (statusNetwork g leaf)
      (pending ∪ {s | ∃ diff ∈ diffs, diff.serviceid ∈ g.serviceids ∧ diff.serviceid = s}) m.status)
    (h : dbUpdateServices g fuel m diffs = some m') :
    Settled (statusNetwork g leaf) pending m'.status := by
  induction diffs generalizing m with
  | nil =>
    obtain rfl : m = m' := by simpa [dbUpdateServices] using h
    exact hsettled.mono (by simp)
  | cons diff diffs ih =>
    rw [map_cons, nodup_cons] at hdistinct
    obtain ⟨hchildless, hrest⟩ := forall_mem_cons.mp hchildless
    rw [dbUpdateServices, foldlM_cons] at h
    obtain ⟨mid, hmid, h⟩ := bind_eq_some_iff.mp h
    unfold dbUpdateService at hmid
    split at hmid
    · next hknown =>
      obtain rfl := Option.some.inj hmid
      refine ih hdistinct.2 hrest ?_ (hsettled.mono ?_) h
      · simpa [problemsAfter, hknown] using hleaf
      · rintro s (hs | ⟨other, hmem, hother, rfl⟩)
        · exact .inl hs
        · rcases mem_cons.mp hmem with rfl | hmem
          · exact absurd hother hknown
          · exact .inr ⟨other, hmem, hother, rfl⟩
    · next hknown =>
      rw [not_not] at hknown
      obtain ⟨status, hstatus, rfl⟩ := map_eq_some_iff.mp hmid
      rw [problemsAfter, foldl_cons, if_pos hknown] at hleaf
      -- the remaining diffs are for other services
      have hdiff : leaf diff.serviceid = m.problemsStatus
          ((updateProblems m.toProblemLists diff).serviceProblems diff.serviceid) := by
        rw [hleaf]
        refine congrArg m.problemsStatus ?_
        refine problemsAfter_of_notMem fun other hother _ heq => hdistinct.1 ?_
        exact heq ▸ mem_map_of_mem hother
      rw [← hdiff, updateStatuses_eq_refresh leaf hchildless] at hstatus
      refine ih hdistinct.2 hrest hleaf (refresh_settled (hsettled.mono ?_) hstatus) h
      rintro s (hs | ⟨other, hmem, hother, rfl⟩)
      · exact .inr (.inl hs)
      · rcases mem_cons.mp hmem with rfl | hmem
        · exact .inl rfl
        · exact .inr (.inr ⟨other, hmem, hother, rfl⟩)

theorem dbUpdateServices_frame
    (hchildless : ∀ diff ∈ diffs, (g.service diff.serviceid).children = [])
    (h : dbUpdateServices g fuel m diffs = some m') (hs : s ∉ g.serviceids) :
    m'.status s = m.status s := by
  induction diffs generalizing m with
  | nil => rw [show m = m' by simpa [dbUpdateServices] using h]
  | cons diff diffs ih =>
    obtain ⟨hchildless, hrest⟩ := forall_mem_cons.mp hchildless
    rw [dbUpdateServices, foldlM_cons] at h
    obtain ⟨mid, hmid, h⟩ := bind_eq_some_iff.mp h
    refine (ih hrest h).trans ?_
    unfold dbUpdateService at hmid
    split at hmid
    · rw [Option.some.inj hmid]
    · next hknown =>
      obtain ⟨status, hstatus, rfl⟩ := map_eq_some_iff.mp hmid
      rw [updateStatuses_eq_refresh (fun _ => m.problemsStatus
        ((updateProblems m.toProblemLists diff).serviceProblems diff.serviceid)) hchildless]
        at hstatus
      exact refresh_frame (P := (· ∈ g.serviceids)) (fun c _ p hp => (g.known c p hp).2)
        (not_not.mp hknown) hstatus hs

structure SameGraph (g g' : Graph) : Prop where
  serviceids : g'.serviceids = g.serviceids
  parents : ∀ s, (g'.service s).parents.Perm (g.service s).parents
  service : ∀ s, g'.service s = { g.service s with parents := (g'.service s).parents }

section SameGraph

variable (h : SameGraph g g')
include h

theorem SameGraph.children (s : ℕ) : (g'.service s).children = (g.service s).children := by
  rw [h.service]

theorem SameGraph.getStatus : g'.getStatus = g.getStatus := by
  funext status s
  rw [Graph.getStatus, h.service]
  rfl

theorem SameGraph.mostCriticalAll (status : ℕ → ℤ) (children : List ℕ) (result : ℤ) :
    mostCriticalAll g' status children result = mostCriticalAll g status children result := by
  induction children generalizing result with
  | nil => rfl
  | cons child children ih => simp only [Services.mostCriticalAll, h.getStatus, ih]

theorem SameGraph.mostCriticalOne (status : ℕ → ℤ) (children : List ℕ) (result : ℤ) :
    mostCriticalOne g' status children result = mostCriticalOne g status children result := by
  induction children generalizing result with
  | nil => rfl
  | cons child children ih => simp only [Services.mostCriticalOne, h.getStatus, ih]

theorem SameGraph.weight (s : ℕ) : (g'.service s).weight = (g.service s).weight := by rw [h.service]

theorem SameGraph.childrenByStatus (status : ℕ → ℤ) (limit : ℤ) (children : List ℕ)
    (result : ChildrenByStatus) :
    childrenByStatus g' status limit children result =
      childrenByStatus g status limit children result := by
  induction children generalizing result with
  | nil => rfl
  | cons child children ih => simp only [Services.childrenByStatus, h.getStatus, h.weight, ih]

theorem SameGraph.ruleMet (rule : ServiceRule) (found : ChildrenByStatus) :
    ruleMet g' rule found = ruleMet g rule found := by
  have hweight : servicesGetWeight g' = servicesGetWeight g := by
    funext services
    simp only [servicesGetWeight, h.weight]
  rw [Services.ruleMet, hweight, Services.ruleMet]

theorem SameGraph.computedStatus : computedStatus g' = computedStatus g := by
  funext status s
  have hmain : serviceGetMainStatus g' status s = serviceGetMainStatus g status s := by
    have halgorithm : (g'.service s).algorithm = (g.service s).algorithm := by rw [h.service]
    simp only [serviceGetMainStatus, halgorithm, h.children, h.mostCriticalAll, h.mostCriticalOne]
  have hrule (rule : ServiceRule) :
      serviceGetRuleStatus g' status s rule = serviceGetRuleStatus g status s rule := by
    unfold serviceGetRuleStatus serviceGetChildrenByStatus
    cases ruleLimit rule with
    | none => rfl
    | some limit => simp only [h.children, h.childrenByStatus, h.ruleMet]
  have hrules : (g'.service s).statusRules = (g.service s).statusRules := by rw [h.service]
  simp only [Services.computedStatus, hmain, hrule, hrules]

theorem SameGraph.problemsAfter (lists : ProblemLists) (diffs : List ServicesDiff) :
    problemsAfter g' lists diffs = problemsAfter g lists diffs := by
  simp only [Services.problemsAfter, h.serviceids]

theorem SameGraph.settled {pending : Set ℕ}
    (hsettled : Settled (statusNetwork g' leaf) pending status) :
    Settled (statusNetwork g leaf) pending status := by
  intro s hs
  have := hsettled s hs
  simpa only [statusNetwork, h.children, h.computedStatus] using this

end SameGraph

def Manager.severities (m : Manager) (s : ℕ) : Set ℤ :=
  {severity | ∃ problem ∈ m.serviceProblems s,
    m.suppressed problem = false ∧ problem.severity = severity}

/-- A service without children has the highest severity of its problems, any other one the status
that is computed from its children. -/
def Manager.Consistent (m : Manager) (g : Graph) (s : ℕ) : Prop :=
  if (g.service s).children = [] then
    IsGreatest (insert statusOk (m.severities s)) (m.status s)
  else m.status s = computedStatus g m.status s

theorem problemStatus_cases (m : Manager) (status : ℤ) (problem : ServiceProblem) :
    status ≤ m.problemStatus status problem ∧
      (m.suppressed problem = false → problem.severity ≤ m.problemStatus status problem) ∧
      (m.problemStatus status problem = status ∨
        m.suppressed problem = false ∧ m.problemStatus status problem = problem.severity) := by
  unfold Manager.problemStatus
  cases m.suppressed problem with
  | true => simp
  | false =>
    by_cases hgt : problem.severity > status
    · simp [hgt, hgt.le]
    · simp [hgt, not_lt.mp hgt]

theorem foldl_problemStatus_isGreatest (m : Manager) (problems : List ServiceProblem) (start : ℤ) :
    IsGreatest (insert start {severity | ∃ problem ∈ problems,
      m.suppressed problem = false ∧ problem.severity = severity})
      (problems.foldl m.problemStatus start) := by
  induction problems generalizing start with
  | nil => simp
  | cons problem problems ih =>
    rw [foldl_cons]
    obtain ⟨hstart, hseverity, hfrom⟩ := problemStatus_cases m start problem
    obtain ⟨hmem, hle⟩ := ih (m.problemStatus start problem)
    have hnext := hle (Set.mem_insert _ _)
    refine ⟨?_, ?_⟩
    · rcases hmem with hmem | ⟨other, hother, hmem⟩
      · rcases hfrom with hfrom | ⟨hopen, hfrom⟩
        · exact .inl (hmem.trans hfrom)
        · exact .inr ⟨problem, by simp, hopen, (hmem.trans hfrom).symm⟩
      · exact .inr ⟨other, by simp [hother], hmem⟩
    · rintro severity (rfl | ⟨other, hother, hopen, rfl⟩)
      · exact hstart.trans hnext
      · rcases mem_cons.mp hother with rfl | hother
        · exact (hseverity hopen).trans hnext
        · exact hle (.inr ⟨other, hother, hopen, rfl⟩)

theorem consistent_leaf_iff {problems : List ServiceProblem} (h : m.serviceProblems s = problems) :
    IsGreatest (insert statusOk (m.severities s)) (status s) ↔
      status s = m.problemsStatus problems := by
  have hgreatest := foldl_problemStatus_isGreatest m problems statusOk
  unfold Manager.severities
  rw [h]
  exact ⟨fun hs => hs.unique hgreatest, fun hs => hs ▸ hgreatest⟩

def leafStatuses (g : Graph) (m : Manager) (diffs : List ServicesDiff) (s : ℕ) : ℤ :=
  m.problemsStatus ((problemsAfter g m.toProblemLists diffs).serviceProblems s)

/-- The diffs are for different services without children, and the other services are
consistent. -/
structure Manager.Pending (m : Manager) (g : Graph) (diffs : List ServicesDiff) : Prop where
  distinct : (diffs.map (·.serviceid)).Nodup
  childless : ∀ diff ∈ diffs, (g.service diff.serviceid).children = []
  consistent : ∀ s ∈ g.serviceids, (∀ diff ∈ diffs, diff.serviceid ≠ s) → m.Consistent g s

variable (hpending : m.Pending g diffs)

include hpending

theorem Manager.Pending.settled (h : dbUpdateServices g fuel m diffs = some m') :
    Settled (statusNetwork g (leafStatuses g m diffs)) {s | s ∉ g.serviceids} m'.status := by
  refine dbUpdateServices_settled hpending.distinct hpending.childless (fun _ => rfl) ?_ h
  intro s hs
  obtain ⟨hknown, hnone⟩ := not_or.mp hs
  have hknown : s ∈ g.serviceids := not_not.mp hknown
  have hnone : ∀ diff ∈ diffs, diff.serviceid ∈ g.serviceids → diff.serviceid ≠ s :=
    fun diff hmem hdiff heq => hnone ⟨diff, hmem, hdiff, heq⟩
  have hsame : (problemsAfter g m.toProblemLists diffs).serviceProblems s =
      m.serviceProblems s := problemsAfter_of_notMem hnone
  have hconsistent := hpending.consistent s hknown fun diff hmem heq =>
    hnone diff hmem (heq ▸ hknown) heq
  unfold Manager.Consistent at hconsistent
  simp only [statusNetwork]
  split at hconsistent
  · next hleaf =>
    rw [if_pos hleaf, leafStatuses, hsame]
    exact (consistent_leaf_iff rfl).mp hconsistent
  · next hleaf => rwa [if_neg hleaf]

theorem Manager.Pending.same (hsame : SameGraph g g') (hperm : diffs'.Perm diffs)
    : m.Pending g' diffs' where
  distinct := (hperm.map _).nodup_iff.mpr hpending.distinct
  childless diff hdiff :=
    (hsame.children _).trans (hpending.childless diff (hperm.mem_iff.mp hdiff))
  consistent s hs hnone := by
    have h := hpending.consistent s (hsame.serviceids ▸ hs) fun diff hdiff =>
      hnone diff (hperm.mem_iff.mpr hdiff)
    unfold Manager.Consistent
    rw [hsame.children, hsame.computedStatus]
    exact h

theorem Manager.Pending.unique {fuel' : ℕ} {m'' : Manager} (hsame : SameGraph g g')
    (hperm : diffs'.Perm diffs) (h : dbUpdateServices g fuel m diffs = some m')
    (h' : dbUpdateServices g' fuel' m diffs' = some m'') : m''.status = m'.status := by
  have hpending' := hpending.same hsame hperm
  have hleaf : leafStatuses g' m diffs' = leafStatuses g m diffs := by
    funext s
    rw [leafStatuses, hsame.problemsAfter, problemsAfter_perm hpending.distinct hperm, leafStatuses]
  have hsettled := hsame.settled (hpending'.settled h')
  rw [hleaf, hsame.serviceids] at hsettled
  refine hsettled.unique (wellFounded_children g) (hpending.settled h) fun s hs => ?_
  rw [dbUpdateServices_frame hpending.childless h hs,
    dbUpdateServices_frame hpending'.childless h' (hsame.serviceids ▸ hs)]

theorem Manager.Pending.result (h : dbUpdateServices g fuel m diffs = some m')
    (hs : s ∈ g.serviceids) :
    m'.Consistent g s := by
  have hsettled := hpending.settled h s (not_not.mpr hs)
  have heq := dbUpdateServices_eq h
  unfold Manager.Consistent
  simp only [statusNetwork] at hsettled
  split at hsettled
  · next hleaf =>
    rw [if_pos hleaf, consistent_leaf_iff rfl, hsettled, heq]
    rfl
  · next hleaf =>
    rw [if_neg hleaf]
    exact hsettled

omit hpending

/-- The statuses after an update are consistent when those without a diff were consistent before,
and neither the order of the diffs nor that of the parents changes them. -/
theorem dbUpdateServices_consistent (g : Graph) (m : Manager) (diffs : List ServicesDiff)
    (hpending : m.Pending g diffs) :
    ∃ m', (∃ bound, ∀ fuel ≥ bound, dbUpdateServices g fuel m diffs = some m') ∧
      (∀ s ∈ g.serviceids, m'.Consistent g s) ∧
      ∀ g' diffs', SameGraph g g' → diffs'.Perm diffs →
        ∃ bound, ∀ fuel ≥ bound, ∃ m'', dbUpdateServices g' fuel m diffs' = some m'' ∧
          m''.status = m'.status ∧ m''.serviceProblems = m'.serviceProblems := by
  have hself : SameGraph g g := ⟨rfl, fun _ => .rfl, fun _ => rfl⟩
  obtain ⟨bound, hbound⟩ := dbUpdateServices_isSome g diffs
  obtain ⟨m', hm'⟩ := isSome_iff_exists.mp (hbound bound le_rfl m)
  refine ⟨m', ⟨bound, fun fuel hfuel => ?_⟩, fun s hs => hpending.result hm' hs, ?_⟩
  · obtain ⟨other, hother⟩ := isSome_iff_exists.mp (hbound fuel hfuel m)
    rw [hother, dbUpdateServices_eq hother, hpending.unique hself .rfl hm' hother,
      dbUpdateServices_eq hm']
  · intro g' diffs' hsame hperm
    obtain ⟨bound', hbound'⟩ := dbUpdateServices_isSome g' diffs'
    refine ⟨bound', fun fuel hfuel => ?_⟩
    obtain ⟨m'', hm''⟩ := isSome_iff_exists.mp (hbound' fuel hfuel m)
    refine ⟨m'', hm'', hpending.unique hsame hperm hm' hm'', ?_⟩
    rw [dbUpdateServices_eq hm'', dbUpdateServices_eq hm']
    funext s
    exact (congrArg (·.serviceProblems s) (hsame.problemsAfter m.toProblemLists diffs')).trans
      (problemsAfter_perm hpending.distinct hperm s)

def diamondService : ℕ → Service
  | 1 => ⟨.setOk, 0, .asIs, 0, [], [⟨1, ['a'], ['x'], false⟩, ⟨2, ['b'], [], true⟩], [], [4, 3]⟩
  | 2 => ⟨.setOk, 0, .asIs, 0, [], [⟨3, ['a'], ['x'], false⟩], [], [3]⟩
  | 3 => ⟨.mostCriticalAll, 0, .increase, 1, [], [], [1, 2], [4]⟩
  | 4 => ⟨.mostCriticalOne, 0, .asIs, 0, [⟨.nGe, 2, 3, 5⟩], [], [1, 3], []⟩
  | _ => ⟨.setOk, 0, .asIs, 0, [], [], [], []⟩

theorem diamond_parent_gt {c p : ℕ} (h : p ∈ (diamondService c).parents) : c < p := by
  rcases c with _ | _ | _ | _ | _ | c <;> simp [diamondService] at h <;> omega

def diamond : Graph where
  serviceids := [1, 2, 3, 4]
  service := diamondService
  links c p := by
    rcases c with _ | _ | _ | _ | _ | c <;> rcases p with _ | _ | _ | _ | _ | p <;>
      simp [diamondService]
  known c p h := by
    rcases c with _ | _ | _ | _ | _ | c <;> simp [diamondService] at h <;> simp <;> omega
  acyclic s h := by
    have hlt {p c : ℕ} (h : Relation.TransGen (fun p c => p ∈ (diamondService c).parents) p c) :
        c < p := by
      induction h with
      | single h => exact diamond_parent_gt h
      | tail _ h ih => exact (diamond_parent_gt h).trans ih
    exact (hlt h).ne rfl
  tagged s h := by
    rcases s with _ | _ | _ | _ | _ | s <;> simp [diamondService] at h <;> simp [diamondService]
  tagids s s' t t' h h' heq := by
    rcases s with _ | _ | _ | _ | _ | s <;> simp [diamondService] at h <;>
      rcases s' with _ | _ | _ | _ | _ | s' <;> simp [diamondService] at h' <;> grind

def diamondDiffs : List ServicesDiff :=
  [⟨1, [⟨11, 2⟩], [], false, false⟩, ⟨2, [⟨12, 3⟩], [], false, false⟩]

theorem dbUpdateServices_consistent_diamond :
    ∃ m', (∃ bound, ∀ fuel ≥ bound, dbUpdateServices diamond fuel
        (Manager.initial fun _ => statusOk) diamondDiffs = some m') ∧
      (∀ s ∈ diamond.serviceids, m'.Consistent diamond s) ∧
      ∀ g' diffs', SameGraph diamond g' → diffs'.Perm diamondDiffs →
        ∃ bound, ∀ fuel ≥ bound, ∃ m'', dbUpdateServices g' fuel
            (Manager.initial fun _ => statusOk) diffs' = some m'' ∧
          m''.status = m'.status ∧ m''.serviceProblems = m'.serviceProblems := by
  refine dbUpdateServices_consistent diamond (Manager.initial fun _ => statusOk) diamondDiffs
    ⟨by decide, by decide, ?_⟩
  have hupper : ∀ s ∈ [3, 4], (Manager.initial fun _ => statusOk).Consistent diamond s := by
    intro s hs
    have hchildren : ∀ s ∈ [3, 4], (diamond.service s).children ≠ [] := by decide
    have hcomputed : ∀ s ∈ [3, 4], statusOk = computedStatus diamond (fun _ => statusOk) s := by
      decide
    rw [Manager.Consistent, if_neg (hchildren s hs)]
    exact hcomputed s hs
  intro s hs hnone
  simp only [diamondDiffs, forall_mem_cons] at hnone
  obtain ⟨hone, htwo, -⟩ := hnone
  refine hupper s ?_
  simpa [diamond, Ne.symm hone, Ne.symm htwo] using hs

end Zabbix.Services
