import Mathlib.Algebra.Ring.Int.Defs
import Mathlib.Algebra.Order.BigOperators.Group.List
import Zabbix.Services.Propagation

/-!
# Statuses by the statuses below

The status of a service is a maximum of what its algorithm and its rules give, and where the
children have lower statuses it is not higher.
-/

namespace Zabbix.Services

open List

variable {g : Graph} {status status' : ℕ → ℤ} {s c : ℕ} {x y t : ℤ} {service : Service}
  {rule : ServiceRule} {children : List ℕ}

theorem int_eq (hlow : -(2 ^ 31) ≤ x) (hhigh : x < 2 ^ 31) : int x = x :=
  Int.bmod_eq_of_le (by omega) (by omega)

def IsStatus (x : ℤ) : Prop := statusOk ≤ x ∧ x < triggerSeverityCount

instance : DecidablePred IsStatus := fun _ => inferInstanceAs (Decidable (_ ∧ _))

theorem isStatus_ok : IsStatus statusOk := ⟨le_rfl, by decide⟩

structure Service.Accepted (service : Service) : Prop where
  shift : service.propagationRule = .increase ∨ service.propagationRule = .decrease →
    0 ≤ service.propagationValue ∧ service.propagationValue < triggerSeverityCount
  fixed : service.propagationRule = .fixed → IsStatus service.propagationValue
  weight : 0 ≤ service.weight
  limitStatus : ∀ rule ∈ service.statusRules, IsStatus rule.limitStatus
  newStatus : ∀ rule ∈ service.statusRules, IsStatus rule.newStatus

variable (g) in
def Graph.shown (status : ℕ → ℤ) (c : ℕ) : ℤ := (g.getStatus status c).getD statusOk

theorem getStatus_ignored (h : (g.service c).propagationRule = .ignore) :
    g.getStatus status c = none := if_pos h

theorem getStatus_shown (h : (g.service c).propagationRule ≠ .ignore) :
    g.getStatus status c = some (g.shown status c) := by
  have hsome : (g.getStatus status c).isSome := by
    unfold Graph.getStatus serviceGetStatus
    rw [if_neg h]
    split
    · rfl
    · cases (g.service c).propagationRule <;> rfl
  obtain ⟨shown, hshown⟩ := Option.isSome_iff_exists.mp hsome
  rw [Graph.shown, hshown, Option.getD_some]

variable (ha : (g.service c).Accepted)

include ha

variable (hx : IsStatus (status c))

include hx

theorem shown_eq :
    g.shown status c = if status c = statusOk then statusOk else
      match (g.service c).propagationRule with
      | .asIs => status c
      | .increase => min (status c + (g.service c).propagationValue) 5
      | .decrease => max (status c - (g.service c).propagationValue) 0
      | .fixed => (g.service c).propagationValue
      | .ignore | .unknown => statusOk := by
  obtain ⟨hlow, hhigh⟩ := hx
  have hshift := ha.shift
  simp only [statusOk, triggerSeverityCount] at hlow hhigh hshift
  simp only [Graph.shown, Graph.getStatus, serviceGetStatus, statusOk, triggerSeverityCount]
  cases hrule : (g.service c).propagationRule with
  | asIs | fixed | ignore | unknown => split_ifs <;> simp_all
  | increase =>
    obtain ⟨hv, hv'⟩ := hshift (.inl hrule)
    rw [int_eq (x := status c + _) (by omega) (by omega)]
    split_ifs <;> simp_all
    omega
  | decrease =>
    obtain ⟨hv, hv'⟩ := hshift (.inr hrule)
    rw [int_eq (x := status c - _) (by omega) (by omega)]
    split_ifs <;> simp_all
    omega

theorem shown_spec (hy : IsStatus (status' c)) (h : status c ≤ status' c) :
    IsStatus (g.shown status c) ∧ g.shown status c ≤ g.shown status' c := by
  rw [shown_eq ha hx, shown_eq ha hy]
  obtain ⟨hlow, hhigh⟩ := hx
  have hshift := ha.shift
  have hfixed := ha.fixed
  simp only [IsStatus, statusOk, triggerSeverityCount] at *
  cases hrule : (g.service c).propagationRule with
  | increase =>
    have := hshift (.inl hrule)
    dsimp only
    split_ifs <;> omega
  | decrease =>
    have := hshift (.inr hrule)
    dsimp only
    split_ifs <;> omega
  | fixed =>
    have := hfixed hrule
    dsimp only
    split_ifs <;> omega
  | asIs | ignore | unknown =>
    dsimp only
    split_ifs <;> omega

theorem shown_mono (hy : IsStatus (status' c)) (h : status c ≤ status' c) :
    g.shown status c ≤ g.shown status' c :=
  (shown_spec ha hx hy h).2

theorem shown_isStatus : IsStatus (g.shown status c) := (shown_spec ha hx hx le_rfl).1

omit hx

omit ha

theorem le_raise_iff : t ≤ (if x < y then y else x) ↔ t ≤ x ∨ t ≤ y := by
  split_ifs with hless
  · exact ⟨.inr, fun h => h.elim (fun h => h.trans hless.le) id⟩
  · exact ⟨.inl, fun h => h.elim id fun h => h.trans (not_lt.mp hless)⟩

theorem shown_ignored (h : (g.service c).propagationRule = .ignore) :
    g.shown status c = statusOk := by
  rw [Graph.shown, getStatus_ignored h, Option.getD_none]

theorem not_le_statusOk (ht : 0 ≤ t) : ¬t ≤ statusOk := by
  rw [statusOk]
  omega

theorem le_mostCriticalOne_iff (ht : 0 ≤ t) (result : ℤ) :
    t ≤ mostCriticalOne g status children result ↔
      t ≤ result ∨ ∃ c ∈ children, t ≤ g.shown status c := by
  induction children generalizing result with
  | nil => simp [mostCriticalOne]
  | cons child children ih =>
    by_cases hignored : (g.service child).propagationRule = .ignore
    · simp [mostCriticalOne, getStatus_ignored hignored, ih, shown_ignored hignored,
        not_le_statusOk ht]
    · simp only [mostCriticalOne, getStatus_shown hignored, ih, exists_mem_cons_iff,
        le_raise_iff, or_assoc]

theorem le_mostCriticalAll_iff (ht : 0 ≤ t) (result : ℤ) :
    t ≤ mostCriticalAll g status children result ↔
      (∀ c ∈ children, (g.service c).propagationRule = .ignore ∨ g.shown status c ≠ statusOk) ∧
        (t ≤ result ∨ ∃ c ∈ children, t ≤ g.shown status c) := by
  induction children generalizing result with
  | nil => simp [mostCriticalAll]
  | cons child children ih =>
    by_cases hignored : (g.service child).propagationRule = .ignore
    · simp [mostCriticalAll, getStatus_ignored hignored, ih, shown_ignored hignored, hignored,
        not_le_statusOk ht]
    · simp only [mostCriticalAll, getStatus_shown hignored, forall_mem_cons,
        exists_mem_cons_iff, hignored, false_or]
      by_cases hok : g.shown status child = statusOk
      · simp [hok, not_le_statusOk ht]
      · simp only [hok, if_false, ih, le_raise_iff, or_assoc, ne_eq, not_false_eq_true, true_and]

variable (g) in
def Graph.counted (children : List ℕ) : List ℕ :=
  children.filter fun c => (g.service c).propagationRule ≠ .ignore

theorem mem_counted : c ∈ g.counted children ↔
    c ∈ children ∧ (g.service c).propagationRule ≠ .ignore := by
  simp [Graph.counted]

theorem childrenByStatus_eq (limit : ℤ) (result : ChildrenByStatus) :
    childrenByStatus g status limit children result =
      ⟨result.children ++ (g.counted children).filter (limit ≤ g.shown status ·),
        (g.counted children).foldl (fun weight s => int (weight + (g.service s).weight))
          result.totalWeight,
        result.totalNum + (g.counted children).length⟩ := by
  induction children generalizing result with
  | nil => simp [childrenByStatus, Graph.counted]
  | cons child children ih =>
    by_cases hignored : (g.service child).propagationRule = .ignore
    · have hcounted : g.counted (child :: children) = g.counted children :=
        filter_cons_of_neg (by simp [hignored])
      simp only [childrenByStatus, getStatus_ignored hignored, ih, hcounted]
    · have hcounted : g.counted (child :: children) = child :: g.counted children :=
        filter_cons_of_pos (by simp [hignored])
      simp only [childrenByStatus, getStatus_shown hignored, ih, hcounted, foldl_cons,
        filter_cons, decide_eq_true_eq, ge_iff_le, length_cons]
      congr 1
      · split_ifs
        · rw [append_assoc, singleton_append]
        · rfl
      · omega

def RuleType.byWeight : RuleType → Bool
  | .nGe | .npGe | .nL | .npL => false
  | _ => true

variable (g) in
def Graph.share (rule : ServiceRule) (services : List ℕ) : ℤ :=
  if rule.type.byWeight then (services.map fun s => (g.service s).weight).sum
  else services.length

def Graph.Fits (g : Graph) (rule : ServiceRule) (services : List ℕ) : Prop :=
  match rule.type with
  | .npGe | .npL | .wpGe | .wpL => g.share rule services * 100 < 2 ^ 31
  | .wGe | .wL => g.share rule services < 2 ^ 31
  | .nGe | .nL | .unknown => True

def ServiceRule.met (rule : ServiceRule) (part total : ℤ) : Bool :=
  match rule.type with
  | .nGe | .wGe => part ≥ rule.limitValue
  | .npGe | .wpGe => total ≠ 0 && (part * 100).tdiv total ≥ rule.limitValue
  | .nL | .wL => total - part < rule.limitValue
  | .npL | .wpL => total ≠ 0 && ((total - part) * 100).tdiv total < rule.limitValue
  | .unknown => false

variable (hweight : ∀ c, 0 ≤ (g.service c).weight)
include hweight

theorem share_nonneg (rule : ServiceRule) (services : List ℕ) : 0 ≤ g.share rule services := by
  unfold Graph.share
  split_ifs
  · exact sum_nonneg fun w hw => by
      obtain ⟨c, -, rfl⟩ := mem_map.mp hw
      exact hweight c
  · exact Int.natCast_nonneg _

theorem servicesGetWeight_eq (hby : rule.type.byWeight) {services : List ℕ}
    (hfits : g.share rule services < 2 ^ 31) :
    servicesGetWeight g services = g.share rule services := by
  have hfold {weight : ℤ} (hnonneg : 0 ≤ weight)
      (hfits : weight + g.share rule services < 2 ^ 31) :
      services.foldl (fun weight s => int (weight + (g.service s).weight)) weight =
        weight + g.share rule services := by
    clear * - hweight hby hnonneg hfits
    induction services generalizing weight with
    | nil => simp [Graph.share, hby]
    | cons service services ih =>
      have hcons : g.share rule (service :: services) =
          (g.service service).weight + g.share rule services := by
        simp only [Graph.share, hby, if_true, map_cons, sum_cons]
      have hservice := hweight service
      have hrest := share_nonneg hweight rule services
      rw [foldl_cons, int_eq (by omega) (by omega), ih (by omega) (by omega), hcons, add_assoc]
  rw [servicesGetWeight, hfold le_rfl (by rwa [zero_add]), zero_add]

theorem share_filter_le {services : List ℕ} {p q : ℕ → Bool} (h : ∀ c ∈ services, p c → q c) :
    g.share rule (services.filter p) ≤ g.share rule (services.filter q) := by
  have hsub : (services.filter p).Sublist (services.filter q) := by
    have hboth : services.filter p = (services.filter q).filter p := by
      rw [filter_filter]
      refine filter_congr fun c hc => ?_
      cases hp : p c with
      | false => rfl
      | true => rw [h c hc hp]; rfl
    rw [hboth]
    exact filter_sublist
  unfold Graph.share
  split_ifs
  · refine (hsub.map _).sum_le_sum fun w hw => ?_
    obtain ⟨c, -, rfl⟩ := mem_map.mp hw
    exact hweight c
  · exact_mod_cast hsub.length_le

theorem ruleMet_eq (limit : ℤ) (hfits : g.Fits rule (g.counted children)) :
    ruleMet g rule (childrenByStatus g status limit children ⟨[], 0, 0⟩) =
      rule.met (g.share rule ((g.counted children).filter (limit ≤ g.shown status ·)))
        (g.share rule (g.counted children)) := by
  have hpart := share_nonneg hweight rule
    ((g.counted children).filter (limit ≤ g.shown status ·))
  have hle : g.share rule ((g.counted children).filter (limit ≤ g.shown status ·)) ≤
      g.share rule (g.counted children) := by
    have : g.share rule ((g.counted children).filter (limit ≤ g.shown status ·)) ≤
        g.share rule ((g.counted children).filter fun _ => true) :=
      share_filter_le hweight fun _ _ _ => rfl
    rwa [filter_true] at this
  rw [childrenByStatus_eq]
  generalize hfound : (g.counted children).filter (limit ≤ g.shown status ·) = found at *
  have hweights (hby : rule.type.byWeight) (hfits : g.share rule (g.counted children) < 2 ^ 31) :
      servicesGetWeight g found = g.share rule found ∧
        servicesGetWeight g (g.counted children) = g.share rule (g.counted children) ∧
        int (g.share rule (g.counted children) - g.share rule found) =
          g.share rule (g.counted children) - g.share rule found :=
    ⟨servicesGetWeight_eq hweight hby (by omega), servicesGetWeight_eq hweight hby hfits,
      int_eq (by omega) (by omega)⟩
  have hpercents (hfits : g.share rule (g.counted children) * 100 < 2 ^ 31) :
      int (g.share rule found * 100) = g.share rule found * 100 ∧
        int ((g.share rule (g.counted children) - g.share rule found) * 100) =
          (g.share rule (g.counted children) - g.share rule found) * 100 :=
    ⟨int_eq (by omega) (by omega), int_eq (by omega) (by omega)⟩
  cases htype : rule.type with
  | unknown => simp [ruleMet, ServiceRule.met, htype]
  | nGe | nL => simp [ruleMet, ServiceRule.met, htype, Graph.share, RuleType.byWeight]
  | npGe | npL =>
    simp only [Graph.Fits, htype] at hfits
    obtain ⟨hpart, hrest⟩ := hpercents hfits
    simp only [Graph.share, htype, RuleType.byWeight, Bool.false_eq_true, if_false] at hpart hrest
    simp only [ruleMet, ServiceRule.met, htype, Graph.share, RuleType.byWeight, nil_append,
      zero_add, hpart, hrest, Bool.false_eq_true, if_false]
  | wGe | wL =>
    simp only [Graph.Fits, htype] at hfits
    obtain ⟨hfound, htotal, hrest⟩ := hweights (by rw [htype]; rfl) hfits
    rw [servicesGetWeight] at htotal
    simp only [ruleMet, ServiceRule.met, htype, nil_append, hfound, htotal, hrest]
  | wpGe | wpL =>
    simp only [Graph.Fits, htype] at hfits
    obtain ⟨hfound, htotal, hrest⟩ := hweights (by rw [htype]; rfl) (by omega)
    obtain ⟨hpart, hrest'⟩ := hpercents hfits
    rw [servicesGetWeight] at htotal
    simp only [ruleMet, ServiceRule.met, htype, nil_append, hfound, htotal, hrest, hpart, hrest']

omit hweight in
theorem met_mono {part part' total : ℤ} (hle : part ≤ part') (htotal : 0 ≤ total)
    (h : rule.met part total) : rule.met part' total := by
  unfold ServiceRule.met at h ⊢
  cases htype : rule.type with
  | unknown => simp [htype] at h
  | nGe | wGe | nL | wL =>
    simp only [htype, decide_eq_true_eq] at h ⊢
    omega
  | npGe | wpGe =>
    simp only [htype, Bool.and_eq_true, decide_eq_true_eq] at h ⊢
    exact ⟨h.1, h.2.trans (Int.tdiv_le_tdiv (by omega) (by omega))⟩
  | npL | wpL =>
    simp only [htype, Bool.and_eq_true, decide_eq_true_eq] at h ⊢
    exact ⟨h.1, (Int.tdiv_le_tdiv (by omega) (by omega)).trans_lt h.2⟩

def ServiceRule.lowest (rule : ServiceRule) : ℤ :=
  match rule.type with
  | .nL | .npL | .wL | .wpL => rule.limitStatus + 1
  | _ => rule.limitStatus

variable (g) in
def Graph.found (status : ℕ → ℤ) (rule : ServiceRule) (children : List ℕ) : ℤ :=
  g.share rule ((g.counted children).filter (rule.lowest ≤ g.shown status ·))

variable (hlimit : IsStatus rule.limitStatus)

include hlimit

theorem serviceGetRuleStatus_eq (hfits : g.Fits rule (g.counted (g.service s).children)) :
    serviceGetRuleStatus g status s rule =
      if rule.met (g.found status rule (g.service s).children)
        (g.share rule (g.counted (g.service s).children)) then rule.newStatus else statusOk := by
  obtain ⟨hlow, hhigh⟩ := hlimit
  simp only [statusOk, triggerSeverityCount] at hlow hhigh
  have hlimit := int_eq (x := rule.limitStatus + 1) (by omega) (by omega)
  unfold serviceGetRuleStatus serviceGetChildrenByStatus
  cases htype : rule.type with
  | unknown => simp [ruleLimit, ServiceRule.met, htype]
  | nGe | npGe | wGe | wpGe | nL | npL | wL | wpL =>
    simp only [ruleLimit, htype, ruleMet_eq hweight _ hfits, hlimit, Graph.found,
      ServiceRule.lowest]

theorem serviceGetRuleStatus_mono (hnew : IsStatus rule.newStatus)
    (hfits : g.Fits rule (g.counted (g.service s).children))
    (h : ∀ c ∈ (g.service s).children, g.shown status c ≤ g.shown status' c) :
    serviceGetRuleStatus g status s rule ≤ serviceGetRuleStatus g status' s rule := by
  rw [serviceGetRuleStatus_eq hweight hlimit hfits, serviceGetRuleStatus_eq hweight hlimit hfits]
  have hfound : g.found status rule (g.service s).children ≤
      g.found status' rule (g.service s).children := by
    refine share_filter_le hweight fun c hc hle => ?_
    have hchild := h c (mem_counted.mp hc).1
    simp only [decide_eq_true_eq] at hle ⊢
    exact hle.trans hchild
  split_ifs with hmet hmet'
  · exact le_rfl
  · exact absurd (met_mono hfound (share_nonneg hweight _ _) hmet) hmet'
  · exact hnew.1
  · exact le_rfl

theorem serviceGetRuleStatus_same (hfits : g.Fits rule (g.counted (g.service s).children))
    (h : ∀ c ∈ g.counted (g.service s).children,
      rule.type.byWeight = false ∨ (g.service c).weight ≠ 0 →
        (rule.lowest ≤ g.shown status c ↔ rule.lowest ≤ g.shown status' c)) :
    serviceGetRuleStatus g status s rule = serviceGetRuleStatus g status' s rule := by
  rw [serviceGetRuleStatus_eq hweight hlimit hfits, serviceGetRuleStatus_eq hweight hlimit hfits]
  suffices hfound : g.found status rule (g.service s).children =
      g.found status' rule (g.service s).children by rw [hfound]
  unfold Graph.found Graph.share
  generalize g.counted (g.service s).children = services at *
  cases hby : rule.type.byWeight with
  | false =>
    simp only [Bool.false_eq_true, if_false]
    rw [filter_congr fun c hc => decide_eq_decide.mpr (h c hc (.inl hby))]
  | true =>
    simp only [if_true]
    clear hfits
    induction services with
    | nil => rfl
    | cons service services ih =>
      obtain ⟨hservice, hservices⟩ := forall_mem_cons.mp h
      have ih := ih hservices
      by_cases hzero : (g.service service).weight = 0
      · simp only [filter_cons]
        split_ifs <;> simpa [hzero] using ih
      · have hiff := hservice (.inr hzero)
        simp only [filter_cons, hiff]
        split_ifs
        · rw [map_cons, sum_cons, ih, map_cons, sum_cons]
        · exact ih

omit hlimit

omit hweight in
theorem le_computedStatus_iff :
    t ≤ computedStatus g status s ↔ t ≤ serviceGetMainStatus g status s ∨
      ∃ rule ∈ (g.service s).statusRules, t ≤ serviceGetRuleStatus g status s rule := by
  unfold computedStatus
  generalize serviceGetMainStatus g status s = start
  induction (g.service s).statusRules generalizing start with
  | nil => simp
  | cons rule rules ih => rw [foldl_cons, ih, le_raise_iff, exists_mem_cons_iff, or_assoc]

omit hweight in
theorem le_serviceGetMainStatus_iff (ht : 0 ≤ t) :
    t ≤ serviceGetMainStatus g status s ↔
      ((g.service s).algorithm = .mostCriticalOne ∨
        (g.service s).algorithm = .mostCriticalAll ∧ ∀ c ∈ (g.service s).children,
          (g.service c).propagationRule = .ignore ∨ g.shown status c ≠ statusOk) ∧
      ∃ c ∈ (g.service s).children, t ≤ g.shown status c := by
  unfold serviceGetMainStatus
  cases halgorithm : (g.service s).algorithm with
  | setOk | unknown => simp [not_le_statusOk ht]
  | mostCriticalAll => simp [le_mostCriticalAll_iff ht, not_le_statusOk ht]
  | mostCriticalOne => simp [le_mostCriticalOne_iff ht, not_le_statusOk ht]

omit hweight in
theorem statusOk_le_serviceGetMainStatus : statusOk ≤ serviceGetMainStatus g status s := by
  have hall (children : List ℕ) (result : ℤ) (h : statusOk ≤ result) :
      statusOk ≤ mostCriticalAll g status children result := by
    induction children generalizing result with
    | nil => exact h
    | cons child children ih =>
      unfold mostCriticalAll
      split
      · exact ih result h
      · split
        · next hok => exact hok.ge
        · exact ih _ (le_raise_iff.mpr (.inl h))
  have hone (children : List ℕ) (result : ℤ) (h : statusOk ≤ result) :
      statusOk ≤ mostCriticalOne g status children result := by
    induction children generalizing result with
    | nil => exact h
    | cons child children ih =>
      unfold mostCriticalOne
      split
      · exact ih result h
      · exact ih _ (le_raise_iff.mpr (.inl h))
  unfold serviceGetMainStatus
  cases (g.service s).algorithm with
  | setOk | unknown => exact le_rfl
  | mostCriticalAll => exact hall _ _ le_rfl
  | mostCriticalOne => exact hone _ _ le_rfl

omit hweight in
theorem serviceGetRuleStatus_cases (g : Graph) (status : ℕ → ℤ) (s : ℕ) (rule : ServiceRule) :
    serviceGetRuleStatus g status s rule = rule.newStatus ∨
      serviceGetRuleStatus g status s rule = statusOk := by
  unfold serviceGetRuleStatus
  split
  · exact .inr rfl
  · split_ifs
    · exact .inl rfl
    · exact .inr rfl

omit hweight in
theorem computedStatus_isStatus (ha : ∀ c, (g.service c).Accepted)
    (h : ∀ c ∈ (g.service s).children, IsStatus (status c)) :
    IsStatus (computedStatus g status s) := by
  refine ⟨le_computedStatus_iff.mpr (.inl statusOk_le_serviceGetMainStatus), ?_⟩
  refine not_le.mp fun hhigh => ?_
  rcases le_computedStatus_iff.mp hhigh with hmain | ⟨rule, hrule, hle⟩
  · obtain ⟨-, c, hc, hle⟩ := (le_serviceGetMainStatus_iff (by decide)).mp hmain
    exact absurd hle (not_le.mpr (shown_isStatus (ha c) (h c hc)).2)
  · rcases serviceGetRuleStatus_cases g status s rule with hnew | hok
    · exact absurd (hnew ▸ hle) (not_le.mpr ((ha s).newStatus rule hrule).2)
    · exact absurd (hok ▸ hle) (by decide)

omit hweight in
theorem le_serviceGetMainStatus_mono (ha : ∀ c, (g.service c).Accepted) (ht : 0 ≤ t)
    (hstatus : ∀ c ∈ (g.service s).children, IsStatus (status c))
    (h : ∀ c ∈ (g.service s).children, g.shown status c ≤ g.shown status' c)
    (hle : t ≤ serviceGetMainStatus g status s) : t ≤ serviceGetMainStatus g status' s := by
  obtain ⟨halgorithm, c, hc, hle⟩ := (le_serviceGetMainStatus_iff ht).mp hle
  refine (le_serviceGetMainStatus_iff ht).mpr ⟨?_, c, hc, hle.trans (h c hc)⟩
  refine halgorithm.imp_right fun hall => ⟨hall.1, fun c hc => ?_⟩
  refine (hall.2 c hc).imp_right fun hne => ?_
  have hlow := (shown_isStatus (ha c) (hstatus c hc)).1
  have hchild := h c hc
  omega

theorem computedStatus_mono (ha : ∀ c, (g.service c).Accepted)
    (hfits : ∀ rule ∈ (g.service s).statusRules, g.Fits rule (g.counted (g.service s).children))
    (h : ∀ c ∈ (g.service s).children,
      IsStatus (status c) ∧ IsStatus (status' c) ∧ status c ≤ status' c) :
    computedStatus g status s ≤ computedStatus g status' s := by
  have hshown : ∀ c ∈ (g.service s).children, g.shown status c ≤ g.shown status' c := by
    intro c hc
    obtain ⟨hx, hy, hle⟩ := h c hc
    exact shown_mono (ha c) hx hy hle
  rcases le_computedStatus_iff.mp (le_refl (computedStatus g status s)) with hmain | hrules
  · rcases lt_or_ge (computedStatus g status s) 0 with hok | hpos
    · have hlow : statusOk ≤ computedStatus g status' s :=
        le_computedStatus_iff.mpr (.inl statusOk_le_serviceGetMainStatus)
      rw [statusOk] at hlow
      omega
    · exact le_computedStatus_iff.mpr
        (.inl (le_serviceGetMainStatus_mono ha hpos (fun c hc => (h c hc).1) hshown hmain))
  · obtain ⟨rule, hrule, hle⟩ := hrules
    refine le_computedStatus_iff.mpr (.inr ⟨rule, hrule, hle.trans ?_⟩)
    exact serviceGetRuleStatus_mono hweight ((ha s).limitStatus rule hrule)
      ((ha s).newStatus rule hrule) (hfits rule hrule) hshown

end Zabbix.Services
