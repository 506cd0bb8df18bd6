import Zabbix.Services.Monotone

/-!
# The problems behind a status

`service_get_rootcause_eventids` goes down from a service and asks each child for the problems
that give it at least some severity.
-/

namespace Zabbix.Services

open List

variable {g : Graph} {status : ℕ → ℤ} {m m' m₀ : Manager} {s c : ℕ} {t : ℤ}
variable {rules : List ServiceRule} {found : Option ServiceRule} {service : Service}
  {problems : List ServiceProblem}

structure ServiceSeverity where
  service : ℕ
  severity : ℤ
  deriving DecidableEq

variable {asked cause : ServiceSeverity} {causes calls : List ServiceSeverity}

def serviceAddCause : List ServiceSeverity → ServiceSeverity → List ServiceSeverity
  | [], new => [new]
  | cause :: causes, new =>
    if cause.service = new.service then
      (if cause.severity > new.severity then { cause with severity := new.severity } else cause) ::
        causes
    else cause :: serviceAddCause causes new

/-- The first `switch` of `service_get_causes`: the minimum severity, and `severity` after it. -/
def requiredSeverity (service : Service) (severity : ℤ) : ℤ × ℤ :=
  if severity ≠ statusOk then
    match service.propagationRule with
    | .increase =>
      let minSeverity := int (severity - service.propagationValue)
      let minSeverity := if statusOk ≥ minSeverity then statusOk + 1 else minSeverity
      (minSeverity, minSeverity)
    | .decrease =>
      let minSeverity := int (severity + service.propagationValue)
      let minSeverity :=
        if triggerSeverityCount ≤ minSeverity then triggerSeverityCount - 1 else minSeverity
      (minSeverity, minSeverity)
    | .fixed => (0, statusOk)
    | .asIs | .ignore | .unknown => (severity, severity)
  else (0, severity)

section Model

variable (g : Graph) (status : ℕ → ℤ)

/-- The calls of `service_add_cause` for the children behind the main status. -/
def mainCauses (s : ℕ) (minSeverity severity : ℤ) : List ServiceSeverity :=
  if serviceGetMainStatus g status s ≥ minSeverity then
    (g.service s).children.filterMap fun child =>
      match g.getStatus status child with
      | none => none
      | some childStatus =>
        if childStatus = statusOk then none
        else
          match (g.service s).algorithm with
          | .mostCriticalAll => some ⟨child, statusOk⟩
          | .mostCriticalOne => if childStatus ≥ minSeverity then some ⟨child, severity⟩ else none
          | .setOk | .unknown => none
  else []

def lowerRule (found : Option ServiceRule) (rule : ServiceRule) : Option ServiceRule :=
  match found with
  | none => some rule
  | some other => if rule.limitStatus < other.limitStatus then some rule else some other

def selectRule (s : ℕ) (minSeverity : ℤ) (byWeight : Bool) : Option ServiceRule :=
  ((g.service s).statusRules.filter fun rule =>
    rule.newStatus ≥ minSeverity && serviceGetRuleStatus g status s rule ≠ statusOk &&
      rule.type.byWeight = byWeight).foldl lowerRule none

def ruleCauses (s : ℕ) (minSeverity : ℤ) (byWeight : Bool) : List ServiceSeverity :=
  match selectRule g status s minSeverity byWeight with
  | none => []
  | some rule =>
    ((serviceGetChildrenByStatus g status s rule.limitStatus).children.filter fun child =>
      !(byWeight && (g.service child).weight = 0)).map fun child => ⟨child, rule.limitStatus⟩

def causeCalls (asked : ServiceSeverity) : List ServiceSeverity :=
  let required := requiredSeverity (g.service asked.service) asked.severity
  mainCauses g status asked.service required.1 required.2 ++
    ruleCauses g status asked.service required.1 false ++
    ruleCauses g status asked.service required.1 true

def serviceCauses (asked : ServiceSeverity) : List ServiceSeverity :=
  (causeCalls g status asked).foldl serviceAddCause []

variable (m : Manager)

/-- `service_get_causes`; `none` when there are `fuel` services on a way down. -/
def serviceGetCauses : ℕ → List ℕ → ServiceSeverity → Option (List ℕ)
  | 0, _, _ => none
  | fuel + 1, eventids, asked =>
    if (g.service asked.service).children = [] then
      let minSeverity := (requiredSeverity (g.service asked.service) asked.severity).1
      some (eventids ++ ((m.serviceProblems asked.service).filter
        fun problem => problem.severity ≥ minSeverity).map (·.eventid))
    else (serviceCauses g m.status asked).foldlM (serviceGetCauses fuel) eventids

def serviceGetRootcauseEventids (fuel parent : ℕ) : Option (List ℕ) :=
  (serviceGetCauses g m fuel [] ⟨parent, statusOk⟩).map fun eventids =>
    (eventids.insertionSort (· ≤ ·)).dedup

inductive Asked (parent : ℕ) : ServiceSeverity → Prop
  | root : Asked parent ⟨parent, statusOk⟩
  | cause {asked cause : ServiceSeverity} (h : Asked parent asked)
      (hcause : cause ∈ serviceCauses g status asked) : Asked parent cause

end Model

variable {new : ServiceSeverity}

theorem mem_serviceAddCause (h : cause ∈ serviceAddCause causes new) :
    cause ∈ causes ∨ cause = new := by
  induction causes with
  | nil => exact .inr (mem_singleton.mp h)
  | cons first causes ih =>
    unfold serviceAddCause at h
    split at h
    · next hsame =>
      rcases List.mem_cons.mp h with rfl | hmem
      · split_ifs
        · exact .inr (by rw [hsame])
        · exact .inl mem_cons_self
      · exact .inl (mem_cons_of_mem _ hmem)
    · rcases List.mem_cons.mp h with rfl | hmem
      · exact .inl mem_cons_self
      · exact (ih hmem).imp_left (mem_cons_of_mem _)

theorem mem_foldl_serviceAddCause (h : cause ∈ calls.foldl serviceAddCause causes) :
    cause ∈ causes ∨ cause ∈ calls := by
  induction calls generalizing causes with
  | nil => exact .inl h
  | cons call calls ih =>
    rcases ih h with hmem | hmem
    · rcases mem_serviceAddCause hmem with hmem | rfl
      · exact .inl hmem
      · exact .inr mem_cons_self
    · exact .inr (mem_cons_of_mem _ hmem)

theorem exists_serviceAddCause (h : cause ∈ causes ∨ cause = new) :
    ∃ found ∈ serviceAddCause causes new,
      found.service = cause.service ∧ found.severity ≤ cause.severity := by
  induction causes with
  | nil =>
    obtain rfl := h.resolve_left not_mem_nil
    exact ⟨cause, mem_singleton_self _, rfl, le_rfl⟩
  | cons first causes ih =>
    unfold serviceAddCause
    split
    · next hsame =>
      rcases h with hmem | rfl
      · rcases List.mem_cons.mp hmem with rfl | hmem
        · refine ⟨_, mem_cons_self, ?_⟩
          split_ifs with hlower
          · exact ⟨rfl, hlower.le⟩
          · exact ⟨rfl, le_rfl⟩
        · exact ⟨cause, mem_cons_of_mem _ hmem, rfl, le_rfl⟩
      · refine ⟨_, mem_cons_self, ?_⟩
        split_ifs with hlower
        · exact ⟨hsame, le_rfl⟩
        · exact ⟨hsame, not_lt.mp hlower⟩
    · by_cases hfirst : cause = first
      · exact ⟨first, mem_cons_self, by rw [hfirst], by rw [hfirst]⟩
      · obtain ⟨found, hfound, hle⟩ :=
          ih (h.imp_left fun hmem => (List.mem_cons.mp hmem).resolve_left hfirst)
        exact ⟨found, mem_cons_of_mem _ hfound, hle⟩

theorem exists_foldl_serviceAddCause (h : cause ∈ causes ∨ cause ∈ calls) :
    ∃ found ∈ calls.foldl serviceAddCause causes,
      found.service = cause.service ∧ found.severity ≤ cause.severity := by
  induction calls generalizing causes cause with
  | nil => exact ⟨cause, h.resolve_right not_mem_nil, rfl, le_rfl⟩
  | cons call calls ih =>
    have hnext : (cause ∈ causes ∨ cause = call) ∨ cause ∈ calls := by
      simpa only [mem_cons, or_assoc] using h
    rcases hnext with hmem | hmem
    · obtain ⟨found, hfound, hservice, hle⟩ := exists_serviceAddCause hmem
      obtain ⟨last, hlast, hsame, hle'⟩ := ih (Or.inl hfound)
      exact ⟨last, hlast, hsame.trans hservice, hle'.trans hle⟩
    · exact ih (.inr hmem)

theorem lowerRule_isSome (found : Option ServiceRule) (rule : ServiceRule) :
    ∃ best, lowerRule found rule = some best ∧ best.limitStatus ≤ rule.limitStatus ∧
      (∀ other, found = some other → best.limitStatus ≤ other.limitStatus) ∧
      (best = rule ∨ found = some best) := by
  cases found with
  | none => exact ⟨rule, rfl, le_rfl, by simp, .inl rfl⟩
  | some other =>
    unfold lowerRule
    by_cases hlower : rule.limitStatus < other.limitStatus
    · simp [hlower, hlower.le]
    · simp [hlower, not_lt.mp hlower]

theorem foldl_lowerRule {rule : ServiceRule} (h : rule ∈ rules ∨ found = some rule) :
    ∃ best, rules.foldl lowerRule found = some best ∧ best.limitStatus ≤ rule.limitStatus := by
  induction rules generalizing found rule with
  | nil => exact ⟨rule, h.resolve_left not_mem_nil, le_rfl⟩
  | cons first rules ih =>
    obtain ⟨next, hnext, hle, hothers, -⟩ := lowerRule_isSome found first
    rw [foldl_cons, hnext]
    rcases h with hmem | hfound
    · rcases List.mem_cons.mp hmem with rfl | hmem
      · obtain ⟨best, hbest, hle'⟩ := ih (Or.inr (Eq.refl (some next)))
        exact ⟨best, hbest, hle'.trans hle⟩
      · exact ih (.inl hmem)
    · obtain ⟨best, hbest, hle'⟩ := ih (Or.inr (Eq.refl (some next)))
      exact ⟨best, hbest, hle'.trans (hothers rule hfound)⟩

theorem mem_of_foldl_lowerRule {best : ServiceRule} (h : rules.foldl lowerRule found = some best) :
    best ∈ rules ∨ found = some best := by
  induction rules generalizing found with
  | nil => exact .inr h
  | cons first rules ih =>
    obtain ⟨next, hnext, -, -, hfrom⟩ := lowerRule_isSome found first
    rw [foldl_cons, hnext] at h
    rcases ih h with hmem | hsame
    · exact .inl (mem_cons_of_mem _ hmem)
    · obtain rfl := Option.some.inj hsame
      rcases hfrom with rfl | hfrom
      · exact .inl mem_cons_self
      · exact .inr hfrom

section Calls

variable {minSeverity severity : ℤ} {byWeight : Bool} {rule best : ServiceRule}

theorem exists_selectRule (hrule : rule ∈ (g.service s).statusRules)
    (hnew : minSeverity ≤ rule.newStatus) (hmet : serviceGetRuleStatus g status s rule ≠ statusOk) :
    ∃ best, selectRule g status s minSeverity rule.type.byWeight = some best ∧
      best.limitStatus ≤ rule.limitStatus := by
  refine foldl_lowerRule (.inl (List.mem_filter.mpr ⟨hrule, ?_⟩))
  simp [hnew, hmet]

theorem mem_of_selectRule (h : selectRule g status s minSeverity byWeight = some best) :
    best ∈ (g.service s).statusRules := by
  rcases mem_of_foldl_lowerRule h with hmem | hnone
  · exact (List.mem_filter.mp hmem).1
  · cases hnone

theorem mem_ruleCauses (hselect : selectRule g status s minSeverity byWeight = some best) :
    cause ∈ ruleCauses g status s minSeverity byWeight ↔
      cause.service ∈ g.counted (g.service s).children ∧
        best.limitStatus ≤ g.shown status cause.service ∧
        (byWeight = false ∨ (g.service cause.service).weight ≠ 0) ∧
        cause.severity = best.limitStatus := by
  unfold ruleCauses serviceGetChildrenByStatus
  simp only [hselect, childrenByStatus_eq, nil_append, mem_map, mem_filter,
    decide_eq_true_eq, Bool.not_eq_true', Bool.and_eq_false_iff, decide_eq_false_iff_not]
  constructor
  · rintro ⟨child, ⟨⟨hcounted, hle⟩, hweight⟩, rfl⟩
    exact ⟨hcounted, hle, hweight, rfl⟩
  · rintro ⟨hcounted, hle, hweight, hseverity⟩
    exact ⟨cause.service, ⟨⟨hcounted, hle⟩, hweight⟩, by rw [← hseverity]⟩

theorem mem_mainCauses :
    cause ∈ mainCauses g status s minSeverity severity ↔
      minSeverity ≤ serviceGetMainStatus g status s ∧
        cause.service ∈ g.counted (g.service s).children ∧
        g.shown status cause.service ≠ statusOk ∧
        ((g.service s).algorithm = .mostCriticalAll ∧ cause.severity = statusOk ∨
          (g.service s).algorithm = .mostCriticalOne ∧
            minSeverity ≤ g.shown status cause.service ∧ cause.severity = severity) := by
  unfold mainCauses
  split_ifs with hmain
  · simp only [mem_filterMap, mem_counted]
    constructor
    · rintro ⟨child, hchild, hcall⟩
      by_cases hignored : (g.service child).propagationRule = .ignore
      · simp [getStatus_ignored hignored] at hcall
      · rw [getStatus_shown hignored] at hcall
        dsimp only at hcall
        split at hcall
        · cases hcall
        next hok =>
        cases halgorithm : (g.service s).algorithm with
        | setOk | unknown => simp [halgorithm] at hcall
        | mostCriticalAll =>
          simp only [halgorithm, Option.some.injEq] at hcall
          subst hcall
          exact ⟨hmain, ⟨hchild, hignored⟩, hok, .inl ⟨rfl, rfl⟩⟩
        | mostCriticalOne =>
          simp only [halgorithm, Option.ite_none_right_eq_some, Option.some.injEq] at hcall
          obtain ⟨hle, rfl⟩ := hcall
          exact ⟨hmain, ⟨hchild, hignored⟩, hok, .inr ⟨rfl, hle, rfl⟩⟩
    · rintro ⟨-, ⟨hchild, hignored⟩, hok, hcall⟩
      refine ⟨cause.service, hchild, ?_⟩
      rw [getStatus_shown hignored]
      dsimp only
      rw [if_neg hok]
      rcases hcall with ⟨halgorithm, hseverity⟩ | ⟨halgorithm, hle, hseverity⟩
      · rw [halgorithm, ← hseverity]
      · rw [halgorithm, ← hseverity]
        exact if_pos hle
  · simp only [not_mem_nil, false_iff]
    exact fun h => hmain h.1

end Calls

theorem mem_serviceCauses (h : cause ∈ serviceCauses g status asked) :
    cause ∈ causeCalls g status asked :=
  (mem_foldl_serviceAddCause h).resolve_left not_mem_nil

theorem exists_serviceCauses (h : cause ∈ causeCalls g status asked) :
    ∃ found ∈ serviceCauses g status asked,
      found.service = cause.service ∧ found.severity ≤ cause.severity :=
  exists_foldl_serviceAddCause (.inr h)

theorem requiredSeverity_ok (service : Service) :
    requiredSeverity service statusOk = (0, statusOk) := if_neg (not_not.mpr rfl)

theorem requiredSeverity_eq {severity : ℤ} (ha : service.Accepted) (h : IsStatus severity)
    (hok : severity ≠ statusOk) :
    requiredSeverity service severity =
      match service.propagationRule with
      | .increase => (max (severity - service.propagationValue) 0,
          max (severity - service.propagationValue) 0)
      | .decrease => (min (severity + service.propagationValue) 5,
          min (severity + service.propagationValue) 5)
      | .fixed => (0, statusOk)
      | .asIs | .ignore | .unknown => (severity, severity) := by
  have hshift := ha.shift
  rw [requiredSeverity, if_pos hok]
  simp only [IsStatus, statusOk, triggerSeverityCount] at *
  cases hrule : service.propagationRule with
  | increase =>
    have := hshift (.inl hrule)
    rw [int_eq (x := severity - _) (by omega) (by omega)]
    dsimp only
    split_ifs <;> simp only [Prod.mk.injEq] <;> omega
  | decrease =>
    have := hshift (.inr hrule)
    rw [int_eq (x := severity + _) (by omega) (by omega)]
    dsimp only
    split_ifs <;> simp only [Prod.mk.injEq] <;> omega
  | asIs | fixed | ignore | unknown => rfl

theorem requiredSeverity_range {severity : ℤ} (ha : service.Accepted) (h : IsStatus severity) :
    0 ≤ (requiredSeverity service severity).1 ∧
      (requiredSeverity service severity).2 ≤ (requiredSeverity service severity).1 ∧
      IsStatus (requiredSeverity service severity).2 := by
  by_cases hok : severity = statusOk
  · rw [hok, requiredSeverity_ok]
    exact ⟨le_rfl, by decide, isStatus_ok⟩
  · rw [requiredSeverity_eq ha h hok]
    have hshift := ha.shift
    simp only [IsStatus, statusOk, triggerSeverityCount] at *
    cases hrule : service.propagationRule with
    | increase =>
      have := hshift (.inl hrule)
      dsimp only
      omega
    | decrease =>
      have := hshift (.inr hrule)
      dsimp only
      omega
    | asIs | fixed | ignore | unknown =>
      dsimp only
      omega

theorem causeCalls_range (ha : ∀ c, (g.service c).Accepted) (hasked : IsStatus asked.severity)
    (h : cause ∈ causeCalls g status asked) :
    cause.service ∈ (g.service asked.service).children ∧ IsStatus cause.severity := by
  have hrequired := (requiredSeverity_range (ha asked.service) hasked).2.2
  have hrules {byWeight : Bool} {minSeverity : ℤ}
      (h : cause ∈ ruleCauses g status asked.service minSeverity byWeight) :
      cause.service ∈ (g.service asked.service).children ∧ IsStatus cause.severity := by
    cases hselect : selectRule g status asked.service minSeverity byWeight with
    | none => simp [ruleCauses, hselect] at h
    | some best =>
      obtain ⟨hcounted, -, -, hseverity⟩ := (mem_ruleCauses hselect).mp h
      refine ⟨(mem_counted.mp hcounted).1, ?_⟩
      rw [hseverity]
      exact (ha asked.service).limitStatus best (mem_of_selectRule hselect)
  simp only [causeCalls, mem_append] at h
  rcases h with (h | h) | h
  · obtain ⟨-, hcounted, -, hseverity⟩ := mem_mainCauses.mp h
    refine ⟨(mem_counted.mp hcounted).1, ?_⟩
    rcases hseverity with ⟨-, hseverity⟩ | ⟨-, -, hseverity⟩
    · rw [hseverity]
      exact isStatus_ok
    · rwa [hseverity]
  · exact hrules h
  · exact hrules h

section Explained

variable {status' status₀ : ℕ → ℤ}

theorem shown_explained {severity : ℤ} (ha : (g.service c).Accepted) (hx : IsStatus (status' c))
    (hy : IsStatus (status₀ c)) (hle : status₀ c ≤ status' c) (hseverity : IsStatus severity)
    (hdecrease : severity = 0 → (g.service c).propagationRule = .decrease →
      (g.service c).propagationValue = 0)
    (h : (requiredSeverity (g.service c) severity).1 ≤ status' c → status' c = status₀ c)
    (hshown : severity ≤ g.shown status' c) : g.shown status' c = g.shown status₀ c := by
  suffices hsame : status' c = status₀ c ∨ g.shown status' c = statusOk by
    rcases hsame with hsame | hok
    · rw [shown_eq ha hx, shown_eq ha hy, hsame]
    · have hmono := shown_mono ha hy hx hle
      have hlow := (shown_isStatus ha hy).1
      omega
  rw [shown_eq ha hx] at hshown ⊢
  by_cases hok : severity = statusOk
  · rw [hok, requiredSeverity_ok] at h
    by_cases hlow : status' c = statusOk
    · exact .inr (if_pos hlow)
    · refine .inl (h ?_)
      have := hx.1
      simp only [statusOk] at this hlow
      dsimp only
      omega
  · rw [requiredSeverity_eq ha hseverity hok] at h
    split_ifs at hshown ⊢ with hlow
    · exact .inr rfl
    · refine .inl (h ?_)
      simp only [IsStatus, statusOk, triggerSeverityCount] at *
      cases hrule : (g.service c).propagationRule with
      | decrease =>
        have := ha.shift (.inr hrule)
        have := fun hseverity => hdecrease hseverity hrule
        simp only [hrule] at hshown
        dsimp only
        omega
      | asIs | increase | fixed | ignore | unknown =>
        simp only [hrule] at hshown
        dsimp only
        omega

section Children

variable (ha : ∀ c, (g.service c).Accepted) (hasked : IsStatus asked.severity)
  (hstatus : ∀ c ∈ (g.service asked.service).children, IsStatus (status' c))
  (hlower : ∀ c ∈ (g.service asked.service).children, g.shown status' c ≤ g.shown status c)
  (hlowest : ∀ c ∈ (g.service asked.service).children, g.shown status₀ c ≤ g.shown status' c)
  (hcall : ∀ call ∈ causeCalls g status asked, call.severity ≤ g.shown status' call.service →
    g.shown status' call.service = g.shown status₀ call.service)
  (hmin : (requiredSeverity (g.service asked.service) asked.severity).1 ≤ t)
include ha hasked hstatus hlower hcall hmin

theorem serviceGetMainStatus_explained (h : t ≤ serviceGetMainStatus g status' asked.service) :
    t ≤ serviceGetMainStatus g status₀ asked.service := by
  obtain ⟨hzero, hrequired, -⟩ := requiredSeverity_range (ha asked.service) hasked
  have ht := hzero.trans hmin
  have hentered := hmin.trans (le_serviceGetMainStatus_mono ha ht hstatus hlower h)
  obtain ⟨halgorithm, c, hc, hle⟩ := (le_serviceGetMainStatus_iff ht).mp h
  -- a child that is not OK is one of the calls
  have hshown (c : ℕ) (hc : c ∈ (g.service asked.service).children)
      (hok : g.shown status' c ≠ statusOk)
      (hchosen : (g.service asked.service).algorithm = .mostCriticalAll ∨ t ≤ g.shown status' c) :
      (g.service c).propagationRule ≠ .ignore ∧ g.shown status' c = g.shown status₀ c := by
    have hignored : (g.service c).propagationRule ≠ .ignore := fun h => hok (shown_ignored h)
    have hlow := (shown_isStatus (ha c) (hstatus c hc)).1
    have hchild := hlower c hc
    have hbad : g.shown status c ≠ statusOk := by omega
    refine ⟨hignored, ?_⟩
    have hcounted := mem_counted.mpr ⟨hc, hignored⟩
    rcases halgorithm with hone | ⟨hall, -⟩
    · have hreaches := hchosen.resolve_left (by rw [hone]; decide)
      refine hcall ⟨c, (requiredSeverity (g.service asked.service) asked.severity).2⟩ ?_ ?_
      · refine mem_append_left _ (mem_append_left _ (mem_mainCauses.mpr ?_))
        exact ⟨hentered, hcounted, hbad, .inr ⟨hone, by dsimp only; omega, rfl⟩⟩
      · dsimp only
        omega
    · refine hcall ⟨c, statusOk⟩ ?_ hlow
      refine mem_append_left _ (mem_append_left _ (mem_mainCauses.mpr ?_))
      exact ⟨hentered, hcounted, hbad, .inl ⟨hall, rfl⟩⟩
  refine (le_serviceGetMainStatus_iff ht).mpr ⟨?_, c, hc, ?_⟩
  · refine halgorithm.imp_right fun hall => ⟨hall.1, fun c hc => ?_⟩
    refine (hall.2 c hc).imp_right fun hok => ?_
    rwa [← (hshown c hc hok (.inl hall.1)).2]
  · have hok : g.shown status' c ≠ statusOk := by
      rw [statusOk]
      omega
    rwa [← (hshown c hc hok (.inr hle)).2]

include hlowest

omit hstatus in
theorem serviceGetRuleStatus_explained {rule : ServiceRule}
    (hrule : rule ∈ (g.service asked.service).statusRules)
    (hfits : g.Fits rule (g.counted (g.service asked.service).children))
    (h : t ≤ serviceGetRuleStatus g status' asked.service rule) :
    t ≤ serviceGetRuleStatus g status₀ asked.service rule := by
  have hweight : ∀ c, 0 ≤ (g.service c).weight := fun c => (ha c).weight
  have hlimit := (ha asked.service).limitStatus rule hrule
  have hzero := (requiredSeverity_range (ha asked.service) hasked).1
  have hcurrent := h.trans (serviceGetRuleStatus_mono hweight hlimit
    ((ha asked.service).newStatus rule hrule) hfits hlower)
  have hok : serviceGetRuleStatus g status asked.service rule ≠ statusOk := by
    rw [statusOk]
    omega
  have hnew : (requiredSeverity (g.service asked.service) asked.severity).1 ≤ rule.newStatus := by
    have := (serviceGetRuleStatus_cases g status asked.service rule).resolve_right hok
    omega
  obtain ⟨best, hselect, hbest⟩ := exists_selectRule hrule hnew hok
  have hlowestLimit : rule.limitStatus ≤ rule.lowest := by
    unfold ServiceRule.lowest
    split <;> omega
  suffices hsame : serviceGetRuleStatus g status' asked.service rule =
      serviceGetRuleStatus g status₀ asked.service rule by rwa [← hsame]
  refine serviceGetRuleStatus_same hweight hlimit hfits fun c hc hmatters => ?_
  obtain ⟨hchild, hignored⟩ := mem_counted.mp hc
  constructor
  · intro hreaches
    have hmem : (⟨c, best.limitStatus⟩ : ServiceSeverity) ∈ ruleCauses g status asked.service
        (requiredSeverity (g.service asked.service) asked.severity).1 rule.type.byWeight := by
      refine (mem_ruleCauses hselect).mpr ⟨hc, ?_, hmatters, rfl⟩
      exact (hbest.trans (hlowestLimit.trans hreaches)).trans (hlower c hchild)
    have hcauses : (⟨c, best.limitStatus⟩ : ServiceSeverity) ∈ causeCalls g status asked := by
      cases hby : rule.type.byWeight with
      | false => exact mem_append_left _ (mem_append_right _ (hby ▸ hmem))
      | true => exact mem_append_right _ (hby ▸ hmem)
    rwa [← hcall _ hcauses (hbest.trans (hlowestLimit.trans hreaches))]
  · exact fun hreaches => hreaches.trans (hlowest c hchild)

end Children

theorem computedStatus_explained (ha : ∀ c, (g.service c).Accepted)
    (hfits : ∀ rule ∈ (g.service asked.service).statusRules,
      g.Fits rule (g.counted (g.service asked.service).children))
    (hasked : IsStatus asked.severity)
    (hchildren : ∀ c ∈ (g.service asked.service).children,
      (IsStatus (status c) ∧ IsStatus (status' c) ∧ status' c ≤ status c) ∧
        IsStatus (status₀ c) ∧ status₀ c ≤ status' c)
    (hcauses : ∀ cause ∈ serviceCauses g status asked,
      cause.severity ≤ g.shown status' cause.service →
        g.shown status' cause.service = g.shown status₀ cause.service)
    (hmin : (requiredSeverity (g.service asked.service) asked.severity).1 ≤
      computedStatus g status' asked.service) :
    computedStatus g status' asked.service = computedStatus g status₀ asked.service := by
  have hweight : ∀ c, 0 ≤ (g.service c).weight := fun c => (ha c).weight
  have hstatus : ∀ c ∈ (g.service asked.service).children, IsStatus (status' c) :=
    fun c hc => (hchildren c hc).1.2.1
  have hlower : ∀ c ∈ (g.service asked.service).children, g.shown status' c ≤ g.shown status c := by
    intro c hc
    obtain ⟨⟨hx, hy, hle⟩, -⟩ := hchildren c hc
    exact shown_mono (ha c) hy hx hle
  have hlowest : ∀ c ∈ (g.service asked.service).children,
      g.shown status₀ c ≤ g.shown status' c := by
    intro c hc
    obtain ⟨⟨-, hx, -⟩, hy, hle⟩ := hchildren c hc
    exact shown_mono (ha c) hy hx hle
  have hcall : ∀ call ∈ causeCalls g status asked, call.severity ≤ g.shown status' call.service →
      g.shown status' call.service = g.shown status₀ call.service := by
    intro call hcall hle
    obtain ⟨cause, hcause, hservice, hseverity⟩ := exists_serviceCauses hcall
    rw [← hservice] at hle ⊢
    exact hcauses cause hcause (hseverity.trans hle)
  refine le_antisymm ?_ (computedStatus_mono hweight ha hfits fun c hc => ?_)
  · refine le_computedStatus_iff.mpr ((le_computedStatus_iff.mp le_rfl).imp
      (serviceGetMainStatus_explained ha hasked hstatus hlower hcall hmin) ?_)
    rintro ⟨rule, hrule, hle⟩
    exact ⟨rule, hrule, serviceGetRuleStatus_explained ha hasked hlower hlowest hcall hmin
      hrule (hfits rule hrule) hle⟩
  · obtain ⟨⟨-, hx, -⟩, hy, hle⟩ := hchildren c hc
    exact ⟨hy, hx, hle⟩

end Explained

variable (g) in
def Graph.Below (parent s : ℕ) : Prop :=
  Relation.ReflTransGen (fun s c => c ∈ (g.service s).children) parent s

theorem Graph.Below.child {parent : ℕ} (h : g.Below parent s) (hc : c ∈ (g.service s).children) :
    g.Below parent c :=
  h.tail hc

theorem Graph.Below.of_child (hc : c ∈ (g.service s).children) {d : ℕ} (h : g.Below c d) :
    g.Below s d :=
  .head hc h

structure Manager.Regular (m : Manager) (g : Graph) (parent : ℕ) : Prop where
  consistent : ∀ s, g.Below parent s → m.Consistent g s
  severity : ∀ s, g.Below parent s → ∀ problem ∈ m.serviceProblems s, IsStatus problem.severity

theorem Manager.Regular.below {parent : ℕ} (h : m.Regular g parent) (hs : g.Below parent s) :
    m.Regular g s :=
  ⟨fun c hc => h.consistent c (hs.trans hc), fun c hc => h.severity c (hs.trans hc)⟩

theorem Manager.Regular.child (h : m.Regular g s) (hc : c ∈ (g.service s).children) :
    m.Regular g c :=
  h.below (.single hc)

theorem Manager.Regular.isStatus (ha : ∀ c, (g.service c).Accepted) (h : m.Regular g s) :
    IsStatus (m.status s) := by
  induction s using (wellFounded_children g).induction with
  | _ s ih =>
    have hs := h.consistent s .refl
    unfold Manager.Consistent at hs
    split at hs
    · rcases hs.1 with hok | ⟨problem, hproblem, -, hseverity⟩
      · rw [hok]
        exact isStatus_ok
      · rw [← hseverity]
        exact h.severity s .refl problem hproblem
    · rw [hs]
      exact computedStatus_isStatus ha fun c hc => ih c ((g.links c s).mpr hc) (h.child hc)

theorem Manager.Regular.mono (ha : ∀ c, (g.service c).Accepted)
    (hfits : ∀ s, ∀ rule ∈ (g.service s).statusRules,
      g.Fits rule (g.counted (g.service s).children))
    (h' : m'.Regular g s) (h : m.Regular g s)
    (hfewer : ∀ c, g.Below s c → m'.severities c ⊆ m.severities c) :
    m'.status s ≤ m.status s := by
  induction s using (wellFounded_children g).induction with
  | _ s ih =>
    have hs := h.consistent s .refl
    have hs' := h'.consistent s .refl
    unfold Manager.Consistent at hs hs'
    split at hs
    · next hleaf =>
      rw [if_pos hleaf] at hs'
      exact hs.2 (Set.insert_subset_insert (hfewer s .refl) hs'.1)
    · next hleaf =>
      rw [if_neg hleaf] at hs'
      rw [hs, hs']
      refine computedStatus_mono (fun c => (ha c).weight) ha (hfits s) fun c hc => ?_
      exact ⟨(h'.child hc).isStatus ha, (h.child hc).isStatus ha,
        ih c ((g.links c s).mpr hc) (h'.child hc) (h.child hc)
          fun d hd => hfewer d (.of_child hc hd)⟩

theorem Asked.range (ha : ∀ c, (g.service c).Accepted) {parent : ℕ} (h : Asked g status parent asked) :
    IsStatus asked.severity ∧ g.Below parent asked.service := by
  induction h with
  | root => exact ⟨isStatus_ok, .refl⟩
  | cause h hcause ih =>
    obtain ⟨hchild, hseverity⟩ := causeCalls_range ha ih.1 (mem_serviceCauses hcause)
    exact ⟨hseverity, ih.2.child hchild⟩

structure Manager.Resolves (m : Manager) (eventids : List ℕ) (m' : Manager) : Prop where
  problems : ∀ s problem, problem ∈ m'.serviceProblems s ↔
    problem ∈ m.serviceProblems s ∧ problem.eventid ∉ eventids
  suppressed : ∀ s, ∀ problem ∈ m'.serviceProblems s, m'.suppressed problem = m.suppressed problem

def Gone (g : Graph) (m' : Manager) (parent : ℕ) (eventids : List ℕ) : Prop :=
  ∀ s, g.Below parent s → ∀ problem ∈ m'.serviceProblems s, problem.eventid ∉ eventids

section Runs

variable {parent : ℕ} (ha : ∀ c, (g.service c).Accepted)
  (hfits : ∀ s, ∀ rule ∈ (g.service s).statusRules, g.Fits rule (g.counted (g.service s).children))
  (h : m.Regular g parent) (h' : m'.Regular g parent) (h₀ : m₀.Regular g parent)
  (hless : ∀ s, g.Below parent s → m'.severities s ⊆ m.severities s)
  (hnone : ∀ s, g.Below parent s → m₀.severities s = ∅)
include ha hfits h h' h₀ hless hnone

theorem regular_le (hs : g.Below parent s) :
    (IsStatus (m.status s) ∧ IsStatus (m'.status s) ∧ m'.status s ≤ m.status s) ∧
      IsStatus (m₀.status s) ∧ m₀.status s ≤ m'.status s := by
  have hs' (c : ℕ) (hc : g.Below s c) : g.Below parent c := hs.trans hc
  refine ⟨⟨(h.below hs).isStatus ha, (h'.below hs).isStatus ha, ?_⟩, (h₀.below hs).isStatus ha, ?_⟩
  · exact (h'.below hs).mono ha hfits (h.below hs) fun c hc => hless c (hs' c hc)
  · refine (h₀.below hs).mono ha hfits (h'.below hs) fun c hc => ?_
    rw [hnone c (hs' c hc)]
    exact Set.empty_subset _

theorem serviceGetCauses_explains
    (hdecrease : ∀ asked, Asked g m.status parent asked → asked.severity = 0 →
      (g.service asked.service).propagationRule = .decrease →
        (g.service asked.service).propagationValue = 0)
    (hproblems : ∀ s, ∀ problem ∈ m'.serviceProblems s, problem ∈ m.serviceProblems s)
    {fuel : ℕ} {eventids out : List ℕ} (hasked : Asked g m.status parent asked)
    (hrun : serviceGetCauses g m fuel eventids asked = some out) :
    eventids ⊆ out ∧ (Gone g m' parent out →
      (requiredSeverity (g.service asked.service) asked.severity).1 ≤ m'.status asked.service →
        m'.status asked.service = m₀.status asked.service) := by
  induction fuel generalizing asked eventids out with
  | zero => cases hrun
  | succ fuel ih =>
    obtain ⟨hseverity, hbelow⟩ := hasked.range ha
    have hstatus := h'.consistent asked.service hbelow
    unfold Manager.Consistent at hstatus
    unfold serviceGetCauses at hrun
    split at hrun
    · next hleaf =>
      obtain rfl := Option.some.inj hrun
      refine ⟨subset_append_left _ _, fun hgone hmin => ?_⟩
      rw [if_pos hleaf] at hstatus
      -- a problem of the required severity would be one of those found
      rcases hstatus.1 with hok | ⟨problem, hproblem, -, hsame⟩
      · have hzero := (requiredSeverity_range (ha asked.service) hseverity).1
        rw [hok] at hmin
        exact absurd (hzero.trans hmin) (by decide)
      · refine absurd ?_ (hgone _ hbelow problem hproblem)
        refine mem_append_right _ (mem_map_of_mem (List.mem_filter.mpr ⟨?_, ?_⟩))
        · exact hproblems _ _ hproblem
        · rw [hsame]
          exact decide_eq_true hmin
    · next hinner =>
      have hcauses : eventids ⊆ out ∧ ∀ cause ∈ serviceCauses g m.status asked,
          Gone g m' parent out →
            (requiredSeverity (g.service cause.service) cause.severity).1 ≤
              m'.status cause.service → m'.status cause.service = m₀.status cause.service := by
        have hall : ∀ cause ∈ serviceCauses g m.status asked, Asked g m.status parent cause :=
          fun cause hcause => .cause hasked hcause
        clear hstatus
        generalize serviceCauses g m.status asked = causes at hrun hall
        induction causes generalizing eventids with
        | nil =>
          obtain rfl : eventids = out := by simpa using hrun
          exact ⟨List.Subset.refl _, by simp⟩
        | cons cause causes ihCauses =>
          obtain ⟨hcause, hall⟩ := forall_mem_cons.mp hall
          rw [foldlM_cons] at hrun
          obtain ⟨mid, hmid, hrest⟩ := Option.bind_eq_some_iff.mp hrun
          obtain ⟨hfirst, hexplained⟩ := ih hcause hmid
          obtain ⟨hmore, hothers⟩ := ihCauses hrest hall
          refine ⟨List.Subset.trans hfirst hmore, forall_mem_cons.mpr ⟨fun hgone => ?_, hothers⟩⟩
          exact hexplained fun s hs problem hproblem hmem =>
            hgone s hs problem hproblem (hmore hmem)
      refine ⟨hcauses.1, fun hgone hmin => ?_⟩
      have hbase := h₀.consistent asked.service hbelow
      unfold Manager.Consistent at hbase
      rw [if_neg hinner] at hstatus hbase
      rw [hstatus, hbase]
      have hshown : ∀ cause ∈ serviceCauses g m.status asked,
          cause.severity ≤ g.shown m'.status cause.service →
            g.shown m'.status cause.service = g.shown m₀.status cause.service := by
        intro cause hcause
        have hasked' := hasked.cause hcause
        obtain ⟨hseverity, hbelow⟩ := hasked'.range ha
        obtain ⟨⟨-, hx, -⟩, hy, hle⟩ := regular_le ha hfits h h' h₀ hless hnone hbelow
        exact shown_explained (ha _) hx hy hle hseverity (hdecrease cause hasked')
          (hcauses.2 cause hcause hgone)
      exact computedStatus_explained ha (hfits _) hseverity
        (fun c hc => regular_le ha hfits h h' h₀ hless hnone (hbelow.child hc)) hshown
        (hstatus ▸ hmin)

end Runs

theorem serviceGetCauses_isSome (ha : ∀ c, (g.service c).Accepted) (m : Manager) (s : ℕ) :
    ∃ bound, ∀ fuel ≥ bound, ∀ eventids severity, IsStatus severity →
      (serviceGetCauses g m fuel eventids ⟨s, severity⟩).isSome := by
  induction s using (wellFounded_children g).induction with
  | _ s ih =>
    obtain ⟨bound, hbound⟩ := Recompute.exists_bound_of_forall
      fun c (hc : c ∈ (g.service s).children) => ih c ((g.links c s).mpr hc)
    refine ⟨bound + 1, fun fuel hfuel eventids severity hseverity => ?_⟩
    obtain ⟨fuel, rfl⟩ : ∃ n, fuel = n + 1 := ⟨fuel - 1, by omega⟩
    unfold serviceGetCauses
    split
    · rfl
    · have hcauses : ∀ cause ∈ serviceCauses g m.status ⟨s, severity⟩, ∀ eventids,
          (serviceGetCauses g m fuel eventids cause).isSome := by
        intro cause hcause eventids
        obtain ⟨hchild, hrange⟩ := causeCalls_range ha hseverity (mem_serviceCauses hcause)
        exact hbound cause.service hchild fuel (by omega) eventids cause.severity hrange
      generalize serviceCauses g m.status ⟨s, severity⟩ = causes at hcauses
      induction causes generalizing eventids with
      | nil => rfl
      | cons cause causes ihCauses =>
        obtain ⟨hcause, hcauses⟩ := forall_mem_cons.mp hcauses
        obtain ⟨mid, hmid⟩ := Option.isSome_iff_exists.mp (hcause eventids)
        rw [foldlM_cons, hmid]
        exact ihCauses mid hcauses

theorem consistent_of_status (hproblems : m.serviceProblems s = problems)
    (h : m.status s = if (g.service s).children = [] then m.problemsStatus problems
      else computedStatus g m.status s) : m.Consistent g s := by
  unfold Manager.Consistent
  split_ifs at h ⊢
  · exact (consistent_leaf_iff hproblems).mpr h
  · exact h

def Manager.of (problems : ℕ → List ServiceProblem) (status : ℕ → ℤ) : Manager :=
  { Manager.initial status with serviceProblems := problems }

def diamondManager : Manager :=
  .of (fun | 1 => [⟨11, 2⟩] | 2 => [⟨12, 3⟩] | _ => [])
    (fun | 1 => 2 | 2 => 3 | 3 => 3 | 4 => 4 | _ => statusOk)

theorem diamond_below {parent s : ℕ} (h : diamond.Below parent s) : s ≤ parent := by
  induction h with
  | refl => exact le_rfl
  | tail _ hc ih => exact (diamond_parent_gt ((diamond.links _ _).mpr hc)).le.trans ih

theorem diamond_accepted (s : ℕ) : (diamond.service s).Accepted ∧
    (∀ rule ∈ (diamond.service s).statusRules, rule.type = .nGe) ∧
    (diamond.service s).propagationRule ≠ .decrease := by
  have hknown : ∀ s ∈ [0, 1, 2, 3, 4], (diamond.service s).Accepted ∧
      (∀ rule ∈ (diamond.service s).statusRules, rule.type = .nGe) ∧
      (diamond.service s).propagationRule ≠ .decrease := by
    simp only [forall_mem_cons]
    refine ⟨?_, ?_, ?_, ?_, ?_, by simp⟩
    all_goals exact ⟨⟨by decide, by decide, by decide, by decide, by decide⟩, by decide, by decide⟩
  rcases s with _ | _ | _ | _ | _ | s
  · exact hknown 0 (by simp)
  · exact hknown 1 (by simp)
  · exact hknown 2 (by simp)
  · exact hknown 3 (by simp)
  · exact hknown 4 (by simp)
  · exact hknown 0 (by simp)

theorem diamondManager_regular (parent : ℕ) (h : parent ≤ 4) :
    diamondManager.Regular diamond parent := by
  have hstatus : ∀ s ≤ 4, diamondManager.status s = if (diamond.service s).children = []
      then diamondManager.problemsStatus (diamondManager.serviceProblems s)
      else computedStatus diamond diamondManager.status s := by decide
  have hseverity : ∀ s ≤ 4, ∀ problem ∈ diamondManager.serviceProblems s,
      IsStatus problem.severity := by decide
  exact ⟨fun s hs => consistent_of_status rfl (hstatus s ((diamond_below hs).trans h)),
    fun s hs => hseverity s ((diamond_below hs).trans h)⟩

def decreasingService : ℕ → Service
  | 1 => ⟨.setOk, 0, .decrease, 1, [], [], [], [2]⟩
  | 2 => ⟨.setOk, 0, .asIs, 0, [⟨.nGe, 1, 0, 5⟩], [], [1], []⟩
  | _ => ⟨.setOk, 0, .asIs, 0, [], [], [], []⟩

theorem decreasing_parent_gt {c p : ℕ} (h : p ∈ (decreasingService c).parents) : c < p := by
  rcases c with _ | _ | _ | c <;> simp [decreasingService] at h
  omega

def decreasing : Graph where
  serviceids := [1, 2]
  service := decreasingService
  links c p := by
    rcases c with _ | _ | _ | c <;> rcases p with _ | _ | _ | p <;> simp [decreasingService]
  known c p h := by
    rcases c with _ | _ | _ | c <;> simp [decreasingService] at h
    simp [h]
  acyclic s h := by
    have hlt {p c : ℕ} (h : Relation.TransGen (fun p c => p ∈ (decreasingService c).parents) p c) :
        c < p := by
      induction h with
      | single h => exact decreasing_parent_gt h
      | tail _ h ih => exact (decreasing_parent_gt h).trans ih
    exact (hlt h).ne rfl
  tagged s h := by rcases s with _ | _ | _ | s <;> simp [decreasingService] at h
  tagids s s' t t' h h' heq := by rcases s with _ | _ | _ | s <;> simp [decreasingService] at h

def decreasingManager (problems : List ServiceProblem) (child parent : ℤ) : Manager :=
  .of (fun | 1 => problems | _ => []) (fun | 1 => child | 2 => parent | _ => statusOk)

theorem decreasingManager_consistent {child parent : ℤ}
    (h : ∀ s ≤ 2, (decreasingManager problems child parent).status s =
      if (decreasing.service s).children = [] then
        (decreasingManager problems child parent).problemsStatus
          ((decreasingManager problems child parent).serviceProblems s)
      else computedStatus decreasing (decreasingManager problems child parent).status s) (s : ℕ) :
    (decreasingManager problems child parent).Consistent decreasing s := by
  refine consistent_of_status rfl ?_
  rcases s with _ | _ | _ | s
  · exact h 0 (by decide)
  · exact h 1 (by decide)
  · exact h 2 (by decide)
  · rfl

end Zabbix.Services
