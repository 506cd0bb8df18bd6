import Mathlib.Data.Set.Finite.List

/-!
# Services, their rules and their statuses

The definitions that the service manager loads (`zbx_service_t` without what messages change),
and the status of a service by the statuses of its children.
-/

namespace Zabbix.Services

def statusOk : ℤ := -1

def triggerSeverityCount : ℤ := 6

inductive Algorithm
  | setOk
  | mostCriticalAll
  | mostCriticalOne
  | unknown
  deriving DecidableEq

inductive Propagation
  | asIs
  | increase
  | decrease
  | ignore
  | fixed
  | unknown
  deriving DecidableEq

inductive RuleType
  | nGe
  | npGe
  | nL
  | npL
  | wGe
  | wpGe
  | wL
  | wpL
  | unknown
  deriving DecidableEq

structure ServiceRule where
  type : RuleType
  limitValue : ℤ
  limitStatus : ℤ
  newStatus : ℤ

structure Tag where
  tag : List Char
  value : List Char
  deriving DecidableEq

structure ServiceProblemTag where
  serviceProblemTagid : ℕ
  tag : List Char
  value : List Char
  like : Bool
  deriving DecidableEq

/-- The part of `zbx_service_t` that is defined by the configuration. -/
structure Service where
  algorithm : Algorithm
  weight : ℤ
  propagationRule : Propagation
  propagationValue : ℤ
  statusRules : List ServiceRule
  problemTags : List ServiceProblemTag
  children : List ℕ
  parents : List ℕ

/-- The services by their ids. Links are known from both ends, problem tags are on services
without children and have ids of their own. -/
structure Graph where
  serviceids : List ℕ
  service : ℕ → Service
  links : ∀ c p, p ∈ (service c).parents ↔ c ∈ (service p).children
  known : ∀ c p, p ∈ (service c).parents → c ∈ serviceids ∧ p ∈ serviceids
  acyclic : ∀ s, ¬Relation.TransGen (fun p c => p ∈ (service c).parents) s s
  tagged : ∀ s, (service s).problemTags ≠ [] → s ∈ serviceids ∧ (service s).children = []
  tagids : ∀ s s' t t', t ∈ (service s).problemTags → t' ∈ (service s').problemTags →
    t.serviceProblemTagid = t'.serviceProblemTagid → s = s' ∧ t = t'

def int (x : ℤ) : ℤ := x.bmod (2 ^ 32)

/-- `service_get_status` of a service that has `status`; `none` when it must be ignored. -/
def serviceGetStatus (service : Service) (status : ℤ) : Option ℤ :=
  if service.propagationRule = .ignore then none
  else if status = statusOk then some statusOk
  else
    match service.propagationRule with
    | .asIs => some status
    | .increase =>
      let status := int (status + service.propagationValue)
      some (if triggerSeverityCount ≤ status then triggerSeverityCount - 1 else status)
    | .decrease =>
      let status := int (status - service.propagationValue)
      some (if statusOk ≥ status then statusOk + 1 else status)
    | .fixed => some service.propagationValue
    | .ignore | .unknown => some statusOk

variable (g : Graph) (status : ℕ → ℤ)

def Graph.getStatus (s : ℕ) : Option ℤ := serviceGetStatus (g.service s) (status s)

def mostCriticalAll : List ℕ → ℤ → ℤ
  | [], result => result
  | child :: children, result =>
    match g.getStatus status child with
    | none => mostCriticalAll children result
    | some childStatus =>
      if childStatus = statusOk then childStatus
      else mostCriticalAll children (if result < childStatus then childStatus else result)

def mostCriticalOne : List ℕ → ℤ → ℤ
  | [], result => result
  | child :: children, result =>
    match g.getStatus status child with
    | none => mostCriticalOne children result
    | some childStatus =>
      mostCriticalOne children (if result < childStatus then childStatus else result)

def serviceGetMainStatus (s : ℕ) : ℤ :=
  match (g.service s).algorithm with
  | .mostCriticalAll => mostCriticalAll g status (g.service s).children statusOk
  | .mostCriticalOne => mostCriticalOne g status (g.service s).children statusOk
  | .setOk | .unknown => statusOk

/-- The children that have the required status, and the weight and number of all that are not
ignored. -/
structure ChildrenByStatus where
  children : List ℕ
  totalWeight : ℤ
  totalNum : ℤ

def childrenByStatus (limit : ℤ) : List ℕ → ChildrenByStatus → ChildrenByStatus
  | [], result => result
  | child :: rest, result =>
    match g.getStatus status child with
    | none => childrenByStatus limit rest result
    | some childStatus =>
      childrenByStatus limit rest
        { children := if childStatus ≥ limit then result.children ++ [child] else result.children
          totalWeight := int (result.totalWeight + (g.service child).weight)
          totalNum := result.totalNum + 1 }

def serviceGetChildrenByStatus (s : ℕ) (limit : ℤ) : ChildrenByStatus :=
  childrenByStatus g status limit (g.service s).children ⟨[], 0, 0⟩

def servicesGetWeight (services : List ℕ) : ℤ :=
  services.foldl (fun weight s => int (weight + (g.service s).weight)) 0

/-- The second `switch` of `service_get_rule_status`: the rule is met. -/
def ruleMet (rule : ServiceRule) (found : ChildrenByStatus) : Bool :=
  let num : ℤ := found.children.length
  let weight := servicesGetWeight g found.children
  match rule.type with
  | .nGe => num ≥ rule.limitValue
  | .npGe => found.totalNum ≠ 0 && (int (num * 100)).tdiv found.totalNum ≥ rule.limitValue
  | .nL => found.totalNum - num < rule.limitValue
  | .npL =>
    found.totalNum ≠ 0 &&
      (int ((found.totalNum - num) * 100)).tdiv found.totalNum < rule.limitValue
  | .wGe => weight ≥ rule.limitValue
  | .wpGe => found.totalWeight ≠ 0 && (int (weight * 100)).tdiv found.totalWeight ≥ rule.limitValue
  | .wL => int (found.totalWeight - weight) < rule.limitValue
  | .wpL =>
    found.totalWeight ≠ 0 &&
      (int (int (found.totalWeight - weight) * 100)).tdiv found.totalWeight < rule.limitValue
  | .unknown => false

/-- The first `switch` of `service_get_rule_status`. -/
def ruleLimit (rule : ServiceRule) : Option ℤ :=
  match rule.type with
  | .nGe | .npGe | .wGe | .wpGe => some rule.limitStatus
  | .nL | .npL | .wL | .wpL => some (int (rule.limitStatus + 1))
  | .unknown => none

def serviceGetRuleStatus (s : ℕ) (rule : ServiceRule) : ℤ :=
  match ruleLimit rule with
  | none => statusOk
  | some limit =>
    if ruleMet g rule (serviceGetChildrenByStatus g status s limit) then rule.newStatus
    else statusOk

/-- The status that `its_itservice_update_status` computes. -/
def computedStatus (s : ℕ) : ℤ :=
  (g.service s).statusRules.foldl (fun status' rule =>
    let ruleStatus := serviceGetRuleStatus g status s rule
    if status' < ruleStatus then ruleStatus else status') (serviceGetMainStatus g status s)

section Congr

variable {g : Graph} {status status' : ℕ → ℤ} {s : ℕ} {children : List ℕ}

theorem getStatus_congr (h : status s = status' s) : g.getStatus status s = g.getStatus status' s :=
  congrArg (serviceGetStatus (g.service s)) h

variable (h : ∀ c ∈ children, status c = status' c)

include h

theorem mostCriticalAll_congr (result : ℤ) :
    mostCriticalAll g status children result = mostCriticalAll g status' children result := by
  induction children generalizing result with
  | nil => rfl
  | cons child children ih =>
    obtain ⟨hchild, hchildren⟩ := List.forall_mem_cons.mp h
    simp only [mostCriticalAll, getStatus_congr hchild, ih hchildren]

theorem mostCriticalOne_congr (result : ℤ) :
    mostCriticalOne g status children result = mostCriticalOne g status' children result := by
  induction children generalizing result with
  | nil => rfl
  | cons child children ih =>
    obtain ⟨hchild, hchildren⟩ := List.forall_mem_cons.mp h
    simp only [mostCriticalOne, getStatus_congr hchild, ih hchildren]

theorem childrenByStatus_congr (limit : ℤ) (result : ChildrenByStatus) :
    childrenByStatus g status limit children result =
      childrenByStatus g status' limit children result := by
  induction children generalizing result with
  | nil => rfl
  | cons child children ih =>
    obtain ⟨hchild, hchildren⟩ := List.forall_mem_cons.mp h
    simp only [childrenByStatus, getStatus_congr hchild, ih hchildren]

omit h

theorem computedStatus_congr (h : ∀ c ∈ (g.service s).children, status c = status' c) :
    computedStatus g status s = computedStatus g status' s := by
  have hmain : serviceGetMainStatus g status s = serviceGetMainStatus g status' s := by
    simp only [serviceGetMainStatus, mostCriticalAll_congr h, mostCriticalOne_congr h]
  have hrule (rule : ServiceRule) :
      serviceGetRuleStatus g status s rule = serviceGetRuleStatus g status' s rule := by
    unfold serviceGetRuleStatus serviceGetChildrenByStatus
    cases ruleLimit rule with
    | none => rfl
    | some limit => simp only [childrenByStatus_congr h]
  simp only [computedStatus, hmain, hrule]

end Congr

end Zabbix.Services
