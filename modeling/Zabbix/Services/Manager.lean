import Zabbix.Foundation.Vector
import Zabbix.Services.Graph

/-!
# The service manager

Each message is turned into a diff for every service that it touches, then
`db_update_services` applies the diffs and updates the statuses. Timestamps, alarms and what is
written to the database are left out.
-/

namespace Zabbix.Services

open Zabbix.Vector

structure ServiceProblem where
  eventid : ℕ
  severity : ℤ
  deriving DecidableEq

inductive TriggerValue
  | ok
  | problem
  | other
  deriving DecidableEq

structure Event where
  eventid : ℕ
  value : TriggerValue
  severity : ℤ
  tags : List Tag
  maintenanceids : List ℕ
  deriving DecidableEq

structure ServicesDiff where
  serviceid : ℕ
  serviceProblems : List ServiceProblem
  serviceProblemsRecovered : List ServiceProblem
  recalculate : Bool
  recalculateSuppress : Bool
  deriving DecidableEq

/-- The problems of the services, and `service_problems_index` with the services of each problem,
empty where there is no entry. -/
structure ProblemLists where
  serviceProblems : ℕ → List ServiceProblem
  serviceProblemsIndex : ℕ → List ℕ

structure Manager extends ProblemLists where
  status : ℕ → ℤ
  problemEvents : ℕ → Option Event
  recoveryEvents : ℕ → Bool
  deletedEventids : ℕ → Option ℤ
  currentEventid : ℕ → ℕ
  serviceDiffs : List ServicesDiff

def searchProblem (problems : List ServiceProblem) (eventid : ℕ) : Option ℕ :=
  problems.findIdx? fun problem => problem.eventid = eventid

def addServiceProblem (s : ℕ) (lists : ProblemLists) (problem : ServiceProblem) : ProblemLists where
  serviceProblems := Function.update lists.serviceProblems s (lists.serviceProblems s ++ [problem])
  serviceProblemsIndex :=
    Function.update lists.serviceProblemsIndex problem.eventid
      (lists.serviceProblemsIndex problem.eventid ++ [s])

/-- `remove_service_problem` of `problem`, which is at `index` in the list of the service. -/
def removeServiceProblem (s index : ℕ) (problem : ServiceProblem) (lists : ProblemLists) :
    ProblemLists where
  serviceProblems :=
    Function.update lists.serviceProblems s (removeNoorder (lists.serviceProblems s) index)
  serviceProblemsIndex :=
    let services := lists.serviceProblemsIndex problem.eventid
    match services.findIdx? (· = s) with
    | none => lists.serviceProblemsIndex
    | some i =>
      Function.update lists.serviceProblemsIndex problem.eventid (removeNoorder services i)

/-- The first loop of `db_update_services`: problems that are not in the diff are removed, the
others are taken out of it. `fuel` is their number. -/
def replaceProblems (s : ℕ) : ℕ → ℕ → ProblemLists → List ServiceProblem →
    ProblemLists × List ServiceProblem
  | 0, _, lists, found => (lists, found)
  | fuel + 1, i, lists, found =>
    match (lists.serviceProblems s)[i]? with
    | none => (lists, found)
    | some problem =>
      match searchProblem found problem.eventid with
      | none => replaceProblems s fuel i (removeServiceProblem s i problem lists) found
      | some index => replaceProblems s fuel (i + 1) lists (removeNoorder found index)

def removeRecovered (s : ℕ) (lists : ProblemLists) (recovered : ServiceProblem) : ProblemLists :=
  match searchProblem (lists.serviceProblems s) recovered.eventid with
  | none => lists
  | some index =>
    match (lists.serviceProblems s)[index]? with
    | none => lists
    | some problem => removeServiceProblem s index problem lists

def replaceByDiff (lists : ProblemLists) (diff : ServicesDiff) :
    ProblemLists × List ServiceProblem :=
  if diff.recalculate && !diff.recalculateSuppress then
    replaceProblems diff.serviceid (lists.serviceProblems diff.serviceid).length 0 lists
      diff.serviceProblems
  else (lists, diff.serviceProblems)

/-- What `db_update_services` does to the problems of a service. -/
def updateProblems (lists : ProblemLists) (diff : ServicesDiff) : ProblemLists :=
  let replaced := replaceByDiff lists diff
  let added := replaced.2.foldl (addServiceProblem diff.serviceid) replaced.1
  diff.serviceProblemsRecovered.foldl (removeRecovered diff.serviceid) added

def Manager.suppressed (m : Manager) (problem : ServiceProblem) : Bool :=
  match m.problemEvents problem.eventid with
  | none => false
  | some event => event.maintenanceids ≠ []

def Manager.problemStatus (m : Manager) (status : ℤ) (problem : ServiceProblem) : ℤ :=
  if m.suppressed problem then status
  else if problem.severity > status then problem.severity
  else status

def Manager.problemsStatus (m : Manager) (problems : List ServiceProblem) : ℤ :=
  problems.foldl m.problemStatus statusOk

/-- `its_itservice_update_status`; `none` when there are more than `fuel` services on a way up. -/
def itsItserviceUpdateStatus (g : Graph) (recalculate : Bool) :
    ℕ → ℕ → (ℕ → ℤ) → Option (ℕ → ℤ)
  | 0, _, _ => none
  | fuel + 1, s, status =>
    let new := computedStatus g status s
    if status s ≠ new then
      (g.service s).parents.foldlM
        (fun status p => itsItserviceUpdateStatus g recalculate fuel p status)
        (Function.update status s new)
    else if recalculate then
      (g.service s).parents.foldlM
        (fun status p => itsItserviceUpdateStatus g recalculate fuel p status) status
    else some status

def updateStatuses (g : Graph) (fuel : ℕ) (diff : ServicesDiff) (new : ℤ) (status : ℕ → ℤ) :
    Option (ℕ → ℤ) :=
  let s := diff.serviceid
  let parents (status : ℕ → ℤ) :=
    (g.service s).parents.foldlM
      (fun status p => itsItserviceUpdateStatus g diff.recalculate fuel p status) status
  if status s ≠ new then parents (Function.update status s new)
  else if diff.recalculate then parents status
  else some status

def dbUpdateService (g : Graph) (fuel : ℕ) (m : Manager) (diff : ServicesDiff) : Option Manager :=
  if diff.serviceid ∉ g.serviceids then some m
  else
    let lists := updateProblems m.toProblemLists diff
    let new := m.problemsStatus (lists.serviceProblems diff.serviceid)
    (updateStatuses g fuel diff new m.status).map fun status =>
      { m with toProblemLists := lists, status := status }

def dbUpdateServices (g : Graph) (fuel : ℕ) (m : Manager) (diffs : List ServicesDiff) :
    Option Manager :=
  diffs.foldlM (dbUpdateService g fuel) m

abbrev TagOf := ℕ × ServiceProblemTag

structure TagServices where
  values : List Char → List TagOf
  serviceProblemTagsLike : List TagOf

def addServiceProblemTagIndex (index : List Char → TagServices) (t : TagOf) :
    List Char → TagServices :=
  let services := index t.2.tag
  Function.update index t.2.tag
    (if t.2.like then
      { services with serviceProblemTagsLike := services.serviceProblemTagsLike ++ [t] }
    else
      { services with values :=
          Function.update services.values t.2.value (services.values t.2.value ++ [t]) })

def Graph.problemTags (g : Graph) : List TagOf :=
  g.serviceids.flatMap fun s => (g.service s).problemTags.map fun t => (s, t)

def serviceProblemTagsIndex (g : Graph) : List Char → TagServices :=
  g.problemTags.foldl addServiceProblemTagIndex fun _ => ⟨fun _ => [], []⟩

def tagMatches (g : Graph) (tag : Tag) : List TagOf :=
  let services := serviceProblemTagsIndex g tag.tag
  services.values tag.value ++
    services.serviceProblemTagsLike.filter fun t => t.2.value <:+: tag.value

def eventMatches (g : Graph) (event : Event) : List TagOf :=
  event.tags.flatMap (tagMatches g)

def Manager.allCurrent (m : Manager) (g : Graph) (event : Event) (s : ℕ) : Bool :=
  (g.service s).problemTags.all fun t => event.eventid = m.currentEventid t.serviceProblemTagid

def emptyDiff (recalculate recalculateSuppress : Bool) (s : ℕ) : ServicesDiff :=
  ⟨s, [], [], recalculate, recalculateSuppress⟩

def updateDiff (new : ServicesDiff) (f : ServicesDiff → ServicesDiff) :
    List ServicesDiff → List ServicesDiff
  | [] => [f new]
  | diff :: diffs =>
    if diff.serviceid = new.serviceid then f diff :: diffs else diff :: updateDiff new f diffs

def ServicesDiff.addProblem (event : Event) (diff : ServicesDiff) : ServicesDiff :=
  { diff with serviceProblems := diff.serviceProblems ++ [⟨event.eventid, event.severity⟩] }

def ServicesDiff.addRecovered (event : Event) (diff : ServicesDiff) : ServicesDiff :=
  { diff with
    serviceProblemsRecovered := diff.serviceProblemsRecovered ++ [⟨event.eventid, event.severity⟩] }

def ServicesDiff.setSuppress (diff : ServicesDiff) : ServicesDiff :=
  { diff with recalculate := true, recalculateSuppress := true }

/-- The end of the second loop of `match_event_to_service_problem_tags`. -/
def addMatch (event : Event) (recalculate : Bool) (diffs : List ServicesDiff) (s : ℕ) :
    List ServicesDiff :=
  updateDiff (emptyDiff recalculate false s) (.addProblem event) diffs

/-- `match_event_to_service_problem_tags`; the order of the candidates, that of their addresses,
only changes the order of the diffs. -/
def matchEventToServiceProblemTags (g : Graph) (event : Event) (recalculate : Bool)
    (m : Manager) : Manager :=
  let found := eventMatches g event
  let m := { m with
    currentEventid := found.foldl (fun current (t : TagOf) =>
      Function.update current t.2.serviceProblemTagid event.eventid) m.currentEventid }
  let candidates := (found.map (·.1)).dedup
  { m with
    serviceDiffs :=
      (candidates.filter (m.allCurrent g event)).foldl (addMatch event recalculate)
        m.serviceDiffs }

def addRecovered (event : Event) (diffs : List ServicesDiff) (s : ℕ) : List ServicesDiff :=
  updateDiff (emptyDiff false false s) (.addRecovered event) diffs

def recoverServicesProblem (event : Event) (m : Manager) : Manager :=
  { m with
    serviceDiffs :=
      (m.serviceProblemsIndex event.eventid).foldl (addRecovered event) m.serviceDiffs }

def processEvent (g : Graph) (m : Manager) (event : Event) : Manager :=
  if (m.deletedEventids event.eventid).isSome then m
  else
    match event.value with
    | .ok =>
      match m.problemEvents event.eventid with
      | none => { m with recoveryEvents := Function.update m.recoveryEvents event.eventid true }
      | some _ =>
        let m := recoverServicesProblem event m
        { m with problemEvents := Function.update m.problemEvents event.eventid none }
    | .problem =>
      if (m.problemEvents event.eventid).isSome then m
      else if m.recoveryEvents event.eventid then
        { m with recoveryEvents := Function.update m.recoveryEvents event.eventid false }
      else
        matchEventToServiceProblemTags g event false
          { m with problemEvents := Function.update m.problemEvents event.eventid (some event) }
    | .other => m

def addTags (tags new : List Tag) : List Tag :=
  new.foldl (fun tags tag => if tag ∈ tags then tags else tags ++ [tag]) tags

def processProblemTag (g : Graph) (m : Manager) (update : ℕ × List Tag) : Manager :=
  match m.problemEvents update.1 with
  | none => m
  | some event =>
    let event := { event with tags := addTags event.tags update.2 }
    matchEventToServiceProblemTags g event true
      { m with problemEvents := Function.update m.problemEvents update.1 (some event) }

def processDeletedProblem (now : ℤ) (m : Manager) (eventid : ℕ) : Manager :=
  let m := { m with
    deletedEventids :=
      Function.update m.deletedEventids eventid ((m.deletedEventids eventid).or (some now)) }
  match m.problemEvents eventid with
  | none => m
  | some event =>
    let m := recoverServicesProblem event m
    { m with problemEvents := Function.update m.problemEvents eventid none }

def eventAddMaintenanceid (maintenanceids : List ℕ) (maintenanceid : ℕ) : List ℕ :=
  if maintenanceid ∈ maintenanceids then maintenanceids else maintenanceids ++ [maintenanceid]

def eventRemoveMaintenanceid (maintenanceids : List ℕ) (maintenanceid : ℕ) : List ℕ :=
  match maintenanceids.findIdx? (· = maintenanceid) with
  | none => maintenanceids
  | some i => removeNoorder maintenanceids i

def addSuppressed (diffs : List ServicesDiff) (s : ℕ) : List ServicesDiff :=
  updateDiff (emptyDiff true true s) .setSuppress diffs

def processSuppression (isSuppressed : Bool) (m : Manager) (pair : ℕ × ℕ) : Manager :=
  match m.problemEvents pair.1 with
  | none => m
  | some event =>
    let maintenanceids :=
      if isSuppressed then eventAddMaintenanceid event.maintenanceids pair.2
      else eventRemoveMaintenanceid event.maintenanceids pair.2
    let m := { m with
      problemEvents := Function.update m.problemEvents pair.1 (some { event with maintenanceids }) }
    if event.maintenanceids ≠ [] ∧ maintenanceids ≠ [] then m
    else
      { m with
        serviceDiffs := (m.serviceProblemsIndex pair.1).foldl addSuppressed m.serviceDiffs }

def serviceUpdateEventSeverity (eventid : ℕ) (severity : ℤ) (m : Manager) (s : ℕ) : Manager :=
  match searchProblem (m.serviceProblems s) eventid with
  | none => m
  | some index =>
    { m with
      serviceProblems := Function.update m.serviceProblems s
        ((m.serviceProblems s).modify index fun problem => { problem with severity := severity })
      serviceDiffs := updateDiff (emptyDiff false false s) id m.serviceDiffs }

def processEventSeverity (m : Manager) (es : ℕ × ℤ) : Manager :=
  match m.problemEvents es.1 with
  | none => m
  | some event =>
    (m.serviceProblemsIndex es.1).foldl (serviceUpdateEventSeverity es.1 es.2)
      { m with
        problemEvents :=
          Function.update m.problemEvents es.1 (some { event with severity := es.2 }) }

def problemCleanupAge : ℤ := 7200

/-- The messages of the service manager that change problems, and its cleanup.
`saved` tells that the severities could be written to the database. -/
inductive Message
  | problems (events : List Event)
  | problemsTags (updates : List (ℕ × List Tag))
  | problemsDelete (now : ℤ) (eventids : List ℕ)
  | eventsSuppress (pairs : List (ℕ × ℕ))
  | eventsUnsuppress (pairs : List (ℕ × ℕ))
  | eventSeverities (saved : Bool) (severities : List (ℕ × ℤ))
  | cleanup (now : ℤ)

def processMessage (g : Graph) (m : Manager) : Message → Manager
  | .problems events => events.foldl (processEvent g) m
  | .problemsTags updates => updates.foldl (processProblemTag g) m
  | .problemsDelete now eventids => eventids.foldl (processDeletedProblem now) m
  | .eventsSuppress pairs => pairs.foldl (processSuppression true) m
  | .eventsUnsuppress pairs => pairs.foldl (processSuppression false) m
  | .eventSeverities saved severities =>
    if saved then severities.foldl processEventSeverity m else m
  | .cleanup now =>
    { m with deletedEventids := fun e =>
        (m.deletedEventids e).filter fun time => ¬problemCleanupAge < now - time }

def Manager.initial (status : ℕ → ℤ) : Manager where
  serviceProblems := fun _ => []
  serviceProblemsIndex := fun _ => []
  status := status
  problemEvents := fun _ => none
  recoveryEvents := fun _ => false
  deletedEventids := fun _ => none
  currentEventid := fun _ => 0
  serviceDiffs := []

end Zabbix.Services
