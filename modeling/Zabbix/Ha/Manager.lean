import Mathlib.Data.List.Sort

/-!
# The high availability manager

The transactions of one manager on the table `ha_node`. A transaction is given the rows that it
reads and the fault of the database connection that it meets, and has a table to commit or is
rolled back. Addresses, ports and the audit are left out.
-/

namespace Zabbix.Ha

inductive NodeStatus
  | error
  | unknown
  | standby
  | stopped
  | unavailable
  | active
  deriving DecidableEq

structure Node where
  haNodeid : ℕ
  haSessionid : Option ℕ
  name : List Char
  status : NodeStatus
  lastaccess : ℤ
  deriving DecidableEq

inductive HaError
  | database
  | cannotFind (name : List Char)
  | cannotChangeToStandalone (name : List Char) (status : NodeStatus)
  | cannotChangeToHa (status : NodeStatus)
  | foundDuplicate (status : NodeStatus) (name : List Char)
  | multipleServers
  | changedOwnership
  | activeStandalone
  deriving DecidableEq

/-- `zbx_ha_info_t`; the node id is `none` where it is empty in the source. -/
structure Info where
  haNodeid : Option ℕ
  haStatus : NodeStatus
  failoverDelay : ℤ
  lastaccessActive : ℤ
  offlineTicksActive : ℤ
  name : List Char
  error : Option HaError
  deriving DecidableEq

def pollPeriod : ℤ := 5

def defaultFailoverDelay : ℤ := 60

def Info.isHaCluster (info : Info) : Bool := info.name ≠ []

def Info.setError (info : Info) (error : HaError) : Info :=
  if info.haStatus = .error then info else { info with haStatus := .error, error := some error }

/-- Where the database connection can fail; all that is written counts with the commit. -/
inductive Stage
  | getNodes
  | updateConfig
  | getTime
  | commit
  deriving DecidableEq

structure Fault where
  stage : Stage
  fatal : Bool
  deriving DecidableEq

def Info.dbFault (info : Info) (fatal : Bool) : Info :=
  if fatal then info.setError .database else info

def faultAt (fault : Option Fault) (stage : Stage) : Option Bool :=
  match fault with
  | none => none
  | some fault => if fault.stage = stage then some fault.fatal else none

abbrev Outcome := Info × Option (List Node)

def haDbCommit (fault : Option Fault) (info : Info) (f : Info → Info) (nodes : List Node) :
    Outcome :=
  match faultAt fault .commit with
  | some fatal => (info.dbFault fatal, none)
  | none => (f info, some nodes)

def Info.updateConfig (info : Info) (failoverDelay : ℤ) : Info :=
  { info with failoverDelay := failoverDelay }

def Info.isAvailable (info : Info) (node : Node) (dbTime : ℤ) : Bool :=
  !decide (node.lastaccess + info.failoverDelay ≤ dbTime)

def checkStandaloneConfig (info : Info) (dbTime : ℤ) : List Node → Except HaError Unit
  | [] => .ok ()
  | node :: nodes =>
    if node.name = [] then checkStandaloneConfig info dbTime nodes
    else if node.status ≠ .stopped ∧ info.isAvailable node dbTime = true then
      .error (.cannotChangeToStandalone node.name node.status)
    else checkStandaloneConfig info dbTime nodes

/-- `ha_check_cluster_config` with its output argument `activate`. -/
def checkClusterConfig (info : Info) (dbTime : ℤ) : List Node → Bool → Except HaError Bool
  | [], activate => .ok activate
  | node :: nodes, activate =>
    if node.status = .stopped ∨ info.isAvailable node dbTime = false then
      checkClusterConfig info dbTime nodes activate
    else if node.name = [] then .error (.cannotChangeToHa node.status)
    else if info.name = node.name then .error (.foundDuplicate node.status info.name)
    else
      checkClusterConfig info dbTime nodes
        (if node.status = .active ∨ node.status = .standby then false else activate)

def checkConfig (info : Info) (dbTime : ℤ) (nodes : List Node) : Except HaError Bool :=
  if info.isHaCluster then checkClusterConfig info dbTime nodes true
  else (checkStandaloneConfig info dbTime nodes).map fun _ => true

/-- The table with a new row; `none` when its name is not unique. -/
def insertNode (node : Node) (nodes : List Node) : Option (List Node) :=
  if ∃ other ∈ nodes, other.name = node.name then none
  else some (nodes.orderedInsert (fun a b => a.haNodeid ≤ b.haNodeid) node)

/-- `ha_db_create_node`: `seen` are the rows that it reads without a lock, `nodeid` is the new id,
`failoverDelay` is in the settings. -/
def haDbCreateNode (fault : Option Fault) (failoverDelay dbTime now : ℤ) (nodeid : ℕ) (info : Info)
    (seen nodes : List Node) : Outcome :=
  match faultAt fault .getNodes with
  | some fatal => (info.dbFault fatal, none)
  | none =>
    match faultAt fault .updateConfig with
    | some fatal => (info.dbFault fatal, none)
    | none =>
      let info := info.updateConfig failoverDelay
      match seen.find? (·.name = info.name) with
      | some node =>
        haDbCommit fault info (fun info => { info with haNodeid := some node.haNodeid }) nodes
      | none =>
        match faultAt fault .getTime with
        | some fatal => (info.dbFault fatal, none)
        | none =>
          match checkConfig info dbTime seen with
          | .error error => (info.setError error, none)
          | .ok _ =>
            match insertNode ⟨nodeid, none, info.name, .stopped, now⟩ nodes with
            | none => (info.dbFault true, none)
            | some nodes =>
              haDbCommit fault info (fun info => { info with haNodeid := some nodeid }) nodes

def unavailableNodes (info : Info) (dbTime : ℤ) (nodes : List Node) : List ℕ :=
  (nodes.filter fun node =>
    some node.haNodeid ≠ info.haNodeid ∧ (node.status = .standby ∨ node.status = .active) ∧
      dbTime ≥ node.lastaccess + info.failoverDelay).map (·.haNodeid)

def setUnavailable (nodeids : List ℕ) (nodes : List Node) : List Node :=
  nodes.map fun node =>
    if node.haNodeid ∈ nodeids then { node with status := .unavailable } else node

def updateNode (nodeid : Option ℕ) (f : Node → Node) (nodes : List Node) : List Node :=
  nodes.map fun node => if some node.haNodeid = nodeid then f node else node

/-- The update of the own row by `ha_db_register_node`, whose status was read as `status`. -/
def registerRow (now : ℤ) (session : ℕ) (status haStatus : NodeStatus) (row : Node) : Node :=
  { row with
    lastaccess := now
    haSessionid := some session
    status := if haStatus ≠ status then haStatus else row.status }

def deleteOthers (info : Info) (nodes : List Node) : List Node :=
  nodes.filter fun row => if info.isHaCluster then row.name ≠ [] else row.name = []

def registeredNodes (dbTime now : ℤ) (session : ℕ) (info : Info) (status haStatus : NodeStatus)
    (nodes : List Node) : List Node :=
  let deleted :=
    deleteOthers info (updateNode info.haNodeid (registerRow now session status haStatus) nodes)
  if info.isHaCluster = true ∧ haStatus = .active then
    setUnavailable (unavailableNodes info dbTime nodes) deleted
  else deleted

/-- The second transaction of `ha_db_register_node`, which locks all rows. -/
def haDbRegisterNode (fault : Option Fault) (dbTime now : ℤ) (session : ℕ) (info : Info)
    (nodes : List Node) : Outcome :=
  match faultAt fault .getNodes with
  | some fatal => (info.dbFault fatal, none)
  | none =>
    match faultAt fault .getTime with
    | some fatal => (info.dbFault fatal, none)
    | none =>
      match checkConfig info dbTime nodes with
      | .error error => (info.setError error, none)
      | .ok activate =>
        match nodes.find? (·.name = info.name) with
        | none => (info.setError (.cannotFind info.name), none)
        | some node =>
          if info.haStatus = .error then (info, none)
          else
            let haStatus : NodeStatus := if activate then .active else .standby
            haDbCommit fault info (fun info => { info with haStatus := haStatus })
              (registeredNodes dbTime now session info node.status haStatus nodes)

def Info.updateTicks (info : Info) (node : Node) : Info :=
  if node.lastaccess ≠ info.lastaccessActive then
    { info with lastaccessActive := node.lastaccess, offlineTicksActive := 0 }
  else { info with offlineTicksActive := info.offlineTicksActive + 1 }

/-- `ha_check_active_node`: the manager with its ticks, the active node that is given up and the
new status. -/
def haCheckActiveNode (info : Info) (nodes : List Node) :
    Except HaError (Info × Option ℕ × NodeStatus) :=
  match nodes.find? (·.status = .active) with
  | none => .ok (info, none, .active)
  | some node =>
    if node.name = [] then .error .activeStandalone
    else if some node.haNodeid = info.haNodeid then .ok (info, none, .active)
    else
      let info := info.updateTicks node
      if info.failoverDelay.tdiv pollPeriod < info.offlineTicksActive then
        .ok (info, some node.haNodeid, .active)
      else .ok (info, none, info.haStatus)

/-- The update of the own row by `ha_check_nodes`, whose status was read as `status`. -/
def updateOwn (now : ℤ) (info : Info) (status haStatus : NodeStatus) (nodes : List Node) :
    List Node :=
  updateNode info.haNodeid (fun row =>
    { row with
      lastaccess := now
      status := if haStatus ≠ status then haStatus else row.status }) nodes

/-- The decision of `ha_check_nodes` once its row is found. -/
def haCheckStatus (fault : Option Fault) (dbTime now : ℤ) (info : Info) (node : Node)
    (nodes : List Node) : Outcome :=
  if info.isHaCluster then
    if info.haStatus = .active then
      if node.status ≠ info.haStatus then
        haDbCommit fault info (fun info => { info with haStatus := .standby }) nodes
      else
        haDbCommit fault info id (updateOwn now info node.status info.haStatus
          (setUnavailable (unavailableNodes info dbTime nodes) nodes))
    else
      match haCheckActiveNode info nodes with
      | .error error => (info.setError error, none)
      | .ok (info, lastActive, haStatus) =>
        haDbCommit fault info (fun info => { info with haStatus := haStatus })
          (setUnavailable lastActive.toList (updateOwn now info node.status haStatus nodes))
  else haDbCommit fault info id (updateOwn now info node.status info.haStatus nodes)

def Info.updateNodeid (info : Info) (node : Node) : Info :=
  { info with haNodeid := info.haNodeid.or (some node.haNodeid) }

/-- `ha_check_nodes`, which locks all rows. -/
def haCheckNodes (fault : Option Fault) (failoverDelay dbTime now : ℤ) (session : ℕ) (info : Info)
    (nodes : List Node) : Outcome :=
  match faultAt fault .getNodes with
  | some fatal => (info.dbFault fatal, none)
  | none =>
    match nodes.find? (·.name = info.name) with
    | none => (info.setError (.cannotFind info.name), none)
    | some node =>
      if node.haSessionid ≠ some session then
        (info.setError (if info.name = [] then .multipleServers else .changedOwnership), none)
      else
        let info := info.updateNodeid node
        match faultAt fault .updateConfig with
        | some fatal => (info.dbFault fatal, none)
        | none =>
          let info := info.updateConfig failoverDelay
          match faultAt fault .getTime with
          | some fatal => (info.dbFault fatal, none)
          | none => haCheckStatus fault dbTime now info node nodes

/-- `ha_db_update_lastaccess`, which locks all rows. -/
def haDbUpdateLastaccess (fault : Option Fault) (now : ℤ) (info : Info) (nodes : List Node) :
    Outcome :=
  haDbCommit fault info id (updateNode info.haNodeid (fun row => { row with lastaccess := now })
    nodes)

/-- `ha_db_update_exit_status`, which locks all rows. -/
def haDbUpdateExitStatus (fault : Option Fault) (info : Info) (nodes : List Node) : Outcome :=
  if info.haStatus ≠ .active ∧ info.haStatus ≠ .standby then (info, none)
  else
    haDbCommit fault info id (updateNode info.haNodeid (fun row => { row with status := .stopped })
      nodes)

/-- The node that `ha_remove_node_impl` finds by its id or name. -/
def findRemoved (nodeid : Option ℕ) (name : List Char) (seen : List Node) : Option Node :=
  (seen.find? fun node => some node.haNodeid = nodeid).or (seen.find? fun node => node.name = name)

/-- `ha_remove_node_impl`: `seen` are the rows that it reads without a lock; the argument is a node
id or a name. -/
def haRemoveNode (fault : Option Fault) (nodeid : Option ℕ) (name : List Char) (info : Info)
    (seen nodes : List Node) : Outcome :=
  match faultAt fault .getNodes with
  | some fatal => (info.dbFault fatal, none)
  | none =>
    match findRemoved nodeid name seen with
    | none => (info, none)
    | some node =>
      if node.status = .active ∨ node.status = .standby then (info, none)
      else haDbCommit fault info id (nodes.filter fun row => row.haNodeid ≠ node.haNodeid)

end Zabbix.Ha
