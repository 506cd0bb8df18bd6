import Zabbix.Foundation.Transition
import Zabbix.Ha.Manager

/-!
# A cluster of servers

Any number of servers share the table of nodes. The transactions that lock all rows see the current
table; the others see any table that was committed before. A server has one manager, which can be
killed and started anew at any time.
-/

namespace Zabbix.Ha

/-- Where a manager is: between transactions, within a registration, or waiting to be stopped. -/
inductive Phase
  | notStarted
  | main
  | register
  | paused
  | stopped
  deriving DecidableEq

structure Manager where
  info : Info
  phase : Phase
  deriving DecidableEq

/-- The table of nodes, all tables that were committed, and the managers. The id of a server is its
session id. -/
structure Cluster where
  nodes : List Node
  history : List (List Node)
  managers : ℕ → Manager

inductive Event
  | start (p : ℕ) (name : List Char)
  | restart (p : ℕ)
  | createNode (p : ℕ) (fault : Option Fault) (failoverDelay dbTime now : ℤ) (nodeid : ℕ)
      (seen : List Node)
  | registerNode (p : ℕ) (fault : Option Fault) (dbTime now : ℤ)
  | checkNodes (p : ℕ) (fault : Option Fault) (failoverDelay dbTime now : ℤ)
  | removeNode (p : ℕ) (fault : Option Fault) (nodeid : Option ℕ) (name : List Char)
      (seen : List Node)
  | setFailoverDelay (p : ℕ) (failoverDelay : ℤ)
  | pause (p : ℕ)
  | updateLastaccess (p : ℕ) (fault : Option Fault) (now : ℤ)
  | stop (p : ℕ) (fault : Option Fault)

def Info.initial (name : List Char) (haStatus : NodeStatus) : Info :=
  ⟨none, haStatus, defaultFailoverDelay, 0, 0, name, none⟩

def Cluster.setManager (w : Cluster) (p : ℕ) (manager : Manager) : Cluster :=
  { w with managers := Function.update w.managers p manager }

def Cluster.apply (w : Cluster) (p : ℕ) (outcome : Outcome) (phase : Phase) : Cluster :=
  let w := w.setManager p ⟨outcome.1, phase⟩
  match outcome.2 with
  | none => w
  | some nodes => { w with nodes := nodes, history := nodes :: w.history }

def Manager.running (manager : Manager) : Prop :=
  manager.phase = .main ∧ manager.info.haStatus ≠ .unknown ∧ manager.info.haStatus ≠ .error

instance (manager : Manager) : Decidable manager.running := inferInstanceAs (Decidable (_ ∧ _ ∧ _))

def step (w : Cluster) : Event → Option Cluster
  | .start p name =>
    if (w.managers p).phase = .notStarted then
      some (w.setManager p ⟨.initial name .unknown, .main⟩)
    else none
  | .restart p =>
    if (w.managers p).phase = .notStarted then none
    else some (w.setManager p ⟨.initial (w.managers p).info.name .standby, .main⟩)
  | .createNode p fault failoverDelay dbTime now nodeid seen =>
    let info := (w.managers p).info
    if (w.managers p).phase = .main ∧ info.haStatus = .unknown ∧ seen ∈ w.history ∧
        ∀ nodes ∈ w.history, ∀ node ∈ nodes, node.haNodeid ≠ nodeid then
      let outcome := haDbCreateNode fault failoverDelay dbTime now nodeid info seen w.nodes
      some (w.apply p outcome (if outcome.1.haNodeid = none then .main else .register))
    else none
  | .registerNode p fault dbTime now =>
    if (w.managers p).phase = .register then
      some (w.apply p (haDbRegisterNode fault dbTime now p (w.managers p).info w.nodes) .main)
    else none
  | .checkNodes p fault failoverDelay dbTime now =>
    if (w.managers p).running then
      some (w.apply p (haCheckNodes fault failoverDelay dbTime now p (w.managers p).info w.nodes)
        .main)
    else none
  | .removeNode p fault nodeid name seen =>
    if (w.managers p).phase = .main ∧ (w.managers p).info.haStatus ≠ .error ∧
        seen ∈ w.history then
      some (w.apply p (haRemoveNode fault nodeid name (w.managers p).info seen w.nodes) .main)
    else none
  | .setFailoverDelay p failoverDelay =>
    if (w.managers p).phase = .main then
      some (w.setManager p ⟨{ (w.managers p).info with failoverDelay := failoverDelay }, .main⟩)
    else none
  | .pause p =>
    if (w.managers p).phase = .main then
      some (w.setManager p { w.managers p with phase := .paused })
    else none
  | .updateLastaccess p fault now =>
    if (w.managers p).phase = .paused ∧ ((w.managers p).info.haStatus = .standby ∨
        (w.managers p).info.haStatus = .active) then
      some (w.apply p (haDbUpdateLastaccess fault now (w.managers p).info w.nodes) .paused)
    else none
  | .stop p fault =>
    if (w.managers p).phase = .main ∨ (w.managers p).phase = .paused then
      some (w.apply p (haDbUpdateExitStatus fault (w.managers p).info w.nodes) .stopped)
    else none

def Cluster.initial : Cluster where
  nodes := []
  history := [[]]
  managers _ := ⟨.initial [] .unknown, .notStarted⟩

def Cluster.Owns (w : Cluster) (p : ℕ) : Prop :=
  ∃ node ∈ w.nodes, node.name = (w.managers p).info.name ∧ node.haSessionid = some p ∧
    node.status = .active

structure TableOk (nodes : List Node) : Prop where
  ids : (nodes.map Node.haNodeid).Nodup
  names : (nodes.map Node.name).Nodup
  owned : ∀ node ∈ nodes, node.status = .active → node.haSessionid ≠ none
  exclusive : ∀ node ∈ nodes, ∀ other ∈ nodes, node.name = [] → other.name ≠ [] →
    node.haSessionid = none ∨ other.haSessionid = none
  single : ∀ node ∈ nodes, ∀ other ∈ nodes, node.status = .active → other.status = .active →
    node = other

structure ServerOk (w : Cluster) (p : ℕ) : Prop where
  nodeid : ∀ nodeid, (w.managers p).info.haNodeid = some nodeid → ∃ nodes ∈ w.history,
    ∃ node ∈ nodes, node.haNodeid = nodeid ∧ node.name = (w.managers p).info.name
  session : ∀ node ∈ w.nodes, node.haSessionid = some p →
    node.name = (w.managers p).info.name ∧
      ((w.managers p).info.haNodeid = none ∨ (w.managers p).info.haNodeid = some node.haNodeid)
  registered : ∀ node ∈ w.nodes, node.haSessionid = some p →
    (w.managers p).info.haStatus ≠ .unknown ∧ (w.managers p).phase ≠ .register ∧
      (w.managers p).phase ≠ .notStarted
  registering : (w.managers p).phase = .register →
    (w.managers p).info.haStatus = .unknown ∨ (w.managers p).info.haStatus = .error

structure Consistent (w : Cluster) : Prop where
  current : w.nodes ∈ w.history
  names : ∀ nodes ∈ w.history, ∀ nodes' ∈ w.history, ∀ node ∈ nodes, ∀ node' ∈ nodes',
    node.haNodeid = node'.haNodeid → node.name = node'.name
  table : TableOk w.nodes
  server : ∀ p, ServerOk w p

end Zabbix.Ha
