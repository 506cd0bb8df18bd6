import Zabbix.Ha.Cluster

/-!
# What the transactions do

A committed table is derived from the one before: rows keep their id and name, and a session or
the status active is only written to the row of the server itself.
-/

namespace Zabbix.Ha

open List

variable {p nodeid : ℕ} {info info' : Info} {nodes nodes' nodes'' seen : List Node}
  {node node' other : Node} {own own' : Node → Prop}
variable {f : Node → Node} {activate : Bool} {nodeids : List ℕ} {fault : Fault}

/-- A row before and after a transaction of the server `p`, which writes the status active and its
session to its `own` row only. -/
structure RowOf (p : ℕ) (own : Node → Prop) (node node' : Node) : Prop where
  haNodeid : node'.haNodeid = node.haNodeid
  name : node'.name = node.name
  kept : (node'.haSessionid = node.haSessionid ∧ (node'.status = .active → node.status = .active)) ∨
    (own node ∧ node'.haSessionid = some p)

structure Derived (p : ℕ) (own : Node → Prop) (nodes nodes' : List Node) : Prop where
  ids : (nodes'.map Node.haNodeid).Sublist (nodes.map Node.haNodeid)
  names : (nodes'.map Node.name).Sublist (nodes.map Node.name)
  rows : ∀ node' ∈ nodes', ∃ node ∈ nodes, RowOf p own node node'

abbrev noOwn : Node → Prop := fun _ => False

theorem RowOf.rfl (node : Node) : RowOf p own node node := ⟨.refl _, .refl _, .inl ⟨.refl _, id⟩⟩

theorem RowOf.andThen (h : RowOf p own node node') (h' : RowOf p noOwn node' other) :
    RowOf p own node other := by
  refine ⟨h'.haNodeid.trans h.haNodeid, h'.name.trans h.name, ?_⟩
  obtain ⟨hsession', hactive'⟩ | ⟨hfalse, -⟩ := h'.kept
  · obtain ⟨hsession, hactive⟩ | ⟨hown, hsession⟩ := h.kept
    · exact .inl ⟨hsession'.trans hsession, fun h => hactive (hactive' h)⟩
    · exact .inr ⟨hown, hsession'.trans hsession⟩
  · exact hfalse.elim

theorem Derived.refl (nodes : List Node) : Derived p own nodes nodes :=
  ⟨.refl _, .refl _, fun node hnode => ⟨node, hnode, .rfl node⟩⟩

theorem Derived.andThen (h : Derived p own nodes nodes') (h' : Derived p noOwn nodes' nodes'') :
    Derived p own nodes nodes'' := by
  refine ⟨h'.ids.trans h.ids, h'.names.trans h.names, fun node'' hnode'' => ?_⟩
  obtain ⟨node', hnode', hrow'⟩ := h'.rows node'' hnode''
  obtain ⟨node, hnode, hrow⟩ := h.rows node' hnode'
  exact ⟨node, hnode, hrow.andThen hrow'⟩

theorem Derived.mono (h : Derived p own nodes nodes') (hown : ∀ node, own node → own' node) :
    Derived p own' nodes nodes' := by
  refine ⟨h.ids, h.names, fun node' hnode' => ?_⟩
  obtain ⟨node, hnode, hrow⟩ := h.rows node' hnode'
  exact ⟨node, hnode, hrow.haNodeid, hrow.name,
    hrow.kept.imp_right fun ⟨h, hsession⟩ => ⟨hown node h, hsession⟩⟩

theorem Derived.map (h : ∀ node ∈ nodes, RowOf p own node (f node)) :
    Derived p own nodes (nodes.map f) := by
  have hids : (nodes.map f).map Node.haNodeid = nodes.map Node.haNodeid := by
    rw [map_map]
    exact map_congr_left fun node hnode => (h node hnode).haNodeid
  have hnames : (nodes.map f).map Node.name = nodes.map Node.name := by
    rw [map_map]
    exact map_congr_left fun node hnode => (h node hnode).name
  refine ⟨hids ▸ .refl _, hnames ▸ .refl _, fun node' hnode' => ?_⟩
  obtain ⟨node, hnode, rfl⟩ := mem_map.mp hnode'
  exact ⟨node, hnode, h node hnode⟩

theorem Derived.filter (test : Node → Bool) : Derived p own nodes (nodes.filter test) :=
  ⟨filter_sublist.map _, filter_sublist.map _,
    fun node hnode => ⟨node, (mem_filter.mp hnode).1, .rfl node⟩⟩

theorem derived_setUnavailable (nodeids : List ℕ) (nodes : List Node) :
    Derived p own nodes (setUnavailable nodeids nodes) := by
  refine Derived.map fun node _ => ?_
  split
  · exact ⟨rfl, rfl, .inl ⟨rfl, fun h => nomatch h⟩⟩
  · exact .rfl node

theorem derived_updateNode (nodeid : Option ℕ)
    (h : ∀ node ∈ nodes, some node.haNodeid = nodeid → RowOf p own node (f node)) :
    Derived p own nodes (updateNode nodeid f nodes) := by
  refine Derived.map fun node hnode => ?_
  split
  · exact h node hnode ‹_›
  · exact .rfl node

variable (h : TableOk nodes)

include h

theorem TableOk.eq_of_haNodeid (hnode : node ∈ nodes) (hother : other ∈ nodes)
    (hid : node.haNodeid = other.haNodeid) : node = other :=
  inj_on_of_nodup_map h.ids hnode hother hid

theorem TableOk.eq_of_name (hnode : node ∈ nodes) (hother : other ∈ nodes)
    (hname : node.name = other.name) : node = other :=
  inj_on_of_nodup_map h.names hnode hother hname

theorem TableOk.derived (hd : Derived p own nodes nodes')
    (hexclusive : ∀ node ∈ nodes', ∀ other ∈ nodes', node.name = [] → other.name ≠ [] →
      node.haSessionid = none ∨ other.haSessionid = none)
    (hsingle : ∀ node ∈ nodes', ∀ other ∈ nodes', node.status = .active → other.status = .active →
      node.haNodeid = other.haNodeid) : TableOk nodes' where
  ids := h.ids.sublist hd.ids
  names := h.names.sublist hd.names
  owned node' hnode' hactive' := by
    obtain ⟨node, hnode, -, -, ⟨hsession, hactive⟩ | ⟨-, hsession⟩⟩ := hd.rows node' hnode'
    · rw [hsession]
      exact h.owned node hnode (hactive hactive')
    · simp [hsession]
  exclusive := hexclusive
  single node hnode other hother hactive hactive' :=
    inj_on_of_nodup_map (h.ids.sublist hd.ids) hnode hother
      (hsingle node hnode other hother hactive hactive')

theorem TableOk.exclusive_derived (hd : Derived p own nodes nodes')
    (hown : ∀ node ∈ nodes, own node → node.haSessionid = some p) : ∀ node ∈ nodes',
      ∀ other ∈ nodes', node.name = [] → other.name ≠ [] →
        node.haSessionid = none ∨ other.haSessionid = none := by
  have hsession {node' : Node} (hnode' : node' ∈ nodes') : ∃ node ∈ nodes,
      node'.name = node.name ∧ node'.haSessionid = node.haSessionid := by
    obtain ⟨node, hnode, -, hname, ⟨hsession, -⟩ | ⟨hnown, hsession⟩⟩ := hd.rows node' hnode'
    · exact ⟨node, hnode, hname, hsession⟩
    · exact ⟨node, hnode, hname, hsession.trans (hown node hnode hnown).symm⟩
  intro node' hnode' other' hother' hstandalone hnamed
  obtain ⟨node, hnode, hname, hs⟩ := hsession hnode'
  obtain ⟨other, hother, hname', hs'⟩ := hsession hother'
  rw [hs, hs']
  exact h.exclusive node hnode other hother (hname ▸ hstandalone) (hname' ▸ hnamed)

theorem TableOk.derived_noOwn (hd : Derived p noOwn nodes nodes') : TableOk nodes' := by
  refine h.derived hd (h.exclusive_derived hd fun _ _ hfalse => hfalse.elim) ?_
  have hactive {node' : Node} (hnode' : node' ∈ nodes') (hactive' : node'.status = .active) :
      ∃ node ∈ nodes, node'.haNodeid = node.haNodeid ∧ node.status = .active := by
    obtain ⟨node, hnode, hid, -, ⟨-, hactive⟩ | ⟨hfalse, -⟩⟩ := hd.rows node' hnode'
    · exact ⟨node, hnode, hid, hactive hactive'⟩
    · exact hfalse.elim
  intro node' hnode' other' hother' hactive₁ hactive₂
  obtain ⟨node, hnode, hid, hactive₁⟩ := hactive hnode' hactive₁
  obtain ⟨other, hother, hid', hactive₂⟩ := hactive hother' hactive₂
  rw [hid, hid', h.single node hnode other hother hactive₁ hactive₂]

omit h

/-- The managers are the same but for the status, which may be an error, and the ticks. -/
structure Info.Kept (info info' : Info) : Prop where
  name : info'.name = info.name
  haNodeid : info'.haNodeid = info.haNodeid
  haStatus : info'.haStatus = info.haStatus ∨ info'.haStatus = .error

theorem Info.Kept.refl (info : Info) : info.Kept info := ⟨rfl, rfl, .inl rfl⟩

theorem Info.Kept.trans {info'' : Info} (h : info.Kept info') (h' : info'.Kept info'') :
    info.Kept info'' :=
  ⟨h'.name.trans h.name, h'.haNodeid.trans h.haNodeid,
    h'.haStatus.elim (fun heq => heq ▸ h.haStatus) .inr⟩

theorem Info.kept_setError (info : Info) (error : HaError) : info.Kept (info.setError error) := by
  unfold Info.setError
  split
  · exact .refl info
  · exact ⟨rfl, rfl, .inr rfl⟩

theorem Info.kept_dbFault (info : Info) (fatal : Bool) : info.Kept (info.dbFault fatal) := by
  unfold Info.dbFault
  split
  · exact info.kept_setError _
  · exact .refl info

theorem Info.setError_haStatus (info : Info) (error : HaError) :
    (info.setError error).haStatus = .error := by
  unfold Info.setError
  split
  · assumption
  · rfl

theorem haDbCommit_cases (fault : Option Fault) (info : Info) (f : Info → Info)
    (nodes : List Node) :
    (∃ info', info.Kept info' ∧ haDbCommit fault info f nodes = (info', none)) ∨
      haDbCommit fault info f nodes = (f info, some nodes) := by
  unfold haDbCommit
  cases faultAt fault .commit with
  | none => exact .inr rfl
  | some fatal => exact .inl ⟨_, info.kept_dbFault fatal, rfl⟩

structure Harmless (p : ℕ) (info : Info) (nodes : List Node) (outcome : Outcome) : Prop where
  kept : info.Kept outcome.1
  derived : ∀ nodes' ∈ outcome.2, Derived p noOwn nodes nodes'

theorem harmless_none (h : info.Kept info') : Harmless p info nodes (info', none) :=
  ⟨h, fun _ hnodes => nomatch hnodes⟩

theorem harmless_haDbCommit (fault : Option Fault) (h : Derived p noOwn nodes nodes') :
    Harmless p info nodes (haDbCommit fault info id nodes') := by
  obtain ⟨info', hkept, heq⟩ | heq := haDbCommit_cases fault info id nodes'
  · rw [heq]
    exact harmless_none hkept
  · rw [heq]
    refine ⟨.refl info, fun nodes hnodes => ?_⟩
    obtain rfl := Option.mem_some.mp hnodes
    exact h

theorem haDbUpdateLastaccess_harmless (fault : Option Fault) (now : ℤ) (info : Info)
    (nodes : List Node) : Harmless p info nodes (haDbUpdateLastaccess fault now info nodes) :=
  harmless_haDbCommit fault (derived_updateNode _ fun _ _ _ => ⟨rfl, rfl, .inl ⟨rfl, id⟩⟩)

theorem haDbUpdateExitStatus_harmless (fault : Option Fault) (info : Info) (nodes : List Node) :
    Harmless p info nodes (haDbUpdateExitStatus fault info nodes) := by
  unfold haDbUpdateExitStatus
  split
  · exact harmless_none (.refl info)
  · exact harmless_haDbCommit fault
      (derived_updateNode _ fun _ _ _ => ⟨rfl, rfl, .inl ⟨rfl, fun h => nomatch h⟩⟩)

theorem haRemoveNode_harmless (fault : Option Fault) (nodeid : Option ℕ) (name : List Char)
    (info : Info) (seen nodes : List Node) :
    Harmless p info nodes (haRemoveNode fault nodeid name info seen nodes) := by
  unfold haRemoveNode
  cases faultAt fault .getNodes with
  | some fatal => exact harmless_none (info.kept_dbFault fatal)
  | none =>
    cases findRemoved nodeid name seen with
    | none => exact harmless_none (.refl info)
    | some node =>
      dsimp only
      split
      · exact harmless_none (.refl info)
      · exact harmless_haDbCommit fault (.filter _)

theorem find_name {name : List Char} (h : nodes.find? (·.name = name) = some node) :
    node ∈ nodes ∧ node.name = name := by
  refine ⟨mem_of_find?_eq_some h, ?_⟩
  have hname := List.find?_some h
  exact of_decide_eq_true hname

/-- The outcome of the first transaction of a registration: the table is left, or also the row is
found in the rows it has seen, or a row is added. -/
structure Created (nodeid : ℕ) (now : ℤ) (info : Info) (seen nodes : List Node)
    (outcome : Outcome) : Prop where
  name : outcome.1.name = info.name
  haStatus : outcome.1.haStatus = info.haStatus ∨ outcome.1.haStatus = .error
  table : (outcome.2 = none ∧ outcome.1.haNodeid = info.haNodeid) ∨
    (outcome.2 = some nodes ∧ ∃ node ∈ seen, node.name = info.name ∧
      outcome.1.haNodeid = some node.haNodeid) ∨
    (∃ inserted, insertNode ⟨nodeid, none, info.name, .stopped, now⟩ nodes = some inserted ∧
      outcome.2 = some inserted ∧ outcome.1.haNodeid = some nodeid)

theorem haDbCreateNode_created (fault : Option Fault) (failoverDelay dbTime now : ℤ) (nodeid : ℕ)
    (info : Info) (seen nodes : List Node) :
    Created nodeid now info seen nodes
      (haDbCreateNode fault failoverDelay dbTime now nodeid info seen nodes) := by
  unfold haDbCreateNode
  have hrolled {info' : Info} (h : (info.updateConfig failoverDelay).Kept info') :
      Created nodeid now info seen nodes (info', none) :=
    ⟨h.name, h.haStatus, .inl ⟨rfl, h.haNodeid⟩⟩
  have hlost (fatal : Bool) : (info.updateConfig failoverDelay).Kept (info.dbFault fatal) :=
    ⟨(info.kept_dbFault fatal).name, (info.kept_dbFault fatal).haNodeid,
      (info.kept_dbFault fatal).haStatus⟩
  cases faultAt fault .getNodes with
  | some fatal => exact hrolled (hlost fatal)
  | none =>
    cases faultAt fault .updateConfig with
    | some fatal => exact hrolled (hlost fatal)
    | none =>
      dsimp only
      cases hfind : seen.find? (·.name = (info.updateConfig failoverDelay).name) with
      | some node =>
        obtain ⟨hnode, hname⟩ := find_name hfind
        dsimp only
        obtain ⟨info', hkept, heq⟩ | heq := haDbCommit_cases fault (info.updateConfig failoverDelay)
          (fun info => { info with haNodeid := some node.haNodeid }) nodes
        · rw [heq]
          exact hrolled hkept
        · rw [heq]
          exact ⟨rfl, .inl rfl, .inr (.inl ⟨rfl, node, hnode, hname, rfl⟩)⟩
      | none =>
        cases faultAt fault .getTime with
        | some fatal => exact hrolled (Info.kept_dbFault _ fatal)
        | none =>
          cases checkConfig (info.updateConfig failoverDelay) dbTime seen with
          | error error => exact hrolled (Info.kept_setError _ error)
          | ok activate =>
            dsimp only
            split
            · exact hrolled (Info.kept_dbFault _ true)
            · next inserted hinsert =>
              obtain ⟨info', hkept, heq⟩ | heq := haDbCommit_cases fault
                (info.updateConfig failoverDelay)
                (fun info => { info with haNodeid := some nodeid })
                inserted
              · rw [heq]
                exact hrolled hkept
              · rw [heq]
                exact ⟨rfl, .inl rfl, .inr (.inr ⟨inserted, hinsert, rfl, rfl⟩)⟩

theorem insertNode_perm (h : insertNode node nodes = some nodes') :
    nodes'.Perm (node :: nodes) ∧ ∀ other ∈ nodes, other.name ≠ node.name := by
  unfold insertNode at h
  split at h
  · cases h
  · next hunique =>
    cases h
    exact ⟨perm_orderedInsert _ node nodes, fun other hother hname =>
      hunique ⟨other, hother, hname⟩⟩

theorem TableOk.insertNode (h : TableOk nodes) (hinsert : insertNode node nodes = some nodes')
    (hid : ∀ other ∈ nodes, other.haNodeid ≠ node.haNodeid) (hsession : node.haSessionid = none)
    (hstatus : node.status ≠ .active) : TableOk nodes' := by
  obtain ⟨hperm, hname⟩ := insertNode_perm hinsert
  have hmem {other : Node} (hother : other ∈ nodes') : other = node ∨ other ∈ nodes :=
    mem_cons.mp (hperm.mem_iff.mp hother)
  have hactive {other : Node} (hother : other ∈ nodes') (h : other.status = .active) :
      other ∈ nodes := (hmem hother).resolve_left fun heq => hstatus (heq ▸ h)
  refine ⟨?_, ?_, ?_, ?_, ?_⟩
  · rw [(hperm.map _).nodup_iff, map_cons, nodup_cons]
    refine ⟨fun hmem => ?_, h.ids⟩
    obtain ⟨other, hother, heq⟩ := mem_map.mp hmem
    exact hid other hother heq
  · rw [(hperm.map _).nodup_iff, map_cons, nodup_cons]
    refine ⟨fun hmem => ?_, h.names⟩
    obtain ⟨other, hother, heq⟩ := mem_map.mp hmem
    exact hname other hother heq
  · intro other hother hactive'
    exact h.owned other (hactive hother hactive') hactive'
  · intro a ha b hb hstandalone hnamed
    obtain rfl | ha := hmem ha
    · exact .inl hsession
    · obtain rfl | hb := hmem hb
      · exact .inr hsession
      · exact h.exclusive a ha b hb hstandalone hnamed
  · intro a ha b hb hactive₁ hactive₂
    exact h.single a (hactive ha hactive₁) b (hactive hb hactive₂) hactive₁ hactive₂

theorem checkClusterConfig_false (info : Info) (dbTime : ℤ) (nodes : List Node) :
    checkClusterConfig info dbTime nodes false ≠ .ok true := by
  induction nodes with
  | nil => exact fun h => nomatch h
  | cons node nodes ih =>
    rw [checkClusterConfig, ite_self]
    split
    · exact ih
    · split
      · exact fun h => nomatch h
      · split
        · exact fun h => nomatch h
        · exact ih

theorem checkClusterConfig_activate {dbTime : ℤ}
    (h : checkClusterConfig info dbTime nodes activate = .ok true) :
    ∀ node ∈ nodes, node.status = .active → info.isAvailable node dbTime = false := by
  induction nodes generalizing activate with
  | nil => exact fun node hnode => nomatch hnode
  | cons node nodes ih =>
    intro other hother hactive
    rw [checkClusterConfig] at h
    split at h
    · next hskip =>
      obtain rfl | hother := mem_cons.mp hother
      · exact hskip.resolve_left fun hstopped => nomatch hactive.symm.trans hstopped
      · exact ih h other hother hactive
    · split at h
      · cases h
      · split at h
        · cases h
        · obtain rfl | hother := mem_cons.mp hother
          · rw [if_pos (.inl hactive)] at h
            exact absurd h (checkClusterConfig_false _ _ _)
          · exact ih h other hother hactive

abbrev Info.ownRow (info : Info) : Node → Prop := fun node => some node.haNodeid = info.haNodeid

theorem mem_updateNode {nodeid : Option ℕ} (h : node' ∈ updateNode nodeid f nodes) : ∃ node ∈ nodes,
      (some node.haNodeid = nodeid ∧ node' = f node) ∨
        (some node.haNodeid ≠ nodeid ∧ node' = node) := by
  obtain ⟨node, hnode, rfl⟩ := mem_map.mp h
  refine ⟨node, hnode, ?_⟩
  split
  · exact .inl ⟨‹_›, rfl⟩
  · exact .inr ⟨‹_›, rfl⟩

theorem mem_setUnavailable (h : node ∈ setUnavailable nodeids nodes)
    (hactive : node.status = .active) : node ∈ nodes ∧ node.haNodeid ∉ nodeids := by
  obtain ⟨other, hother, rfl⟩ := mem_map.mp h
  by_cases hmem : other.haNodeid ∈ nodeids
  · rw [if_pos hmem] at hactive
    cases hactive
  · rw [if_neg hmem]
    exact ⟨hother, hmem⟩

theorem setUnavailable_name (h : node' ∈ setUnavailable nodeids nodes) :
    ∃ node ∈ nodes, node'.name = node.name := by
  obtain ⟨node, hnode, rfl⟩ := mem_map.mp h
  refine ⟨node, hnode, ?_⟩
  split <;> rfl

variable {dbTime now : ℤ} {session : ℕ} {status haStatus : NodeStatus}

theorem registeredNodes_derived (dbTime now : ℤ) (session : ℕ) (info : Info)
    (status haStatus : NodeStatus) (nodes : List Node) : Derived session info.ownRow nodes
      (registeredNodes dbTime now session info status haStatus nodes) := by
  have hupdated : Derived session info.ownRow nodes
      (updateNode info.haNodeid (registerRow now session status haStatus) nodes) :=
    derived_updateNode _ fun _ _ hown => ⟨rfl, rfl, .inr ⟨hown, rfl⟩⟩
  unfold registeredNodes
  dsimp only
  split
  · exact (hupdated.andThen (.filter _)).andThen (derived_setUnavailable _ _)
  · exact hupdated.andThen (.filter _)

theorem mem_deleteOthers (h : node ∈ deleteOthers info nodes) :
    node ∈ nodes ∧ (info.isHaCluster = true ∧ node.name ≠ [] ∨
      info.isHaCluster = false ∧ node.name = []) := by
  obtain ⟨hnode, htest⟩ := mem_filter.mp h
  refine ⟨hnode, ?_⟩
  cases hcluster : info.isHaCluster <;> simpa [hcluster] using htest

theorem registeredNodes_name
    (h : node' ∈ registeredNodes dbTime now session info status haStatus nodes) :
    info.isHaCluster = true ∧ node'.name ≠ [] ∨ info.isHaCluster = false ∧ node'.name = [] := by
  unfold registeredNodes at h
  dsimp only at h
  split at h
  · obtain ⟨row, hrow, hname⟩ := setUnavailable_name h
    rw [hname]
    exact (mem_deleteOthers hrow).2
  · exact (mem_deleteOthers h).2

theorem registeredNodes_active (hcluster : info.isHaCluster = true)
    (hconfig : checkConfig info dbTime nodes = .ok true)
    (h : node' ∈ registeredNodes dbTime now session info status .active nodes)
    (hactive : node'.status = .active) : some node'.haNodeid = info.haNodeid := by
  rw [registeredNodes, if_pos ⟨hcluster, rfl⟩] at h
  obtain ⟨hdeleted, hunavailable⟩ := mem_setUnavailable h hactive
  obtain ⟨node, hnode, ⟨hid, rfl⟩ | ⟨hid, rfl⟩⟩ := mem_updateNode (mem_deleteOthers hdeleted).1
  · exact hid
  · refine absurd ?_ hunavailable
    rw [checkConfig, if_pos hcluster] at hconfig
    have hoffline := checkClusterConfig_activate hconfig node' hnode hactive
    refine mem_map.mpr ⟨node', mem_filter.mpr ⟨hnode, ?_⟩, rfl⟩
    simp only [Info.isAvailable, Bool.not_eq_eq_eq_not, Bool.not_false, decide_eq_true_eq]
      at hoffline
    simpa [hid, hactive] using hoffline

theorem registeredNodes_standby
    (h : node' ∈ registeredNodes dbTime now session info status .standby nodes)
    (hactive : node'.status = .active) : ∃ node ∈ nodes, node'.haNodeid = node.haNodeid ∧
      node.status = .active := by
  rw [registeredNodes, if_neg fun h => nomatch h.2] at h
  obtain ⟨node, hnode, ⟨hid, rfl⟩ | ⟨hid, rfl⟩⟩ := mem_updateNode (mem_deleteOthers h).1
  · refine ⟨node, hnode, rfl, ?_⟩
    by_cases hstatus : NodeStatus.standby ≠ status
    · rw [registerRow, if_pos hstatus] at hactive
      cases hactive
    · rwa [registerRow, if_neg hstatus] at hactive
  · exact ⟨node', hnode, rfl, hactive⟩

theorem TableOk.registered (h : TableOk nodes)
    (hconfig : checkConfig info dbTime nodes = .ok activate) :
    TableOk (registeredNodes dbTime now session info status
      (if activate then .active else .standby) nodes) := by
  refine h.derived (registeredNodes_derived ..) ?_ ?_
  · intro node hnode other hother hstandalone hnamed
    obtain ⟨hcluster, hname⟩ | ⟨hcluster, hname⟩ := registeredNodes_name hnode
    · exact absurd hstandalone hname
    · obtain ⟨hcluster', -⟩ | ⟨-, hname'⟩ := registeredNodes_name hother
      · exact absurd (hcluster'.symm.trans hcluster) (by decide)
      · exact absurd hname' hnamed
  · intro node hnode other hother hactive hactive'
    cases activate with
    | true =>
      cases hcluster : info.isHaCluster with
      | true =>
        have hid := registeredNodes_active hcluster hconfig hnode hactive
        have hid' := registeredNodes_active hcluster hconfig hother hactive'
        exact Option.some.inj (hid.trans hid'.symm)
      | false =>
        obtain ⟨hcluster', -⟩ | ⟨-, hname⟩ := registeredNodes_name hnode
        · exact absurd (hcluster'.symm.trans hcluster) (by decide)
        · obtain ⟨hcluster', -⟩ | ⟨-, hname'⟩ := registeredNodes_name hother
          · exact absurd (hcluster'.symm.trans hcluster) (by decide)
          · have hnames := h.names.sublist (registeredNodes_derived dbTime now session info status
              .active nodes).names
            rw [inj_on_of_nodup_map hnames hnode hother (hname.trans hname'.symm)]
    | false =>
      obtain ⟨row, hrow, hid, hactive⟩ := registeredNodes_standby hnode hactive
      obtain ⟨row', hrow', hid', hactive'⟩ := registeredNodes_standby hother hactive'
      rw [hid, hid', h.single row hrow row' hrow' hactive hactive']

theorem haDbRegisterNode_cases (h : TableOk nodes) (fault : Option Fault) (dbTime now : ℤ)
    (session : ℕ) (info : Info) :
    (∃ info', info.Kept info' ∧
      haDbRegisterNode fault dbTime now session info nodes = (info', none)) ∨
    ∃ haStatus nodes', (haStatus = .active ∨ haStatus = .standby) ∧
      Derived session info.ownRow nodes nodes' ∧ TableOk nodes' ∧
      haDbRegisterNode fault dbTime now session info nodes =
        ({ info with haStatus := haStatus }, some nodes') := by
  unfold haDbRegisterNode
  cases faultAt fault .getNodes with
  | some fatal => exact .inl ⟨_, info.kept_dbFault fatal, rfl⟩
  | none =>
    cases faultAt fault .getTime with
    | some fatal => exact .inl ⟨_, info.kept_dbFault fatal, rfl⟩
    | none =>
      cases hconfig : checkConfig info dbTime nodes with
      | error error => exact .inl ⟨_, info.kept_setError error, rfl⟩
      | ok activate =>
        cases nodes.find? (·.name = info.name) with
        | none => exact .inl ⟨_, info.kept_setError _, rfl⟩
        | some node =>
          dsimp only
          split
          · exact .inl ⟨_, .refl info, rfl⟩
          · obtain ⟨info', hkept, heq⟩ | heq := haDbCommit_cases fault info
              (fun info => { info with haStatus := if activate then .active else .standby })
              (registeredNodes dbTime now session info node.status
                (if activate then .active else .standby) nodes)
            · exact .inl ⟨info', hkept, heq⟩
            · refine .inr ⟨_, _, ?_, registeredNodes_derived .., h.registered hconfig, heq⟩
              cases activate
              · exact .inr rfl
              · exact .inl rfl

theorem Info.kept_updateTicks (info : Info) (node : Node) :
    info.Kept (info.updateTicks node) ∧ (info.updateTicks node).haStatus = info.haStatus := by
  unfold Info.updateTicks
  split
  · exact ⟨⟨rfl, rfl, .inl rfl⟩, rfl⟩
  · exact ⟨⟨rfl, rfl, .inl rfl⟩, rfl⟩

theorem haCheckActiveNode_cases (h : TableOk nodes) {lastActive : Option ℕ}
    (hcheck : haCheckActiveNode info nodes = .ok (info', lastActive, haStatus)) :
    info.Kept info' ∧ info'.haStatus = info.haStatus ∧
      ((haStatus = info.haStatus ∧ lastActive = none) ∨
        (haStatus = .active ∧ ∀ node ∈ nodes, node.status = .active →
          some node.haNodeid = info.haNodeid ∨ node.haNodeid ∈ lastActive)) := by
  unfold haCheckActiveNode at hcheck
  cases hfind : nodes.find? (·.status = .active) with
  | none =>
    rw [hfind] at hcheck
    cases hcheck
    refine ⟨.refl _, rfl, .inr ⟨rfl, fun node hnode hactive => ?_⟩⟩
    have hnone := List.find?_eq_none.mp hfind node hnode
    exact absurd (decide_eq_true hactive) hnone
  | some found =>
    have hfound : found ∈ nodes := mem_of_find?_eq_some hfind
    have hactive : found.status = .active := by
      have htest := List.find?_some hfind
      exact of_decide_eq_true htest
    have hsingle : ∀ node ∈ nodes, node.status = .active → node = found :=
      fun node hnode hactive' => h.single node hnode found hfound hactive' hactive
    simp only [hfind] at hcheck
    split at hcheck
    · cases hcheck
    · split at hcheck
      · next hown =>
        cases hcheck
        refine ⟨.refl _, rfl, .inr ⟨rfl, fun node hnode hactive' => .inl ?_⟩⟩
        rw [hsingle node hnode hactive', hown]
      · obtain ⟨hkept, hstatus⟩ := info.kept_updateTicks found
        split at hcheck
        · cases hcheck
          refine ⟨hkept, hstatus, .inr ⟨rfl, fun node hnode hactive' => .inr ?_⟩⟩
          rw [hsingle node hnode hactive']
          rfl
        · cases hcheck
          exact ⟨hkept, hstatus, .inl ⟨hstatus, rfl⟩⟩

abbrev sessionRow (p : ℕ) : Node → Prop := fun node => node.haSessionid = some p

structure Found (p : ℕ) (info : Info) (nodes : List Node) (node : Node) : Prop where
  mem : node ∈ nodes
  name : node.name = info.name
  session : node.haSessionid = some p
  haNodeid : info.haNodeid = some node.haNodeid

theorem updateOwn_derived (h : TableOk nodes) (hfound : Found p info nodes node) (now : ℤ)
    (status haStatus : NodeStatus) :
    Derived p (sessionRow p) nodes (updateOwn now info status haStatus nodes) := by
  refine derived_updateNode _ fun row hrow hid => ?_
  have hid : row.haNodeid = node.haNodeid := Option.some.inj (hid.trans hfound.haNodeid)
  have hsession : row.haSessionid = some p :=
    (h.eq_of_haNodeid hrow hfound.mem hid) ▸ hfound.session
  exact ⟨rfl, rfl, .inr ⟨hsession, hsession⟩⟩

theorem mem_updateOwn (hfound : Found p info nodes node)
    (hmem : node' ∈ updateOwn now info node.status haStatus nodes)
    (hactive : node'.status = .active) :
    (∃ row ∈ nodes, node'.haNodeid = row.haNodeid ∧ row.status = .active) ∨
      (haStatus = .active ∧ node'.haNodeid = node.haNodeid) := by
  obtain ⟨row, hrow, ⟨hid, rfl⟩ | ⟨-, rfl⟩⟩ := mem_updateNode hmem
  · by_cases hstatus : haStatus ≠ node.status
    · refine .inr ⟨?_, Option.some.inj (hid.trans hfound.haNodeid)⟩
      simpa only [if_pos hstatus] using hactive
    · refine .inl ⟨row, hrow, rfl, ?_⟩
      simpa only [if_neg hstatus] using hactive
  · exact .inl ⟨node', hrow, rfl, hactive⟩

structure Checked (p : ℕ) (info : Info) (nodes : List Node) (outcome : Outcome) : Prop where
  name : outcome.1.name = info.name
  haNodeid : outcome.1.haNodeid = info.haNodeid
  haStatus : info.haStatus ≠ .unknown → outcome.1.haStatus ≠ .unknown
  derived : ∀ nodes' ∈ outcome.2, Derived p (sessionRow p) nodes nodes' ∧ TableOk nodes'

theorem checked_none (h : info.Kept info') : Checked p info nodes (info', none) where
  name := h.name
  haNodeid := h.haNodeid
  haStatus hstatus := by
    obtain heq | heq := h.haStatus
    · exact fun h => hstatus (heq ▸ h)
    · exact fun h => nomatch heq.symm.trans h
  derived nodes' hnodes' := nomatch hnodes'

theorem checked_haDbCommit (fault : Option Fault) {f : Info → Info} (hkept : info.Kept info')
    (hname : (f info').name = info.name) (hnodeid : (f info').haNodeid = info.haNodeid)
    (hstatus : info.haStatus ≠ .unknown → (f info').haStatus ≠ .unknown)
    (hd : Derived p (sessionRow p) nodes nodes') (htable : TableOk nodes') :
    Checked p info nodes (haDbCommit fault info' f nodes') := by
  obtain ⟨info'', hkept', heq⟩ | heq := haDbCommit_cases fault info' f nodes'
  · rw [heq]
    exact checked_none (hkept.trans hkept')
  · rw [heq]
    refine ⟨hname, hnodeid, hstatus, fun nodes hnodes => ?_⟩
    obtain rfl := Option.mem_some.mp hnodes
    exact ⟨hd, htable⟩

theorem haCheckStatus_checked (h : TableOk nodes) (hfound : Found p info nodes node)
    (fault : Option Fault) (dbTime now : ℤ) :
    Checked p info nodes (haCheckStatus fault dbTime now info node nodes) := by
  unfold haCheckStatus
  split
  · next hcluster =>
    split
    · next hactive =>
      split
      · exact checked_haDbCommit fault (.refl info) rfl rfl (fun _ => nofun) (.refl nodes) h
      · next hstatus =>
        have hstatus : node.status = info.haStatus := not_not.mp hstatus
        have hunavailable : Derived p noOwn nodes
            (setUnavailable (unavailableNodes info dbTime nodes) nodes) :=
          derived_setUnavailable _ _
        have hown : Derived p noOwn nodes (updateOwn now info node.status info.haStatus
            (setUnavailable (unavailableNodes info dbTime nodes) nodes)) := by
          refine hunavailable.andThen (derived_updateNode _ fun row _ _ =>
            ⟨rfl, rfl, .inl ⟨rfl, ?_⟩⟩)
          rw [if_neg (not_not.mpr hstatus.symm)]
          exact id
        exact checked_haDbCommit fault (.refl info) rfl rfl id (hown.mono fun _ => False.elim)
          (h.derived_noOwn hown)
    · next hpassive =>
      cases hcheck : haCheckActiveNode info nodes with
      | error error => exact checked_none (info.kept_setError error)
      | ok result =>
        obtain ⟨info', lastActive, haStatus⟩ := result
        obtain ⟨hkept, hstatus, hcases⟩ := haCheckActiveNode_cases h hcheck
        have hfound' : Found p info' nodes node :=
          ⟨hfound.mem, hfound.name.trans hkept.name.symm, hfound.session,
            hkept.haNodeid.trans hfound.haNodeid⟩
        have hd : Derived p (sessionRow p) nodes (setUnavailable lastActive.toList
            (updateOwn now info' node.status haStatus nodes)) :=
          (updateOwn_derived h hfound' now _ _).andThen (derived_setUnavailable _ _)
        refine checked_haDbCommit fault hkept hkept.name hkept.haNodeid ?_ hd
          (h.derived hd (h.exclusive_derived hd fun _ _ hsession => hsession) ?_)
        · obtain ⟨rfl, -⟩ | ⟨rfl, -⟩ := hcases
          · exact id
          · exact fun _ => nofun
        · obtain ⟨hkeep, -⟩ | ⟨hactivated, hall⟩ := hcases
          · -- no row became active
            have hold {row : Node} (hrow : row ∈ setUnavailable lastActive.toList
                (updateOwn now info' node.status haStatus nodes)) (hactive : row.status = .active) :
                ∃ old ∈ nodes, row.haNodeid = old.haNodeid ∧ old.status = .active :=
              (mem_updateOwn hfound' (mem_setUnavailable hrow hactive).1 hactive).resolve_right
                fun hactivated => hpassive (hkeep ▸ hactivated.1)
            intro row hrow other hother hactive hactive'
            obtain ⟨old, hold₁, hid, hactive⟩ := hold hrow hactive
            obtain ⟨old', hold₂, hid', hactive'⟩ := hold hother hactive'
            rw [hid, hid', h.single old hold₁ old' hold₂ hactive hactive']
          · -- the own row is the only one that is active now
            have hown {row : Node} (hrow : row ∈ setUnavailable lastActive.toList
                (updateOwn now info' node.status haStatus nodes)) (hactive : row.status = .active) :
                row.haNodeid = node.haNodeid := by
              obtain ⟨hrow, hkeep⟩ := mem_setUnavailable hrow hactive
              obtain ⟨old, hold, hid, hactive'⟩ | ⟨-, hid⟩ := mem_updateOwn hfound' hrow hactive
              · obtain hown | hlast := hall old hold hactive'
                · exact hid.trans (Option.some.inj (hown.trans hfound.haNodeid))
                · exact absurd (Option.mem_toList.mpr (hid ▸ hlast)) hkeep
              · exact hid
            intro row hrow other hother hactive hactive'
            rw [hown hrow hactive, hown hother hactive']
  · next hcluster =>
    have hstandalone : node.name = [] := by simpa [Info.isHaCluster, hfound.name] using hcluster
    have hd := updateOwn_derived h hfound now node.status info.haStatus
    refine checked_haDbCommit fault (.refl info) rfl rfl id hd
      (h.derived hd (h.exclusive_derived hd fun _ _ hsession => hsession) ?_)
    -- a named row that is active would have a session, as the standalone row has
    have hown {row : Node} (hrow : row ∈ updateOwn now info node.status info.haStatus nodes)
        (hactive : row.status = .active) : row.haNodeid = node.haNodeid := by
      obtain ⟨old, hold, hid, hactive'⟩ | ⟨-, hid⟩ := mem_updateOwn hfound hrow hactive
      · by_cases hname : old.name = []
        · rw [hid, h.eq_of_name hold hfound.mem (hname.trans hstandalone.symm)]
        · obtain hnone | hnone := h.exclusive node hfound.mem old hold hstandalone hname
          · exact nomatch hfound.session.symm.trans hnone
          · exact absurd hnone (h.owned old hold hactive')
      · exact hid
    intro row hrow other hother hactive hactive'
    rw [hown hrow hactive, hown hother hactive']

theorem haCheckStatus_lost (hcluster : info.isHaCluster = true) (hactive : info.haStatus = .active)
    (hlost : node.status ≠ info.haStatus) (nodes : List Node) (dbTime now : ℤ) :
    (haCheckStatus none dbTime now info node nodes).1.haStatus = .standby := by
  rw [haCheckStatus, if_pos hcluster, if_pos hactive, if_pos hlost]
  rfl

theorem haCheckStatus_standalone (hfound : Found p info nodes node)
    (hstandalone : info.isHaCluster = false) (hactive : info.haStatus = .active)
    (dbTime now : ℤ) :
    ∃ nodes', (haCheckStatus none dbTime now info node nodes).2 = some nodes' ∧
      ∃ row ∈ nodes', row.name = info.name ∧ row.haSessionid = some p ∧ row.status = .active := by
  rw [haCheckStatus, if_neg (Bool.not_eq_true _ ▸ hstandalone)]
  refine ⟨_, rfl, _, mem_map.mpr ⟨node, hfound.mem, if_pos hfound.haNodeid.symm⟩, hfound.name,
    hfound.session, ?_⟩
  dsimp only
  by_cases hstatus : info.haStatus ≠ node.status
  · rw [if_pos hstatus, hactive]
  · rw [if_neg hstatus, ← not_not.mp hstatus, hactive]

theorem updateNodeid_haNodeid (h : info.haNodeid = none ∨ info.haNodeid = some node.haNodeid) :
    (info.updateNodeid node).haNodeid = some node.haNodeid := by
  obtain h | h := h <;> simp [Info.updateNodeid, h]

theorem haCheckNodes_checked (h : TableOk nodes) (hsession : ∀ node ∈ nodes,
    node.haSessionid = some p → info.haNodeid = none ∨ info.haNodeid = some node.haNodeid)
    (fault : Option Fault) (failoverDelay dbTime now : ℤ) :
    ∃ info₁ : Info, info₁.name = info.name ∧ info₁.haStatus = info.haStatus ∧
      (info₁.haNodeid = info.haNodeid ∨ ∃ node, Found p info₁ nodes node) ∧
      Checked p info₁ nodes (haCheckNodes fault failoverDelay dbTime now p info nodes) := by
  unfold haCheckNodes
  cases faultAt fault .getNodes with
  | some fatal => exact ⟨info, rfl, rfl, .inl rfl, checked_none (info.kept_dbFault fatal)⟩
  | none =>
    cases hfind : nodes.find? (·.name = info.name) with
    | none => exact ⟨info, rfl, rfl, .inl rfl, checked_none (info.kept_setError _)⟩
    | some node =>
      obtain ⟨hnode, hname⟩ := find_name hfind
      dsimp only
      split
      · exact ⟨info, rfl, rfl, .inl rfl, checked_none (info.kept_setError _)⟩
      · next hown =>
        have hown : node.haSessionid = some p := not_not.mp hown
        have hid := updateNodeid_haNodeid (hsession node hnode hown)
        have hfound : Found p (info.updateNodeid node) nodes node := ⟨hnode, hname, hown, hid⟩
        have hfound' : Found p ((info.updateNodeid node).updateConfig failoverDelay) nodes node :=
          ⟨hnode, hname, hown, hid⟩
        cases faultAt fault .updateConfig with
        | some fatal =>
          exact ⟨info.updateNodeid node, rfl, rfl, .inr ⟨node, hfound⟩,
            checked_none (Info.kept_dbFault _ fatal)⟩
        | none =>
          refine ⟨(info.updateNodeid node).updateConfig failoverDelay, rfl, rfl,
            .inr ⟨node, hfound'⟩, ?_⟩
          cases faultAt fault .getTime with
          | some fatal => exact checked_none (Info.kept_dbFault _ fatal)
          | none => exact haCheckStatus_checked h hfound' fault dbTime now

theorem haCheckNodes_lost (hcluster : info.isHaCluster = true) (hactive : info.haStatus = .active)
    (hlost : ∀ node ∈ nodes, node.name = info.name → node.haSessionid = some p →
      node.status ≠ .active) (failoverDelay dbTime now : ℤ) :
    (haCheckNodes none failoverDelay dbTime now p info nodes).1.haStatus = .standby ∨
      (haCheckNodes none failoverDelay dbTime now p info nodes).1.haStatus = .error := by
  unfold haCheckNodes
  simp only [faultAt]
  cases hfind : nodes.find? (·.name = info.name) with
  | none => exact .inr (info.setError_haStatus _)
  | some node =>
    obtain ⟨hnode, hname⟩ := find_name hfind
    dsimp only
    split
    · exact .inr (info.setError_haStatus _)
    · next hown =>
      have hstatus : node.status ≠ info.haStatus :=
        hactive ▸ hlost node hnode hname (not_not.mp hown)
      have hcluster' : ((info.updateNodeid node).updateConfig failoverDelay).isHaCluster = true :=
        hcluster
      exact .inl (haCheckStatus_lost hcluster' hactive hstatus nodes dbTime now)

theorem haCheckNodes_standalone (hstandalone : info.isHaCluster = false)
    (hactive : info.haStatus = .active) (hsession : ∀ node ∈ nodes,
      node.haSessionid = some p → info.haNodeid = none ∨ info.haNodeid = some node.haNodeid)
    (failoverDelay dbTime now : ℤ) :
    (haCheckNodes none failoverDelay dbTime now p info nodes).1.haStatus = .error ∨
      ∃ nodes', (haCheckNodes none failoverDelay dbTime now p info nodes).2 = some nodes' ∧
        ∃ node ∈ nodes', node.name = info.name ∧ node.haSessionid = some p ∧
          node.status = .active := by
  unfold haCheckNodes
  simp only [faultAt]
  cases hfind : nodes.find? (·.name = info.name) with
  | none => exact .inl (info.setError_haStatus _)
  | some node =>
    obtain ⟨hnode, hname⟩ := find_name hfind
    dsimp only
    split
    · exact .inl (info.setError_haStatus _)
    · next hown =>
      have hown : node.haSessionid = some p := not_not.mp hown
      have hid := updateNodeid_haNodeid (hsession node hnode hown)
      have hfound : Found p ((info.updateNodeid node).updateConfig failoverDelay) nodes node :=
        ⟨hnode, hname, hown, hid⟩
      exact .inr (haCheckStatus_standalone hfound hstandalone hactive dbTime now)

theorem haDbCommit_fault (h : fault.stage = .commit) (info : Info) (f : Info → Info)
    (nodes : List Node) :
    haDbCommit (some fault) info f nodes = (info.dbFault fault.fatal, none) := by
  rw [haDbCommit, faultAt, if_pos h]

theorem haCheckStatus_fault (h : fault.stage = .commit) (hnodes : TableOk nodes) (dbTime now : ℤ)
    (info : Info) (node : Node) :
    info.Kept (haCheckStatus (some fault) dbTime now info node nodes).1 ∧
      (haCheckStatus (some fault) dbTime now info node nodes).2 = none := by
  unfold haCheckStatus
  split
  · split
    · split
      · rw [haDbCommit_fault h]
        exact ⟨info.kept_dbFault _, rfl⟩
      · rw [haDbCommit_fault h]
        exact ⟨info.kept_dbFault _, rfl⟩
    · cases hcheck : haCheckActiveNode info nodes with
      | error error => exact ⟨info.kept_setError error, rfl⟩
      | ok result =>
        obtain ⟨hkept, -, -⟩ := haCheckActiveNode_cases hnodes hcheck
        dsimp only
        rw [haDbCommit_fault h]
        exact ⟨hkept.trans (Info.kept_dbFault _ _), rfl⟩
  · rw [haDbCommit_fault h]
    exact ⟨info.kept_dbFault _, rfl⟩

theorem haCheckNodes_fault (hnodes : TableOk nodes) (fault : Fault) (failoverDelay dbTime now : ℤ)
    (p : ℕ) (info : Info) :
    (haCheckNodes (some fault) failoverDelay dbTime now p info nodes).1.name = info.name ∧
      ((haCheckNodes (some fault) failoverDelay dbTime now p info nodes).1.haStatus =
          info.haStatus ∨
        (haCheckNodes (some fault) failoverDelay dbTime now p info nodes).1.haStatus = .error) ∧
      (haCheckNodes (some fault) failoverDelay dbTime now p info nodes).2 = none := by
  unfold haCheckNodes
  cases hstage : faultAt (some fault) .getNodes with
  | some fatal => exact ⟨(info.kept_dbFault fatal).name, (info.kept_dbFault fatal).haStatus, rfl⟩
  | none =>
    cases nodes.find? (·.name = info.name) with
    | none => exact ⟨(info.kept_setError _).name, (info.kept_setError _).haStatus, rfl⟩
    | some node =>
      dsimp only
      split
      · exact ⟨(info.kept_setError _).name, (info.kept_setError _).haStatus, rfl⟩
      · cases hstage' : faultAt (some fault) .updateConfig with
        | some fatal =>
          have hkept := (info.updateNodeid node).kept_dbFault fatal
          exact ⟨hkept.name, hkept.haStatus, rfl⟩
        | none =>
          cases hstage'' : faultAt (some fault) .getTime with
          | some fatal =>
            have hkept := ((info.updateNodeid node).updateConfig failoverDelay).kept_dbFault fatal
            exact ⟨hkept.name, hkept.haStatus, rfl⟩
          | none =>
            have hcommit : fault.stage = .commit := by
              cases heq : fault.stage <;> simp_all [faultAt]
            obtain ⟨hkept, hnone⟩ := haCheckStatus_fault hcommit hnodes dbTime now
              ((info.updateNodeid node).updateConfig failoverDelay) node
            exact ⟨hkept.name, hkept.haStatus, hnone⟩

end Zabbix.Ha
