import Zabbix.Ha.Transactions

/-!
# At most one active node

Every transaction keeps the cluster consistent. A server that has lost its active row cannot get
it back before its next check.
-/

namespace Zabbix.Ha

open List Option Function Zabbix.Transition

variable {w w' : Cluster} {p q nodeid : ℕ} {info info' : Info} {nodes nodes' seen : List Node}
  {node node' : Node} {outcome : Outcome} {phase : Phase} {own : Node → Prop}

@[simp] theorem apply_managers (w : Cluster) (p : ℕ) (outcome : Outcome) (phase : Phase) :
    (w.apply p outcome phase).managers = update w.managers p ⟨outcome.1, phase⟩ := by
  obtain ⟨info, _ | nodes⟩ := outcome <;> rfl

@[simp] theorem apply_nodes (w : Cluster) (p : ℕ) (outcome : Outcome) (phase : Phase) :
    (w.apply p outcome phase).nodes = outcome.2.getD w.nodes := by
  obtain ⟨info, _ | nodes⟩ := outcome <;> rfl

@[simp] theorem apply_history (w : Cluster) (p : ℕ) (outcome : Outcome) (phase : Phase) :
    (w.apply p outcome phase).history = outcome.2.toList ++ w.history := by
  obtain ⟨info, _ | nodes⟩ := outcome <;> rfl

def Cluster.RowFrom (w : Cluster) (p : ℕ) (node' : Node) : Prop :=
  (∃ node ∈ w.nodes, node'.haNodeid = node.haNodeid ∧ node'.name = node.name ∧
    (node'.haSessionid = node.haSessionid ∨ node'.haSessionid = some p)) ∨
  (node'.haSessionid = none ∧ ∀ nodes ∈ w.history, ∀ node ∈ nodes,
    node.haNodeid ≠ node'.haNodeid)

theorem Derived.rowFrom (h : Derived p own w.nodes nodes') (hnode' : node' ∈ nodes') :
    w.RowFrom p node' := by
  obtain ⟨node, hnode, hid, hname, hkept⟩ := h.rows node' hnode'
  exact .inl ⟨node, hnode, hid, hname, hkept.imp And.left And.right⟩

theorem ServerOk.mono (h : ServerOk w p) (hhistory : w.history ⊆ w'.history)
    (hsession : ∀ node' ∈ w'.nodes, node'.haSessionid = some p → ∃ node ∈ w.nodes,
      node'.haNodeid = node.haNodeid ∧ node'.name = node.name ∧ node.haSessionid = some p)
    (hname : (w'.managers p).info.name = (w.managers p).info.name)
    (hnodeid : (w'.managers p).info.haNodeid = (w.managers p).info.haNodeid)
    (hregistered : (w.managers p).info.haStatus ≠ .unknown → (w.managers p).phase ≠ .register →
      (w.managers p).phase ≠ .notStarted → (w'.managers p).info.haStatus ≠ .unknown ∧
        (w'.managers p).phase ≠ .register ∧ (w'.managers p).phase ≠ .notStarted)
    (hregistering : (w'.managers p).phase = .register →
      (w'.managers p).info.haStatus = .unknown ∨ (w'.managers p).info.haStatus = .error) :
    ServerOk w' p where
  nodeid i hi := by
    obtain ⟨nodes, hnodes, node, hnode, hid, hnode'⟩ := h.nodeid i (hnodeid ▸ hi)
    exact ⟨nodes, hhistory hnodes, node, hnode, hid, hnode'.trans hname.symm⟩
  session node' hnode' hp := by
    obtain ⟨node, hnode, hid, hname', hp⟩ := hsession node' hnode' hp
    obtain ⟨hnode, hid'⟩ := h.session node hnode hp
    rw [hname', hname, hid, hnodeid]
    exact ⟨hnode, hid'⟩
  registered node' hnode' hp := by
    obtain ⟨node, hnode, -, -, hp⟩ := hsession node' hnode' hp
    obtain ⟨hstatus, hregister, hstarted⟩ := h.registered node hnode hp
    exact hregistered hstatus hregister hstarted
  registering := hregistering

variable (h : Consistent w)

include h

theorem Consistent.apply
    (htable : ∀ nodes' ∈ outcome.2, TableOk nodes' ∧ ∀ node' ∈ nodes', w.RowFrom p node')
    (hp : ServerOk (w.apply p outcome phase) p) : Consistent (w.apply p outcome phase) := by
  have hold {nodes' : List Node} (hnodes' : nodes' ∈ outcome.2) {node' : Node}
      (hnode' : node' ∈ nodes') : ∀ nodes ∈ w.history, ∀ node ∈ nodes,
      node'.haNodeid = node.haNodeid → node'.name = node.name := by
    intro nodes hnodes node hnode hid
    obtain ⟨old, hold, hid', hname, -⟩ | ⟨-, hnew⟩ := (htable nodes' hnodes').2 node' hnode'
    · rw [hname]
      exact h.names _ h.current nodes hnodes old hold node hnode (hid'.symm.trans hid)
    · exact absurd hid.symm (hnew nodes hnodes node hnode)
  refine ⟨?_, ?_, ?_, fun q => ?_⟩
  · rw [apply_nodes, apply_history]
    cases outcome.2 with
    | none => exact h.current
    | some nodes' => exact mem_cons_self
  · rw [apply_history]
    intro nodes hnodes nodes' hnodes' node hnode node' hnode' hid
    obtain hnew | hnodes := mem_append.mp hnodes
    · obtain hnew' | hnodes' := mem_append.mp hnodes'
      · have hnew := mem_toList.mp hnew
        obtain rfl : nodes = nodes' := mem_unique hnew (mem_toList.mp hnew')
        rw [(htable nodes hnew).1.eq_of_haNodeid hnode hnode' hid]
      · exact hold (mem_toList.mp hnew) hnode nodes' hnodes' node' hnode' hid
    · obtain hnew' | hnodes' := mem_append.mp hnodes'
      · exact (hold (mem_toList.mp hnew') hnode' nodes hnodes node hnode hid.symm).symm
      · exact h.names nodes hnodes nodes' hnodes' node hnode node' hnode' hid
  · rw [apply_nodes]
    cases hnodes' : outcome.2 with
    | none => exact h.table
    | some nodes' => exact (htable nodes' hnodes').1
  · by_cases hq : q = p
    · exact hq ▸ hp
    · have hmanager : (w.apply p outcome phase).managers q = w.managers q := by
        rw [apply_managers, update_of_ne hq]
      refine (h.server q).mono ?_ ?_ (by rw [hmanager]) (by rw [hmanager]) ?_ ?_
      · rw [apply_history]
        exact subset_append_right _ _
      · rw [apply_nodes]
        intro node' hnode' hsession
        cases hnodes' : outcome.2 with
        | none => exact ⟨node', by simpa [hnodes'] using hnode', rfl, rfl, hsession⟩
        | some nodes' =>
          have hnode' : node' ∈ nodes' := by simpa [hnodes'] using hnode'
          obtain ⟨node, hnode, hid, hname, hkept | hnew⟩ | ⟨hnone, -⟩ :=
            (htable nodes' hnodes').2 node' hnode'
          · exact ⟨node, hnode, hid, hname, hkept ▸ hsession⟩
          · exact absurd (Option.some.inj (hsession.symm.trans hnew)) hq
          · exact nomatch hsession.symm.trans hnone
      · rw [hmanager]
        exact fun hstatus hregister hstarted => ⟨hstatus, hregister, hstarted⟩
      · rw [hmanager]
        exact (h.server q).registering

theorem Consistent.apply_harmless (hharmless : Harmless p (w.managers p).info w.nodes outcome)
    (hregister : phase ≠ .register) (hstarted : phase ≠ .notStarted)
    : Consistent (w.apply p outcome phase) := by
  have hrows {nodes' : List Node} (hnodes' : nodes' ∈ outcome.2) := hharmless.derived nodes' hnodes'
  refine h.apply (fun nodes' hnodes' => ⟨h.table.derived_noOwn (hrows hnodes'),
    fun node' hnode' => (hrows hnodes').rowFrom hnode'⟩) ((h.server p).mono ?_ ?_ ?_ ?_ ?_ ?_)
  · rw [apply_history]
    exact subset_append_right _ _
  · rw [apply_nodes]
    intro node' hnode' hsession
    cases hnodes' : outcome.2 with
    | none => exact ⟨node', by simpa [hnodes'] using hnode', rfl, rfl, hsession⟩
    | some nodes' =>
      have hnode' : node' ∈ nodes' := by simpa [hnodes'] using hnode'
      obtain ⟨node, hnode, hid, hname, ⟨hkept, -⟩ | ⟨hfalse, -⟩⟩ :=
        (hrows hnodes').rows node' hnode'
      · exact ⟨node, hnode, hid, hname, hkept ▸ hsession⟩
      · exact hfalse.elim
  · simpa using hharmless.kept.name
  · simpa using hharmless.kept.haNodeid
  · intro hstatus _ _
    rw [apply_managers, update_self]
    refine ⟨?_, hregister, hstarted⟩
    obtain heq | heq := hharmless.kept.haStatus
    · exact heq ▸ hstatus
    · exact fun h => nomatch heq.symm.trans h
  · rw [apply_managers, update_self]
    exact fun h => absurd h hregister

theorem Consistent.start (hphase : (w.managers p).phase = .notStarted) (name : List Char)
    : Consistent (w.apply p (.initial name .unknown, none) .main) := by
  have hnone {node : Node} (hnode : node ∈ w.nodes) : node.haSessionid ≠ some p :=
    fun hsession => ((h.server p).registered node hnode hsession).2.2 hphase
  refine h.apply (fun nodes hnodes => nomatch hnodes) ⟨?_, ?_, ?_, ?_⟩
  · simp [Info.initial]
  · intro node hnode hsession
    exact absurd hsession (hnone hnode)
  · intro node hnode hsession
    exact absurd hsession (hnone hnode)
  · simp

theorem Consistent.restart (p : ℕ) : Consistent
    (w.apply p (.initial (w.managers p).info.name .standby, none) .main) := by
  refine h.apply (fun nodes hnodes => nomatch hnodes) ⟨?_, ?_, ?_, ?_⟩
  · simp [Info.initial]
  · intro node hnode hsession
    obtain ⟨hname, -⟩ := (h.server p).session node hnode hsession
    simpa [Info.initial] using hname
  · intro node hnode hsession
    simp [Info.initial]
  · simp

theorem Consistent.createNode {now : ℤ} (hstatus : (w.managers p).info.haStatus = .unknown)
    (hseen : seen ∈ w.history) (hnew : ∀ nodes ∈ w.history, ∀ node ∈ nodes, node.haNodeid ≠ nodeid)
    (hcreated : Created nodeid now (w.managers p).info seen w.nodes outcome) :
    Consistent (w.apply p outcome (if outcome.1.haNodeid = none then .main else .register)) := by
  have htable : ∀ nodes' ∈ outcome.2, TableOk nodes' ∧ ∀ node' ∈ nodes', node' ∈ w.nodes ∨
      node' = ⟨nodeid, none, (w.managers p).info.name, .stopped, now⟩ := by
    intro nodes' hnodes'
    obtain ⟨hnone, -⟩ | ⟨hsome, -⟩ | ⟨inserted, hinsert, hsome, -⟩ := hcreated.table
    · rw [hnone] at hnodes'
      cases hnodes'
    · obtain rfl : nodes' = w.nodes := by simpa [hsome] using hnodes'.symm
      exact ⟨h.table, fun node' => .inl⟩
    · obtain rfl : nodes' = inserted := by simpa [hsome] using hnodes'.symm
      refine ⟨h.table.insertNode hinsert (hnew _ h.current) rfl (fun h => nomatch h), ?_⟩
      intro node' hnode'
      exact (mem_cons.mp ((insertNode_perm hinsert).1.mem_iff.mp hnode')).symm
  have hnone (phase : Phase) : ∀ node' ∈ (w.apply p outcome phase).nodes,
      node'.haSessionid ≠ some p := by
    have hold {node : Node} (hnode : node ∈ w.nodes) : node.haSessionid ≠ some p :=
      fun hsession => ((h.server p).registered node hnode hsession).1 hstatus
    rw [apply_nodes]
    intro node' hnode'
    cases hnodes' : outcome.2 with
    | none => exact hold (by simpa [hnodes'] using hnode')
    | some nodes' =>
      obtain hnode' | rfl := (htable nodes' hnodes').2 node' (by simpa [hnodes'] using hnode')
      · exact hold hnode'
      · exact fun h => nomatch h
  refine h.apply (fun nodes' hnodes' => ⟨(htable nodes' hnodes').1, fun node' hnode' => ?_⟩)
    ⟨?_, ?_, ?_, ?_⟩
  · obtain hnode' | rfl := (htable nodes' hnodes').2 node' hnode'
    · exact .inl ⟨node', hnode', rfl, rfl, .inl rfl⟩
    · exact .inr ⟨rfl, hnew⟩
  · rw [apply_managers, update_self, apply_history, hcreated.name]
    intro i hi
    obtain ⟨-, hkept⟩ | ⟨-, node, hnode, hname, hfound⟩ | ⟨inserted, hinsert, hsome, hfound⟩ :=
      hcreated.table
    · obtain ⟨nodes, hnodes, hnode⟩ := (h.server p).nodeid i (hkept ▸ hi)
      exact ⟨nodes, mem_append_right _ hnodes, hnode⟩
    · exact ⟨seen, mem_append_right _ hseen, node, hnode,
        Option.some.inj (hfound.symm.trans hi), hname⟩
    · refine ⟨inserted, by simp [hsome], _,
        (insertNode_perm hinsert).1.mem_iff.mpr mem_cons_self, ?_, rfl⟩
      exact Option.some.inj (hfound.symm.trans hi)
  · intro node' hnode' hsession
    exact absurd hsession (hnone _ node' hnode')
  · intro node' hnode' hsession
    exact absurd hsession (hnone _ node' hnode')
  · rw [apply_managers, update_self]
    exact fun _ => hcreated.haStatus.imp_left fun heq => heq.trans hstatus

theorem Consistent.registerNode (hphase : (w.managers p).phase = .register) (fault : Option Fault)
    (dbTime now : ℤ) : Consistent (w.apply p
      (haDbRegisterNode fault dbTime now p (w.managers p).info w.nodes) .main) := by
  have hnone {node : Node} (hnode : node ∈ w.nodes) : node.haSessionid ≠ some p :=
    fun hsession => ((h.server p).registered node hnode hsession).2.1 hphase
  obtain ⟨info', hkept, heq⟩ | ⟨haStatus, nodes', hstatus, hd, htable, heq⟩ :=
    haDbRegisterNode_cases h.table fault dbTime now p (w.managers p).info
  · rw [heq]
    exact h.apply_harmless (harmless_none hkept) nofun nofun
  · rw [heq]
    have hown {node' : Node} (hnode' : node' ∈ nodes') (hsession : node'.haSessionid = some p) :
        (w.managers p).info.haNodeid = some node'.haNodeid := by
      obtain ⟨node, hnode, hid, -, ⟨hkept, -⟩ | ⟨hown, -⟩⟩ := hd.rows node' hnode'
      · exact absurd (hkept.symm.trans hsession) (hnone hnode)
      · rw [hid]
        exact hown.symm
    refine h.apply (fun nodes hnodes => ?_) ⟨?_, ?_, ?_, ?_⟩
    · obtain rfl := mem_some.mp hnodes
      exact ⟨htable, fun node' hnode' => hd.rowFrom hnode'⟩
    · intro i hi
      obtain ⟨nodes, hnodes, hnode⟩ := (h.server p).nodeid i (by simpa using hi)
      exact ⟨nodes, by simp [hnodes], by simpa using hnode⟩
    · intro node' hnode' hsession
      have hid := hown hnode' hsession
      refine ⟨?_, .inr (by simpa using hid)⟩
      obtain ⟨nodes, hnodes, node, hnode, hnodeid, hname⟩ := (h.server p).nodeid _ hid
      obtain ⟨old, hold, hid', hname', -⟩ := hd.rows node' hnode'
      rw [apply_managers, update_self, hname', ← hname]
      exact h.names _ h.current nodes hnodes old hold node hnode (hid'.symm.trans hnodeid.symm)
    · intro node' hnode' hsession
      obtain rfl | rfl := hstatus <;> simp
    · simp

theorem Consistent.checkNodes (hrunning : (w.managers p).running) (fault : Option Fault)
    (failoverDelay dbTime now : ℤ) : Consistent (w.apply p
      (haCheckNodes fault failoverDelay dbTime now p (w.managers p).info w.nodes) .main) := by
  obtain ⟨info₁, hname, hstatus, hnodeid, hchecked⟩ := haCheckNodes_checked h.table
    (fun node hnode hsession => ((h.server p).session node hnode hsession).2) fault failoverDelay
    dbTime now
  generalize haCheckNodes fault failoverDelay dbTime now p (w.managers p).info w.nodes = outcome
    at hchecked
  have hold : ∀ node' ∈ (w.apply p outcome .main).nodes, node'.haSessionid = some p →
      ∃ node ∈ w.nodes, node'.haNodeid = node.haNodeid ∧ node'.name = node.name ∧
        node.haSessionid = some p := by
    rw [apply_nodes]
    intro node' hnode' hsession
    cases hnodes' : outcome.2 with
    | none => exact ⟨node', by simpa [hnodes'] using hnode', rfl, rfl, hsession⟩
    | some nodes' =>
      have hnode' : node' ∈ nodes' := by simpa [hnodes'] using hnode'
      obtain ⟨node, hnode, hid, hname, ⟨hkept, -⟩ | ⟨hown, -⟩⟩ :=
        (hchecked.derived nodes' hnodes').1.rows node' hnode'
      · exact ⟨node, hnode, hid, hname, hkept ▸ hsession⟩
      · exact ⟨node, hnode, hid, hname, hown⟩
  refine h.apply (fun nodes' hnodes' => ⟨(hchecked.derived nodes' hnodes').2,
    fun node' hnode' => (hchecked.derived nodes' hnodes').1.rowFrom hnode'⟩) ⟨?_, ?_, ?_, ?_⟩
  · rw [apply_managers, update_self, apply_history, hchecked.name, hchecked.haNodeid, hname]
    intro i hi
    obtain hkept | ⟨node, hfound⟩ := hnodeid
    · obtain ⟨nodes, hnodes, hnode⟩ := (h.server p).nodeid i (hkept ▸ hi)
      exact ⟨nodes, mem_append_right _ hnodes, hnode⟩
    · exact ⟨w.nodes, mem_append_right _ h.current, node, hfound.mem,
        Option.some.inj (hfound.haNodeid.symm.trans hi), hfound.name.trans hname⟩
  · intro node' hnode' hsession
    obtain ⟨node, hnode, hid, hname', hsession⟩ := hold node' hnode' hsession
    obtain ⟨hown, hid'⟩ := (h.server p).session node hnode hsession
    rw [apply_managers, update_self, hchecked.name, hchecked.haNodeid, hname, hname', hid]
    refine ⟨hown, ?_⟩
    obtain hkept | ⟨found, hfound⟩ := hnodeid
    · exact hkept ▸ hid'
    · refine .inr (hfound.haNodeid.trans ?_)
      rw [h.table.eq_of_name hfound.mem hnode (hfound.name.trans (hname.trans hown.symm))]
  · intro node' hnode' hsession
    rw [apply_managers, update_self]
    exact ⟨hchecked.haStatus (hstatus ▸ hrunning.2.1), nofun, nofun⟩
  · simp

theorem step_consistent {e : Event} (hs : step w e = some w') : Consistent w' := by
  cases e with
  | start p name =>
    obtain ⟨hphase, ⟨⟩⟩ := ite_none_right_eq_some.mp hs
    exact h.start hphase name
  | restart p =>
    obtain ⟨hphase, ⟨⟩⟩ := ite_none_left_eq_some.mp hs
    exact h.restart p
  | createNode p fault failoverDelay dbTime now nodeid seen =>
    obtain ⟨⟨-, hstatus, hseen, hnew⟩, ⟨⟩⟩ := ite_none_right_eq_some.mp hs
    exact h.createNode hstatus hseen hnew (haDbCreateNode_created ..)
  | registerNode p fault dbTime now =>
    obtain ⟨hphase, ⟨⟩⟩ := ite_none_right_eq_some.mp hs
    exact h.registerNode hphase fault dbTime now
  | checkNodes p fault failoverDelay dbTime now =>
    obtain ⟨hrunning, ⟨⟩⟩ := ite_none_right_eq_some.mp hs
    exact h.checkNodes hrunning fault failoverDelay dbTime now
  | removeNode p fault nodeid name seen =>
    obtain ⟨-, ⟨⟩⟩ := ite_none_right_eq_some.mp hs
    exact h.apply_harmless (haRemoveNode_harmless ..) nofun nofun
  | setFailoverDelay p failoverDelay =>
    obtain ⟨-, ⟨⟩⟩ := ite_none_right_eq_some.mp hs
    have hkept : (w.managers p).info.Kept { (w.managers p).info with failoverDelay } :=
      ⟨rfl, rfl, .inl rfl⟩
    exact h.apply_harmless (harmless_none hkept) nofun nofun
  | pause p =>
    obtain ⟨-, ⟨⟩⟩ := ite_none_right_eq_some.mp hs
    exact h.apply_harmless (harmless_none (.refl _)) nofun nofun
  | updateLastaccess p fault now =>
    obtain ⟨-, ⟨⟩⟩ := ite_none_right_eq_some.mp hs
    exact h.apply_harmless (haDbUpdateLastaccess_harmless ..) nofun nofun
  | stop p fault =>
    obtain ⟨-, ⟨⟩⟩ := ite_none_right_eq_some.mp hs
    exact h.apply_harmless (haDbUpdateExitStatus_harmless ..) nofun nofun

omit h

theorem consistent_initial : Consistent .initial where
  current := mem_singleton_self _
  names := by simp [Cluster.initial]
  table := by
    refine ⟨?_, ?_, ?_, ?_, ?_⟩
    · exact .nil
    · exact .nil
    · exact fun node hnode => nomatch hnode
    · exact fun node hnode => nomatch hnode
    · exact fun node hnode => nomatch hnode
  server p := by
    refine ⟨?_, ?_, ?_, ?_⟩
    · simp [Cluster.initial, Info.initial]
    · exact fun node hnode => nomatch hnode
    · exact fun node hnode => nomatch hnode
    · simp [Cluster.initial]

theorem reach_consistent (h : Reach (· = Cluster.initial) step anyEvent w) : Consistent w := by
  refine h.invariant ?_ fun w e w' hw _ hstep => step_consistent hw hstep
  rintro w rfl
  exact consistent_initial

def Event.Between (p : ℕ) : Event → Prop
  | .start q _ => q ≠ p
  | .restart q => q ≠ p
  | .checkNodes q fault _ _ _ => q = p → fault ≠ none
  | _ => True

def Inactive (p : ℕ) (name : List Char) (nodes : List Node) : Prop :=
  ∀ node ∈ nodes, node.name = name → node.haSessionid = some p → node.status ≠ .active

structure Lost (w : Cluster) (p : ℕ) (name : List Char) : Prop where
  consistent : Consistent w
  named : (w.managers p).info.name = name
  haStatus : (w.managers p).info.haStatus = .active ∨ (w.managers p).info.haStatus = .error
  phase : (w.managers p).phase ≠ .register
  inactive : Inactive p name w.nodes

variable {name : List Char} {e : Event}

theorem Inactive.derived (h : Inactive p name nodes) (hd : Derived q own nodes nodes')
    (hown : q = p → ∀ node, ¬ own node) : Inactive p name nodes' := by
  intro node' hnode' hname hsession hactive
  obtain ⟨node, hnode, -, hname', ⟨hkept, hactive'⟩ | ⟨hq, hnew⟩⟩ := hd.rows node' hnode'
  · exact h node hnode (hname'.symm.trans hname) (hkept.symm.trans hsession) (hactive' hactive)
  · exact hown (Option.some.inj (hnew.symm.trans hsession)) node hq

theorem inactive_apply (h : Inactive p name w.nodes)
    (htable : ∀ nodes' ∈ outcome.2, Inactive p name nodes') :
    Inactive p name (w.apply q outcome phase).nodes := by
  rw [apply_nodes]
  cases hnodes' : outcome.2 with
  | none => exact h
  | some nodes' => exact htable nodes' hnodes'

theorem Lost.apply_ne (h : Lost w p name) (hq : q ≠ p)
    (hconsistent : Consistent (w.apply q outcome phase))
    (htable : ∀ nodes' ∈ outcome.2, Inactive p name nodes') :
    Lost (w.apply q outcome phase) p name := by
  have hmanager : (w.apply q outcome phase).managers p = w.managers p := by
    rw [apply_managers, update_of_ne hq.symm]
  exact ⟨hconsistent, hmanager ▸ h.named, hmanager ▸ h.haStatus, hmanager ▸ h.phase,
    inactive_apply h.inactive htable⟩

theorem Lost.apply_self (h : Lost w p name) (hconsistent : Consistent (w.apply p outcome phase))
    (hname : outcome.1.name = (w.managers p).info.name)
    (hstatus : outcome.1.haStatus = (w.managers p).info.haStatus ∨ outcome.1.haStatus = .error)
    (hphase : phase ≠ .register) (htable : ∀ nodes' ∈ outcome.2, Inactive p name nodes') :
    Lost (w.apply p outcome phase) p name := by
  refine ⟨hconsistent, ?_, ?_, ?_, inactive_apply h.inactive htable⟩
  · rw [apply_managers, update_self]
    exact hname.trans h.named
  · rw [apply_managers, update_self]
    exact hstatus.elim (fun heq => heq ▸ h.haStatus) .inr
  · rwa [apply_managers, update_self]

theorem Lost.apply_harmless (h : Lost w p name) (hconsistent : Consistent (w.apply q outcome phase))
    (hharmless : Harmless q (w.managers q).info w.nodes outcome) (hphase : phase ≠ .register) :
    Lost (w.apply q outcome phase) p name := by
  have htable : ∀ nodes' ∈ outcome.2, Inactive p name nodes' := fun nodes' hnodes' =>
    h.inactive.derived (hharmless.derived nodes' hnodes') fun _ _ => id
  by_cases hq : q = p
  · subst hq
    exact h.apply_self hconsistent hharmless.kept.name hharmless.kept.haStatus hphase htable
  · exact h.apply_ne hq hconsistent htable

theorem Lost.step (h : Lost w p name) (he : e.Between p) (hs : step w e = some w') :
    Lost w' p name := by
  have hconsistent := step_consistent h.consistent hs
  have hknown : (w.managers p).info.haStatus ≠ .unknown := by
    obtain heq | heq := h.haStatus <;> rw [heq] <;> decide
  cases e with
  | start q name' =>
    obtain ⟨hphase, ⟨⟩⟩ := ite_none_right_eq_some.mp hs
    show Lost (w.apply q (.initial name' .unknown, none) .main) p name
    exact h.apply_ne he hconsistent nofun
  | restart q =>
    obtain ⟨hphase, ⟨⟩⟩ := ite_none_left_eq_some.mp hs
    show Lost (w.apply q (.initial (w.managers q).info.name .standby, none) .main) p name
    exact h.apply_ne he hconsistent nofun
  | createNode q fault failoverDelay dbTime now nodeid seen =>
    obtain ⟨⟨-, hstatus, hseen, hnew⟩, ⟨⟩⟩ := ite_none_right_eq_some.mp hs
    have hq : q ≠ p := by
      rintro rfl
      exact hknown hstatus
    refine h.apply_ne hq hconsistent fun nodes' hnodes' => ?_
    obtain ⟨hnone, -⟩ | ⟨hsome, -⟩ | ⟨inserted, hinsert, hsome, -⟩ :=
      (haDbCreateNode_created fault failoverDelay dbTime now nodeid (w.managers q).info seen
        w.nodes).table
    · rw [hnone] at hnodes'
      cases hnodes'
    · obtain rfl : w.nodes = nodes' := by simpa [hsome] using hnodes'
      exact h.inactive
    · obtain rfl : inserted = nodes' := by simpa [hsome] using hnodes'
      intro node' hnode' hname hsession
      obtain rfl | hnode' := mem_cons.mp ((insertNode_perm hinsert).1.mem_iff.mp hnode')
      · nofun
      · exact h.inactive node' hnode' hname hsession
  | registerNode q fault dbTime now =>
    obtain ⟨hphase, ⟨⟩⟩ := ite_none_right_eq_some.mp hs
    have hq : q ≠ p := by
      rintro rfl
      exact h.phase hphase
    refine h.apply_ne hq hconsistent fun nodes' hnodes' => ?_
    obtain ⟨info', hkept, heq⟩ | ⟨haStatus, nodes'', hstatus, hd, htable, heq⟩ :=
      haDbRegisterNode_cases h.consistent.table fault dbTime now q (w.managers q).info
    · rw [heq] at hnodes'
      cases hnodes'
    · rw [heq] at hnodes'
      cases hnodes'
      exact h.inactive.derived hd fun heq => absurd heq hq
  | checkNodes q fault failoverDelay dbTime now =>
    obtain ⟨hrunning, ⟨⟩⟩ := ite_none_right_eq_some.mp hs
    by_cases hq : q = p
    · subst hq
      obtain ⟨fault, rfl⟩ := ne_none_iff_exists'.mp (he rfl)
      obtain ⟨hname, hstatus, hnone⟩ := haCheckNodes_fault h.consistent.table fault failoverDelay
        dbTime now q (w.managers q).info
      refine h.apply_self hconsistent hname hstatus nofun fun nodes' hnodes' => ?_
      rw [hnone] at hnodes'
      cases hnodes'
    · refine h.apply_ne hq hconsistent fun nodes' hnodes' => ?_
      obtain ⟨info₁, -, -, -, hchecked⟩ := haCheckNodes_checked h.consistent.table
        (fun node hnode hsession =>
          ((h.consistent.server q).session node hnode hsession).2) fault failoverDelay dbTime now
      exact h.inactive.derived (hchecked.derived nodes' hnodes').1 fun heq => absurd heq hq
  | removeNode q fault nodeid name seen =>
    obtain ⟨-, ⟨⟩⟩ := ite_none_right_eq_some.mp hs
    exact h.apply_harmless hconsistent (haRemoveNode_harmless ..) nofun
  | setFailoverDelay q failoverDelay =>
    obtain ⟨-, ⟨⟩⟩ := ite_none_right_eq_some.mp hs
    have hkept : (w.managers q).info.Kept { (w.managers q).info with failoverDelay } :=
      ⟨rfl, rfl, .inl rfl⟩
    show Lost (w.apply q ({ (w.managers q).info with failoverDelay }, none) .main) p name
    exact h.apply_harmless hconsistent (harmless_none hkept) nofun
  | pause q =>
    obtain ⟨-, ⟨⟩⟩ := ite_none_right_eq_some.mp hs
    show Lost (w.apply q ((w.managers q).info, none) .paused) p name
    exact h.apply_harmless hconsistent (harmless_none (.refl _)) nofun
  | updateLastaccess q fault now =>
    obtain ⟨-, ⟨⟩⟩ := ite_none_right_eq_some.mp hs
    exact h.apply_harmless hconsistent (haDbUpdateLastaccess_harmless ..) nofun
  | stop q fault =>
    obtain ⟨-, ⟨⟩⟩ := ite_none_right_eq_some.mp hs
    exact h.apply_harmless hconsistent (haDbUpdateExitStatus_harmless ..) nofun

/-- At most one node is active. A node whose last check found it active has the active row, or finds
itself standby or an error at its next successful check; a standalone server, which has no standby
mode, finds an error or gets the row back. -/
theorem ha_single_active (h : Reach (· = Cluster.initial) step anyEvent w) :
    (∀ node ∈ w.nodes, ∀ other ∈ w.nodes, node.status = .active → other.status = .active →
      node = other) ∧
    ∀ p, (w.managers p).info.haStatus = .active → w.Owns p ∨
      ∀ w', Reach (· = w) step (fun _ e => e.Between p) w' →
        ∀ failoverDelay dbTime now w'',
          step w' (.checkNodes p none failoverDelay dbTime now) = some w'' →
          if (w.managers p).info.isHaCluster then
            (w''.managers p).info.haStatus = .standby ∨ (w''.managers p).info.haStatus = .error
          else w''.Owns p ∨ (w''.managers p).info.haStatus = .error := by
  have hconsistent := reach_consistent h
  refine ⟨hconsistent.table.single, fun p hactive => ?_⟩
  by_cases howns : w.Owns p
  · exact .inl howns
  refine .inr fun w' hreach failoverDelay dbTime now w'' hstep => ?_
  have hlost : Lost w p (w.managers p).info.name := by
    refine ⟨hconsistent, rfl, .inl hactive, fun hphase => ?_, fun node hnode hname hsession hrow =>
      howns ⟨node, hnode, hname, hsession, hrow⟩⟩
    obtain heq | heq := (hconsistent.server p).registering hphase
    · exact nomatch hactive.symm.trans heq
    · exact nomatch hactive.symm.trans heq
  have hlost' : Lost w' p (w.managers p).info.name := by
    refine Reach.invariant ?_ (fun s e t (hs : Lost s p _) he hstep => hs.step he hstep) hreach
    rintro s rfl
    exact hlost
  obtain ⟨hrunning, ⟨⟩⟩ := ite_none_right_eq_some.mp hstep
  have hactive' : (w'.managers p).info.haStatus = .active :=
    hlost'.haStatus.resolve_right hrunning.2.2
  rw [apply_managers, update_self]
  split
  · next hcluster =>
    have hcluster' : (w'.managers p).info.isHaCluster = true := by
      rwa [Info.isHaCluster, hlost'.named]
    exact haCheckNodes_lost hcluster' hactive' (hlost'.named ▸ hlost'.inactive) _ _ _
  · next hstandalone =>
    have hstandalone' : (w'.managers p).info.isHaCluster = false := by
      rw [Info.isHaCluster, hlost'.named]
      exact Bool.not_eq_true _ ▸ hstandalone
    obtain herror | ⟨nodes', hsome, node, hnode, hname, hsession, hrow⟩ :=
      haCheckNodes_standalone hstandalone' hactive' (fun node hnode hsession =>
        ((hlost'.consistent.server p).session node hnode hsession).2) failoverDelay dbTime now
    · exact .inr herror
    · obtain ⟨info₁, hname₁, -, -, hchecked⟩ := haCheckNodes_checked hlost'.consistent.table
        (fun node hnode hsession =>
          ((hlost'.consistent.server p).session node hnode hsession).2) none failoverDelay dbTime
        now
      refine .inl ⟨node, ?_, ?_, hsession, hrow⟩
      · rw [apply_nodes, hsome]
        exact hnode
      · rw [apply_managers, update_self, hchecked.name, hname₁]
        exact hname

def takeoverRun : List Event :=
  [.start 0 ['a'], .createNode 0 none 0 5 5 1 [], .registerNode 0 none 5 5,
    .start 1 ['b'], .createNode 1 none 0 4 4 2 [⟨1, some 0, ['a'], .active, 5⟩],
    .registerNode 1 none 4 4, .checkNodes 1 none 0 6 6, .checkNodes 1 none 0 7 7]

def takenOver (w : Cluster) : Bool :=
  decide ((w.managers 0).info.haStatus = .active ∧ (w.managers 0).info.name = ['a'] ∧
    (∀ node ∈ w.nodes, node.haSessionid = some 0 → node.status ≠ .active) ∧
    ∃ node ∈ w.nodes, node.haSessionid = some 1 ∧ node.status = .active)

theorem ha_single_active_takeover : ∃ w, Reach (· = Cluster.initial) step anyEvent w ∧
    (∃ node ∈ w.nodes, node.haSessionid = some 1 ∧ node.status = .active) ∧
    ∀ w', step w (.checkNodes 0 none 0 8 8) = some w' →
      (w'.managers 0).info.haStatus = .standby ∨ (w'.managers 0).info.haStatus = .error := by
  have hstart : Reach (· = Cluster.initial) step anyEvent Cluster.initial := .start rfl
  obtain ⟨w, hreach, htaken⟩ := hstart.exists_of_run
    (guarded_anyEvent Cluster.initial takeoverRun)
    (show (run step Cluster.initial takeoverRun).any takenOver = true by decide +kernel)
  obtain ⟨hactive, hname, hlost, htaken⟩ := of_decide_eq_true htaken
  refine ⟨w, hreach, htaken, fun w' hstep => ?_⟩
  obtain ⟨node, hnode, -, hsession, hrow⟩ | hnext := (ha_single_active hreach).2 0 hactive
  · exact absurd hrow (hlost node hnode hsession)
  · have hcheck := hnext w (.start rfl) 0 8 8 w' hstep
    rwa [if_pos (by simp [Info.isHaCluster, hname])] at hcheck

/-- A server of a cluster that is a standby node and has its row. -/
structure OnStandby (p : ℕ) (info : Info) (nodes : List Node) : Prop where
  status : info.haStatus = .standby
  named : info.name ≠ []
  row : ∃ node ∈ nodes, node.name = info.name ∧ node.haSessionid = some p

theorem find?_of_unique {test : Node → Bool} (h : node ∈ nodes) (htest : test node = true)
    (hunique : ∀ x ∈ nodes, test x = true → x = node) : nodes.find? test = some node := by
  cases hfind : nodes.find? test with
  | none => exact absurd htest (find?_eq_none.mp hfind node h)
  | some x => rw [hunique x (mem_of_find?_eq_some hfind) (List.find?_some hfind)]

theorem mem_updateOwn_of_ne (h : node ∈ nodes) (hne : some node.haNodeid ≠ info.haNodeid) (now : ℤ)
    (status haStatus : NodeStatus) :
    node ∈ setUnavailable [] (updateOwn now info status haStatus nodes) :=
  mem_map.mpr ⟨node, mem_map.mpr ⟨node, h, if_neg hne⟩, if_neg not_mem_nil⟩

theorem updateOwn_own (h : node ∈ nodes) (hid : info.haNodeid = some node.haNodeid) (now : ℤ)
    (status haStatus : NodeStatus) :
    ∃ row ∈ setUnavailable [] (updateOwn now info status haStatus nodes),
      row.name = node.name ∧ row.haSessionid = node.haSessionid := by
  refine ⟨_, mem_map.mpr ⟨_, mem_map.mpr ⟨node, h, rfl⟩, if_neg not_mem_nil⟩, ?_⟩
  rw [if_pos hid.symm]
  exact ⟨rfl, rfl⟩

theorem Info.updateTicks_ticks (info : Info) (node : Node) :
    (info.updateTicks node).offlineTicksActive =
      if node.lastaccess = info.lastaccessActive then info.offlineTicksActive + 1 else 0 := by
  rw [updateTicks, ite_not]
  split <;> rfl

theorem Info.updateTicks_spec (info : Info) (node : Node) :
    (info.updateTicks node).lastaccessActive = node.lastaccess ∧
      (info.updateTicks node).failoverDelay = info.failoverDelay ∧
      (info.updateTicks node).haNodeid = info.haNodeid := by
  rw [updateTicks, ite_not]
  split_ifs with hlast
  · exact ⟨hlast.symm, rfl, rfl⟩
  · exact ⟨rfl, rfl, rfl⟩

theorem OnStandby.haCheckNodes {a : Node} (h : OnStandby p info nodes) (htable : TableOk nodes)
    (hsession : ∀ node ∈ nodes, node.haSessionid = some p →
      info.haNodeid = none ∨ info.haNodeid = some node.haNodeid)
    (ha : a ∈ nodes) (hactive : a.status = .active) (failoverDelay dbTime now : ℤ) :
    ∃ info' nodes', haCheckNodes none failoverDelay dbTime now p info nodes = (info', some nodes') ∧
      (info'.haStatus = .active ∨ OnStandby p info' nodes' ∧ a ∈ nodes' ∧
        (info'.updateTicks a).offlineTicksActive = (info.updateTicks a).offlineTicksActive + 1 ∧
        (info.updateTicks a).offlineTicksActive ≤ failoverDelay.tdiv pollPeriod) := by
  obtain ⟨node, hnode, hname, hown⟩ := h.row
  have hfind : nodes.find? (·.name = info.name) = some node :=
    find?_of_unique hnode (decide_eq_true hname) fun x hx hname' =>
      htable.eq_of_name hx hnode ((of_decide_eq_true hname').trans hname.symm)
  have hfind' : nodes.find? (·.status = .active) = some a :=
    find?_of_unique ha (decide_eq_true hactive) fun x hx hactive' =>
      htable.single x hx a ha (of_decide_eq_true hactive') hactive
  have hother : a.name ≠ [] := by
    intro hnil
    obtain hnone | hnone := htable.exclusive a ha node hnode hnil (hname ▸ h.named)
    · exact htable.owned a ha hactive hnone
    · cases hown.symm.trans hnone
  unfold Ha.haCheckNodes
  simp only [faultAt, hfind, hown, ne_eq, not_true_eq_false, if_false]
  have hid := updateNodeid_haNodeid (hsession node hnode hown)
  have hticks : (info.updateTicks a).offlineTicksActive =
      (((info.updateNodeid node).updateConfig failoverDelay).updateTicks a).offlineTicksActive := by
    rw [Info.updateTicks_ticks, Info.updateTicks_ticks]
    rfl
  rw [hticks]
  generalize hinfo : (info.updateNodeid node).updateConfig failoverDelay = info₁
  obtain ⟨hname₁, hstatus₁, hid₁, hdelay₁⟩ : info₁.name = info.name ∧ info₁.haStatus = .standby ∧
      info₁.haNodeid = some node.haNodeid ∧ info₁.failoverDelay = failoverDelay :=
    hinfo ▸ ⟨rfl, h.status, hid, rfl⟩
  have hcluster : info₁.isHaCluster = true := decide_eq_true (hname₁ ▸ h.named)
  rw [haCheckStatus, if_pos hcluster, if_neg (by rw [hstatus₁]; decide), haCheckActiveNode]
  simp only [hfind', if_neg hother]
  obtain ⟨hkept, hstatus₂⟩ := info₁.kept_updateTicks a
  obtain ⟨hlast₂, hdelay₂, hid₂⟩ := info₁.updateTicks_spec a
  generalize info₁.updateTicks a = info₂ at *
  split_ifs with hself hlate
  · exact ⟨_, _, rfl, .inl rfl⟩
  · exact ⟨_, _, rfl, .inl rfl⟩
  · obtain ⟨row, hrow, hname', hown'⟩ :=
      updateOwn_own hnode (hid₂.trans hid₁) now node.status info₂.haStatus
    have hname₂ := hkept.name.trans hname₁
    rw [hdelay₂, hdelay₁, not_lt] at hlate
    refine ⟨info₂, _, rfl, .inr ⟨⟨hstatus₂.trans hstatus₁, hname₂ ▸ h.named, row, hrow, ?_,
      hown'.trans hown⟩, mem_updateOwn_of_ne ha (hid₂ ▸ hself) now _ _,
      (info₂.updateTicks_ticks a).trans (if_pos hlast₂.symm), hlate⟩⟩
    exact hname'.trans (hname.trans hname₂.symm)

/-- A standby node becomes active when it has found that the active node writes no more for the
failover delay, if no other server does anything meanwhile. -/
theorem failover {a : Node} (hreach : Reach (· = Cluster.initial) step anyEvent w)
    (hphase : (w.managers p).phase = .main) (h : OnStandby p (w.managers p).info w.nodes)
    (ha : a ∈ w.nodes) (hactive : a.status = .active) {failoverDelay : ℤ} {times : List (ℤ × ℤ)}
    (hne : times ≠ []) (hlong : failoverDelay.tdiv pollPeriod + 1 <
      ((w.managers p).info.updateTicks a).offlineTicksActive + times.length) :
    ∃ checks w', checks <+: times ∧
      run step w (checks.map fun t => .checkNodes p none failoverDelay t.1 t.2) = some w' ∧
      (w'.managers p).info.haStatus = .active := by
  induction times generalizing w with
  | nil => exact absurd rfl hne
  | cons t times ih =>
    have hw := reach_consistent hreach
    obtain ⟨info, nodes, hcheck, hchecked⟩ := h.haCheckNodes hw.table
      (fun node hnode hsession => ((hw.server p).session node hnode hsession).2) ha hactive
      failoverDelay t.1 t.2
    have hrunning : (w.managers p).running := by simp [Manager.running, hphase, h.status]
    have hstep : step w (.checkNodes p none failoverDelay t.1 t.2) =
        some (w.apply p (info, some nodes) .main) := hcheck ▸ if_pos hrunning
    have hmanager : (w.apply p (info, some nodes) .main).managers p = ⟨info, .main⟩ := by
      rw [apply_managers, update_self]
    obtain hactive' | ⟨h', ha', hticks, hearly⟩ := hchecked
    · refine ⟨[t], w.apply p (info, some nodes) .main, ⟨times, rfl⟩, ?_, ?_⟩
      · rw [map_singleton, run, hstep, Option.bind_some, run]
      · rw [hmanager]
        exact hactive'
    · rw [length_cons] at hlong
      obtain ⟨checks, w', hfront, hrun, hactive'⟩ := ih (hreach.next trivial hstep)
        (congrArg Manager.phase hmanager) (by rw [hmanager]; exact h') ha'
        (by rintro rfl; simp at hlong; omega) (by rw [hmanager]; dsimp only; omega)
      refine ⟨t :: checks, w', (prefix_cons_inj t).mpr hfront, ?_, hactive'⟩
      rw [map_cons, run, hstep, Option.bind_some, hrun]

def onStandby (w : Cluster) : Bool :=
  decide ((w.managers 1).phase = .main ∧ (w.managers 1).info.haStatus = .standby ∧
    (w.managers 1).info.name ≠ [] ∧
    (∃ node ∈ w.nodes, node.name = (w.managers 1).info.name ∧ node.haSessionid = some 1) ∧
    ∃ a ∈ w.nodes, a.status = .active ∧
      1 < ((w.managers 1).info.updateTicks a).offlineTicksActive + 2)

theorem failover_takeover : ∃ w, Reach (· = Cluster.initial) step anyEvent w ∧
    ∃ checks w', checks <+: [(6, 6), (7, 7)] ∧
      run step w (checks.map fun t => .checkNodes 1 none 0 t.1 t.2) = some w' ∧
      (w'.managers 1).info.haStatus = .active := by
  have hstart : Reach (· = Cluster.initial) step anyEvent Cluster.initial := .start rfl
  obtain ⟨w, hreach, hstandby⟩ := hstart.exists_of_run
    (guarded_anyEvent Cluster.initial (takeoverRun.take 6))
    (show (run step Cluster.initial (takeoverRun.take 6)).any onStandby = true by decide +kernel)
  obtain ⟨hphase, hstatus, hnamed, hrow, a, ha, hactive, hlong⟩ := of_decide_eq_true hstandby
  exact ⟨w, hreach, failover hreach hphase ⟨hstatus, hnamed, hrow⟩ ha hactive (by decide) hlong⟩

end Zabbix.Ha
