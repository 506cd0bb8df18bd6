import Zabbix.Discoverer.Queue

/-!
# Progress of the discovery queue

While no SNMP worker is allowed the loop takes the jobs in turns and rotates the tasks of each.
-/

namespace Zabbix.Discoverer

open Option List

variable {queue queue' : Queue} {job : Job} {jobs : List Job} {ids : List ℕ} {k p : ℕ}
variable {task : Task}

def Job.rotate (job : Job) : Job := { job with tasks := job.tasks.rotate 1 }

theorem Job.rotate_cycle (job : Job) : job.rotate.cycle = job.cycle :=
  congrArg (Prod.mk job.druleid) (Cycle.coe_eq_coe.mpr (IsRotated.forall job.tasks 1))

theorem Job.rotate_iterate (job : Job) (n : ℕ) :
    (Job.rotate^[n] job) = { job with tasks := job.tasks.rotate n } := by
  induction n with
  | zero => rw [rotate_zero]; rfl
  | succ n ih => rw [Function.iterate_succ_apply', ih, Job.rotate, rotate_rotate]

theorem looked_eq (jobs : List Job) (k : ℕ) :
    looked jobs k = (turns Job.rotate jobs k).head?.bind fun job => job.tasks.head? := by
  rw [head?_turns, looked]
  cases jobs[k % jobs.length]? with
  | none => rfl
  | some job =>
    simp only [map_some, bind_some, Job.rotate_iterate]
    rw [← rotate_mod]
    by_cases hnil : job.tasks = []
    · simp [hnil]
    · rw [List.head?_rotate (Nat.mod_lt _ (length_pos_iff.mpr hnil))]

theorem not_isSnmp_none : ¬ Task.IsSnmp none := fun ⟨_, ht, _⟩ => nomatch ht

theorem isSnmp_some : Task.IsSnmp (some task) ↔ task.dtype = .snmpv3 :=
  ⟨fun ⟨_, ht, htype⟩ => Option.some.inj ht ▸ htype, fun htype => ⟨task, rfl, htype⟩⟩

theorem startsWithSnmp_iff : job.StartsWithSnmp ↔ Task.IsSnmp job.tasks.head? := by
  unfold Job.StartsWithSnmp
  cases job.tasks with
  | nil => exact iff_of_false (fun ⟨_, _, h, _⟩ => nomatch h) not_isSnmp_none
  | cons task tasks =>
    rw [List.head?_cons, isSnmp_some]
    exact ⟨fun ⟨_, _, h, htype⟩ => (List.cons.inj h).1 ▸ htype, fun htype => ⟨task, tasks, rfl, htype⟩⟩

variable (hjobs : queue.jobs = job :: jobs)

include hjobs

theorem popRound_stop (hstop : ¬ Task.IsSnmp job.tasks.head?) :
    popRound queue ids = .done (some job) { queue with jobs } := by
  cases htasks : job.tasks with
  | nil => simp only [popRound, hjobs, htasks]
  | cons task tasks =>
    rw [htasks, List.head?_cons, isSnmp_some] at hstop
    simp only [popRound, hjobs, htasks]
    exact if_pos hstop

theorem popRound_worker (hsnmp : Task.IsSnmp job.tasks.head?)
    (hworkers : queue.snmpAllowedWorkers ≠ 0) :
    popRound queue ids =
      .done (some job) { jobs, snmpAllowedWorkers := queue.snmpAllowedWorkers - 1 } := by
  cases htasks : job.tasks with
  | nil =>
    rw [htasks] at hsnmp
    exact absurd hsnmp not_isSnmp_none
  | cons task tasks =>
    rw [htasks, List.head?_cons, isSnmp_some] at hsnmp
    simp only [popRound, hjobs, htasks]
    rw [if_neg (not_not.mpr hsnmp), if_pos hworkers]

theorem popRound_snmp (htask : job.tasks.head? = some task) (hsnmp : task.dtype = .snmpv3)
    (hworkers : queue.snmpAllowedWorkers = 0) :
    popRound queue ids =
      if (jobs = [] ∧ job.tasks = [task]) ∨ task.dcheck.dcheckid ∈ ids then
        .done none { queue with jobs := advance Job.rotate queue.jobs }
      else
        .again { queue with jobs := advance Job.rotate queue.jobs } (ids ++ [task.dcheck.dcheckid]) := by
  obtain ⟨tasks, htasks⟩ : ∃ tasks, job.tasks = task :: tasks := List.head?_eq_some_iff.mp htask
  have hrotate : (if tasks ≠ [] then { job with tasks := tasks ++ [task] } else job) = job.rotate := by
    rw [Job.rotate, htasks, rotate_cons_succ, rotate_zero]
    split_ifs with hnil
    · rfl
    · rw [not_not.mp hnil, nil_append, ← htasks.trans (congrArg _ (not_not.mp hnil))]
  have hlast : (jobs ++ [job.rotate]).length ≤ 1 ↔ jobs = [] := by
    rw [length_append, length_singleton, ← length_eq_zero_iff]
    omega
  simp only [popRound, hjobs, htasks]
  rw [if_neg (not_not.mpr hsnmp), if_neg (not_not.mpr hworkers), hrotate]
  simp only [discovererQueuePush, hlast, List.cons.injEq, true_and, advance]
  by_cases hsingle : jobs = [] ∧ tasks = []
  · rw [if_pos hsingle, if_pos (.inl hsingle)]
  · rw [if_neg hsingle]
    simp only [hsingle, false_or]

theorem kept_head (hqueue : queue'.jobs = jobs) : Kept queue (some job) queue' := by
  rw [Kept, hjobs, hqueue]
  rfl

omit hjobs

theorem advance_cycle (l : List Job) :
    ((advance Job.rotate l).map Job.cycle).Perm (l.map Job.cycle) := by
  cases l with
  | nil => rfl
  | cons job jobs =>
    rw [advance, map_append, map_singleton, Job.rotate_cycle, map_cons]
    exact perm_append_singleton _ _

theorem popRound_cases (queue : Queue) (ids : List ℕ) :
    (∃ job queue', popRound queue ids = .done job queue' ∧ Kept queue job queue' ∧
        Counted queue job queue') ∨
      ∃ ids', popRound queue ids = .again { queue with jobs := advance Job.rotate queue.jobs } ids' := by
  cases hjobs : queue.jobs with
  | nil =>
    refine .inl ⟨none, queue, by simp only [popRound, hjobs], Perm.refl _, ?_, fun _ => rfl⟩
    exact fun ⟨_, hnone, _⟩ => nomatch hnone
  | cons job jobs =>
    by_cases hsnmp : Task.IsSnmp job.tasks.head?
    · by_cases hworkers : queue.snmpAllowedWorkers = 0
      · obtain ⟨task, htask, htype⟩ := hsnmp
        rw [popRound_snmp hjobs htask htype hworkers, ← hjobs]
        split_ifs
        · refine .inl ⟨none, _, rfl, advance_cycle _, ?_, fun _ => rfl⟩
          exact fun ⟨_, hnone, _⟩ => nomatch hnone
        · exact .inr ⟨_, rfl⟩
      · refine .inl ⟨some job, _, popRound_worker hjobs hsnmp hworkers, kept_head hjobs rfl,
          fun _ => Nat.sub_add_cancel (Nat.pos_of_ne_zero hworkers), fun hnot => ?_⟩
        exact absurd ⟨job, rfl, startsWithSnmp_iff.mpr hsnmp⟩ hnot
    · refine .inl ⟨some job, _, popRound_stop hjobs hsnmp, kept_head hjobs rfl, ?_, fun _ => rfl⟩
      intro ⟨j, hj, hstart⟩
      cases hj
      exact absurd (startsWithSnmp_iff.mp hstart) hsnmp

theorem popLoop_kept {job : Option Job} {fuel : ℕ}
    (h : popLoop fuel queue ids = some (job, queue')) :
    Kept queue job queue' ∧ Counted queue job queue' := by
  induction fuel generalizing queue ids with
  | zero => cases h
  | succ fuel ih =>
    rw [popLoop] at h
    obtain ⟨j, q, hround, hkept⟩ | ⟨ids', hround⟩ := popRound_cases queue ids
    · rw [hround] at h
      cases h
      exact hkept
    · rw [hround] at h
      obtain ⟨hkept, hcounted⟩ := ih h
      exact ⟨hkept.trans (advance_cycle queue.jobs), hcounted⟩

theorem idsBefore_succ (htask : looked jobs k = some task) :
    idsBefore jobs (k + 1) = idsBefore jobs k ++ [task.dcheck.dcheckid] := by
  rw [idsBefore, range_succ, filterMap_append, filterMap_cons, htask]
  rfl

theorem mem_idsBefore {id : ℕ} :
    id ∈ idsBefore jobs k ↔ ∃ i < k, (looked jobs i).map (·.dcheck.dcheckid) = some id := by
  simp only [idsBefore, mem_filterMap, mem_range]

theorem Reaches.length (h : Reaches jobs k) : (idsBefore jobs k).length = k := by
  induction k with
  | zero => rfl
  | succ k ih =>
    obtain ⟨task, htask, -⟩ := h.snmp k (Nat.lt_succ_self k)
    have hnodup := h.nodup
    rw [idsBefore_succ htask] at hnodup ⊢
    rw [length_append, length_singleton, ih
      ⟨fun i hi => h.snmp i (Nat.lt_succ_of_lt hi), hnodup.of_append_left⟩]

theorem Reaches.le (h : Reaches jobs k) : k ≤ (jobs.flatMap Job.tasks).length := by
  have hsub : idsBefore jobs k ⊆ (jobs.flatMap Job.tasks).map (·.dcheck.dcheckid) := by
    intro id hid
    obtain ⟨i, -, hi⟩ := mem_idsBefore.mp hid
    obtain ⟨task, htask, rfl⟩ := map_eq_some_iff.mp hi
    obtain ⟨job, hjob, htask⟩ := bind_eq_some_iff.mp htask
    exact mem_map_of_mem (mem_flatMap.mpr
      ⟨job, mem_of_getElem? hjob, mem_of_getElem? htask⟩)
  calc k = (idsBefore jobs k).length := h.length.symm
    _ ≤ ((jobs.flatMap Job.tasks).map (·.dcheck.dcheckid)).length :=
      (subperm_of_subset h.nodup hsub).length_le
    _ = (jobs.flatMap Job.tasks).length := length_map _

theorem Reaches.next (h : Reaches jobs k) (htask : looked jobs k = some task)
    (hsnmp : task.dtype = .snmpv3) (hnew : task.dcheck.dcheckid ∉ idsBefore jobs k) :
    Reaches jobs (k + 1) := by
  refine ⟨fun i hi => ?_, ?_⟩
  · obtain hlt | rfl := Nat.lt_succ_iff_lt_or_eq.mp hi
    · exact h.snmp i hlt
    · exact ⟨task, htask, hsnmp⟩
  · rw [idsBefore_succ htask]
    exact nodup_append.mpr ⟨h.nodup, nodup_singleton _, fun a ha b hb hab =>
      hnew (mem_singleton.mp hb ▸ hab ▸ ha)⟩

structure Ends (jobs : List Job) (p : ℕ) (job : Option Job) : Prop where
  reaches : Reaches jobs p
  outcome : (¬ Task.IsSnmp (looked jobs p) ∧ job = (turns Job.rotate jobs p).head?) ∨
    (job = none ∧ ∃ task, looked jobs p = some task ∧ task.dtype = .snmpv3 ∧
      ((∀ j ∈ jobs, ∀ t ∈ j.tasks, t.dtype = .snmpv3) ∨
        task.dcheck.dcheckid ∈ idsBefore jobs p))

theorem all_snmp_of_single {rest : List Job} (hturns : turns Job.rotate jobs k = job :: rest)
    (hrest : rest = []) (htasks : job.tasks = [task]) (hsnmp : task.dtype = .snmpv3) :
    ∀ j ∈ jobs, ∀ t ∈ j.tasks, t.dtype = .snmpv3 := by
  have hlength := length_turns Job.rotate jobs k
  rw [hturns, hrest, length_singleton] at hlength
  obtain ⟨j, rfl⟩ := length_eq_one_iff.mp hlength.symm
  have hhead := head?_turns Job.rotate [j] k
  rw [hturns, length_singleton, Nat.mod_one, List.getElem?_cons_zero, map_some,
    Job.rotate_iterate, List.head?_cons] at hhead
  have hj : j.tasks = [task] := by
    rw [Option.some.inj hhead] at htasks
    exact rotate_eq_singleton_iff.mp htasks
  intro j' hj' t ht
  rw [mem_singleton.mp hj', hj] at ht
  exact mem_singleton.mp ht ▸ hsnmp

theorem popLoop_ends (h : Reaches jobs k) :
    ∃ p job queue', Ends jobs p job ∧ ∃ rounds, ∀ fuel, rounds ≤ fuel →
      popLoop fuel ⟨turns Job.rotate jobs k, 0⟩ (idsBefore jobs k) = some (job, queue') := by
  induction hn : (jobs.flatMap Job.tasks).length + 1 - k generalizing k with
  | zero =>
    have := h.le
    omega
  | succ n ih =>
    -- a round that ends the loop needs fuel for itself only
    have hdone {job : Option Job} {queue' : Queue} (hround : popRound
        ⟨turns Job.rotate jobs k, 0⟩ (idsBefore jobs k) = .done job queue') :
        ∃ rounds, ∀ fuel, rounds ≤ fuel →
          popLoop fuel ⟨turns Job.rotate jobs k, 0⟩ (idsBefore jobs k) = some (job, queue') := by
      refine ⟨1, fun fuel hfuel => ?_⟩
      obtain ⟨fuel, rfl⟩ := Nat.exists_eq_add_of_le' hfuel
      rw [popLoop, hround]
    by_cases hnil : turns Job.rotate jobs k = []
    · have hround : popRound ⟨turns Job.rotate jobs k, 0⟩ (idsBefore jobs k) = .done none ⟨[], 0⟩ := by
        rw [hnil]
        rfl
      have hlooked : looked jobs k = none := by rw [looked_eq, hnil]; rfl
      exact ⟨k, none, _, ⟨h, .inl ⟨hlooked ▸ not_isSnmp_none, by rw [hnil]; rfl⟩⟩, hdone hround⟩
    · obtain ⟨job, rest, hturns⟩ := exists_cons_of_ne_nil hnil
      have hlooked : looked jobs k = job.tasks.head? := by rw [looked_eq, hturns]; rfl
      by_cases hsnmp : Task.IsSnmp job.tasks.head?
      · obtain ⟨task, htask, htype⟩ := hsnmp
        have hround : popRound ⟨turns Job.rotate jobs k, 0⟩ (idsBefore jobs k) = _ :=
          popRound_snmp hturns htask htype rfl
        rw [htask] at hlooked
        split_ifs at hround with hend
        · refine ⟨k, none, _, ⟨h, .inr ⟨rfl, task, hlooked, htype, ?_⟩⟩, hdone hround⟩
          obtain ⟨hrest, htasks⟩ | hseen := hend
          · exact .inl (all_snmp_of_single hturns hrest htasks htype)
          · exact .inr hseen
        · obtain ⟨p, job', queue', hends, rounds, hloop⟩ :=
            ih (h.next hlooked htype (not_or.mp hend).2) (by omega)
          refine ⟨p, job', queue', hends, rounds + 1, fun fuel hfuel => ?_⟩
          obtain ⟨fuel, rfl⟩ := Nat.exists_eq_add_of_le' ((Nat.le_add_left 1 rounds).trans hfuel)
          rw [popLoop, hround, ← idsBefore_succ hlooked]
          exact hloop fuel (Nat.le_of_add_le_add_right hfuel)
      · have hround : popRound ⟨turns Job.rotate jobs k, 0⟩ (idsBefore jobs k) = _ :=
          popRound_stop hturns hsnmp
        exact ⟨k, some job, _, ⟨h, .inl ⟨hlooked ▸ hsnmp, by rw [hturns]; rfl⟩⟩, hdone hround⟩

theorem runnable_iff (hworkers : queue.snmpAllowedWorkers = 0) :
    Runnable queue ↔ ¬ ∀ job ∈ queue.jobs, ∀ task ∈ job.tasks, task.dtype = .snmpv3 := by
  unfold Runnable
  push Not
  simp only [hworkers, ne_eq, not_true_eq_false, or_false]

theorem Reaches.mono (h : Reaches jobs p) (hk : k ≤ p) : Reaches jobs k := by
  refine ⟨fun i hi => h.snmp i (Nat.lt_of_lt_of_le hi hk), h.nodup.sublist ?_⟩
  exact (range_sublist.mpr hk).filterMap _

theorem Ends.job_ne_none {job : Option Job} {q : ℕ} (h : Ends jobs p job)
    (hq : ¬ Task.IsSnmp (looked jobs q)) (hreaches : Reaches jobs q)
    (hrun : ¬ ∀ job ∈ jobs, ∀ task ∈ job.tasks, task.dtype = .snmpv3) : job ≠ none := by
  rintro rfl
  obtain ⟨-, hhead⟩ | ⟨-, task, htask, htype, hall | hseen⟩ := h.outcome
  · have hnil : jobs = [] := by
      by_contra hne
      exact turns_ne_nil hne p (List.head?_eq_none_iff.mp hhead.symm)
    exact hrun (hnil ▸ fun job hjob => absurd hjob not_mem_nil)
  · exact hrun hall
  · have hlt : p < q := by
      by_contra hle
      obtain hlt | rfl := (Nat.le_of_not_lt hle).lt_or_eq
      · exact hq (h.reaches.snmp q hlt)
      · exact hq ⟨task, htask, htype⟩
    have hnodup := (hreaches.mono (Nat.succ_le_of_lt hlt)).nodup
    rw [idsBefore_succ htask] at hnodup
    exact (nodup_append.mp hnodup).2.2 _ hseen _ (mem_singleton_self _) rfl

theorem reaches_zero (jobs : List Job) : Reaches jobs 0 :=
  ⟨fun i hi => absurd hi (Nat.not_lt_zero i), nodup_nil⟩

theorem DiscovererQueuePop.of_done {job : Option Job}
    (hround : popRound queue [] = .done job queue') : DiscovererQueuePop queue job queue' := by
  refine ⟨1, fun fuel hfuel => ?_⟩
  obtain ⟨fuel, rfl⟩ := Nat.exists_eq_add_of_le' hfuel
  rw [popLoop, hround]

theorem exists_pop_of_worker (hworkers : queue.snmpAllowedWorkers ≠ 0) :
    ∃ job queue', DiscovererQueuePop queue job queue' ∧ (job = none → queue.jobs = []) := by
  cases hjobs : queue.jobs with
  | nil =>
    have hround : popRound queue [] = .done none queue := by simp only [popRound, hjobs]
    exact ⟨none, queue, .of_done hround, fun _ => rfl⟩
  | cons job jobs =>
    by_cases hsnmp : Task.IsSnmp job.tasks.head?
    · exact ⟨some job, _, .of_done (popRound_worker hjobs hsnmp hworkers), fun h => nomatch h⟩
    · exact ⟨some job, _, .of_done (popRound_stop hjobs hsnmp), fun h => nomatch h⟩

theorem exists_pop_of_no_worker (hworkers : queue.snmpAllowedWorkers = 0) :
    ∃ job queue', DiscovererQueuePop queue job queue' ∧ ∃ p, Ends queue.jobs p job := by
  obtain ⟨p, job, queue', hends, hloop⟩ := popLoop_ends (reaches_zero queue.jobs)
  have hqueue : (⟨turns Job.rotate queue.jobs 0, 0⟩ : Queue) = queue := by rw [turns, ← hworkers]
  rw [hqueue] at hloop
  exact ⟨job, queue', hloop, p, hends⟩

theorem DiscovererQueuePop.unique {job job' : Option Job} {queue'' : Queue}
    (h : DiscovererQueuePop queue job queue') (h' : DiscovererQueuePop queue job' queue'') :
    job = job' := by
  obtain ⟨rounds, hloop⟩ := h
  obtain ⟨rounds', hloop'⟩ := h'
  have heq := (hloop _ (Nat.le_max_left rounds rounds')).symm.trans
    (hloop' _ (Nat.le_max_right rounds rounds'))
  exact congrArg Prod.fst (Option.some.inj heq)

theorem DiscovererQueuePop.kept {job : Option Job} (h : DiscovererQueuePop queue job queue') :
    Kept queue job queue' ∧ Counted queue job queue' :=
  popLoop_kept (h.choose_spec _ le_rfl)

/-- Popping always ends, loses and duplicates nothing and counts the workers; it comes back with
nothing although a task may run exactly when no worker is allowed and a check id is met twice on
the way to the first task that is not SNMPv3. -/
theorem discoverer_queue_pop_progress (queue : Queue) :
    MakesProgress queue ↔ Unobstructed queue := by
  by_cases hworkers : queue.snmpAllowedWorkers = 0
  · obtain ⟨job, queue', hpop, p, hends⟩ := exists_pop_of_no_worker hworkers
    constructor
    · intro hprogress
      obtain ⟨job', queue'', hpop', -, -, hnone⟩ := hprogress
      obtain rfl := hpop.unique hpop'
      by_cases hrun : ∀ job ∈ queue.jobs, ∀ task ∈ job.tasks, task.dtype = .snmpv3
      · exact .inr (.inl hrun)
      · obtain ⟨hstop, -⟩ | ⟨hjob, -⟩ := hends.outcome
        · exact .inr (.inr ⟨p, hstop, hends.reaches⟩)
        · exact absurd ((runnable_iff hworkers).mpr hrun) (hnone hjob)
    · intro hfree
      refine ⟨job, queue', hpop, hpop.kept.1, hpop.kept.2, fun hjob hrunnable => ?_⟩
      have hrun := (runnable_iff hworkers).mp hrunnable
      obtain hfree | hfree | ⟨q, hstop, hreaches⟩ := hfree
      · exact hfree hworkers
      · exact hrun hfree
      · exact hends.job_ne_none hstop hreaches hrun hjob
  · obtain ⟨job, queue', hpop, hnone⟩ := exists_pop_of_worker hworkers
    refine iff_of_true ⟨job, queue', hpop, hpop.kept.1, hpop.kept.2, fun hjob => ?_⟩ (.inl hworkers)
    intro hrunnable
    obtain ⟨j, hj, -⟩ := hrunnable
    exact absurd (hnone hjob ▸ hj) not_mem_nil

def snmpTask (dcheckid : ℕ) : Task := ⟨⟨dcheckid, .snmpv3⟩, [], dcheckid⟩

def icmpTask (dcheckid : ℕ) : Task := ⟨⟨dcheckid, .icmpping⟩, [], dcheckid⟩

def stuckQueue : Queue := ⟨[⟨1, [snmpTask 5]⟩, ⟨2, [snmpTask 6, snmpTask 7, icmpTask 8]⟩], 0⟩

theorem stuckQueue_not_progress : ¬ ∀ queue, MakesProgress queue := by
  intro h
  obtain ⟨job, queue', ⟨rounds, hloop⟩, -, -, hnone⟩ := h stuckQueue
  have hpop : popLoop (rounds + 3) stuckQueue [] =
      some (none, ⟨[⟨2, [snmpTask 7, icmpTask 8, snmpTask 6]⟩, ⟨1, [snmpTask 5]⟩], 0⟩) := rfl
  have heq := hpop.symm.trans (hloop _ (Nat.le_add_right rounds 3))
  refine hnone (congrArg Prod.fst (Option.some.inj heq)).symm
    ⟨_, mem_cons_of_mem _ (mem_singleton_self _), icmpTask 8, ?_, .inl (by decide)⟩
  decide

end Zabbix.Discoverer
