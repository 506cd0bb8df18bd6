import Mathlib.Data.List.Cycle
import Zabbix.Foundation.RoundRobin

/-!
# The queue of discovery jobs

`discoverer_queue.c`. Lists are those of `linked_list.c`; `head == tail` says that there is at most
one item.
-/

namespace Zabbix.Discoverer

inductive ServiceType
  | ssh
  | ldap
  | smtp
  | ftp
  | http
  | pop
  | nntp
  | imap
  | tcp
  | agent
  | snmpv1
  | snmpv2c
  | icmpping
  | snmpv3
  | https
  | telnet
  deriving DecidableEq

structure Dcheck where
  dcheckid : ℕ
  type : ServiceType
  deriving DecidableEq

structure Task where
  dcheck : Dcheck
  dchecks : List Dcheck
  uniqueDcheckid : ℕ
  deriving DecidableEq

def Task.dtype (task : Task) : ServiceType := task.dcheck.type

structure Job where
  druleid : ℕ
  tasks : List Task
  deriving DecidableEq

structure Queue where
  jobs : List Job
  snmpAllowedWorkers : ℕ
  deriving DecidableEq

def discovererQueuePush (queue : Queue) (job : Job) : Queue :=
  { queue with jobs := queue.jobs ++ [job] }

inductive Round
  | done (job : Option Job) (queue : Queue)
  | again (queue : Queue) (ids : List ℕ)

def popRound (queue : Queue) (ids : List ℕ) : Round :=
  match queue.jobs with
  | [] => .done none queue
  | job :: jobs =>
    let queue := { queue with jobs }
    match job.tasks with
    | [] => .done (some job) queue
    | task :: tasks =>
      if task.dtype ≠ .snmpv3 then .done (some job) queue
      else if queue.snmpAllowedWorkers ≠ 0 then
        .done (some job) { queue with snmpAllowedWorkers := queue.snmpAllowedWorkers - 1 }
      else
        let id := task.dcheck.dcheckid
        let oneTask := tasks = []
        let job := if tasks ≠ [] then { job with tasks := tasks ++ [task] } else job
        let queue := discovererQueuePush queue job
        if queue.jobs.length ≤ 1 ∧ oneTask then .done none queue
        else if id ∈ ids then .done none queue
        else .again queue (ids ++ [id])

def popLoop : ℕ → Queue → List ℕ → Option (Option Job × Queue)
  | 0, _, _ => none
  | fuel + 1, queue, ids =>
    match popRound queue ids with
    | .done job queue => some (job, queue)
    | .again queue ids => popLoop fuel queue ids

/-- `discoverer_queue_pop` ends with this job and this queue. -/
def DiscovererQueuePop (queue : Queue) (job : Option Job) (queue' : Queue) : Prop :=
  ∃ rounds, ∀ fuel, rounds ≤ fuel → popLoop fuel queue [] = some (job, queue')

def Job.cycle (job : Job) : ℕ × Cycle Task := (job.druleid, job.tasks)

def Kept (queue : Queue) (job : Option Job) (queue' : Queue) : Prop :=
  ((job.toList ++ queue'.jobs).map Job.cycle).Perm (queue.jobs.map Job.cycle)

def Job.StartsWithSnmp (job : Job) : Prop := ∃ task tasks, job.tasks = task :: tasks ∧ task.dtype = .snmpv3

def Counted (queue : Queue) (job : Option Job) (queue' : Queue) : Prop :=
  ((∃ j, job = some j ∧ j.StartsWithSnmp) →
      queue'.snmpAllowedWorkers + 1 = queue.snmpAllowedWorkers) ∧
    ((¬ ∃ j, job = some j ∧ j.StartsWithSnmp) →
      queue'.snmpAllowedWorkers = queue.snmpAllowedWorkers)

def Runnable (queue : Queue) : Prop :=
  ∃ job ∈ queue.jobs, ∃ task ∈ job.tasks, task.dtype ≠ .snmpv3 ∨ queue.snmpAllowedWorkers ≠ 0

/-- Popping ends, keeps everything, counts workers and comes back empty-handed only when nothing
may run. -/
def MakesProgress (queue : Queue) : Prop :=
  ∃ job queue', DiscovererQueuePop queue job queue' ∧ Kept queue job queue' ∧
    Counted queue job queue' ∧ (job = none → ¬ Runnable queue)

def looked (jobs : List Job) (k : ℕ) : Option Task :=
  jobs[k % jobs.length]?.bind fun job => job.tasks[(k / jobs.length) % job.tasks.length]?

def Task.IsSnmp (task : Option Task) : Prop := ∃ t, task = some t ∧ t.dtype = .snmpv3

def idsBefore (jobs : List Job) (k : ℕ) : List ℕ :=
  (List.range k).filterMap fun i => (looked jobs i).map (·.dcheck.dcheckid)

structure Reaches (jobs : List Job) (k : ℕ) : Prop where
  snmp : ∀ i < k, Task.IsSnmp (looked jobs i)
  nodup : (idsBefore jobs k).Nodup

def Unobstructed (queue : Queue) : Prop :=
  queue.snmpAllowedWorkers ≠ 0 ∨
    (∀ job ∈ queue.jobs, ∀ task ∈ job.tasks, task.dtype = .snmpv3) ∨
      ∃ p, ¬ Task.IsSnmp (looked queue.jobs p) ∧ Reaches queue.jobs p

end Zabbix.Discoverer
