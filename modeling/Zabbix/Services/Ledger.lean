import Zabbix.Foundation.Transition
import Zabbix.Services.Matching

/-!
# Which services have a problem

The messages tell which events were opened and closed and what tags they have.
-/

namespace Zabbix.Services

open List Bool Function

structure Ledger where
  opened : ℕ → Bool
  closed : ℕ → Bool
  tags : ℕ → List Tag

namespace Ledger

def initial : Ledger := ⟨fun _ => false, fun _ => false, fun _ => []⟩

def isOpen (l : Ledger) (e : ℕ) : Bool := l.opened e && !l.closed e

def close (l : Ledger) (e : ℕ) : Ledger := { l with closed := Function.update l.closed e true }

def openEvent (l : Ledger) (event : Event) : Ledger :=
  { l with
    opened := Function.update l.opened event.eventid true
    tags := Function.update l.tags event.eventid (l.tags event.eventid ++ event.tags) }

def event (l : Ledger) (event : Event) : Ledger :=
  match event.value with
  | .ok => l.close event.eventid
  | .problem => if l.opened event.eventid then l else l.openEvent event
  | .other => l

def addTags (l : Ledger) (update : ℕ × List Tag) : Ledger :=
  { l with tags := Function.update l.tags update.1 (l.tags update.1 ++ update.2) }

def record (l : Ledger) : Message → Ledger
  | .problems events => events.foldl event l
  | .problemsTags updates => updates.foldl addTags l
  | .problemsDelete _ eventids => eventids.foldl close l
  | .eventsSuppress _ | .eventsUnsuppress _ | .eventSeverities _ _ | .cleanup _ => l

end Ledger

/-- Each service has exactly the open events that match it, once, and the index says so. -/
structure Exact (g : Graph) (m : Manager) (l : Ledger) : Prop where
  nodup : ∀ s, ((m.serviceProblems s).map (·.eventid)).Nodup
  mem : ∀ s e, e ∈ (m.serviceProblems s).map (·.eventid) ↔
    l.isOpen e = true ∧ Matches g (l.tags e) s
  nodup_index : ∀ e, (m.serviceProblemsIndex e).Nodup
  mem_index : ∀ e s, s ∈ m.serviceProblemsIndex e ↔ e ∈ (m.serviceProblems s).map (·.eventid)

structure State where
  manager : Manager
  ledger : Ledger

structure Delivery where
  message : Message
  order : List ServicesDiff
  fuel : ℕ

/-- The manager takes a message: `order` is any order of the diffs. -/
def step (g : Graph) (state : State) (delivery : Delivery) : Option State :=
  let m := processMessage g state.manager delivery.message
  if delivery.order.Perm m.serviceDiffs then
    (dbUpdateServices g delivery.fuel m delivery.order).map fun m =>
      ⟨{ m with serviceDiffs := [] }, state.ledger.record delivery.message⟩
  else none

/-- A batch of events: each problem is sent once, or again while open; a closed one that arrives
late is remembered; a recovery is not in the batch of its problem. -/
structure BatchOk (m : Manager) (l : Ledger) (events : List Event) : Prop where
  nonzero : ∀ a ∈ events, a.value = .problem → a.eventid ≠ 0
  once : events.Pairwise fun a b => a.value = .problem → b.value = .problem → a.eventid ≠ b.eventid
  again : ∀ a ∈ events, a.value = .problem → l.opened a.eventid = true →
    l.closed a.eventid = false
  remembered : ∀ a ∈ events, a.value = .problem → l.closed a.eventid = true →
    (m.deletedEventids a.eventid).isSome = true ∨ m.recoveryEvents a.eventid = true
  after : events.Pairwise fun a b => a.eventid = b.eventid → a.value = .problem →
    b.value = .ok → l.opened a.eventid = true
  before : events.Pairwise fun a b => a.eventid = b.eventid → a.value = .ok →
    b.value = .problem → l.opened a.eventid = false

instance (m : Manager) (l : Ledger) (events : List Event) : Decidable (BatchOk m l events) :=
  decidable_of_iff (_ ∧ _ ∧ _ ∧ _ ∧ _ ∧ _)
    ⟨fun ⟨h₁, h₂, h₃, h₄, h₅, h₆⟩ => ⟨h₁, h₂, h₃, h₄, h₅, h₆⟩,
      fun ⟨h₁, h₂, h₃, h₄, h₅, h₆⟩ => ⟨h₁, h₂, h₃, h₄, h₅, h₆⟩⟩

/-- A batch of tag updates. The events are known; where one matches a service by its new tags, the
batch has all problems of this service. -/
structure TagsOk (g : Graph) (m : Manager) (l : Ledger) (updates : List (ℕ × List Tag)) :
    Prop where
  known : ∀ u ∈ updates, l.opened u.1 = true ∨ l.closed u.1 = true
  once : (updates.map (·.1)).Nodup
  complete : ∀ u ∈ updates, l.isOpen u.1 = true → ∀ s ∈ g.serviceids,
    Matches g (l.tags u.1 ++ u.2) s → ∀ problem ∈ m.serviceProblems s,
      problem.eventid ∈ updates.map (·.1)

instance (g : Graph) (m : Manager) (l : Ledger) (updates : List (ℕ × List Tag)) :
    Decidable (TagsOk g m l updates) :=
  decidable_of_iff (_ ∧ _ ∧ _) ⟨fun ⟨h₁, h₂, h₃⟩ => ⟨h₁, h₂, h₃⟩, fun ⟨h₁, h₂, h₃⟩ => ⟨h₁, h₂, h₃⟩⟩

def MessageOk (g : Graph) (state : State) (delivery : Delivery) : Prop :=
  match delivery.message with
  | .problems events => BatchOk state.manager state.ledger events
  | .problemsTags updates => TagsOk g state.manager state.ledger updates
  | .problemsDelete .. | .eventsSuppress _ | .eventsUnsuppress _ | .eventSeverities ..
  | .cleanup _ => True

instance (g : Graph) (state : State) (delivery : Delivery) :
    Decidable (MessageOk g state delivery) := by
  unfold MessageOk
  split <;> infer_instance

/-- The events of the manager are the open ones, and it remembers closed ones only. -/
structure Tracked (g : Graph) (m : Manager) (l : Ledger) : Prop where
  found : ∀ e event, m.problemEvents e = some event →
    l.isOpen e = true ∧ event.eventid = e ∧ ∀ tag, tag ∈ event.tags ↔ tag ∈ l.tags e
  missing : ∀ e, m.problemEvents e = none → l.isOpen e = false
  recovery : ∀ e, m.recoveryEvents e = true → l.closed e = true
  deleted : ∀ e, (m.deletedEventids e).isSome = true → l.closed e = true
  marks : ∀ e, e ≠ 0 → MarkedBy g m.currentEventid e (l.tags e)
  nonzero : l.isOpen 0 = false
  fresh : ∀ e, l.opened e = false → l.closed e = false → l.tags e = []

/-- The problems of a service and its diff are those that match it; those that were closed are
recovered by the diff. -/
structure Counted (g : Graph) (m : Manager) (l : Ledger) : Prop where
  indexed : m.Indexed
  unknown : ∀ s ∉ g.serviceids, ∀ e, countProblem (m.serviceProblems s) e = 0
  distinct : (m.serviceDiffs.map (·.serviceid)).Nodup
  plain : AllFull false m.serviceDiffs
  isOpen : ∀ s e, l.isOpen e = true →
    countProblem (m.serviceProblems s) e + countNew m.serviceDiffs s e =
        (if Matches g (l.tags e) s then 1 else 0) ∧
      countRecovered m.serviceDiffs s e = 0
  notOpen : ∀ s e, l.isOpen e = false → countNew m.serviceDiffs s e = 0 ∧
    countRecovered m.serviceDiffs s e = countProblem (m.serviceProblems s) e ∧
    (l.opened e = false → countProblem (m.serviceProblems s) e = 0)

variable {g : Graph} {m m' : Manager} {l l' start : Ledger} {event : Event} {e s : ℕ}
  {events rest : List Event}

@[simp]
theorem close_opened (l : Ledger) (e : ℕ) : (l.close e).opened = l.opened := rfl

@[simp]
theorem close_tags (l : Ledger) (e : ℕ) : (l.close e).tags = l.tags := rfl

theorem close_closed (l : Ledger) (e e' : ℕ) :
    (l.close e).closed e' = (decide (e' = e) || l.closed e') := by
  by_cases h : e' = e <;> simp [Ledger.close, h]

theorem close_isOpen (l : Ledger) (e e' : ℕ) :
    (l.close e).isOpen e' = (!decide (e' = e) && l.isOpen e') := by
  rw [Ledger.isOpen, close_closed, close_opened, Ledger.isOpen]
  cases l.opened e' <;> cases l.closed e' <;> simp

theorem isOpen_iff : l.isOpen e = true ↔ l.opened e = true ∧ l.closed e = false := by
  simp [Ledger.isOpen]

theorem isOpen_of_closed (h : l.closed e = true) : l.isOpen e = false := by simp [Ledger.isOpen, h]

theorem openEvent_isOpen (e : ℕ) :
    (l.openEvent event).isOpen e =
      if e = event.eventid then !l.closed event.eventid else l.isOpen e := by
  simp only [Ledger.openEvent, Ledger.isOpen, update_apply]
  split
  · next he => simp [he]
  · rfl

theorem openEvent_tags (e : ℕ) :
    (l.openEvent event).tags e =
      if e = event.eventid then l.tags event.eventid ++ event.tags else l.tags e := by
  simp only [Ledger.openEvent, update_apply]

theorem openEvent_opened (e : ℕ) :
    (l.openEvent event).opened e = (decide (e = event.eventid) || l.opened e) := by
  by_cases h : e = event.eventid <;> simp [Ledger.openEvent, h]

theorem MarkedBy.mono {current : ℕ → ℕ} {tags tags' : List Tag} (h : MarkedBy g current e tags)
    (hsub : ∀ tag ∈ tags, tag ∈ tags') : MarkedBy g current e tags' :=
  fun s t ht hcurrent => (h s t ht hcurrent).imp fun tag htag => ⟨hsub tag htag.1, htag.2⟩

theorem Tracked.problemEvents_of_closed (h : Tracked g m l) (hclosed : l.closed e = true) :
    m.problemEvents e = none := by
  cases hevent : m.problemEvents e with
  | none => rfl
  | some event =>
    have hopen := (h.found e event hevent).1
    rw [isOpen_of_closed hclosed] at hopen
    cases hopen

theorem Tracked.close (h : Tracked g m l)
    (hevents : m'.problemEvents = Function.update m.problemEvents e none)
    (hrecovery : ∀ e', m'.recoveryEvents e' = true → e' = e ∨ m.recoveryEvents e' = true)
    (hdeleted : ∀ e', (m'.deletedEventids e').isSome = true →
      e' = e ∨ (m.deletedEventids e').isSome = true)
    (hcurrent : m'.currentEventid = m.currentEventid) : Tracked g m' (l.close e) where
  found e' event hevent := by
    rw [hevents] at hevent
    by_cases he : e' = e
    · rw [he, update_self] at hevent
      cases hevent
    · rw [update_of_ne he] at hevent
      rw [close_isOpen]
      simpa [he] using h.found e' event hevent
  missing e' hnone := by
    rw [close_isOpen]
    by_cases he : e' = e
    · simp [he]
    · rw [hevents, update_of_ne he] at hnone
      simp [h.missing e' hnone]
  recovery e' hrec := by
    rw [close_closed]
    rcases hrecovery e' hrec with rfl | hrec
    · simp
    · simp [h.recovery e' hrec]
  deleted e' hdel := by
    rw [close_closed]
    rcases hdeleted e' hdel with rfl | hdel
    · simp
    · simp [h.deleted e' hdel]
  marks e' he' := by
    rw [hcurrent]
    exact h.marks e' he'
  nonzero := by rw [close_isOpen, h.nonzero, Bool.and_false]
  fresh e' hopened hclosed := by
    rw [close_closed, or_eq_false_iff] at hclosed
    exact h.fresh e' hopened hclosed.2

theorem Tracked.openClosed (h : Tracked g m l) (hclosed : l.closed event.eventid = true)
    (hrecovery : ∀ e, m'.recoveryEvents e = true → m.recoveryEvents e = true)
    (hevents : m'.problemEvents = m.problemEvents)
    (hdeleted : m'.deletedEventids = m.deletedEventids)
    (hcurrent : m'.currentEventid = m.currentEventid) : Tracked g m' (l.openEvent event) := by
  have hopen (e : ℕ) : (l.openEvent event).isOpen e = l.isOpen e := by
    rw [openEvent_isOpen]
    split
    · next he => rw [he, isOpen_of_closed hclosed, hclosed, Bool.not_true]
    · rfl
  refine ⟨fun e event' hevent => ?_, fun e hnone => ?_, fun e hrec => h.recovery e (hrecovery e hrec),
    fun e hdel => ?_, fun e he => ?_, ?_, fun e hopened hclosed' => ?_⟩
  · rw [hevents] at hevent
    obtain ⟨hopen', hid, htags⟩ := h.found e event' hevent
    have hne : e ≠ event.eventid := by
      rintro rfl
      rw [isOpen_of_closed hclosed] at hopen'
      cases hopen'
    rw [hopen, openEvent_tags, if_neg hne]
    exact ⟨hopen', hid, htags⟩
  · rw [hevents] at hnone
    rw [hopen, h.missing e hnone]
  · rw [hdeleted] at hdel
    exact h.deleted e hdel
  · rw [hcurrent, openEvent_tags]
    split
    · next heq =>
      rw [← heq]
      exact (h.marks e he).mono fun tag htag => mem_append_left _ htag
    · exact h.marks e he
  · rw [hopen, h.nonzero]
  · rw [openEvent_opened, or_eq_false_iff] at hopened
    rw [openEvent_tags, if_neg (by simpa using hopened.1)]
    exact h.fresh e hopened.2 hclosed'

theorem matchEvent_eq (g : Graph) (event : Event) (recalculate : Bool) (m : Manager) :
    matchEventToServiceProblemTags g event recalculate m = { m with
      currentEventid := (eventMatches g event).foldl (fun current (t : TagOf) =>
        Function.update current t.2.serviceProblemTagid event.eventid) m.currentEventid
      serviceDiffs := (matchedServices g event m).foldl (addMatch event recalculate)
        m.serviceDiffs } :=
  rfl

theorem MarkedBy.matchEvent (recalculate : Bool) {tags tags' : List Tag}
    (h : MarkedBy g m.currentEventid e tags) (hsub : ∀ tag ∈ tags, tag ∈ tags')
    (hevent : event.eventid = e → ∀ tag ∈ event.tags, tag ∈ tags') :
    MarkedBy g (matchEventToServiceProblemTags g event recalculate m).currentEventid e tags' := by
  intro s t ht hcurrent
  rw [matchEvent_eq] at hcurrent
  simp only [foldl_current, current_of_found ht] at hcurrent
  split at hcurrent
  · next hmatch => exact hmatch.imp fun tag htag => ⟨hevent hcurrent tag htag.1, htag.2⟩
  · exact (h s t ht hcurrent).imp fun tag htag => ⟨hsub tag htag.1, htag.2⟩

theorem Counted.congr (h : Counted g m l) (hopen : ∀ e, l'.isOpen e = l.isOpen e)
    (htags : ∀ e, l.isOpen e = true → l'.tags e = l.tags e)
    (hopened : ∀ e, l'.opened e = false → l.opened e = false) : Counted g m l' where
  indexed := h.indexed
  unknown := h.unknown
  distinct := h.distinct
  plain := h.plain
  isOpen s e he := by
    rw [hopen] at he
    rw [htags e he]
    exact h.isOpen s e he
  notOpen s e he := by
    rw [hopen] at he
    obtain ⟨hnew, hrecovered, hzero⟩ := h.notOpen s e he
    exact ⟨hnew, hrecovered, fun hopened' => hzero (hopened e hopened')⟩

theorem Tracked.openEvent (h : Tracked g m l) (hnonzero : event.eventid ≠ 0)
    (hopened : l.opened event.eventid = false) (hclosed : l.closed event.eventid = false)
    {recalculate : Bool} :
    Tracked g (matchEventToServiceProblemTags g event recalculate
      { m with problemEvents := Function.update m.problemEvents event.eventid (some event) })
      (l.openEvent event) := by
  have hold := h.fresh event.eventid hopened hclosed
  have hsub (e : ℕ) : ∀ tag ∈ l.tags e, tag ∈ (l.openEvent event).tags e := by
    intro tag htag
    rw [openEvent_tags]
    split
    · next he => exact mem_append_left _ (he ▸ htag)
    · exact htag
  refine ⟨fun e event' hevent => ?_, fun e hnone => ?_, h.recovery, h.deleted, fun e he => ?_, ?_,
    fun e hopened' hclosed' => ?_⟩
  · change Function.update m.problemEvents event.eventid (some event) e = some event' at hevent
    rw [openEvent_isOpen, openEvent_tags]
    by_cases he : e = event.eventid
    · subst he
      rw [update_self] at hevent
      obtain rfl := Option.some.inj hevent
      simp [hclosed, hold]
    · rw [update_of_ne he] at hevent
      rw [if_neg he, if_neg he]
      exact h.found e event' hevent
  · change Function.update m.problemEvents event.eventid (some event) e = none at hnone
    by_cases he : e = event.eventid
    · subst he
      rw [update_self] at hnone
      cases hnone
    · rw [update_of_ne he] at hnone
      rw [openEvent_isOpen, if_neg he]
      exact h.missing e hnone
  · refine (h.marks e he).matchEvent recalculate (hsub e) ?_
    rintro rfl tag htag
    rw [openEvent_tags, if_pos rfl]
    exact mem_append_right _ htag
  · rw [openEvent_isOpen, if_neg (Ne.symm hnonzero), h.nonzero]
  · rw [openEvent_opened, or_eq_false_iff] at hopened'
    rw [openEvent_tags, if_neg (by simpa using hopened'.1)]
    exact h.fresh e hopened'.2 hclosed'

theorem Counted.close (h : Counted g m l) (hopen : l.isOpen event.eventid = true)
    (hnew : ∀ s, countNew m.serviceDiffs s event.eventid = 0)
    (hlists : m'.toProblemLists = m.toProblemLists)
    (hdiffs : m'.serviceDiffs = (recoverServicesProblem event m).serviceDiffs) :
    Counted g m' (l.close event.eventid) := by
  have hcount (s e : ℕ) : countRecovered m'.serviceDiffs s e = countRecovered m.serviceDiffs s e +
      if event.eventid = e then countProblem (m.serviceProblems s) e else 0 := by
    rw [hdiffs, recoverServicesProblem, countRecovered_foldl_addRecovered]
    split
    · next he => rw [he, h.indexed]
    · rfl
  have hnew' (s e : ℕ) : countNew m'.serviceDiffs s e = countNew m.serviceDiffs s e := by
    rw [hdiffs, recoverServicesProblem, countNew_foldl_addRecovered]
  have hproblems : m'.serviceProblems = m.serviceProblems :=
    congrArg ProblemLists.serviceProblems hlists
  refine ⟨?_, fun s hs e => ?_, ?_, ?_, fun s e he => ?_, fun s e he => ?_⟩
  · rw [hlists]
    exact h.indexed
  · rw [hproblems]
    exact h.unknown s hs e
  · rw [hdiffs]
    exact foldl_addRecovered_nodup h.distinct
  · rw [hdiffs]
    exact h.plain.foldl_addRecovered
  · rw [close_isOpen] at he
    simp only [and_eq_true, not_eq_true', decide_eq_false_iff_not] at he
    rw [hproblems, hnew', hcount, if_neg (Ne.symm he.1)]
    exact h.isOpen s e he.2
  · rw [hproblems, hnew', hcount]
    by_cases heq : e = event.eventid
    · subst heq
      have hopened := (isOpen_iff.mp hopen).1
      rw [if_pos rfl, (h.isOpen s _ hopen).2]
      exact ⟨hnew s, zero_add _, fun hfalse => by simp [hopened] at hfalse⟩
    · rw [close_isOpen] at he
      rw [if_neg (Ne.symm heq)]
      exact h.notOpen s e (by simpa [heq] using he)

theorem countNew_matchEvent (recalculate : Bool)
    (hmarked : MarkedBy g m.currentEventid event.eventid event.tags) (s e : ℕ) :
    countNew (matchEventToServiceProblemTags g event recalculate m).serviceDiffs s e =
      countNew m.serviceDiffs s e +
        if event.eventid = e ∧ Matches g event.tags s then 1 else 0 := by
  rw [matchEvent_eq]
  rw [countNew_foldl_addMatch, List.Nodup.count nodup_matchedServices]
  simp only [mem_matchedServices hmarked, ite_and]

theorem Counted.openEvent (h : Counted g m l) (hopened : l.opened event.eventid = false)
    (hclosed : l.closed event.eventid = false) (hold : l.tags event.eventid = [])
    (hmarked : MarkedBy g m.currentEventid event.eventid event.tags) :
    Counted g (matchEventToServiceProblemTags g event false m) (l.openEvent event) := by
  have hnew := countNew_matchEvent false hmarked
  have hrecovered (s e : ℕ) :
      countRecovered (matchEventToServiceProblemTags g event false m).serviceDiffs s e =
        countRecovered m.serviceDiffs s e := countRecovered_foldl_addMatch
  refine ⟨h.indexed, h.unknown, foldl_addMatch_nodup h.distinct, h.plain.foldl_addMatch,
    fun s e he => ?_, fun s e he => ?_⟩
  · change countProblem (m.serviceProblems s) e + _ = _ ∧ _
    rw [hnew, hrecovered, openEvent_tags]
    rw [openEvent_isOpen] at he
    by_cases heq : e = event.eventid
    · subst heq
      obtain ⟨hnone, hsame, hzero⟩ := h.notOpen s event.eventid (by simp [Ledger.isOpen, hopened])
      rw [hsame, hzero hopened, hnone, if_pos rfl, hold, nil_append]
      simp
    · rw [if_neg heq] at he
      rw [if_neg heq, if_neg (by simp [Ne.symm heq]), add_zero]
      exact h.isOpen s e he
  · change _ ∧ _ = countProblem (m.serviceProblems s) e ∧
      (_ → countProblem (m.serviceProblems s) e = 0)
    rw [hnew, hrecovered]
    rw [openEvent_isOpen] at he
    by_cases heq : e = event.eventid
    · subst heq
      rw [if_pos rfl, hclosed] at he
      cases he
    · rw [if_neg heq] at he
      rw [openEvent_opened, if_neg (by simp [Ne.symm heq]), add_zero]
      simpa [heq] using h.notOpen s e he

/-- The condition on one event of a batch, in the state in which it is processed; `start` is what
was known before the batch. -/
structure EventOk (start : Ledger) (m : Manager) (l : Ledger) (event : Event) : Prop where
  nonzero : event.value = .problem → event.eventid ≠ 0
  again : event.value = .problem → l.opened event.eventid = true →
    l.closed event.eventid = false
  remembered : event.value = .problem → l.closed event.eventid = true →
    (m.deletedEventids event.eventid).isSome = true ∨ m.recoveryEvents event.eventid = true
  after : event.value = .ok → l.opened event.eventid = true →
    start.opened event.eventid = true

structure Batch (g : Graph) (start : Ledger) (m : Manager) (l : Ledger) : Prop where
  tracked : Tracked g m l
  counted : Counted g m l
  sub : ∀ e, start.opened e = true → l.opened e = true
  old : ∀ s e, start.opened e = true → countNew m.serviceDiffs s e = 0

theorem countNew_recoverServicesProblem (event : Event) (m : Manager) (s e : ℕ) :
    countNew (recoverServicesProblem event m).serviceDiffs s e = countNew m.serviceDiffs s e :=
  countNew_foldl_addRecovered

theorem Batch.close (h : Batch g start m l) (hevent : event.eventid = e)
    (hfound : m.problemEvents e ≠ none) (hold : start.opened e = true)
    (ht : Tracked g m' (l.close e)) (hlists : m'.toProblemLists = m.toProblemLists)
    (hdiffs : m'.serviceDiffs = (recoverServicesProblem event m).serviceDiffs) :
    Batch g start m' (l.close e) := by
  subst hevent
  obtain ⟨found, hfound⟩ := Option.ne_none_iff_exists'.mp hfound
  have hopen := (h.tracked.found _ _ hfound).1
  refine ⟨ht, h.counted.close hopen (fun s => h.old s _ hold) hlists hdiffs, h.sub,
    fun s e he => ?_⟩
  rw [hdiffs, countNew_recoverServicesProblem]
  exact h.old s e he

theorem Batch.closeUnknown (h : Batch g start m l) (hnone : m.problemEvents e = none)
    (ht : Tracked g m' (l.close e)) (hlists : m'.toProblemLists = m.toProblemLists)
    (hdiffs : m'.serviceDiffs = m.serviceDiffs) : Batch g start m' (l.close e) := by
  have hopen (e' : ℕ) : (l.close e).isOpen e' = l.isOpen e' := by
    rw [close_isOpen]
    by_cases he : e' = e
    · rw [he, h.tracked.missing e hnone, Bool.and_false]
    · simp [he]
  have hcounted := h.counted.congr hopen (fun _ _ => rfl) fun _ hopened => hopened
  refine ⟨ht, ?_, h.sub, fun s e he => hdiffs ▸ h.old s e he⟩
  obtain ⟨lists, _, _, _, _, _, _⟩ := m
  obtain ⟨lists', _, _, _, _, _, _⟩ := m'
  subst hlists hdiffs
  exact ⟨hcounted.indexed, hcounted.unknown, hcounted.distinct, hcounted.plain, hcounted.isOpen,
    hcounted.notOpen⟩

theorem openEvent_isOpen_of_closed (h : l.closed event.eventid = true) (e : ℕ) :
    (l.openEvent event).isOpen e = l.isOpen e := by
  rw [openEvent_isOpen]
  split
  · next he => rw [he, isOpen_of_closed h, h, Bool.not_true]
  · rfl

theorem Batch.openClosed (h : Batch g start m l) (hclosed : l.closed event.eventid = true)
    {recoveryEvents : ℕ → Bool}
    (hrecovery : ∀ e, recoveryEvents e = true → m.recoveryEvents e = true) :
    Batch g start { m with recoveryEvents := recoveryEvents } (l.openEvent event) := by
  have ht : Tracked g { m with recoveryEvents := recoveryEvents } (l.openEvent event) :=
    h.tracked.openClosed hclosed hrecovery rfl rfl rfl
  have hc := h.counted.congr (openEvent_isOpen_of_closed hclosed)
    (fun e he => by
      rw [openEvent_tags, if_neg]
      rintro rfl
      rw [isOpen_of_closed hclosed] at he
      cases he)
    (fun e hopened => by
      rw [openEvent_opened, or_eq_false_iff] at hopened
      exact hopened.2)
  refine ⟨ht, ⟨hc.indexed, hc.unknown, hc.distinct, hc.plain, hc.isOpen, hc.notOpen⟩,
    fun e he => ?_, h.old⟩
  rw [openEvent_opened, h.sub e he, Bool.or_true]

theorem update_eq_of_none {f : ℕ → Option Event} (h : f e = none) : f = Function.update f e none := by
  rw [← h, update_eq_self]

theorem Batch.processOk (h : Batch g start m l) (hok : EventOk start m l event)
    (hvalue : event.value = .ok) :
    Batch g start (processEvent g m event) (l.close event.eventid) := by
  unfold processEvent
  by_cases hdeleted : (m.deletedEventids event.eventid).isSome = true
  · have hnone := h.tracked.problemEvents_of_closed (h.tracked.deleted _ hdeleted)
    rw [if_pos hdeleted]
    exact h.closeUnknown hnone (h.tracked.close (update_eq_of_none hnone) (fun _ => .inr)
      (fun _ => .inr) rfl) rfl rfl
  · rw [if_neg hdeleted, hvalue]
    cases hfound : m.problemEvents event.eventid with
    | none =>
      refine h.closeUnknown hfound (h.tracked.close (update_eq_of_none hfound) (fun e he => ?_)
        (fun _ => .inr) rfl) rfl rfl
      by_cases heq : e = event.eventid
      · exact .inl heq
      · exact .inr ((update_of_ne heq _ _).symm.trans he)
    | some found =>
      have hopened := (isOpen_iff.mp (h.tracked.found _ _ hfound).1).1
      exact h.close rfl (by simp [hfound]) (hok.after hvalue hopened)
        (h.tracked.close rfl (fun _ => .inr) (fun _ => .inr) rfl) rfl rfl

theorem Batch.processProblem (h : Batch g start m l) (hok : EventOk start m l event)
    (hvalue : event.value = .problem) :
    Batch g start (processEvent g m event)
      (if l.opened event.eventid then l else l.openEvent event) := by
  have hnotOpened (hclosed : l.closed event.eventid = true) : ¬l.opened event.eventid = true := by
    intro hopened
    rw [hok.again hvalue hopened] at hclosed
    cases hclosed
  unfold processEvent
  by_cases hdeleted : (m.deletedEventids event.eventid).isSome = true
  · have hclosed := h.tracked.deleted _ hdeleted
    rw [if_pos hdeleted, if_neg (hnotOpened hclosed)]
    exact h.openClosed hclosed fun _ he => he
  · rw [if_neg hdeleted, hvalue]
    cases hfound : m.problemEvents event.eventid with
    | some found =>
      rw [if_pos (isOpen_iff.mp (h.tracked.found _ _ hfound).1).1]
      simpa [hfound] using h
    | none =>
      have hnotOpen := h.tracked.missing _ hfound
      by_cases hrecovery : m.recoveryEvents event.eventid = true
      · have hclosed := h.tracked.recovery _ hrecovery
        simp only [Option.isSome_none, false_eq_true, if_false, if_pos hrecovery]
        rw [if_neg (hnotOpened hclosed)]
        refine h.openClosed hclosed fun e he => ?_
        by_cases heq : e = event.eventid
        · rw [heq, update_self] at he
          cases he
        · exact (update_of_ne heq _ _).symm.trans he
      · have hclosed : l.closed event.eventid = false := by
          by_contra hclosed
          exact (hok.remembered hvalue (by simpa using hclosed)).elim hdeleted hrecovery
        have hopened : l.opened event.eventid = false := by
          simpa [Ledger.isOpen, hclosed] using hnotOpen
        have hold := h.tracked.fresh _ hopened hclosed
        have hnonzero := hok.nonzero hvalue
        have hmarked : MarkedBy g m.currentEventid event.eventid event.tags :=
          (h.tracked.marks _ hnonzero).mono (by simp [hold])
        simp only [Option.isSome_none, false_eq_true, if_false, if_neg hrecovery]
        rw [if_neg (by simp [hopened])]
        have hc := h.counted.openEvent hopened hclosed hold hmarked
        refine ⟨h.tracked.openEvent hnonzero hopened hclosed,
          ⟨hc.indexed, hc.unknown, hc.distinct, hc.plain, hc.isOpen, hc.notOpen⟩,
          fun e he => ?_, fun s e he => ?_⟩
        · rw [openEvent_opened, h.sub e he, Bool.or_true]
        · have hne : event.eventid ≠ e := by
            rintro rfl
            rw [h.sub _ he] at hopened
            cases hopened
          refine (countNew_matchEvent false hmarked s e).trans ?_
          rw [h.old s e he, if_neg fun hand => hne hand.1]

theorem Batch.processEvent (h : Batch g start m l) (hok : EventOk start m l event) :
    Batch g start (processEvent g m event) (l.event event) := by
  cases hvalue : event.value with
  | ok =>
    rw [show l.event event = l.close event.eventid by rw [Ledger.event, hvalue]]
    exact h.processOk hok hvalue
  | problem =>
    rw [show l.event event = if l.opened event.eventid then l else l.openEvent event by
      rw [Ledger.event, hvalue]]
    exact h.processProblem hok hvalue
  | other =>
    rw [show l.event event = l by rw [Ledger.event, hvalue],
      show Services.processEvent g m event = m by simp [Services.processEvent, hvalue]]
    exact h

structure RestOk (start : Ledger) (m : Manager) (l : Ledger) (rest : List Event) : Prop where
  each : ∀ a ∈ rest, EventOk start m l a
  fromStart : ∀ a ∈ rest, a.value = .problem → l.opened a.eventid = true →
    start.opened a.eventid = true
  once : rest.Pairwise fun a b => a.value = .problem → b.value = .problem → a.eventid ≠ b.eventid
  after : rest.Pairwise fun a b => a.eventid = b.eventid → a.value = .problem →
    b.value = .ok → start.opened a.eventid = true
  before : rest.Pairwise fun a b => a.eventid = b.eventid → a.value = .ok →
    b.value = .problem → start.opened a.eventid = false

theorem event_opened (a : Event) (e : ℕ) :
    (l.event a).opened e = (decide (a.value = .problem ∧ e = a.eventid) || l.opened e) := by
  unfold Ledger.event
  cases hvalue : a.value with
  | ok => simp
  | problem =>
    by_cases hopened : l.opened a.eventid = true
    · by_cases he : e = a.eventid <;> simp [he, hopened]
    · simp [hopened, openEvent_opened]
  | other => simp

theorem event_closed (a : Event) (e : ℕ) :
    (l.event a).closed e = (decide (a.value = .ok ∧ e = a.eventid) || l.closed e) := by
  unfold Ledger.event
  cases hvalue : a.value with
  | ok => simp [close_closed]
  | problem =>
    by_cases hopened : l.opened a.eventid = true
    · simp [hopened]
    · simp [hopened, Ledger.openEvent]
  | other => simp

theorem processEvent_deletedEventids (g : Graph) (m : Manager) (a : Event) :
    (processEvent g m a).deletedEventids = m.deletedEventids := by
  unfold processEvent
  split
  · rfl
  · cases a.value with
    | ok => cases m.problemEvents a.eventid <;> rfl
    | problem =>
      simp only
      split
      · rfl
      · split <;> rfl
    | other => rfl

theorem processEvent_recoveryEvents {a : Event} (h : m.recoveryEvents e = true)
    (hne : a.value = .problem → a.eventid ≠ e) : (processEvent g m a).recoveryEvents e = true := by
  unfold processEvent
  split
  · exact h
  · cases hvalue : a.value with
    | ok =>
      cases m.problemEvents a.eventid with
      | none =>
        by_cases he : e = a.eventid
        · exact he ▸ update_self ..
        · exact (update_of_ne he _ _).trans h
      | some found => exact h
    | problem =>
      simp only
      split
      · exact h
      · split
        · exact (update_of_ne (Ne.symm (hne hvalue)) _ _).trans h
        · exact h
    | other => exact h

theorem processEvent_remembers {a : Event} (hvalue : a.value = .ok)
    (hnone : m.problemEvents a.eventid = none) :
    (m.deletedEventids a.eventid).isSome = true ∨
      (processEvent g m a).recoveryEvents a.eventid = true := by
  by_cases hdeleted : (m.deletedEventids a.eventid).isSome = true
  · exact .inl hdeleted
  · refine .inr ?_
    rw [processEvent, if_neg hdeleted, hvalue]
    simp only [hnone]
    exact update_self ..

theorem RestOk.next {a : Event} (h : RestOk start m l (a :: rest)) (ht : Tracked g m l) :
    RestOk start (processEvent g m a) (l.event a) rest := by
  obtain ⟨honce, honce'⟩ := pairwise_cons.mp h.once
  obtain ⟨hafter, hafter'⟩ := pairwise_cons.mp h.after
  obtain ⟨hbefore, hbefore'⟩ := pairwise_cons.mp h.before
  have hmem {b : Event} (hb : b ∈ rest) : b ∈ a :: rest := mem_cons_of_mem a hb
  have hopened {b : Event} (hb : b ∈ rest) (hproblem : b.value = .problem)
      (hopened : (l.event a).opened b.eventid = true) : l.opened b.eventid = true := by
    rw [event_opened, or_eq_true, decide_eq_true_eq] at hopened
    rcases hopened with ⟨ha, heq⟩ | hopened
    · exact absurd heq.symm (honce b hb ha hproblem)
    · exact hopened
  have hfrom {b : Event} (hb : b ∈ rest) (hproblem : b.value = .problem)
      (h' : (l.event a).opened b.eventid = true) : start.opened b.eventid = true :=
    h.fromStart b (hmem hb) hproblem (hopened hb hproblem h')
  refine ⟨fun b hb => ⟨(h.each b (hmem hb)).nonzero, fun hproblem hopened' => ?_,
    fun hproblem hclosed => ?_, fun hok hopened' => ?_⟩, fun b hb => hfrom hb, honce', hafter',
    hbefore'⟩
  · have hclosed := (h.each b (hmem hb)).again hproblem (hopened hb hproblem hopened')
    rw [event_closed, hclosed, Bool.or_false, decide_eq_false_iff_not]
    rintro ⟨ha, heq⟩
    have hstart := hbefore b hb heq.symm ha hproblem
    rw [← heq, hfrom hb hproblem hopened'] at hstart
    cases hstart
  · rw [processEvent_deletedEventids]
    rw [event_closed, or_eq_true, decide_eq_true_eq] at hclosed
    rcases hclosed with ⟨ha, heq⟩ | hclosed
    · -- the recovery of a problem that was not opened before
      have hnotOpened : l.opened a.eventid = false := by
        by_contra hopened
        have hstart := h.fromStart b (hmem hb) hproblem (by simpa [heq] using hopened)
        rw [heq, hbefore b hb heq.symm ha hproblem] at hstart
        cases hstart
      have hnone : m.problemEvents a.eventid = none := by
        cases hfound : m.problemEvents a.eventid with
        | none => rfl
        | some found =>
          have hopen := (ht.found _ _ hfound).1
          rw [Ledger.isOpen, hnotOpened] at hopen
          cases hopen
      rw [heq]
      exact processEvent_remembers ha hnone
    · rcases (h.each b (hmem hb)).remembered hproblem hclosed with hdeleted | hrecovery
      · exact .inl hdeleted
      · exact .inr (processEvent_recoveryEvents hrecovery fun ha => honce b hb ha hproblem)
  · rw [event_opened, or_eq_true, decide_eq_true_eq] at hopened'
    rcases hopened' with ⟨ha, heq⟩ | hopened'
    · rw [heq]
      exact hafter b hb heq.symm ha hok
    · exact (h.each b (hmem hb)).after hok hopened'

theorem Batch.processEvents (h : Batch g start m l) (hrest : RestOk start m l events) :
    Batch g start (events.foldl (Services.processEvent g) m) (events.foldl Ledger.event l) := by
  induction events generalizing m l with
  | nil => exact h
  | cons a events ih =>
    exact ih (h.processEvent (hrest.each a (mem_cons_self ..))) (hrest.next h.tracked)

end Zabbix.Services
