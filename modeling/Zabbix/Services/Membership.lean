import Zabbix.Services.Ledger
import Zabbix.Services.Propagation

/-!
# The problem lists after every message

The other messages, and the runs: between messages each service has the open events that match it.
-/

namespace Zabbix.Services

open List Function

variable {g : Graph} {m m' start : Manager} {l l' before : Ledger} {event : Event} {e s fuel : ℕ}
  {done : List (ℕ × List Tag)} {order : List ServicesDiff}
variable {tags : List Tag} {u : ℕ × List Tag} {updates : List (ℕ × List Tag)} {state : State}

theorem Tracked.congr (h : Tracked g m l) (hevents : m'.problemEvents = m.problemEvents)
    (hrecovery : m'.recoveryEvents = m.recoveryEvents)
    (hdeleted : ∀ e, (m'.deletedEventids e).isSome = true → (m.deletedEventids e).isSome = true)
    (hcurrent : m'.currentEventid = m.currentEventid) : Tracked g m' l where
  found := hevents ▸ h.found
  missing := hevents ▸ h.missing
  recovery := hrecovery ▸ h.recovery
  deleted e he := h.deleted e (hdeleted e he)
  marks := hcurrent ▸ h.marks
  nonzero := h.nonzero
  fresh := h.fresh

structure Between (g : Graph) (m : Manager) (l : Ledger) : Prop where
  tracked : Tracked g m l
  indexed : m.Indexed
  count : ∀ s e, countProblem (m.serviceProblems s) e =
    if l.isOpen e = true ∧ Matches g (l.tags e) s then 1 else 0
  noDiffs : m.serviceDiffs = []

theorem Between.counted (h : Between g m l) : Counted g m l where
  indexed := h.indexed
  unknown s hs e := by
    rw [h.count, if_neg]
    exact fun hmatch => hs hmatch.2.known
  distinct := by simp [h.noDiffs]
  plain := by simp [AllFull, h.noDiffs]
  isOpen s e he := by
    rw [h.count, h.noDiffs]
    simp [he, countNew, countRecovered, diffOf, emptyDiff]
  notOpen s e he := by
    rw [h.count, h.noDiffs]
    simp [he, countNew, countRecovered, diffOf, emptyDiff]

theorem Between.batch (h : Between g m l) : Batch g l m l where
  tracked := h.tracked
  counted := h.counted
  sub _ he := he
  old s e _ := by simp [h.noDiffs, countNew, diffOf, emptyDiff]

theorem Between.of_update (ht : Tracked g m l) (hindexed : m.Indexed)
    (hdistinct : (m.serviceDiffs.map (·.serviceid)).Nodup)
    (hcount : ∀ s e,
      countProblem ((problemsAfter g m.toProblemLists m.serviceDiffs).serviceProblems s) e =
        if l.isOpen e = true ∧ Matches g (l.tags e) s then 1 else 0)
    (horder : order.Perm m.serviceDiffs) (h : dbUpdateServices g fuel m order = some m') :
    Between g { m' with serviceDiffs := [] } l := by
  rw [dbUpdateServices_eq h]
  refine ⟨ht.congr rfl rfl (fun _ he => he) rfl, ?_, fun s e => ?_, rfl⟩
  · exact indexed_problemsAfter hindexed
  · rw [← hcount s e, ← problemsAfter_perm hdistinct horder]

theorem Counted.count (h : Counted g m l) (s e : ℕ) :
    countProblem ((problemsAfter g m.toProblemLists m.serviceDiffs).serviceProblems s) e =
      if l.isOpen e = true ∧ Matches g (l.tags e) s then 1 else 0 := by
  by_cases hs : s ∈ g.serviceids
  · rw [count_problemsAfter _ h.distinct hs, full_diffOf h.plain, Bool.false_and]
    cases hopen : l.isOpen e with
    | true =>
      obtain ⟨hsum, hrecovered⟩ := h.isOpen s e hopen
      rw [hrecovered]
      simpa using hsum
    | false =>
      obtain ⟨hnew, hrecovered, -⟩ := h.notOpen s e hopen
      simp [hnew, hrecovered]
  · rw [problemsAfter_unknown hs, h.unknown s hs, if_neg]
    exact fun hmatch => hs hmatch.2.known

theorem Counted.between (h : Counted g m l) (ht : Tracked g m l)
    (horder : order.Perm m.serviceDiffs) (hupdate : dbUpdateServices g fuel m order = some m') :
    Between g { m' with serviceDiffs := [] } l :=
  .of_update ht h.indexed h.distinct h.count horder hupdate

theorem Batch.processDeletedProblem {start : Ledger} (h : Batch g start m l)
    (hsame : ∀ e, l.opened e = true → start.opened e = true) (now : ℤ) (e : ℕ) :
    Batch g start (processDeletedProblem now m e) (l.close e) := by
  have hdeleted (e' : ℕ) (he' : (update m.deletedEventids e
      ((m.deletedEventids e).or (some now)) e').isSome = true) :
      e' = e ∨ (m.deletedEventids e').isSome = true := by
    by_cases heq : e' = e
    · exact .inl heq
    · rw [update_of_ne heq] at he'
      exact .inr he'
  unfold Services.processDeletedProblem
  cases hfound : m.problemEvents e with
  | none =>
    simp only [hfound]
    exact h.closeUnknown hfound (h.tracked.close (update_eq_of_none hfound) (fun _ => .inr)
      hdeleted rfl) rfl rfl
  | some event =>
    obtain ⟨hopen, hid, -⟩ := h.tracked.found e event hfound
    simp only [hfound]
    exact h.close hid (by simp [hfound]) (hsame e (isOpen_iff.mp hopen).1)
      (h.tracked.close rfl (fun _ => .inr) hdeleted rfl) rfl rfl

theorem Batch.processDeletedProblems {start : Ledger} (h : Batch g start m l)
    (hsame : ∀ e, l.opened e = true → start.opened e = true) (now : ℤ) (eventids : List ℕ) :
    Batch g start (eventids.foldl (Services.processDeletedProblem now) m)
      (eventids.foldl Ledger.close l) := by
  induction eventids generalizing m l with
  | nil => exact h
  | cons e eventids ih => exact ih (h.processDeletedProblem hsame now e) hsame

theorem Counted.of_counts (h : Counted g m l) (hindexed : m'.Indexed) (hproblems : ∀ s e,
      countProblem (m'.serviceProblems s) e = countProblem (m.serviceProblems s) e)
    (hdistinct : (m'.serviceDiffs.map (·.serviceid)).Nodup) (hplain : AllFull false m'.serviceDiffs)
    (hcounts : ∀ s e, countNew m'.serviceDiffs s e = countNew m.serviceDiffs s e ∧
      countRecovered m'.serviceDiffs s e = countRecovered m.serviceDiffs s e) :
    Counted g m' l where
  indexed := hindexed
  unknown s hs e := (hproblems s e).trans (h.unknown s hs e)
  distinct := hdistinct
  plain := hplain
  isOpen s e he := by
    rw [hproblems, (hcounts s e).1, (hcounts s e).2]
    exact h.isOpen s e he
  notOpen s e he := by
    rw [hproblems, (hcounts s e).1, (hcounts s e).2]
    exact h.notOpen s e he

theorem Counted.addSuppressed (h : Counted g m l) (services : List ℕ) :
    Counted g { m with serviceDiffs := services.foldl addSuppressed m.serviceDiffs } l := by
  have hfold {diffs : List ServicesDiff} (hdistinct : (diffs.map (·.serviceid)).Nodup)
      (hplain : AllFull false diffs) :
      ((services.foldl Services.addSuppressed diffs).map (·.serviceid)).Nodup ∧
        AllFull false (services.foldl Services.addSuppressed diffs) ∧
        ∀ s e, countNew (services.foldl Services.addSuppressed diffs) s e = countNew diffs s e ∧
          countRecovered (services.foldl Services.addSuppressed diffs) s e =
            countRecovered diffs s e := by
    induction services generalizing diffs with
    | nil => exact ⟨hdistinct, hplain, fun _ _ => ⟨rfl, rfl⟩⟩
    | cons first services ih =>
      obtain ⟨hdistinct', hplain', hcounts⟩ := ih
        (nodup_updateDiff (f := .setSuppress) (fun _ => rfl) hdistinct)
        (hplain.updateDiff (f := .setSuppress) (fun _ _ => rfl)
          (show (emptyDiff true true first).full = false from rfl))
      refine ⟨hdistinct', hplain', fun s e => ?_⟩
      obtain ⟨hnew, hrecovered⟩ := counts_updateDiff diffs (f := .setSuppress)
        (fun _ => rfl) (fun _ => rfl) (fun _ => rfl) true true first s e
      exact ⟨(hcounts s e).1.trans hnew, (hcounts s e).2.trans hrecovered⟩
  obtain ⟨hdistinct, hplain, hcounts⟩ := hfold h.distinct h.plain
  exact h.of_counts h.indexed (fun _ _ => rfl) hdistinct hplain hcounts

theorem Tracked.setEvent (h : Tracked g m l) (hfound : m.problemEvents e = some event)
    (event' : Event) (hid : event'.eventid = event.eventid) (htags : event'.tags = event.tags) :
    Tracked g { m with problemEvents := update m.problemEvents e (some event') } l := by
  obtain ⟨hopen, heventid, hmem⟩ := h.found e event hfound
  refine ⟨fun e' found he' => ?_, fun e' he' => ?_, h.recovery, h.deleted, h.marks, h.nonzero,
    h.fresh⟩
  · change update m.problemEvents e (some event') e' = some found at he'
    by_cases heq : e' = e
    · subst heq
      rw [update_self] at he'
      obtain rfl := Option.some.inj he'
      rw [hid, htags]
      exact ⟨hopen, heventid, hmem⟩
    · rw [update_of_ne heq] at he'
      exact h.found e' found he'
  · change update m.problemEvents e (some event') e' = none at he'
    by_cases heq : e' = e
    · subst heq
      rw [update_self] at he'
      cases he'
    · rw [update_of_ne heq] at he'
      exact h.missing e' he'

theorem foldl_kept {α : Type*} {step : Manager → α → Manager}
    (hstep : ∀ {m : Manager} (a : α), Tracked g m l → Counted g m l →
      Tracked g (step m a) l ∧ Counted g (step m a) l)
    (ht : Tracked g m l) (hc : Counted g m l) (items : List α) :
    Tracked g (items.foldl step m) l ∧ Counted g (items.foldl step m) l := by
  induction items generalizing m with
  | nil => exact ⟨ht, hc⟩
  | cons a items ih =>
    obtain ⟨ht, hc⟩ := hstep a ht hc
    exact ih ht hc

theorem processSuppression_kept (ht : Tracked g m l) (hc : Counted g m l) (isSuppressed : Bool)
    (pair : ℕ × ℕ) :
    Tracked g (processSuppression isSuppressed m pair) l ∧
      Counted g (processSuppression isSuppressed m pair) l := by
  unfold processSuppression
  cases hfound : m.problemEvents pair.1 with
  | none => exact ⟨ht, hc⟩
  | some event =>
    simp only
    generalize (if isSuppressed = true then eventAddMaintenanceid event.maintenanceids pair.2
      else eventRemoveMaintenanceid event.maintenanceids pair.2) = maintenanceids
    have htracked := ht.setEvent hfound { event with maintenanceids } rfl rfl
    split
    · exact ⟨htracked, hc.indexed, hc.unknown, hc.distinct, hc.plain, hc.isOpen, hc.notOpen⟩
    · have hadded := hc.addSuppressed (m.serviceProblemsIndex pair.1)
      exact ⟨htracked.congr rfl rfl (fun _ he => he) rfl, hadded.indexed, hadded.unknown,
        hadded.distinct, hadded.plain, hadded.isOpen, hadded.notOpen⟩

theorem countProblem_modify {problems : List ServiceProblem} {i : ℕ}
    {f : ServiceProblem → ServiceProblem} (hf : ∀ problem, (f problem).eventid = problem.eventid) :
    countProblem (problems.modify i f) e = countProblem problems e := by
  induction problems generalizing i with
  | nil => rw [modify_nil]
  | cons problem problems ih =>
    cases i with
    | zero => simp [countProblem, countP_cons, hf]
    | succ i =>
      rw [modify_succ_cons, ← singleton_append, countProblem_append, ih,
        ← countProblem_append, singleton_append]

theorem serviceUpdateEventSeverity_kept (ht : Tracked g m l) (hc : Counted g m l) (eventid : ℕ)
    (severity : ℤ) (s : ℕ) :
    Tracked g (serviceUpdateEventSeverity eventid severity m s) l ∧
      Counted g (serviceUpdateEventSeverity eventid severity m s) l := by
  unfold serviceUpdateEventSeverity
  cases searchProblem (m.serviceProblems s) eventid with
  | none => exact ⟨ht, hc⟩
  | some index =>
    have hcount (s' e : ℕ) : countProblem (update m.serviceProblems s
        ((m.serviceProblems s).modify index fun problem => { problem with severity := severity })
        s') e = countProblem (m.serviceProblems s') e := by
      by_cases hs : s' = s
      · subst hs
        rw [update_self]
        exact countProblem_modify fun _ => rfl
      · rw [update_of_ne hs]
    refine ⟨ht.congr rfl rfl (fun _ he => he) rfl, hc.of_counts (fun e s' => ?_) hcount
      (nodup_updateDiff (fun _ => rfl) hc.distinct)
      (hc.plain.updateDiff (f := id) (fun _ hfull => hfull) rfl) fun s' e =>
        counts_updateDiff _ (f := id) (fun _ => rfl) (fun _ => rfl) (fun _ => rfl) false false s s' e⟩
    exact (hc.indexed e s').trans (hcount s' e).symm

theorem processEventSeverity_kept (ht : Tracked g m l) (hc : Counted g m l) (es : ℕ × ℤ) :
    Tracked g (processEventSeverity m es) l ∧ Counted g (processEventSeverity m es) l := by
  unfold processEventSeverity
  cases hfound : m.problemEvents es.1 with
  | none => exact ⟨ht, hc⟩
  | some event =>
    exact foldl_kept (fun s ht hc => serviceUpdateEventSeverity_kept ht hc es.1 es.2 s)
      (ht.setEvent hfound { event with severity := es.2 } rfl rfl)
      ⟨hc.indexed, hc.unknown, hc.distinct, hc.plain, hc.isOpen, hc.notOpen⟩ _

theorem mem_addTags {new : List Tag} {tag : Tag} :
    tag ∈ addTags tags new ↔ tag ∈ tags ∨ tag ∈ new := by
  unfold addTags
  induction new generalizing tags with
  | nil => simp
  | cons first new ih =>
    rw [foldl_cons, ih]
    split <;> grind

theorem addTags_isOpen (l : Ledger) (u : ℕ × List Tag) (e : ℕ) :
    (l.addTags u).isOpen e = l.isOpen e := rfl

theorem addTags_tags (l : Ledger) (u : ℕ × List Tag) (e : ℕ) :
    (l.addTags u).tags e = if e = u.1 then l.tags u.1 ++ u.2 else l.tags e := by
  simp only [Ledger.addTags, update_apply]

theorem subset_addTags (l : Ledger) (u : ℕ × List Tag) (e : ℕ) :
    ∀ tag ∈ l.tags e, tag ∈ (l.addTags u).tags e := by
  intro tag htag
  rw [addTags_tags]
  split
  · next he => exact mem_append_left _ (he ▸ htag)
  · exact htag

/-- What holds when the tag updates `done` have been processed: the diffs have the updated events
only, one for each service that they match. -/
structure TagsBatch (g : Graph) (start : Manager) (before : Ledger) (done : List (ℕ × List Tag))
    (m : Manager) (l : Ledger) : Prop where
  tracked : Tracked g m l
  lists : m.toProblemLists = start.toProblemLists
  opened : l.opened = before.opened
  closed : l.closed = before.closed
  updated : ∀ u ∈ done, l.tags u.1 = before.tags u.1 ++ u.2
  notUpdated : ∀ e ∉ done.map (·.1), l.tags e = before.tags e
  distinct : (m.serviceDiffs.map (·.serviceid)).Nodup
  full : AllFull true m.serviceDiffs
  new : ∀ s e, countNew m.serviceDiffs s e =
    if e ∈ done.map (·.1) ∧ l.isOpen e = true ∧ Matches g (l.tags e) s then 1 else 0
  recovered : ∀ s e, countRecovered m.serviceDiffs s e = 0
  matched : ∀ diff ∈ m.serviceDiffs, ∃ e ∈ done.map (·.1),
    l.isOpen e = true ∧ Matches g (l.tags e) diff.serviceid

theorem TagsBatch.nil (h : Between g m l) : TagsBatch g m l [] m l where
  tracked := h.tracked
  lists := rfl
  opened := rfl
  closed := rfl
  updated := by simp
  notUpdated _ _ := rfl
  distinct := by simp [h.noDiffs]
  full := by simp [AllFull, h.noDiffs]
  new s e := by simp [h.noDiffs, countNew, diffOf, emptyDiff]
  recovered s e := by simp [h.noDiffs, countRecovered, diffOf, emptyDiff]
  matched := by simp [h.noDiffs]

theorem Tracked.addTags (h : Tracked g m l) (hknown : l.opened u.1 = true ∨ l.closed u.1 = true) :
    Tracked g (processProblemTag g m u) (l.addTags u) := by
  have hfresh (e : ℕ) (hopened : l.opened e = false) (hclosed : l.closed e = false) :
      (l.addTags u).tags e = [] := by
    have hne : e ≠ u.1 := by
      rintro rfl
      rcases hknown with hknown | hknown
      · rw [hopened] at hknown
        cases hknown
      · rw [hclosed] at hknown
        cases hknown
    rw [addTags_tags, if_neg hne]
    exact h.fresh e hopened hclosed
  unfold processProblemTag
  cases hfound : m.problemEvents u.1 with
  | none =>
    refine ⟨fun e event hevent => ?_, h.missing, h.recovery, h.deleted, fun e he =>
      (h.marks e he).mono (subset_addTags l u e), h.nonzero, hfresh⟩
    have hne : e ≠ u.1 := by
      rintro rfl
      rw [hfound] at hevent
      cases hevent
    rw [addTags_tags, if_neg hne]
    exact h.found e event hevent
  | some event =>
    obtain ⟨hopen, hid, htags⟩ := h.found u.1 event hfound
    refine ⟨fun e event' hevent => ?_, fun e hnone => ?_, h.recovery, h.deleted, fun e he => ?_,
      h.nonzero, hfresh⟩
    · change update m.problemEvents u.1
        (some { event with tags := Services.addTags event.tags u.2 }) e = some event' at hevent
      by_cases he : e = u.1
      · subst he
        rw [update_self] at hevent
        obtain rfl := Option.some.inj hevent
        refine ⟨hopen, hid, fun tag => ?_⟩
        rw [mem_addTags, htags, addTags_tags, if_pos rfl, mem_append]
      · rw [update_of_ne he] at hevent
        rw [addTags_tags, if_neg he]
        exact h.found e event' hevent
    · change update m.problemEvents u.1
        (some { event with tags := Services.addTags event.tags u.2 }) e = none at hnone
      by_cases he : e = u.1
      · subst he
        rw [update_self] at hnone
        cases hnone
      · rw [update_of_ne he] at hnone
        exact h.missing e hnone
    · refine (h.marks e he).matchEvent true (subset_addTags l u e) fun heq tag htag => ?_
      have heq : u.1 = e := hid.symm.trans heq
      rw [mem_addTags, htags] at htag
      rw [addTags_tags, if_pos heq.symm]
      exact mem_append.mpr htag

theorem processProblemTag_cases (h : Tracked g m l) (u : ℕ × List Tag) :
    (processProblemTag g m u).toProblemLists = m.toProblemLists ∧
      (l.isOpen u.1 = false ∧ (processProblemTag g m u).serviceDiffs = m.serviceDiffs ∨
        ∃ event m', l.isOpen u.1 = true ∧ event.eventid = u.1 ∧
          (∀ tag, tag ∈ event.tags ↔ tag ∈ (l.addTags u).tags u.1) ∧
          m'.serviceDiffs = m.serviceDiffs ∧ m'.currentEventid = m.currentEventid ∧
          (processProblemTag g m u).serviceDiffs =
            (matchEventToServiceProblemTags g event true m').serviceDiffs) := by
  unfold processProblemTag
  cases hfound : m.problemEvents u.1 with
  | none => exact ⟨rfl, .inl ⟨h.missing u.1 hfound, rfl⟩⟩
  | some event =>
    obtain ⟨hopen, hid, htags⟩ := h.found u.1 event hfound
    refine ⟨rfl, .inr ⟨_, _, hopen, ?_, fun tag => ?_, ?_, ?_, rfl⟩⟩
    · exact hid
    · rw [mem_addTags, htags, addTags_tags, if_pos rfl, mem_append]
    · rfl
    · rfl

theorem matches_congr {tags' : List Tag} (h : ∀ tag, tag ∈ tags ↔ tag ∈ tags') (s : ℕ) :
    Matches g tags s ↔ Matches g tags' s :=
  ⟨fun hmatch => hmatch.mono fun tag htag => (h tag).mp htag,
    fun hmatch => hmatch.mono fun tag htag => (h tag).mpr htag⟩

variable (h : TagsBatch g start before done m l)

include h

theorem TagsBatch.next (hnew : u.1 ∉ done.map (·.1))
    (hknown : before.opened u.1 = true ∨ before.closed u.1 = true) :
    TagsBatch g start before (u :: done) (processProblemTag g m u) (l.addTags u) := by
  have htracked : Tracked g (processProblemTag g m u) (l.addTags u) :=
    h.tracked.addTags (by rwa [h.opened, h.closed])
  have hmem (e : ℕ) : e ∈ (u :: done).map (·.1) ↔ e = u.1 ∨ e ∈ done.map (·.1) := by simp
  have hother (e : ℕ) (he : e ∈ done.map (·.1)) : (l.addTags u).tags e = l.tags e := by
    rw [addTags_tags, if_neg]
    rintro rfl
    exact hnew he
  obtain ⟨hlists, hcases⟩ := processProblemTag_cases h.tracked u
  have hupdated : ∀ v ∈ u :: done, (l.addTags u).tags v.1 = before.tags v.1 ++ v.2 := by
    intro v hv
    rcases mem_cons.mp hv with rfl | hv
    · rw [addTags_tags, if_pos rfl, h.notUpdated _ hnew]
    · rw [hother v.1 (mem_map_of_mem hv), h.updated v hv]
  have hnotUpdated : ∀ e ∉ (u :: done).map (·.1), (l.addTags u).tags e = before.tags e := by
    intro e he
    rw [hmem, not_or] at he
    rw [addTags_tags, if_neg he.1, h.notUpdated e he.2]
  have hbefore (s e : ℕ) (hne : e ≠ u.1) : countNew m.serviceDiffs s e =
      if e ∈ (u :: done).map (·.1) ∧ (l.addTags u).isOpen e = true ∧
        Matches g ((l.addTags u).tags e) s then 1 else 0 := by
    rw [h.new s e, addTags_tags, if_neg hne]
    simp only [hmem, hne, false_or, addTags_isOpen]
  have hnone (s : ℕ) : countNew m.serviceDiffs s u.1 = 0 := by
    rw [h.new s u.1, if_neg fun hand => hnew hand.1]
  have hmatched : ∀ diff ∈ m.serviceDiffs, ∃ e ∈ (u :: done).map (·.1),
      (l.addTags u).isOpen e = true ∧ Matches g ((l.addTags u).tags e) diff.serviceid := by
    intro diff hdiff
    obtain ⟨e, he, hopen, hmatch⟩ := h.matched diff hdiff
    exact ⟨e, (hmem e).mpr (.inr he), hopen, (hother e he).symm ▸ hmatch⟩
  rcases hcases with ⟨hclosed, hdiffs⟩ | ⟨event, m', hopen, hid, htags, hsame, hcurrent, hdiffs⟩
  · refine ⟨htracked, hlists.trans h.lists, h.opened, h.closed, hupdated, hnotUpdated,
      hdiffs ▸ h.distinct, hdiffs ▸ h.full, fun s e => ?_, fun s e => hdiffs ▸ h.recovered s e,
      hdiffs ▸ hmatched⟩
    rw [hdiffs]
    by_cases he : e = u.1
    · subst he
      rw [hnone, if_neg]
      rw [addTags_isOpen, hclosed]
      simp
    · exact hbefore s e he
  · have hnonzero : event.eventid ≠ 0 := by
      intro hzero
      rw [← hid, hzero, h.tracked.nonzero] at hopen
      cases hopen
    have hmarked : MarkedBy g m'.currentEventid event.eventid event.tags := by
      rw [hcurrent]
      refine (h.tracked.marks _ hnonzero).mono fun tag htag => ?_
      rw [hid] at htag
      exact (htags tag).mpr (subset_addTags l u u.1 tag htag)
    rw [← hsame] at hmatched hbefore hnone
    refine ⟨htracked, hlists.trans h.lists, h.opened, h.closed, hupdated, hnotUpdated, ?_, ?_,
      fun s e => ?_, fun s e => ?_, fun diff hdiff => ?_⟩
    · rw [hdiffs]
      exact foldl_addMatch_nodup (hsame ▸ h.distinct)
    · rw [hdiffs]
      exact AllFull.foldl_addMatch (hsame ▸ h.full)
    · rw [hdiffs, countNew_matchEvent true hmarked]
      by_cases he : e = u.1
      · subst he
        rw [hnone, zero_add, addTags_isOpen, hopen]
        simp [hid, matches_congr htags]
      · rw [if_neg fun hand => he (hand.1.symm.trans hid), add_zero]
        exact hbefore s e he
    · rw [hdiffs]
      refine countRecovered_foldl_addMatch.trans ?_
      rw [hsame]
      exact h.recovered s e
    · rw [hdiffs] at hdiff
      rcases serviceid_of_mem_foldl_addMatch hdiff with hdiff | hdiff
      · obtain ⟨old, hold, heq⟩ := mem_map.mp hdiff
        exact heq ▸ hmatched old hold
      · refine ⟨u.1, by simp, hopen, (matches_congr htags _).mp ?_⟩
        exact (mem_matchedServices hmarked).mp hdiff

theorem TagsBatch.processProblemTags (honce : ((updates ++ done).map (·.1)).Nodup)
    (hknown : ∀ u ∈ updates, before.opened u.1 = true ∨ before.closed u.1 = true) :
    ∃ done', (∀ u, u ∈ done' ↔ u ∈ updates ∨ u ∈ done) ∧
      TagsBatch g start before done' (updates.foldl (processProblemTag g) m)
        (updates.foldl Ledger.addTags l) := by
  induction updates generalizing done m l with
  | nil => exact ⟨done, by simp, h⟩
  | cons u updates ih =>
    obtain ⟨hu, hknown⟩ := forall_mem_cons.mp hknown
    rw [cons_append, map_cons, nodup_cons] at honce
    have hnew : u.1 ∉ done.map (·.1) := fun hmem => honce.1 (by
      rw [map_append]
      exact mem_append_right _ hmem)
    have honce' : ((updates ++ u :: done).map (·.1)).Nodup := by
      rw [(perm_middle.map _).nodup_iff, map_cons, nodup_cons]
      exact honce
    obtain ⟨done', hdone', h'⟩ := ih (h.next hnew hu) honce' hknown
    refine ⟨done', fun v => ?_, h'⟩
    rw [hdone', mem_cons, mem_cons]
    grind

theorem TagsBatch.count (hstart : Between g start before) (hdone : ∀ u, u ∈ done ↔ u ∈ updates)
    (hok : TagsOk g start before updates) (s e : ℕ) :
    countProblem ((problemsAfter g m.toProblemLists m.serviceDiffs).serviceProblems s) e =
      if l.isOpen e = true ∧ Matches g (l.tags e) s then 1 else 0 := by
  have hisOpen : l.isOpen e = before.isOpen e := by
    rw [Ledger.isOpen, h.opened, h.closed, Ledger.isOpen]
  have hids : ∀ e, e ∈ done.map (·.1) ↔ e ∈ updates.map (·.1) := by
    intro e
    simp only [mem_map, hdone]
  have hproblems : m.serviceProblems = start.serviceProblems :=
    congrArg ProblemLists.serviceProblems h.lists
  by_cases hs : s ∈ g.serviceids
  · rw [count_problemsAfter _ h.distinct hs, full_diffOf h.full, h.recovered, h.new, hproblems,
      Bool.true_and, Nat.sub_zero]
    cases hany : m.serviceDiffs.any (·.serviceid = s) with
    | true =>
      rw [if_pos rfl, zero_add]
      -- the diff is a full one, so that it has to have all problems of the service
      obtain ⟨diff, hdiff, hid⟩ := any_eq_true.mp hany
      obtain rfl := of_decide_eq_true hid
      obtain ⟨_, he', hopen', hmatch'⟩ := h.matched diff hdiff
      obtain ⟨u, hu, rfl⟩ := mem_map.mp he'
      rw [Ledger.isOpen, h.opened, h.closed] at hopen'
      rw [h.updated u hu] at hmatch'
      have hall := hok.complete u ((hdone u).mp hu) hopen' _ hs hmatch'
      by_cases he : e ∈ done.map (·.1)
      · simp [he]
      · rw [if_neg fun hand => he hand.1, if_neg]
        rintro ⟨hopen, hmatch⟩
        rw [hisOpen] at hopen
        rw [h.notUpdated e he] at hmatch
        have hcount := hstart.count diff.serviceid e
        rw [if_pos ⟨hopen, hmatch⟩] at hcount
        obtain ⟨problem, hmem, hid⟩ : ∃ problem ∈ start.serviceProblems diff.serviceid,
            problem.eventid = e := by
          have hpos : 0 < countProblem (start.serviceProblems diff.serviceid) e := by omega
          simpa [countProblem, countP_pos_iff] using hpos
        exact he ((hids e).mpr (hid ▸ hall problem hmem))
    | false =>
      have hnone : countNew m.serviceDiffs s e = 0 := by
        rw [countNew, diffOf, List.find?_eq_none.mpr (any_eq_false.mp hany)]
        rfl
      rw [h.new] at hnone
      have hnot : ¬(e ∈ done.map (·.1) ∧ l.isOpen e = true ∧ Matches g (l.tags e) s) := by
        intro hand
        rw [if_pos hand] at hnone
        cases hnone
      rw [if_neg (by simp), if_neg hnot, add_zero, hstart.count]
      by_cases he : e ∈ done.map (·.1)
      · have hbefore : ¬(before.isOpen e = true ∧ Matches g (before.tags e) s) := by
          rintro ⟨hopen, hmatch⟩
          obtain ⟨u, hu, rfl⟩ := mem_map.mp he
          refine hnot ⟨he, hisOpen ▸ hopen, hmatch.mono fun tag htag => ?_⟩
          rw [h.updated u hu]
          exact mem_append_left _ htag
        rw [if_neg hbefore, if_neg fun hand => hnot ⟨he, hand⟩]
      · rw [h.notUpdated e he, hisOpen]
  · rw [problemsAfter_unknown hs, hproblems, hstart.count, if_neg fun hmatch => hs hmatch.2.known,
      if_neg fun hmatch => hs hmatch.2.known]

omit h

theorem BatchOk.rest {events : List Event} (h : BatchOk m l events) : RestOk l m l events where
  each a ha := ⟨h.nonzero a ha, h.again a ha, h.remembered a ha, fun _ hopened => hopened⟩
  fromStart _ _ _ hopened := hopened
  once := h.once
  after := h.after
  before := h.before

theorem Between.step {state' : State} {delivery : Delivery}
    (h : Between g state.manager state.ledger) (hok : MessageOk g state delivery)
    (hstep : step g state delivery = some state') : Between g state'.manager state'.ledger := by
  simp only [Services.step] at hstep
  split at hstep
  · next horder =>
    obtain ⟨m', hupdate, rfl⟩ := Option.map_eq_some_iff.mp hstep
    have hkept (h : Tracked g (processMessage g state.manager delivery.message)
          (state.ledger.record delivery.message) ∧
        Counted g (processMessage g state.manager delivery.message)
          (state.ledger.record delivery.message)) :
        Between g { m' with serviceDiffs := [] } (state.ledger.record delivery.message) :=
      h.2.between h.1 horder hupdate
    cases hmessage : delivery.message with
    | problems events =>
      rw [MessageOk, hmessage] at hok
      rw [hmessage] at hkept
      have hbatch := h.batch.processEvents hok.rest
      exact hkept ⟨hbatch.tracked, hbatch.counted⟩
    | problemsTags updates =>
      rw [MessageOk, hmessage] at hok
      obtain ⟨done, hdone, hbatch⟩ := (TagsBatch.nil h).processProblemTags
        (by simpa using hok.once) hok.known
      rw [hmessage] at horder hupdate
      have hcount := hbatch.count h (by simpa using hdone) hok
      exact .of_update hbatch.tracked (hbatch.lists ▸ h.indexed) hbatch.distinct hcount horder
        hupdate
    | problemsDelete now eventids =>
      rw [hmessage] at hkept
      have hbatch := h.batch.processDeletedProblems (fun _ he => he) now eventids
      exact hkept ⟨hbatch.tracked, hbatch.counted⟩
    | eventsSuppress pairs =>
      rw [hmessage] at hkept
      exact hkept (foldl_kept (fun pair ht hc => processSuppression_kept ht hc true pair)
        h.tracked h.counted pairs)
    | eventsUnsuppress pairs =>
      rw [hmessage] at hkept
      exact hkept (foldl_kept (fun pair ht hc => processSuppression_kept ht hc false pair)
        h.tracked h.counted pairs)
    | eventSeverities saved severities =>
      rw [hmessage] at hkept
      cases saved with
      | false => exact hkept ⟨h.tracked, h.counted⟩
      | true =>
        exact hkept (foldl_kept (fun es ht hc => processEventSeverity_kept ht hc es)
          h.tracked h.counted severities)
    | cleanup now =>
      rw [hmessage] at hkept
      have hdeleted (e : ℕ) (he : ((processMessage g state.manager
          (.cleanup now)).deletedEventids e).isSome = true) :
          (state.manager.deletedEventids e).isSome = true := by
        change ((state.manager.deletedEventids e).filter _).isSome = true at he
        cases hfound : state.manager.deletedEventids e with
        | none =>
          rw [hfound] at he
          cases he
        | some time => rfl
      have hc := h.counted
      exact hkept ⟨h.tracked.congr rfl rfl hdeleted rfl, hc.indexed, hc.unknown, hc.distinct,
        hc.plain, hc.isOpen, hc.notOpen⟩
  · cases hstep

theorem count_map_eventid (problems : List ServiceProblem) (e : ℕ) :
    (problems.map (·.eventid)).count e = countProblem problems e := by
  rw [List.count, countP_map, countProblem]
  rfl

theorem Between.exact (h : Between g m l) : Exact g m l := by
  have hle (s e : ℕ) : countProblem (m.serviceProblems s) e ≤ 1 := by
    rw [h.count]
    split <;> omega
  have hmem (s e : ℕ) : e ∈ (m.serviceProblems s).map (·.eventid) ↔
      0 < countProblem (m.serviceProblems s) e := by
    rw [← count_map_eventid, count_pos_iff]
  refine ⟨fun s => ?_, fun s e => ?_, fun e => ?_, fun e s => ?_⟩
  · refine nodup_iff_count_le_one.mpr fun e => ?_
    rw [count_map_eventid]
    exact hle s e
  · rw [hmem, h.count]
    split <;> simp_all
  · refine nodup_iff_count_le_one.mpr fun s => ?_
    rw [h.indexed]
    exact hle s e
  · rw [hmem, ← h.indexed, count_pos_iff]

def StartState (state : State) : Prop :=
  state.ledger = .initial ∧ ∃ status, state.manager = .initial status

theorem Between.atStart (h : StartState state) : Between g state.manager state.ledger := by
  obtain ⟨m, l⟩ := state
  obtain ⟨rfl, status, rfl⟩ := h
  have htracked : Tracked g (Manager.initial status) .initial :=
    { found := fun _ _ hfound => by cases hfound
      missing := fun _ _ => rfl
      recovery := fun _ hrecovery => by cases hrecovery
      deleted := fun _ hdeleted => by cases hdeleted
      marks := fun _ he _ _ _ hcurrent => absurd hcurrent.symm he
      nonzero := rfl
      fresh := fun _ _ _ => rfl }
  exact ⟨htracked, fun _ _ => rfl, fun _ _ => (if_neg fun h => by cases h.1).symm, rfl⟩

/-- In runs of such messages each service has exactly the open events that match it after every
message, and the index maps each event to these services. -/
theorem services_exact {state : State}
    (h : Transition.Reach StartState (step g) (MessageOk g) state) :
    Exact g state.manager state.ledger :=
  (h.invariant (I := fun state => Between g state.manager state.ledger)
    (fun _ hstart => .atStart hstart)
    (fun _ _ _ hbetween hok hstep => hbetween.step hok hstep)).exact

def diamondRun : List Delivery :=
  [⟨.problems [⟨11, .problem, 2, [⟨['a'], ['x']⟩], []⟩, ⟨12, .problem, 3, [], []⟩],
      [⟨2, [⟨11, 2⟩], [], false, false⟩], 9⟩,
    ⟨.problemsTags [(12, [⟨['a'], ['x']⟩]), (11, [⟨['c'], []⟩])],
      [⟨2, [⟨12, 3⟩, ⟨11, 2⟩], [], true, false⟩], 9⟩,
    ⟨.problems [⟨11, .ok, 0, [], []⟩], [⟨2, [], [⟨11, 0⟩], false, false⟩], 9⟩]

theorem services_exact_diamondRun : ∃ state,
    Transition.run (step diamond) ⟨.initial fun _ => statusOk, .initial⟩ diamondRun = some state ∧
      Exact diamond state.manager state.ledger := by
  obtain ⟨state, hrun⟩ := Option.isSome_iff_exists.mp
    (show (Transition.run (step diamond) ⟨.initial fun _ => statusOk, .initial⟩
      diamondRun).isSome = true by decide)
  exact ⟨state, hrun, services_exact
    (Transition.Reach.of_run (.start ⟨rfl, _, rfl⟩) (by decide) hrun)⟩

def losingRun : List Delivery :=
  [⟨.problems [⟨11, .problem, 2, [⟨['a'], ['x']⟩], []⟩, ⟨12, .problem, 3, [], []⟩],
      [⟨2, [⟨11, 2⟩], [], false, false⟩], 9⟩,
    ⟨.problemsTags [(12, [⟨['a'], ['x']⟩])], [⟨2, [⟨12, 3⟩], [], true, false⟩], 9⟩]

/-- The tag makes service 2 lose the problem 11, which is open and matches. -/
theorem losingRun_not_exact : ¬∀ state,
    Transition.Reach StartState (step diamond) Transition.anyEvent state →
      Exact diamond state.manager state.ledger := by
  intro hall
  have hstart : Transition.Reach StartState (step diamond) Transition.anyEvent
      ⟨.initial fun _ => statusOk, .initial⟩ := .start ⟨rfl, _, rfl⟩
  have hrun : (Transition.run (step diamond) ⟨.initial fun _ => statusOk, .initial⟩ losingRun).any
      (fun state => state.manager.serviceProblems 2 = [⟨12, 3⟩] ∧
        state.ledger.isOpen 11 = true ∧ Matches diamond (state.ledger.tags 11) 2) = true := by
    decide
  obtain ⟨state, hreach, hstate⟩ := hstart.exists_of_run (Transition.guarded_anyEvent _ _) hrun
  obtain ⟨hlist, hmatch⟩ := of_decide_eq_true hstate
  have hmem := ((hall state hreach).mem 2 11).mpr hmatch
  rw [hlist] at hmem
  simp at hmem

end Zabbix.Services
