import Zabbix.Services.Problems

/-!
# Matching events to services

An event matches a service when each problem tag of the service has a tag of the event.
-/

namespace Zabbix.Services

open List Function

variable {g : Graph} {m : Manager} {event : Event} {s s' e : ℕ} {tags : List Tag}
  {diff new : ServicesDiff} {diffs : List ServicesDiff}
variable {tag : Tag} {t : ServiceProblemTag} {lists : ProblemLists} {full : Bool}

def TagMatches (t : ServiceProblemTag) (tag : Tag) : Prop :=
  tag.tag = t.tag ∧ if t.like then t.value <:+: tag.value else tag.value = t.value

instance (t : ServiceProblemTag) (tag : Tag) : Decidable (TagMatches t tag) :=
  inferInstanceAs (Decidable (_ ∧ _))

def Matches (g : Graph) (tags : List Tag) (s : ℕ) : Prop :=
  (g.service s).problemTags ≠ [] ∧
    ∀ t ∈ (g.service s).problemTags, ∃ tag ∈ tags, TagMatches t tag

instance (g : Graph) (tags : List Tag) (s : ℕ) : Decidable (Matches g tags s) :=
  inferInstanceAs (Decidable (_ ∧ _))

theorem Matches.mono {tags' : List Tag} (h : Matches g tags s) (hsub : ∀ tag ∈ tags, tag ∈ tags') :
    Matches g tags' s :=
  ⟨h.1, fun t ht => (h.2 t ht).imp fun tag htag => ⟨hsub tag htag.1, htag.2⟩⟩

theorem Matches.known (h : Matches g tags s) : s ∈ g.serviceids := (g.tagged s h.1).1

def TagServices.has (services : TagServices) (value : List Char) (t : TagOf) : Prop :=
  t ∈ services.values value ∨ t ∈ services.serviceProblemTagsLike ∧ t.2.value <:+: value

theorem has_addServiceProblemTagIndex {index : List Char → TagServices} {t t' : TagOf} :
    (addServiceProblemTagIndex index t' tag.tag).has tag.value t ↔
      (index tag.tag).has tag.value t ∨ t = t' ∧ TagMatches t.2 tag := by
  unfold addServiceProblemTagIndex TagMatches
  by_cases htag : tag.tag = t'.2.tag
  · rw [htag, update_self]
    cases hlike : t'.2.like with
    | true =>
      simp only [TagServices.has]
      grind
    | false =>
      by_cases hvalue : tag.value = t'.2.value
      · rw [hvalue]
        simp [TagServices.has]
        grind
      · simp [TagServices.has, update_of_ne hvalue]
        grind
  · rw [update_of_ne htag]
    constructor
    · exact .inl
    · rintro (h | ⟨rfl, h, -⟩)
      · exact h
      · exact absurd h htag

theorem has_serviceProblemTagsIndex {t : TagOf} :
    (serviceProblemTagsIndex g tag.tag).has tag.value t ↔
      t ∈ g.problemTags ∧ TagMatches t.2 tag := by
  have hfold (l : List TagOf) (index : List Char → TagServices) :
      (l.foldl addServiceProblemTagIndex index tag.tag).has tag.value t ↔
        (index tag.tag).has tag.value t ∨ t ∈ l ∧ TagMatches t.2 tag := by
    induction l generalizing index with
    | nil => simp
    | cons first l ih =>
      rw [foldl_cons, ih, has_addServiceProblemTagIndex, mem_cons, or_assoc, or_and_right]
  rw [serviceProblemTagsIndex, hfold]
  simp [TagServices.has]

theorem mem_problemTags : (s, t) ∈ g.problemTags ↔ t ∈ (g.service s).problemTags := by
  simp only [Graph.problemTags, mem_flatMap, mem_map, Prod.mk.injEq]
  constructor
  · rintro ⟨_, -, _, ht, rfl, rfl⟩
    exact ht
  · intro ht
    exact ⟨s, (g.tagged s (ne_nil_of_mem ht)).1, t, ht, rfl, rfl⟩

theorem mem_eventMatches :
    (s, t) ∈ eventMatches g event ↔
      t ∈ (g.service s).problemTags ∧ ∃ tag ∈ event.tags, TagMatches t tag := by
  have htag (tag : Tag) : (s, t) ∈ tagMatches g tag ↔
      t ∈ (g.service s).problemTags ∧ TagMatches t tag := by
    rw [← mem_problemTags, ← has_serviceProblemTagsIndex]
    simp [tagMatches, TagServices.has]
  simp only [eventMatches, mem_flatMap, htag]
  constructor
  · rintro ⟨tag, hmem, ht, hmatch⟩
    exact ⟨ht, tag, hmem, hmatch⟩
  · rintro ⟨ht, tag, hmem, hmatch⟩
    exact ⟨tag, hmem, ht, hmatch⟩

theorem foldl_current {found : List TagOf} {current : ℕ → ℕ} {tagid : ℕ} :
    found.foldl (fun current (t : TagOf) =>
      update current t.2.serviceProblemTagid e) current tagid =
      if ∃ t ∈ found, t.2.serviceProblemTagid = tagid then e else current tagid := by
  induction found generalizing current with
  | nil => simp
  | cons t found ih =>
    rw [foldl_cons, ih]
    by_cases hrest : ∃ t ∈ found, t.2.serviceProblemTagid = tagid
    · rw [if_pos hrest, if_pos (hrest.imp fun _ h => ⟨mem_cons_of_mem t h.1, h.2⟩)]
    · rw [if_neg hrest]
      by_cases ht : t.2.serviceProblemTagid = tagid
      · rw [if_pos ⟨t, by simp, ht⟩, ← ht, update_self]
      · rw [update_of_ne (Ne.symm ht), if_neg]
        simpa [ht] using hrest

def MarkedBy (g : Graph) (current : ℕ → ℕ) (e : ℕ) (tags : List Tag) : Prop :=
  ∀ s, ∀ t ∈ (g.service s).problemTags, current t.serviceProblemTagid = e →
    ∃ tag ∈ tags, TagMatches t tag

/-- The services that `match_event_to_service_problem_tags` finds. -/
def matchedServices (g : Graph) (event : Event) (m : Manager) : List ℕ :=
  (((eventMatches g event).map (·.1)).dedup).filter (({ m with
    currentEventid := (eventMatches g event).foldl (fun current (t : TagOf) =>
      update current t.2.serviceProblemTagid event.eventid)
        m.currentEventid } : Manager).allCurrent g event)

theorem current_of_found (ht : t ∈ (g.service s).problemTags) :
    (∃ t' ∈ eventMatches g event, t'.2.serviceProblemTagid = t.serviceProblemTagid) ↔
      ∃ tag ∈ event.tags, TagMatches t tag := by
  constructor
  · rintro ⟨⟨s', t'⟩, hmem, heq⟩
    obtain ⟨ht', hmatch⟩ := mem_eventMatches.mp hmem
    obtain ⟨-, rfl⟩ := g.tagids s' s t' t ht' ht heq
    exact hmatch
  · exact fun hmatch => ⟨(s, t), mem_eventMatches.mpr ⟨ht, hmatch⟩, rfl⟩

theorem mem_matchedServices (hmarked : MarkedBy g m.currentEventid event.eventid event.tags) :
    s ∈ matchedServices g event m ↔ Matches g event.tags s := by
  rw [matchedServices, mem_filter, mem_dedup, mem_map]
  simp only [Manager.allCurrent, all_eq_true, decide_eq_true_eq, foldl_current]
  have hall : (∀ t ∈ (g.service s).problemTags, event.eventid =
        if ∃ t' ∈ eventMatches g event, t'.2.serviceProblemTagid = t.serviceProblemTagid then
          event.eventid else m.currentEventid t.serviceProblemTagid) ↔
      ∀ t ∈ (g.service s).problemTags, ∃ tag ∈ event.tags, TagMatches t tag := by
    refine forall₂_congr fun t ht => ?_
    simp only [current_of_found ht]
    split
    · next hmatch => exact iff_of_true rfl hmatch
    · next hmatch => exact iff_of_false (fun heq => hmatch (hmarked s t ht heq.symm)) hmatch
  rw [hall, Matches]
  refine and_congr_left fun htags => ⟨?_, fun hne => ?_⟩
  · rintro ⟨⟨_, t⟩, hmem, rfl⟩
    exact ne_nil_of_mem (mem_eventMatches.mp hmem).1
  · obtain ⟨t, ht⟩ := exists_mem_of_ne_nil _ hne
    exact ⟨(s, t), mem_eventMatches.mpr ⟨ht, htags t ht⟩, rfl⟩

theorem nodup_matchedServices : (matchedServices g event m).Nodup := (nodup_dedup _).filter _

def diffOf (diffs : List ServicesDiff) (s : ℕ) : ServicesDiff :=
  (diffs.find? (·.serviceid = s)).getD (emptyDiff false false s)

def countNew (diffs : List ServicesDiff) (s e : ℕ) : ℕ :=
  countProblem (diffOf diffs s).serviceProblems e

def countRecovered (diffs : List ServicesDiff) (s e : ℕ) : ℕ :=
  countProblem (diffOf diffs s).serviceProblemsRecovered e

variable {f : ServicesDiff → ServicesDiff}

variable (hf : ∀ diff, (f diff).serviceid = diff.serviceid)

include hf

theorem map_updateDiff :
    (updateDiff new f diffs).map (·.serviceid) =
      if new.serviceid ∈ diffs.map (·.serviceid) then diffs.map (·.serviceid)
      else diffs.map (·.serviceid) ++ [new.serviceid] := by
  induction diffs with
  | nil => simp [updateDiff, hf]
  | cons diff diffs ih =>
    unfold updateDiff
    by_cases h : diff.serviceid = new.serviceid
    · rw [if_pos h, if_pos (by simp [h])]
      simp [hf]
    · rw [if_neg h, map_cons, ih, map_cons]
      by_cases hmem : new.serviceid ∈ diffs.map (·.serviceid)
      · rw [if_pos hmem, if_pos (mem_cons_of_mem _ hmem)]
      · rw [if_neg hmem, if_neg (by simp [Ne.symm h, hmem]), cons_append]

theorem nodup_updateDiff (h : (diffs.map (·.serviceid)).Nodup)
    : ((updateDiff new f diffs).map (·.serviceid)).Nodup := by
  rw [map_updateDiff hf]
  split
  · exact h
  · next hnew => exact nodup_append'.mpr ⟨h, by simp, by simpa using hnew⟩

theorem find?_updateDiff (s : ℕ) :
    (updateDiff new f diffs).find? (·.serviceid = s) =
      if s = new.serviceid then some (f ((diffs.find? (·.serviceid = s)).getD new))
      else diffs.find? (·.serviceid = s) := by
  induction diffs with
  | nil =>
    by_cases hs : s = new.serviceid
    · simp [updateDiff, hf, hs]
    · simp [updateDiff, hf, hs, Ne.symm hs]
  | cons diff diffs ih =>
    unfold updateDiff
    by_cases h : diff.serviceid = new.serviceid
    · by_cases hs : s = new.serviceid
      · simp [h, hs, hf]
      · simp [h, hs, hf, Ne.symm hs]
    · by_cases hd : diff.serviceid = s
      · have hs : s ≠ new.serviceid := fun hs => h (hd.trans hs)
        simp [hd, hs]
      · rw [if_neg h, List.find?_cons_of_neg (by simpa using hd), ih,
          List.find?_cons_of_neg (by simpa using hd)]

omit hf

theorem mem_updateDiff (h : diff ∈ updateDiff new f diffs) :
    diff ∈ diffs ∨ diff = f new ∨ ∃ old ∈ diffs, diff = f old := by
  induction diffs with
  | nil =>
    rw [updateDiff, mem_singleton] at h
    exact .inr (.inl h)
  | cons first diffs ih =>
    unfold updateDiff at h
    split at h
    · rcases mem_cons.mp h with rfl | h
      · exact .inr (.inr ⟨first, by simp, rfl⟩)
      · exact .inl (mem_cons_of_mem _ h)
    · rcases mem_cons.mp h with rfl | h
      · exact .inl (by simp)
      · rcases ih h with h | h | ⟨old, hold, h⟩
        · exact .inl (mem_cons_of_mem _ h)
        · exact .inr (.inl h)
        · exact .inr (.inr ⟨old, mem_cons_of_mem _ hold, h⟩)

theorem diffOf_updateDiff (f : ServicesDiff → ServicesDiff)
    (hf : ∀ diff, (f diff).serviceid = diff.serviceid) (s : ℕ) :
    diffOf (updateDiff new f diffs) s =
      if s = new.serviceid then f ((diffs.find? (·.serviceid = s)).getD new)
      else diffOf diffs s := by
  rw [diffOf, find?_updateDiff hf]
  split_ifs
  · rfl
  · rfl

theorem getD_emptyDiff (recalculate recalculateSuppress : Bool) (s s' : ℕ) :
    ((diffs.find? (·.serviceid = s)).getD
        (emptyDiff recalculate recalculateSuppress s')).serviceProblems =
        (diffOf diffs s).serviceProblems ∧
      ((diffs.find? (·.serviceid = s)).getD
        (emptyDiff recalculate recalculateSuppress s')).serviceProblemsRecovered =
        (diffOf diffs s).serviceProblemsRecovered := by
  unfold diffOf
  cases diffs.find? (·.serviceid = s) with
  | none => exact ⟨rfl, rfl⟩
  | some diff => exact ⟨rfl, rfl⟩

variable {recalculate : Bool} {services : List ℕ}

theorem count_foldl {f : List ServicesDiff → ℕ}
    {add : List ServicesDiff → ℕ → List ServicesDiff} (hadd : ∀ diffs first,
      f (add diffs first) = f diffs + if event.eventid = e ∧ first = s then 1 else 0) :
    f (services.foldl add diffs) = f diffs + if event.eventid = e then services.count s else 0 := by
  induction services generalizing diffs with
  | nil => simp
  | cons first services ih =>
    rw [foldl_cons, ih, hadd, count_cons, add_assoc]
    by_cases he : event.eventid = e
    · simp only [he, true_and, if_true, beq_iff_eq]
      rw [add_comm (List.count s services)]
    · simp [he]

theorem countNew_foldl_addMatch :
    countNew (services.foldl (addMatch event recalculate) diffs) s e =
      countNew diffs s e + if event.eventid = e then services.count s else 0 := by
  refine count_foldl (f := (countNew · s e)) fun diffs first => ?_
  rw [countNew, addMatch, diffOf_updateDiff (.addProblem event) fun _ => rfl]
  by_cases hs : first = s
  · subst hs
    rw [if_pos (by rfl), ServicesDiff.addProblem, (getD_emptyDiff _ _ _ _).1, countProblem_append,
      countProblem_singleton, countNew]
    simp
  · rw [if_neg (by exact Ne.symm hs)]
    simp [hs, countNew]

theorem countRecovered_foldl_addMatch :
    countRecovered (services.foldl (addMatch event recalculate) diffs) s e =
      countRecovered diffs s e := by
  induction services generalizing diffs with
  | nil => rfl
  | cons first services ih =>
    rw [foldl_cons, ih, countRecovered, addMatch,
      diffOf_updateDiff (.addProblem event) fun _ => rfl]
    split
    · exact congrArg (countProblem · e) (getD_emptyDiff _ _ _ _).2
    · rfl

theorem countRecovered_foldl_addRecovered :
    countRecovered (services.foldl (addRecovered event) diffs) s e =
      countRecovered diffs s e + if event.eventid = e then services.count s else 0 := by
  refine count_foldl (f := (countRecovered · s e)) fun diffs first => ?_
  rw [countRecovered, addRecovered, diffOf_updateDiff (.addRecovered event) fun _ => rfl]
  by_cases hs : first = s
  · subst hs
    rw [if_pos (by rfl), ServicesDiff.addRecovered, (getD_emptyDiff _ _ _ _).2, countProblem_append,
      countProblem_singleton, countRecovered]
    simp
  · rw [if_neg (by exact Ne.symm hs)]
    simp [hs, countRecovered]

theorem countNew_foldl_addRecovered :
    countNew (services.foldl (addRecovered event) diffs) s e = countNew diffs s e := by
  induction services generalizing diffs with
  | nil => rfl
  | cons first services ih =>
    rw [foldl_cons, ih, countNew, addRecovered,
      diffOf_updateDiff (.addRecovered event) fun _ => rfl]
    split
    · exact congrArg (countProblem · e) (getD_emptyDiff _ _ _ _).1
    · rfl

theorem serviceid_of_find? (h : diffs.find? (·.serviceid = s) = some diff) :
    diff.serviceid = s := by
  have hid := List.find?_some h
  simpa using hid

theorem problemsAfter_diffOf (hdistinct : (diffs.map (·.serviceid)).Nodup) (hs : s ∈ g.serviceids) :
    (problemsAfter g lists diffs).serviceProblems s =
      (updateProblems lists (diffOf diffs s)).serviceProblems s := by
  unfold diffOf
  cases hfind : diffs.find? (·.serviceid = s) with
  | none =>
    refine problemsAfter_of_notMem fun diff hmem _ heq => ?_
    exact absurd (decide_eq_true heq) (List.find?_eq_none.mp hfind diff hmem)
  | some diff =>
    obtain rfl := serviceid_of_find? hfind
    exact problemsAfter_of_mem hdistinct (mem_of_find?_eq_some hfind) hs

theorem diffOf_serviceid (diffs : List ServicesDiff) (s : ℕ) : (diffOf diffs s).serviceid = s := by
  unfold diffOf
  cases hfind : diffs.find? (·.serviceid = s) with
  | none => rfl
  | some diff => exact serviceid_of_find? hfind

theorem count_problemsAfter (lists : ProblemLists) (hdistinct : (diffs.map (·.serviceid)).Nodup)
    (hs : s ∈ g.serviceids) (e : ℕ) :
    countProblem ((problemsAfter g lists diffs).serviceProblems s) e =
      (if (diffOf diffs s).full then 0 else countProblem (lists.serviceProblems s) e) +
        countNew diffs s e - countRecovered diffs s e := by
  have h := countProblem_updateProblems lists (diffOf diffs s) e
  rw [diffOf_serviceid] at h
  rw [problemsAfter_diffOf hdistinct hs, h, countNew, countRecovered]

theorem problemsAfter_unknown (hs : s ∉ g.serviceids) :
    (problemsAfter g lists diffs).serviceProblems s = lists.serviceProblems s :=
  problemsAfter_of_notMem fun _ _ hknown heq => hs (heq ▸ hknown)

def AllFull (full : Bool) (diffs : List ServicesDiff) : Prop := ∀ diff ∈ diffs, diff.full = full

theorem AllFull.updateDiff (h : AllFull full diffs)
    (hf : ∀ diff, diff.full = full → (f diff).full = full) (hnew : new.full = full) :
    AllFull full (updateDiff new f diffs) := by
  intro diff hdiff
  rcases mem_updateDiff hdiff with hdiff | rfl | ⟨old, hold, rfl⟩
  · exact h diff hdiff
  · exact hf new hnew
  · exact hf old (h old hold)

theorem full_diffOf (h : AllFull full diffs) (s : ℕ) :
    (diffOf diffs s).full = (full && diffs.any (·.serviceid = s)) := by
  unfold diffOf
  cases hfind : diffs.find? (·.serviceid = s) with
  | none =>
    have hany : diffs.any (·.serviceid = s) = false := by
      rw [any_eq_false]
      exact List.find?_eq_none.mp hfind
    rw [hany, Bool.and_false]
    rfl
  | some diff =>
    have hany : diffs.any (·.serviceid = s) = true :=
      any_eq_true.mpr ⟨diff, mem_of_find?_eq_some hfind,
        decide_eq_true (serviceid_of_find? hfind)⟩
    rw [hany, Bool.and_true]
    exact h diff (mem_of_find?_eq_some hfind)

theorem foldl_addMatch_nodup (h : (diffs.map (·.serviceid)).Nodup) :
    ((services.foldl (addMatch event recalculate) diffs).map (·.serviceid)).Nodup := by
  induction services generalizing diffs with
  | nil => exact h
  | cons first services ih => exact ih (nodup_updateDiff (fun _ => rfl) h)

theorem foldl_addRecovered_nodup (h : (diffs.map (·.serviceid)).Nodup) :
    ((services.foldl (addRecovered event) diffs).map (·.serviceid)).Nodup := by
  induction services generalizing diffs with
  | nil => exact h
  | cons first services ih => exact ih (nodup_updateDiff (fun _ => rfl) h)

theorem AllFull.foldl_addMatch (h : AllFull recalculate diffs) :
    AllFull recalculate (services.foldl (addMatch event recalculate) diffs) := by
  induction services generalizing diffs with
  | nil => exact h
  | cons first services ih => exact ih (h.updateDiff (fun _ hfull => hfull) (Bool.and_true recalculate))

theorem AllFull.foldl_addRecovered (h : AllFull false diffs) :
    AllFull false (services.foldl (addRecovered event) diffs) := by
  induction services generalizing diffs with
  | nil => exact h
  | cons first services ih => exact ih (h.updateDiff (fun _ hfull => hfull) rfl)

theorem serviceid_of_mem_foldl_addMatch
    (h : diff ∈ services.foldl (addMatch event recalculate) diffs) :
    diff.serviceid ∈ diffs.map (·.serviceid) ∨ diff.serviceid ∈ services := by
  induction services generalizing diffs with
  | nil => exact .inl (mem_map_of_mem h)
  | cons first services ih =>
    rcases ih h with hmem | hmem
    · rw [addMatch, map_updateDiff (f := .addProblem event) fun _ => rfl] at hmem
      split at hmem
      · exact .inl hmem
      · rcases mem_append.mp hmem with hmem | hmem
        · exact .inl hmem
        · exact .inr (mem_cons.mpr (.inl (mem_singleton.mp hmem)))
    · exact .inr (mem_cons_of_mem _ hmem)

theorem counts_updateDiff (diffs : List ServicesDiff)
    (hf : ∀ diff, (f diff).serviceid = diff.serviceid)
    (hnew : ∀ diff, (f diff).serviceProblems = diff.serviceProblems)
    (hrecovered : ∀ diff, (f diff).serviceProblemsRecovered = diff.serviceProblemsRecovered)
    (recalculate recalculateSuppress : Bool) (first s e : ℕ) :
    countNew (updateDiff (emptyDiff recalculate recalculateSuppress first) f diffs) s e =
        countNew diffs s e ∧
      countRecovered (updateDiff (emptyDiff recalculate recalculateSuppress first) f diffs) s e =
        countRecovered diffs s e := by
  unfold countNew countRecovered
  rw [diffOf_updateDiff f hf]
  split
  · rw [hnew, hrecovered, (getD_emptyDiff _ _ _ _).1, (getD_emptyDiff _ _ _ _).2]
    exact ⟨rfl, rfl⟩
  · exact ⟨rfl, rfl⟩

end Zabbix.Services
