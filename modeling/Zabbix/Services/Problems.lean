import Zabbix.Services.Manager

/-!
# The problem lists under a diff

A diff changes the problem list of its own service only, and by that list only.
-/

namespace Zabbix.Services

open List Function Zabbix.Vector

variable {s s' i e : ℕ} {lists lists' : ProblemLists} {problem : ServiceProblem}
  {problems found recovered : List ServiceProblem} {diff : ServicesDiff}

theorem addServiceProblem_of_ne (h : s' ≠ s) :
    (addServiceProblem s lists problem).serviceProblems s' = lists.serviceProblems s' :=
  update_of_ne h _ _

theorem removeServiceProblem_of_ne (h : s' ≠ s) :
    (removeServiceProblem s i problem lists).serviceProblems s' = lists.serviceProblems s' :=
  update_of_ne h _ _

@[simp]
theorem addServiceProblem_self :
    (addServiceProblem s lists problem).serviceProblems s = lists.serviceProblems s ++ [problem] :=
  update_self ..

@[simp]
theorem removeServiceProblem_self :
    (removeServiceProblem s i problem lists).serviceProblems s =
      removeNoorder (lists.serviceProblems s) i :=
  update_self ..

theorem replaceProblems_done (fuel : ℕ) (h : (lists.serviceProblems s)[i]? = none) :
    replaceProblems s (fuel + 1) i lists found = (lists, found) := by
  rw [replaceProblems, h]

theorem replaceProblems_remove (fuel : ℕ) (h : (lists.serviceProblems s)[i]? = some problem)
    (hfound : searchProblem found problem.eventid = none) :
    replaceProblems s (fuel + 1) i lists found =
      replaceProblems s fuel i (removeServiceProblem s i problem lists) found := by
  simp only [replaceProblems, h, hfound]

theorem replaceProblems_keep (fuel : ℕ) {index : ℕ}
    (h : (lists.serviceProblems s)[i]? = some problem)
    (hfound : searchProblem found problem.eventid = some index) :
    replaceProblems s (fuel + 1) i lists found =
      replaceProblems s fuel (i + 1) lists (removeNoorder found index) := by
  simp only [replaceProblems, h, hfound]

theorem removeRecovered_cases (s : ℕ) (lists : ProblemLists) (problem : ServiceProblem) :
    (searchProblem (lists.serviceProblems s) problem.eventid = none ∧
        removeRecovered s lists problem = lists) ∨
      ∃ index found, searchProblem (lists.serviceProblems s) problem.eventid = some index ∧
        (lists.serviceProblems s)[index]? = some found ∧ found.eventid = problem.eventid ∧
        removeRecovered s lists problem = removeServiceProblem s index found lists := by
  unfold removeRecovered
  cases hsearch : searchProblem (lists.serviceProblems s) problem.eventid with
  | none => exact .inl ⟨rfl, rfl⟩
  | some index =>
    obtain ⟨hlt, hid, -⟩ := findIdx?_eq_some_iff_getElem.mp hsearch
    have hindex := List.getElem?_eq_getElem hlt
    refine .inr ⟨index, _, rfl, hindex, of_decide_eq_true hid, ?_⟩
    simp only [hindex]

/-- A property of the lists that adding and removing problems of a service keep. -/
structure Kept (s : ℕ) (p : ProblemLists → Prop) : Prop where
  add : ∀ lists problem, p lists → p (addServiceProblem s lists problem)
  remove : ∀ lists i problem, (lists.serviceProblems s)[i]? = some problem → p lists →
    p (removeServiceProblem s i problem lists)

variable {p : ProblemLists → Prop}

theorem Kept.replaceProblems (hp : Kept s p) (fuel i : ℕ) (h : p lists) :
    p (replaceProblems s fuel i lists found).1 := by
  induction fuel generalizing i lists found with
  | zero => exact h
  | succ fuel ih =>
    cases hi : (lists.serviceProblems s)[i]? with
    | none => rwa [replaceProblems_done fuel hi]
    | some problem =>
      cases hfound : searchProblem found problem.eventid with
      | none =>
        rw [replaceProblems_remove fuel hi hfound]
        exact ih i (hp.remove lists i problem hi h)
      | some index =>
        rw [replaceProblems_keep fuel hi hfound]
        exact ih (i + 1) h

theorem Kept.removeRecovered (hp : Kept s p) (h : p lists) :
    p (removeRecovered s lists problem) := by
  obtain ⟨-, hsame⟩ | ⟨index, found, -, hindex, -, hremove⟩ := removeRecovered_cases s lists problem
  · rwa [hsame]
  · rw [hremove]
    exact hp.remove lists index found hindex h

variable {step : ProblemLists → ServiceProblem → ProblemLists}

theorem Kept.foldl (hstep : ∀ {lists problem}, p lists → p (step lists problem)) (h : p lists) :
    p (problems.foldl step lists) := by
  induction problems generalizing lists with
  | nil => exact h
  | cons problem problems ih => exact ih (hstep h)

theorem Kept.updateProblems (hp : Kept diff.serviceid p) (h : p lists) :
    p (updateProblems lists diff) := by
  have hreplaced : p (replaceByDiff lists diff).1 := by
    unfold replaceByDiff
    split
    · exact hp.replaceProblems _ _ h
    · exact h
  exact Kept.foldl hp.removeRecovered (Kept.foldl (fun h => hp.add _ _ h) hreplaced)

theorem updateProblems_of_ne (h : s' ≠ diff.serviceid) :
    (updateProblems lists diff).serviceProblems s' = lists.serviceProblems s' := by
  have hkept : Kept diff.serviceid fun now =>
      now.serviceProblems s' = lists.serviceProblems s' :=
    { add := fun _ _ hnow => (addServiceProblem_of_ne h).trans hnow
      remove := fun _ _ _ _ hnow => (removeServiceProblem_of_ne h).trans hnow }
  exact hkept.updateProblems rfl

theorem replaceProblems_congr (fuel i : ℕ) (found : List ServiceProblem)
    (h : lists.serviceProblems s = lists'.serviceProblems s) :
    (replaceProblems s fuel i lists found).1.serviceProblems s =
        (replaceProblems s fuel i lists' found).1.serviceProblems s ∧
      (replaceProblems s fuel i lists found).2 = (replaceProblems s fuel i lists' found).2 := by
  induction fuel generalizing i lists lists' found with
  | zero => exact ⟨h, rfl⟩
  | succ fuel ih =>
    cases hi : (lists.serviceProblems s)[i]? with
    | none =>
      rw [replaceProblems_done fuel hi, replaceProblems_done fuel (h ▸ hi)]
      exact ⟨h, rfl⟩
    | some problem =>
      cases hfound : searchProblem found problem.eventid with
      | none =>
        rw [replaceProblems_remove fuel hi hfound, replaceProblems_remove fuel (h ▸ hi) hfound]
        exact ih i found (by simp [h])
      | some index =>
        rw [replaceProblems_keep fuel hi hfound, replaceProblems_keep fuel (h ▸ hi) hfound]
        exact ih (i + 1) _ h

theorem foldl_congr_at
    (hstep : ∀ {lists lists' problem}, lists.serviceProblems s = lists'.serviceProblems s →
      (step lists problem).serviceProblems s = (step lists' problem).serviceProblems s)
    (h : lists.serviceProblems s = lists'.serviceProblems s) :
    (problems.foldl step lists).serviceProblems s =
      (problems.foldl step lists').serviceProblems s := by
  induction problems generalizing lists lists' with
  | nil => exact h
  | cons problem problems ih => exact ih (hstep h)

theorem removeRecovered_congr (h : lists.serviceProblems s = lists'.serviceProblems s) :
    (removeRecovered s lists problem).serviceProblems s =
      (removeRecovered s lists' problem).serviceProblems s := by
  obtain ⟨hnone, hsame⟩ | ⟨index, found, hsome, hindex, -, hremove⟩ :=
    removeRecovered_cases s lists problem
  · obtain ⟨-, hsame'⟩ | ⟨index, found, hsome, -⟩ := removeRecovered_cases s lists' problem
    · rw [hsame, hsame', h]
    · rw [h, hsome] at hnone
      cases hnone
  · obtain ⟨hnone, -⟩ | ⟨index', found', hsome', -, -, hremove'⟩ :=
      removeRecovered_cases s lists' problem
    · rw [h, hnone] at hsome
      cases hsome
    · rw [h, hsome'] at hsome
      obtain rfl := Option.some.inj hsome
      rw [hremove, hremove', removeServiceProblem_self, removeServiceProblem_self, h]

theorem updateProblems_congr
    (h : lists.serviceProblems diff.serviceid = lists'.serviceProblems diff.serviceid) :
    (updateProblems lists diff).serviceProblems diff.serviceid =
      (updateProblems lists' diff).serviceProblems diff.serviceid := by
  have hreplaced : (replaceByDiff lists diff).1.serviceProblems diff.serviceid =
        (replaceByDiff lists' diff).1.serviceProblems diff.serviceid ∧
      (replaceByDiff lists diff).2 = (replaceByDiff lists' diff).2 := by
    unfold replaceByDiff
    rw [h]
    split
    · exact replaceProblems_congr _ _ _ h
    · exact ⟨h, rfl⟩
  unfold updateProblems
  simp only [hreplaced.2]
  exact foldl_congr_at removeRecovered_congr (foldl_congr_at (fun h => by simp [h]) hreplaced.1)

def countProblem (problems : List ServiceProblem) (e : ℕ) : ℕ :=
  problems.countP fun problem => problem.eventid = e

@[simp]
theorem countProblem_nil : countProblem [] e = 0 := rfl

theorem countProblem_append (problems problems' : List ServiceProblem) :
    countProblem (problems ++ problems') e = countProblem problems e + countProblem problems' e :=
  countP_append ..

theorem countProblem_singleton :
    countProblem [problem] e = if problem.eventid = e then 1 else 0 := by
  simp [countProblem, countP_cons]

theorem countProblem_removeNoorder (h : problems[i]? = some problem) :
    countProblem (removeNoorder problems i) e + (if problem.eventid = e then 1 else 0) =
      countProblem problems e := by
  unfold countProblem
  rw [(perm_removeNoorder h).countP_eq, countP_cons]
  simp

theorem countProblem_eq_zero (h : searchProblem problems e = none) :
    countProblem problems e = 0 := by
  rw [searchProblem, findIdx?_eq_none_iff] at h
  exact countP_eq_zero.mpr fun problem hproblem => by simpa using h problem hproblem

theorem countProblem_replaceProblems (lists : ProblemLists) (fuel i : ℕ)
    (found : List ServiceProblem) (hfuel : (lists.serviceProblems s).length ≤ fuel + i) :
    countProblem ((replaceProblems s fuel i lists found).1.serviceProblems s) e +
        countProblem (replaceProblems s fuel i lists found).2 e =
      countProblem ((lists.serviceProblems s).take i) e + countProblem found e := by
  induction fuel generalizing i lists found with
  | zero => rw [replaceProblems, take_of_length_le (by omega)]
  | succ fuel ih =>
    cases hi : (lists.serviceProblems s)[i]? with
    | none => rw [replaceProblems_done fuel hi, take_of_length_le (List.getElem?_eq_none_iff.mp hi)]
    | some problem =>
      cases hfound : searchProblem found problem.eventid with
      | none =>
        have hlength := length_removeNoorder hi
        rw [replaceProblems_remove fuel hi hfound, ih _ i found (by simp; omega),
          removeServiceProblem_self, take_removeNoorder hi]
      | some index =>
        obtain ⟨hlt, hid, -⟩ := findIdx?_eq_some_iff_getElem.mp hfound
        have hcount := countProblem_removeNoorder (e := e) (List.getElem?_eq_getElem hlt)
        rw [of_decide_eq_true hid] at hcount
        rw [replaceProblems_keep fuel hi hfound, ih _ (i + 1) _ (by omega), take_add_one, hi,
          Option.toList_some, countProblem_append, countProblem_singleton, add_assoc, ← hcount]
        omega

theorem countProblem_foldl_add :
    countProblem ((problems.foldl (addServiceProblem s) lists).serviceProblems s) e =
      countProblem (lists.serviceProblems s) e + countProblem problems e := by
  induction problems generalizing lists with
  | nil => rfl
  | cons problem problems ih =>
    rw [foldl_cons, ih, addServiceProblem_self, countProblem_append, add_assoc,
      ← countProblem_append, singleton_append]

theorem countProblem_foldl_removeRecovered :
    countProblem ((recovered.foldl (removeRecovered s) lists).serviceProblems s) e =
      countProblem (lists.serviceProblems s) e - countProblem recovered e := by
  induction recovered generalizing lists with
  | nil => rfl
  | cons problem recovered ih =>
    have hcons : countProblem (problem :: recovered) e =
        (if problem.eventid = e then 1 else 0) + countProblem recovered e := by
      rw [← singleton_append, countProblem_append, countProblem_singleton]
    rw [foldl_cons, ih, hcons]
    obtain ⟨hnone, hsame⟩ | ⟨index, found, -, hindex, hid, hremove⟩ :=
      removeRecovered_cases s lists problem
    · rw [hsame]
      split
      · next heq =>
        rw [← heq, countProblem_eq_zero hnone]
        omega
      · omega
    · have hcount := countProblem_removeNoorder (e := e) hindex
      rw [hid] at hcount
      rw [hremove, removeServiceProblem_self]
      omega

def ServicesDiff.full (diff : ServicesDiff) : Bool :=
  diff.recalculate && !diff.recalculateSuppress

theorem countProblem_updateProblems (lists : ProblemLists) (diff : ServicesDiff) (e : ℕ) :
    countProblem ((updateProblems lists diff).serviceProblems diff.serviceid) e =
      (if diff.full then 0 else countProblem (lists.serviceProblems diff.serviceid) e) +
        countProblem diff.serviceProblems e - countProblem diff.serviceProblemsRecovered e := by
  rw [updateProblems, countProblem_foldl_removeRecovered, countProblem_foldl_add]
  unfold replaceByDiff
  cases hfull : diff.recalculate && !diff.recalculateSuppress with
  | true =>
    have hfull : diff.full = true := hfull
    rw [if_pos rfl, countProblem_replaceProblems _ _ _ _ (by omega), hfull]
    rfl
  | false =>
    have hfull : diff.full = false := hfull
    simp [hfull]

def ProblemLists.Indexed (lists : ProblemLists) : Prop :=
  ∀ e s, (lists.serviceProblemsIndex e).count s = countProblem (lists.serviceProblems s) e

theorem indexed_addServiceProblem (h : lists.Indexed) (s : ℕ) (problem : ServiceProblem) :
    (addServiceProblem s lists problem).Indexed := by
  intro e s'
  have hbefore := h e s'
  unfold addServiceProblem
  by_cases hs : s' = s
  · subst hs
    by_cases he : e = problem.eventid
    · subst he
      simp [countProblem_append, countProblem_singleton, hbefore]
    · simp [update_of_ne he, countProblem_append, countProblem_singleton, hbefore, Ne.symm he]
  · by_cases he : e = problem.eventid
    · subst he
      simp [update_of_ne hs, hbefore, Ne.symm hs]
    · simp [update_of_ne he, update_of_ne hs, hbefore]

theorem indexed_removeServiceProblem (h : lists.Indexed)
    (hi : (lists.serviceProblems s)[i]? = some problem) :
    (removeServiceProblem s i problem lists).Indexed := by
  have hcount := countProblem_removeNoorder (e := problem.eventid) hi
  rw [if_pos rfl] at hcount
  have hmem : s ∈ lists.serviceProblemsIndex problem.eventid := by
    rw [← count_pos_iff, h]
    omega
  obtain ⟨index, hindex⟩ : ∃ index,
      (lists.serviceProblemsIndex problem.eventid).findIdx? (· = s) = some index := by
    refine Option.isSome_iff_exists.mp (findIdx?_isSome.trans (any_eq_true.mpr ?_))
    exact ⟨s, hmem, decide_eq_true rfl⟩
  obtain ⟨hlt, hself, -⟩ := findIdx?_eq_some_iff_getElem.mp hindex
  have hself := of_decide_eq_true hself
  have hperm := perm_removeNoorder (List.getElem?_eq_getElem hlt)
  rw [hself] at hperm
  intro e s'
  have hbefore := h e s'
  have hlist := countProblem_removeNoorder (e := e) hi
  simp only [removeServiceProblem, hindex]
  by_cases he : e = problem.eventid
  · subst he
    rw [update_self]
    rw [hperm.count_eq, count_cons] at hbefore
    by_cases hs : s' = s
    · subst hs
      simp only [update_self]
      simp at hbefore hlist
      omega
    · rw [update_of_ne hs, ← hbefore]
      simp [Ne.symm hs]
  · rw [update_of_ne he]
    by_cases hs : s' = s
    · subst hs
      rw [if_neg (Ne.symm he)] at hlist
      rw [update_self, hbefore, ← hlist, add_zero]
    · rw [update_of_ne hs, hbefore]

theorem kept_indexed (s : ℕ) : Kept s ProblemLists.Indexed where
  add _ problem h := indexed_addServiceProblem h s problem
  remove _ _ _ hi h := indexed_removeServiceProblem h hi

section ProblemsAfter

variable {g : Graph} {diffs diffs' : List ServicesDiff}

def problemsAfter (g : Graph) (lists : ProblemLists) (diffs : List ServicesDiff) : ProblemLists :=
  diffs.foldl (fun lists diff =>
    if diff.serviceid ∈ g.serviceids then updateProblems lists diff else lists) lists

theorem problemsAfter_of_notMem {lists : ProblemLists}
    (h : ∀ diff ∈ diffs, diff.serviceid ∈ g.serviceids → diff.serviceid ≠ s) :
    (problemsAfter g lists diffs).serviceProblems s = lists.serviceProblems s := by
  induction diffs generalizing lists with
  | nil => rfl
  | cons diff diffs ih =>
    obtain ⟨hdiff, hdiffs⟩ := forall_mem_cons.mp h
    rw [problemsAfter, foldl_cons]
    refine (ih hdiffs).trans ?_
    split
    · next hknown => exact updateProblems_of_ne (hdiff hknown).symm
    · rfl

theorem problemsAfter_of_mem {lists : ProblemLists} (hdistinct : (diffs.map (·.serviceid)).Nodup)
    (hmem : diff ∈ diffs) (hknown : diff.serviceid ∈ g.serviceids) :
    (problemsAfter g lists diffs).serviceProblems diff.serviceid =
      (updateProblems lists diff).serviceProblems diff.serviceid := by
  induction diffs generalizing lists with
  | nil => cases hmem
  | cons first diffs ih =>
    rw [map_cons, nodup_cons] at hdistinct
    rw [problemsAfter, foldl_cons]
    rcases mem_cons.mp hmem with rfl | hmem
    · rw [if_pos hknown]
      refine problemsAfter_of_notMem fun other hother _ heq => hdistinct.1 ?_
      exact heq ▸ mem_map_of_mem hother
    · have hne : diff.serviceid ≠ first.serviceid :=
        fun heq => hdistinct.1 (heq ▸ mem_map_of_mem hmem)
      refine (ih hdistinct.2 hmem).trans (updateProblems_congr ?_)
      split
      · exact updateProblems_of_ne hne
      · rfl

theorem problemsAfter_perm {lists : ProblemLists} (hdistinct : (diffs.map (·.serviceid)).Nodup)
    (hperm : diffs'.Perm diffs) (s : ℕ) :
    (problemsAfter g lists diffs').serviceProblems s =
      (problemsAfter g lists diffs).serviceProblems s := by
  have hdistinct' : (diffs'.map (·.serviceid)).Nodup := (hperm.map _).nodup_iff.mpr hdistinct
  by_cases h : ∃ diff ∈ diffs, diff.serviceid ∈ g.serviceids ∧ diff.serviceid = s
  · obtain ⟨diff, hmem, hknown, rfl⟩ := h
    rw [problemsAfter_of_mem hdistinct hmem hknown,
      problemsAfter_of_mem hdistinct' (hperm.mem_iff.mpr hmem) hknown]
  · simp only [not_exists, not_and] at h
    rw [problemsAfter_of_notMem h, problemsAfter_of_notMem fun diff hmem =>
      h diff (hperm.mem_iff.mp hmem)]

theorem indexed_problemsAfter (h : lists.Indexed) : (problemsAfter g lists diffs).Indexed := by
  induction diffs generalizing lists with
  | nil => exact h
  | cons diff diffs ih =>
    rw [problemsAfter, foldl_cons]
    refine ih ?_
    split
    · exact (kept_indexed _).updateProblems h
    · exact h

end ProblemsAfter

end Zabbix.Services
