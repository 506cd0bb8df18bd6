import Mathlib.Order.WellFoundedSet

/-!
# Recomputing the nodes of a network

The value of a node is computed from the values of its inputs. When the value of a node changes, its
dependents are recomputed one after the other, each with its own dependents.
-/

namespace Zabbix.Recompute

open List Function

variable {ν β : Type*}

structure Network (ν β : Type*) where
  compute : (ν → β) → ν → β
  dependents : ν → List ν
  compute_congr : ∀ {f g : ν → β} {x : ν}, (∀ y, x ∈ dependents y → f y = g y) →
    compute f x = compute g x

def Settled (net : Network ν β) (pending : Set ν) (value : ν → β) : Prop :=
  ∀ x ∉ pending, value x = net.compute value x

variable {net : Network ν β} {pending pending' : Set ν} {value value' : ν → β} {x : ν}

theorem Settled.mono (h : Settled net pending value) (hsub : pending ⊆ pending') :
    Settled net pending' value :=
  fun x hx => h x fun hmem => hx (hsub hmem)

theorem foldlM_settled {step : (ν → β) → ν → Option (ν → β)}
    (hstep : ∀ {pending value value' x}, Settled net (insert x pending) value →
      step value x = some value' → Settled net pending value')
    {nodes : List ν} (h : Settled net (pending ∪ {y | y ∈ nodes}) value)
    (hfold : nodes.foldlM step value = some value') : Settled net pending value' := by
  induction nodes generalizing value with
  | nil =>
    obtain rfl : value = value' := by simpa using hfold
    exact h.mono (by simp)
  | cons node nodes ih =>
    rw [foldlM_cons] at hfold
    obtain ⟨mid, hmid, hrest⟩ := Option.bind_eq_some_iff.mp hfold
    refine ih (hstep (h.mono ?_) hmid) hrest
    intro y hy
    rcases hy with hy | hy
    · exact .inr (.inl hy)
    · rcases mem_cons.mp hy with rfl | hy
      · exact .inl rfl
      · exact .inr (.inr hy)

theorem foldlM_isSome (step : (ν → β) → ν → Option (ν → β)) {nodes : List ν}
    (hstep : ∀ y ∈ nodes, ∀ value, (step value y).isSome) (value : ν → β) :
    (nodes.foldlM step value).isSome := by
  induction nodes generalizing value with
  | nil => rfl
  | cons node nodes ih =>
    obtain ⟨hnode, hnodes⟩ := forall_mem_cons.mp hstep
    obtain ⟨mid, hmid⟩ := Option.isSome_iff_exists.mp (hnode value)
    rw [foldlM_cons, hmid]
    exact ih hnodes mid

section Refresh

variable [DecidableEq ν] [DecidableEq β]

variable (net) in
def refresh (always : Bool) : ℕ → ν → (ν → β) → Option (ν → β)
  | 0, _, _ => none
  | fuel + 1, x, value =>
    if value x ≠ net.compute value x then
      (net.dependents x).foldlM (fun value y => refresh always fuel y value)
        (Function.update value x (net.compute value x))
    else if always then
      (net.dependents x).foldlM (fun value y => refresh always fuel y value) value
    else some value

variable {always : Bool} {fuel : ℕ}

omit [DecidableEq β] in
theorem Settled.update (h : Settled net (insert x pending) value) :
    Settled net (pending ∪ {y | y ∈ net.dependents x})
      (Function.update value x (net.compute value x)) := by
  intro z hz
  rw [Set.mem_union, not_or] at hz
  have hsame : net.compute (Function.update value x (net.compute value x)) z =
      net.compute value z := by
    refine net.compute_congr fun y hy => ?_
    have hne : y ≠ x := fun heq => hz.2 (heq ▸ hy)
    exact update_of_ne hne _ _
  rw [hsame]
  by_cases hzx : z = x
  · rw [hzx, update_self]
  · rw [update_of_ne hzx]
    exact h z fun hmem => (Set.mem_insert_iff.mp hmem).elim hzx hz.1

theorem refresh_settled (h : Settled net (insert x pending) value)
    (hrefresh : refresh net always fuel x value = some value') : Settled net pending value' := by
  induction fuel generalizing pending value value' x with
  | zero => cases hrefresh
  | succ fuel ih =>
    have hdependents {value : ν → β}
        (h : Settled net (pending ∪ {y | y ∈ net.dependents x}) value)
        (hfold : (net.dependents x).foldlM (fun value y => refresh net always fuel y value)
          value = some value') : Settled net pending value' :=
      foldlM_settled (fun h hstep => ih h hstep) h hfold
    rw [refresh] at hrefresh
    split at hrefresh
    · exact hdependents h.update hrefresh
    · next hsame =>
      have hsettled : Settled net pending value := by
        intro z hz
        by_cases hzx : z = x
        · rw [hzx]
          exact not_not.mp hsame
        · exact h z fun hmem => (Set.mem_insert_iff.mp hmem).elim hzx hz
      split at hrefresh
      · exact hdependents (hsettled.mono Set.subset_union_left) hrefresh
      · obtain rfl := Option.some.inj hrefresh
        exact hsettled

omit [DecidableEq ν] [DecidableEq β] in
theorem exists_bound_of_forall {α : Type*} {P : α → ℕ → Prop} {nodes : List α}
    (h : ∀ y ∈ nodes, ∃ bound, ∀ fuel ≥ bound, P y fuel) :
    ∃ bound, ∀ y ∈ nodes, ∀ fuel ≥ bound, P y fuel := by
  induction nodes with
  | nil => exact ⟨0, by simp⟩
  | cons node nodes ih =>
    obtain ⟨hnode, hnodes⟩ := forall_mem_cons.mp h
    obtain ⟨n, hn⟩ := hnode
    obtain ⟨m, hm⟩ := ih hnodes
    refine ⟨max n m, forall_mem_cons.mpr ⟨fun fuel hfuel => ?_, fun y hy fuel hfuel => ?_⟩⟩
    · exact hn fuel (le_trans (le_max_left n m) hfuel)
    · exact hm y hy fuel (le_trans (le_max_right n m) hfuel)

variable (net) in
theorem refresh_isSome (hwf : WellFounded fun y x => y ∈ net.dependents x) (always : Bool) (x : ν) :
    ∃ bound, ∀ fuel ≥ bound, ∀ value, (refresh net always fuel x value).isSome := by
  induction x using hwf.induction with
  | _ x ih =>
    obtain ⟨bound, hbound⟩ := exists_bound_of_forall ih
    refine ⟨bound + 1, fun fuel hfuel value => ?_⟩
    obtain ⟨fuel, rfl⟩ : ∃ n, fuel = n + 1 := ⟨fuel - 1, by omega⟩
    have hdependents (value : ν → β) : ((net.dependents x).foldlM
        (fun value y => refresh net always fuel y value) value).isSome :=
      foldlM_isSome _ (fun y hy value => hbound y hy fuel (by omega) value) value
    rw [refresh]
    split
    · exact hdependents _
    · split
      · exact hdependents _
      · rfl

theorem refresh_frame {P : ν → Prop} (hclosed : ∀ x, P x → ∀ y ∈ net.dependents x, P y)
    (hx : P x) (hrefresh : refresh net always fuel x value = some value') {y : ν} (hy : ¬P y) :
    value' y = value y := by
  induction fuel generalizing value value' x with
  | zero => cases hrefresh
  | succ fuel ih =>
    have hdependents {nodes : List ν} {value : ν → β} (hnodes : ∀ z ∈ nodes, P z)
        (hfold : nodes.foldlM (fun value y => refresh net always fuel y value) value =
          some value') : value' y = value y := by
      induction nodes generalizing value with
      | nil => rw [show value = value' by simpa using hfold]
      | cons node nodes ihnodes =>
        obtain ⟨hnode, hnodes⟩ := forall_mem_cons.mp hnodes
        rw [foldlM_cons] at hfold
        obtain ⟨mid, hmid, hrest⟩ := Option.bind_eq_some_iff.mp hfold
        exact (ihnodes hnodes hrest).trans (ih hnode hmid)
    rw [refresh] at hrefresh
    split at hrefresh
    · refine (hdependents (hclosed x hx) hrefresh).trans (update_of_ne ?_ _ _)
      exact fun heq => hy (heq ▸ hx)
    · split at hrefresh
      · exact hdependents (hclosed x hx) hrefresh
      · rw [Option.some.inj hrefresh]

end Refresh

theorem Settled.unique (hwf : WellFounded fun y x => x ∈ net.dependents y)
    (h : Settled net pending value) (h' : Settled net pending value')
    (hpending : ∀ x ∈ pending, value x = value' x) : value = value' := by
  funext x
  induction x using hwf.induction with
  | _ x ih =>
    by_cases hx : x ∈ pending
    · exact hpending x hx
    · rw [h x hx, h' x hx]
      exact net.compute_congr ih

theorem wellFounded_of_acyclic {r : ν → ν → Prop} {nodes : Set ν} (hfinite : nodes.Finite)
    (hnodes : ∀ {x y}, r x y → x ∈ nodes ∧ y ∈ nodes)
    (hacyclic : ∀ x, ¬Relation.TransGen r x x) : WellFounded r := by
  have horder : IsStrictOrder ν (Relation.TransGen r) :=
    { irrefl := hacyclic, trans := fun _ _ _ => Relation.TransGen.trans }
  have hwf := Set.wellFoundedOn_iff.mp (hfinite.wellFoundedOn (r := Relation.TransGen r))
  exact Subrelation.wf (fun h => ⟨.single h, hnodes h⟩) hwf

end Zabbix.Recompute
