import Mathlib.Data.List.AList

/-!
# Tables with one entry per key

Hash tables whose keys are numbers.
-/

namespace Zabbix

open Option

abbrev Table (α : Type*) := AList fun _ : ℕ => α

namespace Table

variable {α σ : Type*} {k k' : ℕ} {v : α}

def modify (k : ℕ) (f : α → α) (t : Table α) : Table α :=
  match t.lookup k with
  | none => t
  | some v => t.insert k (f v)

theorem lookup_insert_eq (k k' : ℕ) (v : α) (t : Table α) :
    (t.insert k v).lookup k' = if k' = k then some v else t.lookup k' := by
  split
  · next h => rw [h, AList.lookup_insert]
  · next h => rw [AList.lookup_insert_ne h]

theorem lookup_erase_eq (k k' : ℕ) (t : Table α) :
    (t.erase k).lookup k' = if k' = k then none else t.lookup k' := by
  split
  · next h => rw [h, AList.lookup_erase]
  · next h => rw [AList.lookup_erase_ne h]

theorem lookup_modify_eq (k k' : ℕ) (f : α → α) (t : Table α) :
    (t.modify k f).lookup k' = if k' = k then (t.lookup k').map f else t.lookup k' := by
  cases h : t.lookup k with
  | none =>
    simp only [modify, h]
    split
    · next heq => rw [heq, h, map_none]
    · rfl
  | some v =>
    simp only [modify, h]
    rw [lookup_insert_eq]
    split
    · next heq => rw [heq, h, map_some]
    · rfl

theorem elim_modify {β : Type*} (k k' : ℕ) (f : α → α) (t : Table α) (b : β) (proj : α → β) :
    ((t.modify k f).lookup k').elim b proj =
      if k' = k then (t.lookup k').elim b (fun v => proj (f v)) else (t.lookup k').elim b proj := by
  rw [lookup_modify_eq]
  split
  · rw [elim_map, Function.comp_def]
  · rfl

theorem bind_modify {β : Type*} (k k' : ℕ) (f : α → α) (t : Table α) (proj : α → Option β) :
    ((t.modify k f).lookup k').bind proj =
      if k' = k then (t.lookup k').bind (fun v => proj (f v)) else (t.lookup k').bind proj := by
  rw [lookup_modify_eq]
  split
  · rw [bind_map, Function.comp_def]
  · rfl

theorem map_modify_of {β : Type*} {f : α → α} {proj : α → β} (hf : ∀ v, proj (f v) = proj v)
    (k k' : ℕ) (t : Table α) :
    ((t.modify k f).lookup k').map proj = (t.lookup k').map proj := by
  rw [lookup_modify_eq]
  split
  · rw [map_map]
    exact congrArg (Option.map · (t.lookup k')) (funext hf)
  · rfl

theorem isSome_modify (k k' : ℕ) (f : α → α) (t : Table α) :
    ((t.modify k f).lookup k').isSome = (t.lookup k').isSome := by
  rw [lookup_modify_eq]
  split
  · rw [isSome_map]
  · rfl

theorem lookup_modify_self (k : ℕ) (f : α → α) (t : Table α) :
    (t.modify k f).lookup k = (t.lookup k).map f := by
  rw [lookup_modify_eq, if_pos rfl]

theorem lookup_modify_of_ne (h : k' ≠ k) (f : α → α) (t : Table α) :
    (t.modify k f).lookup k' = t.lookup k' := by
  rw [lookup_modify_eq, if_neg h]

theorem modify_modify (k : ℕ) (f f' : α → α) (t : Table α) :
    (t.modify k f).modify k f' = t.modify k fun v => f' (f v) := by
  cases h : t.lookup k with
  | none => simp only [modify, h]
  | some v => simp only [modify, h, AList.lookup_insert, AList.insert_insert]

def insertAll (ks : List ℕ) (v : α) (t : Table α) : Table α :=
  ks.foldl (fun t k => t.insert k v) t

theorem lookup_insertAll (ks : List ℕ) (v : α) (t : Table α) :
    (t.insertAll ks v).lookup k = if k ∈ ks then some v else t.lookup k := by
  induction ks generalizing t with
  | nil => rfl
  | cons k' ks ih =>
    rw [insertAll, List.foldl_cons]
    show (Table.insertAll ks v (t.insert k' v)).lookup k = _
    rw [ih, lookup_insert_eq]
    by_cases hmem : k ∈ ks
    · simp [hmem]
    · simp [hmem]

def eraseAll (ks : List ℕ) (t : Table α) : Table α :=
  ks.foldl (fun t k => t.erase k) t

theorem lookup_eraseAll (ks : List ℕ) (t : Table α) :
    (t.eraseAll ks).lookup k = if k ∈ ks then none else t.lookup k := by
  induction ks generalizing t with
  | nil => rfl
  | cons k' ks ih =>
    rw [eraseAll, List.foldl_cons]
    show (Table.eraseAll ks (t.erase k')).lookup k = _
    rw [ih, lookup_erase_eq]
    by_cases hmem : k ∈ ks
    · simp [hmem]
    · simp [hmem]

theorem foldl_preserves {ι : Type*} {I : σ → Prop} {f : σ → ι → σ} {l : List ι}
    (h : ∀ s, ∀ i ∈ l, I s → I (f s i)) {s : σ} (hs : I s) : I (l.foldl f s) := by
  induction l generalizing s with
  | nil => exact hs
  | cons i l ih =>
    exact ih (fun s j hj => h s j (List.mem_cons_of_mem i hj)) (h s i List.mem_cons_self hs)

end Table

end Zabbix
