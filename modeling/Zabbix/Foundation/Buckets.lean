import Mathlib.Data.List.Perm.Basic

/-!
# Tables of buckets

A table is an array of buckets. Each entry has a place, the index of the bucket it belongs in.
-/

namespace Zabbix.Buckets

open List

variable {β : Type*} {place : β → ℕ} {slots slots' : List (List β)} {i t : ℕ}
  {bucket bucket' : List β} {x : β}

def AtHome (place : β → ℕ) (slots : List (List β)) (t : ℕ) : Prop :=
  ∀ bucket, slots[t]? = some bucket → ∀ x ∈ bucket, place x = t

def Placed (place : β → ℕ) (slots : List (List β)) : Prop := ∀ t, AtHome place slots t

theorem placed_replicate (n : ℕ) : Placed place (replicate n []) := by
  intro t bucket hbucket x hx
  rw [List.getElem?_replicate] at hbucket
  split at hbucket
  · obtain rfl := Option.some.inj hbucket
    cases hx
  · cases hbucket

theorem flatten_replicate (n : ℕ) : (replicate n ([] : List β)).flatten = [] := by simp

theorem exists_rest (h : slots[i]? = some bucket) :
    ∃ rest, slots.flatten.Perm (bucket ++ rest) ∧
      ∀ bucket', (slots.set i bucket').flatten.Perm (bucket' ++ rest) := by
  induction slots generalizing i with
  | nil => cases h
  | cons b slots ih =>
    cases i with
    | zero =>
      obtain rfl : b = bucket := by simpa using h
      exact ⟨slots.flatten, .refl _, fun _ => .refl _⟩
    | succ i =>
      obtain ⟨rest, hperm, hset⟩ := ih (show slots[i]? = some bucket by simpa using h)
      refine ⟨b ++ rest, ?_, fun bucket' => ?_⟩
      · exact (hperm.append_left b).trans (perm_append_comm_assoc _ _ _)
      · exact ((hset bucket').append_left b).trans (perm_append_comm_assoc _ _ _)

theorem mem_flatten_of_getElem? (h : slots[i]? = some bucket) (hx : x ∈ bucket) :
    x ∈ slots.flatten :=
  mem_flatten.mpr ⟨bucket, mem_of_getElem? h, hx⟩

theorem Placed.mem_bucket (h : Placed place slots) (hx : x ∈ slots.flatten)
    (hbucket : slots[place x]? = some bucket) : x ∈ bucket := by
  obtain ⟨other, hother, hmem⟩ := mem_flatten.mp hx
  obtain ⟨k, hk⟩ := mem_iff_getElem?.mp hother
  obtain rfl := h k other hk x hmem
  obtain rfl := Option.some.inj (hk.symm.trans hbucket)
  exact hmem

theorem AtHome.set (h : AtHome place slots t)
    (hbucket : i = t → ∀ x ∈ bucket, place x = t) : AtHome place (slots.set i bucket) t := by
  intro other hother x hx
  rw [List.getElem?_set] at hother
  split at hother
  · next hit =>
    split at hother
    · obtain rfl := Option.some.inj hother
      exact hbucket hit x hx
    · cases hother
  · exact h other hother x hx

theorem Placed.set (h : Placed place slots) (hbucket : ∀ x ∈ bucket, place x = i) :
    Placed place (slots.set i bucket) := by
  intro t
  exact (h t).set fun hit x hx => hit ▸ hbucket x hx

theorem perm_modify {f : List β → List β} (hi : i < slots.length)
    (hf : ∀ bucket, (f bucket).Perm (x :: bucket)) :
    (slots.modify i f).flatten.Perm (x :: slots.flatten) := by
  induction slots generalizing i with
  | nil => cases hi
  | cons b slots ih =>
    cases i with
    | zero => exact (hf b).append_right slots.flatten
    | succ i =>
      have htail := ih (i := i) (by simpa using hi)
      exact (htail.append_left b).trans perm_middle

theorem AtHome.modify {f : List β → List β} (h : AtHome place slots t) (hx : place x = i)
    (hf : ∀ bucket, (f bucket).Perm (x :: bucket)) : AtHome place (slots.modify i f) t := by
  intro bucket hbucket y hy
  rw [List.getElem?_modify] at hbucket
  obtain ⟨old, hold, rfl⟩ := Option.map_eq_some_iff.mp hbucket
  split at hy
  · next hit =>
    rcases mem_cons.mp ((hf old).mem_iff.mp hy) with rfl | hmem
    · exact hx.trans hit
    · exact h old hold y hmem
  · exact h old hold y hy

structure Settles (place : β → ℕ) (t : ℕ) (slots slots' : List (List β)) : Prop where
  length : slots'.length = slots.length
  perm : slots'.flatten.Perm slots.flatten
  home : AtHome place slots' t
  keeps : ∀ k, AtHome place slots k → AtHome place slots' k

theorem Settles.of_moved {kept : List β} (hlength : slots'.length = slots.length)
    (hbucket : slots'[t]? = some bucket) (hperm : (kept ++ slots'.flatten).Perm (bucket ++ slots.flatten))
    (hkept : ∀ x ∈ kept, place x = t)
    (hkeeps : ∀ k, k ≠ t → AtHome place slots k → AtHome place slots' k) :
    Settles place t slots (slots'.set t kept) := by
  obtain ⟨rest, hall, hset⟩ := exists_rest hbucket
  refine ⟨by rw [length_set, hlength], ?_, ?_, fun k hk => ?_⟩
  · have hmoved : (bucket ++ (kept ++ rest)).Perm (bucket ++ slots.flatten) :=
      ((perm_append_comm_assoc _ _ _).trans (hall.symm.append_left kept)).trans hperm
    exact (hset kept).trans ((perm_append_left_iff bucket).mp hmoved)
  · intro other hother x hx
    rw [List.getElem?_set_self (List.getElem?_eq_some_iff.mp hbucket).1] at hother
    obtain rfl := Option.some.inj hother
    exact hkept x hx
  · by_cases hkt : k = t
    · subst hkt
      intro other hother x hx
      rw [List.getElem?_set_self (List.getElem?_eq_some_iff.mp hbucket).1] at hother
      obtain rfl := Option.some.inj hother
      exact hkept x hx
    · exact (hkeeps k hkt hk).set fun htk => absurd htk.symm hkt

variable {m n : ℕ} {settle : ℕ → List (List β) → List (List β)}

theorem fold_settles
    (hsettle : ∀ t slots, t < m → slots.length = m → Settles place t slots (settle t slots))
    (hlength : slots.length = m) (hn : n ≤ m) :
    (n.fold (fun t _ slots => settle t slots) slots).length = m ∧
      (n.fold (fun t _ slots => settle t slots) slots).flatten.Perm slots.flatten ∧
      ∀ t, t < n ∨ AtHome place slots t →
        AtHome place (n.fold (fun t _ slots => settle t slots) slots) t := by
  induction n with
  | zero => exact ⟨hlength, .refl _, fun t ht => ht.resolve_left (Nat.not_lt_zero t)⟩
  | succ n ih =>
    obtain ⟨hlen, hperm, hhome⟩ := ih (Nat.le_of_succ_le hn)
    rw [Nat.fold_succ]
    have hstep := hsettle n _ hn hlen
    refine ⟨hstep.length.trans hlen, hstep.perm.trans hperm, fun t ht => ?_⟩
    by_cases htn : t = n
    · exact htn ▸ hstep.home
    · exact hstep.keeps t (hhome t (ht.imp_left fun hlt => by omega))

theorem fold_settles_placed
    (hsettle : ∀ t slots, t < m → slots.length = m → Settles place t slots (settle t slots))
    (hm : slots.length ≤ m) :
    let grown := slots ++ replicate (m - slots.length) []
    let slots' := slots.length.fold (fun t _ slots => settle t slots) grown
    slots'.length = m ∧ slots'.flatten.Perm slots.flatten ∧ Placed place slots' := by
  intro grown slots'
  have hlength : grown.length = m := by simp [grown]; omega
  obtain ⟨hlen, hperm, hhome⟩ := fold_settles hsettle hlength hm
  refine ⟨hlen, hperm.trans (by simp [grown]), fun t => hhome t ?_⟩
  by_cases ht : t < slots.length
  · exact .inl ht
  · right
    intro bucket hbucket x hx
    rw [List.getElem?_append_right (by omega), List.getElem?_replicate] at hbucket
    split at hbucket
    · obtain rfl := Option.some.inj hbucket
      cases hx
    · cases hbucket

end Zabbix.Buckets
