import Mathlib.Data.List.Nodup

/-!
# Rings of linked nodes

A ring is a cyclic doubly linked list: a root and the nodes that are met on the way back to it.
-/

namespace Zabbix

open List Function

variable {α : Type*}

/-- The links lead from `a` over the nodes to `b`, and back. -/
def Ring.Path (prev next : α → α) : α → List α → α → Prop
  | a, [], b => next a = b ∧ prev b = a
  | a, x :: l, b => (next a = x ∧ prev x = a) ∧ Ring.Path prev next x l b

def Ring (prev next : α → α) (r : α) (l : List α) : Prop := Ring.Path prev next r l r

namespace Ring

variable {prev next prev' next' : α → α} {a b r x : α} {l pre post : List α}

namespace Path

theorem append_iff :
    Path prev next a (pre ++ x :: post) b ↔ Path prev next a pre x ∧ Path prev next x post b := by
  induction pre generalizing a with
  | nil => rfl
  | cons y pre ih => simp only [cons_append, Path, ih, and_assoc]

theorem frame (h : Path prev next a l b) (hnext : ∀ y ∈ a :: l, next' y = next y)
    (hprev : ∀ y ∈ b :: l, prev' y = prev y) : Path prev' next' a l b := by
  induction l generalizing a with
  | nil => exact ⟨(hnext a mem_cons_self).trans h.1, (hprev b mem_cons_self).trans h.2⟩
  | cons x l ih =>
    obtain ⟨⟨ha, hx⟩, hrest⟩ := h
    obtain ⟨hb, hl⟩ := forall_mem_cons.mp hprev
    obtain ⟨hprevx, hl⟩ := forall_mem_cons.mp hl
    obtain ⟨hnexta, hnext⟩ := forall_mem_cons.mp hnext
    exact ⟨⟨hnexta.trans ha, hprevx.trans hx⟩, ih hrest hnext (forall_mem_cons.mpr ⟨hb, hl⟩)⟩

theorem next_eq (h : Path prev next a l b) : next a = l.headD b := by
  cases l with
  | nil => exact h.1
  | cons x l => exact h.1.1

theorem prev_eq (h : Path prev next a l b) : prev b = l.getLastD a := by
  induction l generalizing a with
  | nil => exact h.2
  | cons x l ih =>
    rw [ih h.2]
    cases l <;> rfl

end Path

theorem frame (h : Ring prev next r l) (hnext : ∀ y ∈ r :: l, next' y = next y)
    (hprev : ∀ y ∈ r :: l, prev' y = prev y) : Ring prev' next' r l :=
  Path.frame h hnext hprev

theorem nil (hnext : next r = r) (hprev : prev r = r) : Ring prev next r [] := ⟨hnext, hprev⟩

theorem next_eq (h : Ring prev next r (pre ++ x :: post)) : next x = post.headD r :=
  (Path.append_iff.mp h).2.next_eq

theorem prev_eq (h : Ring prev next r (pre ++ x :: post)) : prev x = pre.getLastD r :=
  (Path.append_iff.mp h).1.prev_eq

theorem next_root (h : Ring prev next r l) : next r = l.headD r := Path.next_eq h

theorem prev_root (h : Ring prev next r l) : prev r = l.getLastD r := Path.prev_eq h

theorem headD_mem (l : List α) (r : α) : l.headD r ∈ r :: l := by
  cases l with
  | nil => exact mem_cons_self
  | cons x l => exact mem_cons_of_mem r mem_cons_self

theorem next_mem (h : Ring prev next r l) (hx : x ∈ r :: l) : next x ∈ r :: l := by
  obtain rfl | hx := mem_cons.mp hx
  · exact h.next_root ▸ headD_mem l x
  · obtain ⟨pre, post, rfl⟩ := append_of_mem hx
    have hmem := headD_mem post r
    rw [h.next_eq]
    simp only [mem_cons, mem_append] at hmem ⊢
    tauto

theorem prev_mem (h : Ring prev next r l) (hx : x ∈ r :: l) : prev x ∈ r :: l := by
  obtain rfl | hx := mem_cons.mp hx
  · rw [h.prev_root]
    exact getLastD_mem_cons
  · obtain ⟨pre, post, rfl⟩ := append_of_mem hx
    have hmem : pre.getLastD r ∈ r :: pre := getLastD_mem_cons
    rw [h.prev_eq]
    simp only [mem_cons, mem_append] at hmem ⊢
    tauto

theorem prev_eq_next_iff (h : Ring prev next r (pre ++ x :: post))
    (hnodup : (r :: (pre ++ x :: post)).Nodup) : prev x = next x ↔ pre ++ post = [] := by
  rw [h.next_eq, h.prev_eq]
  have hlast : pre.getLastD r ∈ r :: pre := getLastD_mem_cons
  have hhead := headD_mem post r
  obtain ⟨hr, hnodup⟩ := nodup_cons.mp hnodup
  obtain ⟨-, -, hdisjoint⟩ := nodup_append.mp hnodup
  constructor
  · intro heq
    cases pre with
    | nil =>
      cases post with
      | nil => rfl
      | cons z post =>
        have hrz : r = z := heq
        simp [hrz] at hr
    | cons y pre =>
      have hmem : (y :: pre).getLastD r ∈ y :: pre := by
        rw [getLastD_cons]
        exact getLastD_mem_cons
      rw [heq] at hmem
      obtain heq | hpost := mem_cons.mp hhead
      · rw [heq] at hmem
        exact absurd (mem_append_left _ hmem) hr
      · exact absurd rfl (hdisjoint _ hmem _ (mem_cons_of_mem x hpost))
  · intro hnil
    obtain ⟨rfl, rfl⟩ := append_eq_nil_iff.mp hnil
    rfl

variable [DecidableEq α]

theorem Path.remove (h : Path prev next a (pre ++ x :: post) b)
    (hnodup : (a :: (pre ++ x :: post)).Nodup) (hb : b ∉ pre ++ x :: post) :
    Path (update prev (next x) (prev x)) (update next (prev x) (next x)) a
      (pre ++ post) b := by
  induction pre generalizing a with
  | nil =>
    obtain ⟨⟨ha, hx⟩, hpost⟩ := h
    obtain ⟨ha', hnodup⟩ := nodup_cons.mp hnodup
    obtain ⟨hx', hnodup⟩ := nodup_cons.mp hnodup
    rw [hx, nil_append]
    cases post with
    | nil =>
      refine ⟨(update_self ..).trans hpost.1, ?_⟩
      rw [hpost.1, update_self]
    | cons y post =>
      obtain ⟨⟨hxy, hyx⟩, hpost⟩ := hpost
      obtain ⟨hy, -⟩ := nodup_cons.mp hnodup
      refine ⟨⟨(update_self ..).trans hxy, ?_⟩, hpost.frame (fun z hz => ?_) fun z hz => ?_⟩
      · rw [hxy, update_self]
      · refine update_of_ne ?_ _ _
        intro heq
        exact ha' (heq ▸ mem_cons_of_mem x hz)
      · refine update_of_ne ?_ _ _
        intro heq
        rw [hxy] at heq
        obtain hzb | hz := mem_cons.mp hz
        · exact hb (by simp [← hzb, heq])
        · exact hy (heq ▸ hz)
  | cons y pre ih =>
    obtain ⟨⟨ha, hy⟩, hrest⟩ := h
    obtain ⟨ha', hnodup⟩ := nodup_cons.mp hnodup
    have hrest' := ih hrest hnodup fun hmem => hb (mem_cons_of_mem y hmem)
    obtain ⟨hfront, hback⟩ := append_iff.mp hrest
    have hlast : pre.getLastD y ∈ y :: pre := getLastD_mem_cons
    have hhead := headD_mem post b
    refine ⟨⟨?_, ?_⟩, hrest'⟩
    · refine (update_of_ne ?_ _ _).trans ha
      intro heq
      rw [hfront.prev_eq] at heq
      refine ha' (heq ▸ ?_)
      simp only [mem_cons, mem_append] at hlast ⊢
      tauto
    · refine (update_of_ne ?_ _ _).trans hy
      intro heq
      rw [hback.next_eq] at heq
      rw [← heq] at hhead
      obtain hyb | hpost := mem_cons.mp hhead
      · exact hb (hyb ▸ mem_cons_self)
      · exact (nodup_cons.mp hnodup).1 (by simp [hpost])

theorem Path.insert (h : Path prev next a l b) (hx : x ∉ a :: l) (hxb : x ≠ b) (hb : b ∉ l)
    (hnodup : (a :: l).Nodup) :
    Path (update (update prev x (prev b)) b x)
      (update (update next x b) (prev b) x) a (l ++ [x]) b := by
  induction l generalizing a with
  | nil =>
    obtain ⟨-, hprev⟩ := h
    have hxa : x ≠ a := fun heq => hx (heq ▸ mem_cons_self)
    rw [hprev]
    refine ⟨⟨update_self .., ?_⟩, ?_, update_self ..⟩
    · rw [update_of_ne hxb, update_self]
    · rw [update_of_ne hxa, update_self]
  | cons y l ih =>
    obtain ⟨⟨ha, hy⟩, hrest⟩ := h
    obtain ⟨ha', hnodup⟩ := nodup_cons.mp hnodup
    obtain ⟨hxa, hxl⟩ := not_or.mp (mt mem_cons.mpr hx)
    obtain ⟨hby, hbl⟩ := not_or.mp (mt mem_cons.mpr hb)
    have hlast : l.getLastD y ∈ y :: l := getLastD_mem_cons
    refine ⟨⟨?_, ?_⟩, ih hrest hxl hbl hnodup⟩
    · rw [update_of_ne, update_of_ne (Ne.symm hxa), ha]
      intro heq
      rw [hrest.prev_eq] at heq
      exact ha' (heq ▸ hlast)
    · have hyx : y ≠ x := fun heq => hxl (heq ▸ mem_cons_self)
      rw [update_of_ne (Ne.symm hby), update_of_ne hyx, hy]

theorem remove (h : Ring prev next r (pre ++ x :: post)) (hnodup : (r :: (pre ++ x :: post)).Nodup) :
    Ring (update prev (next x) (prev x)) (update next (prev x) (next x)) r
      (pre ++ post) :=
  Path.remove h hnodup (nodup_cons.mp hnodup).1

theorem append (h : Ring prev next r l) (hx : x ∉ r :: l) (hnodup : (r :: l).Nodup) :
    Ring (update (update prev x (prev r)) r x)
      (update (update next x r) (prev r) x) r (l ++ [x]) :=
  Path.insert h hx (fun heq => hx (heq ▸ mem_cons_self)) (nodup_cons.mp hnodup).1 hnodup

theorem prepend {b : α} (h : Ring prev next r (b :: post)) (hx : x ∉ r :: b :: post)
    (hnodup : (r :: b :: post).Nodup) :
    Ring (update (update prev x (prev b)) b x)
      (update (update next x b) (prev b) x) r (x :: b :: post) := by
  obtain ⟨hfirst, hpost⟩ := h
  obtain ⟨hr, hbpost⟩ := nodup_cons.mp hnodup
  have hxr : x ≠ r := fun heq => hx (heq ▸ mem_cons_self)
  have hxb : x ∉ b :: post := fun hmem => hx (mem_cons_of_mem r hmem)
  have hrb : r ≠ b := fun heq => hr (heq ▸ mem_cons_self)
  have hinserted : Path (update (update prev x (prev b)) b x)
      (update (update next x b) (prev b) x) r ([] ++ [x]) b := by
    apply Path.insert (l := []) hfirst
    · rw [mem_singleton]
      exact hxr
    · exact fun heq => hxb (heq ▸ mem_cons_self)
    · exact not_mem_nil
    · exact nodup_singleton r
  obtain ⟨hrx, hxb'⟩ := hinserted
  refine ⟨hrx, hxb', hpost.frame (fun y hy => ?_) fun y hy => ?_⟩
  · have hyr : y ≠ r := fun heq => hr (heq ▸ hy)
    have hyx : y ≠ x := fun heq => hxb (heq ▸ hy)
    rw [hfirst.2, update_of_ne hyr, update_of_ne hyx]
  · obtain rfl | hy := mem_cons.mp hy
    · rw [update_of_ne hrb, update_of_ne (Ne.symm hxr)]
    · have hyb : y ≠ b := fun heq => (nodup_cons.mp hbpost).1 (heq ▸ hy)
      have hyx : y ≠ x := fun heq => hxb (heq ▸ mem_cons_of_mem b hy)
      rw [update_of_ne hyb, update_of_ne hyx]

end Ring

end Zabbix
