import Mathlib.Data.List.Perm.Lattice
import Mathlib.Logic.Relation
import Zabbix.Json.Query

/-!
# What a JSONPath query selects

Every segment of a path is applied to every value that was selected so far, or to all the
values at or below it where the segment is detached.
-/

namespace Zabbix.JsonPath

open List Zabbix.Expr Zabbix.Json

section

variable {δ : Type}

def Node.children (node : Node δ) : List (Node δ) := node.members.map Prod.snd ++ node.values

def Node.levels : ℕ → Node δ → List (Node δ)
  | 0, node => [node]
  | k + 1, node => node :: node.children.flatMap (Node.levels k)

def Node.all (node : Node δ) : List (Node δ) := node.levels node.value.height

def fromEnd (length : ℕ) (index : ℤ) : ℤ := if index < 0 then index + length else index

def Node.element (node : Node δ) (index : ℤ) : Option (Node δ) :=
  let index := fromEnd node.values.length index
  if index < 0 then none else node.values[index.toNat]?

def select (data : SegmentData) (node : Node δ) : List (Node δ) :=
  match data with
  | .matchAll => node.children
  | .matchNames values =>
    values.filterMap fun name => (node.members.find? fun member => member.1 = name).map Prod.snd
  | .matchIndexes values => values.filterMap node.element
  | .matchRange start stop =>
    let length := node.values.length
    (node.values.take (fromEnd length (stop.getD length)).toNat).drop
      (fromEnd length (start.getD 0)).toNat
  | _ => []

def applySegment (nodes : List (Node δ)) (segment : Segment) : List (Node δ) :=
  (if segment.detached then nodes.flatMap Node.all else nodes).flatMap (select segment.data)

def selection (path : List Segment) (nodes : List (Node δ)) : List (Node δ) :=
  path.foldl applySegment nodes

theorem height_le_heightValues {values : List (Jsonobj δ)} {value : Jsonobj δ}
    (h : value ∈ values) : value.height ≤ heightValues values := by
  induction values with
  | nil => exact absurd h not_mem_nil
  | cons head values ih =>
    rw [heightValues]
    obtain rfl | hmem := mem_cons.mp h
    · exact Nat.le_max_left _ _
    · exact (ih hmem).trans (Nat.le_max_right _ _)

theorem height_le_heightMembers {members : List (List Char × Jsonobj δ)}
    {member : List Char × Jsonobj δ} (h : member ∈ members) :
    member.2.height ≤ heightMembers members := by
  induction members with
  | nil => exact absurd h not_mem_nil
  | cons head members ih =>
    obtain ⟨name, value⟩ := head
    rw [heightMembers]
    obtain rfl | hmem := mem_cons.mp h
    · exact Nat.le_max_left _ _
    · exact (ih hmem).trans (Nat.le_max_right _ _)

theorem mem_below {α : Type} {node : Node δ} {value : α → Jsonobj δ} {elements : List α}
    {el : α × Node δ} (h : el ∈ node.below value elements) :
    el.1 ∈ elements ∧ el.2.value = value el.1 := by
  obtain ⟨⟨element, i⟩, hmem, rfl⟩ := mem_map.mp h
  exact ⟨(mem_zipIdx' hmem).2 ▸ getElem_mem _, rfl⟩

theorem height_children {node child : Node δ} (h : child ∈ node.children) :
    child.value.height < node.value.height := by
  obtain ⟨location, value⟩ := node
  obtain hmember | hvalue := mem_append.mp h
  · obtain ⟨⟨name, el⟩, hmem, rfl⟩ := mem_map.mp hmember
    cases value with
    | object members =>
      obtain ⟨⟨member, el'⟩, hbelow, heq⟩ := mem_map.mp hmem
      obtain ⟨rfl, rfl⟩ := Prod.mk.inj heq
      obtain ⟨hin, hvalue⟩ := mem_below hbelow
      have hle := height_le_heightMembers hin
      dsimp only at hvalue ⊢
      rw [hvalue, Jsonobj.height]
      exact Nat.lt_succ_of_le hle
    | _ => exact absurd hmem not_mem_nil
  · cases value with
    | array values =>
      obtain ⟨⟨value', el⟩, hbelow, rfl⟩ := mem_map.mp hvalue
      obtain ⟨hin, hvalue⟩ := mem_below hbelow
      have hle := height_le_heightValues hin
      dsimp only [id] at hvalue ⊢
      rw [hvalue, Jsonobj.height]
      exact Nat.lt_succ_of_le hle
    | _ => exact absurd hvalue not_mem_nil

theorem height_pos (obj : Jsonobj δ) : 0 < obj.height := by cases obj <;> simp [Jsonobj.height]

theorem levels_height {node : Node δ} {k : ℕ} (h : node.value.height ≤ k) :
    node.levels k = node.all := by
  induction hk : node.value.height using Nat.strong_induction_on generalizing node k with
  | _ height ih =>
    obtain ⟨m, hm⟩ := Nat.exists_eq_add_one.mpr (height_pos node.value)
    obtain ⟨l, rfl⟩ := Nat.exists_eq_add_one.mpr (Nat.lt_of_lt_of_le (height_pos node.value) h)
    rw [Node.all, hm, Node.levels, Node.levels]
    congr 1
    apply flatMap_congr
    intro child hchild
    have hless := height_children hchild
    rw [ih _ (by omega) (by omega) rfl, ih _ (by omega) (by omega : child.value.height ≤ m) rfl]

theorem all_eq (node : Node δ) : node.all = node :: node.children.flatMap Node.all := by
  obtain ⟨m, hm⟩ := Nat.exists_eq_add_one.mpr (height_pos node.value)
  rw [Node.all, hm, Node.levels]
  congr 1
  apply flatMap_congr
  intro child hchild
  have hless := height_children hchild
  exact levels_height (by omega)

theorem applySegment_flatMap (segment : Segment) (nodes : List (Node δ)) :
    applySegment nodes segment = nodes.flatMap fun node => applySegment [node] segment := by
  unfold applySegment
  split_ifs
  · rw [flatMap_assoc]
    simp
  · simp

theorem selection_flatMap (path : List Segment) (nodes : List (Node δ)) :
    selection path nodes = nodes.flatMap fun node => selection path [node] := by
  induction path generalizing nodes with
  | nil => simp [selection]
  | cons segment path ih =>
    have hstep (nodes : List (Node δ)) :
        selection (segment :: path) nodes = selection path (applySegment nodes segment) := rfl
    rw [hstep, ih, applySegment_flatMap, flatMap_assoc]
    apply flatMap_congr
    intro node _
    rw [hstep, ih]

theorem selection_attached {segment : Segment} (h : segment.detached = false) (path : List Segment)
    (node : Node δ) : selection (segment :: path) [node] =
      (select segment.data node).flatMap fun el => selection path [el] := by
  rw [selection, foldl_cons, ← selection, selection_flatMap, applySegment, h]
  simp

theorem selection_detached {segment : Segment} (h : segment.detached = true) (path : List Segment)
    (node : Node δ) : selection (segment :: path) [node] =
      ((select segment.data node).flatMap fun el => selection path [el]) ++
        node.children.flatMap fun child => selection (segment :: path) [child] := by
  have hone (node : Node δ) : selection (segment :: path) [node] =
      (node.all.flatMap (select segment.data)).flatMap fun el => selection path [el] := by
    rw [selection, foldl_cons, ← selection, selection_flatMap, applySegment, h]
    simp
  rw [hone, all_eq, flatMap_cons, flatMap_append, flatMap_assoc, flatMap_assoc]
  congr 1
  apply flatMap_congr
  intro child _
  rw [hone, flatMap_assoc]

end

end Zabbix.JsonPath
