import Zabbix.Foundation.Memory
import Mathlib.Data.Int.Init
import Mathlib.Data.List.Induction

/-!
# Pointer queues

`queue.c`. The values lie in a ring from the tail to the place before the head, with at least one
place free once an array is allocated. Every access is checked against the array; what a new place
holds is arbitrary.
-/

namespace Zabbix.Algo

open List Option Memory

/-- `zbx_queue_ptr_t`; pointers are numbers and NULL is 0. -/
structure QueuePtr where
  values : List ℕ
  headPos : ℕ
  tailPos : ℕ
  allocNum : ℕ
  deriving DecidableEq, Repr

def zbxQueuePtrCreate : QueuePtr := ⟨[], 0, 0, 0⟩

def zbxQueuePtrValuesNum (queue : QueuePtr) : ℤ :=
  let valuesNum : ℤ := queue.headPos - queue.tailPos
  if 0 > valuesNum then valuesNum + queue.allocNum else valuesNum

section Operations

variable (fresh : ℕ)

def zbxQueuePtrReserve (queue : QueuePtr) (num : ℤ) : Option QueuePtr :=
  let valuesNum := zbxQueuePtrValuesNum queue
  if valuesNum + num + 1 ≤ queue.allocNum then some queue
  else
    let allocNum := (queue.allocNum + max (num + 1) (queue.allocNum / 2 : ℕ)).toNat
    let values := resize fresh queue.values allocNum
    if queue.tailPos > queue.headPos then
      let resizeNum := allocNum - queue.allocNum
      (move values (queue.tailPos + resizeNum) queue.tailPos
        (queue.allocNum - queue.tailPos)).map fun values =>
          ⟨values, queue.headPos, queue.tailPos + resizeNum, allocNum⟩
    else some ⟨values, queue.headPos, queue.tailPos, allocNum⟩

def zbxQueuePtrCompact (queue : QueuePtr) : Option QueuePtr :=
  let valuesNum := (zbxQueuePtrValuesNum queue).toNat
  let allocNum := valuesNum + 1
  if allocNum = queue.allocNum then some queue
  else if queue.tailPos ≠ 0 then
    if queue.tailPos > queue.headPos then
      (move queue.values (queue.headPos + 1) queue.tailPos
        (queue.allocNum - queue.tailPos)).map fun values =>
          ⟨resize fresh values allocNum, queue.headPos, queue.headPos + 1, allocNum⟩
    else
      (move queue.values 0 queue.tailPos valuesNum).map fun values =>
        ⟨resize fresh values allocNum, valuesNum, 0, allocNum⟩
  else some ⟨resize fresh queue.values allocNum, queue.headPos, queue.tailPos, allocNum⟩

def zbxQueuePtrPush (queue : QueuePtr) (value : ℕ) : Option QueuePtr :=
  (zbxQueuePtrReserve fresh queue 1).bind fun queue =>
    (overwrite queue.values queue.headPos [value]).map fun values =>
      ⟨values, if queue.headPos + 1 = queue.allocNum then 0 else queue.headPos + 1,
        queue.tailPos, queue.allocNum⟩

def zbxQueuePtrPop (queue : QueuePtr) : Option (ℕ × QueuePtr) :=
  if queue.tailPos ≠ queue.headPos then
    queue.values[queue.tailPos]?.map fun value =>
      (value, ⟨queue.values, if queue.headPos = queue.allocNum then 0 else queue.headPos,
        if queue.tailPos + 1 = queue.allocNum then 0 else queue.tailPos + 1, queue.allocNum⟩)
  else some (0, queue)

def findUp (values : List ℕ) (value : ℕ) : ℕ → ℕ → Option (Option ℕ)
  | 0, _ => some none
  | n + 1, i => values[i]?.bind fun v =>
    if v = value then some (some i) else findUp values value n (i + 1)

def findDown (values : List ℕ) (value tailPos : ℕ) : ℕ → Option (Option ℕ)
  | 0 => some none
  | n + 1 => values[tailPos + n]?.bind fun v =>
    if v = value then some (some (tailPos + n)) else findDown values value tailPos n

def shiftDown : ℕ → ℕ → List ℕ → Option (List ℕ)
  | 0, _, values => some values
  | n + 1, i, values => values[i + 1]?.bind fun v =>
    (overwrite values i [v]).bind (shiftDown n (i + 1))

def shiftUp (tailPos : ℕ) : ℕ → List ℕ → Option (List ℕ)
  | 0, values => some values
  | n + 1, values => values[tailPos + n]?.bind fun v =>
    (overwrite values (tailPos + n + 1) [v]).bind (shiftUp tailPos n)

def removeBelowHead (queue : QueuePtr) (value startPos : ℕ) : Option (Option QueuePtr) :=
  (findUp queue.values value (queue.headPos - startPos) startPos).bind fun
    | some i =>
      (shiftDown (queue.headPos - 1 - i) i queue.values).map fun values =>
        some ⟨values, queue.headPos - 1, queue.tailPos, queue.allocNum⟩
    | none => some none

def removeAboveTail (queue : QueuePtr) (value : ℕ) : Option QueuePtr :=
  (findDown queue.values value queue.tailPos (queue.allocNum - queue.tailPos)).bind fun
    | some i =>
      (shiftUp queue.tailPos (i - queue.tailPos) queue.values).map fun values =>
        ⟨values, queue.headPos,
          if queue.tailPos + 1 = queue.allocNum then 0 else queue.tailPos + 1, queue.allocNum⟩
    | none => some queue

def zbxQueuePtrRemoveValue (queue : QueuePtr) (value : ℕ) : Option QueuePtr :=
  if queue.tailPos = queue.headPos then some queue
  else
    let startPos := if queue.tailPos < queue.headPos then queue.tailPos else 0
    (removeBelowHead queue value startPos).bind fun
      | some removed => some removed
      | none => if queue.tailPos ≤ queue.headPos then some queue else removeAboveTail queue value

inductive QueueOperation
  | push (value : ℕ)
  | pop
  | reserve (num : ℤ)
  | compact
  | removeValue (value : ℕ)

def QueueOperation.apply (queue : QueuePtr) : QueueOperation → Option (Option ℕ × QueuePtr)
  | push value => (zbxQueuePtrPush fresh queue value).map (none, ·)
  | pop => (zbxQueuePtrPop queue).map fun (value, queue) => (some value, queue)
  | reserve num => (zbxQueuePtrReserve fresh queue num).map (none, ·)
  | compact => (zbxQueuePtrCompact fresh queue).map (none, ·)
  | removeValue value => (zbxQueuePtrRemoveValue queue value).map (none, ·)

def runQueue : QueuePtr → List QueueOperation → Option (List (Option ℕ) × QueuePtr)
  | queue, [] => some ([], queue)
  | queue, op :: ops => (op.apply fresh queue).bind fun (result, queue) =>
    (runQueue queue ops).map fun (results, queue) => (result :: results, queue)

end Operations

inductive FifoStep : List ℕ → QueueOperation → Option ℕ → List ℕ → Prop
  | push {l : List ℕ} {value : ℕ} : FifoStep l (.push value) none (l ++ [value])
  | pop {l : List ℕ} {value : ℕ} : FifoStep (value :: l) .pop (some value) l
  | popEmpty : FifoStep [] .pop (some 0) []
  | reserve {l : List ℕ} {num : ℤ} : FifoStep l (.reserve num) none l
  | compact {l : List ℕ} : FifoStep l .compact none l
  | remove {l l' : List ℕ} {value : ℕ} :
      FifoStep (l ++ value :: l') (.removeValue value) none (l ++ l')
  | removeAbsent {l : List ℕ} {value : ℕ} (habsent : value ∉ l) :
      FifoStep l (.removeValue value) none l

inductive FifoRun : List ℕ → List QueueOperation → List (Option ℕ) → List ℕ → Prop
  | nil {l : List ℕ} : FifoRun l [] [] l
  | cons {l l₁ l' : List ℕ} {op : QueueOperation} {ops : List QueueOperation}
      {result : Option ℕ} {results : List (Option ℕ)} (hstep : FifoStep l op result l₁)
      (hsteps : FifoRun l₁ ops results l') : FifoRun l (op :: ops) (result :: results) l'

def QueuePtr.contents (queue : QueuePtr) : List ℕ :=
  if queue.tailPos ≤ queue.headPos then
    (queue.values.drop queue.tailPos).take (queue.headPos - queue.tailPos)
  else queue.values.drop queue.tailPos ++ queue.values.take queue.headPos

inductive QueuePtr.Holds (queue : QueuePtr) : List ℕ → Prop
  | straight {l : List ℕ} (before after : List ℕ) (hvalues : queue.values = before ++ l ++ after)
      (hhead : queue.headPos = before.length + l.length) (htail : queue.tailPos = before.length)
      (halloc : queue.allocNum = queue.values.length)
      (hroom : after ≠ [] ∨ queue.values = []) : Holds queue l
  | wrapped (low gap high : List ℕ) (hvalues : queue.values = low ++ gap ++ high)
      (hhead : queue.headPos = low.length) (htail : queue.tailPos = low.length + gap.length)
      (halloc : queue.allocNum = queue.values.length) (hgap : gap ≠ []) (hhigh : high ≠ []) :
      Holds queue (high ++ low)

variable {queue : QueuePtr} {l : List ℕ}

theorem QueuePtr.Holds.contents_eq (h : queue.Holds l) : queue.contents = l := by
  cases h with
  | straight before after hvalues hhead htail halloc hroom =>
    rw [contents, if_pos (by omega), hvalues, hhead, htail, append_assoc, drop_left,
      Nat.add_sub_cancel_left, take_left]
  | wrapped low gap high hvalues hhead htail halloc hgap hhigh =>
    have hlength := length_pos_iff.mpr hgap
    rw [contents, if_neg (by omega), hvalues, hhead, htail, ← length_append, drop_left,
      append_assoc, take_left]

theorem QueuePtr.Holds.valuesNum_eq (h : queue.Holds l) :
    zbxQueuePtrValuesNum queue = l.length := by
  cases h with
  | straight before after hvalues hhead htail halloc hroom =>
    simp only [zbxQueuePtrValuesNum]
    split_ifs <;> omega
  | wrapped low gap high hvalues hhead htail halloc hgap hhigh =>
    have hlength := length_pos_iff.mpr hgap
    have hsizes := congrArg List.length hvalues
    simp only [length_append] at hsizes ⊢
    simp only [zbxQueuePtrValuesNum]
    split_ifs <;> omega

theorem QueuePtr.Holds.inside (h : queue.Holds l) :
    queue.allocNum = queue.values.length ∧
      (queue.headPos < queue.allocNum ∧ queue.tailPos < queue.allocNum ∨
        queue.allocNum = 0 ∧ queue.headPos = 0 ∧ queue.tailPos = 0) := by
  cases h with
  | straight before after hvalues hhead htail halloc hroom =>
    have hsizes := congrArg List.length hvalues
    simp only [length_append] at hsizes
    refine ⟨halloc, ?_⟩
    rcases hroom with hafter | hempty
    · have hlength := length_pos_iff.mpr hafter
      omega
    · rw [hempty, length_nil] at hsizes
      omega
  | wrapped low gap high hvalues hhead htail halloc hgap hhigh =>
    have hgapLength := length_pos_iff.mpr hgap
    have hhighLength := length_pos_iff.mpr hhigh
    have hsizes := congrArg List.length hvalues
    simp only [length_append] at hsizes
    refine ⟨halloc, ?_⟩
    omega

theorem QueuePtr.Holds.length_le (h : queue.Holds l) : l.length ≤ queue.allocNum := by
  have hnum := h.valuesNum_eq
  have hinside := h.inside
  simp only [zbxQueuePtrValuesNum] at hnum
  split_ifs at hnum <;> omega

theorem create_holds : zbxQueuePtrCreate.Holds [] := by
  apply QueuePtr.Holds.straight [] []
  · rfl
  · rfl
  · rfl
  · rfl
  · exact Or.inr rfl

theorem reserve_spec (fresh : ℕ) (h : queue.Holds l) (num : ℤ) :
    ∃ queue', zbxQueuePtrReserve fresh queue num = some queue' ∧ queue'.Holds l ∧
      l.length + num + 1 ≤ queue'.allocNum := by
  rw [zbxQueuePtrReserve, h.valuesNum_eq]
  have hle := h.length_le
  by_cases hroom : l.length + num + 1 ≤ queue.allocNum
  · exact ⟨queue, if_pos hroom, h, hroom⟩
  rw [if_neg hroom]
  obtain ⟨extra, hextra, hgrown⟩ : ∃ extra : ℕ, 0 < extra ∧
      (queue.allocNum + max (num + 1) (queue.allocNum / 2 : ℕ)).toNat = queue.allocNum + extra := by
    refine ⟨(max (num + 1) (queue.allocNum / 2 : ℕ)).toNat, ?_, ?_⟩ <;> omega
  have henough : l.length + num + 1 ≤ (queue.allocNum + extra : ℕ) := by omega
  simp only [hgrown, Nat.add_sub_cancel_left]
  have hsizes := h.inside.1
  have hresize : resize fresh queue.values (queue.allocNum + extra) =
      queue.values ++ replicate extra fresh := by
    rw [resize_of_le fresh (by omega), hsizes, Nat.add_sub_cancel_left]
  rw [hresize]
  cases h with
  | straight before after hvalues hhead htail halloc hfree =>
    rw [if_neg (by omega)]
    refine ⟨_, rfl, ?_, henough⟩
    apply QueuePtr.Holds.straight before (after ++ replicate extra fresh)
    · simp [hvalues]
    · exact hhead
    · exact htail
    · simp [halloc]
    · left
      simp [Nat.pos_iff_ne_zero.mp hextra]
  | wrapped low gap high hvalues hhead htail halloc hgap hhigh =>
    have hgapLength := length_pos_iff.mpr hgap
    rw [if_pos (by omega), hvalues]
    have hhighLength := congrArg List.length hvalues
    simp only [length_append] at hhighLength
    obtain ⟨rest, hmove, hrest⟩ : ∃ rest, move (low ++ gap ++ high ++ replicate extra fresh)
        (queue.tailPos + extra) queue.tailPos (queue.allocNum - queue.tailPos) =
          some (low ++ gap ++ rest ++ high) ∧ rest.length = (replicate extra fresh).length := by
      apply move_up
      · simp [htail]
      · simp [htail]
      · omega
    rw [length_replicate] at hrest
    rw [hmove]
    refine ⟨_, rfl, ?_, henough⟩
    apply QueuePtr.Holds.wrapped low (gap ++ rest) high
    · simp
    · exact hhead
    · simp [htail, hrest, Nat.add_assoc]
    · simp [halloc, hhighLength, hrest]
      omega
    · simp [hgap]
    · exact hhigh

theorem compact_spec (fresh : ℕ) (h : queue.Holds l) :
    ∃ queue', zbxQueuePtrCompact fresh queue = some queue' ∧ queue'.Holds l := by
  rw [zbxQueuePtrCompact, h.valuesNum_eq]
  simp only [Int.toNat_natCast]
  by_cases hsame : l.length + 1 = queue.allocNum
  · exact ⟨queue, if_pos hsame, h⟩
  rw [if_neg hsame]
  cases h with
  | straight before after hvalues hhead htail halloc hfree =>
    -- the values are at the start of the array when it is cut
    have hcut : ∀ (values rest : List ℕ) (q : QueuePtr), values = l ++ rest →
        q = ⟨resize fresh values (l.length + 1), l.length, 0, l.length + 1⟩ → q.Holds l := by
      intro values rest q hstart hq
      obtain ⟨last, hlast, hone⟩ := resize_keeps fresh l rest 1
      rw [hstart, hlast] at hq
      subst hq
      apply QueuePtr.Holds.straight [] last
      · rfl
      · simp
      · rfl
      · simp [hone]
      · left
        exact ne_nil_of_length_pos (by omega)
    by_cases hzero : queue.tailPos = 0
    · rw [if_neg (by omega)]
      have hbefore : before = [] := eq_nil_of_length_eq_zero (by omega)
      refine ⟨_, rfl, hcut queue.values after _ ?_ ?_⟩
      · rw [hvalues, hbefore, nil_append]
      · rw [hzero, show queue.headPos = l.length by omega]
    · rw [if_pos hzero, if_neg (by omega)]
      obtain ⟨rest, hmove, -⟩ : ∃ rest, move ([] ++ before ++ l ++ after) 0 queue.tailPos l.length =
          some ([] ++ l ++ rest) ∧ rest.length = before.length + after.length := by
        apply move_down
        · rfl
        · simp [htail]
        · rfl
      rw [nil_append, ← hvalues] at hmove
      rw [hmove]
      exact ⟨_, rfl, hcut ([] ++ l ++ rest) rest _ rfl rfl⟩
  | wrapped low gap high hvalues hhead htail halloc hgap hhigh =>
    have hgapLength := length_pos_iff.mpr hgap
    have hsizes := congrArg List.length hvalues
    simp only [length_append] at hsizes hsame ⊢
    rw [if_pos (by omega), if_pos (by omega)]
    cases gap with
    | nil => exact absurd rfl hgap
    | cons free gap =>
      rw [length_cons] at hsizes htail
      obtain ⟨rest, hmove, -⟩ : ∃ rest, move (low ++ [free] ++ gap ++ high ++ [])
          (queue.headPos + 1) queue.tailPos (queue.allocNum - queue.tailPos) =
            some (low ++ [free] ++ high ++ rest) ∧ rest.length = gap.length + [].length := by
        apply move_down
        · simp [hhead]
        · simp [htail]
          omega
        · omega
      have hsplit : queue.values = low ++ [free] ++ gap ++ high ++ [] := by simp [hvalues]
      rw [hsplit, hmove]
      refine ⟨_, rfl, ?_⟩
      apply QueuePtr.Holds.wrapped low [free] high
      · apply resize_append
        simp
        omega
      · exact hhead
      · simp [hhead]
      · simp [length_resize]
      · simp
      · exact hhigh

theorem push_spec (fresh : ℕ) (h : queue.Holds l) (value : ℕ) :
    ∃ queue', zbxQueuePtrPush fresh queue value = some queue' ∧ queue'.Holds (l ++ [value]) := by
  obtain ⟨reserved, hreserve, hholds, hroom⟩ := reserve_spec fresh h 1
  rw [zbxQueuePtrPush, hreserve, bind_some]
  cases hholds with
  | straight before after hvalues hhead htail halloc hfree =>
    have hsizes := congrArg List.length hvalues
    simp only [length_append] at hsizes
    cases after with
    | nil =>
      rcases hfree with hne | hempty
      · exact absurd rfl hne
      · rw [hempty, length_nil] at halloc
        omega
    | cons free after =>
      rw [length_cons] at hsizes
      have hwrite : overwrite reserved.values reserved.headPos [value] =
          some (before ++ l ++ value :: after) := by
        rw [hvalues]
        apply overwrite_one
        simp [hhead]
      rw [hwrite, map_some]
      refine ⟨_, rfl, ?_⟩
      by_cases hlast : reserved.headPos + 1 = reserved.allocNum
      · have hafter : after = [] := eq_nil_of_length_eq_zero (by omega)
        subst hafter
        rw [if_pos hlast]
        rw [← append_nil (l ++ [value])]
        apply QueuePtr.Holds.wrapped [] before (l ++ [value])
        · simp
        · rfl
        · simp [htail]
        · simp
          omega
        · apply ne_nil_of_length_pos
          omega
        · simp
      · rw [if_neg hlast]
        apply QueuePtr.Holds.straight before after
        · simp
        · simp
          omega
        · exact htail
        · simp
          omega
        · left
          intro hnil
          rw [hnil, length_nil] at hsizes
          omega
  | wrapped low gap high hvalues hhead htail halloc hgap hhigh =>
    have hsizes := congrArg List.length hvalues
    have hhighLength := length_pos_iff.mpr hhigh
    simp only [length_append] at hsizes hroom
    cases gap with
    | nil => exact absurd rfl hgap
    | cons free gap =>
      rw [length_cons] at hsizes htail
      have hwrite : overwrite reserved.values reserved.headPos [value] =
          some (low ++ value :: (gap ++ high)) := by
        rw [hvalues, append_assoc, cons_append]
        apply overwrite_one
        exact hhead
      rw [hwrite, map_some]
      refine ⟨_, rfl, ?_⟩
      rw [if_neg (by omega), append_assoc]
      apply QueuePtr.Holds.wrapped (low ++ [value]) gap high
      · simp
      · simp [hhead]
      · simp
        omega
      · simp
        omega
      · apply ne_nil_of_length_pos
        omega
      · exact hhigh

theorem pop_nil (h : queue.Holds []) : zbxQueuePtrPop queue = some (0, queue) := by
  have hnum := h.valuesNum_eq
  have hinside := h.inside
  rw [zbxQueuePtrPop, if_neg]
  simp only [zbxQueuePtrValuesNum] at hnum
  split_ifs at hnum <;> simp at hnum <;> omega

theorem pop_cons {value : ℕ} (h : queue.Holds (value :: l)) :
    ∃ queue', zbxQueuePtrPop queue = some (value, queue') ∧ queue'.Holds l := by
  generalize hwhole : value :: l = whole at h
  cases h with
  | straight before after hvalues hhead htail halloc hfree =>
    subst hwhole
    have hsizes := congrArg List.length hvalues
    simp only [length_append, length_cons] at hsizes hhead
    have hafter : 0 < after.length := by
      rcases hfree with hne | hempty
      · exact length_pos_iff.mpr hne
      · rw [hempty, length_nil] at hsizes
        omega
    have hread : queue.values[queue.tailPos]? = some value := by
      rw [hvalues, htail]
      simp
    rw [zbxQueuePtrPop, if_pos (by omega), hread, map_some]
    refine ⟨_, rfl, ?_⟩
    rw [if_neg (by omega), if_neg (by omega)]
    apply QueuePtr.Holds.straight (before ++ [value]) after
    · simp [hvalues]
    · simp
      omega
    · simp [htail]
    · exact halloc
    · exact Or.inl (length_pos_iff.mp hafter)
  | wrapped low gap high hvalues hhead htail halloc hgap hhigh =>
    have hgapLength := length_pos_iff.mpr hgap
    cases high with
    | nil => exact absurd rfl hhigh
    | cons first high =>
      obtain ⟨hvalue, hl⟩ := List.cons.inj hwhole
      subst hvalue hl
      have hsizes := congrArg List.length hvalues
      simp only [length_append, length_cons] at hsizes
      have hread : queue.values[queue.tailPos]? = some value := by
        rw [hvalues, htail, ← length_append]
        simp
      rw [zbxQueuePtrPop, if_pos (by omega), hread, map_some]
      refine ⟨_, rfl, ?_⟩
      rw [if_neg (by omega)]
      by_cases hlast : queue.tailPos + 1 = queue.allocNum
      · have hnil : high = [] := eq_nil_of_length_eq_zero (by omega)
        subst hnil
        rw [if_pos hlast]
        apply QueuePtr.Holds.straight [] (gap ++ [value])
        · simp [hvalues]
        · simp [hhead]
        · rfl
        · exact halloc
        · simp
      · rw [if_neg hlast]
        apply QueuePtr.Holds.wrapped low (gap ++ [value]) high
        · simp [hvalues]
        · exact hhead
        · simp
          omega
        · exact halloc
        · simp
        · apply ne_nil_of_length_pos
          omega

variable (value : ℕ)

theorem findUp_spec (a l c : List ℕ) :
    (value ∉ l ∧ findUp (a ++ l ++ c) value l.length a.length = some none) ∨
      ∃ x y, l = x ++ value :: y ∧
        findUp (a ++ l ++ c) value l.length a.length = some (some (a.length + x.length)) := by
  induction l generalizing a with
  | nil =>
    left
    exact ⟨not_mem_nil, rfl⟩
  | cons v l ih =>
    have hread : (a ++ v :: l ++ c)[a.length]? = some v := by simp
    rw [length_cons, findUp, hread, bind_some]
    by_cases hfound : v = value
    · right
      refine ⟨[], l, by rw [hfound, nil_append], ?_⟩
      rw [if_pos hfound]
      rfl
    · rw [if_neg hfound]
      have hnext := ih (a ++ [v])
      rw [length_append, length_singleton, append_assoc a [v] l, singleton_append] at hnext
      rcases hnext with ⟨habsent, hfind⟩ | ⟨x, y, hl, hfind⟩
      · left
        exact ⟨by simp [habsent, Ne.symm hfound], hfind⟩
      · right
        refine ⟨v :: x, y, by rw [hl, cons_append], ?_⟩
        rw [hfind, length_cons, Nat.add_assoc, Nat.add_comm 1]

theorem findDown_spec (a l c : List ℕ) :
    (value ∉ l ∧ findDown (a ++ l ++ c) value a.length l.length = some none) ∨
      ∃ x y, l = x ++ value :: y ∧
        findDown (a ++ l ++ c) value a.length l.length = some (some (a.length + x.length)) := by
  induction l using reverseRecOn generalizing c with
  | nil =>
    left
    exact ⟨not_mem_nil, rfl⟩
  | append_singleton l v ih =>
    have hread : (a ++ (l ++ [v]) ++ c)[a.length + l.length]? = some v := by
      rw [← length_append, ← append_assoc]
      simp
    rw [length_append, length_singleton, findDown, hread, bind_some]
    by_cases hfound : v = value
    · right
      refine ⟨l, [], by rw [hfound], ?_⟩
      rw [if_pos hfound]
    · rw [if_neg hfound]
      have hnext := ih (v :: c)
      have hsame : a ++ l ++ v :: c = a ++ (l ++ [v]) ++ c := by simp
      rw [hsame] at hnext
      rcases hnext with ⟨habsent, hfind⟩ | ⟨x, y, hl, hfind⟩
      · left
        exact ⟨by simp [habsent, Ne.symm hfound], hfind⟩
      · right
        exact ⟨x, y ++ [v], by rw [hl, append_assoc, cons_append], hfind⟩

theorem shiftDown_spec (v : ℕ) (a y c : List ℕ) :
    ∃ w, shiftDown y.length a.length (a ++ v :: (y ++ c)) = some (a ++ y ++ w :: c) := by
  induction y generalizing a v with
  | nil => exact ⟨v, by simp [shiftDown]⟩
  | cons u y ih =>
    have hread : (a ++ v :: (u :: y ++ c))[a.length + 1]? = some u := by simp
    rw [length_cons, shiftDown, hread, bind_some, overwrite_one v u rfl, bind_some]
    obtain ⟨w, hw⟩ := ih u (a ++ [u])
    refine ⟨w, ?_⟩
    simpa using hw

theorem shiftUp_spec (v : ℕ) (a x c : List ℕ) :
    ∃ w, shiftUp a.length x.length (a ++ x ++ v :: c) = some (a ++ w :: (x ++ c)) := by
  induction x using reverseRecOn generalizing v c with
  | nil => exact ⟨v, by simp [shiftUp]⟩
  | append_singleton x u ih =>
    have hread : (a ++ (x ++ [u]) ++ v :: c)[a.length + x.length]? = some u := by
      rw [← length_append, ← append_assoc]
      simp
    have hwrite : overwrite (a ++ (x ++ [u]) ++ v :: c) (a.length + x.length + 1) [u] =
        some (a ++ (x ++ [u]) ++ u :: c) := by
      apply overwrite_one
      simp [Nat.add_assoc]
    rw [length_append, length_singleton, shiftUp, hread, bind_some, hwrite, bind_some]
    obtain ⟨w, hw⟩ := ih u (u :: c)
    refine ⟨w, ?_⟩
    simpa using hw

theorem removeBelowHead_spec {a l c : List ℕ} (hvalues : queue.values = a ++ l ++ c)
    (hhead : queue.headPos = a.length + l.length) :
    (value ∉ l ∧ removeBelowHead queue value a.length = some none) ∨
      ∃ x y w, l = x ++ value :: y ∧ removeBelowHead queue value a.length =
        some (some ⟨a ++ (x ++ y) ++ w :: c, queue.headPos - 1, queue.tailPos,
          queue.allocNum⟩) := by
  have hcount : queue.headPos - a.length = l.length := by omega
  rw [removeBelowHead, hcount, hvalues]
  rcases findUp_spec value a l c with ⟨habsent, hfind⟩ | ⟨x, y, hl, hfind⟩
  · left
    exact ⟨habsent, by rw [hfind, bind_some]⟩
  · right
    have hlength := congrArg List.length hl
    simp only [length_cons, length_append] at hlength
    obtain ⟨w, hw⟩ := shiftDown_spec value (a ++ x) y c
    have hshift : shiftDown (queue.headPos - 1 - (a.length + x.length)) (a.length + x.length)
        (a ++ l ++ c) = some (a ++ (x ++ y) ++ w :: c) := by
      rw [show queue.headPos - 1 - (a.length + x.length) = y.length by omega, hl]
      simpa using hw
    refine ⟨x, y, w, hl, ?_⟩
    rw [hfind, bind_some]
    simp only [hshift, map_some]

theorem removeAboveTail_spec {a l : List ℕ} (hvalues : queue.values = a ++ l)
    (htail : queue.tailPos = a.length) (halloc : queue.allocNum = queue.values.length) :
    (value ∉ l ∧ removeAboveTail queue value = some queue) ∨
      ∃ x y w, l = x ++ value :: y ∧ removeAboveTail queue value =
        some ⟨a ++ w :: (x ++ y), queue.headPos,
          if queue.tailPos + 1 = queue.allocNum then 0 else queue.tailPos + 1,
          queue.allocNum⟩ := by
  have hcount : queue.allocNum - queue.tailPos = l.length := by
    rw [halloc, hvalues, htail, length_append, Nat.add_sub_cancel_left]
  rw [removeAboveTail, hcount, htail, hvalues]
  rcases findDown_spec value a l [] with ⟨habsent, hfind⟩ | ⟨x, y, hl, hfind⟩
  · rw [append_nil] at hfind
    left
    exact ⟨habsent, by rw [hfind, bind_some]⟩
  · rw [append_nil] at hfind
    right
    obtain ⟨w, hw⟩ := shiftUp_spec value a x y
    refine ⟨x, y, w, hl, ?_⟩
    rw [hfind, bind_some]
    simp only [Nat.add_sub_cancel_left]
    rw [hl, ← append_assoc, hw, map_some]

theorem removeValue_spec (h : queue.Holds l) (value : ℕ) :
    ∃ queue' l', zbxQueuePtrRemoveValue queue value = some queue' ∧ queue'.Holds l' ∧
      FifoStep l (.removeValue value) none l' := by
  have hcopy := h
  cases h with
  | straight before after hvalues hhead htail halloc hfree =>
    by_cases hempty : queue.tailPos = queue.headPos
    · have hnil : l = [] := eq_nil_of_length_eq_zero (by omega)
      refine ⟨queue, l, if_pos hempty, hcopy, ?_⟩
      apply FifoStep.removeAbsent
      simp [hnil]
    · rw [zbxQueuePtrRemoveValue, if_neg hempty]
      simp only [if_pos (show queue.tailPos < queue.headPos by omega)]
      rcases removeBelowHead_spec value hvalues hhead with ⟨habsent, hremove⟩ |
        ⟨x, y, w, hl, hremove⟩
      · rw [htail, hremove]
        exact ⟨queue, l, if_pos (by omega), hcopy, .removeAbsent habsent⟩
      · rw [htail, hremove, hl]
        refine ⟨_, x ++ y, rfl, ?_, FifoStep.remove⟩
        have hlength := congrArg List.length hl
        have hsizes := congrArg List.length hvalues
        simp only [length_cons, length_append] at hlength hsizes
        apply QueuePtr.Holds.straight before (w :: after)
        · rfl
        · simp
          omega
        · exact htail
        · simp
          omega
        · simp
  | wrapped low gap high hvalues hhead htail halloc hgap hhigh =>
    have hgapLength := length_pos_iff.mpr hgap
    have hsizes := congrArg List.length hvalues
    simp only [length_append] at hsizes
    have hlow : queue.values = [] ++ low ++ (gap ++ high) := by simp [hvalues]
    rw [zbxQueuePtrRemoveValue, if_neg (by omega)]
    simp only [if_neg (show ¬queue.tailPos < queue.headPos by omega)]
    rcases removeBelowHead_spec value hlow (by simp [hhead]) with ⟨hnotLow, hremove⟩ |
      ⟨x, y, w, hl, hremove⟩
    · rw [length_nil] at hremove
      rw [hremove, bind_some]
      simp only [if_neg (show ¬queue.tailPos ≤ queue.headPos by omega)]
      rcases removeAboveTail_spec value hvalues (by simp [htail]) halloc with ⟨hnotHigh, hkeep⟩ |
        ⟨x, y, w, hl, habove⟩
      · refine ⟨queue, high ++ low, hkeep, hcopy, ?_⟩
        apply FifoStep.removeAbsent
        simp [hnotLow, hnotHigh]
      · have hlength := congrArg List.length hl
        simp only [length_cons, length_append] at hlength
        refine ⟨_, x ++ y ++ low, habove, ?_, ?_⟩
        · by_cases hlast : queue.tailPos + 1 = queue.allocNum
          · have hnil : x ++ y = [] := by
              apply eq_nil_of_length_eq_zero
              rw [length_append]
              omega
            rw [hnil, if_pos hlast]
            apply QueuePtr.Holds.straight [] (gap ++ [w])
            · simp
            · simp [hhead]
            · rfl
            · simp
              omega
            · simp
          · rw [if_neg hlast]
            apply QueuePtr.Holds.wrapped low (gap ++ [w]) (x ++ y)
            · simp
            · exact hhead
            · simp
              omega
            · simp
              omega
            · simp
            · apply ne_nil_of_length_pos
              rw [length_append]
              omega
        · rw [hl, append_assoc x, append_assoc x, cons_append]
          exact FifoStep.remove
    · rw [length_nil, nil_append] at hremove
      rw [hremove, hl]
      refine ⟨_, high ++ (x ++ y), rfl, ?_, ?_⟩
      · have hlength := congrArg List.length hl
        simp only [length_cons, length_append] at hlength
        apply QueuePtr.Holds.wrapped (x ++ y) (w :: gap) high
        · simp
        · simp
          omega
        · simp
          omega
        · simp
          omega
        · simp
        · exact hhigh
      · rw [← append_assoc, ← append_assoc]
        exact FifoStep.remove

theorem QueueOperation.apply_spec (fresh : ℕ) (h : queue.Holds l) (op : QueueOperation) :
    ∃ result queue' l', op.apply fresh queue = some (result, queue') ∧ queue'.Holds l' ∧
      FifoStep l op result l' := by
  cases op with
  | push value =>
    obtain ⟨queue', hpush, hholds⟩ := push_spec fresh h value
    exact ⟨none, queue', _, by rw [apply, hpush, map_some], hholds, .push⟩
  | pop =>
    cases l with
    | nil => exact ⟨some 0, queue, _, by rw [apply, pop_nil h, map_some], h, .popEmpty⟩
    | cons value l =>
      obtain ⟨queue', hpop, hholds⟩ := pop_cons h
      exact ⟨some value, queue', l, by rw [apply, hpop, map_some], hholds, .pop⟩
  | reserve num =>
    obtain ⟨queue', hreserve, hholds, -⟩ := reserve_spec fresh h num
    exact ⟨none, queue', l, by rw [apply, hreserve, map_some], hholds, .reserve⟩
  | compact =>
    obtain ⟨queue', hcompact, hholds⟩ := compact_spec fresh h
    exact ⟨none, queue', l, by rw [apply, hcompact, map_some], hholds, .compact⟩
  | removeValue value =>
    obtain ⟨queue', l', hremove, hholds, hstep⟩ := removeValue_spec h value
    exact ⟨none, queue', l', by rw [apply, hremove, map_some], hholds, hstep⟩

theorem runQueue_spec (fresh : ℕ) (h : queue.Holds l) (ops : List QueueOperation) :
    ∃ results queue' l', runQueue fresh queue ops = some (results, queue') ∧ queue'.Holds l' ∧
      FifoRun l ops results l' := by
  induction ops generalizing queue l with
  | nil => exact ⟨[], queue, l, rfl, h, .nil⟩
  | cons op ops ih =>
    obtain ⟨result, queue₁, l₁, happly, hholds₁, hstep⟩ := op.apply_spec fresh h
    obtain ⟨results, queue', l', hrun, hholds, hsteps⟩ := ih hholds₁
    refine ⟨result :: results, queue', l', ?_, hholds, .cons hstep hsteps⟩
    rw [runQueue, happly, bind_some]
    simp only [hrun, map_some]

/-- After any operations the ring holds what a list does that is filled at its end and loses one
place of a removed value. -/
theorem queuePtr_run (fresh : ℕ) (ops : List QueueOperation) :
    ∃ results queue l, runQueue fresh zbxQueuePtrCreate ops = some (results, queue) ∧
      FifoRun [] ops results l ∧ queue.contents = l ∧ zbxQueuePtrValuesNum queue = l.length ∧
      queue.allocNum = queue.values.length ∧
      (queue.headPos < queue.allocNum ∧ queue.tailPos < queue.allocNum ∨
        queue.allocNum = 0 ∧ queue.headPos = 0 ∧ queue.tailPos = 0) := by
  obtain ⟨results, queue, l, hrun, hholds, hsteps⟩ := runQueue_spec fresh create_holds ops
  exact ⟨results, queue, l, hrun, hsteps, hholds.contents_eq, hholds.valuesNum_eq, hholds.inside⟩

/-- Only one of two places of a value is taken. -/
theorem queuePtr_keeps_duplicate :
    (runQueue 0 zbxQueuePtrCreate [.push 7, .push 7, .removeValue 7]).map
      (fun (_, queue) => queue.contents) = some [7] := by
  decide

end Zabbix.Algo
