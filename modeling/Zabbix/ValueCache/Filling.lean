import Mathlib.Data.List.DropRight
import Zabbix.ValueCache.Insertion

/-!
# Filling the cache at the tail

`vch_item_add_values_at_tail`: older values that were read from the database are put before the
cached ones, in chunks that are filled from their last slot on.
-/

namespace Zabbix.ValueCache

open Option List Function

open Zabbix.Preproc (Timespec zbxTimespecCompare ItemValueType)

/-- The answers of the shared memory in a fill: for the chunk that is asked for when so many values
are left, and for the parts of the copy of a value. -/
structure Answers where
  chunk : ℕ → Bool
  copy : ℕ → ℕ → Bool

def copyLoop (copy : ℕ → ℕ → Bool) (tail : ℕ) : VcItem → List HistoryRecord → VcItem × Bool
  | item, [] => (item, true)
  | item, value :: older =>
    match vcItemDup (copy older.length) item.valueType value.value with
    | none => (item, false)
    | some copied =>
      let first := (item.chunks tail).firstValue - 1
      copyLoop copy tail ((item.setSlot tail first ⟨value.timestamp, copied⟩).setFirst tail first) older

/-- `memcpy` of values to the slots from an index on. -/
def writeSlots (slots : ℤ → HistoryRecord) : ℤ → List HistoryRecord → ℤ → HistoryRecord
  | _, [] => slots
  | i, value :: values => writeSlots (update slots i value) (i + 1) values

def copyNumbers (tail : ℕ) (item : VcItem) (values : List HistoryRecord) : VcItem × Bool :=
  let first := (item.chunks tail).firstValue - values.length
  ((item.modify tail fun chunk =>
    { chunk with slots := writeSlots chunk.slots first values }).setFirst tail first, true)

def vchItemCopyValuesAtTail (copy : ℕ → ℕ → Bool) (item : VcItem) (values : List HistoryRecord) :
    Option (VcItem × Bool) :=
  item.tail.map fun tail =>
    let first := (item.chunks tail).firstValue
    let (item, copied) := match item.valueType with
      | .str | .text | .log => copyLoop copy tail item values.reverse
      | _ => copyNumbers tail item values
    ({ item with valuesTotal := item.valuesTotal + (first - (item.chunks tail).firstValue) }, copied)

def freeAtTail (item : VcItem) : ℤ :=
  match item.tail with
  | some tail => (item.chunks tail).firstValue
  | none => 0

def growTail (shm : SharedMemory) (granted : Bool) (item : VcItem) (count : ℕ) :
    Option (VcItem × ℤ × Bool) :=
  if freeAtTail item = 0 then
    (vchItemChunkSlotCount item count).bind fun nslots =>
      (vchItemAddChunk shm granted item nslots item.tail).bind fun
        | (item, false) => some (item, nslots, false)
        | (item, true) =>
          item.tail.map fun tail =>
            ((item.setLast tail (nslots - 1)).setFirst tail nslots, nslots, true)
  else some (item, freeAtTail item, true)

/-- The loop of `vch_item_add_values_at_tail` over the values that are left. -/
def tailLoop (shm : SharedMemory) (answers : Answers) :
    ℕ → VcItem → List HistoryRecord → Option (VcItem × Bool)
  | _, item, [] => some (item, true)
  | 0, _, _ :: _ => none
  | fuel + 1, item, value :: values =>
    let values := value :: values
    (growTail shm (answers.chunk values.length) item values.length).bind fun
      | (item, _, false) => some (item, false)
      | (item, nslots, true) =>
        let count := values.length - (min nslots values.length).toNat
        (vchItemCopyValuesAtTail (fun i => answers.copy (count + i)) item (values.drop count)).bind
          fun
          | (item, false) => some (item, false)
          | (item, true) => tailLoop shm answers fuel item (values.take count)

def skipCached (item : VcItem) (values : List HistoryRecord) : List HistoryRecord :=
  match item.tail with
  | some tail =>
    let sec := (item.slot tail (item.chunks tail).firstValue).timestamp.sec
    values.rdropWhile fun value => sec ≤ value.timestamp.sec
  | none => values

def vchItemAddValuesAtTail (shm : SharedMemory) (answers : Answers) (item : VcItem)
    (values : List HistoryRecord) : Option (VcItem × Bool) :=
  tailLoop shm answers (skipCached item values).length item (skipCached item values)

variable {item item' : VcItem} {ps : List ℕ} {p q : ℕ} {values taken : List HistoryRecord}
  {copy : ℕ → ℕ → Bool} {valueType : ItemValueType}

def Refused (copy : ℕ → ℕ → Bool) (valueType : ItemValueType) (values : List HistoryRecord) (i : ℕ) :
    Prop :=
  ∃ value, values[i]? = some value ∧ vcItemDup (copy i) valueType value.value = none

structure Filled (item item' : VcItem) (p : ℕ) (taken : List HistoryRecord) : Prop where
  fields : item'.toVcItemFields = item.toVcItemFields
  links : item'.next = item.next ∧ item'.prev = item.prev
  used : item'.used = item.used
  first : (item'.chunks p).firstValue = (item.chunks p).firstValue - taken.length
  last : (item'.chunks p).lastValue = (item.chunks p).lastValue
  slotsNum : (item'.chunks p).slotsNum = (item.chunks p).slotsNum
  values : item'.values p = taken ++ item.values p
  others : ∀ q ≠ p, item'.chunks q = item.chunks q

theorem Filled.refl (item : VcItem) (p : ℕ) : Filled item item p [] where
  fields := rfl
  links := ⟨rfl, rfl⟩
  used := rfl
  first := (Int.sub_zero _).symm
  last := rfl
  slotsNum := rfl
  values := rfl
  others _ _ := rfl

theorem Filled.trans {item'' : VcItem} {taken' : List HistoryRecord} (h : Filled item item' p taken)
    (h' : Filled item' item'' p taken') : Filled item item'' p (taken' ++ taken) where
  fields := h'.fields.trans h.fields
  links := ⟨h'.links.1.trans h.links.1, h'.links.2.trans h.links.2⟩
  used := h'.used.trans h.used
  first := by
    rw [h'.first, h.first, length_append]
    omega
  last := h'.last.trans h.last
  slotsNum := h'.slotsNum.trans h.slotsNum
  values := by rw [h'.values, h.values, append_assoc]
  others q hq := (h'.others q hq).trans (h.others q hq)

theorem filled_of_modify (slots : ℤ → HistoryRecord) {f : VcChunk → VcChunk} {first : ℤ}
    (hf : f (item.chunks p) = { item.chunks p with firstValue := first, slots })
    (hfirst : first = (item.chunks p).firstValue - taken.length)
    (hvalues : span slots first (item.chunks p).lastValue = taken ++ item.values p) :
    Filled item (item.modify p f) p taken := by
  have hchunk := VcItem.modify_chunk item p f
  rw [hf] at hchunk
  constructor
  · rfl
  · apply VcItem.modify_links
    · rw [hf]
    · rw [hf]
  · rfl
  · rw [hchunk]
    exact hfirst
  · rw [hchunk]
  · rw [hchunk]
  · rw [VcItem.values, hchunk]
    exact hvalues
  · exact fun q hq => VcItem.modify_of_ne hq f

theorem modify_modify (item : VcItem) (p : ℕ) (f g : VcChunk → VcChunk) :
    (item.modify p f).modify p g = item.modify p fun chunk => g (f chunk) := by
  simp only [VcItem.modify, update_self, update_idem]

theorem dup_eq {granted : ℕ → Bool} {value copied : HistoryValue}
    (h : vcItemDup granted valueType value = some copied) : copied = value := by
  have hstr : ∀ (b : Bool) (str str' : List Char), vcItemStrdup b str = some str' → str' = str := by
    intro b str str' hdup
    rw [vcItemStrdup] at hdup
    split_ifs at hdup
    exact (Option.some.inj hdup).symm
  have hlog : ∀ log log' : LogValue, vcItemLogdup granted log = some log' → log' = log := by
    intro log log' hdup
    obtain ⟨text, source, timestamp, severity, logeventid⟩ := log
    rw [vcItemLogdup] at hdup
    split_ifs at hdup
    cases source with
    | none =>
      obtain ⟨text', htext, rfl⟩ := map_eq_some_iff.mp hdup
      rw [hstr _ _ _ htext]
    | some source =>
      obtain ⟨source', hsource, hdup⟩ := bind_eq_some_iff.mp hdup
      obtain ⟨text', htext, rfl⟩ := map_eq_some_iff.mp hdup
      rw [hstr _ _ _ hsource, hstr _ _ _ htext]
  rw [vcItemDup.eq_def] at h
  split at h
  · obtain ⟨text', htext, rfl⟩ := map_eq_some_iff.mp h
    rw [hstr _ _ _ htext]
  · obtain ⟨text', htext, rfl⟩ := map_eq_some_iff.mp h
    rw [hstr _ _ _ htext]
  · obtain ⟨log', hcopy, rfl⟩ := map_eq_some_iff.mp h
    rw [hlog _ _ hcopy]
  · exact (Option.some.inj h).symm

theorem not_refused_of_le {i : ℕ} (h : values.length ≤ i) : ¬Refused copy valueType values i := by
  intro hrefused
  obtain ⟨value, hvalue, -⟩ := hrefused
  rw [List.getElem?_eq_none h] at hvalue
  cases hvalue

structure CopiedFrom (copy : ℕ → ℕ → Bool) (valueType : ItemValueType) (values : List HistoryRecord)
    (k : ℕ) : Prop where
  le : k ≤ values.length
  granted : ∀ i, k ≤ i → ¬Refused copy valueType values i
  stopped : 0 < k → Refused copy valueType values (k - 1)

theorem CopiedFrom.append {k : ℕ} {value : HistoryRecord} (h : CopiedFrom copy valueType values k)
    (hvalue : vcItemDup (copy values.length) valueType value.value ≠ none) :
    CopiedFrom copy valueType (values ++ [value]) k := by
  constructor
  · rw [length_append]
    exact h.le.trans (Nat.le_add_right _ _)
  · intro i hi hrefused
    obtain ⟨r, hr, hdup⟩ := hrefused
    obtain hlt | heq | hgt := Nat.lt_trichotomy i values.length
    · rw [List.getElem?_append_left hlt] at hr
      exact h.granted i hi ⟨r, hr, hdup⟩
    · rw [heq, List.getElem?_concat_length] at hr
      rw [heq, ← Option.some.inj hr] at hdup
      exact hvalue hdup
    · rw [List.getElem?_eq_none (by rw [length_append, length_singleton]; omega)] at hr
      cases hr
  · intro hk
    obtain ⟨r, hr, hdup⟩ := h.stopped hk
    have hle := h.le
    exact ⟨r, by rw [List.getElem?_append_left (by omega), hr], hdup⟩

theorem copyLoop_spec : ∀ (newest : List HistoryRecord) (item : VcItem),
    (item.chunks p).firstValue ≤ (item.chunks p).lastValue + 1 →
      ∃ item' k, copyLoop copy p item newest = (item', decide (k = 0)) ∧
        CopiedFrom copy item.valueType newest.reverse k ∧ Filled item item' p (newest.reverse.drop k) := by
  intro newest
  induction newest with
  | nil =>
    intro item _
    refine ⟨item, 0, rfl, ⟨le_refl 0, fun i _ => not_refused_of_le (Nat.zero_le i), ?_⟩, Filled.refl item p⟩
    exact fun hk => absurd hk (Nat.lt_irrefl 0)
  | cons value older ih =>
    intro item hfirst
    have hlength : older.reverse.length = older.length := length_reverse
    rw [copyLoop, reverse_cons]
    cases hdup : vcItemDup (copy older.length) item.valueType value.value with
    | none =>
      refine ⟨item, older.length + 1, rfl, ⟨by simp, fun i hi => ?_, fun _ => ⟨value, ?_, hdup⟩⟩, ?_⟩
      · apply not_refused_of_le
        rw [length_append, hlength]
        exact hi
      · rw [Nat.add_sub_cancel, ← hlength, List.getElem?_concat_length]
      · rw [drop_of_length_le (by simp)]
        exact Filled.refl item p
    | some copied =>
      obtain rfl := dup_eq hdup
      obtain ⟨put, hput⟩ : ∃ put, put = (item.setSlot p ((item.chunks p).firstValue - 1) value).setFirst p
        ((item.chunks p).firstValue - 1) := ⟨_, rfl⟩
      have hfilled : Filled item put p [value] := by
        rw [hput, VcItem.setSlot, VcItem.setFirst, modify_modify]
        refine filled_of_modify (update (item.chunks p).slots
          ((item.chunks p).firstValue - 1) value) rfl rfl ?_
        rw [span_first (by omega), update_self, Int.sub_add_cancel,
          span_update_of_not_mem (Or.inl (by omega))]
        rfl
      have htype : put.valueType = item.valueType := congrArg VcItemFields.valueType hfilled.fields
      have hfirst' : (put.chunks p).firstValue ≤ (put.chunks p).lastValue + 1 := by
        rw [hfilled.first, hfilled.last]
        simp only [length_singleton]
        omega
      obtain ⟨item', k, hloop, hcopied, hrest⟩ := ih put hfirst'
      rw [htype] at hcopied
      refine ⟨item', k, ?_, hcopied.append ?_, ?_⟩
      · rw [← hloop, hput]
      · rw [hlength, hdup]
        exact some_ne_none _
      · rw [drop_append_of_le_length hcopied.le]
        exact hfilled.trans hrest

theorem writeSlots_behind : ∀ (values : List HistoryRecord) (slots : ℤ → HistoryRecord) (i j : ℤ),
    j < i ∨ i + values.length ≤ j → writeSlots slots i values j = slots j := by
  intro values
  induction values with
  | nil =>
    intro slots i j _
    rfl
  | cons value values ih =>
    intro slots i j hj
    rw [length_cons] at hj
    rw [writeSlots, ih _ _ _ (by omega), update_of_ne (by omega)]

theorem writeSlots_span : ∀ (values : List HistoryRecord) (slots : ℤ → HistoryRecord) (i : ℤ),
    span (writeSlots slots i values) i (i + values.length - 1) = values := by
  intro values
  induction values with
  | nil =>
    intro slots i
    rw [span_eq_nil]
    simp
  | cons value values ih =>
    intro slots i
    have hlast : i + ((value :: values).length : ℤ) - 1 = i + 1 + values.length - 1 := by
      rw [length_cons]
      omega
    rw [writeSlots, hlast, span_first (by omega), ih, writeSlots_behind _ _ _ _ (Or.inl (by omega)),
      update_self]

theorem copyNumbers_spec (item : VcItem) (values : List HistoryRecord)
    (hfirst : (item.chunks p).firstValue ≤ (item.chunks p).lastValue + 1) :
    ∃ item', copyNumbers p item values = (item', true) ∧ Filled item item' p values := by
  refine ⟨_, rfl, ?_⟩
  rw [VcItem.setFirst, modify_modify]
  refine filled_of_modify (writeSlots (item.chunks p).slots
    ((item.chunks p).firstValue - values.length) values) rfl rfl ?_
  have hwritten := writeSlots_span values (item.chunks p).slots
    ((item.chunks p).firstValue - values.length)
  rw [Int.sub_add_cancel] at hwritten
  rw [span_append (m := (item.chunks p).firstValue - 1) (by omega) (by omega), hwritten,
    Int.sub_add_cancel]
  congr 1
  apply span_congr
  intro i hi _
  exact writeSlots_behind _ _ _ _ (Or.inr (by omega))

theorem copyValuesAtTail_spec (copy : ℕ → ℕ → Bool) (values : List HistoryRecord)
    (htail : item.tail = some p) (hfirst : (item.chunks p).firstValue ≤ (item.chunks p).lastValue + 1) :
    ∃ filled k, vchItemCopyValuesAtTail copy item values =
        some ({ filled with valuesTotal := filled.valuesTotal + (values.drop k).length },
          decide (k = 0)) ∧
      CopiedFrom copy item.valueType values k ∧ Filled item filled p (values.drop k) := by
  have hloop : ∃ filled k, (match item.valueType with
      | .str | .text | .log => copyLoop copy p item values.reverse
      | _ => copyNumbers p item values) = (filled, decide (k = 0)) ∧
        CopiedFrom copy item.valueType values k ∧ Filled item filled p (values.drop k) := by
    have hcopies := @copyLoop_spec p copy values.reverse item hfirst
    rw [reverse_reverse] at hcopies
    -- numbers are copied at once, and need no memory
    have hnumbers : (∀ value : HistoryValue, ∀ granted,
        vcItemDup granted item.valueType value = some value) →
        ∃ filled k, copyNumbers p item values = (filled, decide (k = 0)) ∧
          CopiedFrom copy item.valueType values k ∧ Filled item filled p (values.drop k) := by
      intro hdup
      obtain ⟨filled, hcopy, hfilled⟩ := copyNumbers_spec item values hfirst
      refine ⟨filled, 0, hcopy, ⟨Nat.zero_le _, fun i _ hrefused => ?_, ?_⟩, hfilled⟩
      · obtain ⟨value, -, hnone⟩ := hrefused
        rw [hdup] at hnone
        cases hnone
      · exact fun hk => absurd hk (Nat.lt_irrefl 0)
    cases htype : item.valueType with
    | str | text | log => rw [htype] at hcopies; exact hcopies
    | _ => rw [htype] at hnumbers; exact hnumbers fun value granted => rfl
  obtain ⟨filled, k, hcopy, hcopied, hfilled⟩ := hloop
  refine ⟨filled, k, ?_, hcopied, hfilled⟩
  rw [vchItemCopyValuesAtTail, htail, map_some]
  simp only
  rw [hcopy]
  simp only
  rw [hfilled.first, Int.sub_sub_self]

variable {k count left : ℕ}

theorem refused_drop (i : ℕ) : Refused (fun i => copy (count + i)) valueType (values.drop count) i ↔
    Refused copy valueType values (count + i) := by
  rw [Refused, Refused, List.getElem?_drop]

theorem refused_take {i : ℕ} (hi : i < count) :
    Refused copy valueType (values.take count) i ↔ Refused copy valueType values i := by
  rw [Refused, Refused, List.getElem?_take_of_lt hi]

namespace CopiedFrom

theorem unique {k' : ℕ} (h : CopiedFrom copy valueType values k)
    (h' : CopiedFrom copy valueType values k') : k = k' := by
  obtain hlt | heq | hgt := Nat.lt_trichotomy k k'
  · exact absurd (h'.stopped (by omega)) (h.granted _ (by omega))
  · exact heq
  · exact absurd (h.stopped (by omega)) (h'.granted _ (by omega))

theorem granted_of_drop
    (h : CopiedFrom (fun i => copy (count + i)) valueType (values.drop count) k) :
    ∀ i, count + k ≤ i → ¬Refused copy valueType values i := by
  intro i hi
  have hdrop := h.granted (i - count) (by omega)
  rw [refused_drop, Nat.add_sub_cancel' (by omega)] at hdrop
  exact hdrop

theorem of_drop (h : CopiedFrom (fun i => copy (count + i)) valueType (values.drop count) k)
    (hcount : count ≤ values.length) (hk : 0 < k) :
    CopiedFrom copy valueType values (count + k) := by
  have hle := h.le
  rw [length_drop] at hle
  constructor
  · omega
  · exact h.granted_of_drop
  · intro _
    have hstopped := h.stopped hk
    rw [refused_drop] at hstopped
    rw [show count + k - 1 = count + (k - 1) by omega]
    exact hstopped

theorem take_iff (hgranted : ∀ i, count ≤ i → ¬Refused copy valueType values i)
    (hcount : count ≤ values.length) :
    CopiedFrom copy valueType (values.take count) k ↔ CopiedFrom copy valueType values k := by
  have htake : ∀ i, Refused copy valueType (values.take count) i ↔ Refused copy valueType values i := by
    intro i
    by_cases hi : i < count
    · exact refused_take hi
    · have hnone : ¬Refused copy valueType (values.take count) i := by
        apply not_refused_of_le
        rw [length_take]
        omega
      exact iff_of_false hnone (hgranted i (not_lt.mp hi))
  constructor
  · intro h
    refine ⟨h.le.trans ?_, fun i hi => mt (htake i).mpr (h.granted i hi), fun hk => ?_⟩
    · rw [length_take]
      exact Nat.min_le_right _ _
    · exact (htake _).mp (h.stopped hk)
  · intro h
    refine ⟨?_, fun i hi => mt (htake i).mp (h.granted i hi), fun hk => (htake _).mpr (h.stopped hk)⟩
    rw [length_take, Nat.min_eq_left hcount]
    by_contra hlt
    exact hgranted _ (by omega) (h.stopped (by omega))

end CopiedFrom

/-- The first value of a new chunk is refused, and nothing before. There was room for `free` values,
and new chunks have `nslots` slots. -/
def Stranded (answers : Answers) (valueType : ItemValueType) (values : List HistoryRecord)
    (free nslots : ℕ) : Prop :=
  ∃ left m : ℕ, 0 < left ∧ values.length = left + free + m * nslots ∧
    CopiedFrom answers.copy valueType values left ∧
    ∀ m' ≤ m, answers.chunk (left + m' * nslots) = true

variable {answers : Answers} {free nslots : ℕ}

theorem not_stranded_nil : ¬Stranded answers valueType [] free nslots := by
  intro h
  obtain ⟨left, m, hleft, hlength, -⟩ := h
  rw [length_nil] at hlength
  omega

theorem stranded_take_free (hgranted : ∀ i, count ≤ i → ¬Refused answers.copy valueType values i)
    (hlength : values.length = count + free) :
    Stranded answers valueType values free nslots ↔
      Stranded answers valueType (values.take count) 0 nslots := by
  have hcount : count ≤ values.length := by omega
  have htake : (values.take count).length = count := length_take_of_le hcount
  constructor
  · intro h
    obtain ⟨left, m, hleft, hlen, hcopied, hchunks⟩ := h
    exact ⟨left, m, hleft, by omega, (CopiedFrom.take_iff hgranted hcount).mpr hcopied, hchunks⟩
  · intro h
    obtain ⟨left, m, hleft, hlen, hcopied, hchunks⟩ := h
    exact ⟨left, m, hleft, by omega, (CopiedFrom.take_iff hgranted hcount).mp hcopied, hchunks⟩

theorem stranded_take_new (hgranted : ∀ i, count ≤ i → ¬Refused answers.copy valueType values i)
    (hnslots : 0 < nslots) (hlength : values.length = count + nslots)
    (hchunk : answers.chunk values.length = true) :
    Stranded answers valueType values 0 nslots ↔
      Stranded answers valueType (values.take count) 0 nslots := by
  have hcount : count ≤ values.length := by omega
  have htake : (values.take count).length = count := length_take_of_le hcount
  constructor
  · intro h
    obtain ⟨left, m, hleft, hlen, hcopied, hchunks⟩ := h
    have hcopied' := (CopiedFrom.take_iff hgranted hcount).mpr hcopied
    have hle := hcopied'.le
    cases m with
    | zero => omega
    | succ m =>
      rw [Nat.add_mul, Nat.one_mul] at hlen
      exact ⟨left, m, hleft, by omega, hcopied', fun m' hm' => hchunks m' (by omega)⟩
  · intro h
    obtain ⟨left, m, hleft, hlen, hcopied, hchunks⟩ := h
    have hlen' : values.length = left + 0 + (m + 1) * nslots := by
      rw [Nat.add_mul, Nat.one_mul]
      omega
    refine ⟨left, m + 1, hleft, hlen', (CopiedFrom.take_iff hgranted hcount).mp hcopied,
      fun m' hm' => ?_⟩
    obtain hlt | heq := Nat.lt_or_eq_of_le hm'
    · exact hchunks m' (by omega)
    · rw [heq, show left + (m + 1) * nslots = values.length by omega]
      exact hchunk

theorem not_stranded_of_copied (hcopied : CopiedFrom answers.copy valueType values k)
    (hk : values.length < k + free) : ¬Stranded answers valueType values free nslots := by
  intro h
  obtain ⟨left, m, hleft, hlength, hcopied', -⟩ := h
  obtain rfl := hcopied.unique hcopied'
  omega

theorem stranded_iff_of_copied (hcopied : CopiedFrom answers.copy valueType values k) (hk : 0 < k)
    (hroom : values.length < k + nslots) (hchunk : answers.chunk values.length = true) :
    Stranded answers valueType values 0 nslots ↔ k = values.length := by
  constructor
  · intro h
    obtain ⟨left, m, hleft, hlength, hcopied', -⟩ := h
    obtain rfl := hcopied.unique hcopied'
    cases m with
    | zero => omega
    | succ m =>
      rw [Nat.add_mul, Nat.one_mul] at hlength
      omega
  · intro heq
    refine ⟨k, 0, hk, by omega, hcopied, fun m' hm' => ?_⟩
    rw [Nat.le_zero.mp hm', Nat.zero_mul, Nat.add_zero, heq]
    exact hchunk

theorem Filled.shaped {filled : VcItem} (h : Filled item filled p taken) (hshaped : Shaped item (p :: ps))
    (hroom : (taken.length : ℤ) ≤ (item.chunks p).firstValue) :
    Shaped { filled with valuesTotal := filled.valuesTotal + taken.length } (p :: ps) ∧
      VcItem.history { filled with valuesTotal := filled.valuesTotal + taken.length } (p :: ps) =
        taken ++ item.history (p :: ps) := by
  have hp := (nodup_cons.mp hshaped.nodup).1
  have hvalues : filled.valuesTotal = item.valuesTotal := congrArg VcItemFields.valuesTotal h.fields
  have hhistory : filled.history (p :: ps) = taken ++ item.history (p :: ps) := by
    have hothers : filled.history ps = item.history ps := history_congr fun q hq => by
      simp only [VcItem.body, h.others q (ne_of_mem_of_not_mem hq hp)]
    rw [history_cons, history_cons, h.values, hothers, append_assoc]
  refine ⟨?_, hhistory⟩
  constructor
  · exact hshaped.toChained.of_eq h.links.1 h.links.2 h.used
  · intro q hq
    by_cases hqp : q = p
    · have hslots := hshaped.slots p mem_cons_self
      rw [hqp]
      simp only [h.first, h.last, h.slotsNum]
      omega
    · simp only [h.others q hqp]
      exact hshaped.slots q hq
  · have htotal := hshaped.total
    rw [show VcItem.history { filled with valuesTotal := filled.valuesTotal + taken.length } (p :: ps) =
      filled.history (p :: ps) from rfl, hhistory, length_append]
    simp only
    omega
  · have htype : filled.valueType = item.valueType := congrArg VcItemFields.valueType h.fields
    have hcacheable := hshaped.type
    rw [← htype] at hcacheable
    exact hcacheable

structure Opened (item item' : VcItem) (ps : List ℕ) (p : ℕ) (nslots : ℤ) : Prop where
  shaped : Shaped item' (p :: ps)
  first : (item'.chunks p).firstValue = nslots
  last : (item'.chunks p).lastValue = nslots - 1
  fields : item'.toVcItemFields = item.toVcItemFields
  others : ∀ q ∈ ps, item'.body q = item.body q

theorem opened_of_added {added : VcItem} {nslots : ℤ} (h : Shaped item ps) (hp : p ∉ ps)
    (hnslots : 0 < nslots) (hadded : Added item added p nslots) (hchained : Chained added (p :: ps)) :
    Opened item ((added.setLast p (nslots - 1)).setFirst p nslots) ps p nslots := by
  rw [VcItem.setLast, VcItem.setFirst, modify_modify]
  obtain ⟨f, hf⟩ : ∃ f : VcChunk → VcChunk,
      f = fun chunk => { chunk with lastValue := nslots - 1, firstValue := nslots } := ⟨_, rfl⟩
  rw [← hf]
  have hchunk : (added.modify p f).chunks p =
      { added.chunks p with lastValue := nslots - 1, firstValue := nslots } := by
    rw [VcItem.modify_chunk, hf]
  have hothers : ∀ q ∈ ps, (added.modify p f).body q = item.body q := by
    intro q hq
    have hne := ne_of_mem_of_not_mem hq hp
    rw [← hadded.others q hne]
    simp only [VcItem.body, VcItem.modify_of_ne hne]
  have hlinks := @VcItem.modify_links added p f (by rw [hf]) (by rw [hf])
  have hfirst : ((added.modify p f).chunks p).firstValue = nslots := by rw [hchunk]
  have hlast : ((added.modify p f).chunks p).lastValue = nslots - 1 := by rw [hchunk]
  refine ⟨?_, hfirst, hlast, hadded.fields, hothers⟩
  constructor
  · exact hchained.of_eq hlinks.1 hlinks.2 rfl
  · intro q hq
    obtain rfl | hq := mem_cons.mp hq
    · rw [hfirst, hlast, hchunk]
      simp only [hadded.slotsNum]
      omega
    · have hbody := hothers q hq
      simp only [VcItem.body, Prod.mk.injEq] at hbody
      rw [hbody.1, hbody.2.1, hbody.2.2.1]
      exact h.slots q hq
  · have hnone : (added.modify p f).values p = [] := by
      rw [VcItem.values, hfirst, hlast]
      exact span_eq_nil (Int.sub_one_lt_iff.mpr (le_refl _))
    have hvalues : (added.modify p f).valuesTotal = item.valuesTotal :=
      congrArg VcItemFields.valuesTotal hadded.fields
    rw [history_cons, hnone, nil_append, history_congr hothers, hvalues]
    exact h.total
  · have htype : (added.modify p f).valueType = item.valueType :=
      congrArg VcItemFields.valueType hadded.fields
    rw [htype]
    exact h.type

theorem Opened.history {nslots : ℤ} (h : Opened item item' ps p nslots) :
    item'.history (p :: ps) = item.history ps := by
  have hnone : item'.values p = [] := by
    rw [VcItem.values, h.first, h.last]
    exact span_eq_nil (Int.sub_one_lt_iff.mpr (le_refl _))
  rw [history_cons, hnone, nil_append, history_congr h.others]

variable (shm : SharedMemory)

theorem growTail_new {granted : Bool} {count : ℕ} {nslots : ℤ} (h : Shaped item ps)
    (hfull : freeAtTail item = 0) (hslots : vchItemChunkSlotCount item count = some nslots)
    (hnslots : 0 < nslots) :
    (granted = false ∧ growTail shm granted item count = some (item, nslots, false)) ∨
      granted = true ∧ ∃ item' p, growTail shm granted item count = some (item', nslots, true) ∧
        Opened item item' ps p nslots := by
  rw [growTail, if_pos hfull, hslots, bind_some]
  cases granted with
  | false => exact Or.inl ⟨rfl, rfl⟩
  | true =>
    right
    refine ⟨rfl, ?_⟩
    have hadd : ∃ added p, vchItemAddChunk shm true item nslots item.tail = some (added, true) ∧
        p ∉ ps ∧ Added item added p nslots ∧ Chained added (p :: ps) := by
      cases ps with
      | nil =>
        obtain ⟨added, hadd, hadded, hchained⟩ := addChunk_head shm h.toChained nslots
        rw [h.tail_eq]
        exact ⟨added, _, hadd, not_mem_nil, hadded, hchained⟩
      | cons q ps =>
        obtain ⟨added, hadd, hadded, hchained⟩ := addChunk_tail shm h.toChained nslots
        exact ⟨added, _, hadd, h.malloc_not_mem shm, hadded, hchained⟩
    obtain ⟨added, p, hadd, hp, hadded, hchained⟩ := hadd
    refine ⟨_, p, ?_, opened_of_added h hp hnslots hadded hchained⟩
    rw [hadd, bind_some]
    simp only
    rw [hchained.tail_eq]
    rfl

theorem slotCount_congr {a b : ℤ} (h : item'.valuesTotal + a = item.valuesTotal + b) :
    vchItemChunkSlotCount item' a = vchItemChunkSlotCount item b := by
  simp only [vchItemChunkSlotCount, h]

def Occupied (item : VcItem) (ps : List ℕ) : Prop :=
  ∀ p ∈ ps, (item.chunks p).firstValue ≤ (item.chunks p).lastValue

/-- The values behind `k` were added, and all of them where `k` is zero. -/
structure FilledUpTo (answers : Answers) (item item' : VcItem) (ps ps' : List ℕ)
    (values : List HistoryRecord) (nslots k : ℕ) : Prop where
  le : k ≤ values.length
  shaped : Shaped item' ps'
  history : item'.history ps' = values.drop k ++ item.history ps
  nonempty : Occupied item' ps' ↔
    ¬Stranded answers item.valueType values (freeAtTail item).toNat nslots
  stopped : 0 < k → answers.chunk k = false ∨ Refused answers.copy item.valueType values (k - 1)

theorem round_spec (answers : Answers) (values : List HistoryRecord) (h : Shaped item (p :: ps))
    (hnonempty : Occupied item ps) {free : ℕ} (hfree : (item.chunks p).firstValue = free)
    {count : ℕ} (hcount : count = values.length - min free values.length) :
    ∃ item' k, vchItemCopyValuesAtTail (fun i => answers.copy (count + i)) item (values.drop count) =
        some (item', decide (k = 0)) ∧
      CopiedFrom (fun i => answers.copy (count + i)) item.valueType (values.drop count) k ∧
      Shaped item' (p :: ps) ∧ Occupied item' ps ∧
      item'.history (p :: ps) = values.drop (count + k) ++ item.history (p :: ps) ∧
      (item'.chunks p).firstValue = free - (values.length - (count + k) : ℕ) ∧
      (item'.chunks p).lastValue = (item.chunks p).lastValue ∧
      item'.valuesTotal = item.valuesTotal + (values.length - (count + k) : ℕ) ∧
      item'.valueType = item.valueType := by
  obtain ⟨filled, k, hcopy, hcopied, hfilled⟩ := copyValuesAtTail_spec (fun i => answers.copy (count + i))
    (values.drop count) h.tail_eq (h.slots p mem_cons_self).2.1
  have hdrop : (values.drop count).drop k = values.drop (count + k) := drop_drop
  rw [hdrop] at hcopy hfilled
  have hlength : (values.drop (count + k)).length = values.length - (count + k) := length_drop
  have hp := (nodup_cons.mp h.nodup).1
  obtain ⟨hshaped, hhistory⟩ := hfilled.shaped h (by rw [hlength, hfree]; omega)
  have htype : filled.valueType = item.valueType := congrArg VcItemFields.valueType hfilled.fields
  refine ⟨_, k, hcopy, hcopied, hshaped, fun q hq => ?_, hhistory, ?_, hfilled.last, ?_, htype⟩
  · simp only [hfilled.others q (ne_of_mem_of_not_mem hq hp)]
    exact hnonempty q hq
  · simp only [hfilled.first, hlength, hfree]
  · have hvalues : filled.valuesTotal = item.valuesTotal :=
      congrArg VcItemFields.valuesTotal hfilled.fields
    simp only [hvalues, hlength]

/-- The rest of a round, when there is room for `free` values. -/
def fillRoom (shm : SharedMemory) (answers : Answers) (fuel : ℕ) (item : VcItem) (free : ℤ)
    (values : List HistoryRecord) : Option (VcItem × Bool) :=
  let count := values.length - (min free values.length).toNat
  (vchItemCopyValuesAtTail (fun i => answers.copy (count + i)) item (values.drop count)).bind fun
    | (item, false) => some (item, false)
    | (item, true) => tailLoop shm answers fuel item (values.take count)

structure RoundFills (answers : Answers) (item item' : VcItem) (ps ps' : List ℕ) (p : ℕ)
    (values : List HistoryRecord) (free nslots k : ℕ) : Prop where
  le : k ≤ values.length
  shaped : Shaped item' ps'
  history : item'.history ps' = values.drop k ++ item.history (p :: ps)
  stopped : 0 < k → answers.chunk k = false ∨ Refused answers.copy item.valueType values (k - 1)
  nonempty : 0 < k ∧ CopiedFrom answers.copy item.valueType values k ∧ values.length < k + free ∧
      (Occupied item' ps' ↔ (item.chunks p).firstValue ≤ (item.chunks p).lastValue ∨
        k < values.length) ∨
    (∀ i, values.length - min free values.length ≤ i →
      ¬Refused answers.copy item.valueType values i) ∧
      (Occupied item' ps' ↔ ¬Stranded answers item.valueType
        (values.take (values.length - min free values.length)) (free - min free values.length) nslots)

def LoopSpec (shm : SharedMemory) (answers : Answers) (nslots fuel : ℕ) : Prop :=
  ∀ (item : VcItem) (ps : List ℕ) (values : List HistoryRecord), Shaped item ps →
    Occupied item ps → values.length ≤ fuel →
    (values ≠ [] → vchItemChunkSlotCount item values.length = some (nslots : ℤ)) →
    ∃ item' ps' k, tailLoop shm answers fuel item values = some (item', decide (k = 0)) ∧
      FilledUpTo answers item item' ps ps' values nslots k

theorem fillRoom_spec {shm : SharedMemory} {answers : Answers} {nslots fuel : ℕ}
    (ih : LoopSpec shm answers nslots fuel) (h : Shaped item (p :: ps)) (hnonempty : Occupied item ps)
    {free : ℕ} (hfree : (item.chunks p).firstValue = free) (hpos : 0 < free)
    (hchunk : (item.chunks p).firstValue ≤ (item.chunks p).lastValue + 1)
    (hvalues : values ≠ []) (hfuel : values.length ≤ fuel + 1)
    (hslots : vchItemChunkSlotCount item values.length = some (nslots : ℤ)) :
    ∃ item' ps' k, fillRoom shm answers fuel item free values = some (item', decide (k = 0)) ∧
      RoundFills answers item item' ps ps' p values free nslots k := by
  have hlen : 0 < values.length := length_pos_of_ne_nil hvalues
  obtain ⟨count, hcount⟩ : ∃ count, count = values.length - min free values.length := ⟨_, rfl⟩
  have hcount' : values.length - (min (free : ℤ) values.length).toNat = count := by omega
  have hle : count ≤ values.length := by omega
  obtain ⟨filled, k, hcopy, hcopied, hshaped, hrest, hhistory, hfirst, hlast, htotal, htype⟩ :=
    round_spec answers values h hnonempty hfree hcount
  have hk := hcopied.le
  rw [length_drop] at hk
  rw [fillRoom]
  simp only [hcount']
  rw [hcopy, bind_some]
  by_cases hzero : k = 0
  · subst hzero
    have hgranted : ∀ i, count ≤ i → ¬Refused answers.copy item.valueType values i := fun i hi =>
      hcopied.granted_of_drop i (by omega)
    have htake : (values.take count).length = count := length_take_of_le hle
    have hfull : Occupied filled (p :: ps) := by
      intro q hq
      obtain rfl | hq := mem_cons.mp hq
      · rw [hfirst, hlast]
        omega
      · exact hrest q hq
    have hfreeNext : (freeAtTail filled).toNat = free - min free values.length := by
      rw [freeAtTail, hshaped.tail_eq]
      simp only [List.head?_cons]
      omega
    obtain ⟨item', ps', k, hloop, hspec⟩ := ih filled (p :: ps) (values.take count) hshaped hfull
      (by omega) fun _ => (slotCount_congr (by rw [htake]; omega)).trans hslots
    have hkle := hspec.le
    rw [htake] at hkle
    refine ⟨item', ps', k, hloop, ⟨by omega, hspec.shaped, ?_, fun hk => ?_, Or.inr ⟨?_, ?_⟩⟩⟩
    · rw [hspec.history, hhistory, Nat.add_zero, ← append_assoc]
      congr 1
      rw [← drop_append_of_le_length (by omega), take_append_drop]
    · obtain hchunk | hrefused := hspec.stopped hk
      · exact Or.inl hchunk
      · rw [htype] at hrefused
        exact Or.inr ((refused_take (by omega)).mp hrefused)
    · rw [← hcount]
      exact hgranted
    · rw [← hcount, ← hfreeNext, ← htype]
      exact hspec.nonempty
  · have hpos' : 0 < k := Nat.pos_of_ne_zero hzero
    have hall := hcopied.of_drop hle hpos'
    refine ⟨filled, p :: ps, count + k, ?_, ⟨by omega, hshaped, hhistory, fun _ => ?_, Or.inl ?_⟩⟩
    · rw [decide_eq_false hzero, decide_eq_false (by omega)]
    · exact Or.inr (hall.stopped (by omega))
    · refine ⟨by omega, hall, by omega, ?_⟩
      constructor
      · intro hfull
        have hp := hfull p mem_cons_self
        rw [hfirst, hlast] at hp
        omega
      · intro hsome q hq
        obtain rfl | hq := mem_cons.mp hq
        · rw [hfirst, hlast]
          omega
        · exact hrest q hq

theorem not_stranded_of_fits (hgranted : ∀ i, ¬Refused answers.copy valueType values i) :
    ¬Stranded answers valueType values free nslots := by
  intro h
  obtain ⟨left, m, hleft, -, hcopied, -⟩ := h
  exact hgranted _ (hcopied.stopped hleft)

theorem tailLoop_spec (answers : Answers) {nslots : ℕ} (hnslots : 0 < nslots) (fuel : ℕ)
    : LoopSpec shm answers nslots fuel := by
  induction fuel with
  | zero =>
    intro item ps values h hnonempty hfuel _
    obtain rfl : values = [] := length_eq_zero_iff.mp (Nat.le_zero.mp hfuel)
    exact ⟨item, ps, 0, rfl, le_refl 0, h, rfl, iff_of_true hnonempty not_stranded_nil,
      fun hk => absurd hk (Nat.lt_irrefl 0)⟩
  | succ fuel ih =>
    intro item ps values h hnonempty hfuel hslots
    cases values with
    | nil =>
      exact ⟨item, ps, 0, rfl, le_refl 0, h, rfl, iff_of_true hnonempty not_stranded_nil,
        fun hk => absurd hk (Nat.lt_irrefl 0)⟩
    | cons value older =>
      obtain ⟨values, hvalues⟩ : ∃ values, values = value :: older := ⟨_, rfl⟩
      have hne : values ≠ [] := by
        rw [hvalues]
        exact cons_ne_nil value older
      rw [← hvalues] at hfuel hslots ⊢
      have hslots := hslots hne
      have hround : tailLoop shm answers (fuel + 1) item values =
          (growTail shm (answers.chunk values.length) item values.length).bind fun
            | (item, _, false) => some (item, false)
            | (item, nslots, true) => fillRoom shm answers fuel item nslots values := by
        rw [hvalues]
        rfl
      rw [hround]
      by_cases hfull : freeAtTail item = 0
      · have hfreeNat : (freeAtTail item).toNat = 0 := by rw [hfull, Int.toNat_zero]
        obtain ⟨hrefused, hgrow⟩ | ⟨hgranted, opened, p, hgrow, hopened⟩ :=
          growTail_new shm h hfull hslots (by omega)
        · -- the chunk is refused
          rw [hgrow]
          have hzero : values.length ≠ 0 := fun hzero => hne (length_eq_zero_iff.mp hzero)
          refine ⟨item, ps, values.length, ?_, le_refl _, h, ?_, iff_of_true hnonempty ?_,
            fun _ => Or.inl hrefused⟩
          · rw [decide_eq_false hzero]
            rfl
          · rw [drop_length]
            rfl
          · intro hstranded
            rw [hfreeNat] at hstranded
            obtain ⟨left, m, -, hlength, -, hchunks⟩ := hstranded
            have hlast := hchunks m (le_refl m)
            rw [show left + m * nslots = values.length by omega, hrefused] at hlast
            cases hlast
        · have htype : opened.valueType = item.valueType :=
            congrArg VcItemFields.valueType hopened.fields
          have htotal : opened.valuesTotal = item.valuesTotal :=
            congrArg VcItemFields.valuesTotal hopened.fields
          have hempty : ¬(opened.chunks p).firstValue ≤ (opened.chunks p).lastValue := by
            rw [hopened.first, hopened.last]
            omega
          have hrest : Occupied opened ps := by
            intro q hq
            have hbody := hopened.others q hq
            simp only [VcItem.body, Prod.mk.injEq] at hbody
            rw [hbody.1, hbody.2.1]
            exact hnonempty q hq
          obtain ⟨item', ps', k, hfill, hspec⟩ := fillRoom_spec ih hopened.shaped hrest hopened.first
            hnslots (by rw [hopened.first, hopened.last]; omega) hne hfuel
            ((slotCount_congr (by rw [htotal])).trans hslots)
          rw [hgrow]
          refine ⟨item', ps', k, hfill, hspec.le, hspec.shaped, ?_, ?_, ?_⟩
          · rw [hspec.history, hopened.history]
          · rw [hfreeNat]
            obtain ⟨hk, hcopied, hroom, hiff⟩ | ⟨hall, hiff⟩ := hspec.nonempty
            · rw [htype] at hcopied
              rw [hiff, or_iff_right hempty, stranded_iff_of_copied hcopied hk hroom hgranted]
              have hle := hspec.le
              omega
            · rw [htype] at hall hiff
              by_cases hmore : nslots ≤ values.length
              · have hcount : values.length - min nslots values.length = values.length - nslots := by
                  omega
                rw [hcount] at hall hiff
                rw [hiff, Nat.min_eq_left hmore, Nat.sub_self,
                  ← stranded_take_new hall hnslots (by omega) hgranted]
              · have hcount : values.length - min nslots values.length = 0 := by omega
                rw [hcount] at hall hiff
                rw [hiff, take_zero]
                exact iff_of_true not_stranded_nil
                  (not_stranded_of_fits fun i => hall i (Nat.zero_le i))
          · rw [← htype]
            exact hspec.stopped
      · obtain ⟨p, ps, rfl⟩ : ∃ p ps', ps = p :: ps' := by
          cases ps with
          | nil =>
            rw [freeAtTail, h.tail_eq] at hfull
            exact absurd rfl hfull
          | cons p ps => exact ⟨p, ps, rfl⟩
        have hslotsp := h.slots p mem_cons_self
        have hfirst : freeAtTail item = (item.chunks p).firstValue := by
          rw [freeAtTail, h.tail_eq]
          rfl
        obtain ⟨free, hfree⟩ : ∃ free : ℕ, (item.chunks p).firstValue = free :=
          ⟨(item.chunks p).firstValue.toNat, by omega⟩
        obtain ⟨hp, hrest⟩ := forall_mem_cons.mp hnonempty
        obtain ⟨item', ps', k, hfill, hspec⟩ := fillRoom_spec ih h hrest hfree (by omega) hslotsp.2.1
          hne hfuel hslots
        have hfreeNat : (freeAtTail item).toNat = free := by rw [hfirst, hfree, Int.toNat_natCast]
        rw [growTail, if_neg hfull, bind_some, hfirst, hfree]
        refine ⟨item', ps', k, hfill, hspec.le, hspec.shaped, hspec.history, ?_, hspec.stopped⟩
        rw [hfreeNat]
        obtain ⟨hk, hcopied, hroom, hiff⟩ | ⟨hall, hiff⟩ := hspec.nonempty
        · rw [hiff]
          exact iff_of_true (Or.inl hp) (not_stranded_of_copied hcopied hroom)
        · by_cases hmore : free ≤ values.length
          · have hcount : values.length - min free values.length = values.length - free := by omega
            have hsplit : values.length = values.length - free + free := by omega
            rw [hcount] at hall hiff
            rw [hiff, Nat.min_eq_left hmore, Nat.sub_self, ← stranded_take_free hall hsplit]
          · have hcount : values.length - min free values.length = 0 := by omega
            rw [hcount] at hall hiff
            rw [hiff, take_zero]
            exact iff_of_true not_stranded_nil
              (not_stranded_of_fits fun i => hall i (Nat.zero_le i))

theorem addValuesAtTail_spec (answers : Answers) (h : Shaped item ps) (hoccupied : Occupied item ps)
    (values : List HistoryRecord) :
    ∃ nslots : ℕ, (skipCached item values ≠ [] →
        vchItemChunkSlotCount item (skipCached item values).length = some (nslots : ℤ)) ∧
      ∃ item' ps' k, vchItemAddValuesAtTail shm answers item values = some (item', decide (k = 0)) ∧
        FilledUpTo answers item item' ps ps' (skipCached item values) nslots k := by
  obtain ⟨left, hleft⟩ : ∃ left, left = skipCached item values := ⟨_, rfl⟩
  rw [vchItemAddValuesAtTail, ← hleft]
  by_cases hnil : left = []
  · refine ⟨1, fun hne => absurd hnil hne, ?_⟩
    exact tailLoop_spec shm answers Nat.one_pos _ item ps left h hoccupied (le_refl _)
      fun hne => absurd hnil hne
  · have hpos := length_pos_of_ne_nil hnil
    have htotal := h.total
    obtain ⟨nslots, hcount, hnslots⟩ := @slotCount_ge item left.length (by omega)
    obtain ⟨n, rfl⟩ := Int.eq_ofNat_of_zero_le (by omega : 0 ≤ nslots)
    refine ⟨n, fun _ => hcount, ?_⟩
    exact tailLoop_spec shm answers (by omega) _ item ps left h hoccupied (le_refl _) fun _ => hcount

theorem refused_never (values : List HistoryRecord) (i : ℕ) :
    ¬Refused (fun _ _ => true) valueType values i := by
  intro hrefused
  obtain ⟨value, -, hnone⟩ := hrefused
  rw [dup_granted] at hnone
  cases hnone

theorem skipCached_sorted (h : Ordered item ps) (hvalues : SortedBy recordKey values) :
    SortedBy recordKey (skipCached item values ++ item.history ps) := by
  rw [skipCached, h.tail_eq]
  cases ps with
  | nil =>
    rw [VcItem.history, flatMap_nil, append_nil]
    exact hvalues
  | cons p ps =>
    simp only [List.head?_cons]
    have hle := h.nonempty p mem_cons_self
    obtain ⟨older, holder⟩ : ∃ older, older = values.rdropWhile fun value =>
      (item.slot p (item.chunks p).firstValue).timestamp.sec ≤ value.timestamp.sec := ⟨_, rfl⟩
    have hsorted : SortedBy recordKey older := by
      rw [holder]
      exact hvalues.sublist ( rdropWhile_prefix _ _).sublist
    have hearlier : ∀ r ∈ older,
        r.timestamp.sec < (item.slot p (item.chunks p).firstValue).timestamp.sec := by
      intro r hr
      have hne : older ≠ [] := ne_nil_of_mem hr
      have hlast : older.getLast hne = r ∨ recordKey r ≤ recordKey (older.getLast hne) := by
        have hsplit := dropLast_concat_getLast hne
        rw [SortedBy, ← hsplit, pairwise_append] at hsorted
        rw [← hsplit] at hr
        obtain hr | hr := mem_append.mp hr
        · exact Or.inr (hsorted.2.2 r hr _ (mem_singleton_self _))
        · exact Or.inl (mem_singleton.mp hr).symm
      have hstop : (older.getLast hne).timestamp.sec <
          (item.slot p (item.chunks p).firstValue).timestamp.sec := by
        subst holder
        have hnot := rdropWhile_last_not _ _ hne
        simpa using hnot
      obtain heq | hle := hlast
      · rw [← heq]
        exact hstop
      · exact (sec_le_of_key hle).trans_lt hstop
    rw [← holder]
    apply pairwise_append.mpr
    refine ⟨hsorted, h.sorted, fun a ha b hb => ?_⟩
    have hrest := h.sorted
    rw [history_cons, VcItem.values, span_first hle] at hrest hb
    exact key_le_of_sec ((hearlier a ha).trans_le (sec_le_of_key (hrest.head_le b hb)))

theorem addValuesAtTail_granted (h : WellFormed item ps) (hvalues : SortedBy recordKey values) :
    ∃ item' ps', vchItemAddValuesAtTail shm ⟨fun _ => true, fun _ _ => true⟩ item values =
        some (item', true) ∧ WellFormed item' ps' ∧
      item'.history ps' = skipCached item values ++ item.history ps := by
  obtain ⟨nslots, -, item', ps', k, hadd, hfilled⟩ := addValuesAtTail_spec shm
    ⟨fun _ => true, fun _ _ => true⟩ h.shaped h.nonempty values
  have hzero : k = 0 := by
    by_contra hne
    obtain hchunk | hrefused := hfilled.stopped (Nat.pos_of_ne_zero hne)
    · cases hchunk
    · exact refused_never _ _ hrefused
  subst hzero
  have hoccupied := hfilled.nonempty.mpr (not_stranded_of_fits (refused_never _))
  have hhistory := hfilled.history
  rw [drop_zero] at hhistory
  refine ⟨item', ps', hadd, hfilled.shaped.wellFormed hoccupied ?_, hhistory⟩
  rw [hhistory]
  exact skipCached_sorted h.toOrdered hvalues

end Zabbix.ValueCache
