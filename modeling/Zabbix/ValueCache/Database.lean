import Zabbix.Foundation.Newest
import Zabbix.ValueCache.History

/-!
# Reading history from the database

`vc_db_get_values`: values are read from the history storage by whole seconds, while a request ends
at a nanosecond, so that a read by count has to be repeated for values that are too late.
-/

namespace Zabbix.ValueCache

open List

open Zabbix.Preproc (Timespec zbxTimespecCompare)

variable {l : List HistoryRecord} {c : ℕ}

def second (record : HistoryRecord) : ℤ := record.timestamp.sec

def Within (start stop : ℤ) (record : HistoryRecord) : Prop :=
  (start = 0 ∨ start < second record) ∧ second record ≤ stop

instance (start stop : ℤ) : DecidablePred (Within start stop) :=
  fun _ => inferInstanceAs (Decidable (_ ∧ _))

/-- The history storage with the values of an item. Reads by count are numbered, since two of them
may take other values of the oldest second. -/
structure HistoryStorage where
  stored : List HistoryRecord
  range : ℤ → ℤ → List HistoryRecord
  newest : ℕ → ℤ → ℕ → ℤ → List HistoryRecord
  range_perm : ∀ start stop,
    (range start stop).Perm (stored.filter fun r => start < second r ∧ second r ≤ stop)
  newest_spec : ∀ call start count stop,
    NewestBy second count (stored.filter fun r => Within start stop r) (newest call start count stop)

/-- `zbx_vector_history_record_sort` with `zbx_history_record_compare_desc`. -/
structure DescendingSort where
  sort : List HistoryRecord → List HistoryRecord
  perm : ∀ values, (sort values).Perm values
  descending : ∀ values, Descending recordKey (sort values)

def vcDbReadValuesByTime (storage : HistoryStorage) (rangeStart rangeEnd : ℤ) : List HistoryRecord :=
  storage.range (if rangeStart ≠ 0 then rangeStart - 1 else rangeStart) rangeEnd

def dropOldest (sec : ℤ) (values : List HistoryRecord) : List HistoryRecord :=
  values.rdropWhile fun value => second value = sec

def countLater (ts : Timespec) : List HistoryRecord → ℕ
  | [] => 0
  | newest :: older =>
    ((newest :: older).takeWhile fun value => second value = second newest).countP fun value =>
      0 > zbxTimespecCompare ts value.timestamp

def finishRead (storage : HistoryStorage) (valuesStart count : ℕ) (ts : Timespec)
    (values : List HistoryRecord) : Option (List HistoryRecord) :=
  values.getLast?.map fun oldest =>
    let firstTimestamp := second oldest
    let kept := dropOldest firstTimestamp values
    let enough := (kept.drop valuesStart).countP fun value =>
      0 ≤ zbxTimespecCompare ts value.timestamp
    if count ≤ enough then kept
    else kept ++ storage.range (firstTimestamp - 1) firstTimestamp

def vcDbReadValuesByTimeAndCount (storage : HistoryStorage) (values : List HistoryRecord)
    (rangeStart : ℤ) (count : ℕ) (rangeEnd : ℤ) (ts : Timespec) : Option (List HistoryRecord) :=
  let start := if rangeStart ≠ 0 then rangeStart - 1 else rangeStart
  let reply := storage.newest 0 start (count + 1) rangeEnd
  let read := values ++ reply
  if reply.length < count then some read
  else
    let left := countLater ts reply
    if left ≠ 0 then
      read.getLast?.bind fun oldest =>
        let kept := dropOldest (second oldest) read
        let left := left + (read.length - kept.length)
        let reply := storage.newest 1 start left (second oldest)
        if reply.length < left then some (kept ++ reply)
        else finishRead storage values.length count ts (kept ++ reply)
    else finishRead storage values.length count ts read

/-- What `vc_db_get_values` does with the values that were read. -/
def cutValues (sorting : DescendingSort) (seconds : ℤ) (count : ℕ) (ts : Timespec)
    (values : List HistoryRecord) : List HistoryRecord :=
  let sorted := sorting.sort values
  let upTo := sorted.dropWhile fun value => ¬0 ≥ zbxTimespecCompare value.timestamp ts
  let counted := if count ≠ 0 then upTo.take count else upTo
  if seconds ≠ 0 then
    counted.rdropWhile fun value => 0 ≥ zbxTimespecCompare value.timestamp ⟨ts.sec - seconds, ts.ns⟩
  else counted

def vcDbGetValues (storage : HistoryStorage) (sorting : DescendingSort) (seconds : ℤ) (count : ℕ)
    (ts : Timespec) : Option (List HistoryRecord) :=
  (if count = 0 then some (vcDbReadValuesByTime storage (ts.sec - seconds) ts.sec)
    else
      let rangeStart := if seconds = 0 then 0 else ts.sec - seconds
      vcDbReadValuesByTimeAndCount storage [] rangeStart count ts.sec ts).map
    (cutValues sorting seconds count ts)

def Requested (seconds : ℤ) (ts : Timespec) (record : HistoryRecord) : Prop :=
  recordKey record ≤ timeKey ts ∧ (seconds = 0 ∨ timeKey ⟨ts.sec - seconds, ts.ns⟩ < recordKey record)

instance (seconds : ℤ) (ts : Timespec) : DecidablePred (Requested seconds ts) :=
  fun _ => inferInstanceAs (Decidable (_ ∧ _))

def readStart (seconds : ℤ) (ts : Timespec) : ℤ :=
  let rangeStart := if seconds = 0 then 0 else ts.sec - seconds
  if rangeStart ≠ 0 then rangeStart - 1 else rangeStart

def HistoryStorage.inSeconds (storage : HistoryStorage) (seconds : ℤ) (ts : Timespec) :
    List HistoryRecord :=
  storage.stored.filter fun r => Within (readStart seconds ts) ts.sec r

def HistoryStorage.requested (storage : HistoryStorage) (seconds : ℤ) (ts : Timespec) :
    List HistoryRecord :=
  storage.stored.filter fun r => Requested seconds ts r

/-- From some second on there are as many values as both reads by count give, but fewer in the range
than were asked for, and older ones in it. -/
def MissesOlder (storage : HistoryStorage) (seconds : ℤ) (count : ℕ) (ts : Timespec) : Prop :=
  let reply := storage.newest 0 (readStart seconds ts) (count + 1) ts.sec
  let later := reply.countP fun value => timeKey ts < recordKey value
  ∃ sec : ℤ,
    later + reply.length ≤
      ((storage.inSeconds seconds ts).filter fun r => sec ≤ second r).length ∧
    ((storage.requested seconds ts).filter fun r => sec ≤ second r).length < count ∧
    ∃ r ∈ storage.requested seconds ts, second r < sec

variable {storage : HistoryStorage} {sorting : DescendingSort} {seconds sec : ℤ} {count : ℕ}
  {ts : Timespec} {values reply older : List HistoryRecord} {z r : HistoryRecord}

theorem compare_nonneg_iff {t₁ t₂ : Timespec} :
    0 ≤ zbxTimespecCompare t₁ t₂ ↔ timeKey t₂ ≤ timeKey t₁ := by
  rw [timeKey_le_iff, zbxTimespecCompare]
  split_ifs <;> omega

theorem second_le_of_key (h : recordKey r ≤ timeKey ts) : second r ≤ ts.sec := by
  have hle := timeKey_le_iff.mp h
  rw [second]
  omega

theorem Requested.within (h : Requested seconds ts r) : Within (readStart seconds ts) ts.sec r := by
  refine ⟨?_, second_le_of_key h.1⟩
  rw [readStart]
  by_cases hzero : seconds = 0
  · rw [if_pos hzero]
    exact Or.inl rfl
  · have hle := timeKey_le_iff.mp (h.2.resolve_left hzero).le
    simp only at hle
    rw [if_neg hzero, second]
    by_cases hfirst : ts.sec - seconds = 0
    · left
      rw [if_neg (not_not.mpr hfirst)]
      exact hfirst
    · right
      rw [if_pos hfirst]
      omega

theorem requested_eq (storage : HistoryStorage) (seconds : ℤ) (ts : Timespec) :
    storage.requested seconds ts =
      (storage.inSeconds seconds ts).filter fun r => Requested seconds ts r := by
  rw [HistoryStorage.requested, HistoryStorage.inSeconds, filter_filter]
  apply filter_congr
  intro r _
  by_cases hr : Requested seconds ts r
  · simp [hr, hr.within]
  · simp [hr]

theorem mem_inSeconds_of_requested (h : r ∈ storage.requested seconds ts) :
    r ∈ storage.inSeconds seconds ts := by
  rw [requested_eq] at h
  exact (mem_filter.mp h).1

theorem cutValues_eq (hcount : count ≠ 0) (values : List HistoryRecord) :
    cutValues sorting seconds count ts values =
      ((sorting.sort values).filter fun r => Requested seconds ts r).take count := by
  have hsorted := sorting.descending values
  have hupTo : ((sorting.sort values).dropWhile fun value => ¬0 ≥ zbxTimespecCompare value.timestamp ts) =
      (sorting.sort values).filter fun value => recordKey value ≤ timeKey ts := by
    rw [hsorted.dropWhile_eq]
    · apply filter_congr
      intro a _
      simp only [ge_iff_le, compare_le_iff, decide_not, Bool.not_not]
      rfl
    · intro a _ b hle ha
      simp only [ge_iff_le, compare_le_iff, decide_eq_false_iff_not, not_not] at ha ⊢
      exact hle.trans ha
  rw [cutValues]
  simp only [hupTo, if_pos hcount]
  by_cases hzero : seconds = 0
  · rw [if_neg (not_not.mpr hzero)]
    congr 1
    apply filter_congr
    intro a _
    rw [decide_eq_decide, Requested]
    exact (and_iff_left (Or.inl hzero)).symm
  · have hdesc : Descending recordKey
        ((sorting.sort values).filter fun value => recordKey value ≤ timeKey ts) :=
      hsorted.sublist filter_sublist
    rw [if_pos hzero, (hdesc.sublist (take_sublist count _)).rdropWhile_eq, hdesc.filter_take,
      filter_filter]
    · congr 1
      apply filter_congr
      intro a _
      simp only [ge_iff_le, compare_le_iff, Requested, hzero, false_or]
      rw [← decide_not, ← Bool.decide_and, decide_eq_decide, not_le]
      exact and_comm
    · intro a _ b hle ha
      simp only [ge_iff_le, compare_le_iff, Bool.not_eq_eq_eq_not, Bool.not_false,
        decide_eq_true_iff] at ha ⊢
      exact hle.trans ha
    · intro a _ b hle ha
      simp only [ge_iff_le, compare_le_iff, decide_eq_false_iff_not] at ha ⊢
      exact fun hb => ha (hle.trans hb)

theorem cutValues_exact_iff (sec : ℤ) (hcount : count ≠ 0)
    (hvalues : values.Perm ((storage.inSeconds seconds ts).filter fun r => sec ≤ second r)) :
    NewestBy recordKey count (storage.requested seconds ts) (cutValues sorting seconds count ts values) ↔
      count ≤ ((storage.requested seconds ts).filter fun r => sec ≤ second r).length ∨
        ∀ r ∈ storage.requested seconds ts, sec ≤ second r := by
  rw [cutValues_eq hcount]
  have hperm : ((sorting.sort values).filter fun r => Requested seconds ts r).Perm
      ((storage.requested seconds ts).filter fun r => sec ≤ second r) := by
    rw [requested_eq, filter_comm]
    exact ((sorting.perm values).trans hvalues).filter _
  have hiff := NewestBy.take_iff (k := count)
    ((sorting.descending values).sublist (filter_sublist (p := fun r => Requested seconds ts r)))
    hperm (fun a _ b _ ha hb => by
      rw [decide_eq_true_iff] at ha hb
      exact key_le_of_sec ((not_le.mp hb).trans_le ha))
  rw [hiff, hperm.length_eq]
  simp only [decide_eq_true_iff]

theorem cutValues_exact (hcount : count ≠ 0) (hvalues : values.Perm (storage.inSeconds seconds ts)) :
    NewestBy recordKey count (storage.requested seconds ts)
      (cutValues sorting seconds count ts values) := by
  obtain ⟨sec, hsec⟩ : ∃ sec, ∀ r ∈ storage.inSeconds seconds ts, sec ≤ second r := by
    induction storage.inSeconds seconds ts with
    | nil => exact ⟨0, fun r hr => nomatch hr⟩
    | cons a l ih =>
      obtain ⟨sec, hsec⟩ := ih
      refine ⟨min sec (second a), forall_mem_cons.mpr ⟨min_le_right _ _, fun r hr => ?_⟩⟩
      exact (min_le_left _ _).trans (hsec r hr)
  have hall : ((storage.inSeconds seconds ts).filter fun r => sec ≤ second r) =
      storage.inSeconds seconds ts :=
    filter_eq_self.mpr fun r hr => decide_eq_true (hsec r hr)
  rw [cutValues_exact_iff sec hcount (by rw [hall]; exact hvalues)]
  exact Or.inr fun r hr => hsec r (mem_inSeconds_of_requested hr)

theorem count_upTo_eq (hr : r ∈ storage.requested seconds ts) (hlt : second r < sec) :
    ((storage.inSeconds seconds ts).filter fun r => sec ≤ second r).countP
        (fun value => 0 ≤ zbxTimespecCompare ts value.timestamp) =
      ((storage.requested seconds ts).filter fun r => sec ≤ second r).length := by
  rw [requested_eq, filter_comm, countP_eq_length_filter]
  congr 1
  apply filter_congr
  intro a ha
  have hsec := (mem_filter.mp ha).2
  rw [decide_eq_true_iff] at hsec
  have hrequested := (mem_filter.mp hr).2
  rw [decide_eq_true_iff] at hrequested
  rw [decide_eq_decide, compare_nonneg_iff]
  constructor
  · intro hle
    refine ⟨hle, hrequested.2.imp id fun hstart => ?_⟩
    exact hstart.trans_le (key_le_of_sec (lt_of_lt_of_le hlt hsec))
  · exact fun hboth => hboth.1

theorem filter_length_le {sec sec' : ℤ} (h : sec ≤ sec') :
    (l.filter fun r => sec' ≤ second r).length ≤ (l.filter fun r => sec ≤ second r).length := by
  rw [← countP_eq_length_filter, ← countP_eq_length_filter]
  apply countP_mono_left
  intro a _ ha
  rw [decide_eq_true_iff] at ha ⊢
  exact h.trans ha

theorem dropOldest_eq (h : NewestBy second c l (older ++ [z])) :
    dropOldest (second z) (older ++ [z]) = (older ++ [z]).filter fun r => second z < second r := by
  rw [dropOldest, h.sorted.rdropWhile_eq]
  · apply filter_congr
    intro a ha
    have hle := h.last_le a ha
    rw [← decide_not, decide_eq_decide]
    omega
  · intro a ha b hle hne
    have hle' := h.last_le a ha
    rw [decide_eq_false_iff_not] at hne ⊢
    omega

theorem not_missesOlder_of_all {later : ℕ}
    (hlater : later = (storage.newest 0 (readStart seconds ts) (count + 1) ts.sec).countP
      fun value => timeKey ts < recordKey value)
    (hall : (storage.inSeconds seconds ts).length ≤
      later + (storage.newest 0 (readStart seconds ts) (count + 1) ts.sec).length) :
    ¬MissesOlder storage seconds count ts := by
  intro hmisses
  obtain ⟨sec, hmany, -, r, hr, hlt⟩ := hmisses
  have hless : ((storage.inSeconds seconds ts).filter fun r => sec ≤ second r).length <
      (storage.inSeconds seconds ts).length := by
    apply length_filter_lt_of_mem (mem_inSeconds_of_requested hr)
    rw [decide_eq_true_iff, not_le]
    exact hlt
  rw [← hlater] at hmany
  omega

theorem range_second_perm (hz : Within (readStart seconds ts) ts.sec z) :
    (storage.range (second z - 1) (second z)).Perm
      ((storage.inSeconds seconds ts).filter fun r => second r = second z) := by
  refine (storage.range_perm _ _).trans (Perm.of_eq ?_)
  rw [HistoryStorage.inSeconds, filter_filter]
  apply filter_congr
  intro r _
  rw [← Bool.decide_and, decide_eq_decide]
  constructor
  · intro h
    have heq : second r = second z := by omega
    refine ⟨heq, ?_⟩
    rw [Within, heq]
    exact hz
  · intro h
    omega

theorem finishRead_spec (storage : HistoryStorage)
    (hread : NewestBy second c (storage.inSeconds seconds ts) (older ++ [z]))
    (hlength : (older ++ [z]).length =
      (storage.newest 0 (readStart seconds ts) (count + 1) ts.sec).countP
          (fun value => timeKey ts < recordKey value) +
        (storage.newest 0 (readStart seconds ts) (count + 1) ts.sec).length) :
    ∃ values sec, finishRead storage 0 count ts (older ++ [z]) = some values ∧
      values.Perm ((storage.inSeconds seconds ts).filter fun r => sec ≤ second r) ∧
      (count ≤ ((storage.requested seconds ts).filter fun r => sec ≤ second r).length ∨
        (∀ r ∈ storage.requested seconds ts, sec ≤ second r) ↔
          ¬MissesOlder storage seconds count ts) := by
  have hkept := hread.filter_gt
  have hwithin : Within (readStart seconds ts) ts.sec z := by
    have hmem := hread.mem (mem_append_right older (mem_singleton_self z))
    exact of_decide_eq_true (mem_filter.mp hmem).2
  rw [finishRead, getLast?_concat, Option.map_some]
  simp only
  rw [dropOldest_eq hread, drop_zero, hkept.countP_eq]
  have hnext : ((storage.inSeconds seconds ts).filter fun r => second z < second r) =
      (storage.inSeconds seconds ts).filter fun r => second z + 1 ≤ second r := by
    apply filter_congr
    intro r _
    rw [decide_eq_decide]
    omega
  split_ifs with henough
  · -- the values of the oldest second are not needed
    refine ⟨_, second z + 1, rfl, hkept.trans (Perm.of_eq hnext), ?_⟩
    rw [hnext] at henough
    refine iff_of_true ?_ ?_
    · by_cases hall : ∀ r ∈ storage.requested seconds ts, second z + 1 ≤ second r
      · exact Or.inr hall
      · push Not at hall
        obtain ⟨r, hr, hlt⟩ := hall
        rw [count_upTo_eq hr hlt] at henough
        exact Or.inl henough
    · intro hmisses
      obtain ⟨sec, hmany, hfew, r, hr, hlt⟩ := hmisses
      rw [← hlength] at hmany
      have hle := hread.le_of_length hmany
      rw [count_upTo_eq hr (by omega)] at henough
      have hmore := @filter_length_le (storage.requested seconds ts) sec (second z + 1) (by omega)
      omega
  · refine ⟨_, second z, rfl, ?_, ?_⟩
    · have hsplit : ((storage.inSeconds seconds ts).filter fun r => second z < second r) ++
          ((storage.inSeconds seconds ts).filter fun r => second r = second z) |>.Perm
          ((storage.inSeconds seconds ts).filter fun r => second z ≤ second r) := by
        have hparts := filter_append_perm (fun r => decide (second z < second r))
          ((storage.inSeconds seconds ts).filter fun r => second z ≤ second r)
        rw [filter_filter, filter_filter] at hparts
        refine Perm.trans (Perm.of_eq ?_) hparts
        congr 1
        · apply filter_congr
          intro r _
          rw [← Bool.decide_and, decide_eq_decide]
          omega
        · apply filter_congr
          intro r _
          rw [← decide_not, ← Bool.decide_and, decide_eq_decide]
          omega
      exact (hkept.append (range_second_perm hwithin)).trans hsplit
    · constructor
      · intro hexact hmisses
        obtain ⟨sec, hmany, hfew, r, hr, hlt⟩ := hmisses
        rw [← hlength] at hmany
        have hle := hread.le_of_length hmany
        have hmore := @filter_length_le (storage.requested seconds ts) sec (second z) hle
        obtain hcount | hall := hexact
        · omega
        · have hr := hall r hr
          omega
      · intro hnot
        by_contra hbad
        push Not at hbad
        obtain ⟨hfew, r, hr, hlt⟩ := hbad
        refine hnot ⟨second z, ?_, hfew, r, hr, hlt⟩
        rw [← hlength]
        exact hread.length_le

theorem countLater_eq (hsorted : Descending second reply) (hend : ∀ r ∈ reply, second r ≤ ts.sec) :
    countLater ts reply = reply.countP fun value => timeKey ts < recordKey value := by
  have hlater : ∀ value : HistoryRecord, decide (0 > zbxTimespecCompare ts value.timestamp) =
      decide (timeKey ts < recordKey value) := by
    intro value
    rw [decide_eq_decide, gt_iff_lt, ← not_le, compare_nonneg_iff, not_le]
    rfl
  cases reply with
  | nil => rfl
  | cons newest older =>
    obtain ⟨hnewest, -⟩ := pairwise_cons.mp hsorted
    rw [countLater]
    simp only [hlater]
    conv_rhs => rw [← takeWhile_append_dropWhile (p := fun value => second value = second newest)
      (l := newest :: older)]
    have hnone : ((newest :: older).dropWhile fun value => second value = second newest).countP
        (fun value => timeKey ts < recordKey value) = 0 := by
      rw [countP_eq_zero, hsorted.dropWhile_eq]
      · intro a ha
        obtain ⟨hmem, hne⟩ := mem_filter.mp ha
        rw [← decide_not, decide_eq_true_iff] at hne
        rw [decide_eq_true_iff, not_lt]
        -- a value of an older second is not too late
        have hle : second a ≤ second newest := by
          obtain rfl | hmem := mem_cons.mp hmem
          · exact le_rfl
          · exact hnewest a hmem
        have hstop := hend newest mem_cons_self
        apply timeKey_le_iff.mpr
        left
        change second a < ts.sec
        omega
      · intro a ha b hle hne
        rw [decide_eq_false_iff_not] at hne ⊢
        have hle' : second a ≤ second newest := by
          obtain rfl | ha := mem_cons.mp ha
          · exact le_rfl
          · exact hnewest a ha
        omega
    rw [countP_append, hnone, Nat.add_zero]

theorem mem_reply_le {call : ℕ} {start stop : ℤ} :
    ∀ r ∈ storage.newest call start c stop, second r ≤ stop := by
  intro r hr
  have hmem := (storage.newest_spec call start c stop).mem hr
  exact (of_decide_eq_true (mem_filter.mp hmem).2).2

theorem reread_spec (call : ℕ)
    (hspec : NewestBy second c (storage.inSeconds seconds ts) (older ++ [z])) (left : ℕ) :
    NewestBy second
      (((older ++ [z]).filter fun r => second z < second r).length + left)
      (storage.inSeconds seconds ts)
      (((older ++ [z]).filter fun r => second z < second r) ++
        storage.newest call (readStart seconds ts) left (second z)) := by
  apply NewestBy.append (hspec.sorted.sublist filter_sublist) hspec.filter_gt
  have hstop : second z ≤ ts.sec := by
    have hmem := hspec.mem (mem_append_right older (mem_singleton_self z))
    exact (of_decide_eq_true (mem_filter.mp hmem).2).2
  have hagain := storage.newest_spec call (readStart seconds ts) left (second z)
  have hseconds : ((storage.inSeconds seconds ts).filter fun r => second r ≤ second z) =
      storage.stored.filter fun r => Within (readStart seconds ts) (second z) r := by
    rw [HistoryStorage.inSeconds, filter_filter]
    apply filter_congr
    intro r _
    rw [← Bool.decide_and, decide_eq_decide, Within, Within]
    omega
  rw [hseconds]
  exact hagain

theorem readByTimeAndCount_spec (storage : HistoryStorage) (seconds : ℤ) (hcount : count ≠ 0)
    (ts : Timespec) :
    ∃ values, vcDbReadValuesByTimeAndCount storage [] (if seconds = 0 then 0 else ts.sec - seconds)
        count ts.sec ts = some values ∧
      (values.Perm (storage.inSeconds seconds ts) ∧ ¬MissesOlder storage seconds count ts ∨
        ∃ sec, values.Perm ((storage.inSeconds seconds ts).filter fun r => sec ≤ second r) ∧
          (count ≤ ((storage.requested seconds ts).filter fun r => sec ≤ second r).length ∨
            (∀ r ∈ storage.requested seconds ts, sec ≤ second r) ↔
              ¬MissesOlder storage seconds count ts)) := by
  obtain ⟨reply, hreply⟩ : ∃ reply, reply =
      storage.newest 0 (readStart seconds ts) (count + 1) ts.sec := ⟨_, rfl⟩
  have hspec : NewestBy second (count + 1) (storage.inSeconds seconds ts) reply := by
    rw [hreply]
    exact storage.newest_spec 0 (readStart seconds ts) (count + 1) ts.sec
  have hend : ∀ r ∈ reply, second r ≤ ts.sec := by
    rw [hreply]
    exact mem_reply_le
  have hlater := countLater_eq hspec.sorted hend
  rw [vcDbReadValuesByTimeAndCount]
  simp only [nil_append, length_nil]
  rw [show (if (if seconds = 0 then 0 else ts.sec - seconds) ≠ 0 then
      (if seconds = 0 then 0 else ts.sec - seconds) - 1
    else if seconds = 0 then 0 else ts.sec - seconds) = readStart seconds ts from rfl, ← hreply]
  by_cases hfew : reply.length < count
  · rw [if_pos hfew]
    have hall := hspec.perm_of_lt (by omega)
    have hlength := hall.length_eq
    exact ⟨reply, rfl, Or.inl ⟨hall, not_missesOlder_of_all rfl (by rw [← hreply]; omega)⟩⟩
  · rw [if_neg hfew]
    obtain rfl | ⟨older, z, rfl⟩ := eq_nil_or_concat' reply
    · rw [length_nil] at hfew
      omega
    · by_cases hleft : countLater ts (older ++ [z]) = 0
      · rw [if_neg (not_not.mpr hleft)]
        have hlength : (older ++ [z]).length = (storage.newest 0 (readStart seconds ts) (count + 1)
            ts.sec).countP (fun value => timeKey ts < recordKey value) +
            (storage.newest 0 (readStart seconds ts) (count + 1) ts.sec).length := by
          rw [← hreply, ← hlater, hleft, Nat.zero_add]
        obtain ⟨values, sec, hfinish, hperm, hiff⟩ := finishRead_spec storage hspec hlength
        exact ⟨values, hfinish, Or.inr ⟨sec, hperm, hiff⟩⟩
      · rw [if_pos hleft, getLast?_concat, Option.bind_some]
        rw [hlater] at hleft ⊢
        obtain ⟨kept, hkept⟩ : ∃ kept, kept = dropOldest (second z) (older ++ [z]) := ⟨_, rfl⟩
        rw [← hkept]
        rw [dropOldest_eq hspec] at hkept
        have hless : kept.length ≤ (older ++ [z]).length := by
          rw [hkept]
          exact length_filter_le _ _
        obtain ⟨left, hsum⟩ : ∃ left, left = (older ++ [z]).countP (fun value => timeKey ts <
            recordKey value) + ((older ++ [z]).length - kept.length) := ⟨_, rfl⟩
        rw [← hsum]
        have hagain := reread_spec 1 hspec left
        rw [← hkept] at hagain
        obtain ⟨again, hdef⟩ : ∃ again, again =
            storage.newest 1 (readStart seconds ts) left (second z) := ⟨_, rfl⟩
        rw [← hdef] at hagain ⊢
        have hsize := hagain.length
        rw [length_append] at hsize
        by_cases hfewer : again.length < left
        · rw [if_pos hfewer]
          have hall := hagain.perm_of_lt (by rw [length_append]; omega)
          have hlength := hall.length_eq
          rw [length_append] at hlength
          exact ⟨kept ++ again, rfl, Or.inl ⟨hall, not_missesOlder_of_all rfl (by rw [← hreply]; omega)⟩⟩
        · rw [if_neg hfewer]
          obtain rfl | ⟨older', z', rfl⟩ := eq_nil_or_concat' again
          · rw [length_nil] at hfewer
            omega
          · rw [← append_assoc] at hagain ⊢
            have hlength : (kept ++ older' ++ [z']).length = (storage.newest 0 (readStart seconds ts)
                (count + 1) ts.sec).countP (fun value => timeKey ts < recordKey value) +
                (storage.newest 0 (readStart seconds ts) (count + 1) ts.sec).length := by
              rw [← hreply, append_assoc, length_append]
              omega
            obtain ⟨values, sec, hfinish, hperm, hiff⟩ := finishRead_spec storage hagain hlength
            exact ⟨values, hfinish, Or.inr ⟨sec, hperm, hiff⟩⟩

/-- A read by count gives the newest values of the range just when no older ones are missed. -/
theorem vcDbGetValues_newest_iff (storage : HistoryStorage) (sorting : DescendingSort) (seconds : ℤ)
    (hcount : 0 < count) (ts : Timespec) :
    ∃ values, vcDbGetValues storage sorting seconds count ts = some values ∧
      (NewestBy recordKey count (storage.requested seconds ts) values ↔
        ¬MissesOlder storage seconds count ts) := by
  have hpos : count ≠ 0 := by omega
  obtain ⟨values, hread, hcut⟩ := readByTimeAndCount_spec storage seconds hpos ts
  refine ⟨cutValues sorting seconds count ts values, ?_, ?_⟩
  · rw [vcDbGetValues, if_neg hpos]
    simp only
    rw [hread, Option.map_some]
  · obtain ⟨hall, hnot⟩ | ⟨sec, hperm, hiff⟩ := hcut
    · exact iff_of_true (cutValues_exact hpos hall) hnot
    · rw [cutValues_exact_iff sec hpos hperm]
      exact hiff

def HistoryStorage.ofList (stored : List HistoryRecord) : HistoryStorage where
  stored := stored
  range start stop := stored.filter fun r => start < second r ∧ second r ≤ stop
  newest _ start count stop :=
    ((stored.filter fun r => Within start stop r).insertionSort fun a b => second b ≤ second a).take
      count
  range_perm _ _ := Perm.refl _
  newest_spec _ _ _ _ := NewestBy.insertionSort_take second _ _

def DescendingSort.insertion : DescendingSort where
  sort values := values.insertionSort fun a b => recordKey b ≤ recordKey a
  perm values := perm_insertionSort _ values
  descending values := insertionSort_descending recordKey values

def burst (late : ℕ) : List HistoryRecord :=
  (range late).map (fun ns => ⟨⟨10, (ns : ℤ) + 1⟩, .ui64 1⟩) ++ [⟨⟨9, 0⟩, .ui64 0⟩]

theorem vcDbGetValues_newest_burst :
    NewestBy recordKey 1 ((HistoryStorage.ofList (burst 3)).requested 0 ⟨10, 0⟩)
      [⟨⟨9, 0⟩, .ui64 0⟩] := by
  obtain ⟨values, hget, hiff⟩ := vcDbGetValues_newest_iff (.ofList (burst 3)) .insertion 0
    Nat.one_pos ⟨10, 0⟩
  have hnot : ¬MissesOlder (.ofList (burst 3)) 0 1 ⟨10, 0⟩ := by
    intro hmisses
    obtain ⟨sec, hmany, -, r, hr, hlt⟩ := hmisses
    have holdest : ∀ r ∈ (HistoryStorage.ofList (burst 3)).requested 0 ⟨10, 0⟩, second r = 9 := by
      decide
    have hle : 10 ≤ sec := by
      rw [holdest r hr] at hlt
      omega
    have hburst : (((HistoryStorage.ofList (burst 3)).inSeconds 0 ⟨10, 0⟩).filter
        fun r => 10 ≤ second r).length = 3 := by
      decide
    have hread : 4 = ((HistoryStorage.ofList (burst 3)).newest 0 (readStart 0 ⟨10, 0⟩) (1 + 1) 10).countP
        (fun value => timeKey ⟨10, 0⟩ < recordKey value) +
        ((HistoryStorage.ofList (burst 3)).newest 0 (readStart 0 ⟨10, 0⟩) (1 + 1) 10).length := by
      decide
    have hfour := (hread.trans_le hmany).trans ((filter_length_le hle).trans_eq hburst)
    omega
  have hvalues : vcDbGetValues (.ofList (burst 3)) .insertion 0 1 ⟨10, 0⟩ =
      some [⟨⟨9, 0⟩, .ui64 0⟩] := by
    decide
  rw [hvalues, Option.some.injEq] at hget
  rw [hget]
  exact hiff.mpr hnot

/-- With one more value in the burst, the second read ends in it, and nothing is left. -/
theorem vcDbGetValues_misses_older :
    ¬∀ (storage : HistoryStorage) (sorting : DescendingSort) (seconds : ℤ) (count : ℕ) (ts : Timespec),
      0 < count → ∃ values, vcDbGetValues storage sorting seconds count ts = some values ∧
        NewestBy recordKey count (storage.requested seconds ts) values := by
  intro h
  obtain ⟨values, hget, hnewest⟩ := h (.ofList (burst 4)) .insertion 0 1 ⟨10, 0⟩ Nat.one_pos
  have hnone : vcDbGetValues (.ofList (burst 4)) .insertion 0 1 ⟨10, 0⟩ = some [] := by
    decide
  have hone : ((HistoryStorage.ofList (burst 4)).requested 0 ⟨10, 0⟩).length = 1 := by
    decide
  rw [hnone, Option.some.injEq] at hget
  have hlength := hnewest.length
  rw [← hget, hone, length_nil] at hlength
  omega

end Zabbix.ValueCache
