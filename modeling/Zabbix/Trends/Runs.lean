import Zabbix.Foundation.Transition
import Zabbix.Trends.Invalidation

/-!
# Runs of the trend function cache

Next to the cache, a run keeps for each request what a lookup has to give.
-/

namespace Zabbix.Trends

open List Option Tfc

variable {D : Type} {c c' : Tfc D} {slotsNum : ℕ}

inductive Op (D : Type)
  | get (r : Request)
  | put (dataLocal : TfcData D) (r : Request) (result : Result D)
  | invalidate (trends : List DcTrend)

def Tfc.step (c : Tfc D) : Op D → Option (Tfc D)
  | .get r => some (zbxTfcGetValue c r).2
  | .put dataLocal r result => zbxTfcPutValue c dataLocal r result
  | .invalidate trends => zbxTfcInvalidateTrends c trends

def Request.Covers (r : Request) (trend : DcTrend) : Prop :=
  r.itemid = trend.itemid ∧ r.start ≤ trend.clock ∧ trend.clock ≤ r.finish

instance (r : Request) (trend : DcTrend) : Decidable (r.Covers trend) :=
  inferInstanceAs (Decidable (_ ∧ _ ∧ _))

abbrev Ledger (D : Type) := Request → Option (D × TrendState)

/-- What a lookup has to give after a call on the cache `c`. -/
def Ledger.step (l : Ledger D) (c : Tfc D) : Op D → Ledger D
  | .get _ => l
  | .put dataLocal r result => fun q =>
    if q = r then some (result.value, result.state)
    else if q.key ∈ c.victims dataLocal r then none
    else l q
  | .invalidate trends => fun q => if ∃ trend ∈ trends, q.Covers trend then none else l q

def step (s : Tfc D × Ledger D) (op : Op D) : Option (Tfc D × Ledger D) :=
  (s.1.step op).map fun c => (c, s.2.step s.1 op)

def start (slotsNum : ℕ) (slots : ℕ → TfcData D) : Tfc D × Ledger D :=
  (zbxTfcInit slotsNum slots, fun _ => none)

def IntRange (t : ℤ) : Prop := -2 ^ 31 ≤ t ∧ t < 2 ^ 31

instance (t : ℤ) : Decidable (IntRange t) := inferInstanceAs (Decidable (_ ∧ _))

def Request.InRange (r : Request) : Prop := IntRange r.start ∧ IntRange r.finish

instance (r : Request) : Decidable r.InRange := inferInstanceAs (Decidable (_ ∧ _))

def Op.InRange : Op D → Prop
  | .get r => r.InRange
  | .put _ r _ => r.InRange
  | .invalidate _ => True

instance : (op : Op D) → Decidable op.InRange
  | .get r => inferInstanceAs (Decidable r.InRange)
  | .put _ r _ => inferInstanceAs (Decidable r.InRange)
  | .invalidate _ => inferInstanceAs (Decidable True)

theorem int_of_range {t : ℤ} (h : IntRange t) : int t = t := by
  obtain ⟨hlow, hhigh⟩ := h
  exact Int.bmod_eq_of_le (by norm_num; omega) (by norm_num; omega)

theorem Request.key_eq {r : Request} (h : r.InRange) :
    r.key = ⟨r.itemid, r.start, r.finish, r.function⟩ := by
  rw [Request.key, int_of_range h.1, int_of_range h.2]

theorem Request.key_inj {q r : Request} (hq : q.InRange) (hr : r.InRange) :
    q.key = r.key ↔ q = r := by
  rw [Request.key_eq hq, Request.key_eq hr]
  constructor
  · intro heq
    obtain ⟨hitem, hstart, hfinish, hfunction⟩ := Key.mk.inj heq
    cases q
    cases r
    simp_all
  · exact fun heq => heq ▸ rfl

theorem Request.key_covers {r : Request} (hr : r.InRange) (trend : DcTrend) :
    r.key.Covers trend ↔ r.Covers trend := by
  rw [Request.key_eq hr]
  rfl

theorem zbxTfcInit_structured (hmin : 3 ≤ slotsNum) (hmax : slotsNum * 5 < 2 ^ 32)
    (slots : ℕ → TfcData D) : Structured (zbxTfcInit slotsNum slots) := by
  refine ⟨[], [], fun _ => [], ⟨⟨⟨?_, ?_⟩, Nat.zero_le _, ?_, nodup_nil, ?_, rfl⟩, ?_, ?_, ?_, ?_, ?_,
    ?_, ?_, ?_, ?_, rfl, ?_⟩, ?_⟩
  · exact (Nat.le_succ 2).trans hmin
  · change slotsNum ≤ 2 ^ 32 - 1
    omega
  · have hprime := Algo.le_nextPrime (slotsNum * 5 % 2 ^ 32 / 4 + 4)
    rw [Nat.mod_eq_of_lt hmax] at hprime
    change slotsNum + 2 ≤ Algo.nextPrime (slotsNum * 5 % 2 ^ 32 / 4 + 4) * 4 / 5
    rw [Nat.mod_eq_of_lt hmax]
    omega
  · exact fun i => iff_of_false not_mem_nil (Nat.not_lt_zero i)
  · exact Ring.nil rfl rfl
  · exact nodup_nil
  · exact fun i => iff_of_false not_mem_nil fun hi => not_mem_nil hi.1
  · exact fun i hi => absurd hi not_mem_nil
  all_goals exact fun r hr => absurd hr (by simp [Tfc.Root, zbxTfcInit])

theorem step_structured (h : Structured c) (l : Ledger D) (op : Op D) :
    ∃ c', step (c, l) op = some (c', l.step c op) ∧ Structured c' := by
  cases op with
  | get r => exact ⟨_, rfl, (zbxTfcGetValue_structured h r).2.1⟩
  | put dataLocal r result =>
    obtain ⟨c', hput, hstructured, -⟩ := zbxTfcPutValue_structured h dataLocal r result
    exact ⟨c', by rw [step, Tfc.step, hput, map_some], hstructured⟩
  | invalidate trends =>
    obtain ⟨c', hinvalidate, hstructured, -⟩ := zbxTfcInvalidateTrends_structured trends h
    exact ⟨c', by rw [step, Tfc.step, hinvalidate, map_some], hstructured⟩

def Agrees (c : Tfc D) (l : Ledger D) : Prop := ∀ r : Request, r.InRange → c.cached r.key = l r

theorem step_agrees (h : Structured c) {l : Ledger D} (hagrees : Agrees c l) {op : Op D}
    (hop : op.InRange) (hstep : step (c, l) op = some (c', l.step c op)) :
    Agrees c' (l.step c op) := by
  have hstep : c.step op = some c' := by
    obtain ⟨c₁, hc₁, heq⟩ := map_eq_some_iff.mp hstep
    obtain ⟨rfl, -⟩ := Prod.mk.inj heq
    exact hc₁
  intro q hq
  have hknown : q.key.function ≠ .unknown := q.known
  cases op with
  | get r =>
    obtain ⟨-, -, hcached⟩ := zbxTfcGetValue_structured h r
    obtain rfl := some_inj.mp hstep
    rw [hcached]
    exact hagrees q hq
  | put dataLocal r result =>
    obtain ⟨c₁, hput, -, hcached⟩ := zbxTfcPutValue_structured h dataLocal r result
    obtain rfl := some_inj.mp (hput.symm.trans hstep)
    rw [hcached q.key hknown, hagrees q hq]
    simp only [Request.key_inj hq hop, Ledger.step]
  | invalidate trends =>
    obtain ⟨c₁, hinvalidate, -, hcached⟩ := zbxTfcInvalidateTrends_structured trends h
    obtain rfl := some_inj.mp (hinvalidate.symm.trans hstep)
    rw [hcached q.key hknown, hagrees q hq]
    simp only [Request.key_covers hq, Ledger.step]

theorem run_structured (ops : List (Op D)) :
    ∀ {c : Tfc D} {l : Ledger D}, Structured c →
      ∃ c' l', Transition.run step (c, l) ops = some (c', l') ∧ Structured c' ∧
        (Agrees c l → (∀ op ∈ ops, op.InRange) → Agrees c' l') := by
  induction ops with
  | nil =>
    intro c l h
    exact ⟨c, l, rfl, h, fun hagrees _ => hagrees⟩
  | cons op ops ih =>
    intro c l h
    obtain ⟨c₁, hstep, hstructured⟩ := step_structured h l op
    obtain ⟨c', l', hrun, hstructured', hagrees'⟩ := ih hstructured
    refine ⟨c', l', by rw [Transition.run, hstep, bind_some, hrun], hstructured', ?_⟩
    intro hagrees hops
    obtain ⟨hop, hops⟩ := forall_mem_cons.mp hops
    exact hagrees' (step_agrees h hagrees hop hstep) hops

/-- The cache never exits and keeps its structure, and where no time is cut a lookup gives the
value that was put last, when it was neither evicted nor invalidated, and nothing otherwise. -/
theorem trend_cache_run (hmin : 3 ≤ slotsNum) (hmax : slotsNum * 5 < 2 ^ 32)
    (slots : ℕ → TfcData D) (ops : List (Op D)) :
    ∃ c l, Transition.run step (start slotsNum slots) ops = some (c, l) ∧ Structured c ∧
      ((∀ op ∈ ops, op.InRange) → ∀ r : Request, r.InRange → (zbxTfcGetValue c r).1 = l r) := by
  have hinit := zbxTfcInit_structured hmin hmax slots
  obtain ⟨c, l, hrun, hstructured, hagrees⟩ := run_structured ops (l := fun _ => none) hinit
  refine ⟨c, l, hrun, hstructured, fun hops r hr => ?_⟩
  rw [(zbxTfcGetValue_structured hstructured r).1]
  exact hagrees (fun q _ => rfl) hops r hr

def emptySlot : TfcData ℕ where
  key := rootKey 0
  state := .unknown
  value := 0
  prev := 0
  next := 0
  prevValue := 0
  nextValue := 0

def daily (start : ℤ) : Request := ⟨1, start, start + 82800, .avg, by decide⟩

def dayAndTrend (start : ℤ) : List (Op ℕ) :=
  [.put emptySlot (daily start) ⟨5, .normal, by decide⟩, .invalidate [⟨1, start + 3600⟩]]

theorem trend_cache_run_day :
    ∃ c l, Transition.run step (start 3 fun _ => emptySlot) (dayAndTrend 0) = some (c, l) ∧
      Structured c ∧ (zbxTfcGetValue c (daily 0)).1 = l (daily 0) := by
  obtain ⟨c, l, hrun, hstructured, hagrees⟩ :=
    trend_cache_run (show 3 ≤ 3 by decide) (show 3 * 5 < 2 ^ 32 by decide) (fun _ => emptySlot)
      (dayAndTrend 0)
  exact ⟨c, l, hrun, hstructured, hagrees (by decide) (daily 0) (by decide)⟩

/-- The day ends after the last time of an `int`, so that it is found in spite of the trend. -/
theorem lateDay_not_agrees :
    ¬ ∃ c l, Transition.run step (start 3 fun _ => emptySlot) (dayAndTrend 2147472000) = some (c, l) ∧
      Structured c ∧ ∀ r : Request, (zbxTfcGetValue c r).1 = l r := by
  rintro ⟨c, l, hrun, -, hagrees⟩
  have hlookup : (Transition.run step (start 3 fun _ => emptySlot) (dayAndTrend 2147472000)).map
      (fun s => ((zbxTfcGetValue s.1 (daily 2147472000)).1, s.2 (daily 2147472000))) =
        some (some (5, .normal), none) := by
    decide +kernel
  rw [hrun, map_some, hagrees, some_inj] at hlookup
  obtain ⟨hfound, hnone⟩ := Prod.mk.inj hlookup
  exact absurd (hfound.symm.trans hnone) (some_ne_none _)

end Zabbix.Trends
