import Zabbix.Foundation.ReadThrough
import Zabbix.Trends.Evaluators
import Zabbix.Trends.Runs

/-!
# Coherence of the trend function cache

A system of evaluators and syncers is a system of readers and writers of the cached keys.
-/

namespace Zabbix.Trends

open Option Function Tfc ReadThrough

variable {Row D P : Type} (a : Arithmetic Row D)
variable {k : Key} {leastTs : Option ℤ}

abbrev ValueKey := { k : Key // k.function ≠ .unknown }

def Request.valueKey (r : Request) : ValueKey := ⟨r.key, r.known⟩

/-- The value and the state are what the function gives for the committed trends; where it gives
no value any is right. -/
def Right (db : Db Row) (k : ValueKey) (v : D × TrendState) : Prop :=
  ∃ value, v = (((zbxTrendsEval a db none k).result value).value,
    ((zbxTrendsEval a db none k).result value).state)

def Touches (trends : List (Trend Row)) (k : Key) : Prop := ∃ t ∈ trends, k.Covers t.dc

theorem flushTrend_period (db : Db Row) {t : Trend Row} (h : ¬ k.Covers t.dc) :
    (flushTrend a db t).period k.itemid k.start k.finish = db.period k.itemid k.start k.finish := by
  funext clock
  unfold Db.period
  split_ifs with hclock
  · unfold flushTrend
    by_cases hitem : k.itemid = t.itemid
    · have hne : clock ≠ t.clock := by
        rintro rfl
        exact h ⟨hitem, hclock⟩
      rw [hitem, update_self, update_of_ne hne]
    · rw [update_of_ne hitem]
  · rfl

variable {trends : List (Trend Row)}

theorem dbMassUpdateTrends_period (h : ¬ Touches trends k) :
    ∀ db : Db Row, (dbMassUpdateTrends a db trends).period k.itemid k.start k.finish =
      db.period k.itemid k.start k.finish := by
  induction trends with
  | nil => exact fun _ => rfl
  | cons t trends ih =>
    intro db
    have hhead : ¬ k.Covers t.dc := fun ht => h ⟨t, List.mem_cons_self, ht⟩
    have htail : ¬ Touches trends k := fun ⟨t', ht', hk⟩ => h ⟨t', List.mem_cons_of_mem t ht', hk⟩
    exact (ih htail _).trans (flushTrend_period a db hhead)

theorem zbxTrendsEval_congr {db db' : Db Row}
    (h : db'.period k.itemid k.start k.finish = db.period k.itemid k.start k.finish) :
    zbxTrendsEval a db' none k = zbxTrendsEval a db none k := by
  have heval : trendsEval a db' none k = trendsEval a db none k := by
    unfold trendsEval
    simp only [zbxRecalcTimePeriod]
    rw [h]
  simp only [zbxTrendsEval, heval]

theorem right_frame (db : Db Row) (trends : List (Trend Row)) (k : ValueKey) (v : D × TrendState)
    (h : ¬ Touches trends k) (hright : Right a db k v) :
    Right a (dbMassUpdateTrends a db trends) k v := by
  unfold Right
  rw [zbxTrendsEval_congr a (dbMassUpdateTrends_period a h db)]
  exact hright

variable {r : Request}

theorem right_of_read (db : Db Row) (hr : r.InRange)
    (hleast : zbxRecalcTimePeriod leastTs r.start = r.start) (value : D) :
    Right a db r.valueKey (((zbxTrendsEval a db leastTs r.period).result value).value,
      ((zbxTrendsEval a db leastTs r.period).result value).state) := by
  have hkey : r.key = r.period := Request.key_eq hr
  have heval : trendsEval a db leastTs r.period = trendsEval a db none r.period := by
    unfold trendsEval
    rw [show r.period.start = r.start from rfl, hleast]
    rfl
  refine ⟨value, ?_⟩
  simp only [Request.valueKey, hkey, zbxTrendsEval, heval]

def Evaluator.reader : Evaluator D → Reader ValueKey (D × TrendState)
  | .idle => .idle
  | .missed r => .missed r.valueKey
  | .computed r result => .holds r.valueKey (result.value, result.state)

def Syncer.writer : Syncer Row → Writer (List (Trend Row))
  | .idle => .idle
  | .handed trends => .handed trends
  | .invalidated trends => .invalidated trends

def System.abs (s : System Row D P) :
    State P ValueKey (D × TrendState) (Db Row) (List (Trend Row)) where
  cached := fun k => s.cache.cached k
  store := s.db
  reader := Evaluator.reader ∘ s.evaluators
  writer := Syncer.writer ∘ s.syncers

/-- The steps that keep the cache coherent: an evaluator computes a whole period whose times fit and
does not insert a value while its trends are invalidated and not written; a syncer does not commit
trends that an evaluator has read and not inserted. -/
def System.Orderly (s : System Row D P) : Event Row D P → Prop
  | .read p leastTs _ =>
    ∀ r, s.evaluators p = .missed r → r.InRange ∧ zbxRecalcTimePeriod leastTs r.start = r.start
  | .insert p _ =>
    ∀ r result, s.evaluators p = .computed r result →
      ∀ q trends, s.syncers q = .invalidated trends → ¬ Touches trends r.key
  | .commit q =>
    ∀ trends, s.syncers q = .invalidated trends →
      ∀ p r result, s.evaluators p = .computed r result → ¬ Touches trends r.key
  | _ => True

theorem reader_holds {e : Evaluator D} {k : ValueKey} {v : D × TrendState}
    (h : e.reader = .holds k v) :
    ∃ r result, e = .computed r result ∧ k = r.valueKey ∧ v = (result.value, result.state) := by
  cases e with
  | idle | missed r => simp [Evaluator.reader] at h
  | computed r result =>
    obtain ⟨hk, hv⟩ := Reader.holds.inj h
    exact ⟨r, result, rfl, hk.symm, hv.symm⟩

theorem writer_invalidated {y : Syncer Row} (h : y.writer = .invalidated trends) :
    y = .invalidated trends := by
  cases y with
  | idle | handed trends => simp [Syncer.writer] at h
  | invalidated trends => exact congrArg Syncer.invalidated (Writer.invalidated.inj h)

variable [DecidableEq P] {s t : System Row D P} {ev : Event Row D P}

theorem abs_evaluators (cache : Tfc D) (db : Db Row) (es : P → Evaluator D) (ss : P → Syncer Row)
    (p : P) (e : Evaluator D) :
    System.abs ⟨cache, db, update es p e, ss⟩ =
      { (⟨cache, db, es, ss⟩ : System Row D P).abs with
        reader := update (Evaluator.reader ∘ es) p e.reader } := by
  simp only [System.abs, comp_update]

theorem abs_syncers (cache : Tfc D) (db : Db Row) (es : P → Evaluator D) (ss : P → Syncer Row)
    (p : P) (y : Syncer Row) :
    System.abs ⟨cache, db, es, update ss p y⟩ =
      { (⟨cache, db, es, ss⟩ : System Row D P).abs with
        writer := update (Syncer.writer ∘ ss) p y.writer } := by
  simp only [System.abs, comp_update]

abbrev AbsStep (s t : System Row D P) : Prop :=
  Step (Right a) (dbMassUpdateTrends a) (fun trends k => Touches trends k.1) s.abs t.abs

variable {p : P}

variable (h : Structured s.cache)

include h

theorem lookup_abs (hstep : s.step a (.lookup p r) = some t) :
    Structured t.cache ∧ AbsStep a s t := by
  obtain ⟨-, hstructured, hcached⟩ := zbxTfcGetValue_structured h r
  have hsub : ∀ (k : ValueKey) v, (zbxTfcGetValue s.cache r).2.cached k = some v →
      s.abs.cached k = some v := fun k v hv => (hcached k).symm.trans hv
  unfold System.step at hstep
  cases hp : s.evaluators p with
  | missed _ => simp [hp] at hstep
  | computed _ _ => simp [hp] at hstep
  | idle =>
    simp only [hp] at hstep
    generalize zbxTfcGetValue s.cache r = found at hstep hstructured hsub
    obtain ⟨_ | _, cache⟩ := found
    · obtain rfl := some_inj.mp hstep
      refine ⟨hstructured, ?_⟩
      rw [AbsStep, abs_evaluators]
      exact .miss p r.valueKey (fun k : ValueKey => cache.cached k) hsub
    · obtain rfl := some_inj.mp hstep
      exact ⟨hstructured, .keep (fun k : ValueKey => cache.cached k) hsub⟩

theorem read_abs {value : D} (hok : s.Orderly (.read p leastTs value))
    (hstep : s.step a (.read p leastTs value) = some t) :
    Structured t.cache ∧ AbsStep a s t := by
  unfold System.step at hstep
  cases hp : s.evaluators p with
  | idle => simp [hp] at hstep
  | computed _ _ => simp [hp] at hstep
  | missed r =>
    simp only [hp] at hstep
    obtain rfl := some_inj.mp hstep
    obtain ⟨hrange, hleast⟩ := hok r hp
    refine ⟨h, ?_⟩
    rw [AbsStep, abs_evaluators]
    exact .read p r.valueKey _ (congrArg Evaluator.reader hp)
      (right_of_read a s.db hrange hleast value)

theorem insert_abs {dataLocal : TfcData D} (hok : s.Orderly (.insert p dataLocal))
    (hstep : s.step a (.insert p dataLocal) = some t) :
    Structured t.cache ∧ AbsStep a s t := by
  unfold System.step at hstep
  cases hp : s.evaluators p with
  | idle => simp [hp] at hstep
  | missed _ => simp [hp] at hstep
  | computed r result =>
    simp only [hp] at hstep
    obtain ⟨cache, hput, hstructured, hcached⟩ := zbxTfcPutValue_structured h dataLocal r result
    rw [hput, map_some] at hstep
    obtain rfl := some_inj.mp hstep
    refine ⟨hstructured, ?_⟩
    rw [AbsStep, abs_evaluators]
    refine .insert p r.valueKey (result.value, result.state) (fun k : ValueKey => cache.cached k)
      (congrArg Evaluator.reader hp) (fun q trends hq => ?_) fun k v hv => ?_
    · exact hok r result hp q trends (writer_invalidated hq)
    · rw [hcached k k.2] at hv
      split_ifs at hv with hk
      · exact .inl ⟨Subtype.ext hk, (some_inj.mp hv).symm⟩
      · exact .inr hv

theorem invalidate_abs (hstep : s.step a (.invalidate p) = some t) :
    Structured t.cache ∧ AbsStep a s t := by
  unfold System.step at hstep
  cases hp : s.syncers p with
  | idle => simp [hp] at hstep
  | invalidated _ => simp [hp] at hstep
  | handed trends =>
    simp only [hp] at hstep
    obtain ⟨cache, hinvalidate, hstructured, hcached⟩ :=
      zbxTfcInvalidateTrends_structured (trends.map Trend.dc) h
    rw [hinvalidate, map_some] at hstep
    obtain rfl := some_inj.mp hstep
    refine ⟨hstructured, ?_⟩
    rw [AbsStep, abs_syncers]
    refine .invalidate p trends (fun k : ValueKey => cache.cached k) (congrArg Syncer.writer hp) fun k v hv => ?_
    rw [hcached k k.2] at hv
    split_ifs at hv with hk
    refine ⟨hv, fun htouches => hk ?_⟩
    obtain ⟨trend, htrend, hcovers⟩ := htouches
    exact ⟨trend.dc, List.mem_map_of_mem htrend, hcovers⟩

theorem commit_abs {q : P} (hok : s.Orderly (.commit q)) (hstep : s.step a (.commit q) = some t)
    : Structured t.cache ∧ AbsStep a s t := by
  unfold System.step at hstep
  cases hq : s.syncers q with
  | idle => simp [hq] at hstep
  | handed _ => simp [hq] at hstep
  | invalidated trends =>
    simp only [hq] at hstep
    obtain rfl := some_inj.mp hstep
    refine ⟨h, ?_⟩
    rw [AbsStep, abs_syncers]
    refine .commit q trends (congrArg Syncer.writer hq) fun p k v hp => ?_
    obtain ⟨r, result, hcomputed, rfl, -⟩ := reader_holds hp
    exact hok trends hq p r result hcomputed

theorem step_abs (hok : s.Orderly ev) (hstep : s.step a ev = some t) :
    Structured t.cache ∧ AbsStep a s t := by
  cases ev with
  | lookup p r => exact lookup_abs a h hstep
  | read p leastTs value => exact read_abs a h hok hstep
  | insert p dataLocal => exact insert_abs a h hok hstep
  | hand p trends =>
    unfold System.step at hstep
    cases hp : s.syncers p with
    | handed _ => simp [hp] at hstep
    | invalidated _ => simp [hp] at hstep
    | idle =>
      simp only [hp] at hstep
      obtain rfl := some_inj.mp hstep
      refine ⟨h, ?_⟩
      rw [AbsStep, abs_syncers]
      exact .hand p trends
  | invalidate p => exact invalidate_abs a h hstep
  | commit p => exact commit_abs a h hok hstep
  | abort p =>
    unfold System.step at hstep
    cases hp : s.syncers p with
    | idle => simp [hp] at hstep
    | handed _ => simp [hp] at hstep
    | invalidated trends =>
      simp only [hp] at hstep
      obtain rfl := some_inj.mp hstep
      refine ⟨h, ?_⟩
      rw [AbsStep, abs_syncers]
      exact .abort p

omit h

def System.Coherent (s : System Row D P) : Prop :=
  ∀ (k : ValueKey) (v : D × TrendState), s.cache.cached k = some v → Right a s.db k v

omit [DecidableEq P] in
theorem starts_coherent (h : s.Starts) :
    Structured s.cache ∧
      ReadThrough.Coherent (Right a) (fun trends k => Touches trends k.1) s.abs := by
  obtain ⟨⟨slotsNum, slots, hmin, hmax, hcache⟩, hevaluators, hsyncers⟩ := h
  refine ⟨hcache ▸ zbxTfcInit_structured hmin hmax slots, fun k v hv => ?_, fun p k v hp => ?_,
    fun p w hp => ?_⟩
  · have hnone : s.cache.cached k = none := by
      rw [hcache]
      rfl
    exact absurd (hnone.symm.trans hv) (some_ne_none v).symm
  · obtain ⟨r, result, hcomputed, -⟩ := reader_holds hp
    rw [hevaluators] at hcomputed
    simp at hcomputed
  · have hinvalidated := writer_invalidated hp
    rw [hsyncers] at hinvalidated
    simp at hinvalidated

/-- In a run of orderly steps the cache is coherent in every state. -/
theorem trend_cache_coherent {s : System Row D P}
    (h : Transition.Reach System.Starts (System.step a) System.Orderly s) : s.Coherent a := by
  have hinvariant : Structured s.cache ∧
      ReadThrough.Coherent (Right a) (fun trends k => Touches trends k.1) s.abs := by
    refine h.invariant (fun s hs => starts_coherent a hs) fun s ev t hs hok hstep => ?_
    obtain ⟨hstructured, habs⟩ := step_abs a hs.1 hok hstep
    exact ⟨hstructured, habs.coherent (fun db trends k v => right_frame a db trends k v) hs.2⟩
  exact hinvariant.2.cached

def hourlyMax : Arithmetic ℕ ℕ where
  combine := max
  query := fun _ start finish rows =>
    let hours := List.range ((finish - start).toNat / 3600 + 1)
    match (hours.filterMap fun n => rows (start + 3600 * n)).max? with
    | none => .nodata
    | some v => .value v
  zero := 0

def firstHour : Request := ⟨1, 0, 0, .max, by decide⟩

def idleSystem : System ℕ ℕ Unit := ⟨zbxTfcInit 3 fun _ => emptySlot, fun _ _ => none, fun _ => .idle,
  fun _ => .idle⟩

theorem idleSystem_starts : idleSystem.Starts :=
  ⟨⟨3, _, by decide, by decide, rfl⟩, fun _ => rfl, fun _ => rfl⟩

def write : List (Event ℕ ℕ Unit) := [.hand () [⟨1, 0, 5⟩], .invalidate (), .commit ()]

theorem trend_cache_coherent_hour :
    ∃ s, Transition.run (System.step hourlyMax) idleSystem
        (write ++ [.lookup () firstHour, .read () none 7, .insert () emptySlot]) = some s ∧
      s.Coherent hourlyMax := by
  have hguard : Transition.Guarded (System.step hourlyMax) System.Orderly idleSystem
      (write ++ [.lookup () firstHour, .read () none 7, .insert () emptySlot]) := by
    refine ⟨trivial, trivial, fun trends _ p r result hr => ?_, trivial, fun r hr => ?_,
      fun r result _ q trends hq => ?_, trivial⟩
    · have hr : Evaluator.idle = Evaluator.computed r result := hr
      cases hr
    · have hr : Evaluator.missed firstHour = Evaluator.missed r := hr
      obtain rfl := Evaluator.missed.inj hr
      exact ⟨by decide, rfl⟩
    · have hq : Syncer.idle = Syncer.invalidated trends := hq
      cases hq
  obtain ⟨s, hs⟩ := isSome_iff_exists.mp
    (show (Transition.run (System.step hourlyMax) idleSystem
      (write ++ [.lookup () firstHour, .read () none 7, .insert () emptySlot])).isSome = true by
        decide +kernel)
  have hreach := (Transition.Reach.start idleSystem_starts).of_run hguard hs
  exact ⟨s, hs, trend_cache_coherent hourlyMax hreach⟩

def lateInsert : List (Event ℕ ℕ Unit) :=
  [.lookup () firstHour, .read () none 7] ++ write ++ [.insert () emptySlot]

def System.stale (s : System ℕ ℕ Unit) : Bool :=
  (s.evaluators () matches .idle) && (s.syncers () matches .idle) &&
    decide (s.cache.cached firstHour.key = some (7, .nodata)) &&
    decide (zbxTrendsEval hourlyMax s.db none firstHour.key = .value 5)

theorem lateInsert_not_coherent :
    ∃ s : System ℕ ℕ Unit,
      Transition.Reach System.Starts (System.step hourlyMax) Transition.anyEvent s ∧
      s.Quiet ∧ ¬ s.Coherent hourlyMax := by
  have hstart : Transition.Reach System.Starts (System.step (P := Unit) hourlyMax) Transition.anyEvent
      idleSystem := .start idleSystem_starts
  have hguard : Transition.Guarded (System.step (P := Unit) hourlyMax) Transition.anyEvent idleSystem
      lateInsert := Transition.guarded_anyEvent _ _
  have hstale : (Transition.run (System.step (P := Unit) hourlyMax) idleSystem lateInsert).any System.stale =
      true := by
    decide +kernel
  obtain ⟨s, hreach, hs⟩ := hstart.exists_of_run hguard hstale
  simp only [System.stale, Bool.and_eq_true, decide_eq_true_iff] at hs
  obtain ⟨⟨⟨hevaluator, hsyncer⟩, hcached⟩, heval⟩ := hs
  refine ⟨s, hreach, ⟨fun _ => ?_, fun _ => ?_⟩, fun hcoherent => ?_⟩
  · split at hevaluator
    · assumption
    · simp at hevaluator
  · split at hsyncer
    · assumption
    · simp at hsyncer
  · obtain ⟨value, hright⟩ := hcoherent firstHour.valueKey (7, .nodata) hcached
    simp only [Request.valueKey, heval, Outcome.result] at hright
    exact TrendState.noConfusion (congrArg Prod.snd hright)

end Zabbix.Trends
