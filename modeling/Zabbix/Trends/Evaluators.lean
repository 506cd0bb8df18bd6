import Zabbix.Foundation.Transition
import Zabbix.Trends.Cache

/-!
# Evaluators and history syncers

`trends.c`, and the part of `sync_history_server` that writes trends, as steps of processes that
share the trend function cache and the database. What is computed with doubles and what the
database computes is left open.
-/

namespace Zabbix.Trends

open Function

inductive Outcome (D : Type)
  | value (v : D)
  | nodata
  | overflow
  deriving DecidableEq

variable {Row D P : Type}

def Outcome.result (o : Outcome D) (value : D) : Result D :=
  match o with
  | .value v => ⟨v, .normal, nofun⟩
  | .nodata => ⟨value, .nodata, nofun⟩
  | .overflow => ⟨value, .overflow, nofun⟩

/-- The rows of `trends` and `trends_uint` by item and hour. -/
abbrev Db (Row : Type) := ℕ → ℤ → Option Row

/-- `ZBX_DC_TREND` with the values of its row. -/
structure Trend (Row : Type) where
  itemid : ℕ
  clock : ℤ
  row : Row

def Trend.dc (t : Trend Row) : DcTrend := ⟨t.itemid, t.clock⟩

/-- `combine` is `dc_trends_update_float` or `dc_trends_update_uint`; `query` is what a function
gives for the rows of a period from the first time to the second. -/
structure Arithmetic (Row D : Type) where
  combine : Row → Row → Row
  query : TrendFunction → ℤ → ℤ → (ℤ → Option Row) → Outcome D
  zero : D

variable (a : Arithmetic Row D)

def flushTrend (db : Db Row) (t : Trend Row) : Db Row :=
  update db t.itemid <| update (db t.itemid) t.clock <|
    match db t.itemid t.clock with
    | none => some t.row
    | some row => some (a.combine t.row row)

def dbMassUpdateTrends (db : Db Row) (trends : List (Trend Row)) : Db Row :=
  trends.foldl (flushTrend a) db

/-- `zbx_recalc_time_period`; `leastTs` is there when the storage period of trends is global. -/
def zbxRecalcTimePeriod (leastTs : Option ℤ) (start : ℤ) : ℤ :=
  match leastTs with
  | none => start
  | some least => if start < least then least else start

def Db.period (db : Db Row) (itemid : ℕ) (start finish : ℤ) (clock : ℤ) : Option Row :=
  if start ≤ clock ∧ clock ≤ finish then db itemid clock else none

def trendsEval (db : Db Row) (leastTs : Option ℤ) (k : Key) : Outcome D :=
  let start := zbxRecalcTimePeriod leastTs k.start
  if k.finish < start then .nodata
  else a.query k.function start k.finish (db.period k.itemid start k.finish)

def zbxTrendsEval (db : Db Row) (leastTs : Option ℤ) (k : Key) : Outcome D :=
  match k.function with
  | .count =>
    match trendsEval a db leastTs k with
    | .value v => .value v
    | _ => .value a.zero
  | _ => trendsEval a db leastTs k

inductive Evaluator (D : Type)
  | idle
  | missed (r : Request)
  | computed (r : Request) (result : Result D)

inductive Syncer (Row : Type)
  | idle
  | handed (trends : List (Trend Row))
  | invalidated (trends : List (Trend Row))

structure System (Row D P : Type) where
  cache : Tfc D
  db : Db Row
  evaluators : P → Evaluator D
  syncers : P → Syncer Row

/-- `lookup`, `read` and `insert` are the steps of an evaluator, `value` what its variable holds
before. A syncer invalidates the trends it is handed; its transaction is committed or fails. -/
inductive Event (Row D P : Type)
  | lookup (p : P) (r : Request)
  | read (p : P) (leastTs : Option ℤ) (value : D)
  | insert (p : P) (dataLocal : TfcData D)
  | hand (p : P) (trends : List (Trend Row))
  | invalidate (p : P)
  | commit (p : P)
  | abort (p : P)

def Request.period (r : Request) : Key := ⟨r.itemid, r.start, r.finish, r.function⟩

variable [DecidableEq P]

def System.step (s : System Row D P) : Event Row D P → Option (System Row D P)
  | .lookup p r =>
    match s.evaluators p with
    | .idle =>
      match zbxTfcGetValue s.cache r with
      | (some _, cache) => some { s with cache }
      | (none, cache) => some { s with cache, evaluators := update s.evaluators p (.missed r) }
    | _ => none
  | .read p leastTs value =>
    match s.evaluators p with
    | .missed r =>
      let result := (zbxTrendsEval a s.db leastTs r.period).result value
      some { s with evaluators := update s.evaluators p (.computed r result) }
    | _ => none
  | .insert p dataLocal =>
    match s.evaluators p with
    | .computed r result =>
      (zbxTfcPutValue s.cache dataLocal r result).map fun cache =>
        { s with cache, evaluators := update s.evaluators p .idle }
    | _ => none
  | .hand p trends =>
    match s.syncers p with
    | .idle => some { s with syncers := update s.syncers p (.handed trends) }
    | _ => none
  | .invalidate p =>
    match s.syncers p with
    | .handed trends =>
      (zbxTfcInvalidateTrends s.cache (trends.map Trend.dc)).map fun cache =>
        { s with cache, syncers := update s.syncers p (.invalidated trends) }
    | _ => none
  | .commit p =>
    match s.syncers p with
    | .invalidated trends =>
      some
        { s with
          db := dbMassUpdateTrends a s.db trends
          syncers := update s.syncers p .idle }
    | _ => none
  | .abort p =>
    match s.syncers p with
    | .invalidated _ => some { s with syncers := update s.syncers p .idle }
    | _ => none

def System.Starts (s : System Row D P) : Prop :=
  (∃ slotsNum slots, 3 ≤ slotsNum ∧ slotsNum * 5 < 2 ^ 32 ∧ s.cache = zbxTfcInit slotsNum slots) ∧
    (∀ p, s.evaluators p = .idle) ∧ ∀ p, s.syncers p = .idle

def System.Quiet (s : System Row D P) : Prop :=
  (∀ p, s.evaluators p = .idle) ∧ ∀ p, s.syncers p = .idle

end Zabbix.Trends
