-- SUMMARY: The read queries of the backend: counts and groups.
import Syslogc.Lib.Charts
import Syslogc.Storage.Backend

/-!
# Read queries

Every query checks its range and compiles its selection, and is then answered from the
logs that VictoriaLogs has, or with an error.
-/

namespace Syslogc.VictoriaLogs

open Instants Fallible

/-- Why a query has no answer. -/
inductive Failure where
  | storage (e : StorageError)
  /-- The context of the query is past its deadline. -/
  | deadline
  | canceled
deriving DecidableEq, Repr

/-- What VictoriaLogs answers to one query: an error, or from the logs it has. -/
abbrev Answer (Log : Type) := Except Failure (List Log)

variable {Log : Type} (go : Filter.GoLib) (st : Store Log)

/-- The filter of a selection that must not have pipes. -/
def noPipes (sel : Selection) : Except StorageError Bytes := do
  let (filter, pipes) ← buildSelection go sel
  ensure (pipes = []) .pipesNotAllowed
  return filter

theorem noPipes_eq_ok {sel : Selection} {filter : Bytes} :
    noPipes go sel = .ok filter ↔ buildSelection go sel = .ok (filter, []) := by
  constructor
  · intro h
    obtain ⟨⟨filter', pipes⟩, hsel, h₁⟩ := bind_eq_ok.mp h
    obtain ⟨_, hpipes, h₂⟩ := bind_eq_ok.mp h₁
    obtain rfl : pipes = [] := by simpa using hpipes
    obtain rfl := pure_eq_ok.mp h₂
    exact hsel
  · intro h
    exact bind_eq_ok.mpr ⟨_, h, rfl⟩

/-- The logs that a selection without pipes reads. -/
def readLogs (sel : Selection) (answer : Answer Log) : Except Failure (List Log) := do
  let filter ← (noPipes go sel).mapError .storage
  return st.matching filter sel.range (← answer)

/-- What an iterator over result rows goes through: rows, and then an end or an error. -/
structure Rows where
  rows : List Row
  err : Option Failure := none
deriving DecidableEq, Repr

/-! ## Counts of values -/

/-- The values in the order in which they first occur, each with the logs that have it. -/
def groupsBy {α : Type} [DecidableEq α] (key : Log → α) (logs : List Log) : List (α × List Log) :=
  (logs.map key).reverse.dedup.reverse.map fun a => (a, logs.filter fun l => key l = a)

theorem sum_groupsBy {α : Type} [DecidableEq α] (key : Log → α) (logs : List Log) (q : α → Bool) :
    (((groupsBy key logs).filter fun g => q g.1).map fun g => g.2.length).sum =
      (logs.filter fun l => q (key l)).length := by
  unfold groupsBy
  rw [List.filter_map, List.map_map]
  apply Charts.sum_fibers_filter (List.nodup_reverse.mpr (List.nodup_dedup _))
  intro l hl
  simpa using ⟨l, hl, rfl⟩

structure CountQuery extends Selection where
  distinctField : Bytes := []

/-- `Count`: the logs, or the values of a field. -/
def count (q : CountQuery) (answer : Answer Log) : Except Failure Nat := do
  q.range.validate.mapError .storage
  let logs ← readLogs go st q.toSelection answer
  return if q.distinctField = [] then logs.length else st.countUniq (storageField q.distinctField) logs

/-! ## Groups -/

inductive Metric where
  | count
  | distinct (field : Bytes)
deriving DecidableEq, Repr

structure AggregateQuery extends Selection where
  /-- Bucket by time if it is not zero. -/
  step : Int := 0
  /-- Group by a field if it is not empty. -/
  groupBy : Bytes := []
  metric : Metric
  limit : Int := 0

structure AggRow where
  time : Int
  group : Bytes
  value : Nat
deriving DecidableEq, Repr

def Store.measure (metric : Metric) (logs : List Log) : Nat :=
  match metric with
  | .count => logs.length
  | .distinct field => st.countUniq (storageField field) logs

/-- The bucket and the group of a log. -/
def Store.cell (step : Int) (groupBy : Bytes) (l : Log) : Int × Bytes :=
  (if 0 < step then floorTo (formatMillis step) (st.time l) else zeroTime,
    if groupBy = [] then [] else st.value (storageField groupBy) l)

/-- The cells of an aggregation with their values. Without any grouping there is one cell,
even without logs. -/
def Store.cells (q : AggregateQuery) (logs : List Log) : List AggRow :=
  if q.step ≤ 0 ∧ q.groupBy = [] then [⟨zeroTime, [], st.measure q.metric logs⟩]
  else (groupsBy (st.cell q.step q.groupBy) logs).map fun g => ⟨g.1.1, g.1.2, st.measure q.metric g.2⟩

/-- `Aggregate`. Without buckets the largest values come first; logs without the field
are left out. -/
def aggregate (q : AggregateQuery) (answer : Answer Log) : Except Failure (List AggRow) := do
  q.range.validate.mapError .storage
  let filter ← (noPipes go q.toSelection).mapError .storage
  ensure (q.metric ≠ .distinct []) (.storage (.other (utf8 "victorialogs: count_distinct needs a field")))
  let cells := st.cells q (st.matching filter q.range (← answer))
  let rows :=
    if q.step = 0 then
      let sorted := cells.mergeSort fun a b => decide (b.value ≤ a.value)
      if 0 < q.limit then sorted.take q.limit.toNat else sorted
    else cells
  return rows.filter fun row => q.groupBy = [] || row.group ≠ []

end Syslogc.VictoriaLogs
