-- SUMMARY: Series over time with a line per value.
import Syslogc.Lib.Charts
import Syslogc.Lib.Lists
import Syslogc.Query.Service

/-!
# Series

A series measures over time: its buckets come from the log store, and its points stand on
a grid that the service lays out itself.
-/

namespace Syslogc.Query

open Instants Fallible
open Syslogc.VictoriaLogs (Store AggRow)

def maxAnalyticsGroups : Int := 50

/-- What an analytics request measures; no type is `count`. -/
structure Metric where
  type : Bytes := []
  field : Bytes := []
deriving DecidableEq, Repr

def Metric.storage (m : Metric) : VictoriaLogs.Metric :=
  if m.type = utf8 "count_distinct" then .distinct m.field else .count

/-- The field whose values are counted, for the queries that count. -/
def Metric.distinctField (m : Metric) : Bytes := if m.type = utf8 "count_distinct" then m.field else []

def validateFieldName (pointer name : Bytes) : Except ServiceError Unit :=
  (Filter.validateField name).mapError (validationFailed pointer)

def Metric.validate (m : Metric) : Except ServiceError Unit :=
  if m.type = [] ∨ m.type = utf8 "count" then .ok ()
  else if m.type = utf8 "count_distinct" then
    if m.field = [] then .error (validationFailed (utf8 "/metric/field") (utf8 "count_distinct needs a field"))
    else validateFieldName (utf8 "/metric/field") m.field
  else .error (validationFailed (utf8 "/metric/type") (utf8 "metric type must be count or count_distinct"))

variable {Log : Type} (go : Filter.GoLib) (gt : GoTime) (st : Store Log) (svc : Service) (p : Auth.Principal)
  (env : Env Log)

/-! ## Series -/

structure SeriesRequest extends Selection where
  groupBy : Bytes := []
  metric : Metric := {}
  buckets : Int := 0
  limit : Int := 0

/-- One line; its points stand at the timestamps. -/
structure SeriesGroup where
  value : Bytes
  total : Nat
  points : List Nat
deriving DecidableEq, Repr

structure SeriesResponse where
  resolvedRange : VictoriaLogs.TimeRange
  step : Bytes
  stepSeconds : Int
  groupBy : Bytes
  metric : Metric
  timestamps : List Int := []
  groups : List SeriesGroup := []
deriving DecidableEq, Repr

def emptySeries (range : VictoriaLogs.TimeRange) (step : Int) (req : SeriesRequest) : SeriesResponse where
  resolvedRange := range
  step := formatStep step
  stepSeconds := step / second
  groupBy := req.groupBy
  metric := req.metric

/-- `filter.AndAll`: expressions that are not there are left out. -/
def andAll (exprs : List Filter.Expr) : Filter.Expr :=
  match exprs.filter fun e => match e with | .null => false | _ => true with
  | [] => .null
  | [e] => e
  | args => .node .and args .null [] [] []

/-- What a series is made of: the selection, and the totals of the groups to chart. There
is none if no log has the field to group by. -/
def Service.seriesSelection (r : Resolved gt) (req : SeriesRequest) (limit : Int) :
    Except ServiceError (Option (VictoriaLogs.Selection × List (Bytes × Nat))) :=
  if req.groupBy = [] then .ok (some (r.sel, []))
  else do
    let top ← told (VictoriaLogs.aggregate go st
      { r.sel with groupBy := req.groupBy, metric := req.metric.storage, limit } (env.answer 0))
    let wanted := Filter.Expr.node .isIn [] .null req.groupBy [] (top.map (·.group))
    return if top = [] then none
      else some ({ r.sel with filter := andAll [r.sel.filter, wanted] },
        top.foldl (fun totals row => Lists.assign row.group row.value totals) [])

/-- Add a row to the line of its group, unless the grid does not have its bucket. -/
def plotRow (step : Int) (timestamps : List Int) (lines : List (Bytes × List Nat)) (row : AggRow) :
    List (Bytes × List Nat) :=
  let t := truncate row.time step
  if t ∈ timestamps then
    let points := (lines.lookup row.group).getD (Charts.flat timestamps)
    Lists.assign row.group (Charts.add timestamps points t row.value) lines
  else lines

/-- The timestamps of a chart: from the step that the range begins in to its end. -/
def chartGrid (step : Int) (range : VictoriaLogs.TimeRange) : List Int :=
  Charts.grid step (truncate range.start step) range.stop

/-- The total over the whole range, if there is only one line. -/
def Service.seriesTotals (req : SeriesRequest) (sel : VictoriaLogs.Selection) (totals : List (Bytes × Nat)) :
    Except ServiceError (List (Bytes × Nat)) :=
  if req.groupBy = [] then do
    let total ← told (VictoriaLogs.count go st { sel with distinctField := req.metric.distinctField } (env.answer 2))
    return [([], total)]
  else .ok totals

def Service.series (req : SeriesRequest) : Except ServiceError SeriesResponse := do
  let r ← svc.resolve go gt p env.now req.toSelection
  req.metric.validate
  (if req.groupBy = [] then .ok () else validateFieldName (utf8 "/group_by") req.groupBy)
  let limit ← bounded req.limit 5 maxAnalyticsGroups
    (validationFailed (utf8 "/limit") (utf8 "limit must be at most 50"))
  let buckets ← bounded req.buckets 120 1000
    (validationFailed (utf8 "/buckets") (utf8 "buckets must be at most 1000"))
  let step := chooseStep r.sel.range buckets
  acquire env r.limits
  match ← Service.seriesSelection go gt st env r req limit with
  | none => return emptySeries r.sel.range step req
  | some (sel, totals) =>
    let rows ← told (VictoriaLogs.aggregate go st
      { sel with step, groupBy := req.groupBy, metric := req.metric.storage } (env.answer 1))
    let totals ← Service.seriesTotals go st env req sel totals
    let timestamps := chartGrid step r.sel.range
    let lines := rows.foldl (plotRow step timestamps) []
    return { emptySeries r.sel.range step req with
      timestamps
      groups := (lines.map fun line => SeriesGroup.mk line.1 ((totals.lookup line.1).getD 0) line.2).mergeSort
        fun a b => decide (b.total ≤ a.total) }

end Syslogc.Query
