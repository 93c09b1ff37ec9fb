-- SUMMARY: What VictoriaLogs answers to queries.
import Syslogc.Lib.Fallible
import Syslogc.Lib.Instants
import Syslogc.Storage.Compile

/-!
# The storage backend

VictoriaLogs is known by what it says of one stored log: its time, the values of its
fields and the filters that select it. Every query of the backend is a function of the
logs stored at the time it runs. Buckets of time start at the multiples of their step
since the epoch.
-/

namespace Syslogc.VictoriaLogs

open Instants Fallible

/-- A log record as ordered storage fields. -/
abbrev Row := List (Bytes × Bytes)

/-- `Row.Get`, with the empty text for a field the row does not have. -/
def Row.get (row : Row) (key : Bytes) : Bytes := (row.lookup key).getD []

/-- What VictoriaLogs says of a stored log. -/
structure Store (Log : Type) where
  time : Log → Int
  /-- All fields of the log, its time included. -/
  row : Log → Row
  /-- The filter, as LogsQL text, selects the log. -/
  selects : Bytes → Log → Bool

def TimeRange.validate (r : TimeRange) : Except StorageError Unit :=
  if r.start = zeroTime ∨ r.stop = zeroTime then .error (.other (utf8 "time range start and end are required"))
  else if ¬r.start < r.stop then .error (.other (utf8 "time range start must be before end"))
  else .ok ()

/-- The step a query asks for is written in whole milliseconds. -/
def formatMillis (d : Int) : Int := d / millisecond * millisecond

variable {Log : Type} (go : Filter.GoLib) (st : Store Log)

/-- The value of a field, empty if the log does not have it. -/
def Store.value (field : Bytes) (l : Log) : Bytes := Row.get (st.row l) field

/-- The logs a query reads: those in its range that its filter selects. -/
def Store.matching (filter : Bytes) (r : TimeRange) (logs : List Log) : List Log :=
  logs.filter fun l => decide (r.start ≤ st.time l) && decide (st.time l < r.stop) && st.selects filter l

/-- `count_uniq`: how many values of a field there are, the empty one apart. -/
def Store.countUniq (field : Bytes) (logs : List Log) : Nat :=
  ((logs.map (st.value field)).filter (· ≠ [])).dedup.length

/-! ## Counts by category -/

/-- One named bucket of a query: the logs in whose field one of the phrases stands, or
those that the filter selects. -/
structure Category where
  name : Bytes
  field : Bytes := []
  phrases : List Bytes := []
  filter : Filter.Expr := .null

structure CategoryQuery extends Selection where
  categories : List Category
  distinctField : Bytes
  step : Int

structure CategoryRow where
  time : Int
  category : Bytes
  distinct : Nat
  messages : Nat
deriving DecidableEq, Repr

def maxCategories : Nat := 32

/-- The terms of a category; an OR stands before all but the first. -/
def phraseTerms (field : Bytes) : Bool → List Bytes → Bytes
  | _, [] => []
  | first, p :: ps =>
    (if first then [] else utf8 " OR ") ++ field ++ utf8 ":" ++ go.quote p ++ phraseTerms field false ps

/-- The condition under which a category counts a log; none counts all of them. -/
def Category.condition (c : Category) : Except StorageError (Option Bytes) :=
  let wrapper := utf8 "victorialogs: category " ++ go.quote c.name ++ utf8 ": "
  if c.phrases ≠ [] then
    if c.field = [] then .error (.other (wrapper ++ utf8 "phrases need a field"))
    else .ok (some (phraseTerms go (go.quote (storageField c.field)) true c.phrases))
  else
    match c.filter with
    | .null => .ok none
    | e => ((compileFilter go e).map some).mapError (StorageError.wrap wrapper)

/-- What one category counts among the logs of one bucket. -/
def Store.categoryRow (distinctField : Bytes) (time : Int) (c : Category × Option Bytes) (logs : List Log) :
    CategoryRow :=
  let counted := logs.filter fun l => c.2.all fun text => st.selects text l
  ⟨time, c.1.name, st.countUniq (storageField distinctField) counted, counted.length⟩

/-- The buckets of a query and the logs of each; without a step there is only one. -/
def Store.buckets (step : Int) (logs : List Log) : List (Int × List Log) :=
  if 0 < step then
    let start := fun l => floorTo (formatMillis step) (st.time l)
    (logs.map start).dedup.map fun t => (t, logs.filter fun l => start l = t)
  else [(zeroTime, logs)]

/-- `CategoryCounts`, given what VictoriaLogs answers: an error, or from the logs it has. -/
def categoryCounts (q : CategoryQuery) (answer : Except StorageError (List Log)) :
    Except StorageError (List CategoryRow) := do
  q.range.validate
  if q.categories = [] then .ok []
  else
    ensure (q.categories.length ≤ maxCategories) (.other (utf8
      s!"victorialogs: {q.categories.length} categories exceeds the limit of {maxCategories}"))
    ensure (q.distinctField ≠ []) (.other (utf8 "victorialogs: category counts need a distinct field"))
    let (filter, pipes) ← buildSelection go q.toSelection
    ensure (pipes = []) .pipesNotAllowed
    let conditions ← q.categories.mapM (Category.condition go)
    let logs := st.matching filter q.range (← answer)
    pure ((st.buckets q.step logs).flatMap fun (t, logs) =>
      (q.categories.zip conditions).map fun c => st.categoryRow q.distinctField t c logs)

variable {go st} {q : CategoryQuery} {answer : Except StorageError (List Log)} {rows : List CategoryRow}
  {row : CategoryRow} {logs : List Log} {filter : Bytes}

/-- The logs of a bucket are those of the window that starts with it, whatever else the
range of the query covers. -/
theorem Store.matching_bucket {step t : Int} {r : TimeRange} (hstep : 0 < step) (ht : step ∣ t) (hstart : r.start ≤ t)
    (hstop : t + step ≤ r.stop) :
    (st.matching filter r logs).filter (fun l => floorTo step (st.time l) = t) =
      st.matching filter ⟨t, t + step⟩ logs := by
  rw [matching, matching, List.filter_filter]
  apply List.filter_congr
  intro l _
  have := floorTo_eq_iff (t := st.time l) hstep ht
  grind

theorem categoryCounts_eq_ok (h : categoryCounts go st q answer = .ok rows) (hne : q.categories ≠ []) :
    ∃ filter conditions logs, buildSelection go q.toSelection = .ok (filter, []) ∧
      q.categories.mapM (Category.condition go) = .ok conditions ∧ answer = .ok logs ∧
      rows = (st.buckets q.step (st.matching filter q.range logs)).flatMap fun (t, logs) =>
        (q.categories.zip conditions).map fun c => st.categoryRow q.distinctField t c logs := by
  obtain ⟨_, -, h₁⟩ := bind_eq_ok.mp h
  rw [if_neg hne] at h₁
  obtain ⟨_, -, h₂⟩ := bind_eq_ok.mp h₁
  obtain ⟨_, -, h₃⟩ := bind_eq_ok.mp h₂
  obtain ⟨⟨filter, pipes⟩, hsel, h₄⟩ := bind_eq_ok.mp h₃
  obtain ⟨_, hpipes, h₅⟩ := bind_eq_ok.mp h₄
  obtain ⟨conditions, hconditions, h₆⟩ := bind_eq_ok.mp h₅
  obtain ⟨logs, hlogs, h₇⟩ := bind_eq_ok.mp h₆
  obtain rfl : pipes = [] := by simpa using hpipes
  exact ⟨filter, conditions, logs, hsel, hconditions, hlogs, (pure_eq_ok.mp h₇).symm⟩

/-- A row of an answer is what its category counts among the logs of one bucket. -/
theorem mem_categoryCounts (h : categoryCounts go st q (.ok logs) = .ok rows) (hstep : 0 < q.step) (hrow : row ∈ rows) :
    ∃ filter c text, buildSelection go q.toSelection = .ok (filter, []) ∧ c ∈ q.categories ∧
      c.condition go = .ok text ∧ formatMillis q.step ∣ row.time ∧
      row = st.categoryRow q.distinctField row.time (c, text) ((st.matching filter q.range logs).filter
        fun l => floorTo (formatMillis q.step) (st.time l) = row.time) := by
  by_cases hne : q.categories = []
  · obtain ⟨_, -, h₁⟩ := bind_eq_ok.mp h
    rw [if_pos hne] at h₁
    cases h₁
    cases hrow
  · obtain ⟨filter, conditions, _, hsel, hconditions, ⟨⟩, rfl⟩ := categoryCounts_eq_ok h hne
    obtain ⟨⟨t, bucket⟩, hbucket, hrow⟩ := List.mem_flatMap.mp hrow
    obtain ⟨⟨c, text⟩, hc, rfl⟩ := List.mem_map.mp hrow
    have hcondition : c.condition go = .ok text := List.forall₂_zip (mapM_eq_ok.mp hconditions) hc
    rw [Store.buckets, if_pos hstep] at hbucket
    obtain ⟨_, ht, hpair⟩ := List.mem_map.mp hbucket
    obtain ⟨rfl, rfl⟩ := Prod.mk.inj hpair
    obtain ⟨l, -, rfl⟩ := List.mem_map.mp (List.mem_dedup.mp ht)
    exact ⟨filter, c, text, hsel, (List.of_mem_zip hc).1, hcondition, dvd_floorTo, rfl⟩

end Syslogc.VictoriaLogs
