-- SUMMARY: The activity charts of the analyses.
import Syslogc.Query.Analytics

/-!
# Activity charts

Each chart counts a few kinds of events over time in one pass, a category for each kind.
The three packages repeat the same code with kinds of their own.
-/

namespace Syslogc.Query

open Instants Fallible
open Syslogc.VictoriaLogs (Store StorageError Category CategoryRow)

/-- One line of a chart before it is counted. -/
structure ChartKind where
  name : Bytes
  label : Bytes
  category : Category

/-- One counted thing over time. -/
structure ChartLine where
  name : Bytes
  label : Bytes
  points : List Nat
  total : Nat := 0
deriving DecidableEq, Repr

structure ActivitySeries where
  stepSeconds : Int
  timestamps : List Int
  lines : List ChartLine
deriving DecidableEq, Repr

/-- Write a row to the line of its category, unless the grid does not have its bucket. -/
def ChartLine.plot (timestamps : List Int) (line : ChartLine) (row : CategoryRow) : ChartLine :=
  if line.name = row.category ∧ row.time ∈ timestamps then
    { line with points := Charts.write timestamps line.points row.time row.messages
                total := line.total + row.messages }
  else line

/-- A kind of events that is named by its event identifiers. -/
def eventKind (field name label : Bytes) (events : List Bytes) : ChartKind :=
  ⟨name, label, { name, field, phrases := events }⟩

variable {Log : Type} (go : Filter.GoLib) (st : Store Log)

/-- Count the kinds over the range of a selection and lay them on a grid. -/
def activity (kinds : List ChartKind) (distinctField : Bytes) (sel : VictoriaLogs.Selection) (step : Int)
    (answer : Except StorageError (List Log)) : Except StorageError ActivitySeries := do
  let rows ← VictoriaLogs.categoryCounts go st
    { sel with categories := kinds.map (·.category), distinctField, step } answer
  let timestamps := chartGrid step sel.range
  return {
    stepSeconds := step / second
    timestamps
    lines := kinds.map fun k => rows.foldl (ChartLine.plot timestamps) ⟨k.name, k.label, Charts.flat timestamps, 0⟩ }

/-! ## The three analyses -/

def directoryKinds : List ChartKind :=
  let kind := eventKind (utf8 "ad.event_id")
  [kind (utf8 "logons") (utf8 "Sign-ins") [utf8 "4624"],
   kind (utf8 "failures") (utf8 "Failed sign-ins") [utf8 "4625", utf8 "4771"],
   kind (utf8 "lockouts") (utf8 "Lockouts") [utf8 "4740"],
   kind (utf8 "privileged") (utf8 "Privileged sign-ins") [utf8 "4672"]]

def directoryActivity := activity go st directoryKinds (utf8 "ad.user")

def severeEvents : List Bytes := [utf8 "823", utf8 "824", utf8 "9002", utf8 "701", utf8 "17883", utf8 "17884"]

def mssqlKinds : List ChartKind :=
  let kind := eventKind (utf8 "mssql.event_id")
  [kind (utf8 "sign_in_failures") (utf8 "Failed sign-ins") [utf8 "18456"],
   kind (utf8 "deadlocks") (utf8 "Deadlocks") [utf8 "1205"],
   kind (utf8 "severe_errors") (utf8 "Severe errors") severeEvents,
   kind (utf8 "read_retries") (utf8 "Reads that needed a retry") [utf8 "825"],
   kind (utf8 "backups") (utf8 "Backups finished") [utf8 "18264", utf8 "18265"]]

def mssqlActivity := activity go st mssqlKinds (utf8 "mssql.login_user")

/-- A comparison of a field with a number. -/
def compareField (op : Filter.Op) (field : Bytes) (n : Int) : Filter.Expr :=
  .node op [] .null field (utf8 (toString n)) []

/-- The responses of one status class. -/
def classKind (name label : Bytes) (low high : Int) : ChartKind :=
  let status := utf8 "iis.status"
  ⟨name, label,
    { name, filter := .node .and [compareField .gte status low, compareField .lt status high] .null [] [] [] }⟩

def iisKinds (slowMillis : Int) : List ChartKind :=
  [classKind (utf8 "2xx") (utf8 "Succeeded") 200 300,
   classKind (utf8 "3xx") (utf8 "Redirected") 300 400,
   classKind (utf8 "4xx") (utf8 "Client errors") 400 500,
   classKind (utf8 "5xx") (utf8 "Server errors") 500 600,
   ⟨utf8 "slow", utf8 "Slower than " ++ utf8 (toString slowMillis) ++ utf8 " ms",
     { name := utf8 "slow", filter := compareField .gte (utf8 "iis.time_taken") slowMillis }⟩]

def anyRequest : Filter.Expr := .node .exist [] .null (utf8 "iis.status") [] []

/-- Add an expression to a selection, keeping what the caller asked for. -/
def narrow (sel : VictoriaLogs.Selection) (e : Filter.Expr) : VictoriaLogs.Selection :=
  match e, sel.filter with
  | .null, _ => sel
  | e, .null => { sel with filter := e }
  | e, f => { sel with filter := .node .and [f, e] .null [] [] [] }

def iisActivity (slowMillis : Int) (sel : VictoriaLogs.Selection) :=
  activity go st (iisKinds (if slowMillis ≤ 0 then 1000 else slowMillis)) (utf8 "iis.client_ip") (narrow sel anyRequest)

/-- The activity charts. -/
inductive ActivityChart where
  | directory
  | mssql
  | iis (slowMillis : Int)

namespace ActivityChart

def kinds : ActivityChart → List ChartKind
  | directory => directoryKinds
  | mssql => mssqlKinds
  | iis slowMillis => iisKinds (if slowMillis ≤ 0 then 1000 else slowMillis)

/-- What a chart reads of a selection. -/
def selection (chart : ActivityChart) (sel : VictoriaLogs.Selection) : VictoriaLogs.Selection :=
  match chart with
  | directory | mssql => sel
  | iis _ => narrow sel anyRequest

def activity (go : Filter.GoLib) (st : Store Log) : ActivityChart → VictoriaLogs.Selection → Int →
    Except StorageError (List Log) → Except StorageError ActivitySeries
  | directory => directoryActivity go st
  | mssql => mssqlActivity go st
  | iis slowMillis => iisActivity go st slowMillis

end ActivityChart

end Syslogc.Query
