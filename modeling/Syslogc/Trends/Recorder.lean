-- SUMMARY: The recorder of clients per service.
import Syslogc.Lib.Lists
import Syslogc.Storage.Backend

/-!
# The service trend recorder

A run asks the log store for the counts of every window that has elapsed since the mark
of a resolution, and writes them to the metrics store. The services are counted twice,
by all of their domains and by their main ones, and the mark moves to the end of the
last window both counts have reached. Whether a query or a write succeeds is up to the
stores, call by call; a query that fails is repeated for less at once.

What a run did is kept as a list of events, which the recorder never reads.
-/

namespace Syslogc.Trends

open Instants Syslogc.VictoriaLogs

/-! ## The catalog -/

structure Service where
  name : Bytes
  domains : List Bytes
  mainDomains : List Bytes
  enabled : Bool
deriving DecidableEq, Repr

structure Catalog where
  services : List Service
deriving DecidableEq, Repr

/-- The services that are counted, sorted by name. -/
def Catalog.enabled (c : Catalog) : List Service :=
  (c.services.filter fun s => s.enabled && s.domains ≠ []).mergeSort fun a b => !decide (b.name < a.name)

/-- `strings.Trim(s, ".")`. -/
def trimDots (s : Bytes) : Bytes := ((s.dropWhile (· = 46)).reverse.dropWhile (· = 46)).reverse

section

-- `strings.ToLower`
variable (toLower : Bytes → Bytes)

def normalDomain (d : Bytes) : Bytes := toLower (trimDots d.trimSpace)

/-- The domains as they are matched, each once and the empty ones left out. -/
def phrases (seen : List Bytes) : List Bytes → List Bytes
  | [] => []
  | d :: domains =>
    let d := normalDomain toLower d
    if d = [] ∨ d ∈ seen then phrases seen domains else d :: phrases (d :: seen) domains

def Catalog.categories (domainField : Bytes) (c : Catalog) : List Category :=
  c.enabled.map fun s => { name := s.name, field := domainField, phrases := phrases toLower [] s.domains }

/-- Services without main domains have no main count. -/
def Catalog.mainCategories (domainField : Bytes) (c : Catalog) : List Category :=
  (c.enabled.filter (·.mainDomains ≠ [])).map fun s =>
    { name := s.name, field := domainField, phrases := phrases toLower [] s.mainDomains }

end

/-! ## Configuration -/

structure ServiceTrendsConfig where
  enabled : Bool
  windows : List Bytes
  interval : Int
  backfill : Int
  domainField : Bytes
  clientField : Bytes
  sources : List Bytes
  queryTimeout : Int

structure AnalyticsConfig where
  metricsURL : Bytes
  serviceTrends : ServiceTrendsConfig

/-- Keep the errors whose condition holds. -/
def complaints (checks : List (Bool × Bytes)) : List Bytes := (checks.filter (·.1)).map (·.2)

/-- What is wrong with the interval, by the first of the checks that fails. -/
def validateInterval (interval : Int) : List Bytes :=
  if interval < minute then [utf8 "analytics.service_trends.interval: must be at least 1m"]
  else if interval > hour then [utf8 "analytics.service_trends.interval: must be at most 1h"]
  else if hour % interval ≠ 0 then
    [utf8 "analytics.service_trends.interval: must divide an hour evenly (1m, 5m, 15m, 30m, 1h)"]
  else []

/-- The checks of `Config.Validate` on the rollup. -/
def validateServiceTrends (toLower quote : Bytes → Bytes) (a : AnalyticsConfig) : List Bytes :=
  let st := a.serviceTrends
  let known := [utf8 "5m", utf8 "1h", utf8 "1d"]
  complaints (st.windows.map fun w => (decide (toLower w.trimSpace ∉ known),
      utf8 "analytics.service_trends.windows: " ++ quote w ++ utf8 " is not a window; use 5m, 1h or 1d")) ++
    if a.metricsURL = [] then []
    else
      validateInterval st.interval ++
      complaints [
        (st.queryTimeout ≤ 0, utf8 "analytics.service_trends.query_timeout: must be positive"),
        (st.backfill < 0, utf8 "analytics.service_trends.backfill: must not be negative"),
        (st.enabled ∧ st.domainField = [], utf8 "analytics.service_trends.domain_field: is required"),
        (st.enabled ∧ st.clientField = [], utf8 "analytics.service_trends.client_field: is required")]

structure Options where
  base : Int
  backfill : Int
  maxAge : Int
  tenant : Bytes
  domainField : Bytes
  clientField : Bytes
  sources : List Bytes
  windows : List Bytes

structure Recorder where
  opts : Options
  base_pos : 0 < opts.base

def newRecorder (opts : Options) : Except Bytes Recorder :=
  if opts.domainField = [] ∨ opts.clientField = [] then
    .error (utf8 "servicetrends: the domain and client fields are required")
  else if h : opts.base ≤ 0 then .ok ⟨{ opts with base := 5 * minute }, (by decide : 0 < 5 * minute)⟩
  else .ok ⟨opts, not_le.mp h⟩

/-- `wireAnalytics`: there is a recorder only with a metrics store and a database. -/
def wireAnalytics (a : AnalyticsConfig) (retention : Int) (database : Bool) : Except Bytes (Option Recorder) :=
  let st := a.serviceTrends
  if a.metricsURL = [] ∨ ¬st.enabled ∨ ¬database then .ok none
  else
    let backfill := if 0 < retention ∧ retention < st.backfill then retention else st.backfill
    (newRecorder {
      base := st.interval, backfill, maxAge := retention, tenant := [], domainField := st.domainField,
      clientField := st.clientField, sources := st.sources, windows := st.windows }).map some

/-! ## Resolutions -/

/-- The length of a window. -/
structure Step where
  ns : Int
  pos : 0 < ns
deriving DecidableEq

def resolutionHour : Step := ⟨hour, by decide⟩
def resolutionDay : Step := ⟨day, by decide⟩

/-- The label a resolution is stored under. -/
def windowName (d : Int) : String :=
  if day ≤ d ∧ d % day = 0 then toString (d / day) ++ "d"
  else if hour ≤ d ∧ d % hour = 0 then toString (d / hour) ++ "h"
  else toString (d / minute) ++ "m"

def Step.window (step : Step) : String := windowName step.ns

variable (toLower : Bytes → Bytes) (r : Recorder)

/-- The windows the recorder stores, finest first. -/
def Recorder.resolutions : List Step :=
  let all := [⟨r.opts.base, r.base_pos⟩, resolutionHour, resolutionDay]
  if r.opts.windows = [] then all
  else all.filter fun step => utf8 step.window ∈ r.opts.windows.map fun w => toLower w.trimSpace

/-- The oldest window a resolution reaches for: the history that is wanted, at least two
windows of it, within the history that is kept. -/
def Recorder.catchUpHorizon (step : Step) : Int :=
  let wanted := r.opts.backfill
  let wanted := if 0 < wanted ∧ wanted < 2 * step.ns then 2 * step.ns else wanted
  if 0 < r.opts.maxAge ∧ (wanted = 0 ∨ r.opts.maxAge < wanted) then r.opts.maxAge else wanted

/-- The start of the oldest window that is wanted, if there is one. -/
def Recorder.oldest (step : Step) (now : Int) : Option Int :=
  if 0 < r.catchUpHorizon step then some (truncate (now - r.catchUpHorizon step) step.ns) else none

/-- The mark is so old that recording goes on from the oldest window that is wanted. -/
def Recorder.skips (step : Step) (mark now : Int) : Bool :=
  (r.oldest step now).any fun oldest => truncate mark step.ns < oldest

def Recorder.catchUp (step : Step) (mark now : Int) : Int :=
  match r.oldest step now with
  | some oldest => if truncate mark step.ns < oldest then oldest else truncate mark step.ns
  | none => truncate mark step.ns

/-- Where a resolution starts to count, given its mark. Without a mark and without a
backfill nothing is counted yet. -/
def Recorder.firstWindow (step : Step) (mark : Option Int) (now : Int) : Option Int :=
  match mark with
  | some mark => some (r.catchUp step mark now)
  | none =>
    if r.opts.backfill ≤ 0 then none
    else some (r.catchUp step (truncate (now - r.opts.backfill) step.ns) now)

/-! ## Query sizes -/

def maxBucketsPerQuery : Nat := 288
def maxShrinkAttempts : Nat := 12
def maxQuerySpan : Int := 2 * hour

/-- How many windows a query covers. Sizes start within the limit and only get smaller,
so that the span of a query is far from overflowing a duration. -/
structure BucketCount where
  val : Nat
  pos : 0 < val
  le : val ≤ maxBucketsPerQuery
deriving DecidableEq

def BucketCount.halve (b : BucketCount) (h : 1 < b.val) : BucketCount where
  val := b.val / 2
  pos := by omega
  le := by have := b.le; omega

/-- The sizes learned for each window: of the span, and of the group of services. -/
structure Sizes where
  buckets : List (String × BucketCount) := []
  chunks : List (String × Nat) := []
deriving DecidableEq

def Sizes.bucketsPerQuery (sizes : Sizes) (step : Step) : BucketCount :=
  (sizes.buckets.lookup step.window).getD
    { val := max (min maxBucketsPerQuery (maxQuerySpan / step.ns).toNat) 1
      pos := by omega
      le := by unfold maxBucketsPerQuery; omega }

def Sizes.categoriesPerQuery (sizes : Sizes) (step : Step) (total : Nat) : Nat :=
  match sizes.chunks.lookup step.window with
  | some n => if 0 < n ∧ n < total then n else total
  | none => total

def Sizes.learnBuckets (sizes : Sizes) (step : Step) (n : BucketCount) : Sizes :=
  { sizes with buckets := Lists.assign step.window n sizes.buckets }

def Sizes.learnChunk (sizes : Sizes) (step : Step) (n : Nat) : Sizes :=
  { sizes with chunks := Lists.assign step.window (max n 1) sizes.chunks }

/-- Ask for less at once: half of the windows and half of the services. -/
def Sizes.shrink (sizes : Sizes) (step : Step) (buckets : BucketCount) (chunk : Nat) : BucketCount × Nat × Sizes :=
  let (buckets, sizes) :=
    if h : 1 < buckets.val then (buckets.halve h, sizes.learnBuckets step (buckets.halve h)) else (buckets, sizes)
  if 1 < chunk then (buckets, (chunk + 1) / 2, sizes.learnChunk step ((chunk + 1) / 2))
  else (buckets, chunk, sizes)

/-! ## The outside -/

inductive Scope where
  | all
  | main
deriving DecidableEq, Repr

def Scope.label : Scope → Bytes
  | .all => utf8 "all"
  | .main => utf8 "main"

structure Sample where
  name : Bytes
  labels : List (Bytes × Bytes)
  value : Nat
  time : Int
deriving DecidableEq, Repr

def maxSamplesPerWrite : Nat := 10000

/-- A reading of the clock: nanoseconds since the epoch in 64 bits. The times that follow
from it lie between the years 1385 and 2262. None is the zero time, and each is read back
from its text to the second. -/
structure Clock where
  now : Int
  ge : -2 ^ 63 ≤ now
  lt : now < 2 ^ 63

/-- A write that failed may have been kept in part. -/
inductive WriteOutcome where
  | ok
  | failed (error : Bytes) (kept : Nat)
deriving DecidableEq, Repr

/-- What a run finds outside. -/
structure Outside (Log : Type) where
  clock : Clock
  catalog : Except Bytes Catalog
  /-- Why the settings could not be read or written. -/
  loadState : Option Bytes := none
  loadSizes : Option Bytes := none
  saveSizes : Option Bytes := none
  saveState : Option Bytes := none
  /-- What the log store answers to each query: an error, or from the logs it has. -/
  query : Nat → Except StorageError (List Log)
  /-- Why the context of the run is done, after so many queries. -/
  done : Nat → Option Bytes := fun _ => none
  write : Nat → WriteOutcome := fun _ => .ok

inductive Event (Log : Type) where
  /-- A run began with the catalog. -/
  | ran (catalog : Catalog)
  /-- The query was answered from the logs. -/
  | counted (q : CategoryQuery) (logs : List Log)
  /-- The metrics store has taken the samples. -/
  | stored (samples : List Sample)

/-- What a run goes through. -/
structure Progress (Log : Type) where
  sizes : Sizes
  queries : Nat := 0
  writes : Nat := 0
  events : List (Event Log) := []

inductive RecordError where
  /-- `counting %s windows from %s: %w`. -/
  | counting (window : String) (start : Int) (cause : StorageError)
  | cancelled (window : String) (start : Int) (cause : Bytes)
  /-- `writing %s samples: %w`. -/
  | writing (window : String) (cause : Bytes)
deriving DecidableEq, Repr

variable {Log : Type} (go : Filter.GoLib) (st : Store Log) (out : Outside Log)

def Outside.ask (q : CategoryQuery) (p : Progress Log) : Except StorageError (List CategoryRow) × Progress Log :=
  let answer := out.query p.queries
  match categoryCounts go st q answer, answer with
  | .ok rows, .ok logs => (.ok rows, { p with queries := p.queries + 1, events := p.events ++ [.counted q logs] })
  | result, _ => (result, { p with queries := p.queries + 1 })

/-- The categories in groups of a size, or in one. -/
def groups (chunk : Nat) (categories : List Category) : List (List Category) :=
  Lists.pieces (if chunk = 0 ∨ categories.length < chunk then categories.length else chunk) categories

/-- Count the categories group by group; the first query that fails is the answer. -/
def Outside.countInChunks (sel : Selection) (distinctField : Bytes) (step : Step) :
    List (List Category) → Progress Log → Except StorageError (List CategoryRow) × Progress Log
  | [], p => (.ok [], p)
  | part :: parts, p =>
    match out.ask go st { sel with categories := part, distinctField, step := step.ns } p with
    | (.error e, p) => (.error e, p)
    | (.ok rows, p) =>
      match Outside.countInChunks sel distinctField step parts p with
      | (.error e, p) => (.error e, p)
      | (.ok more, p) => (.ok (rows ++ more), p)

def Outside.put (samples : List Sample) (p : Progress Log) : Option Bytes × Progress Log :=
  match out.write p.writes with
  | .ok => (none, { p with writes := p.writes + 1, events := p.events ++ [.stored samples] })
  | .failed e kept =>
    (some e, { p with writes := p.writes + 1, events := p.events ++ [.stored (samples.take kept)] })

/-- Write batch by batch, up to the first that fails; how many samples were written. -/
def Outside.putAll : List (List Sample) → Nat → Progress Log → Option Bytes × Nat × Progress Log
  | [], written, p => (none, written, p)
  | batch :: batches, written, p =>
    match out.put batch p with
    | (some e, p) => (some e, written, p)
    | (none, p) => Outside.putAll batches (written + batch.length) p

/-! ## Recording one resolution -/

def metricUniqueClients : Bytes := utf8 "syslogc_dns_service_unique_clients"
def metricQueries : Bytes := utf8 "syslogc_dns_service_queries"

def Recorder.labels (scope : Scope) (step : Step) (service : Bytes) : List (Bytes × Bytes) :=
  [(utf8 "service", service), (utf8 "window", utf8 step.window), (utf8 "scope", scope.label)] ++
    if r.opts.tenant ≠ [] then [(utf8 "tenant", r.opts.tenant)] else []

def Recorder.rowSamples (scope : Scope) (step : Step) (row : CategoryRow) : List Sample :=
  [⟨metricUniqueClients, r.labels scope step row.category, row.distinct, row.time⟩,
   ⟨metricQueries, r.labels scope step row.category, row.messages, row.time⟩]

/-- The samples of the rows whose window starts within the range that was asked for. -/
def Recorder.samples (scope : Scope) (step : Step) (range : TimeRange) (rows : List CategoryRow) : List Sample :=
  (rows.filter fun row => range.start ≤ row.time ∧ row.time < range.stop).flatMap (r.rowSamples scope step)

/-- The rollup is restricted to the configured sources. -/
def Recorder.sourceFilter : Filter.Expr :=
  if r.opts.sources = [] then .null else .node .isIn [] .null (utf8 "source") [] r.opts.sources

def Recorder.selection (range : TimeRange) : Selection :=
  { tenant := r.opts.tenant, range, filter := r.sourceFilter }

/-- What `record` returns; without an end nothing was recorded. -/
structure Recorded where
  written : Nat := 0
  upto : Option Int := none
  error : Option RecordError := none

/-- The end of the range of a query. -/
def queryStop (step : Step) (buckets : BucketCount) (start finish : Int) : Int :=
  min (start + step.ns * buckets.val) finish

theorem lt_queryStop {step : Step} {buckets : BucketCount} {start finish : Int} (h : start < finish) :
    start < queryStop step buckets start finish := by
  have := mul_pos step.pos (Int.natCast_pos.mpr buckets.pos)
  unfold queryStop
  omega

/-- The loop of `record`: count and write windows from `start` on until `finish`. -/
def Recorder.recordLoop (categories : List Category) (scope : Scope) (step : Step) (finish start : Int)
    (buckets : BucketCount) (chunk shrinks : Nat) (acc : Recorded) (p : Progress Log) : Recorded × Progress Log :=
  if start < finish then
    let range := ⟨start, queryStop step buckets start finish⟩
    match out.countInChunks go st (r.selection range) r.opts.clientField step (groups chunk categories) p with
    | (.error e, p) =>
      match out.done p.queries with
      -- A run that has used its time fails every query: that says nothing about the size.
      | some cause => ({ acc with error := some (.cancelled step.window start cause) }, p)
      | none =>
        if (1 < buckets.val ∨ 1 < chunk) ∧ shrinks < maxShrinkAttempts then
          let smaller := p.sizes.shrink step buckets chunk
          Recorder.recordLoop categories scope step finish start smaller.1 smaller.2.1 (shrinks + 1) acc
            { p with sizes := smaller.2.2 }
        else ({ acc with error := some (.counting step.window start e) }, p)
    | (.ok rows, p) =>
      match out.putAll (Lists.pieces maxSamplesPerWrite (r.samples scope step range rows)) acc.written p with
      | (some e, written, p) => ({ acc with written, error := some (.writing step.window e) }, p)
      | (none, written, p) =>
        Recorder.recordLoop categories scope step finish range.stop buckets chunk shrinks
          { acc with written, upto := some range.stop } p
  else (acc, p)
termination_by (finish - start).toNat * (maxShrinkAttempts + 1) + (maxShrinkAttempts - shrinks)
decreasing_by
  · omega
  · have : start < queryStop step buckets start finish := lt_queryStop ‹start < finish›
    unfold maxShrinkAttempts
    omega

def Recorder.record (categories : List Category) (scope : Scope) (step : Step) (mark : Option Int) (now : Int)
    (p : Progress Log) : Recorded × Progress Log :=
  let finish := truncate now step.ns
  match r.firstWindow step mark now with
  | none => ({ upto := some (finish - step.ns) }, p)
  | some start =>
    if ¬start < finish then ({}, p)
    else
      r.recordLoop go st out categories scope step finish start (p.sizes.bucketsPerQuery step)
        (p.sizes.categoriesPerQuery step categories.length) 0 {} p

/-! ## Runs -/

/-- How far a resolution has been recorded. The code knows only the end; `since` says
where recording began, or went on after windows that were skipped. -/
structure Mark where
  upto : Int
  since : Int
deriving DecidableEq, Repr

/-- A mark as it is stored: the text of a time ends with its seconds. -/
structure SavedMark where
  seconds : Int
  since : Int
deriving DecidableEq, Repr

def SavedMark.upto (m : SavedMark) : Int := m.seconds * second

def Mark.save (m : Mark) : SavedMark := ⟨m.upto / second, m.since⟩
def SavedMark.load (m : SavedMark) : Mark := ⟨m.upto, m.since⟩

/-- What the database keeps of the rollup. -/
structure Settings where
  state : List (String × SavedMark) := []
  sizes : Sizes := {}

/-- What monitoring reads: the end of the newest window, and how often recording failed. -/
structure Status where
  recorded : List (String × Int) := []
  failures : List (String × Nat) := []
deriving DecidableEq, Repr

def Status.failureCount (s : Status) (window : String) : Nat := (s.failures.lookup window).getD 0

/-- `note`; a window that was never recorded has the zero time. -/
def Status.note (s : Status) (window : String) (recorded : Option Int) (failed : Bool) : Status where
  recorded :=
    match recorded with
    | some upto => if (s.recorded.lookup window).getD zeroTime < upto then Lists.assign window upto s.recorded
      else s.recorded
    | none => s.recorded
  failures := if failed then Lists.assign window (s.failureCount window + 1) s.failures else s.failures

/-- What a run came to with a window: over all domains, and over the main ones. -/
structure Pass where
  window : String
  all : Recorded
  main : Recorded

/-- What the recorder keeps in memory. -/
structure Process where
  retryAfter : List (String × Int) := []
  sizes : Sizes := {}
  sizesLoaded : Bool := false
  status : Status := {}

inductive RunError where
  /-- `%s windows: %w`. -/
  | window (window : String) (error : RecordError)
  /-- `saving the learned query sizes: %w`. -/
  | sizes (error : Bytes)
  /-- `saving the rollup state: %w`. -/
  | state (error : Bytes)

/-- What a run has come to. -/
structure Running (Log : Type) where
  state : List (String × Mark)
  retryAfter : List (String × Int)
  progress : Progress Log
  status : Status
  /-- What it came to so far, window by window. -/
  passes : List Pass := []
  written : Nat := 0
  advanced : Bool := false
  errors : List RunError := []

/-- The later of two ends that both passes have reached. -/
def earliest : Option Int → Option Int → Option Int
  | some a, some b => some (min a b)
  | _, _ => none

/-- Where the windows begin that end with the next mark of a resolution. -/
def Recorder.since (step : Step) (mark : Option Mark) (now : Int) : Int :=
  match mark with
  | some mark => if r.skips step mark.upto now then r.catchUp step mark.upto now else mark.since
  | none => (r.firstWindow step none now).getD (truncate now step.ns - step.ns)

def windowError (step : Step) (e : Option RecordError) : List RunError := (e.map (.window step.window)).toList

/-- The two passes over the windows of a resolution. Without main domains there is no
second pass, and nothing holds the first one back. -/
def Recorder.recordScopes (categories mainCategories : List Category) (step : Step) (mark : Option Int) (now : Int)
    (p : Progress Log) : Recorded × Recorded × Progress Log :=
  let all := r.record go st out categories .all step mark now p
  if mainCategories = [] then (all.1, { upto := all.1.upto }, all.2)
  else (all.1, r.record go st out mainCategories .main step mark now all.2)

/-- The windows to hold back, after the passes over the windows of a resolution. -/
def holdBack (mainCategories : List Category) (step : Step) (now : Int) (all main : Recorded)
    (retryAfter : List (String × Int)) : List (String × Int) :=
  let backOff := Lists.assign step.window (now + step.ns / 4)
  let retryAfter := if main.error.isSome then backOff retryAfter else retryAfter
  if all.error.isSome then backOff retryAfter
  else if mainCategories = [] then retryAfter.filter (·.1 ≠ step.window)
  else retryAfter

/-- Record one resolution, unless it is held back. -/
def Recorder.runWindow (categories mainCategories : List Category) (now : Int) (step : Step) (s : Running Log) :
    Running Log :=
  if (s.retryAfter.lookup step.window).any (now < ·) then s
  else
    let mark := s.state.lookup step.window
    let (all, main, progress) :=
      r.recordScopes go st out categories mainCategories step (mark.map Mark.upto) now s.progress
    let upto := earliest all.upto main.upto
    { state := upto.elim s.state fun upto => Lists.assign step.window ⟨upto, r.since step mark now⟩ s.state
      retryAfter := holdBack mainCategories step now all main s.retryAfter
      progress
      status := s.status.note step.window upto all.error.isSome
      passes := s.passes ++ [⟨step.window, all, main⟩]
      written := s.written + all.written + main.written
      advanced := s.advanced || upto.isSome
      errors := s.errors ++ windowError step main.error ++ windowError step all.error }

/-- `loadSizesOnce`: what could not be read is found out again. -/
def Outside.loadSizesOnce (settings : Settings) (process : Process) : Process :=
  if process.sizesLoaded then process
  else
    { process with
      sizesLoaded := true
      sizes := if out.loadSizes.isSome then process.sizes
        else
          { buckets := settings.sizes.buckets.foldl (fun m e => Lists.assign e.1 e.2 m) process.sizes.buckets
            chunks := settings.sizes.chunks.foldl (fun m e => if 0 < e.2 then Lists.assign e.1 e.2 m else m)
              process.sizes.chunks } }

/-- The rollup: the recorder, the settings it keeps, and what its runs did. -/
structure System (Log : Type) where
  settings : Settings := {}
  process : Process := {}
  events : List (Event Log) := []

/-- What a run returns. -/
inductive RunResult where
  /-- `reading the service catalog: %w`. -/
  | catalog (error : Bytes)
  /-- `reading the rollup state: %w`. -/
  | state (error : Bytes)
  | ran (written : Nat) (errors : List RunError)

/-- What a run begins with. -/
def Recorder.beginning (catalog : Catalog) (settings : Settings) (process : Process) (events : List (Event Log)) :
    Running Log where
  state := settings.state.map fun e => (e.1, e.2.load)
  retryAfter := process.retryAfter
  progress := { sizes := process.sizes, events := events ++ [.ran catalog] }
  status := process.status

/-- A run up to the end of its loop over the resolutions, or what it returns before that. -/
def Recorder.runWindows (sys : System Log) : Except RunResult (Running Log) :=
  match out.catalog with
  | .error e => .error (.catalog e)
  | .ok catalog =>
    let categories := catalog.categories toLower r.opts.domainField
    if categories = [] then .error (.ran 0 [])
    else
      match out.loadState with
      | some e => .error (.state e)
      | none => .ok ((r.resolutions toLower).foldl (fun s step =>
          r.runWindow go st out categories (catalog.mainCategories toLower r.opts.domainField) out.clock.now step s)
        (Recorder.beginning catalog sys.settings (out.loadSizesOnce sys.settings sys.process) sys.events))

def Recorder.run (sys : System Log) : RunResult × System Log :=
  match r.runWindows toLower go st out sys with
  | .error result => (result, sys)
  | .ok s =>
    let process := out.loadSizesOnce sys.settings sys.process
    let learned := s.progress.sizes ≠ process.sizes
    (.ran s.written (s.errors ++
        (if learned then out.saveSizes.toList.map RunError.sizes else []) ++
        (if s.advanced then out.saveState.toList.map RunError.state else [])),
      { settings := {
          sizes := if learned ∧ out.saveSizes = none then s.progress.sizes else sys.settings.sizes
          state := if s.advanced ∧ out.saveState = none then s.state.map fun e => (e.1, e.2.save)
            else sys.settings.state }
        process := { process with retryAfter := s.retryAfter, sizes := s.progress.sizes, status := s.status }
        events := s.progress.events })

/-- What happens to the rollup: a run, or a restart of the node. -/
inductive Action (Log : Type) where
  | run (out : Outside Log)
  | restart

def Recorder.step (sys : System Log) : Action Log → System Log
  | .run out => (r.run toLower go st out sys).2
  | .restart => { sys with process := {} }

end Syslogc.Trends
