-- SUMMARY: The service trend charts: their windows and queries.
import Syslogc.Query.ChartSums
import Syslogc.Trends.Recorder

/-!
# Service trend charts

A chart of recorded counts names one of the windows and a range. The handler asks the metric
store for a grid of points that are a window apart, from the window the range begins in to
the one it ends in. The client of the store refuses a query whose end is not after its start.

The windows a request may name stand in a table of their own, besides the table of the
configuration and the list of the recorder.
-/

namespace Syslogc.Api.ServiceTrends

open Instants Fallible Syslogc.Query

/-! ## Requests -/

/-- An answer with an error. -/
structure Problem where
  status : Nat
  code : Bytes
  pointer : Bytes
  detail : Bytes
deriving DecidableEq, Repr

def invalid (pointer : String) (detail : Bytes) : Problem := ⟨422, utf8 "validation_failed", utf8 pointer, detail⟩

/-- The windows a request may name. -/
def serviceTrendWindows : List (Bytes × Int) :=
  [(utf8 "5m", 5 * minute), (utf8 "1h", hour), (utf8 "1d", day)]

def maxTrendPoints : Int := 2000
def maxServices : Nat := 32
def maxNameBytes : Nat := 64

structure ServiceTrendRequest where
  timeRange : TimeRange
  window : Bytes
  services : List Bytes := []
  metric : Bytes := []
  scope : Bytes := []
deriving DecidableEq, Repr

structure GoLib extends GoTime where
  /-- `%q` of the first rune of a text. -/
  quoteRune : Bytes → Bytes

variable (go : GoLib)

/-! ## Queries of the metric store -/

/-- A query over a range of times. -/
structure RangeQuery where
  query : Bytes
  start : Int
  stop : Int
  step : Int
deriving DecidableEq, Repr

/-- What the client posts, in whole seconds. -/
structure RangeForm where
  query : Bytes
  start : Int
  stop : Int
  step : Int
deriving DecidableEq, Repr

/-- The checks of `QueryRange`, and the form it posts. -/
def RangeQuery.form (q : RangeQuery) : Except Bytes RangeForm :=
  if q.query.trimSpace = [] then .error (utf8 "metricstore: query is required")
  else if ¬q.start < q.stop then .error (utf8 "metricstore: end must be after start")
  else if q.step ≤ 0 then .error (utf8 "metricstore: step is required")
  else .ok ⟨q.query, q.start / second, q.stop / second, q.step / second⟩

/-- The instants that the metric store evaluates a query at: both ends count. -/
def RangeForm.grid (form : RangeForm) : List Int :=
  Charts.grid (form.step * second) (form.start * second) (form.stop * second + 1)

/-- Why a text cannot be the name of a service. -/
def validName (name : Bytes) : Option Bytes :=
  if name = [] then some (utf8 "is required")
  else if maxNameBytes < name.length then some (utf8 "longer than 64 characters")
  else
    match name.dropWhile fun c => 97 ≤ c ∧ c ≤ 122 ∨ 48 ≤ c ∧ c ≤ 57 ∨ c = 95 ∨ c = 45 with
    | [] => none
    | rest => some (utf8 "unexpected character " ++ go.quoteRune rest ++
        utf8 " (use lower-case letters, digits, - and _)")

def scopeMatcher (scope : Bytes) : Bytes :=
  if scope = utf8 "all" then utf8 "scope=~\"all|\"" else utf8 "scope=" ++ go.quote scope

def mergeScopes (q : Bytes) : Bytes := utf8 "max without (scope) (" ++ q ++ utf8 ")"

def lastOverWindow (selector window : Bytes) : Bytes :=
  utf8 "last_over_time(" ++ selector ++ utf8 "[" ++ window ++ utf8 "])"

/-- The query for a recorded metric. -/
def trendQuery (metric window scope : Bytes) (services : List Bytes) : Except Problem Bytes :=
  let labels := metric ++ utf8 "\x7bwindow=" ++ go.quote window ++ utf8 "," ++ scopeMatcher go scope
  if services = [] then .ok (mergeScopes (lastOverWindow (labels ++ utf8 "\x7d") window))
  else if maxServices < services.length then
    .error (invalid "/services" (utf8 "at most 32 services can be asked for at once"))
  else
    match services.findSome? fun name => (validName go name).map (name, ·) with
    | some (name, reason) => .error (invalid "/services" (utf8 "service " ++ go.quote name ++ utf8 ": " ++ reason))
    | none =>
      let names := (utf8 "|").intercalate services
      .ok (mergeScopes (lastOverWindow (labels ++ utf8 ",service=~" ++ go.quote names ++ utf8 "\x7d") window))

/-! ## The handler -/

def trendMetric (metric : Bytes) : Except Problem Bytes :=
  if metric = [] ∨ metric = utf8 "unique_clients" then .ok Trends.metricUniqueClients
  else if metric = utf8 "queries" then .ok Trends.metricQueries
  else .error (invalid "/metric" (utf8 "metric must be unique_clients or queries"))

def trendScope (scope : Bytes) : Except Problem Bytes :=
  if scope = [] ∨ scope = Trends.Scope.all.label then .ok Trends.Scope.all.label
  else if scope = Trends.Scope.main.label then .ok Trends.Scope.main.label
  else .error (invalid "/scope" (utf8 "scope must be all or main"))

/-- The ends of the grid: the windows the range begins and ends in. -/
def gridRange (range : VictoriaLogs.TimeRange) (step : Int) : VictoriaLogs.TimeRange :=
  let start := truncate range.start step
  let stop := truncate range.stop step
  if ¬stop < range.stop ∧ stop = start then ⟨start, start + step⟩ else ⟨start, stop⟩

/-- `handleServiceTrends`, up to the query it sends; with the range that was asked for. -/
def handleServiceTrends (metricsStore : Bool) (req : ServiceTrendRequest) (now : Int) :
    Except Problem (VictoriaLogs.TimeRange × RangeQuery) := do
  ensure metricsStore (⟨404, utf8 "not_configured", [],
    utf8 "service trends require a metrics store; set analytics.metrics.url"⟩ : Problem)
  let step ← get (invalid "/window" (utf8 "window must be one of 5m, 1h, 1d")) (serviceTrendWindows.lookup req.window)
  let metric ← trendMetric req.metric
  let scope ← trendScope req.scope
  let (range, _) ← (resolveRange go.toGoTime req.timeRange now).mapError (invalid "/time_range")
  let n := (span range).tdiv step
  ensure (n ≤ maxTrendPoints) (invalid "/time_range" (utf8 "that range holds " ++ utf8 (toString n) ++ utf8 " " ++
    req.window ++ utf8 " windows, more than the 2000 a chart can show; use a coarser window or a shorter range"))
  let query ← trendQuery go metric req.window scope req.services
  let grid := gridRange range step
  return (range, ⟨query, grid.start, grid.stop, step⟩)

/-! ## What is sent -/

variable {go} {metricsStore : Bool} {req : ServiceTrendRequest} {now : Int} {range : VictoriaLogs.TimeRange}
  {q : RangeQuery} {step : Int}

/-- Windows are made of whole seconds and divide a day. -/
theorem serviceTrendWindows_dvd : ∀ w ∈ serviceTrendWindows, 0 < w.2 ∧ second ∣ w.2 ∧ w.2 ∣ day := by decide

/-- The ends coincide if the range lies within a window. The special case never applies
to a range that has a start before its end. -/
theorem gridRange_eq (hstep : 0 < step) (hrange : range.start < range.stop) :
    gridRange range step = ⟨truncate range.start step, truncate range.stop step⟩ := by
  have hstart := truncate_le hstep (t := range.start)
  have hspecial : ¬(¬truncate range.stop step < range.stop ∧ truncate range.stop step = truncate range.start step) := by
    omega
  simp only [gridRange, if_neg hspecial]

theorem mergeScopes_trimSpace (query : Bytes) : (mergeScopes query).trimSpace ≠ [] := by
  have hends : mergeScopes query = utf8 "max without (scope) (" ++ query ++ [41] := rfl
  rw [Bytes.trimSpace_solid ⟨109, rfl, by decide⟩ ⟨41, by simp [hends], by decide⟩, hends]
  exact List.append_ne_nil_of_right_ne_nil _ (List.cons_ne_nil _ _)

theorem trendQuery_trimSpace {metric window scope query : Bytes} {services : List Bytes}
    (h : trendQuery go metric window scope services = .ok query) : query.trimSpace ≠ [] := by
  unfold trendQuery at h
  dsimp only at h
  split at h
  · cases h
    exact mergeScopes_trimSpace _
  · split at h
    · cases h
    · split at h <;> cases h
      exact mergeScopes_trimSpace _

/-- What a request that is not refused asks for. -/
theorem handleServiceTrends_eq_ok (h : handleServiceTrends go metricsStore req now = .ok (range, q)) :
    range.start < range.stop ∧ q.query.trimSpace ≠ [] ∧ (req.window, q.step) ∈ serviceTrendWindows ∧
      (⟨q.start, q.stop⟩ : VictoriaLogs.TimeRange) = gridRange range q.step := by
  unfold handleServiceTrends at h
  obtain ⟨_, -, h⟩ := bind_eq_ok.mp h
  obtain ⟨step, hstep, h⟩ := bind_eq_ok.mp h
  obtain ⟨metric, -, h⟩ := bind_eq_ok.mp h
  obtain ⟨scope, -, h⟩ := bind_eq_ok.mp h
  obtain ⟨⟨resolved, loc⟩, hresolve, h⟩ := bind_eq_ok.mp h
  obtain ⟨_, -, h⟩ := bind_eq_ok.mp h
  obtain ⟨query, hquery, h⟩ := bind_eq_ok.mp h
  cases pure_eq_ok.mp h
  obtain ⟨before, after, hsplit, -⟩ := List.lookup_eq_some_iff.mp (get_eq_ok.mp hstep)
  exact ⟨resolveRange_lt _ (mapError_eq_ok.mp hresolve), trendQuery_trimSpace hquery, by simp [hsplit], rfl⟩

/-- Window starts are multiples of the window since the epoch. -/
theorem dvd_of_dvd_truncate {t u : Int} (hstep : 0 < step) (hday : step ∣ day) (h : u = truncate t step) :
    step ∣ u := by
  rw [h]
  exact (dvd_add_left (dvd_sinceZero hday)).mp (dvd_truncate_add hstep)

/-- Posting whole seconds leaves the grid as it is. -/
theorem formGrid_eq {query : Bytes} {start stop : Int} (hsecond : second ∣ step) (hstart : step ∣ start)
    (hstop : step ∣ stop) :
    RangeForm.grid ⟨query, start / second, stop / second, step / second⟩ = Charts.grid step start (stop + 1) := by
  simp only [RangeForm.grid, Int.ediv_mul_cancel hsecond, Int.ediv_mul_cancel (hsecond.trans hstart),
    Int.ediv_mul_cancel (hsecond.trans hstop)]

/-- The metric store is asked about the windows of the range exactly if the range does not
lie within one window. -/
theorem handleServiceTrends_grid_iff (h : handleServiceTrends go metricsStore req now = .ok (range, q)) :
    (∃ form, q.form = .ok form ∧
      ∀ t, q.step ∣ t + sinceZero → range.start ≤ t → t ≤ range.stop → t ∈ form.grid) ↔
    truncate range.start q.step ≠ truncate range.stop q.step := by
  obtain ⟨hrange, hquery, hwindow, hgrid⟩ := handleServiceTrends_eq_ok h
  have hdvd : 0 < q.step ∧ second ∣ q.step ∧ q.step ∣ day := serviceTrendWindows_dvd _ hwindow
  obtain ⟨hstep, hsecond, hday⟩ := hdvd
  rw [gridRange_eq hstep hrange] at hgrid
  obtain ⟨hstart, hstop⟩ := VictoriaLogs.TimeRange.mk.inj hgrid
  have hle : q.start ≤ q.stop := by
    rw [hstart, hstop, le_truncate_iff hstep (dvd_truncate_add hstep)]
    exact (truncate_le hstep).trans hrange.le
  constructor
  · rintro ⟨form, hform, -⟩ heq
    have hend : ¬q.start < q.stop := by omega
    simp only [RangeQuery.form, if_neg hquery, if_pos hend] at hform
    cases hform
  · intro hne
    have hend : ¬¬q.start < q.stop := by omega
    have hpos : ¬q.step ≤ 0 := by omega
    have hform : q.form = .ok ⟨q.query, q.start / second, q.stop / second, q.step / second⟩ := by
      simp only [RangeQuery.form, if_neg hquery, if_neg hend, if_neg hpos]
    refine ⟨_, hform, fun t hdvd hfrom hto => ?_⟩
    rw [formGrid_eq hsecond (dvd_of_dvd_truncate hstep hday hstart) (dvd_of_dvd_truncate hstep hday hstop),
      Charts.mem_grid hstep]
    refine ⟨?_, ?_, ?_⟩
    · rw [hstart]
      exact (truncate_le hstep).trans hfrom
    · rw [hstop, Int.lt_add_one_iff, le_truncate_iff hstep hdvd]
      exact hto
    · have := dvd_sub hdvd (dvd_truncate_add hstep (t := range.start))
      rwa [add_sub_add_right_eq_sub, ← hstart] at this

/-- A library that reads the number two. -/
def plainGo : GoLib where
  Location := Unit
  utc := ()
  loadLocation _ := none
  parse _ := none
  startOfHour _ t := t
  startOfDay _ t := t
  startOfWeek _ t := t
  atoi s := if s = utf8 "2" then some 2 else none
  quote s := s
  quoteRune s := s

/-- The last two minutes or the last two hours, in windows of five minutes. -/
def lastTwo (unit : String) : ServiceTrendRequest where
  timeRange := ⟨utf8 "now-2" ++ utf8 unit, utf8 "now", []⟩
  window := utf8 "5m"

/-- The query for the clients of all services, over windows of five minutes. -/
def clientsQuery (start stop : Int) : RangeQuery where
  query := mergeScopes (lastOverWindow
    (utf8 "syslogc_dns_service_unique_clients\x7bwindow=5m,scope=~\"all|\"\x7d") (utf8 "5m"))
  start := start
  stop := stop
  step := 5 * minute

/-- Three minutes past a window's start, the last two minutes lie in that window: the
client of the metric store refuses the query. -/
theorem lastTwo_minutes_refused :
    handleServiceTrends plainGo true (lastTwo "m") (3 * minute) = .ok (⟨minute, 3 * minute⟩, clientsQuery 0 0) ∧
      (clientsQuery 0 0).form = .error (utf8 "metricstore: end must be after start") :=
  ⟨by decide +kernel, by decide +kernel⟩

theorem handleServiceTrends_grid_iff_lastTwo :
    handleServiceTrends plainGo true (lastTwo "h") (3 * minute) =
        .ok (⟨3 * minute - 2 * hour, 3 * minute⟩, clientsQuery (-2 * hour) 0) ∧
      ((∃ form, (clientsQuery (-2 * hour) 0).form = .ok form ∧
        ∀ t, 5 * minute ∣ t + sinceZero → 3 * minute - 2 * hour ≤ t → t ≤ 3 * minute → t ∈ form.grid) ↔
      truncate (3 * minute - 2 * hour) (5 * minute) ≠ truncate (3 * minute) (5 * minute)) :=
  have h : handleServiceTrends plainGo true (lastTwo "h") (3 * minute) =
      .ok (⟨3 * minute - 2 * hour, 3 * minute⟩, clientsQuery (-2 * hour) 0) := by decide +kernel
  ⟨h, handleServiceTrends_grid_iff h⟩

/-! ## The windows of the configuration, the recorder and the API -/

section Windows

open Trends

variable {toLower quote : Bytes → Bytes} {a : AnalyticsConfig} {retention : Int} {database : Bool} {r : Recorder}

/-- A window as it is compared. -/
def normalWindow (toLower : Bytes → Bytes) (w : Bytes) : Bytes := toLower w.trimSpace

/-- The three tables agree about the configuration. -/
structure WindowsAgree (toLower : Bytes → Bytes) (a : AnalyticsConfig) (r : Recorder) : Prop where
  /-- Every configured window is recorded. -/
  recorded : ∀ w ∈ a.serviceTrends.windows, ∃ step ∈ r.resolutions toLower, utf8 step.window = normalWindow toLower w
  some : r.resolutions toLower ≠ []
  /-- Every recorded window is one that a request may name. -/
  accepted : ∀ step ∈ r.resolutions toLower, (serviceTrendWindows.lookup (utf8 step.window)).isSome = true

/-- What `Config.Validate` knows of an interval that it accepts. -/
theorem validateInterval_eq_nil {interval : Int} (h : validateInterval interval = []) :
    minute ≤ interval ∧ interval ≤ hour ∧ interval ∣ hour := by
  unfold validateInterval at h
  split at h
  · cases h
  · split at h
    · cases h
    · split at h
      · cases h
      · exact ⟨by omega, by omega, Int.dvd_of_emod_eq_zero (not_not.mp ‹_›)⟩

/-- The only interval that divides an hour and is named after five minutes is five minutes. -/
theorem five_minutes_of_dvd {d : Int} (hdvd : d ∣ hour) (h : d / minute = 5) : d = 5 * minute := by
  obtain ⟨k, hk⟩ := hdvd
  have hlo : 5 * minute ≤ d := (Int.le_ediv_iff_mul_le (by decide)).mp h.ge
  have hhi : d < 6 * minute := (Int.ediv_lt_iff_lt_mul (by decide)).mp (by omega)
  simp only [hour, minute, second, millisecond] at hk hlo hhi ⊢
  have hk₁ : 10 < k := by nlinarith
  have hk₂ : k < 13 := by nlinarith
  interval_cases k <;> omega

theorem minutes_named : ∀ n : Fin 61,
    utf8 (toString (n.val : Int) ++ "m") ∈ serviceTrendWindows.map Prod.fst → n = 5 := by decide +kernel

/-- A window is named like one of the API's only if it is one of them. -/
theorem windowName_interval {d : Int} (hmin : minute ≤ d) (hmax : d ≤ hour) (hdvd : d ∣ hour)
    (h : utf8 (windowName d) ∈ serviceTrendWindows.map Prod.fst) : d = 5 * minute ∨ d = hour := by
  by_cases hhour : d = hour
  · exact .inr hhour
  · left
    have hday : ¬(day ≤ d ∧ d % day = 0) := fun h => by
      have : hour < day := by decide
      omega
    have hless : ¬(hour ≤ d ∧ d % hour = 0) := by omega
    rw [windowName, if_neg hday, if_neg hless] at h
    have hlo : 0 ≤ d / minute := Int.ediv_nonneg (le_trans (by decide) hmin) (by decide)
    have hhi : d / minute < 61 := (Int.ediv_lt_iff_lt_mul (by decide)).mpr (lt_of_le_of_lt hmax (by decide))
    have hname := minutes_named ⟨(d / minute).toNat, by omega⟩ (by simpa [Int.toNat_of_nonneg hlo] using h)
    have hfive : (d / minute).toNat = 5 := congrArg Fin.val hname
    exact five_minutes_of_dvd hdvd (by omega)

theorem complaints_eq_nil {checks : List (Bool × Bytes)} (h : complaints checks = []) : ∀ c ∈ checks, c.1 = false := by
  intro c hc
  have hnone := List.filter_eq_nil_iff.mp (List.map_eq_nil_iff.mp h) c hc
  simpa using hnone

/-- The windows of a configuration that is accepted. -/
theorem known_window (h : validateServiceTrends toLower quote a = []) {w : Bytes} (hw : w ∈ a.serviceTrends.windows) :
    normalWindow toLower w ∈ serviceTrendWindows.map Prod.fst := by
  have hcheck := complaints_eq_nil (List.append_eq_nil_iff.mp h).1 _ (List.mem_map_of_mem hw)
  exact not_not.mp (of_decide_eq_false hcheck)

theorem newRecorder_eq_ok {opts : Trends.Options} (h : newRecorder opts = .ok r) (hbase : 0 < opts.base) :
    r.opts = opts := by
  unfold newRecorder at h
  split at h
  · cases h
  · rw [dif_neg (not_le.mpr hbase)] at h
    cases h
    rfl

/-- A recorder that is wired up has the windows and the interval of the configuration. -/
theorem wireAnalytics_eq_some (h : wireAnalytics a retention database = .ok (some r))
    (hvalid : validateServiceTrends toLower quote a = []) :
    r.opts.windows = a.serviceTrends.windows ∧ r.opts.base = a.serviceTrends.interval ∧
      validateInterval a.serviceTrends.interval = [] := by
  unfold wireAnalytics at h
  dsimp only at h
  split at h
  · cases h
  · rename_i hwired
    have hurl : a.metricsURL ≠ [] := fun hnil => hwired (.inl hnil)
    have hinterval : validateInterval a.serviceTrends.interval = [] := by
      have hrest := (List.append_eq_nil_iff.mp hvalid).2
      rw [if_neg hurl] at hrest
      exact (List.append_eq_nil_iff.mp hrest).1
    have hpos : 0 < a.serviceTrends.interval := lt_of_lt_of_le (by decide) (validateInterval_eq_nil hinterval).1
    obtain ⟨r', hr', hsome⟩ := map_eq_ok.mp h
    cases hsome
    have hopts := newRecorder_eq_ok hr' hpos
    exact ⟨congrArg Trends.Options.windows hopts, congrArg Trends.Options.base hopts, hinterval⟩

/-- With the windows left open, the interval is recorded besides the hour and the day. -/
theorem mem_resolutions {step : Step} : step ∈ r.resolutions toLower ↔
    (step = ⟨r.opts.base, r.base_pos⟩ ∨ step = resolutionHour ∨ step = resolutionDay) ∧
      (r.opts.windows = [] ∨ utf8 step.window ∈ r.opts.windows.map (normalWindow toLower)) := by
  unfold Recorder.resolutions
  dsimp only
  split
  · simp [*]
  · simp [*, List.mem_filter, normalWindow]

/-- For a configuration that is accepted, the tables agree exactly if the interval is five
minutes or an hour where the windows are left open, and five minutes where that window is
among them. -/
theorem windowsAgree_iff (hvalid : validateServiceTrends toLower quote a = [])
    (hwired : wireAnalytics a retention database = .ok (some r)) :
    WindowsAgree toLower a r ↔
      (a.serviceTrends.windows = [] → a.serviceTrends.interval = 5 * minute ∨ a.serviceTrends.interval = hour) ∧
      (utf8 "5m" ∈ a.serviceTrends.windows.map (normalWindow toLower) → a.serviceTrends.interval = 5 * minute) := by
  obtain ⟨hwindows, hbase, hinterval⟩ := wireAnalytics_eq_some hwired hvalid
  obtain ⟨hmin, hmax, hdvd⟩ := validateInterval_eq_nil hinterval
  rw [← hbase] at hmin hmax hdvd ⊢
  rw [← hwindows]
  have hnames {name : Bytes} (h : name ∈ serviceTrendWindows.map Prod.fst) :
      (serviceTrendWindows.lookup name).isSome = true := by
    revert name
    decide
  have hbaseName (h : r.opts.base = 5 * minute) : utf8 (windowName r.opts.base) = utf8 "5m" := by
    rw [h]
    decide
  constructor
  · intro hagree
    constructor
    · intro hopen
      have hmem : ⟨r.opts.base, r.base_pos⟩ ∈ r.resolutions toLower := mem_resolutions.mpr ⟨.inl rfl, .inl hopen⟩
      have haccepted := hagree.accepted _ hmem
      refine windowName_interval hmin hmax hdvd ?_
      by_contra hno
      rw [Step.window, Lists.lookup_eq_none.mpr hno] at haccepted
      cases haccepted
    · intro hfive
      obtain ⟨w, hw, hname⟩ := List.mem_map.mp hfive
      obtain ⟨step, hstep, hrecorded⟩ := hagree.recorded w (hwindows ▸ hw)
      rw [hname] at hrecorded
      obtain ⟨rfl | rfl | rfl, -⟩ := mem_resolutions.mp hstep
      · have hname : utf8 (windowName r.opts.base) = utf8 "5m" := hrecorded
        obtain hfive | hhour := windowName_interval hmin hmax hdvd (by rw [hname]; decide)
        · exact hfive
        · rw [hhour] at hname
          exact absurd hname (by decide)
      · exact absurd hrecorded (by decide)
      · exact absurd hrecorded (by decide)
  · rintro ⟨hopen, hfive⟩
    have hrecorded (w : Bytes) (hw : w ∈ r.opts.windows) :
        ∃ step ∈ r.resolutions toLower, utf8 step.window = normalWindow toLower w := by
      have hmem := List.mem_map_of_mem (f := normalWindow toLower) hw
      have hknown := known_window hvalid (hwindows ▸ hw)
      have hstep (step : Step)
          (hall : step = ⟨r.opts.base, r.base_pos⟩ ∨ step = resolutionHour ∨ step = resolutionDay)
          (hname : utf8 step.window = normalWindow toLower w) :
          ∃ step ∈ r.resolutions toLower, utf8 step.window = normalWindow toLower w :=
        ⟨step, mem_resolutions.mpr ⟨hall, .inr (hname ▸ hmem)⟩, hname⟩
      simp only [serviceTrendWindows, List.map_cons, List.map_nil, List.mem_cons, List.not_mem_nil, or_false] at hknown
      obtain hname | hname | hname := hknown
      · exact hstep _ (.inl rfl) ((hbaseName (hfive (hname ▸ hmem))).trans hname.symm)
      · exact hstep resolutionHour (.inr (.inl rfl)) (by rw [hname]; decide)
      · exact hstep resolutionDay (.inr (.inr rfl)) (by rw [hname]; decide)
    refine ⟨by rw [← hwindows]; exact hrecorded, ?_, fun step hstep => hnames ?_⟩
    · by_cases hnil : r.opts.windows = []
      · exact List.ne_nil_of_mem (mem_resolutions.mpr ⟨.inl rfl, .inl hnil⟩)
      · obtain ⟨w, hw⟩ := List.exists_mem_of_ne_nil _ hnil
        obtain ⟨step, hstep, -⟩ := hrecorded w hw
        exact List.ne_nil_of_mem hstep
    · obtain ⟨hall, hnil | hmem⟩ := mem_resolutions.mp hstep
      · obtain rfl | rfl | rfl := hall
        · change utf8 (windowName r.opts.base) ∈ _
          obtain hbase | hbase := hopen hnil <;>
          · rw [hbase]
            decide
        · decide
        · decide
      · obtain ⟨w, hw, hname⟩ := List.mem_map.mp hmem
        rw [← hname]
        exact known_window hvalid (hwindows ▸ hw)

/-- Windows and an interval, with everything else in order. -/
def trendsConfig (windows : List Bytes) (interval : Int) : AnalyticsConfig where
  metricsURL := utf8 "http://victoriametrics:8428"
  serviceTrends := {
    enabled := true, windows, interval, backfill := 0, domainField := utf8 "dns.qname"
    clientField := utf8 "client", sources := [], queryTimeout := 2 * minute }

/-- The recorder of that configuration. -/
def trendsRecorder (windows : List Bytes) (interval : Int) (h : 0 < interval) : Recorder where
  opts := {
    base := interval, backfill := 0, maxAge := 0, tenant := [], domainField := utf8 "dns.qname"
    clientField := utf8 "client", sources := [], windows }
  base_pos := h

/-- With a quarter of an hour as the interval, the window of five minutes is accepted and
nothing at all is recorded. -/
theorem quarterHour_records_nothing : ∃ r,
    validateServiceTrends id id (trendsConfig [utf8 "5m"] (15 * minute)) = [] ∧
      wireAnalytics (trendsConfig [utf8 "5m"] (15 * minute)) 0 true = .ok (some r) ∧ r.resolutions id = [] ∧
      ¬WindowsAgree id (trendsConfig [utf8 "5m"] (15 * minute)) r :=
  ⟨trendsRecorder [utf8 "5m"] (15 * minute) (by decide), by decide, rfl, by decide, fun h => h.some (by decide)⟩

theorem windowsAgree_iff_open :
    WindowsAgree id (trendsConfig [] (5 * minute)) (trendsRecorder [] (5 * minute) (by decide)) ↔
      (([] : List Bytes) = [] → 5 * minute = 5 * minute ∨ 5 * minute = hour) ∧
      (utf8 "5m" ∈ ([] : List Bytes).map (normalWindow id) → 5 * minute = 5 * minute) :=
  have hvalid : validateServiceTrends id id (trendsConfig [] (5 * minute)) = [] := by decide
  have hwired : wireAnalytics (trendsConfig [] (5 * minute)) 0 true =
      .ok (some (trendsRecorder [] (5 * minute) (by decide))) := rfl
  windowsAgree_iff hvalid hwired

end Windows

end Syslogc.Api.ServiceTrends
