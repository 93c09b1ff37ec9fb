-- SUMMARY: When the points of a chart add up to its events.
import Syslogc.Query.Activity
import Syslogc.Storage.Meaning

/-!
# What charts add up to

The buckets of the log store start at multiples of the step since the epoch, those of a
chart at multiples since year 1. For every step that divides a day the two grids are the
same, so every event has a point. Weeks differ: the store's begin on Thursdays, those of a
chart on Mondays. A series moves the buckets to its own grid and loses those that begin
before it. The activity charts look for the buckets as they are and lose all of them.
-/

namespace Syslogc.Query

open Instants Fallible
open Syslogc.VictoriaLogs (Store StorageError AggRow CategoryRow AggregateQuery Answer formatMillis groupsBy noPipes
  readLogs)

variable {step t : Int} {range : VictoriaLogs.TimeRange}

/-! ## The grid of a chart -/

theorem mem_chartGrid (hstep : 0 < step) : t ∈ chartGrid step range ↔
    truncate range.start step ≤ t ∧ t < range.stop ∧ step ∣ t + sinceZero := by
  have hdvd : step ∣ t - truncate range.start step ↔ step ∣ t + sinceZero := by
    have heq : t + sinceZero = t - truncate range.start step + (truncate range.start step + sinceZero) := by ring
    rw [heq, dvd_add_left (dvd_truncate_add hstep)]
  rw [chartGrid, Charts.mem_grid hstep, hdvd]

/-- The bucket that starts at `t` has an instant in common with the half-open range. -/
def Meets (step : Int) (range : VictoriaLogs.TimeRange) (t : Int) : Prop :=
  ∃ u, t ≤ u ∧ u < t + step ∧ range.start ≤ u ∧ u < range.stop

theorem mem_chartGrid_iff_meets (hstep : 0 < step) (hrange : range.start < range.stop) :
    t ∈ chartGrid step range ↔ step ∣ t + sinceZero ∧ Meets step range t := by
  rw [mem_chartGrid hstep]
  constructor
  · rintro ⟨hstart, hstop, hdvd⟩
    have hlt := lt_truncate_add hstep (t := range.start)
    exact ⟨hdvd, max t range.start, by omega, by omega, by omega, by omega⟩
  · rintro ⟨hdvd, u, htu, hut, hstart, hstop⟩
    refine ⟨?_, by omega, hdvd⟩
    by_contra hlt
    have hgap : step ∣ truncate range.start step - t := by
      have := dvd_sub (dvd_truncate_add hstep (t := range.start)) hdvd
      rwa [add_sub_add_right_eq_sub] at this
    have hstep_le := Int.le_of_dvd (by omega) hgap
    have htruncate := truncate_le hstep (t := range.start)
    omega

theorem stepLadder_pos (h : step ∈ stepLadder) : 0 < step := (stepLadder_dvd step h).1

theorem formatMillis_stepLadder (h : step ∈ stepLadder) : formatMillis step = step := by
  obtain ⟨-, hsecond, -⟩ := stepLadder_dvd step h
  exact Int.ediv_mul_cancel ((Dvd.intro_left 1000 rfl : millisecond ∣ second).trans hsecond)

/-- The step is the smallest of the ladder that goes into the length of the range less than
`maxBuckets` times. -/
def Chooses (range : VictoriaLogs.TimeRange) (maxBuckets step : Int) : Prop :=
  step ∈ stepLadder ∧ span range / step < maxBuckets ∧
    ∀ s ∈ stepLadder, s < step → maxBuckets ≤ span range / s

theorem Chooses.unique {maxBuckets step' : Int} (h : Chooses range maxBuckets step)
    (h' : Chooses range maxBuckets step') : step = step' := by
  rcases lt_trichotomy step step' with hlt | heq | hlt
  · exact absurd h.2.1 (h'.2.2 step h.1 hlt).not_gt
  · exact heq
  · exact absurd h'.2.1 (h.2.2 step' h'.1 hlt).not_gt

theorem stepLadder_sorted : stepLadder.Pairwise (· < ·) := by decide

theorem chooses_chooseStep {maxBuckets : Int} (hrange : range.start < range.stop)
    (hshort : range.stop - range.start < maxBuckets * week) :
    Chooses range maxBuckets (chooseStep range maxBuckets) := by
  have hspan : 0 ≤ span range ∧ span range ≤ range.stop - range.start := by
    unfold span maxDuration
    omega
  have hweek : decide ((span range).tdiv week < maxBuckets) := by
    rw [decide_eq_true_eq, Int.tdiv_eq_ediv_of_nonneg hspan.1, Int.ediv_lt_iff_lt_mul (by decide)]
    omega
  have hfound : (stepLadder.find? fun s => decide ((span range).tdiv s < maxBuckets)).isSome :=
    List.find?_isSome.mpr ⟨week, by decide, hweek⟩
  obtain ⟨step, hfind⟩ := Option.isSome_iff_exists.mp hfound
  have hchosen : chooseStep range maxBuckets = step := by rw [chooseStep, hfind, Option.getD_some]
  obtain ⟨hstep, before, after, hladder, hbefore⟩ := List.find?_eq_some_iff_append.mp hfind
  rw [decide_eq_true_eq, Int.tdiv_eq_ediv_of_nonneg hspan.1] at hstep
  rw [hchosen]
  refine ⟨List.mem_of_find?_eq_some hfind, hstep, fun s hs hlt => ?_⟩
  -- the ladder ascends, so a smaller step was tried before
  have hsorted := stepLadder_sorted
  rw [hladder, List.pairwise_append, List.pairwise_cons] at hsorted
  rw [hladder, List.mem_append, List.mem_cons] at hs
  rcases hs with hs | rfl | hs
  · simpa [Int.tdiv_eq_ediv_of_nonneg hspan.1] using hbefore s hs
  · exact absurd hlt (lt_irrefl s)
  · exact absurd (hsorted.2.1.1 s hs) hlt.not_gt

/-- The buckets that a range meets beside as many as go into its length: none if it begins
and ends between buckets, one if its two cut pieces fit into one bucket, and two otherwise. -/
def cutBuckets (step : Int) (range : VictoriaLogs.TimeRange) : Int :=
  let cut := (range.start + sinceZero) % step + (range.stop - range.start) % step
  if cut = 0 then 0 else if cut ≤ step then 1 else 2

theorem length_chartGrid_le {n : Int} (hstep : 0 < step) (hn : 0 ≤ n) : ((chartGrid step range).length : Int) ≤ n ↔
    (range.stop - range.start) / step + cutBuckets step range ≤ n := by
  have hphase := Int.emod_nonneg (range.start + sinceZero) hstep.ne'
  have hphase' := Int.emod_lt_of_pos (range.start + sinceZero) hstep
  have hrest := Int.emod_nonneg (range.stop - range.start) hstep.ne'
  have hrest' := Int.emod_lt_of_pos (range.stop - range.start) hstep
  have hdiv := Int.mul_ediv_add_emod (range.stop - range.start) step
  rw [chartGrid, Charts.length_grid_le hstep hn, truncate, if_neg hstep.not_ge, cutBuckets]
  generalize (range.start + sinceZero) % step = phase, (range.stop - range.start) % step = rest,
    (range.stop - range.start) / step = whole at *
  have hfits : range.stop - (range.start - phase) ≤ n * step ↔ phase + rest ≤ (n - whole) * step := by
    rw [sub_mul]
    constructor <;> intro <;> linarith
  rw [hfits]
  split_ifs with hzero hone
  · rw [hzero, mul_nonneg_iff_of_pos_right hstep]
    omega
  · constructor
    · intro h
      have := Int.pos_of_mul_pos_left (show 0 < (n - whole) * step by omega) hstep
      omega
    · intro h
      nlinarith
  · constructor
    · intro h
      by_contra hlt
      nlinarith
    · intro h
      nlinarith

/-- The buckets of the chosen step that meet a range are the points of its charts. There
are at most as many as were asked for exactly if the step that goes into the range less
often than that leaves room for the buckets that the range cuts. -/
theorem chooseStep_points_iff {maxBuckets : Int} (hrange : range.start < range.stop) (hmax : 1 ≤ maxBuckets)
    (hshort : range.stop - range.start < maxBuckets * week) :
    (∀ t, t ∈ chartGrid (chooseStep range maxBuckets) range ↔
        chooseStep range maxBuckets ∣ t + sinceZero ∧ Meets (chooseStep range maxBuckets) range t) ∧
      (chartGrid (chooseStep range maxBuckets) range).Nodup ∧
      ((chartGrid (chooseStep range maxBuckets) range).length ≤ maxBuckets ↔
        ∃ step, Chooses range maxBuckets step ∧
          (range.stop - range.start) / step + cutBuckets step range ≤ maxBuckets) := by
  have hpos := stepLadder_pos (chooseStep_mem range maxBuckets)
  have hchosen := chooses_chooseStep hrange hshort
  refine ⟨fun t => mem_chartGrid_iff_meets hpos hrange, Charts.nodup_grid hpos, ?_⟩
  rw [length_chartGrid_le hpos (by omega)]
  constructor
  · exact fun h => ⟨_, hchosen, h⟩
  · rintro ⟨step, hstep, h⟩
    rwa [← hstep.unique hchosen]

/-- From 0.9 s to 2.4 s: no step of a second fits twice, and three seconds are met. -/
def unalignedRange : VictoriaLogs.TimeRange := ⟨900 * millisecond, 2400 * millisecond⟩

theorem unalignedRange_points : unalignedRange.start < unalignedRange.stop ∧
    unalignedRange.stop - unalignedRange.start < 2 * week ∧
    (chartGrid (chooseStep unalignedRange 2) unalignedRange).length = 3 := by decide

theorem chooseStep_points_iff_unaligned :
    unalignedRange.start < unalignedRange.stop ∧ unalignedRange.stop - unalignedRange.start < 3 * week ∧
      ((chartGrid (chooseStep unalignedRange 3) unalignedRange).length ≤ (3 : Int) ↔
        ∃ step, Chooses unalignedRange 3 step ∧
          (unalignedRange.stop - unalignedRange.start) / step + cutBuckets step unalignedRange ≤ 3) :=
  ⟨by decide, by decide, (chooseStep_points_iff (by decide) (by decide) (by decide)).2.2⟩

theorem stepLadder_week : ∀ s ∈ stepLadder, s / second = 604800 ↔ s = week := by decide

/-- The weeks of the two grids never coincide. -/
theorem not_week_dvd : ¬week ∣ sinceZero := by decide

/-- Where a bucket of the store stands on the grid of a chart: at itself, if a step is not
a week, and nowhere otherwise. -/
theorem bucket_mem_chartGrid (hstep : step ∈ stepLadder) (hstart : range.start ≤ t) (hstop : t < range.stop) :
    floorTo step t ∈ chartGrid step range ↔ step ≠ week := by
  obtain ⟨hpos, -, hdvd⟩ := stepLadder_dvd step hstep
  rw [mem_chartGrid hpos, dvd_add_right dvd_floorTo]
  constructor
  · rintro ⟨-, -, hzero⟩ rfl
    exact not_week_dvd hzero
  · intro hweek
    have hzero := dvd_sinceZero (hdvd.resolve_left hweek)
    refine ⟨?_, (floorTo_le hpos).trans_lt hstop, hzero⟩
    rw [truncate_eq_floorTo hpos hzero, le_floorTo_iff hpos dvd_floorTo]
    exact (floorTo_le hpos).trans hstart

/-- A bucket that is moved to the grid of the chart is on it, unless it is a week that
begins before the first one of the chart. -/
theorem truncate_bucket_mem_chartGrid (hstep : step ∈ stepLadder) (hstart : range.start ≤ t) (hstop : t < range.stop) :
    truncate (floorTo step t) step ∈ chartGrid step range ↔
      (step = week → truncate range.start week ≤ floorTo week t) := by
  obtain ⟨hpos, -, hdvd⟩ := stepLadder_dvd step hstep
  by_cases hweek : step = week
  · subst hweek
    have hbefore : truncate (floorTo week t) week < range.stop :=
      ((truncate_le hpos).trans (floorTo_le hpos)).trans_lt hstop
    simp only [mem_chartGrid hpos, le_truncate_iff hpos (dvd_truncate_add hpos), hbefore, dvd_truncate_add hpos,
      and_true, forall_const]
  · have hzero := dvd_sinceZero (hdvd.resolve_left hweek)
    rw [truncate_eq_floorTo hpos hzero, floorTo_eq_self dvd_floorTo, bucket_mem_chartGrid hstep hstart hstop]
    simp [hweek]

/-! ## The lines of a series -/

variable {Log : Type} {go : Filter.GoLib} {gt : GoTime} {st : Store Log} {svc : Service} {p : Auth.Principal}
  {env : Env Log} {timestamps : List Int} {lines : List (Bytes × List Nat)} {g : Bytes}

/-- The points of the line of a group, whether or not it is there yet. -/
def linePoints (timestamps : List Int) (lines : List (Bytes × List Nat)) (g : Bytes) : List Nat :=
  (lines.lookup g).getD (Charts.flat timestamps)

theorem linePoints_plotRow (row : AggRow) : linePoints timestamps (plotRow step timestamps lines row) g =
    if row.group = g then Charts.add timestamps (linePoints timestamps lines g) (truncate row.time step) row.value
    else linePoints timestamps lines g := by
  unfold plotRow
  by_cases ht : truncate row.time step ∈ timestamps
  · simp only [if_pos ht, linePoints, Lists.lookup_assign]
    by_cases hg : row.group = g
    · simp [hg]
    · simp [hg, Ne.symm hg]
  · simp [ht, Charts.add]

/-- A line only takes the rows of its group. -/
theorem linePoints_foldl (rows : List AggRow) : linePoints timestamps (rows.foldl (plotRow step timestamps) lines) g =
    (rows.filter fun row => row.group = g).foldl
      (fun points row => Charts.add timestamps points (truncate row.time step) row.value)
      (linePoints timestamps lines g) := by
  induction rows generalizing lines with
  | nil => rfl
  | cons row rows ih =>
    rw [List.foldl_cons, ih, linePoints_plotRow]
    by_cases hg : row.group = g <;> simp [hg]

theorem nodup_foldl_plotRow (rows : List AggRow) (h : (lines.map Prod.fst).Nodup) :
    ((rows.foldl (plotRow step timestamps) lines).map Prod.fst).Nodup := by
  induction rows generalizing lines with
  | nil => exact h
  | cons row rows ih =>
    apply ih
    unfold plotRow
    by_cases ht : truncate row.time step ∈ timestamps
    · simpa [ht] using Lists.nodup_keys_assign h
    · simpa [ht] using h

theorem sum_linePoints (rows : List AggRow) :
    (linePoints timestamps (rows.foldl (plotRow step timestamps) []) g).sum =
      ((rows.filter fun row => row.group = g ∧ truncate row.time step ∈ timestamps).map (·.value)).sum := by
  rw [linePoints_foldl, linePoints, List.lookup_nil, Option.getD_none, Charts.sum_foldl_add Charts.length_flat,
    Charts.sum_flat, zero_add, List.filter_filter]
  simp only [Bool.decide_and, Bool.and_comm]

/-! ## The events of a series -/

/-- The group of a log; without a field to group by there is only one. -/
def groupOf (st : Store Log) (groupBy : Bytes) (l : Log) : Bytes :=
  if groupBy = [] then [] else st.value (VictoriaLogs.storageField groupBy) l

/-- The logs that belong to a line. -/
def charted (st : Store Log) (groupBy : Bytes) (logs : List Log) : List Log :=
  logs.filter fun l => groupBy = [] || groupOf st groupBy l ≠ []

theorem readLogs_range {sel : VictoriaLogs.Selection} {answer : Answer Log} {logs : List Log} {l : Log}
    (h : readLogs go st sel answer = .ok logs) (hl : l ∈ logs) :
    sel.range.start ≤ st.time l ∧ st.time l < sel.range.stop := by
  obtain ⟨filter, -, h₁⟩ := bind_eq_ok.mp h
  obtain ⟨stored, -, h₂⟩ := bind_eq_ok.mp h₁
  obtain rfl := pure_eq_ok.mp h₂
  simp only [Store.matching, List.mem_filter, Bool.and_eq_true, decide_eq_true_eq] at hl
  exact hl.2.1

/-- The rows of an aggregation with buckets. -/
theorem aggregate_buckets {q : AggregateQuery} {answer : Answer Log} {rows : List AggRow}
    (h : VictoriaLogs.aggregate go st q answer = .ok rows) (hstep : 0 < q.step) :
    ∃ logs, readLogs go st q.toSelection answer = .ok logs ∧
      rows = ((groupsBy (st.cell q.step q.groupBy) logs).map fun cell =>
        AggRow.mk cell.1.1 cell.1.2 (st.measure q.metric cell.2)).filter
          fun row => q.groupBy = [] || row.group ≠ [] := by
  obtain ⟨_, -, h₁⟩ := bind_eq_ok.mp h
  obtain ⟨filter, hfilter, h₂⟩ := bind_eq_ok.mp h₁
  obtain ⟨_, -, h₃⟩ := bind_eq_ok.mp h₂
  obtain ⟨stored, hstored, h₄⟩ := bind_eq_ok.mp h₃
  refine ⟨st.matching filter q.range stored, ?_, ?_⟩
  · exact bind_eq_ok.mpr ⟨filter, hfilter, bind_eq_ok.mpr ⟨stored, hstored, rfl⟩⟩
  · have hcells : ¬(q.step ≤ 0 ∧ q.groupBy = []) := fun hle => hle.1.not_gt hstep
    rw [← pure_eq_ok.mp h₄, if_neg hstep.ne', Store.cells, if_neg hcells]

/-- The rows of one group that the grid has count the events that the grid has. -/
theorem sum_cells {groupBy : Bytes} (hstep : step ∈ stepLadder) (logs : List Log) :
    (((((groupsBy (st.cell step groupBy) logs).map fun cell => AggRow.mk cell.1.1 cell.1.2 cell.2.length).filter
        fun row => groupBy = [] || row.group ≠ []).filter
          fun row => row.group = g ∧ truncate row.time step ∈ timestamps).map (·.value)).sum =
      ((charted st groupBy logs).filter fun l =>
        groupOf st groupBy l = g ∧ truncate (floorTo step (st.time l)) step ∈ timestamps).length := by
  have hpos := stepLadder_pos hstep
  have hcell (l : Log) : st.cell step groupBy l = (floorTo step (st.time l), groupOf st groupBy l) := by
    rw [Store.cell, if_pos hpos, formatMillis_stepLadder hstep, groupOf]
  have hsum := VictoriaLogs.sum_groupsBy (st.cell step groupBy) logs fun cell =>
    (decide (cell.2 = g ∧ truncate cell.1 step ∈ timestamps)) && (groupBy = [] || cell.2 ≠ [])
  rw [List.filter_filter, List.filter_map, List.map_map, charted, List.filter_filter]
  simpa only [Function.comp_def, hcell] using hsum

/-! ## Series -/

variable {req : SeriesRequest} {resp : SeriesResponse} {r : Resolved gt} {events : List Log}

/-- The events of a series: those that its query reads and that belong to a line. -/
def Service.seriesEvents (go : Filter.GoLib) (gt : GoTime) (st : Store Log) (svc : Service) (p : Auth.Principal)
    (env : Env Log) (req : SeriesRequest) : Except ServiceError (List Log) := do
  let r ← svc.resolve go gt p env.now req.toSelection
  match ← Service.seriesSelection go gt st env r req (if req.limit ≤ 0 then 5 else req.limit) with
  | none => return []
  | some (sel, _) => return charted st req.groupBy (← told (readLogs go st sel (env.answer 1)))

/-- Every line adds up to the events of its group, and every event has a line. -/
def SeriesResponse.AddsUp (resp : SeriesResponse) (group : Log → Bytes) (events : List Log) : Prop :=
  (∀ line ∈ resp.groups, line.points.sum = (events.filter fun l => group l = line.value).length) ∧
    ∀ l ∈ events, ∃ line ∈ resp.groups, line.value = group l

theorem seriesSelection_range {limit : Int} {sel : VictoriaLogs.Selection} {totals : List (Bytes × Nat)}
    (h : Service.seriesSelection go gt st env r req limit = .ok (some (sel, totals))) : sel.range = r.sel.range := by
  unfold Service.seriesSelection at h
  split at h
  · cases h
    rfl
  · obtain ⟨top, -, h₁⟩ := bind_eq_ok.mp h
    have h₂ := pure_eq_ok.mp h₁
    split at h₂
    · cases h₂
    · cases h₂
      rfl

theorem bounded_eq_ok {n fallback limit m : Int} {error : ServiceError} (h : bounded n fallback limit error = .ok m) :
    m = (if n ≤ 0 then fallback else n) ∧ m ≤ limit := by
  obtain ⟨_, hle, h₁⟩ := bind_eq_ok.mp h
  obtain rfl := pure_eq_ok.mp h₁
  exact ⟨rfl, by simpa using hle⟩

/-- What a series is made of: nothing, or the lines of its rows. -/
theorem series_eq_ok (h : svc.series go gt st p env req = .ok resp) :
    ∃ r buckets selected, svc.resolve go gt p env.now req.toSelection = .ok r ∧
      Service.seriesSelection go gt st env r req (if req.limit ≤ 0 then 5 else req.limit) = .ok selected ∧
      resp.resolvedRange = r.sel.range ∧ resp.stepSeconds = chooseStep r.sel.range buckets / second ∧
      match selected with
      | none => resp.groups = []
      | some (sel, _) => ∃ (rows : List AggRow) (totals : Bytes → Nat), VictoriaLogs.aggregate go st
          { sel with step := chooseStep r.sel.range buckets, groupBy := req.groupBy, metric := req.metric.storage }
          (env.answer 1) = .ok rows ∧
        resp.groups.Perm ((rows.foldl (plotRow (chooseStep r.sel.range buckets)
          (chartGrid (chooseStep r.sel.range buckets) r.sel.range)) []).map fun line =>
            SeriesGroup.mk line.1 (totals line.1) line.2) := by
  obtain ⟨r, hr, h₁⟩ := bind_eq_ok.mp h
  obtain ⟨_, -, h₂⟩ := bind_eq_ok.mp h₁
  obtain ⟨_, -, h₃⟩ := bind_eq_ok.mp h₂
  obtain ⟨limit, hlimit, h₄⟩ := bind_eq_ok.mp h₃
  obtain ⟨buckets, -, h₅⟩ := bind_eq_ok.mp h₄
  obtain ⟨_, -, h₆⟩ := bind_eq_ok.mp h₅
  obtain ⟨selected, hselected, h₇⟩ := bind_eq_ok.mp h₆
  obtain ⟨rfl, -⟩ := bounded_eq_ok hlimit
  cases selected with
  | none =>
    obtain rfl := pure_eq_ok.mp h₇
    exact ⟨r, buckets, none, hr, hselected, rfl, rfl, rfl⟩
  | some selected =>
    obtain ⟨rows, hrows, h₈⟩ := bind_eq_ok.mp h₇
    obtain ⟨totals, -, h₉⟩ := bind_eq_ok.mp h₈
    obtain rfl := pure_eq_ok.mp h₉
    exact ⟨r, buckets, some selected, hr, hselected, rfl, rfl, rows, fun g => (totals.lookup g).getD 0,
      mapError_eq_ok.mp hrows, List.mergeSort_perm _ _⟩

/-- Lines that hold the events of a kind add up to all events exactly if all are of the
kind. -/
theorem lines_addUp_iff {group : Log → Bytes} {kept : Log → Prop} [DecidablePred kept]
    (hkeys : (lines.map Prod.fst).Nodup)
    (hsum : ∀ g, (linePoints timestamps lines g).sum = (events.filter fun l => group l = g ∧ kept l).length) :
    ((∀ line ∈ lines, line.2.sum = (events.filter fun l => group l = line.1).length) ∧
      ∀ l ∈ events, ∃ line ∈ lines, line.1 = group l) ↔ ∀ l ∈ events, kept l := by
  have hline {line : Bytes × List Nat} (hmem : line ∈ lines) :
      line.2.sum = (events.filter fun l => group l = line.1 ∧ kept l).length := by
    have hlookup := (Lists.mem_iff_lookup hkeys).mp hmem
    rw [← hsum, linePoints, hlookup, Option.getD_some]
  constructor
  · rintro ⟨hadd, hall⟩ l hl
    obtain ⟨line, hmem, hgroup⟩ := hall l hl
    -- Both counts are of the events of the line, so none of them is left out.
    have hcount : ((events.filter fun l => group l = line.1).filter fun l => kept l).length =
        (events.filter fun l => group l = line.1).length := by
      rw [← hadd line hmem, hline hmem, List.filter_filter]
      simp only [Bool.decide_and, Bool.and_comm]
    have hkept := List.length_filter_eq_length_iff.mp hcount l (List.mem_filter.mpr ⟨hl, by simp [hgroup]⟩)
    simpa using hkept
  · intro hkept
    have hcount (g : Bytes) : (events.filter fun l => group l = g ∧ kept l) = events.filter fun l => group l = g := by
      apply List.filter_congr
      intro l hl
      simp [hkept l hl]
    refine ⟨fun line hmem => by rw [hline hmem, hcount], fun l hl => ?_⟩
    cases hlookup : lines.lookup (group l) with
    | some points => exact ⟨_, (Lists.mem_iff_lookup hkeys).mpr hlookup, rfl⟩
    | none =>
      -- A group without a line has no events.
      have hzero := hsum (group l)
      rw [linePoints, hlookup, Option.getD_none, Charts.sum_flat, hcount, eq_comm, List.length_eq_zero_iff] at hzero
      have hmem : l ∈ events.filter fun l' => group l' = group l := List.mem_filter.mpr ⟨hl, by simp⟩
      rw [hzero] at hmem
      cases hmem

theorem series_addsUp_iff (hmetric : req.metric.storage = .count) (h : svc.series go gt st p env req = .ok resp)
    (hevents : Service.seriesEvents go gt st svc p env req = .ok events) :
    resp.AddsUp (groupOf st req.groupBy) events ↔ (resp.stepSeconds = 604800 →
      ∀ l ∈ events, truncate resp.resolvedRange.start week ≤ floorTo week (st.time l)) := by
  obtain ⟨r, buckets, selected, hr, hselected, hrange, hseconds, hresp⟩ := series_eq_ok h
  have hladder := chooseStep_mem r.sel.range buckets
  set step := chooseStep r.sel.range buckets
  obtain ⟨r', hr', h₁⟩ := bind_eq_ok.mp hevents
  obtain rfl : r = r' := Except.ok.inj (hr.symm.trans hr')
  obtain ⟨selected', hselected', h₂⟩ := bind_eq_ok.mp h₁
  obtain rfl : selected = selected' := Except.ok.inj (hselected.symm.trans hselected')
  cases selected with
  | none =>
    obtain rfl := pure_eq_ok.mp h₂
    simp [SeriesResponse.AddsUp, hresp]
  | some selected =>
    obtain ⟨sel, totals⟩ := selected
    obtain ⟨rows, totals, hrows, hperm⟩ := hresp
    obtain ⟨logs, hlogs, h₃⟩ := bind_eq_ok.mp h₂
    obtain rfl := pure_eq_ok.mp h₃
    obtain ⟨logs', hlogs', hcells⟩ := aggregate_buckets hrows (stepLadder_pos hladder)
    obtain rfl : logs = logs' := Except.ok.inj ((mapError_eq_ok.mp hlogs).symm.trans hlogs')
    have hkeys : ((rows.foldl (plotRow step (chartGrid step r.sel.range)) []).map Prod.fst).Nodup :=
      nodup_foldl_plotRow rows (by simp)
    have hsum (g : Bytes) :
        (linePoints (chartGrid step r.sel.range) (rows.foldl (plotRow step (chartGrid step r.sel.range)) []) g).sum =
          ((charted st req.groupBy logs).filter fun l => groupOf st req.groupBy l = g ∧
            truncate (floorTo step (st.time l)) step ∈ chartGrid step r.sel.range).length := by
      rw [sum_linePoints, hcells, hmetric]
      exact sum_cells hladder logs
    have hinside {l : Log} (hl : l ∈ charted st req.groupBy logs) :
        truncate (floorTo step (st.time l)) step ∈ chartGrid step r.sel.range ↔
          (step = week → truncate r.sel.range.start week ≤ floorTo week (st.time l)) := by
      have htime := readLogs_range hlogs' (List.mem_of_mem_filter hl)
      rw [seriesSelection_range hselected] at htime
      exact truncate_bucket_mem_chartGrid hladder htime.1 htime.2
    rw [hseconds, stepLadder_week step hladder, hrange]
    refine Iff.trans ?_ ((lines_addUp_iff hkeys hsum).trans ?_)
    · simp only [SeriesResponse.AddsUp, hperm.mem_iff, List.mem_map, forall_exists_index, and_imp,
        forall_apply_eq_imp_iff₂, exists_exists_and_eq_and]
    · constructor
      · intro hall hweek l hl
        exact (hinside hl).mp (hall l hl) hweek
      · intro hall l hl
        exact (hinside hl).mpr fun hweek => hall hweek l hl

/-! ## Activity charts -/

variable {kinds : List ChartKind} {k : ChartKind} {sel : VictoriaLogs.Selection} {distinctField : Bytes}
  {answer : Except StorageError (List Log)} {series : ActivitySeries} {rows : List CategoryRow}

/-- The events of a kind: those that the selection reads and that meet its condition. -/
def kindEvents (go : Filter.GoLib) (st : Store Log) (sel : VictoriaLogs.Selection)
    (answer : Except StorageError (List Log)) (k : ChartKind) : Except StorageError (List Log) := do
  let filter ← noPipes go sel
  let condition ← k.category.condition go
  return (st.matching filter sel.range (← answer)).filter fun l => condition.all fun text => st.selects text l

theorem points_foldl_plot (line : ChartLine) :
    (rows.foldl (ChartLine.plot timestamps) line).points = (rows.filter fun row => row.category = line.name).foldl
      (fun points row => Charts.write timestamps points row.time row.messages) line.points := by
  induction rows generalizing line with
  | nil => rfl
  | cons row rows ih =>
    rw [List.foldl_cons, ih]
    by_cases hname : row.category = line.name
    · by_cases ht : row.time ∈ timestamps <;> simp [ChartLine.plot, Charts.write, hname, ht]
    · simp [ChartLine.plot, hname, Ne.symm hname]

/-- The rows of one category: one for every bucket. -/
theorem filter_category {categories : List (VictoriaLogs.Category × Option Bytes)}
    {c : VictoriaLogs.Category × Option Bytes} (hnames : (categories.map (·.1.name)).Nodup) (hc : c ∈ categories)
    (buckets : List (Int × List Log)) :
    (buckets.flatMap fun (t, logs) => categories.map fun c => st.categoryRow distinctField t c logs).filter
      (fun row => row.category = c.1.name) = buckets.map fun b => st.categoryRow distinctField b.1 c b.2 := by
  induction buckets with
  | nil => rfl
  | cons b buckets ih =>
    have hone := Lists.filter_key_eq_singleton hnames hc
    rw [List.flatMap_cons, List.filter_append, ih, List.filter_map, List.map_cons]
    simp only [Function.comp_def, Store.categoryRow, hone, List.map_singleton, List.singleton_append]

/-- The counts of one category in the buckets that the grid has. -/
theorem sum_categoryRows (hstep : 0 < step) (logs : List Log) (c : VictoriaLogs.Category × Option Bytes) :
    ((((st.buckets step logs).map fun b => st.categoryRow distinctField b.1 c b.2).foldl
        (fun points row => Charts.write timestamps points row.time row.messages) (Charts.flat timestamps))).sum =
      ((logs.filter fun l => c.2.all fun text => st.selects text l).filter fun l =>
        floorTo (formatMillis step) (st.time l) ∈ timestamps).length := by
  set start := fun l => floorTo (formatMillis step) (st.time l) with hstart
  set counted := logs.filter fun l => c.2.all fun text => st.selects text l with hcounted
  have hbuckets : st.buckets step logs = (logs.map start).dedup.map fun t => (t, logs.filter fun l => start l = t) := by
    rw [Store.buckets, if_pos hstep]
  have hkeys (l : Log) (hl : l ∈ counted) : start l ∈ (logs.map start).dedup :=
    List.mem_dedup.mpr (List.mem_map_of_mem (List.mem_of_mem_filter hl))
  have hmessages (t : Int) : (st.categoryRow distinctField t c (logs.filter fun l => start l = t)).messages =
      (counted.filter fun l => start l = t).length := by
    rw [hcounted, List.filter_comm]
    rfl
  rw [hbuckets, List.map_map, List.foldl_map]
  simp only [Function.comp_apply, hmessages]
  have hnodup := List.nodup_dedup (logs.map start)
  exact (Charts.sum_foldl_write _ (fun t => t) _ (by simpa using hnodup)).trans
    (Charts.sum_fibers_filter hnodup start counted hkeys fun t => decide (t ∈ timestamps))

/-- The points of every line add up to the events of its kind. -/
def ActivitySeries.AddsUp (go : Filter.GoLib) (st : Store Log) (kinds : List ChartKind) (sel : VictoriaLogs.Selection)
    (answer : Except StorageError (List Log)) (series : ActivitySeries) : Prop :=
  List.Forall₂ (fun k line => ∀ events, kindEvents go st sel answer k = .ok events → line.points.sum = events.length)
    kinds series.lines

/-- What the line of a kind adds up to: its events, or nothing if the step is a week. -/
theorem sum_points (hstep : step ∈ stepLadder) (hnames : (kinds.map (·.category.name)).Nodup)
    (hname : ∀ k ∈ kinds, k.category.name = k.name)
    (h : VictoriaLogs.categoryCounts go st
      { sel with categories := kinds.map (·.category), distinctField, step } answer = .ok rows) (hk : k ∈ kinds)
    (hevents : kindEvents go st sel answer k = .ok events) (label : Bytes) (total : Nat) :
    (rows.foldl (ChartLine.plot (chartGrid step sel.range))
      ⟨k.name, label, Charts.flat (chartGrid step sel.range), total⟩).points.sum =
        if step = week then 0 else events.length := by
  have hne : kinds.map (·.category) ≠ [] := by
    rw [Ne, List.map_eq_nil_iff]
    exact List.ne_nil_of_mem hk
  obtain ⟨filter, conditions, logs, hsel, hconditions, rfl, rfl⟩ := VictoriaLogs.categoryCounts_eq_ok h hne
  obtain ⟨filter', hfilter', h₁⟩ := bind_eq_ok.mp hevents
  obtain ⟨condition, hcondition, h₂⟩ := bind_eq_ok.mp h₁
  obtain rfl := pure_eq_ok.mp h₂
  obtain rfl : filter = filter' := by
    cases hsel.symm.trans ((VictoriaLogs.noPipes_eq_ok go).mp hfilter')
    rfl
  obtain ⟨condition', hmem, hcondition'⟩ :=
    Lists.forall₂_exists_zip (mapM_eq_ok.mp hconditions) (List.mem_map_of_mem hk)
  obtain rfl : condition = condition' := Except.ok.inj (hcondition.symm.trans hcondition')
  have hzip : (((kinds.map (·.category)).zip conditions).map (·.1.name)).Nodup := by
    have hlength := (mapM_eq_ok.mp hconditions).length_eq
    have hfst := congrArg (List.map (·.name)) (List.map_fst_zip hlength.le)
    simp only [List.map_map, Function.comp_def] at hfst
    rw [hfst]
    exact hnames
  rw [points_foldl_plot, ← hname k hk, filter_category hzip hmem, sum_categoryRows (stepLadder_pos hstep),
    formatMillis_stepLadder hstep]
  have hgrid (l : Log) (hl : l ∈ (st.matching filter sel.range logs).filter fun l =>
      condition.all fun text => st.selects text l) :
      decide (floorTo step (st.time l) ∈ chartGrid step sel.range) = decide (step ≠ week) := by
    have hl := List.mem_of_mem_filter hl
    simp only [Store.matching, List.mem_filter, Bool.and_eq_true, decide_eq_true_eq] at hl
    rw [decide_eq_decide]
    exact bucket_mem_chartGrid hstep hl.2.1.1 hl.2.1.2
  rw [List.filter_congr hgrid]
  by_cases hweek : step = week
  · simp [hweek]
  · simp [hweek]

/-- The activity charts lose every event if the step is a week, and none otherwise. -/
theorem activity_addsUp_iff (hstep : step ∈ stepLadder) (hnames : (kinds.map (·.category.name)).Nodup)
    (hname : ∀ k ∈ kinds, k.category.name = k.name)
    (h : activity go st kinds distinctField sel step answer = .ok series) :
    series.AddsUp go st kinds sel answer ↔
      (step = week → ∀ k ∈ kinds, ∀ events, kindEvents go st sel answer k = .ok events → events = []) := by
  obtain ⟨rows, hrows, h₁⟩ := bind_eq_ok.mp h
  obtain rfl := pure_eq_ok.mp h₁
  rw [ActivitySeries.AddsUp, List.forall₂_map_right_iff, List.forall₂_same]
  constructor
  · intro hall hweek k hk events hevents
    have hsum := sum_points hstep hnames hname hrows hk hevents k.label 0
    rw [hall k hk events hevents, if_pos hweek] at hsum
    exact List.length_eq_zero_iff.mp hsum
  · intro hall k hk events hevents
    rw [sum_points hstep hnames hname hrows hk hevents]
    split
    next hweek => rw [hall hweek k hk events hevents, List.length_nil]
    next => rfl

theorem ActivityChart.nodup_names (chart : ActivityChart) : (chart.kinds.map (·.category.name)).Nodup := by
  cases chart with
  | directory => decide
  | mssql => decide
  | iis slowMillis =>
    have hnames : [utf8 "2xx", utf8 "3xx", utf8 "4xx", utf8 "5xx", utf8 "slow"].Nodup := by decide
    exact hnames

theorem ActivityChart.category_name (chart : ActivityChart) : ∀ k ∈ chart.kinds, k.category.name = k.name := by
  cases chart <;> simp [ActivityChart.kinds, directoryKinds, mssqlKinds, iisKinds, eventKind, classKind]

theorem ActivityChart.activity_eq (go : Filter.GoLib) (st : Store Log) (chart : ActivityChart) :
    ∃ distinctField, ∀ sel, chart.activity go st sel =
      Query.activity go st chart.kinds distinctField (chart.selection sel) := by
  cases chart with
  | directory => exact ⟨_, fun _ => rfl⟩
  | mssql => exact ⟨_, fun _ => rfl⟩
  | iis slowMillis => exact ⟨_, fun _ => rfl⟩

/-! ## All charts -/

/-- When charts add up to the events in their range. A series that counts does so unless
its step is a week and some event lies in a week of the store that begins before the first
week of the chart. An activity chart does so unless its step is a week and one of its
lines has an event. -/
theorem charts_addUp_iff (go : Filter.GoLib) (gt : GoTime) (st : Store Log) :
    (∀ svc p env req resp events, req.metric.storage = .count → Service.series go gt st svc p env req = .ok resp →
      Service.seriesEvents go gt st svc p env req = .ok events →
      (resp.AddsUp (groupOf st req.groupBy) events ↔ (resp.stepSeconds = 604800 →
        ∀ l ∈ events, truncate resp.resolvedRange.start week ≤ floorTo week (st.time l)))) ∧
    ∀ (chart : ActivityChart) sel buckets answer series,
      chart.activity go st sel (chooseStep sel.range buckets) answer = .ok series →
      (series.AddsUp go st chart.kinds (chart.selection sel) answer ↔ (chooseStep sel.range buckets = week →
        ∀ k ∈ chart.kinds, ∀ events, kindEvents go st (chart.selection sel) answer k = .ok events → events = [])) := by
  constructor
  · intro svc p env req resp events hmetric h hevents
    exact series_addsUp_iff hmetric h hevents
  · intro chart sel buckets answer series h
    obtain ⟨distinctField, hactivity⟩ := chart.activity_eq go st
    rw [hactivity] at h
    exact activity_addsUp_iff (chooseStep_mem _ _) chart.nodup_names chart.category_name h

/-- A store of events without fields, all of which every filter selects. -/
def instantStore : Store Int where
  time := id
  row _ := []
  selects _ _ := true

/-- Monday 1 January 2024. -/
def aMonday : Int := 1704067200 * second

/-- The first 120 days of 2024. -/
def spring : VictoriaLogs.Selection :=
  { tenant := [], range := ⟨aMonday, aMonday + 120 * day⟩, filter := .null, native := none }

/-- What 120 buckets show of an event in spring: they are weeks, and no line has a point. -/
def springSeries : ActivitySeries where
  stepSeconds := 604800
  timestamps := chartGrid week spring.range
  lines := directoryKinds.map fun k => ⟨k.name, k.label, Charts.flat (chartGrid week spring.range), 0⟩

theorem directoryActivity_spring_lost :
    directoryActivity VictoriaLogs.plainLib instantStore spring (chooseStep spring.range 120)
          (.ok [aMonday + 30 * day]) =
        .ok springSeries ∧
      ¬springSeries.AddsUp VictoriaLogs.plainLib instantStore directoryKinds spring (.ok [aMonday + 30 * day]) := by
  refine ⟨by decide +kernel, ?_⟩
  intro hadds
  cases hadds with
  | cons hline _ => exact absurd (hline [aMonday + 30 * day] rfl) (by decide)

/-- A clock that reads every time as the Monday or as the end of spring. -/
def springTime : GoTime where
  Location := Unit
  utc := ()
  loadLocation _ := none
  parse s := if s = utf8 "monday" then some aMonday else some (aMonday + 120 * day)
  startOfHour _ t := t
  startOfDay _ t := t
  startOfWeek _ t := t
  atoi _ := none
  quote s := s

def springRequest : SeriesRequest := { timeRange := ⟨utf8 "monday", utf8 "may", []⟩ }

def springEnv : Env Int := { now := 0, answer := fun _ => .ok [aMonday + 30 * day] }

def springService : Service := newService ⟨[], 0⟩

def springViewer : Auth.Principal :=
  { kind := .user, userID := none, username := "", tenant := "default", role := none, permissions := [] }

def springPoints : SeriesResponse :=
  { emptySeries spring.range week springRequest with
    timestamps := chartGrid week spring.range
    groups := [⟨[], 1, Charts.add (chartGrid week spring.range) (Charts.flat (chartGrid week spring.range))
      (aMonday + 21 * day) 1⟩] }

theorem charts_addUp_iff_spring :
    (springPoints.AddsUp (groupOf instantStore []) [aMonday + 30 * day] ↔ (springPoints.stepSeconds = 604800 →
      ∀ l ∈ [aMonday + 30 * day],
        truncate springPoints.resolvedRange.start week ≤ floorTo week (instantStore.time l))) ∧
    (springSeries.AddsUp VictoriaLogs.plainLib instantStore directoryKinds spring (.ok [aMonday + 30 * day]) ↔
      (chooseStep spring.range 120 = week → ∀ k ∈ directoryKinds, ∀ events,
        kindEvents VictoriaLogs.plainLib instantStore spring (.ok [aMonday + 30 * day]) k = .ok events →
          events = [])) :=
  have hseries : Service.series VictoriaLogs.plainLib springTime instantStore springService springViewer springEnv
      springRequest = .ok springPoints := by decide +kernel
  have hevents : Service.seriesEvents VictoriaLogs.plainLib springTime instantStore springService springViewer springEnv
      springRequest = .ok [aMonday + 30 * day] := by decide +kernel
  have hactivity : ActivityChart.directory.activity VictoriaLogs.plainLib instantStore spring
      (chooseStep spring.range 120) (.ok [aMonday + 30 * day]) = .ok springSeries := by decide +kernel
  have hcharts := charts_addUp_iff VictoriaLogs.plainLib springTime instantStore
  ⟨hcharts.1 _ _ _ _ _ _ rfl hseries hevents, hcharts.2 .directory spring 120 _ _ hactivity⟩

end Syslogc.Query
