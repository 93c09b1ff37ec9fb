-- SUMMARY: How far back the windows of a pass reach.
import Syslogc.Trends.Coverage

/-!
# The age of the windows

A pass over the windows of a resolution begins at its first window and ends at the last
one that has elapsed. The first window is rounded down to the grid of the resolution, also
where it is given by the age to which logs are kept, so that it may begin before that age,
by less than one window.
-/

namespace Syslogc.Trends

open Instants Syslogc.VictoriaLogs

variable {Log : Type} {go : Filter.GoLib} {st : Store Log} {out : Outside Log} {r : Recorder} {step : Step}
  {scope : Scope} {p p' : Progress Log} {events events' : List (Event Log)}

variable {sel : Selection} {distinctField : Bytes} {parts : List (List Category)}

/-! ## One pass -/

/-- What a pass over the windows from `first` to `finish` does. -/
inductive OfPass (categories : List Category) (step : Step) (first finish : Int) : Event Log → Prop where
  | counted {q : CategoryQuery} {logs : List Log} (hne : categories ≠ []) (hstart : first ≤ q.range.start)
      (hstop : q.range.stop ≤ finish) : OfPass categories step first finish (.counted q logs)
  | stored {samples : List Sample} (hne : samples ≠ [] → categories ≠ [])
      (h : ∀ s ∈ samples, first ≤ s.time ∧ s.time < finish ∧ (step.Aligned → s.time + step.ns ≤ finish)) :
      OfPass categories step first finish (.stored samples)

variable {categories : List Category} {range : TimeRange} {rows : List CategoryRow} {first start finish : Int}
  {chunk : Nat}

theorem groups_nil (chunk : Nat) : groups chunk [] = [] := by
  simp [groups, Lists.pieces]

theorem ne_nil_of_mem_groups {part : List Category} (h : part ∈ groups chunk categories) : categories ≠ [] := by
  rintro rfl
  rw [groups_nil] at h
  cases h

theorem CountedIn.ofPass (hstart : first ≤ range.start) (hstop : range.stop ≤ finish) {e : Event Log}
    (h : CountedIn (r.selection range) (groups chunk categories) e) : OfPass categories step first finish e := by
  obtain ⟨q, logs, rfl, hq, hpart⟩ := h
  have hrange : q.range = range := congrArg Selection.range hq
  exact .counted (ne_nil_of_mem_groups hpart) (hrange ▸ hstart) (hrange ▸ hstop)

/-- One query and its writes. -/
theorem range_adds {written written' : Nat} {error : Option Bytes} {p₁ p₂ : Progress Log}
    (hstart : first ≤ range.start) (hfinish : range.stop ≤ finish) (hstop : step.Aligned → step.ns ∣ range.stop)
    (hcount : out.countInChunks go st (r.selection range) r.opts.clientField step (groups chunk categories) p =
      (.ok rows, p₁))
    (hput : out.putAll (Lists.pieces maxSamplesPerWrite (r.samples scope step range rows)) written p₁ =
      (error, written', p₂)) :
    Adds (OfPass categories step first finish) p.events p₂.events := by
  have hcounted : Adds (OfPass categories step first finish) p.events p₁.events :=
    (countInChunks_adds hcount).1.mono fun _ => CountedIn.ofPass hstart hfinish
  refine hcounted.trans ((putAll_adds hput).1.mono ?_)
  obtain ⟨answers, hanswers, rfl⟩ := countInChunks_ok (fun _ => Lists.ne_nil_of_mem_pieces) hcount
  have hsample : ∀ s ∈ r.samples scope step range answers.flatten, categories ≠ [] ∧
      first ≤ s.time ∧ s.time < finish ∧ (step.Aligned → s.time + step.ns ≤ finish) := by
    intro s hs
    obtain ⟨row, hrow, hge, hlt, hs⟩ := mem_samples hs
    obtain ⟨rows, hrows, hrow⟩ := List.mem_flatten.mp hrow
    obtain ⟨part, hpart, logs, -, hanswer⟩ := Lists.forall₂_exists_left hanswers hrows
    rw [rowSamples_time hs]
    refine ⟨ne_nil_of_mem_groups hpart, by omega, by omega, fun hstep => ?_⟩
    have hcovers := (countsWindow_of_mem hstep rfl (hstop hstep) hanswer hrow hge hlt).1
    exact hcovers.2.2.trans hfinish
  rintro _ ⟨samples, rfl, hsamples⟩
  rw [Lists.flatten_pieces] at hsamples
  refine .stored (fun hne => ?_) fun s hs => (hsample s (hsamples hs)).2
  obtain ⟨s, hs⟩ := List.exists_mem_of_ne_nil _ hne
  exact (hsample s (hsamples hs)).1

theorem recordLoop_adds {buckets : BucketCount} {shrinks : Nat} {acc : Recorded} (hfirst : first ≤ start)
    (hfinish : step.Aligned → step.ns ∣ finish) (hstart : step.Aligned → step.ns ∣ start) :
    Adds (OfPass categories step first finish) p.events
      (r.recordLoop go st out categories scope step finish start buckets chunk shrinks acc p).2.events := by
  have hstop : ∀ start buckets, queryStop step buckets start finish ≤ finish := fun _ _ => min_le_right _ _
  fun_induction Recorder.recordLoop with
  | case1 start buckets chunk shrinks acc p hlt range e p' hcount cause hdone =>
    exact (countInChunks_adds hcount).1.mono fun _ => CountedIn.ofPass hfirst (hstop start buckets)
  | case2 start buckets chunk shrinks acc p hlt range e p' hcount hdone hshrink smaller ih =>
    have hadds : Adds (OfPass categories step first finish) p.events p'.events :=
      (countInChunks_adds hcount).1.mono fun _ => CountedIn.ofPass hfirst (hstop start buckets)
    exact hadds.trans (ih hfirst hstart)
  | case3 start buckets chunk shrinks acc p hlt range e p' hcount hdone hshrink =>
    exact (countInChunks_adds hcount).1.mono fun _ => CountedIn.ofPass hfirst (hstop start buckets)
  | case4 start buckets chunk shrinks acc p hlt range rows p₁ hcount e written p₂ hput =>
    exact range_adds hfirst (hstop start buckets) (fun h => dvd_queryStop (hstart h) (hfinish h)) hcount hput
  | case5 start buckets chunk shrinks acc p hlt range rows p₁ hcount written p₂ hput ih =>
    have hgrid : step.Aligned → step.ns ∣ range.stop := fun h => dvd_queryStop (hstart h) (hfinish h)
    have hnext : start < range.stop := lt_queryStop hlt
    exact (range_adds hfirst (hstop start buckets) hgrid hcount hput).trans (ih (by omega) hgrid)
  | case6 start buckets chunk shrinks acc p hge => exact .refl _ _

/-- A query that counts from `start` on was answered. -/
def CountsFrom (start : Int) (events : List (Event Log)) : Prop :=
  ∃ q logs, q.range.start = start ∧ .counted q logs ∈ events

theorem CountsFrom.mono (hsub : events ⊆ events') (h : CountsFrom start events) : CountsFrom start events' := by
  obtain ⟨q, logs, hstart, hq⟩ := h
  exact ⟨q, logs, hstart, hsub hq⟩

theorem countInChunks_from {result : Except StorageError (List CategoryRow)} {e : Event Log}
    (h : out.countInChunks go st (r.selection range) distinctField step parts p = (result, p')) (he : e ∈ p'.events) :
    e ∈ p.events ∨ CountsFrom range.start p'.events := by
  refine ((countInChunks_adds h).1.added _ he).imp_right ?_
  rintro ⟨q, logs, rfl, hsel, -⟩
  exact ⟨q, logs, congrArg (fun sel => sel.range.start) hsel, he⟩

theorem countInChunks_answered {p₁ : Progress Log} (hne : categories ≠ [])
    (h : out.countInChunks go st (r.selection range) distinctField step (groups chunk categories) p = (.ok rows, p₁)) :
    CountsFrom range.start p₁.events := by
  obtain ⟨answers, hanswers, -⟩ := countInChunks_ok (fun _ => Lists.ne_nil_of_mem_pieces) h
  obtain ⟨c, hc⟩ := List.exists_mem_of_ne_nil _ hne
  obtain ⟨part, hpart, -⟩ := List.mem_flatten.mp ((Lists.flatten_pieces _ categories).symm ▸ hc)
  obtain ⟨rows, -, logs, hcounted, -⟩ := Lists.forall₂_exists_right hanswers hpart
  exact ⟨_, logs, rfl, hcounted⟩

/-- If the pass did anything, it counted its first window. -/
theorem recordLoop_first {buckets : BucketCount} {shrinks : Nat} {acc : Recorded} {e : Event Log}
    (hne : categories ≠ []) (hfinish : step.Aligned → step.ns ∣ finish) (hstart : step.Aligned → step.ns ∣ start)
    (he : e ∈ (r.recordLoop go st out categories scope step finish start buckets chunk shrinks acc p).2.events) :
    e ∈ p.events ∨
      CountsFrom start
        (r.recordLoop go st out categories scope step finish start buckets chunk shrinks acc p).2.events := by
  fun_induction Recorder.recordLoop with
  | case1 start buckets chunk shrinks acc p hlt range e' p' hcount cause hdone => exact countInChunks_from hcount he
  | case2 start buckets chunk shrinks acc p hlt range e' p' hcount hdone hshrink smaller ih =>
    rcases ih hstart he with he | hfrom
    · refine (countInChunks_from hcount he).imp_right fun hfrom => hfrom.mono ?_
      exact (recordLoop_adds (p := { p' with sizes := smaller.2.2 }) le_rfl hfinish hstart).kept
    · exact .inr hfrom
  | case3 start buckets chunk shrinks acc p hlt range e' p' hcount hdone hshrink => exact countInChunks_from hcount he
  | case4 start buckets chunk shrinks acc p hlt range rows p₁ hcount e' written p₂ hput =>
    exact .inr ((countInChunks_answered hne hcount).mono (putAll_adds hput).1.kept)
  | case5 start buckets chunk shrinks acc p hlt range rows p₁ hcount written p₂ hput ih =>
    refine .inr ((countInChunks_answered hne hcount).mono (List.Subset.trans (putAll_adds hput).1.kept ?_))
    exact (recordLoop_adds le_rfl hfinish fun h => dvd_queryStop (hstart h) (hfinish h)).kept
  | case6 start buckets chunk shrinks acc p hge => exact .inl he

/-! ## The age of a pass -/

variable {mark : Option Int} {now : Int}

/-- The windows that were counted and those that were written lie between the age to which
logs are kept and the present. A window ends a step after its sample where the windows are
the buckets of the log store. -/
structure Within (r : Recorder) (step : Step) (now : Int) (events : List (Event Log)) : Prop where
  counted : ∀ q logs, .counted q logs ∈ events → now - r.opts.maxAge ≤ q.range.start ∧ q.range.stop ≤ now
  written : ∀ s, Stored events s →
    now - r.opts.maxAge ≤ s.time ∧ s.time < now ∧ (step.Aligned → s.time + step.ns ≤ now)

theorem record_adds (h : r.firstWindow step mark now = some first) :
    Adds (OfPass categories step first (truncate now step.ns)) p.events
      (r.record go st out categories scope step mark now p).2.events := by
  unfold Recorder.record
  rw [h]
  dsimp only
  split
  · exact .refl _ _
  · exact recordLoop_adds le_rfl (fun hstep => hstep.dvd_truncate _) fun hstep => dvd_firstWindow hstep h

theorem record_first_counted {e : Event Log} (h : r.firstWindow step mark now = some first) (hne : categories ≠ [])
    (he : e ∈ (r.record go st out categories scope step mark now p).2.events) :
    e ∈ p.events ∨ CountsFrom first (r.record go st out categories scope step mark now p).2.events := by
  unfold Recorder.record at he ⊢
  rw [h] at he ⊢
  dsimp only at he ⊢
  by_cases hlt : first < truncate now step.ns
  · rw [if_neg (not_not.mpr hlt)] at he ⊢
    exact recordLoop_first hne (fun hstep => hstep.dvd_truncate _) (fun hstep => dvd_firstWindow hstep h) he
  · rw [if_pos hlt] at he
    exact .inl he

/-- From the oldest instant of which logs are kept to the start of the next window. -/
def Recorder.gap (r : Recorder) (step : Step) (now : Int) : Int := -(now - r.opts.maxAge + sinceZero) % step.ns

/-- The first window is whole within the age of the logs: it is that of a mark, or of the
backfill, behind the gap; or the history that is wanted leaves room for the gap; or there is
no gap, and the age of the logs is the limit. -/
def Recorder.InAge (r : Recorder) (step : Step) (mark : Option Int) (now : Int) : Prop :=
  now - r.opts.maxAge + r.gap step now ≤ mark.getD (now - r.opts.backfill) ∨
    (0 < r.opts.backfill ∧ max r.opts.backfill (2 * step.ns) + r.gap step now ≤ r.opts.maxAge) ∨
    (0 ≤ r.opts.backfill ∧ r.gap step now = 0)

theorem dvd_gap (r : Recorder) (step : Step) (now : Int) :
    step.ns ∣ now - r.opts.maxAge + r.gap step now + sinceZero := by
  obtain ⟨k, hk⟩ := Int.dvd_self_sub_emod (x := -(now - r.opts.maxAge + sinceZero)) (m := step.ns)
  refine ⟨-k, ?_⟩
  rw [mul_neg, ← hk, Recorder.gap]
  ring

theorem age_le_truncate_iff {t : Int} :
    now - r.opts.maxAge ≤ truncate t step.ns ↔ now - r.opts.maxAge + r.gap step now ≤ t := by
  have hnonneg := Int.emod_nonneg (-(now - r.opts.maxAge + sinceZero)) step.pos.ne'
  have hlt := Int.emod_lt_of_pos (-(now - r.opts.maxAge + sinceZero)) step.pos
  have hgrid := dvd_gap r step now
  rw [← le_truncate_iff step.pos hgrid]
  unfold Recorder.gap at hgrid ⊢
  refine ⟨fun h => ?_, fun h => by omega⟩
  have := le_of_lt_add step.pos hgrid (dvd_truncate_add step.pos (t := t)) (by omega)
  omega

theorem le_catchUp_iff {mark bound : Int} : bound ≤ r.catchUp step mark now ↔
    bound ≤ truncate mark step.ns ∨ 0 < r.catchUpHorizon step ∧
      bound ≤ truncate (now - r.catchUpHorizon step) step.ns := by
  unfold Recorder.catchUp Recorder.oldest
  by_cases hpos : 0 < r.catchUpHorizon step
  · simp only [if_pos hpos]
    split <;> omega
  · simp [hpos]

/-- What is wanted and what is kept, with the gap before the oldest window of the latter. -/
theorem horizon_iff (hage : 0 < r.opts.maxAge) {gap : Int} (hgap : 0 ≤ gap) :
    0 < r.catchUpHorizon step ∧ r.catchUpHorizon step + gap ≤ r.opts.maxAge ↔
      (0 < r.opts.backfill ∧ max r.opts.backfill (2 * step.ns) + gap ≤ r.opts.maxAge) ∨
        (0 ≤ r.opts.backfill ∧ gap = 0) := by
  have hstep := step.pos
  unfold Recorder.catchUpHorizon
  dsimp only
  split_ifs <;> omega

theorem firstWindow_inAge_iff (hage : 0 < r.opts.maxAge) (h : r.firstWindow step mark now = some first) :
    now - r.opts.maxAge ≤ first ↔ r.InAge step mark now := by
  have hgap : 0 ≤ r.gap step now := Int.emod_nonneg _ step.pos.ne'
  have hcatchUp {t : Int} : now - r.opts.maxAge ≤ r.catchUp step t now ↔
      now - r.opts.maxAge + r.gap step now ≤ t ∨
        (0 < r.opts.backfill ∧ max r.opts.backfill (2 * step.ns) + r.gap step now ≤ r.opts.maxAge) ∨
        (0 ≤ r.opts.backfill ∧ r.gap step now = 0) := by
    rw [le_catchUp_iff, age_le_truncate_iff, age_le_truncate_iff, ← horizon_iff hage hgap]
    exact or_congr_right (and_congr_right fun _ => by omega)
  cases mark with
  | some mark =>
    cases h
    exact hcatchUp
  | none =>
    unfold Recorder.firstWindow at h
    dsimp only at h
    split at h
    · cases h
    · cases h
      rw [hcatchUp, Recorder.InAge, Option.getD_none, le_truncate_iff step.pos (dvd_gap r step now)]

/-- The windows of a pass lie within the age of the logs exactly if it counted none, or if
the mark, the backfill and the age leave room for the grid of the windows. -/
theorem record_within_iff (go : Filter.GoLib) (st : Store Log) (r : Recorder) (out : Outside Log)
    (categories : List Category) (scope : Scope) (step : Step) (mark : Option Int) (sizes : Sizes)
    (queries writes : Nat) (hage : 0 < r.opts.maxAge) :
    let now := out.clock.now
    let events := (r.record go st out categories scope step mark now { sizes, queries, writes }).2.events
    Within r step now events ↔
      (∀ q logs, .counted q logs ∉ events) ∨ r.InAge step mark now := by
  intro now events
  cases hfirst : r.firstWindow step mark now with
  | none =>
    have hevents : events = [] := by
      simp only [events, record_first hfirst]
    simp only [hevents, List.not_mem_nil, not_false_eq_true, implies_true, true_or, iff_true]
    exact ⟨by rintro _ _ ⟨⟩, by rintro _ ⟨_, ⟨⟩, _⟩⟩
  | some first =>
    rw [← firstWindow_inAge_iff hage hfirst]
    have hpass : ∀ e ∈ events, OfPass categories step first (truncate now step.ns) e :=
      fun e he => ((record_adds hfirst).added e he).resolve_left (by rintro ⟨⟩)
    have hcounts : ∀ e ∈ events, categories ≠ [] → CountsFrom first events :=
      fun e he hne => (record_first_counted hfirst hne he).resolve_left (by rintro ⟨⟩)
    have hnow : truncate now step.ns ≤ now := truncate_le step.pos
    constructor
    · intro h
      by_cases hnone : ∀ q logs, .counted q logs ∉ events
      · exact .inl hnone
      · push Not at hnone
        obtain ⟨q, logs, hq⟩ := hnone
        cases hpass _ hq with
        | counted hne _ _ =>
          obtain ⟨q, logs, rfl, hq⟩ := hcounts _ hq hne
          exact .inr (h.counted q logs hq).1
    · rintro (hnone | hage)
      · refine ⟨fun q logs hq => absurd hq (hnone q logs), ?_⟩
        rintro s ⟨samples, hmem, hs⟩
        cases hpass _ hmem with
        | stored hne _ =>
          obtain ⟨q, logs, -, hq⟩ := hcounts _ hmem (hne (List.ne_nil_of_mem hs))
          exact absurd hq (hnone q logs)
      · constructor
        · intro q logs hq
          cases hpass _ hq with
          | counted _ hstart hstop => exact ⟨hage.trans hstart, hstop.trans hnow⟩
        · rintro s ⟨samples, hmem, hs⟩
          cases hpass _ hmem with
          | stored _ h =>
            obtain ⟨hge, hlt, hend⟩ := h s hs
            exact ⟨hage.trans hge, hlt.trans_le hnow, fun hstep => (hend hstep).trans hnow⟩

/-- The defaults, with a retention that is as long as the backfill. -/
def weekRecorder : Recorder where
  opts := { defaultRecorder.opts with maxAge := 7 * day }
  base_pos := defaultRecorder.base_pos

def fiveMinutes : Step := ⟨5 * minute, fiveMinutes_pos⟩

def web : Category := { name := utf8 "web" }

/-- Two minutes after the start of a window, on a node that has recorded nothing yet. -/
def firstRun : Outside Int where
  clock := ⟨1800000120 * second, by decide, by decide⟩
  catalog := .ok ⟨[]⟩
  query := fun _ => .ok []

theorem record_within_iff_firstRun :
    0 < weekRecorder.opts.maxAge ∧
      (Within weekRecorder fiveMinutes firstRun.clock.now
          (weekRecorder.record plainLib emptyStore firstRun [web] .all fiveMinutes none
            firstRun.clock.now { sizes := {}, queries := 0, writes := 0 }).2.events ↔
        (∀ q logs, .counted q logs ∉ (weekRecorder.record plainLib emptyStore firstRun [web] .all fiveMinutes none
            firstRun.clock.now { sizes := {}, queries := 0, writes := 0 }).2.events) ∨
          weekRecorder.InAge fiveMinutes none firstRun.clock.now) :=
  ⟨by decide,
    record_within_iff plainLib emptyStore weekRecorder firstRun [web] .all fiveMinutes none {} 0 0 (by decide)⟩

/-- The first window that is counted begins two minutes before the age of the logs. -/
theorem first_window_too_old :
    wireAnalytics defaultAnalytics (7 * day) true = .ok (some weekRecorder) ∧
      ¬Within weekRecorder fiveMinutes firstRun.clock.now
        (weekRecorder.record plainLib emptyStore firstRun [web] .all fiveMinutes none
          firstRun.clock.now { sizes := {} }).2.events := by
  refine ⟨rfl, fun h => ?_⟩
  have hcounted : (weekRecorder.record plainLib emptyStore firstRun [web] .all fiveMinutes none firstRun.clock.now
      { sizes := {} }).2.events.any (fun e => match e with
        | .counted q _ => q.range.start < firstRun.clock.now - weekRecorder.opts.maxAge
        | _ => false) = true := by
    decide +kernel
  obtain ⟨e, hmem, hold⟩ := List.any_eq_true.mp hcounted
  cases e with
  | counted q logs => exact absurd (of_decide_eq_true hold) (h.counted q logs hmem).1.not_gt
  | _ => cases hold

end Syslogc.Trends
