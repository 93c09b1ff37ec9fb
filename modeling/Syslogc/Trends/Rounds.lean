-- SUMMARY: How many rounds of queries a pass makes.
import Syslogc.Trends.Horizon

/-!
# The rounds of a pass

Each turn of the loop of `record` is a round: the categories are counted over a range, in one
query or in several, and what was counted is written. A round ends the pass, or the loop goes
on with a later range or with a smaller size. `Trace` lists the rounds of a pass.
-/

namespace Syslogc.Trends

open Instants Syslogc.VictoriaLogs

/-! ## Rounds -/

/-- Where the loop of `record` stands. -/
structure Cursor (Log : Type) where
  start : Int
  buckets : BucketCount
  chunk : Nat
  shrinks : Nat
  recorded : Recorded
  progress : Progress Log

inductive Round (Log : Type) where
  /-- A query failed and the context of the run has ended. -/
  | cancelled (result : Recorded × Progress Log)
  /-- A query failed, and nothing smaller is left to ask for. -/
  | failed (result : Recorded × Progress Log)
  /-- A write failed. -/
  | unwritten (result : Recorded × Progress Log)
  /-- A query failed; less is asked for next. -/
  | smaller (next : Cursor Log)
  /-- The range was counted and written. -/
  | advanced (next : Cursor Log)

def Round.result : Round Log → Option (Recorded × Progress Log)
  | .cancelled result | .failed result | .unwritten result => some result
  | .smaller _ | .advanced _ => none

def Round.next : Round Log → Option (Cursor Log)
  | .cancelled _ | .failed _ | .unwritten _ => none
  | .smaller next | .advanced next => some next

variable {Log : Type} (go : Filter.GoLib) (st : Store Log) (r : Recorder) (out : Outside Log)
  (categories : List Category) (scope : Scope) (step : Step) (finish : Int)

/-- One turn of the loop of `record`. -/
def Recorder.round (s : Cursor Log) : Round Log :=
  let range := ⟨s.start, queryStop step s.buckets s.start finish⟩
  match out.countInChunks go st (r.selection range) r.opts.clientField step (groups s.chunk categories) s.progress with
  | (.error e, p) =>
    match out.done p.queries with
    | some cause => .cancelled ({ s.recorded with error := some (.cancelled step.window s.start cause) }, p)
    | none =>
      if (1 < s.buckets.val ∨ 1 < s.chunk) ∧ s.shrinks < maxShrinkAttempts then
        let smaller := p.sizes.shrink step s.buckets s.chunk
        .smaller {
          start := s.start, buckets := smaller.1, chunk := smaller.2.1, shrinks := s.shrinks + 1
          recorded := s.recorded, progress := { p with sizes := smaller.2.2 } }
      else .failed ({ s.recorded with error := some (.counting step.window s.start e) }, p)
  | (.ok rows, p) =>
    match out.putAll (Lists.pieces maxSamplesPerWrite (r.samples scope step range rows)) s.recorded.written p with
    | (some e, written, p) => .unwritten ({ s.recorded with written, error := some (.writing step.window e) }, p)
    | (none, written, p) =>
      let recorded := { s.recorded with written, upto := some range.stop }
      .advanced { s with start := range.stop, recorded, progress := p }

/-- The rounds the loop makes from a cursor on, and what it returns. -/
inductive Trace : Cursor Log → List (Cursor Log) → Recorded × Progress Log → Prop
  | finished {s : Cursor Log} (h : ¬s.start < finish) : Trace s [] (s.recorded, s.progress)
  | returned {s : Cursor Log} {result : Recorded × Progress Log} (h : s.start < finish)
      (hround : (r.round go st out categories scope step finish s).result = some result) : Trace s [s] result
  | goesOn {s next : Cursor Log} {trace : List (Cursor Log)} {result : Recorded × Progress Log} (h : s.start < finish)
      (hround : (r.round go st out categories scope step finish s).next = some next) (hrest : Trace next trace result) :
      Trace s (s :: trace) result

/-- The cursor with which `record` enters the loop. -/
def firstCursor (first : Int) (p : Progress Log) : Cursor Log where
  start := first
  buckets := p.sizes.bucketsPerQuery step
  chunk := p.sizes.categoriesPerQuery step categories.length
  shrinks := 0
  recorded := {}
  progress := p

/-- How many windows there are from an instant on. -/
def windowsFrom (start : Int) : Nat := ((finish - start) / step.ns).toNat

/-- How many windows `record` has to record. -/
def Recorder.windowsToRecord (mark : Option Int) (now : Int) : Nat :=
  ((r.firstWindow step mark now).map (windowsFrom step (truncate now step.ns))).getD 0

/-- The rounds of a call of `record`. Without a mark and without a backfill there are none. -/
def Recorder.Rounds (mark : Option Int) (now : Int) (p : Progress Log) (trace : List (Cursor Log))
    (result : Recorded × Progress Log) : Prop :=
  match r.firstWindow step mark now with
  | none => trace = [] ∧ result = ({ upto := some (truncate now step.ns - step.ns) }, p)
  | some first =>
    Trace go st r out categories scope step (truncate now step.ns) (firstCursor categories step first p) trace result

/-- The sizes a round asks with. Without categories there is nothing to ask. -/
def Cursor.Sized (s : Cursor Log) : Prop := 1 ≤ s.buckets.val ∧ (categories = [] ∨ 1 ≤ s.chunk)

/-- A round gets on: it advances by at least a window, or shrinks a size and grows none, or
returns. Only a round that shrinks changes what was learned. -/
def Cursor.GetsOn (s : Cursor Log) : Round Log → Prop
  | .cancelled result | .failed result | .unwritten result => result.2.sizes = s.progress.sizes
  | .smaller next => next.start = s.start ∧ next.buckets.val ≤ s.buckets.val ∧ next.chunk ≤ s.chunk ∧
      (next.buckets.val < s.buckets.val ∨ next.chunk < s.chunk)
  | .advanced next => s.start + step.ns ≤ next.start ∧ next.buckets = s.buckets ∧ next.chunk = s.chunk ∧
      next.progress.sizes = s.progress.sizes

/-! ## One round -/

variable {go st r out categories scope step finish} {s : Cursor Log} {p p' : Progress Log}

/-- Asking for less makes one of the sizes smaller and none larger. -/
theorem shrink_spec (sizes : Sizes) (step : Step) {buckets : BucketCount} {chunk : Nat}
    (h : 1 < buckets.val ∨ 1 < chunk) :
    (sizes.shrink step buckets chunk).1.val ≤ buckets.val ∧ (sizes.shrink step buckets chunk).2.1 ≤ chunk ∧
      ((sizes.shrink step buckets chunk).1.val < buckets.val ∨ (sizes.shrink step buckets chunk).2.1 < chunk) ∧
      (1 ≤ chunk → 1 ≤ (sizes.shrink step buckets chunk).2.1) := by
  unfold Sizes.shrink
  by_cases hb : 1 < buckets.val
  · have hhalf : (buckets.halve hb).val = buckets.val / 2 := rfl
    by_cases hc : 1 < chunk
    · simp only [dif_pos hb, if_pos hc, hhalf]
      omega
    · simp only [dif_pos hb, if_neg hc, hhalf]
      omega
  · have hc : 1 < chunk := h.resolve_left hb
    simp only [dif_neg hb, if_pos hc]
    omega

/-- A query covers at least a window, if the range that is left does. -/
theorem add_le_queryStop {buckets : BucketCount} {start : Int} (hlt : start < finish)
    (hdvd : step.ns ∣ finish - start) :
    start + step.ns ≤ queryStop step buckets start finish := by
  have hone := Int.le_of_dvd (by omega) hdvd
  have hmany : step.ns * 1 ≤ step.ns * buckets.val :=
    mul_le_mul_of_nonneg_left (by exact_mod_cast buckets.pos) step.pos.le
  unfold queryStop
  omega

theorem round_getsOn (hlt : s.start < finish) (hdvd : step.ns ∣ finish - s.start) :
    s.GetsOn step (r.round go st out categories scope step finish s) := by
  unfold Recorder.round
  dsimp only
  split
  next e p hcount =>
    have hsizes := (countInChunks_adds hcount).2
    split
    · exact hsizes
    · split
      next hshrink =>
        obtain ⟨hbuckets, hchunk, hless, -⟩ := shrink_spec p.sizes step hshrink.1
        exact ⟨rfl, hbuckets, hchunk, hless⟩
      · exact hsizes
  next rows p hcount =>
    have hsizes := (countInChunks_adds hcount).2
    split
    next hput => exact (putAll_adds hput).2.trans hsizes
    next hput => exact ⟨add_le_queryStop hlt hdvd, rfl, rfl, (putAll_adds hput).2.trans hsizes⟩

/-! ## A pass -/

theorem windowsFrom_pos {start : Int} (hlt : start < finish) (hdvd : step.ns ∣ finish - start) :
    0 < windowsFrom step finish start := by
  have hone := Int.ediv_pos_of_pos_of_dvd (sub_pos.mpr hlt) step.pos.le hdvd
  unfold windowsFrom
  omega

theorem windowsFrom_lt {start later : Int} (hle : start + step.ns ≤ later) (hlater : later ≤ finish) :
    windowsFrom step finish later < windowsFrom step finish start := by
  have hstep := step.pos
  have hless : (finish - later) / step.ns + 1 ≤ (finish - start) / step.ns := by
    rw [← Int.add_mul_ediv_right _ _ hstep.ne', one_mul]
    exact Int.ediv_le_ediv hstep (by omega)
  have hnonneg : 0 ≤ (finish - later) / step.ns := Int.ediv_nonneg (by omega) hstep.le
  unfold windowsFrom
  omega

/-- What is true of every round of a trace. -/
def RoundsSound (go : Filter.GoLib) (st : Store Log) (r : Recorder) (out : Outside Log) (categories : List Category)
    (scope : Scope) (step : Step) (finish : Int) (trace : List (Cursor Log)) : Prop :=
  ∀ s ∈ trace, s.Sized categories ∧ s.GetsOn step (r.round go st out categories scope step finish s)

theorem recordLoop_trace {start : Int} {buckets : BucketCount} {chunk shrinks : Nat} {acc : Recorded}
    (hdvd : step.ns ∣ finish - start) (hchunk : categories = [] ∨ 1 ≤ chunk) :
    ∃ trace, Trace go st r out categories scope step finish ⟨start, buckets, chunk, shrinks, acc, p⟩ trace
        (r.recordLoop go st out categories scope step finish start buckets chunk shrinks acc p) ∧
      trace.length ≤ windowsFrom step finish start + (maxShrinkAttempts - shrinks) ∧
      RoundsSound go st r out categories scope step finish trace := by
  -- The loop ends with the round that begins here.
  have hlast {s : Cursor Log} {result : Recorded × Progress Log} (hlt : s.start < finish)
      (hdvd : step.ns ∣ finish - s.start) (hchunk : categories = [] ∨ 1 ≤ s.chunk)
      (hround : (r.round go st out categories scope step finish s).result = some result) :
      ∃ trace, Trace go st r out categories scope step finish s trace result ∧
        trace.length ≤ windowsFrom step finish s.start + (maxShrinkAttempts - s.shrinks) ∧
        RoundsSound go st r out categories scope step finish trace := by
    have hpos := windowsFrom_pos hlt hdvd
    refine ⟨[s], .returned hlt hround, by simp only [List.length_singleton]; omega, ?_⟩
    rintro _ (_ | ⟨_, ⟨⟩⟩)
    exact ⟨⟨s.buckets.pos, hchunk⟩, round_getsOn hlt hdvd⟩
  -- The loop goes on after the round that begins here.
  have hnext {s next : Cursor Log} {result : Recorded × Progress Log} (hlt : s.start < finish)
      (hdvd : step.ns ∣ finish - s.start) (hchunk : categories = [] ∨ 1 ≤ s.chunk)
      (hround : (r.round go st out categories scope step finish s).next = some next)
      (hless : windowsFrom step finish next.start + (maxShrinkAttempts - next.shrinks) <
        windowsFrom step finish s.start + (maxShrinkAttempts - s.shrinks))
      (hrest : ∃ trace, Trace go st r out categories scope step finish next trace result ∧
        trace.length ≤ windowsFrom step finish next.start + (maxShrinkAttempts - next.shrinks) ∧
        RoundsSound go st r out categories scope step finish trace) :
      ∃ trace, Trace go st r out categories scope step finish s trace result ∧
        trace.length ≤ windowsFrom step finish s.start + (maxShrinkAttempts - s.shrinks) ∧
        RoundsSound go st r out categories scope step finish trace := by
    obtain ⟨trace, htrace, hlength, hsound⟩ := hrest
    refine ⟨s :: trace, .goesOn hlt hround htrace, by simp only [List.length_cons]; omega, ?_⟩
    rintro _ (_ | ⟨_, hmem⟩)
    · exact ⟨⟨s.buckets.pos, hchunk⟩, round_getsOn hlt hdvd⟩
    · exact hsound _ hmem
  fun_induction Recorder.recordLoop with
  | case1 start buckets chunk shrinks acc p hlt range e p' hcount cause hdone =>
    simp only [range] at hcount
    exact hlast hlt hdvd hchunk (by simp only [Recorder.round, hcount, hdone]; rfl)
  | case2 start buckets chunk shrinks acc p hlt range e p' hcount hdone hshrink smaller ih =>
    simp only [range] at hcount
    obtain ⟨-, -, -, hone⟩ := shrink_spec p'.sizes step hshrink.1
    refine hnext hlt hdvd hchunk (by simp only [Recorder.round, hcount, hdone, if_pos hshrink]; rfl) ?_
      (ih hdvd (hchunk.imp_right hone))
    have hattempts := hshrink.2
    simp only
    omega
  | case3 start buckets chunk shrinks acc p hlt range e p' hcount hdone hshrink =>
    simp only [range] at hcount
    exact hlast hlt hdvd hchunk (by simp only [Recorder.round, hcount, hdone, if_neg hshrink]; rfl)
  | case4 start buckets chunk shrinks acc p hlt range rows p₁ hcount e written p₂ hput =>
    simp only [range] at hcount hput
    exact hlast hlt hdvd hchunk (by simp only [Recorder.round, hcount, hput]; rfl)
  | case5 start buckets chunk shrinks acc p hlt range rows p₁ hcount written p₂ hput ih =>
    simp only [range] at hcount hput
    refine hnext hlt hdvd hchunk (by simp only [Recorder.round, hcount, hput]; rfl) ?_
      (ih (dvd_sub_queryStop hdvd) hchunk)
    exact Nat.add_lt_add_right (windowsFrom_lt (add_le_queryStop hlt hdvd) (min_le_right _ _)) _
  | case6 start buckets chunk shrinks acc p hge =>
    exact ⟨[], .finished hge, Nat.zero_le _, by rintro _ ⟨⟩⟩

theorem one_le_categoriesPerQuery (sizes : Sizes) (step : Step) {total : Nat} (h : 1 ≤ total) :
    1 ≤ sizes.categoriesPerQuery step total := by
  unfold Sizes.categoriesPerQuery
  split
  · split <;> omega
  · exact h

/-- A call of `record` makes at most as many rounds as it has windows to record and
attempts to shrink. Each round gets on, with sizes of at least one, and what was learned
changes only where a size shrinks: not where the context of the run has ended. -/
theorem record_rounds (go : Filter.GoLib) (st : Store Log) (r : Recorder) (out : Outside Log)
    (categories : List Category) (scope : Scope) (step : Step) (mark : Option Int) (now : Int) (p : Progress Log) :
    ∃ trace, r.Rounds go st out categories scope step mark now p trace
        (r.record go st out categories scope step mark now p) ∧
      trace.length ≤ r.windowsToRecord step mark now + maxShrinkAttempts ∧
      RoundsSound go st r out categories scope step (truncate now step.ns) trace := by
  unfold Recorder.Rounds Recorder.record Recorder.windowsToRecord
  cases hfirst : r.firstWindow step mark now with
  | none => exact ⟨[], ⟨rfl, rfl⟩, Nat.zero_le _, by rintro _ ⟨⟩⟩
  | some first =>
    have hdvd : step.ns ∣ truncate now step.ns - first := by
      have := dvd_sub (dvd_truncate_add step.pos (t := now)) (dvd_firstWindow_add hfirst)
      rwa [add_sub_add_right_eq_sub] at this
    dsimp only
    split
    · exact ⟨[], .finished ‹_›, Nat.zero_le _, by rintro _ ⟨⟩⟩
    · refine recordLoop_trace hdvd ?_
      by_cases hne : categories = []
      · exact .inl hne
      · exact .inr (one_le_categoriesPerQuery _ _ (List.length_pos_of_ne_nil hne))

end Syslogc.Trends
