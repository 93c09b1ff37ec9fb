-- SUMMARY: Every window up to a mark was counted whole and written.
import Syslogc.Storage.Meaning
import Syslogc.Trends.Recorder

/-!
# What the marks of the recorder stand for

The steps of the resolutions divide a day, so that the windows of the recorder are the
buckets of the log store, and a range that begins and ends on the grid covers each of its
windows whole. From the answers and the writes of one query the argument goes up to the
loop over the queries, the two scopes of a resolution, and the runs.
-/

namespace Syslogc.Trends

open Instants Syslogc.VictoriaLogs

variable {Log : Type} {go : Filter.GoLib} {st : Store Log} {out : Outside Log} {r : Recorder}
  {toLower : Bytes → Bytes} {step : Step} {scope : Scope} {p p' : Progress Log}
  {events events' events'' : List (Event Log)}

/-! ## Windows that were written -/

/-- The range of the query covers the window that starts at `t`. -/
def Covers (q : CategoryQuery) (step : Step) (t : Int) : Prop :=
  q.step = step.ns ∧ q.range.start ≤ t ∧ t + step.ns ≤ q.range.stop

/-- The row is what a category counts among all logs of the window that starts with it. -/
def CountsWindow (go : Filter.GoLib) (st : Store Log) (q : CategoryQuery) (logs : List Log) (row : CategoryRow) :
    Prop :=
  ∃ filter c text, buildSelection go q.toSelection = .ok (filter, []) ∧ c ∈ q.categories ∧
    c.condition go = .ok text ∧
    row = st.categoryRow q.distinctField row.time (c, text)
      (st.matching filter ⟨row.time, row.time + q.step⟩ logs)

/-- The samples the metrics store has taken. -/
def Stored (events : List (Event Log)) (s : Sample) : Prop := ∃ samples, .stored samples ∈ events ∧ s ∈ samples

/-- The category was counted over the window that starts at `t`, by a query that covers
all of it, and what was counted is written. -/
def Written (go : Filter.GoLib) (st : Store Log) (r : Recorder) (events : List (Event Log)) (scope : Scope)
    (step : Step) (c : Category) (t : Int) : Prop :=
  ∃ q logs rows, .counted q logs ∈ events ∧ categoryCounts go st q (.ok logs) = .ok rows ∧
    c ∈ q.categories ∧ Covers q step t ∧
    ∀ row ∈ rows, row.time = t → ∀ s ∈ r.rowSamples scope step row, Stored events s

/-- The sample comes from a query that covers its window, and counts all of the window. -/
def CountedWhole (go : Filter.GoLib) (st : Store Log) (r : Recorder) (events : List (Event Log)) (s : Sample) : Prop :=
  ∃ q logs rows row scope step, .counted q logs ∈ events ∧ categoryCounts go st q (.ok logs) = .ok rows ∧
    row ∈ rows ∧ s ∈ r.rowSamples scope step row ∧ Covers q step s.time ∧ CountsWindow go st q logs row

/-- No sample was counted from a part of its window. -/
def Whole (go : Filter.GoLib) (st : Store Log) (r : Recorder) (events : List (Event Log)) : Prop :=
  ∀ s, Stored events s → CountedWhole go st r events s

theorem Stored.mono (h : events ⊆ events') {s : Sample} : Stored events s → Stored events' s :=
  fun ⟨samples, hmem, hs⟩ => ⟨samples, h hmem, hs⟩

theorem Written.mono (h : events ⊆ events') {c : Category} {t : Int} (hw : Written go st r events scope step c t) :
    Written go st r events' scope step c t := by
  obtain ⟨q, logs, rows, hcounted, hrows, hc, hcovers, hstored⟩ := hw
  exact ⟨q, logs, rows, h hcounted, hrows, hc, hcovers, fun row hrow ht s hs => (hstored row hrow ht s hs).mono h⟩

theorem CountedWhole.mono (h : events ⊆ events') {s : Sample} (hs : CountedWhole go st r events s) :
    CountedWhole go st r events' s := by
  obtain ⟨q, logs, rows, row, scope, step, hcounted, hrest⟩ := hs
  exact ⟨q, logs, rows, row, scope, step, h hcounted, hrest⟩

/-! ## What is added to the events -/

/-- The events were kept, and what was added to them has the property. -/
structure Adds (P : Event Log → Prop) (events events' : List (Event Log)) : Prop where
  kept : events ⊆ events'
  added : ∀ e ∈ events', e ∈ events ∨ P e

section Adds

variable {P Q : Event Log → Prop}

theorem Adds.refl (P : Event Log → Prop) (events : List (Event Log)) : Adds P events events :=
  ⟨List.Subset.refl _, fun _ => .inl⟩

theorem Adds.trans (h : Adds P events events') (h' : Adds P events' events'') : Adds P events events'' := by
  refine ⟨List.Subset.trans h.kept h'.kept, fun e he => ?_⟩
  rcases h'.added e he with he | he
  · exact h.added e he
  · exact .inr he

theorem Adds.mono (hPQ : ∀ e, P e → Q e) (h : Adds P events events') : Adds Q events events' :=
  ⟨h.kept, fun e he => (h.added e he).imp_right (hPQ e)⟩

theorem Adds.one {e : Event Log} (he : P e) : Adds P events (events ++ [e]) := by
  refine ⟨List.subset_append_left _ _, fun e' he' => ?_⟩
  rw [List.mem_append, List.mem_singleton] at he'
  rcases he' with he' | rfl
  · exact .inl he'
  · exact .inr he

end Adds

/-! ## One query and its writes -/

/-- The run went on, and kept every sample whole. -/
structure Grows (go : Filter.GoLib) (st : Store Log) (r : Recorder) (p p' : Progress Log) : Prop where
  events : p.events ⊆ p'.events
  whole : Whole go st r p.events → Whole go st r p'.events

theorem Grows.refl (p : Progress Log) : Grows go st r p p := ⟨List.Subset.refl _, id⟩

theorem Grows.trans {p'' : Progress Log} (h : Grows go st r p p') (h' : Grows go st r p' p'') : Grows go st r p p'' :=
  ⟨List.Subset.trans h.events h'.events, fun hw => h'.whole (h.whole hw)⟩

theorem Adds.grows {P : Event Log → Prop} (h : Adds P p.events p'.events)
    (hP : ∀ samples, P (.stored samples) → ∀ s ∈ samples, CountedWhole go st r p'.events s) : Grows go st r p p' := by
  refine ⟨h.kept, fun hw s hs => ?_⟩
  obtain ⟨samples, hmem, hs⟩ := hs
  obtain hmem | hnew := h.added _ hmem
  · exact (hw s ⟨samples, hmem, hs⟩).mono h.kept
  · exact hP samples hnew s hs

/-- The rows are the answer to a query that is among the events. -/
def Answered (go : Filter.GoLib) (st : Store Log) (p : Progress Log) (q : CategoryQuery) (rows : List CategoryRow) :
    Prop :=
  ∃ logs, .counted q logs ∈ p.events ∧ categoryCounts go st q (.ok logs) = .ok rows

theorem Answered.mono (h : p.events ⊆ p'.events) {q : CategoryQuery} {rows : List CategoryRow} :
    Answered go st p q rows → Answered go st p' q rows :=
  fun ⟨logs, hmem, hrows⟩ => ⟨logs, h hmem, hrows⟩

variable {result : Except StorageError (List CategoryRow)}

theorem ask_adds {q : CategoryQuery}
    (h : out.ask go st q p = (result, p')) :
    Adds (fun e => ∃ logs, e = .counted q logs) p.events p'.events ∧ p'.sizes = p.sizes := by
  unfold Outside.ask at h
  dsimp only at h
  split at h
  next logs _ _ =>
    cases h
    exact ⟨.one ⟨logs, rfl⟩, rfl⟩
  · cases h
    exact ⟨.refl _ _, rfl⟩

theorem ask_answered {q : CategoryQuery} {rows : List CategoryRow} (hne : q.categories ≠ [])
    (h : out.ask go st q p = (.ok rows, p')) : Answered go st p' q rows := by
  unfold Outside.ask at h
  dsimp only at h
  split at h
  next rows' logs hrows hlogs =>
    cases h
    exact ⟨logs, List.mem_append_right _ List.mem_cons_self, hlogs ▸ hrows⟩
  next hfail =>
    obtain ⟨hrows, -⟩ := Prod.mk.inj h
    obtain ⟨filter, conditions, logs, -, -, hlogs, -⟩ := categoryCounts_eq_ok hrows hne
    exact absurd hlogs (hfail rows logs hrows)

/-- The query for one group of categories. -/
def groupQuery (sel : Selection) (distinctField : Bytes) (step : Step) (part : List Category) : CategoryQuery :=
  { sel with categories := part, distinctField, step := step.ns }

variable {sel : Selection} {distinctField : Bytes} {parts : List (List Category)} {rows : List CategoryRow}

/-- The event is the answer to a query of the selection, for one of the groups. -/
def CountedIn (sel : Selection) (parts : List (List Category)) (e : Event Log) : Prop :=
  ∃ q logs, e = .counted q logs ∧ q.toSelection = sel ∧ q.categories ∈ parts

theorem countInChunks_adds
    (h : out.countInChunks go st sel distinctField step parts p = (result, p')) :
    Adds (CountedIn sel parts) p.events p'.events ∧ p'.sizes = p.sizes := by
  induction parts generalizing p p' result with
  | nil =>
    cases h
    exact ⟨.refl _ _, rfl⟩
  | cons part parts ih =>
    have hask {result} {p p' : Progress Log}
        (h : out.ask go st (groupQuery sel distinctField step part) p = (result, p')) :
        Adds (CountedIn sel (part :: parts)) p.events p'.events ∧ p'.sizes = p.sizes := by
      refine (ask_adds h).imp_left (.mono ?_)
      rintro e ⟨logs, rfl⟩
      exact ⟨_, logs, rfl, rfl, List.mem_cons_self⟩
    have hmore {result} {p p' p'' : Progress Log}
        (hfirst : Adds (CountedIn sel (part :: parts)) p.events p'.events ∧ p'.sizes = p.sizes)
        (h : out.countInChunks go st sel distinctField step parts p' = (result, p'')) :
        Adds (CountedIn sel (part :: parts)) p.events p''.events ∧ p''.sizes = p.sizes := by
      obtain ⟨hadds, hsizes⟩ := ih h
      refine ⟨hfirst.1.trans (hadds.mono ?_), hsizes.trans hfirst.2⟩
      rintro e ⟨q, logs, rfl, hq, hpart⟩
      exact ⟨q, logs, rfl, hq, List.mem_cons_of_mem _ hpart⟩
    unfold Outside.countInChunks at h
    split at h
    next hfirst =>
      cases h
      exact hask hfirst
    next hfirst =>
      split at h <;>
      · rename_i hrest
        cases h
        exact hmore (hask hfirst) hrest

theorem countInChunks_grows
    (h : out.countInChunks go st sel distinctField step parts p = (result, p')) : Grows go st r p p' :=
  (countInChunks_adds h).1.grows (by rintro _ ⟨_, _, ⟨⟩, _⟩)

/-- Every group was answered, and the rows are those of the answers. -/
theorem countInChunks_ok (hne : ∀ part ∈ parts, part ≠ [])
    (h : out.countInChunks go st sel distinctField step parts p = (.ok rows, p')) :
    ∃ answers, List.Forall₂ (fun part rows => Answered go st p' (groupQuery sel distinctField step part) rows)
      parts answers ∧ rows = answers.flatten := by
  induction parts generalizing p p' rows with
  | nil =>
    cases h
    exact ⟨[], .nil, rfl⟩
  | cons part parts ih =>
    unfold Outside.countInChunks at h
    split at h
    next => cases h
    next rows' p₁ hask =>
      split at h
      next => cases h
      next more p₂ hrest =>
        cases h
        obtain ⟨answers, hanswers, rfl⟩ := ih (fun part hp => hne part (List.mem_cons_of_mem _ hp)) hrest
        have hfirst := (ask_answered (hne part List.mem_cons_self) hask).mono (countInChunks_adds hrest).1.kept
        exact ⟨rows' :: answers, .cons hfirst hanswers, rfl⟩

/-- The event is a write of some of the samples. -/
def StoredOf (samples : List Sample) (e : Event Log) : Prop := ∃ some, e = .stored some ∧ some ⊆ samples

theorem StoredOf.mono {samples samples' : List Sample} (hsub : samples ⊆ samples') {e : Event Log}
    (h : StoredOf samples e) : StoredOf samples' e := by
  obtain ⟨some, rfl, hsome⟩ := h
  exact ⟨some, rfl, List.Subset.trans hsome hsub⟩

theorem put_adds {samples : List Sample} {error : Option Bytes} (h : out.put samples p = (error, p')) :
    Adds (StoredOf samples) p.events p'.events ∧ p'.sizes = p.sizes := by
  unfold Outside.put at h
  split at h
  · cases h
    exact ⟨.one ⟨samples, rfl, List.Subset.refl _⟩, rfl⟩
  next kept _ =>
    cases h
    exact ⟨.one ⟨samples.take kept, rfl, List.take_subset _ _⟩, rfl⟩

theorem put_stored {samples : List Sample} (h : out.put samples p = (none, p')) :
    ∀ s ∈ samples, Stored p'.events s := by
  unfold Outside.put at h
  split at h
  · cases h
    exact fun s hs => ⟨samples, List.mem_append_right _ List.mem_cons_self, hs⟩
  · cases h

variable {batches : List (List Sample)} {n n' : Nat} {error : Option Bytes}

theorem putAll_adds (h : out.putAll batches n p = (error, n', p')) :
    Adds (StoredOf batches.flatten) p.events p'.events ∧ p'.sizes = p.sizes := by
  induction batches generalizing n p with
  | nil =>
    cases h
    exact ⟨.refl _ _, rfl⟩
  | cons batch batches ih =>
    have hbatch {error} {p' : Progress Log} (h : out.put batch p = (error, p')) :
        Adds (StoredOf (batch :: batches).flatten) p.events p'.events ∧ p'.sizes = p.sizes :=
      (put_adds h).imp_left (.mono fun _ => StoredOf.mono (List.subset_append_left _ _))
    unfold Outside.putAll at h
    split at h
    next hput =>
      cases h
      exact hbatch hput
    next hput =>
      obtain ⟨hadds, hsizes⟩ := ih h
      exact ⟨(hbatch hput).1.trans (hadds.mono fun _ => StoredOf.mono (List.subset_append_right _ _)),
        hsizes.trans (hbatch hput).2⟩

theorem putAll_stored (h : out.putAll batches n p = (none, n', p')) : ∀ s ∈ batches.flatten, Stored p'.events s := by
  induction batches generalizing n p with
  | nil => simp
  | cons batch batches ih =>
    unfold Outside.putAll at h
    split at h
    next => cases h
    next p₁ hput =>
      intro s hin
      rcases List.mem_append.mp hin with hin | hin
      · exact (put_stored hput s hin).mono (putAll_adds h).1.kept
      · exact ih h s hin

/-! ## The loop over the queries -/

/-- The windows of a resolution are buckets of the log store. -/
structure Step.Aligned (step : Step) : Prop where
  day : step.ns ∣ day
  millis : millisecond ∣ step.ns

theorem Step.Aligned.truncate (h : step.Aligned) (t : Int) : truncate t step.ns = floorTo step.ns t :=
  truncate_eq_floorTo step.pos (dvd_sinceZero h.day)

theorem Step.Aligned.dvd_truncate (h : step.Aligned) (t : Int) : step.ns ∣ Instants.truncate t step.ns :=
  h.truncate t ▸ dvd_floorTo

theorem Step.Aligned.formatMillis (h : step.Aligned) : formatMillis step.ns = step.ns :=
  Int.ediv_mul_cancel h.millis

variable {range : TimeRange} {categories : List Category} {q : CategoryQuery} {logs : List Log} {row : CategoryRow}
  {finish start first : Int}

/-- A row whose window starts in a range on the grid counts all of its window. -/
theorem countsWindow_of_mem (hstep : step.Aligned) (hq : q.step = step.ns) (hstop : step.ns ∣ q.range.stop)
    (hrows : categoryCounts go st q (.ok logs) = .ok rows) (hrow : row ∈ rows) (hge : q.range.start ≤ row.time)
    (hlt : row.time < q.range.stop) : Covers q step row.time ∧ CountsWindow go st q logs row := by
  obtain ⟨filter, c, text, hsel, hc, hcondition, hdvd, hcount⟩ := mem_categoryCounts hrows (hq ▸ step.pos) hrow
  rw [hq, hstep.formatMillis] at hdvd hcount
  have hend : row.time + step.ns ≤ q.range.stop := by
    have := le_of_lt_add step.pos (hdvd.add (dvd_refl _)) hstop (by omega)
    exact this
  refine ⟨⟨hq, hge, hend⟩, filter, c, text, hsel, hc, hcondition, ?_⟩
  rwa [Store.matching_bucket step.pos hdvd hge hend, ← hq] at hcount

/-- Every category was counted in every window from `first` to `last`. -/
def Reached (go : Filter.GoLib) (st : Store Log) (r : Recorder) (events : List (Event Log)) (categories : List Category)
    (scope : Scope) (step : Step) (first last : Int) : Prop :=
  ∀ t, step.ns ∣ t → first ≤ t → t + step.ns ≤ last → ∀ c ∈ categories, Written go st r events scope step c t

theorem Reached.mono (h : events ⊆ events') {last : Int}
    (hr : Reached go st r events categories scope step first last) :
    Reached go st r events' categories scope step first last :=
  fun t ht hfirst hlast c hc => (hr t ht hfirst hlast c hc).mono h

theorem dvd_sub_queryStop {buckets : BucketCount} (hdvd : step.ns ∣ finish - start) :
    step.ns ∣ finish - queryStop step buckets start finish := by
  unfold queryStop
  obtain h | h := min_choice (start + step.ns * buckets.val) finish
  · rw [h, sub_add_eq_sub_sub]
    exact dvd_sub hdvd (Dvd.intro _ rfl)
  · rw [h, sub_self]
    exact dvd_zero _

theorem dvd_queryStop {buckets : BucketCount} (hstart : step.ns ∣ start) (hfinish : step.ns ∣ finish) :
    step.ns ∣ queryStop step buckets start finish :=
  (dvd_sub_right hfinish).mp (dvd_sub_queryStop (dvd_sub hfinish hstart))

theorem mem_samples {s : Sample} (h : s ∈ r.samples scope step range rows) :
    ∃ row ∈ rows, range.start ≤ row.time ∧ row.time < range.stop ∧ s ∈ r.rowSamples scope step row := by
  obtain ⟨row, hrow, hs⟩ := List.mem_flatMap.mp h
  obtain ⟨hrow, hin⟩ := List.mem_filter.mp hrow
  exact ⟨row, hrow, (of_decide_eq_true hin).1, (of_decide_eq_true hin).2, hs⟩

theorem samples_mem {s : Sample} (hrow : row ∈ rows) (hge : range.start ≤ row.time) (hlt : row.time < range.stop)
    (hs : s ∈ r.rowSamples scope step row) : s ∈ r.samples scope step range rows :=
  List.mem_flatMap.mpr ⟨row, List.mem_filter.mpr ⟨hrow, decide_eq_true ⟨hge, hlt⟩⟩, hs⟩

theorem rowSamples_time {s : Sample} (h : s ∈ r.rowSamples scope step row) : s.time = row.time := by
  simp only [Recorder.rowSamples, List.mem_cons, List.not_mem_nil, or_false] at h
  rcases h with rfl | rfl
  · rfl
  · rfl

/-- One query over a range on the grid, and its writes: the windows of the range are
written if nothing fails, and in any case what is written is whole. -/
theorem range_recorded {chunk : Nat} {written written' : Nat} {p₁ p₂ : Progress Log} (hstep : step.Aligned)
    (hstop : step.ns ∣ range.stop)
    (hcount : out.countInChunks go st (r.selection range) r.opts.clientField step (groups chunk categories) p =
      (.ok rows, p₁))
    (hput : out.putAll (Lists.pieces maxSamplesPerWrite (r.samples scope step range rows)) written p₁ =
      (error, written', p₂)) :
    Grows go st r p p₂ ∧
      (error = none → Reached go st r p₂.events categories scope step range.start range.stop) := by
  obtain ⟨answers, hanswers, rfl⟩ := countInChunks_ok (fun _ => Lists.ne_nil_of_mem_pieces) hcount
  have hwhole : ∀ s ∈ (Lists.pieces maxSamplesPerWrite (r.samples scope step range answers.flatten)).flatten,
      CountedWhole go st r p₁.events s := by
    intro s hs
    rw [Lists.flatten_pieces] at hs
    obtain ⟨row, hrow, hge, hlt, hs⟩ := mem_samples hs
    obtain ⟨rows, hrows, hrow⟩ := List.mem_flatten.mp hrow
    obtain ⟨part, -, logs, hcounted, hanswer⟩ := Lists.forall₂_exists_left hanswers hrows
    obtain ⟨hcovers, hwindow⟩ := countsWindow_of_mem hstep rfl hstop hanswer hrow hge hlt
    exact ⟨_, logs, rows, row, scope, step, hcounted, hanswer, hrow, hs, rowSamples_time hs ▸ hcovers, hwindow⟩
  have hgrows : Grows go st r p₁ p₂ := by
    obtain ⟨hadds, -⟩ := putAll_adds hput
    refine hadds.grows ?_
    rintro _ ⟨_, ⟨⟩, hsub⟩ s hs
    exact (hwhole s (hsub hs)).mono hadds.kept
  refine ⟨(countInChunks_grows hcount).trans hgrows, ?_⟩
  rintro rfl t ht hfirst hlast c hc
  obtain ⟨part, hpart, hc⟩ := List.mem_flatten.mp ((Lists.flatten_pieces _ categories).symm ▸ hc)
  obtain ⟨rows, hrows, logs, hcounted, hanswer⟩ := Lists.forall₂_exists_right hanswers hpart
  refine ⟨_, logs, rows, hgrows.events hcounted, hanswer, hc, ⟨rfl, hfirst, hlast⟩, ?_⟩
  rintro row hrow rfl s hs
  apply putAll_stored hput s
  rw [Lists.flatten_pieces]
  have := step.pos
  exact samples_mem (List.mem_flatten.mpr ⟨rows, hrows, hrow⟩) hfirst (by omega) hs

theorem Reached.append {middle last : Int} (hmiddle : step.ns ∣ middle)
    (h : Reached go st r events categories scope step first middle)
    (h' : Reached go st r events categories scope step middle last) :
    Reached go st r events categories scope step first last := by
  intro t ht hfirst hlast
  by_cases hlt : t + step.ns ≤ middle
  · exact h t ht hfirst hlt
  · exact h' t ht (le_of_lt_add step.pos hmiddle ht (by omega)) hlast

/-- What a pass over the windows from `first` on has come to. -/
structure Passed (go : Filter.GoLib) (st : Store Log) (r : Recorder) (categories : List Category) (scope : Scope)
    (step : Step) (first : Int) (p : Progress Log) (res : Recorded × Progress Log) : Prop where
  grows : Grows go st r p res.2
  reached : ∀ u, res.1.upto = some u → first < u ∧ step.ns ∣ u ∧
    Reached go st r res.2.events categories scope step first u

theorem Passed.trans {res : Recorded × Progress Log} (h : Grows go st r p p')
    (h' : Passed go st r categories scope step first p' res) : Passed go st r categories scope step first p res :=
  ⟨h.trans h'.grows, h'.reached⟩

theorem recordLoop_passed {buckets : BucketCount} {chunk shrinks : Nat} {acc : Recorded} (hstep : step.Aligned)
    (hfinish : step.ns ∣ finish) (hstart : step.ns ∣ start) (hfirst : first ≤ start)
    (hacc : ∀ u, acc.upto = some u → first < u ∧ u = start)
    (hreached : Reached go st r p.events categories scope step first start) :
    Passed go st r categories scope step first p
      (r.recordLoop go st out categories scope step finish start buckets chunk shrinks acc p) := by
  -- What the pass has come to when it stops at `start`, with the events of the last query.
  have hstopped {start p p'} {acc acc' : Recorded} (hgrows : Grows go st r p p') (hupto : acc'.upto = acc.upto)
      (hstart : step.ns ∣ start) (hacc : ∀ u, acc.upto = some u → first < u ∧ u = start)
      (hreached : Reached go st r p.events categories scope step first start) :
      Passed go st r categories scope step first p (acc', p') := by
    refine ⟨hgrows, fun u hu => ?_⟩
    obtain ⟨hlt, rfl⟩ := hacc u (hupto ▸ hu)
    exact ⟨hlt, hstart, hreached.mono hgrows.events⟩
  fun_induction Recorder.recordLoop with
  | case1 start buckets chunk shrinks acc p hlt range e p' hcount cause hdone =>
    exact hstopped (countInChunks_grows hcount) rfl hstart hacc hreached
  | case2 start buckets chunk shrinks acc p hlt range e p' hcount hdone hshrink smaller ih =>
    have hgrows : Grows go st r p p' := countInChunks_grows hcount
    refine Passed.trans ?_ (ih hstart hfirst hacc (hreached.mono hgrows.events))
    exact ⟨hgrows.events, hgrows.whole⟩
  | case3 start buckets chunk shrinks acc p hlt range e p' hcount hdone hshrink =>
    exact hstopped (countInChunks_grows hcount) rfl hstart hacc hreached
  | case4 start buckets chunk shrinks acc p hlt range rows p₁ hcount e written p₂ hput =>
    have hstop : step.ns ∣ range.stop := dvd_queryStop hstart hfinish
    exact hstopped (range_recorded hstep hstop hcount hput).1 rfl hstart hacc hreached
  | case5 start buckets chunk shrinks acc p hlt range rows p₁ hcount written p₂ hput ih =>
    have hstop : step.ns ∣ range.stop := dvd_queryStop hstart hfinish
    obtain ⟨hgrows, hrange⟩ := range_recorded hstep hstop hcount hput
    have hnext : start < range.stop := lt_queryStop hlt
    refine Passed.trans hgrows (ih hstop (by omega) ?_ ?_)
    · rintro u ⟨⟩
      exact ⟨by omega, rfl⟩
    · exact (hreached.mono hgrows.events).append hstart (hrange rfl)
  | case6 start buckets chunk shrinks acc p hge =>
    exact hstopped (.refl _) rfl hstart hacc hreached

/-! ## One resolution -/

variable {mark : Option Int} {now : Int}

theorem dvd_catchUp_add (mark now : Int) : step.ns ∣ r.catchUp step mark now + sinceZero := by
  unfold Recorder.catchUp
  split
  next oldest hold =>
    split
    · obtain ⟨-, ⟨⟩⟩ := Option.ite_none_right_eq_some.mp hold
      exact dvd_truncate_add step.pos
    · exact dvd_truncate_add step.pos
  next => exact dvd_truncate_add step.pos

theorem dvd_catchUp (hstep : step.Aligned) (mark now : Int) : step.ns ∣ r.catchUp step mark now :=
  (dvd_add_left (dvd_sinceZero hstep.day)).mp (dvd_catchUp_add mark now)

/-- Recording goes on at the window the mark is in, unless it skips. -/
theorem catchUp_eq {mark : Int} (h : r.skips step mark now = false) :
    r.catchUp step mark now = truncate mark step.ns := by
  unfold Recorder.catchUp
  unfold Recorder.skips at h
  split
  next oldest hold =>
    rw [hold] at h
    exact if_neg (of_decide_eq_false h)
  next => rfl

theorem truncate_le_catchUp (mark now : Int) : truncate mark step.ns ≤ r.catchUp step mark now := by
  unfold Recorder.catchUp
  split
  next => split <;> omega
  next => rfl

/-- The windows of a resolution lie on a grid that begins at the zero time. -/
theorem dvd_firstWindow_add (h : r.firstWindow step mark now = some first) : step.ns ∣ first + sinceZero := by
  unfold Recorder.firstWindow at h
  split at h
  · cases h
    exact dvd_catchUp_add _ _
  · obtain ⟨-, ⟨⟩⟩ := Option.ite_none_left_eq_some.mp h
    exact dvd_catchUp_add _ _

theorem dvd_firstWindow (hstep : step.Aligned) (h : r.firstWindow step mark now = some first) : step.ns ∣ first :=
  (dvd_add_left (dvd_sinceZero hstep.day)).mp (dvd_firstWindow_add h)

theorem record_passed (hstep : step.Aligned) (h : r.firstWindow step mark now = some first) :
    Passed go st r categories scope step first p (r.record go st out categories scope step mark now p) := by
  have hfirst := dvd_firstWindow hstep h
  unfold Recorder.record
  rw [h]
  dsimp only
  split
  · exact ⟨.refl p, by rintro _ ⟨⟩⟩
  · refine recordLoop_passed hstep (hstep.dvd_truncate _) hfirst le_rfl (by rintro _ ⟨⟩) ?_
    -- No window fits between `first` and itself.
    intro t ht hle hlt
    have := step.pos
    omega

theorem record_first (h : r.firstWindow step mark now = none) :
    r.record go st out categories scope step mark now p = ({ upto := some (truncate now step.ns - step.ns) }, p) := by
  unfold Recorder.record
  rw [h]

variable {mainCategories : List Category} {all main : Recorded} {u : Int}

theorem earliest_eq_some {a b : Option Int} (h : earliest a b = some u) :
    ∃ v w, a = some v ∧ b = some w ∧ u = min v w := by
  cases a with
  | none => cases h
  | some v =>
    cases b with
    | none => cases h
    | some w =>
      cases h
      exact ⟨v, w, rfl, rfl, rfl⟩

/-- The windows from `first` on are recorded for both scopes. -/
def Both (go : Filter.GoLib) (st : Store Log) (r : Recorder) (events : List (Event Log))
    (categories mainCategories : List Category) (step : Step) (first last : Int) : Prop :=
  Reached go st r events categories .all step first last ∧ Reached go st r events mainCategories .main step first last

theorem Reached.earlier {last last' : Int} (h : Reached go st r events categories scope step first last)
    (hle : last' ≤ last) : Reached go st r events categories scope step first last' :=
  fun t ht hfirst hlast => h t ht hfirst (hlast.trans hle)

theorem recordScopes_reached (hstep : step.Aligned) (hfirst : r.firstWindow step mark now = some first)
    (h : r.recordScopes go st out categories mainCategories step mark now p = (all, main, p')) :
    Grows go st r p p' ∧ ∀ u, earliest all.upto main.upto = some u →
      first < u ∧ step.ns ∣ u ∧ Both go st r p'.events categories mainCategories step first u := by
  have hall : Passed go st r categories .all step first p (r.record go st out categories .all step mark now p) :=
    record_passed hstep hfirst
  unfold Recorder.recordScopes at h
  dsimp only at h
  split at h
  next hempty =>
    cases h
    refine ⟨hall.grows, fun u hu => ?_⟩
    obtain ⟨v, w, hv, hw, rfl⟩ := earliest_eq_some hu
    obtain rfl : v = w := Option.some.inj (hv.symm.trans hw)
    rw [min_self]
    obtain ⟨hlt, hdvd, hreached⟩ := hall.reached v hv
    exact ⟨hlt, hdvd, hreached, by simp [Reached, hempty]⟩
  next =>
    have hmain : Passed go st r mainCategories .main step first (r.record go st out categories .all step mark now p).2
        (main, p') := by
      rw [← (Prod.mk.inj h).2]
      exact record_passed hstep hfirst
    obtain ⟨rfl, -⟩ := Prod.mk.inj h
    refine ⟨hall.grows.trans hmain.grows, fun u hu => ?_⟩
    obtain ⟨v, w, hv, hw, rfl⟩ := earliest_eq_some hu
    obtain ⟨hv, hvdvd, hvreached⟩ := hall.reached v hv
    obtain ⟨hw, hwdvd, hwreached⟩ := hmain.reached w hw
    refine ⟨lt_min hv hw, ?_, (hvreached.mono hmain.grows.events).earlier (min_le_left v w),
      hwreached.earlier (min_le_right v w)⟩
    rcases min_choice v w with hmin | hmin
    · rwa [hmin]
    · rwa [hmin]

theorem recordScopes_first (hfirst : r.firstWindow step mark now = none)
    (h : r.recordScopes go st out categories mainCategories step mark now p = (all, main, p')) :
    p' = p ∧ ∀ u, earliest all.upto main.upto = some u → u = truncate now step.ns - step.ns := by
  unfold Recorder.recordScopes at h
  simp only [record_first hfirst] at h
  split at h
  · cases h
    exact ⟨rfl, by rintro _ ⟨⟩; exact min_self _⟩
  · cases h
    exact ⟨rfl, by rintro _ ⟨⟩; exact min_self _⟩

/-- Every window of the mark is recorded, for both scopes and all services of the catalog
that a run had. -/
def Covered (toLower : Bytes → Bytes) (go : Filter.GoLib) (st : Store Log) (r : Recorder) (events : List (Event Log))
    (step : Step) (m : Mark) : Prop :=
  ∀ t, step.ns ∣ t → m.since ≤ t → t + step.ns ≤ m.upto →
    ∃ catalog, .ran catalog ∈ events ∧ catalog.categories toLower r.opts.domainField ≠ [] ∧
      (∀ c ∈ catalog.categories toLower r.opts.domainField, Written go st r events .all step c t) ∧
      ∀ c ∈ catalog.mainCategories toLower r.opts.domainField, Written go st r events .main step c t

theorem Covered.mono (h : events ⊆ events') {m : Mark} (hm : Covered toLower go st r events step m) :
    Covered toLower go st r events' step m := by
  intro t ht hsince hupto
  obtain ⟨catalog, hran, hne, hall, hmain⟩ := hm t ht hsince hupto
  exact ⟨catalog, h hran, hne, fun c hc => (hall c hc).mono h, fun c hc => (hmain c hc).mono h⟩

/-- A later mark: it is after the earlier one, and its windows are recorded. -/
structure Follows (toLower : Bytes → Bytes) (go : Filter.GoLib) (st : Store Log) (r : Recorder)
    (events : List (Event Log)) (step : Step) (earlier : Option Mark) (m : Mark) : Prop where
  lt : ∀ m', earlier = some m' → m'.upto < m.upto
  covered : (∀ m', earlier = some m' → Covered toLower go st r events step m') → Covered toLower go st r events step m

variable {catalog : Catalog} {old : Option Mark}

theorem covered_of_both (hran : .ran catalog ∈ events) (hne : catalog.categories toLower r.opts.domainField ≠ [])
    (h : Both go st r events (catalog.categories toLower r.opts.domainField)
      (catalog.mainCategories toLower r.opts.domainField) step first u) :
    Covered toLower go st r events step ⟨u, first⟩ :=
  fun t ht hsince hupto => ⟨catalog, hran, hne, h.1 t ht hsince hupto, h.2 t ht hsince hupto⟩

theorem recordScopes_follows (hstep : step.Aligned) (hran : .ran catalog ∈ p.events)
    (hne : catalog.categories toLower r.opts.domainField ≠ [])
    (h : r.recordScopes go st out (catalog.categories toLower r.opts.domainField)
      (catalog.mainCategories toLower r.opts.domainField) step (old.map Mark.upto) now p = (all, main, p')) :
    Grows go st r p p' ∧ ∀ u, earliest all.upto main.upto = some u →
      Follows toLower go st r p'.events step old ⟨u, r.since step old now⟩ := by
  cases old with
  | none =>
    cases hfirst : r.firstWindow step none now with
    | none =>
      obtain ⟨rfl, hupto⟩ := recordScopes_first hfirst h
      refine ⟨.refl _, fun u hu => ⟨by rintro _ ⟨⟩, fun _ t ht hsince hlast => ?_⟩⟩
      -- Nothing was counted, and there is no window between the mark and itself.
      have := step.pos
      simp only [Recorder.since, hfirst, Option.getD_none, hupto u hu] at hsince hlast
      omega
    | some first =>
      obtain ⟨hgrows, hupto⟩ := recordScopes_reached hstep hfirst h
      refine ⟨hgrows, fun u hu => ⟨by rintro _ ⟨⟩, fun _ => ?_⟩⟩
      rw [show r.since step none now = first by simp [Recorder.since, hfirst]]
      exact covered_of_both (hgrows.events hran) hne (hupto u hu).2.2
  | some m =>
    have hfirst : r.firstWindow step (some m.upto) now = some (r.catchUp step m.upto now) := rfl
    obtain ⟨hgrows, hupto⟩ := recordScopes_reached hstep hfirst h
    refine ⟨hgrows, fun u hu => ?_⟩
    obtain ⟨hlt, hdvd, hboth⟩ := hupto u hu
    have hnew : Covered toLower go st r p'.events step ⟨u, r.catchUp step m.upto now⟩ :=
      covered_of_both (hgrows.events hran) hne hboth
    have hafter : m.upto < truncate m.upto step.ns + step.ns := hstep.truncate _ ▸ lt_floorTo_add step.pos
    have hfrom : truncate m.upto step.ns ≤ r.catchUp step m.upto now := truncate_le_catchUp _ _
    have hnext : r.catchUp step m.upto now + step.ns ≤ u :=
      le_of_lt_add step.pos ((dvd_catchUp hstep _ _).add (dvd_refl _)) hdvd (by omega)
    refine ⟨by rintro _ ⟨⟩; dsimp only; omega, fun hold => ?_⟩
    unfold Recorder.since
    dsimp only
    split
    next => exact hnew
    next hskip =>
      intro t ht hsince hlast
      by_cases hlt : t + step.ns ≤ m.upto
      · exact hold m rfl t ht hsince hlt
      · apply hnew t ht _ hlast
        dsimp only
        rw [catchUp_eq (Bool.eq_false_iff.mpr hskip)] at hfrom ⊢
        have : truncate m.upto step.ns ≤ m.upto := hstep.truncate _ ▸ floorTo_le step.pos
        exact le_of_lt_add step.pos (hstep.dvd_truncate _) ht (by omega)

/-! ## Resolutions of a valid configuration -/

/-- The base resolution is as the configuration wants it. -/
structure Recorder.Valid (r : Recorder) : Prop where
  minute_le : minute ≤ r.opts.base
  le_hour : r.opts.base ≤ hour
  dvd_hour : r.opts.base ∣ hour

theorem validateInterval_eq_nil {d : Int} (h : validateInterval d = []) : minute ≤ d ∧ d ≤ hour ∧ d ∣ hour := by
  unfold validateInterval at h
  split at h
  · cases h
  split at h
  · cases h
  split at h
  · cases h
  next h₁ h₂ h₃ => exact ⟨by omega, by omega, Int.dvd_of_emod_eq_zero (by simpa using h₃)⟩

theorem newRecorder_opts {opts : Options} (hpos : 0 < opts.base) (h : newRecorder opts = .ok r) : r.opts = opts := by
  unfold newRecorder at h
  rw [dif_neg (not_le.mpr hpos)] at h
  split at h
  · cases h
  · cases h
    rfl

theorem valid_of_config {quote : Bytes → Bytes} {a : AnalyticsConfig} {retention : Int} {database : Bool}
    (hvalid : validateServiceTrends toLower quote a = []) (hwire : wireAnalytics a retention database = .ok (some r)) :
    r.Valid := by
  unfold wireAnalytics at hwire
  dsimp only at hwire
  split at hwire
  · cases hwire
  next hsome =>
    obtain ⟨r', hnew, ⟨⟩⟩ := Fallible.map_eq_ok.mp hwire
    simp only [validateServiceTrends, List.append_eq_nil_iff] at hvalid
    rw [if_neg (fun h => hsome (.inl h))] at hvalid
    obtain ⟨hle, hge, hdvd⟩ := validateInterval_eq_nil (List.append_eq_nil_iff.mp hvalid.2).1
    have hopts := newRecorder_opts ((by decide : 0 < minute).trans_le hle) hnew
    exact ⟨hopts ▸ hle, hopts ▸ hge, hopts ▸ hdvd⟩

theorem Recorder.Valid.millis (h : r.Valid) : millisecond ∣ r.opts.base := by
  obtain ⟨k, hk⟩ := h.dvd_hour
  have hmin := h.minute_le
  have hbase := r.base_pos
  simp only [hour, minute, second, millisecond] at *
  have hpos : 0 < k := by nlinarith
  have hle : k ≤ 60 := by nlinarith
  interval_cases k <;> omega

theorem mem_resolutions (h : step ∈ r.resolutions toLower) :
    step = ⟨r.opts.base, r.base_pos⟩ ∨ step = resolutionHour ∨ step = resolutionDay := by
  unfold Recorder.resolutions at h
  dsimp only at h
  split at h
  · simpa using h
  · simpa using (List.mem_filter.mp h).1

theorem Recorder.Valid.aligned (hr : r.Valid) (h : step ∈ r.resolutions toLower) : step.Aligned := by
  rcases mem_resolutions h with rfl | rfl | rfl
  · exact ⟨hr.dvd_hour.trans (Dvd.intro_left 24 rfl), hr.millis⟩
  · exact ⟨Dvd.intro_left 24 rfl, Dvd.intro_left 3600000 rfl⟩
  · exact ⟨dvd_refl _, Dvd.intro_left 86400000 rfl⟩

theorem append_m_ne (s : String) {c d : Char} (h : d ≠ 'm') : s ++ "m" ≠ String.ofList [c, d] := by
  intro heq
  have := congrArg (fun s => s.toList.getLast?) heq
  simp at this
  exact h this.symm

/-- A base resolution that has the label of another one is that one. -/
theorem Recorder.Valid.base_window (hr : r.Valid) {other : Step}
    (hother : other = resolutionHour ∨ other = resolutionDay)
    (hw : (⟨r.opts.base, r.base_pos⟩ : Step).window = other.window) : ⟨r.opts.base, r.base_pos⟩ = other := by
  have hle := hr.le_hour
  have hday : ¬day ≤ r.opts.base := by
    have : hour < day := by decide
    omega
  unfold Step.window windowName at hw
  rw [if_neg (by tauto)] at hw
  dsimp only at hw
  split at hw
  next hhour =>
    obtain hbase : r.opts.base = hour := by omega
    rcases hother with rfl | rfl
    · simp [resolutionHour, hbase]
    · rw [hbase] at hw
      exact absurd hw (by decide)
  next =>
    rcases hother with rfl | rfl
    · have hlabel : resolutionHour.window = String.ofList ['1', 'h'] := by decide
      exact absurd (hw.trans hlabel) (append_m_ne _ (by decide))
    · have hlabel : resolutionDay.window = String.ofList ['1', 'd'] := by decide
      exact absurd (hw.trans hlabel) (append_m_ne _ (by decide))

/-- No two resolutions are stored under one label. -/
theorem Recorder.Valid.window_inj (hr : r.Valid) {step' : Step} (h : step ∈ r.resolutions toLower)
    (h' : step' ∈ r.resolutions toLower) (hw : step.window = step'.window) : step = step' := by
  rcases mem_resolutions h with rfl | hstep
  · rcases mem_resolutions h' with rfl | hstep'
    · rfl
    · exact hr.base_window hstep' hw
  · rcases mem_resolutions h' with rfl | hstep'
    · exact (hr.base_window hstep hw.symm).symm
    · rcases hstep with rfl | rfl <;> rcases hstep' with rfl | rfl
      · rfl
      · exact absurd hw (by decide)
      · exact absurd hw (by decide)
      · rfl

/-! ## Runs -/

/-- What holds of the marks and the events at any time in a run. -/
structure Sound (toLower : Bytes → Bytes) (go : Filter.GoLib) (st : Store Log) (r : Recorder)
    (marks : String → Option Mark) (events : List (Event Log)) : Prop where
  whole : Whole go st r events
  covered : ∀ step ∈ r.resolutions toLower, ∀ m, marks step.window = some m → Covered toLower go st r events step m

/-- No mark is lost or moved back. -/
def Later (marks marks' : String → Option Mark) : Prop :=
  ∀ w m, marks w = some m → ∃ m', marks' w = some m' ∧ m.upto ≤ m'.upto

theorem Later.refl (marks : String → Option Mark) : Later marks marks := fun _ m h => ⟨m, h, le_rfl⟩

theorem Later.trans {a b c : String → Option Mark} (h : Later a b) (h' : Later b c) : Later a c := by
  intro w m hm
  obtain ⟨m₁, hm₁, hle₁⟩ := h w m hm
  obtain ⟨m₂, hm₂, hle₂⟩ := h' w m₁ hm₁
  exact ⟨m₂, hm₂, hle₁.trans hle₂⟩

/-- The marks of a run. -/
def Running.marks (s : Running Log) (w : String) : Option Mark := s.state.lookup w

/-- The marks that are stored. -/
def System.marks (sys : System Log) (w : String) : Option Mark := (sys.settings.state.lookup w).map SavedMark.load

variable {s s' : Running Log}

theorem runWindow_sound (hr : r.Valid) (hmem : step ∈ r.resolutions toLower)
    (hran : .ran catalog ∈ s.progress.events) (hne : catalog.categories toLower r.opts.domainField ≠ [])
    (hs : Sound toLower go st r s.marks s.progress.events)
    (h : r.runWindow go st out (catalog.categories toLower r.opts.domainField)
      (catalog.mainCategories toLower r.opts.domainField) now step s = s') :
    s.progress.events ⊆ s'.progress.events ∧ Sound toLower go st r s'.marks s'.progress.events ∧
      Later s.marks s'.marks := by
  unfold Recorder.runWindow at h
  split at h
  · subst h
    exact ⟨List.Subset.refl _, hs, .refl _⟩
  · dsimp only at h
    rcases hscopes : r.recordScopes go st out (catalog.categories toLower r.opts.domainField)
      (catalog.mainCategories toLower r.opts.domainField) step ((s.state.lookup step.window).map Mark.upto) now
      s.progress with ⟨all, main, p'⟩
    rw [hscopes] at h
    obtain ⟨hgrows, hupto⟩ := recordScopes_follows (hr.aligned hmem) hran hne hscopes
    have hold : Sound toLower go st r s.marks p'.events :=
      ⟨hgrows.whole hs.whole, fun step hstep m hm => (hs.covered step hstep m hm).mono hgrows.events⟩
    cases hu : earliest all.upto main.upto with
    | none =>
      subst h
      simp only [hu, Option.elim_none]
      exact ⟨hgrows.events, hold, .refl _⟩
    | some u =>
      have hfollows := hupto u hu
      have hmarks : s'.marks = fun w => if w = step.window then
          some ⟨u, r.since step (s.state.lookup step.window) now⟩ else s.marks w := by
        funext w
        rw [← h]
        simp [Running.marks, hu, Lists.lookup_assign]
      have hevents : s'.progress.events = p'.events := by rw [← h]
      rw [hmarks, hevents]
      refine ⟨hgrows.events, ⟨hold.whole, fun step' hstep' m hm => ?_⟩, fun w m hm => ?_⟩
      · split at hm
        next hw =>
          cases hm
          cases hr.window_inj hstep' hmem hw
          exact hfollows.covered fun m' hm' => hold.covered step hmem m' hm'
        next => exact hold.covered step' hstep' m hm
      · by_cases hw : w = step.window
        · subst hw
          exact ⟨_, if_pos rfl, (hfollows.lt m hm).le⟩
        · exact ⟨m, (if_neg hw).trans hm, le_rfl⟩

theorem foldl_sound (hr : r.Valid) (steps : List Step) (hmem : steps ⊆ r.resolutions toLower)
    (hran : .ran catalog ∈ s.progress.events) (hne : catalog.categories toLower r.opts.domainField ≠ [])
    (hs : Sound toLower go st r s.marks s.progress.events)
    (h : steps.foldl (fun s step => r.runWindow go st out (catalog.categories toLower r.opts.domainField)
      (catalog.mainCategories toLower r.opts.domainField) now step s) s = s') :
    s.progress.events ⊆ s'.progress.events ∧ Sound toLower go st r s'.marks s'.progress.events ∧
      Later s.marks s'.marks := by
  induction steps generalizing s with
  | nil =>
    subst h
    exact ⟨List.Subset.refl _, hs, .refl _⟩
  | cons step steps ih =>
    obtain ⟨hstep, hsteps⟩ := List.cons_subset.mp hmem
    obtain ⟨hevents₁, hsound₁, hlater₁⟩ := runWindow_sound hr hstep hran hne hs rfl
    obtain ⟨hevents₂, hsound₂, hlater₂⟩ := ih hsteps (hevents₁ hran) hsound₁ h
    exact ⟨List.Subset.trans hevents₁ hevents₂, hsound₂, hlater₁.trans hlater₂⟩

/-- The text of a mark stands for its second, which leaves out none of its windows but the
last. -/
theorem Sound.save {marks : String → Option Mark} (h : Sound toLower go st r marks events) :
    Sound toLower go st r (fun w => (marks w).map (SavedMark.load ∘ Mark.save)) events := by
  refine ⟨h.whole, fun step hstep m hm => ?_⟩
  obtain ⟨m', hm', rfl⟩ := Option.map_eq_some_iff.mp hm
  intro t ht hsince hupto
  have : m'.upto / second * second ≤ m'.upto := Int.ediv_mul_le _ (by decide)
  exact h.covered step hstep m' hm' t ht hsince (hupto.trans this)

variable {sys : System Log}

/-- Stored marks are whole seconds already. -/
theorem later_save {marks : String → Option Mark} (h : Later sys.marks marks) :
    Later sys.marks fun w => (marks w).map (SavedMark.load ∘ Mark.save) := by
  intro w m hm
  obtain ⟨m', hm', hle⟩ := h w m hm
  obtain ⟨saved, -, rfl⟩ := Option.map_eq_some_iff.mp hm
  refine ⟨m'.save.load, by simp [hm'], ?_⟩
  exact mul_le_mul_of_nonneg_right (Int.le_ediv_of_mul_le (by decide) hle) (by decide)

theorem marks_save {sizes : Sizes} {process : Process} {events : List (Event Log)} :
    System.marks { settings := { state := s.state.map fun e => (e.1, e.2.save), sizes }, process, events } =
      fun w => (s.marks w).map (SavedMark.load ∘ Mark.save) := by
  funext w
  simp only [System.marks, Lists.lookup_map, Option.map_map, Running.marks]

/-- What the loop of a run leaves of the marks and the events. -/
theorem runWindows_sound (hr : r.Valid) (hs : Sound toLower go st r sys.marks sys.events) {final : Running Log}
    (h : r.runWindows toLower go st out sys = .ok final) :
    sys.events ⊆ final.progress.events ∧ Sound toLower go st r final.marks final.progress.events ∧
      Later sys.marks final.marks := by
  unfold Recorder.runWindows at h
  split at h
  · cases h
  next catalog hcatalog =>
    dsimp only at h
    split at h
    · cases h
    next hne =>
      split at h
      · cases h
      next =>
        generalize hbegin : Recorder.beginning catalog _ _ _ = start at h
        have hmarks : start.marks = sys.marks := by
          funext w
          rw [← hbegin]
          exact Lists.lookup_map SavedMark.load
        have hevents : start.progress.events = sys.events ++ [.ran catalog] := by
          rw [← hbegin]
          rfl
        have hran : .ran catalog ∈ start.progress.events := by simp [hevents]
        have hstart : Sound toLower go st r start.marks start.progress.events := by
          rw [hmarks, hevents]
          refine ⟨?_, fun step hstep m hm => (hs.covered step hstep m hm).mono (List.subset_append_left _ _)⟩
          rintro s ⟨samples, hmem, hin⟩
          have hmem : .stored samples ∈ sys.events := by simpa using hmem
          exact (hs.whole s ⟨samples, hmem, hin⟩).mono (List.subset_append_left _ _)
        obtain ⟨hgrown, hsound, hlater⟩ := foldl_sound hr _ (List.Subset.refl _) hran hne hstart (Except.ok.inj h)
        exact ⟨List.Subset.trans (hevents ▸ List.subset_append_left _ _) hgrown, hsound, hmarks ▸ hlater⟩

/-- What a run leaves of the marks and the events. -/
theorem run_sound (hr : r.Valid) (hs : Sound toLower go st r sys.marks sys.events) :
    Sound toLower go st r (r.run toLower go st out sys).2.marks (r.run toLower go st out sys).2.events ∧
      Later sys.marks (r.run toLower go st out sys).2.marks := by
  unfold Recorder.run
  cases hrun : r.runWindows toLower go st out sys with
  | error result => exact ⟨hs, .refl _⟩
  | ok final =>
    obtain ⟨hgrown, hsound, hlater⟩ := runWindows_sound hr hs hrun
    dsimp only
    by_cases hsave : final.advanced = true ∧ out.saveState = none
    · simp only [if_pos hsave, marks_save]
      exact ⟨hsound.save, later_save hlater⟩
    · simp only [if_neg hsave]
      exact ⟨⟨hsound.whole, fun step hstep m hm => (hs.covered step hstep m hm).mono hgrown⟩, .refl _⟩

theorem step_sound (hr : r.Valid) (a : Action Log) (hs : Sound toLower go st r sys.marks sys.events) :
    Sound toLower go st r (r.step toLower go st sys a).marks (r.step toLower go st sys a).events ∧
      Later sys.marks (r.step toLower go st sys a).marks := by
  cases a with
  | run out => exact run_sound hr hs
  | restart => exact ⟨hs, .refl _⟩

/-- The rollup after a sequence of runs and restarts. -/
def Recorder.after (toLower : Bytes → Bytes) (go : Filter.GoLib) (st : Store Log) (r : Recorder) (sys : System Log)
    (actions : List (Action Log)) : System Log :=
  actions.foldl (r.step toLower go st) sys

theorem after_sound (hr : r.Valid) (actions : List (Action Log)) (hs : Sound toLower go st r sys.marks sys.events) :
    Sound toLower go st r (r.after toLower go st sys actions).marks (r.after toLower go st sys actions).events ∧
      Later sys.marks (r.after toLower go st sys actions).marks := by
  induction actions generalizing sys with
  | nil => exact ⟨hs, .refl _⟩
  | cons a actions ih =>
    obtain ⟨hstep, hlater⟩ := step_sound hr a hs
    obtain ⟨hsound, hlater'⟩ := ih hstep
    exact ⟨hsound, hlater.trans hlater'⟩

/-- Nothing is recorded yet. -/
theorem initial_sound : Sound toLower go st r ({} : System Log).marks ({} : System Log).events :=
  ⟨by rintro s ⟨_, ⟨⟩, _⟩, by rintro _ _ _ ⟨⟩⟩

/-- Whatever the stores, the clock and the catalog do in a sequence of runs: the mark of a
resolution never moves back, every window from the point where recording began or went
on up to the mark is written for both scopes, and every sample that is written was
counted over all of its window. -/
theorem marks_covered {quote : Bytes → Bytes} {a : AnalyticsConfig} {retention : Int} {database : Bool}
    (hvalid : validateServiceTrends toLower quote a = []) (hwire : wireAnalytics a retention database = .ok (some r))
    (before after : List (Action Log)) :
    let sys := r.after toLower go st {} before
    Later sys.marks (r.after toLower go st sys after).marks ∧
      (∀ step ∈ r.resolutions toLower, ∀ m, sys.marks step.window = some m →
        Covered toLower go st r sys.events step m) ∧
      Whole go st r sys.events := by
  have hr := valid_of_config hvalid hwire
  obtain ⟨hsound, -⟩ := after_sound hr before initial_sound
  exact ⟨(after_sound hr after hsound).2, hsound.covered, hsound.whole⟩

/-- The defaults, with a metrics store. -/
def defaultAnalytics : AnalyticsConfig where
  metricsURL := utf8 "http://metrics:8428"
  serviceTrends := {
    enabled := true, windows := [], interval := 5 * minute, backfill := 7 * day, domainField := utf8 "dns.qname",
    clientField := utf8 "dns.client_ip", sources := [], queryTimeout := 2 * minute }

theorem fiveMinutes_pos : 0 < 5 * minute := by decide

def defaultRecorder : Recorder where
  opts := {
    base := 5 * minute, backfill := 7 * day, maxAge := 30 * day, tenant := [], domainField := utf8 "dns.qname",
    clientField := utf8 "dns.client_ip", sources := [], windows := [] }
  base_pos := fiveMinutes_pos

/-- A run in which the third query fails and the second write is lost. -/
def troubledRun : Outside Int where
  clock := ⟨1800000000 * second, by decide, by decide⟩
  catalog := .ok ⟨[⟨utf8 "tiktok", [utf8 "tiktok.com"], [], true⟩]⟩
  query := fun n => if n = 2 then .error (.other (utf8 "timeout")) else .ok [1799999000 * second]
  write := fun n => if n = 1 then .failed (utf8 "refused") 0 else .ok

def emptyStore : Store Int where
  time := id
  row _ := []
  selects _ _ := true

theorem marks_covered_troubledRun :
    let sys := defaultRecorder.after id plainLib emptyStore {} [.run troubledRun, .restart]
    Later sys.marks (defaultRecorder.after id plainLib emptyStore sys [.run troubledRun]).marks ∧
      (∀ step ∈ defaultRecorder.resolutions id, ∀ m, sys.marks step.window = some m →
        Covered id plainLib emptyStore defaultRecorder sys.events step m) ∧
      Whole plainLib emptyStore defaultRecorder sys.events :=
  have hvalid : validateServiceTrends id id defaultAnalytics = [] := by decide
  have hwire : wireAnalytics defaultAnalytics (30 * day) true = .ok (some defaultRecorder) := rfl
  marks_covered hvalid hwire [.run troubledRun, .restart] [.run troubledRun]

end Syslogc.Trends
