-- SUMMARY: The failures that monitoring sees of each window.
import Syslogc.Trends.Horizon

/-!
# What monitoring sees of the recorder

Every run notes, for each window it tries, how far recording has come and whether it failed.
What is noted as a failure is that of the first scope, over all domains of the services; a
window that fails only in the second scope stands still without a failure.
-/

namespace Syslogc.Trends

open Instants Syslogc.VictoriaLogs

variable {Log : Type} (toLower : Bytes → Bytes) (go : Filter.GoLib) (st : Store Log) (r : Recorder) (out : Outside Log)

/-! ## Passes and notes -/

def Status.notePass (s : Status) (pass : Pass) : Status :=
  s.note pass.window (earliest pass.all.upto pass.main.upto) pass.all.error.isSome

/-- The passes of a run. A run that cannot read the catalog or its state makes none. -/
def Recorder.passes (sys : System Log) : List Pass :=
  match r.runWindows toLower go st out sys with
  | .error _ => []
  | .ok s => s.passes

section

variable {toLower go st r out} {categories mainCategories : List Category} {now : Int}

/-- The notes are those of the passes. -/
theorem foldl_status (steps : List Step) (s : Running Log) : ∃ passes,
    (steps.foldl (fun s step => r.runWindow go st out categories mainCategories now step s) s).passes =
        s.passes ++ passes ∧
      (steps.foldl (fun s step => r.runWindow go st out categories mainCategories now step s) s).status =
        passes.foldl Status.notePass s.status := by
  induction steps generalizing s with
  | nil => exact ⟨[], by simp, rfl⟩
  | cons step steps ih =>
    obtain ⟨passes, hpasses, hstatus⟩ := ih (r.runWindow go st out categories mainCategories now step s)
    rw [List.foldl_cons, hpasses, hstatus]
    unfold Recorder.runWindow
    split
    · exact ⟨passes, rfl, rfl⟩
    · exact ⟨_ :: passes, List.append_assoc _ _ _, rfl⟩

theorem run_status (sys : System Log) : (r.run toLower go st out sys).2.process.status =
    (r.passes toLower go st out sys).foldl Status.notePass sys.process.status := by
  have hload : (out.loadSizesOnce sys.settings sys.process).status = sys.process.status := by
    unfold Outside.loadSizesOnce
    split <;> rfl
  unfold Recorder.run Recorder.passes
  cases hrun : r.runWindows toLower go st out sys with
  | error result => rfl
  | ok s =>
    unfold Recorder.runWindows at hrun
    split at hrun
    · cases hrun
    · dsimp only at hrun
      split at hrun
      · cases hrun
      · split at hrun
        · cases hrun
        · obtain rfl := Except.ok.inj hrun
          obtain ⟨passes, hpasses, hstatus⟩ := foldl_status (r.resolutions toLower) _
          dsimp only
          rw [hpasses, hstatus]
          exact congrArg (passes.foldl Status.notePass) hload

end

/-! ## What the notes count -/

/-- Recording the window failed in a scope. -/
def FailedAll (window : String) (passes : List Pass) : Prop :=
  ∃ p ∈ passes, p.window = window ∧ p.all.error.isSome = true

def FailedMain (window : String) (passes : List Pass) : Prop :=
  ∃ p ∈ passes, p.window = window ∧ p.main.error.isSome = true

theorem failureCount_notePass (s : Status) (pass : Pass) (window : String) :
    (s.notePass pass).failureCount window =
      s.failureCount window + if pass.window = window ∧ pass.all.error.isSome = true then 1 else 0 := by
  unfold Status.notePass Status.note Status.failureCount
  cases pass.all.error.isSome with
  | false => simp
  | true =>
    by_cases hwindow : pass.window = window
    · simp [hwindow, Lists.lookup_assign]
    · simp [hwindow, Lists.lookup_assign, Ne.symm hwindow]

/-- The count of a window grows by the passes that failed over all domains. -/
theorem failureCount_foldl (s : Status) (passes : List Pass) (window : String) :
    (passes.foldl Status.notePass s).failureCount window = s.failureCount window +
      (passes.filter fun p => p.window = window ∧ p.all.error.isSome = true).length := by
  induction passes generalizing s with
  | nil => rfl
  | cons pass passes ih =>
    rw [List.foldl_cons, ih, failureCount_notePass, List.filter_cons]
    by_cases h : pass.window = window ∧ pass.all.error.isSome = true
    · simp [h]
      omega
    · simp [h]

theorem failureCount_grows_iff (s : Status) (passes : List Pass) (window : String) :
    s.failureCount window < (passes.foldl Status.notePass s).failureCount window ↔ FailedAll window passes := by
  rw [failureCount_foldl, Nat.lt_add_right_iff_pos, List.length_pos_iff_exists_mem]
  simp [FailedAll, List.mem_filter]

/-- In any history of runs and restarts, the count of a window grows in exactly the runs in
which recording it failed in a scope, if and only if it fails over all domains in every run
in which it fails over the main ones. -/
theorem failures_counted_iff (sys : System Log) (actions : List (Action Log)) (window : String) :
    (∀ before out after, actions = before ++ .run out :: after →
      ((r.after toLower go st sys before).process.status.failureCount window <
          (r.after toLower go st sys (before ++ [.run out])).process.status.failureCount window ↔
        FailedAll window (r.passes toLower go st out (r.after toLower go st sys before)) ∨
          FailedMain window (r.passes toLower go st out (r.after toLower go st sys before)))) ↔
    ∀ before out after, actions = before ++ .run out :: after →
      FailedMain window (r.passes toLower go st out (r.after toLower go st sys before)) →
        FailedAll window (r.passes toLower go st out (r.after toLower go st sys before)) := by
  refine forall₄_congr fun before out after _ => ?_
  have hrun : r.after toLower go st sys (before ++ [.run out]) =
      (r.run toLower go st out (r.after toLower go st sys before)).2 := by
    simp [Recorder.after, Recorder.step]
  rw [hrun, run_status, failureCount_grows_iff]
  tauto

/-! ## A window that stands still -/

/-- A recorder of days, which begins a day ago. -/
def dayRecorder : Recorder where
  opts := { defaultRecorder.opts with backfill := day, maxAge := 0, windows := [utf8 "1d"] }
  base_pos := defaultRecorder.base_pos

def webCatalog : Catalog := ⟨[⟨utf8 "web", [utf8 "web"], [utf8 "web"], true⟩]⟩

def webCategory : Category where
  name := utf8 "web"
  field := dayRecorder.opts.domainField
  phrases := [utf8 "web"]

/-- A run in which every query but the first fails. -/
def mainFails : Outside Int where
  clock := troubledRun.clock
  catalog := .ok webCatalog
  query := fun n => [.ok []].getD n (.error (.other (utf8 "timeout")))

theorem webCatalog_enabled : webCatalog.enabled = webCatalog.services := by
  simp [Catalog.enabled, webCatalog]

/-- The first query counts the only window there is over all domains; the second fails. -/
theorem mainFails_passes : dayRecorder.passes id plainLib emptyStore mainFails {} =
    (dayRecorder.runWindow plainLib emptyStore mainFails [webCategory] [webCategory] mainFails.clock.now resolutionDay
      (Recorder.beginning webCatalog {} (mainFails.loadSizesOnce {} {}) [])).passes := by
  have hcategories : webCatalog.categories id dayRecorder.opts.domainField = [webCategory] := by
    rw [Catalog.categories, webCatalog_enabled]
    rfl
  have hmain : webCatalog.mainCategories id dayRecorder.opts.domainField = [webCategory] := by
    rw [Catalog.mainCategories, webCatalog_enabled]
    rfl
  have hresolutions : dayRecorder.resolutions id = [resolutionDay] := by decide
  have hcatalog : mainFails.catalog = .ok webCatalog := rfl
  simp only [Recorder.passes, Recorder.runWindows, hcatalog, hcategories, hmain, hresolutions]
  rfl

/-- A day that fails only over the main domains stands still, and no failure is counted. -/
theorem main_failure_unseen :
    FailedMain "1d" (dayRecorder.passes id plainLib emptyStore mainFails {}) ∧
      (dayRecorder.after id plainLib emptyStore {} [.run mainFails]).process.status.failureCount "1d" = 0 ∧
      (dayRecorder.after id plainLib emptyStore {} [.run mainFails]).process.status.recorded = [] := by
  have hstatus : (dayRecorder.after id plainLib emptyStore {} [.run mainFails]).process.status =
      (dayRecorder.passes id plainLib emptyStore mainFails {}).foldl Status.notePass {} := run_status {}
  rw [hstatus, FailedMain, mainFails_passes]
  decide +kernel

end Syslogc.Trends
