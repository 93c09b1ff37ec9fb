-- SUMMARY: What reconciling keeps when listeners fail to start.
import Syslogc.Supervisor.Reconcile

/-!
# Failed moves and unchanged sources

`Tidy` holds after every history of reconciliations, whatever starts fail: what is held
under a name belongs to the definition that is kept for it. Other than `Inventory` it
allows for listeners that are live and held nowhere.
-/

namespace Syslogc.Supervisor

open Config

/-! ## What holds under every name -/

/-- What is held under the name belongs to the definition that is kept for it. -/
structure Slot.Fits (v : Slot) : Prop where
  running : ∀ l, v.running = some l → ∃ d, v.desired = some d ∧ d.source = l.config
  place : ∀ x, v.place = some x → isHTTP x = true ∧ x.isEnabled = true ∧ ∃ d, v.desired = some d ∧ d.source = x

namespace Slot

variable {v : Slot} {d prev : Desired} {o : Outcome} {id : Nat}

theorem Fits.running_none (h : v.Fits) (hd : v.desired = none) : v.running = none := by
  cases hl : v.running with
  | none => rfl
  | some l =>
    obtain ⟨d, hd', -⟩ := h.running l hl
    cases hd.symm.trans hd'

theorem Fits.place_none (h : v.Fits) (hd : ∀ d, v.desired = some d → isHTTP d.source = false) : v.place = none := by
  cases hx : v.place with
  | none => rfl
  | some x =>
    obtain ⟨hhttp, -, d, hd', rfl⟩ := h.place x hx
    cases hhttp.symm.trans (hd d hd')

/-- A source that is stopped holds nothing. -/
theorem Fits.stopped_place (h : v.Fits) (hprev : v.desired = some prev) : (v.stopped prev.source).place = none := by
  by_cases hhttp : isHTTP prev.source = true
  · simp [stopped, hhttp]
  · simp only [stopped, hhttp]
    apply h.place_none
    intro d hd
    cases hprev.symm.trans hd
    simpa using hhttp

theorem fits_empty {place : Option Source} (h : place = none) : Fits ⟨View.empty, place⟩ := by
  subst h
  exact ⟨by rintro l ⟨⟩, by rintro x ⟨⟩⟩

/-- A source that held nothing holds what `apply` gave it. -/
theorem fits_applied (hrunning : v.running = none) (hplace : v.place = none)
    (ho : o = .http → isHTTP d.source = true ∧ d.source.isEnabled = true) : (v.applied d o id).Fits := by
  constructor
  · intro l hl
    simp only [applied] at hl
    split at hl
    · cases hl
      exact ⟨d, rfl, rfl⟩
    · cases hrunning.symm.trans hl
  · intro x hx
    simp only [applied] at hx
    split at hx
    next hhttp =>
      cases hx
      exact ⟨(ho hhttp).1, (ho hhttp).2, d, rfl, rfl⟩
    next => cases hplace.symm.trans hx

theorem Fits.pass (h : v.Fits) (ho : o = .http → isHTTP d.source = true ∧ d.source.isEnabled = true) :
    (v.pass d o id).Fits := by
  unfold Slot.pass
  split
  · exact h
  · split
    next hnone =>
      refine fits_applied (h.running_none hnone) (h.place_none fun d hd => ?_) ho
      cases hnone.symm.trans hd
    next prev hprev =>
      split
      · exact fits_applied rfl (h.stopped_place hprev) ho
      · unfold settled
        split
        next hrunning =>
          -- The replacement serves: the new listener is stopped again, a new place stays.
          refine ⟨by rintro l ⟨⟩, fun x hx => ?_⟩
          simp only [stopped, applied] at hx
          split at hx
          · cases hx
          · rename_i hprevHTTP
            split at hx
            next hhttp =>
              cases hx
              exact ⟨(ho hhttp).1, (ho hhttp).2, d, rfl, rfl⟩
            next =>
              obtain ⟨hhttp, -, d', hd', rfl⟩ := h.place x hx
              cases hprev.symm.trans hd'
              exact absurd hhttp hprevHTTP
        next hrunning =>
          have hnot : ¬(o = .http ∨ ∃ addr, o = .listening addr) := by
            simpa [applied, Slot.status_running_iff] using hrunning
          rw [not_or] at hnot
          constructor
          · intro l hl
            obtain ⟨d', hd', hconfig⟩ := h.running l (by
              simp only [applied] at hl
              split at hl
              next addr => exact absurd ⟨addr, rfl⟩ hnot.2
              next => exact hl)
            cases hprev.symm.trans hd'
            exact ⟨⟨prev.source, d.origin⟩, rfl, hconfig⟩
          · intro x hx
            simp only [applied, if_neg hnot.1] at hx
            obtain ⟨hhttp, hon, d', hd', hx'⟩ := h.place x hx
            cases hprev.symm.trans hd'
            exact ⟨hhttp, hon, ⟨prev.source, d.origin⟩, rfl, hx'⟩

end Slot

/-! ## The listeners that are held are live -/

variable {s s' : State} {env : Env} {ds : List Desired}

theorem Tracked.applyOne (hs : Tracked s) (d : Desired) : Tracked (s.applyOne env d) := by
  unfold State.applyOne State.launch
  cases s.outcome env d.source with
  | listening addr => exact (hs.startListener d.source addr).congr rfl rfl rfl
  | _ => exact hs.congr rfl rfl rfl

theorem Tracked.reconcile (hs : Tracked s) : Tracked (s.reconcile env ds) := by
  rw [State.reconcile_eq, State.restart, State.applied, State.apply]
  have hbefore := tracked_stops.stopBefore (tracked_stops.removeUnwanted hs ds)
  exact tracked_stops.stopAfter (List.foldlRecOn _ _ (hbefore _) fun _ hs d _ => hs.applyOne d) _

/-! ## Histories -/

/-- What holds after every history of reconciliations. -/
structure Tidy (s : State) : Prop where
  tracked : Tracked s
  named : s.Named
  fits : ∀ n, (s.slot n).Fits

theorem Tidy.init : Tidy {} := by
  refine ⟨⟨by simp, by simp, by simp⟩, by simp [State.Named], fun n => ?_⟩
  exact Slot.fits_empty rfl

theorem Tidy.removeUnwanted (hs : Tidy s) (ds : List Desired) : Tidy (s.removeUnwanted ds) := by
  refine ⟨tracked_stops.removeUnwanted hs.tracked ds, hs.named.removeUnwanted ds, fun n => ?_⟩
  obtain ⟨h, -⟩ | ⟨prev, hprev, h⟩ := s.removeUnwanted_slot ds n
  · rw [h]
    exact hs.fits n
  · rw [h]
    exact Slot.fits_empty ((hs.fits n).stopped_place hprev)

theorem Tidy.restart (hs : Tidy s) (hnames : (ds.map Desired.name).Nodup) (n : String) :
    ((s.restart env ds).slot n).Fits := by
  by_cases hn : ∀ d ∈ ds, n ≠ d.name
  · rw [State.restart_slot_ne _ hs.named hn]
    exact hs.fits n
  · obtain ⟨d, hd, rfl⟩ : ∃ d ∈ ds, n = d.name := by simpa using hn
    rw [State.restart_slot _ hs.named hnames hd]
    exact (hs.fits d.name).pass fun ho => (State.outcome_http ho).2

theorem Tidy.reconcile (hs : Tidy s) (hnames : (ds.map Desired.name).Nodup) : Tidy (s.reconcile env ds) := by
  have hremoved := hs.removeUnwanted ds
  refine ⟨hs.tracked.reconcile, ?_, ?_⟩
  · rw [State.reconcile_eq]
    exact hremoved.named.restart hnames
  · rw [State.reconcile_eq]
    exact hremoved.restart hnames

/-- Reconcile with one list after the other. -/
def State.reconciles (s : State) (history : List (Env × List Desired)) : State :=
  history.foldl (fun s pass => s.reconcile pass.1 pass.2) s

theorem Tidy.reconciles (hs : Tidy s) {history : List (Env × List Desired)}
    (hnames : ∀ pass ∈ history, (pass.2.map Desired.name).Nodup) : Tidy (s.reconciles history) := by
  induction history generalizing s with
  | nil => exact hs
  | cons pass history ih =>
    exact ih (hs.reconcile (hnames pass List.mem_cons_self)) fun p hp => hnames p (List.mem_cons_of_mem _ hp)

theorem State.stopBefore_started (s : State) (ds : List Desired) : (s.stopBefore ds).1.started = s.started := by
  induction ds generalizing s with
  | nil => rfl
  | cons d ds ih =>
    rw [State.stopBefore]
    split
    · exact ih s
    · split
      · exact ih _
      · exact ih s

theorem State.started_le_apply (env : Env) (s : State) (ds : List Desired) :
    s.started.length ≤ (s.apply env ds).started.length := by
  induction ds generalizing s with
  | nil => exact le_rfl
  | cons d ds ih =>
    refine le_trans ?_ (ih (s.applyOne env d))
    unfold State.applyOne State.launch
    cases s.outcome env d.source with
    | listening addr => simp [State.record, State.startListener]
    | _ => exact le_rfl

theorem State.removeUnwanted_started (s : State) (ds : List Desired) : (s.removeUnwanted ds).started = s.started := by
  unfold State.removeUnwanted
  generalize s.desired.entries = es
  induction es generalizing s with
  | nil => rfl
  | cons e es ih =>
    rw [List.foldl_cons, ih]
    unfold State.keepOrRemove
    split <;> rfl

/-- A pass over a source of the list; a listener it starts has a new number. -/
theorem Tidy.reconcile_slot (hs : Tidy s) (env : Env) (hnames : (ds.map Desired.name).Nodup) {d : Desired}
    (hd : d ∈ ds) :
    ∃ o id, s.started.length ≤ id ∧ (s.reconcile env ds).slot d.name = (s.slot d.name).pass d o id := by
  refine ⟨(s.removeUnwanted ds).atTurn env ds d, ((s.removeUnwanted ds).turn env ds d).started.length, ?_, ?_⟩
  · rw [← s.removeUnwanted_started ds, ← State.stopBefore_started _ ((s.removeUnwanted ds).changed ds)]
    exact State.started_le_apply _ _ _
  · rw [State.reconcile_eq, State.restart_slot _ (hs.removeUnwanted ds).named hnames hd,
      s.removeUnwanted_slot_wanted hd]

/-! ## Failed moves -/

section Pass

variable {v : Slot} {d prev : Desired} {o : Outcome} {id : Nat} {l : Listener}

/-- A move whose replacement does not start leaves the old listener and its definition. -/
theorem Slot.pass_failed (hprev : v.desired = some prev) (hmoves : v.stopsFirst prev.source d = false)
    (herror : ∃ st, (v.pass d o id).status = some st ∧ st.state = .error) :
    (v.pass d o id).running = v.running ∧ (v.pass d o id).desired = some ⟨prev.source, d.origin⟩ := by
  obtain ⟨st, hst, hstate⟩ := herror
  rw [Slot.pass_of_moves hprev hmoves] at hst ⊢
  unfold Slot.settled at hst ⊢
  by_cases hrunning : ((v.applied d o id).status.any (·.state = .running)) = true
  · -- A replacement that serves is reported stopped.
    rw [if_pos hrunning] at hst
    have hserves : (d.status o).state = .running := by simpa [Slot.applied] using hrunning
    simp only [Slot.stopped, View.stopped, Slot.applied, Option.map_some, if_pos hserves, Option.some.injEq] at hst
    subst hst
    cases hstate
  · rw [if_neg hrunning]
    refine ⟨?_, rfl⟩
    have hnot : ¬(o = .http ∨ ∃ addr, o = .listening addr) := by
      simpa [Slot.applied, Slot.status_running_iff] using hrunning
    cases o with
    | listening addr => exact absurd (.inr ⟨addr, rfl⟩) hnot
    | _ => rfl

/-- A source whose definition is the same keeps its listener only if its origin is the same too. -/
theorem Slot.pass_same_iff (hprev : v.desired = some prev) (hsame : prev.source = d.source) (hl : v.running = some l)
    (hid : l.id < id) : (v.pass d o id).running = some l ↔ prev.origin = d.origin := by
  constructor
  · intro hkept
    by_contra horigin
    have hne : prev ≠ d := fun heq => horigin (congrArg _ heq)
    have hfirst : v.stopsFirst prev.source d = true := by simp [Slot.stopsFirst, sameBind, hsame]
    rw [Slot.pass_of_first hprev hne hfirst] at hkept
    cases o with
    | listening addr =>
      cases hkept
      exact lt_irrefl _ hid
    | _ => cases hkept
  · intro horigin
    have heq : v.desired = some d := by rw [hprev, Option.some.injEq, Desired.mk.injEq]; exact ⟨hsame, horigin⟩
    rw [Slot.pass_of_same heq]
    exact hl

end Pass

/-- After every history of reconciliations in which any starts fail. If the replacement of
a running source that moves does not start, its old listener is live and held as before,
and the old definition is kept, with which the same list moves the source again. And a
source that has a listener, and whose configuration is the same, keeps it if and only if
its origin is the same too. -/
theorem reconcile_keeps_iff {history : List (Env × List Desired)}
    (hhistory : ∀ pass ∈ history, (pass.2.map Desired.name).Nodup) (env : Env) {ds : List Desired}
    (hnames : (ds.map Desired.name).Nodup) {d prev : Desired} {l : Listener} (hd : d ∈ ds) :
    let s := State.reconciles {} history
    let s' := s.reconcile env ds
    s.desired.lookup d.name = some prev → s.running.lookup d.name = some l →
      (sameBind prev.source d.source = false ∧ s.boundTo d.source = false ∧ d.source.isEnabled = true →
        (∃ st, s'.status.lookup d.name = some st ∧ st.state = .error) →
        (s'.running.lookup d.name = some l ∧ l ∈ s'.live) ∧
          s'.desired.lookup d.name = some ⟨prev.source, d.origin⟩ ∧
          d ∈ (s'.removeUnwanted ds).changed ds ∧ (s'.removeUnwanted ds).Moves d prev.source) ∧
      (prev.source = d.source →
        (s'.running.lookup d.name = some l ∧ l ∈ s'.live ↔ prev.origin = d.origin)) := by
  intro s s' hprev hl
  have hs : Tidy s := Tidy.init.reconciles hhistory
  have hs' : Tidy s' := hs.reconcile hnames
  have hlive (hheld : s'.running.lookup d.name = some l) : l ∈ s'.live := (hs'.tracked.held d.name l hheld).1
  obtain ⟨o, id, hid, hslot⟩ := hs.reconcile_slot env hnames hd
  have hrunning : (s'.slot d.name).running = s'.running.lookup d.name := rfl
  have hdesired : (s'.slot d.name).desired = s'.desired.lookup d.name := rfl
  rw [hslot] at hrunning hdesired
  refine ⟨fun ⟨hbind, hbound, hon⟩ herror => ?_, fun hsame => ?_⟩
  · have hmoves : (s.slot d.name).stopsFirst prev.source d = false := by
      rw [← State.stopsFirst_eq, State.stopsFirst, hbind, hbound, hon]
      rfl
    have hstatus : (s'.slot d.name).status = s'.status.lookup d.name := rfl
    rw [← hstatus, hslot] at herror
    obtain ⟨hkept, hback⟩ := Slot.pass_failed hprev hmoves herror
    have hheld : s'.running.lookup d.name = some l := hrunning.symm.trans (hkept.trans hl)
    have hprev' : s'.desired.lookup d.name = some ⟨prev.source, d.origin⟩ := hdesired.symm.trans hback
    have hremoved := s'.removeUnwanted_slot_wanted hd
    have hmoves' : (s'.removeUnwanted ds).Moves d prev.source := by
      refine ⟨⟨prev.source, d.origin⟩, (congrArg (fun v => v.desired) hremoved).trans hprev', ?_, rfl⟩
      rw [State.stopsFirst_eq, hremoved, ← hmoves]
      unfold Slot.stopsFirst Slot.boundTo
      rw [hslot, hkept]
    refine ⟨⟨hheld, hlive hheld⟩, hprev', State.mem_changed.mpr ⟨hd, ?_⟩, hmoves'⟩
    intro heq
    obtain ⟨_, hprev'', hlater, -⟩ := hmoves'
    cases heq.symm.trans hprev''
    rw [State.stopsFirst_eq] at hlater
    exact Slot.ne_of_moves hlater rfl
  · have hlt : l.id < id := (hs.tracked.id_lt (State.mem_live.mp (hs.tracked.held d.name l hl).1).1).trans_le hid
    have hiff : ((s.slot d.name).pass d o id).running = some l ↔ prev.origin = d.origin :=
      Slot.pass_same_iff hprev hsame hl hlt
    rw [hrunning] at hiff
    exact ⟨fun hkept => hiff.mp hkept.1, fun horigin => ⟨hiff.mpr horigin, hlive (hiff.mpr horigin)⟩⟩

/-- A source of the configuration file is adopted: the same source comes from the database. -/
def adopted : Desired := { syslogAt "a" "127.0.0.1:514" with origin := .database }

theorem adopted_restarts :
    ∃ s l, State.reconciles {} [(allStart, [syslogAt "a" "127.0.0.1:514"])] = s ∧ s.running.lookup "a" = some l ∧
      adopted.source = (syslogAt "a" "127.0.0.1:514").source ∧
      (s.reconcile allStart [adopted]).running.lookup "a" ≠ some l ∧ l ∉ (s.reconcile allStart [adopted]).live :=
  ⟨_, _, rfl, rfl, rfl, by decide, by decide⟩

def noneStarts : Env := ⟨fun _ _ => .error "address in use", fun _ => .ok ()⟩

/-- A source that cannot move keeps its listener and its definition. -/
theorem reconcile_keeps_iff_failedMove :
    let s := State.reconciles {} [(allStart, [syslogAt "a" "127.0.0.1:514"])]
    let s' := s.reconcile noneStarts [syslogAt "a" "127.0.0.1:515"]
    s'.running.lookup "a" = some ⟨0, (syslogAt "a" "127.0.0.1:514").source, "127.0.0.1:514"⟩ ∧
      s'.desired.lookup "a" = some (syslogAt "a" "127.0.0.1:514") := by
  have hhistory : ∀ pass ∈ [(allStart, [syslogAt "a" "127.0.0.1:514"])], (pass.2.map Desired.name).Nodup := by
    intro pass hpass
    obtain rfl := List.mem_singleton.mp hpass
    decide
  have hnames : ([syslogAt "a" "127.0.0.1:515"].map Desired.name).Nodup := by decide
  have hprev : (State.reconciles {} [(allStart, [syslogAt "a" "127.0.0.1:514"])]).desired.lookup "a" =
      some (syslogAt "a" "127.0.0.1:514") := rfl
  have hl : (State.reconciles {} [(allStart, [syslogAt "a" "127.0.0.1:514"])]).running.lookup "a" =
      some ⟨0, (syslogAt "a" "127.0.0.1:514").source, "127.0.0.1:514"⟩ := rfl
  have hkeeps := (reconcile_keeps_iff hhistory noneStarts hnames (List.mem_singleton.mpr rfl) hprev hl).1
    ⟨by decide, by decide, rfl⟩ ⟨_, rfl, rfl⟩
  exact ⟨hkeeps.1.1, hkeeps.2.1⟩

end Syslogc.Supervisor
