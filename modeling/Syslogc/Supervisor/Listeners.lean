-- SUMMARY: What stopping and starting do to each name.
import Syslogc.Supervisor.Supervisor

/-!
# Listeners

`Tracked` says that the listeners held in `running` were started and not stopped, and
`Inventory` that there are no others. Stopping keeps both; starting keeps `Inventory`
where nothing is held under the name. Each step acts on one name, so what it leaves under
a name is read off `State.slot`, the part of the state that belongs to it.
-/

namespace Syslogc.Supervisor

open Config

/-! ## What belongs to a name -/

@[ext] structure View where
  running : Option Listener
  desired : Option Desired
  status : Option Status

def State.view (s : State) (n : String) : View :=
  ⟨s.running.lookup n, s.desired.lookup n, s.status.lookup n⟩

@[ext] structure Slot extends View where
  /-- The definition of the active `http_json` source, if it has the name. -/
  place : Option Source

def State.slot (s : State) (n : String) : Slot :=
  { s.view n with place := s.httpSource.filter (·.name = n) }

/-- What is left under the name of a source that is stopped. -/
def View.stopped (v : View) : View where
  running := none
  desired := v.desired
  status := v.status.map fun st => if st.state = .running then { st with state := .stopped } else st

def View.empty : View := ⟨none, none, none⟩

namespace Slot

def stopped (v : Slot) (prev : Source) : Slot :=
  { v.toView.stopped with place := if isHTTP prev then none else v.place }

/-- What `apply` leaves of a source, with the number a listener would get. -/
def applied (v : Slot) (d : Desired) (o : Outcome) (id : Nat) : Slot where
  running := match o with
    | .listening addr => some ⟨id, d.source, addr⟩
    | _ => v.running
  desired := some d
  status := some (d.status o)
  place := if o = .http then some d.source else v.place

/-- What is left of a source that moved. -/
def settled (v : Slot) (p : Source) : Slot :=
  if v.status.any (·.state = .running) then v.stopped p
  else { v with desired := v.desired.map fun d => ⟨p, d.origin⟩ }

def boundTo (v : Slot) (sc : Source) : Bool :=
  v.running.any fun l => l.config.type = sc.type && l.config.protocol = sc.protocol && l.addr = sc.address

def stopsFirst (v : Slot) (prev : Source) (d : Desired) : Bool :=
  sameBind prev d.source || v.boundTo d.source || !d.source.isEnabled

/-- What is left of a source that is removed. -/
def removed (v : Slot) (prev : Source) : Slot := ⟨View.empty, if isHTTP prev then none else v.place⟩

/-- One pass over a source of the list. -/
def pass (v : Slot) (d : Desired) (o : Outcome) (id : Nat) : Slot :=
  if v.desired = some d then v
  else
    match v.desired with
    | none => v.applied d o id
    | some prev =>
      if v.stopsFirst prev.source d then (v.stopped prev.source).applied d o id
      else (v.applied d o id).settled prev.source

end Slot

variable {s s' : State} {env : Env} {n name : String}

theorem State.stopsFirst_eq (s : State) (prev : Source) (d : Desired) :
    s.stopsFirst prev d = (s.slot d.name).stopsFirst prev d := by
  unfold State.stopsFirst Slot.stopsFirst State.boundTo Slot.boundTo
  show _ = (sameBind prev d.source || (s.running.lookup d.source.name).any _ || _)
  cases s.running.lookup d.source.name <;> rfl

/-! ## Steps on another name -/

theorem reportStopped_lookup_ne (status : Names Status) (h : n ≠ name) :
    (reportStopped status name).lookup n = status.lookup n := by
  unfold reportStopped
  split
  · rfl
  · exact AList.lookup_insert_ne h

theorem State.stopSource_slot_ne (s : State) (prev : Source) (h : n ≠ name) :
    (s.stopSource name prev).slot n = s.slot n := by
  apply Slot.ext
  · exact AList.lookup_erase_ne h
  · rfl
  · simp only [State.slot, State.view, State.stopSource]
    split
    · exact reportStopped_lookup_ne _ h
    · rfl
  · simp only [State.slot, State.stopSource]
    cases hplace : s.httpSource with
    | none => simp
    | some x =>
      by_cases hx : x.name = name
      · have hxn : x.name ≠ n := fun heq => h (heq.symm.trans hx)
        split <;> simp [Option.filter_some, hxn]
      · simp [hx]

theorem State.remove_slot_ne (s : State) (prev : Source) (h : n ≠ name) :
    (s.remove name prev).slot n = s.slot n := by
  have hstop := s.stopSource_slot_ne prev h
  have hplace := congrArg Slot.place hstop
  apply Slot.ext
  · exact AList.lookup_erase_ne h
  · exact AList.lookup_erase_ne h
  · exact (AList.lookup_erase_ne h).trans (congrArg (·.status) hstop)
  · exact hplace

theorem State.keepOrRemove_slot_ne (ds : List Desired) (s : State) (e : Σ _ : String, Desired) (n : String)
    (h : n ≠ e.1) : (s.keepOrRemove ds e).slot n = s.slot n := by
  unfold State.keepOrRemove
  split
  · rfl
  · exact s.remove_slot_ne _ h

/-- The place of the `http_json` source is only taken if it is free. -/
theorem State.outcome_http {sc : Source} (h : s.outcome env sc = .http) :
    s.httpSource = none ∧ isHTTP sc = true ∧ sc.isEnabled = true := by
  unfold State.outcome at h
  split at h
  · cases h
  · rename_i hon
    split at h
    · rename_i hhttp
      split at h
      · cases h
      · cases h
      · exact ⟨‹_›, hhttp, by simpa using hon⟩
    · split at h <;> cases h

theorem State.applyOne_httpSource (env : Env) (s : State) (d : Desired) : (s.applyOne env d).httpSource =
    if s.outcome env d.source = .http then some d.source else s.httpSource := by
  unfold State.applyOne State.record State.launch
  cases s.outcome env d.source <;> rfl

theorem State.applyOne_slot_ne (env : Env) (s : State) (d : Desired) (n : String) (h : n ≠ d.name) :
    (s.applyOne env d).slot n = s.slot n := by
  apply Slot.ext
  · simp only [State.slot, State.view, State.applyOne, State.record, State.launch]
    cases s.outcome env d.source with
    | listening addr => exact AList.lookup_insert_ne h
    | _ => rfl
  · refine (AList.lookup_insert_ne h).trans ?_
    cases s.outcome env d.source <;> rfl
  · refine (AList.lookup_insert_ne h).trans ?_
    cases s.outcome env d.source <;> rfl
  · simp only [State.slot, State.applyOne_httpSource]
    split
    next ho =>
      have hname : d.source.name ≠ n := fun heq => h heq.symm
      simp [(State.outcome_http ho).1, hname]
    next => rfl

theorem State.stopAfter_slot_ne (s : State) (p : Source) (n : String) (h : n ≠ p.name) :
    (s.stopAfter p).slot n = s.slot n := by
  unfold State.stopAfter
  split
  · exact s.stopSource_slot_ne p h
  · unfold State.restore
    split
    · rfl
    · exact Slot.ext rfl (AList.lookup_insert_ne h) rfl rfl

/-! ## Steps on the name itself -/

theorem State.stopSource_slot (s : State) (prev : Source) (name : String) :
    (s.stopSource name prev).slot name = (s.slot name).stopped prev := by
  apply Slot.ext
  · exact AList.lookup_erase _ _
  · rfl
  · simp only [State.slot, State.view, State.stopSource, Slot.stopped, View.stopped]
    cases hst : s.status.lookup name with
    | none => simp [hst]
    | some st =>
      by_cases hrunning : st.state = .running
      · simp [reportStopped, hst, hrunning]
      · simp [hst, hrunning]
  · simp only [State.slot, State.stopSource, Slot.stopped]
    cases hplace : s.httpSource with
    | none => simp
    | some x =>
      by_cases hx : x.name = name
      · by_cases hprev : isHTTP prev <;> simp [hx, hprev]
      · simp [hx]

theorem State.remove_slot (s : State) (prev : Source) (name : String) :
    (s.remove name prev).slot name = (s.slot name).removed prev := by
  have hplace := congrArg Slot.place (s.stopSource_slot prev name)
  apply Slot.ext
  · exact AList.lookup_erase _ _
  · exact AList.lookup_erase _ _
  · exact AList.lookup_erase _ _
  · exact hplace

theorem State.applyOne_slot (env : Env) (s : State) (d : Desired) : (s.applyOne env d).slot d.name =
    (s.slot d.name).applied d (s.outcome env d.source) s.started.length := by
  apply Slot.ext
  · simp only [State.slot, State.view, State.applyOne, State.record, State.launch, Slot.applied]
    cases s.outcome env d.source with
    | listening addr => exact AList.lookup_insert _
    | _ => rfl
  · exact AList.lookup_insert _
  · exact AList.lookup_insert _
  · simp only [State.slot, State.applyOne_httpSource, Slot.applied]
    split
    · simp [Desired.name]
    · rfl

theorem State.stopAfter_slot (s : State) (p : Source) : (s.stopAfter p).slot p.name = (s.slot p.name).settled p := by
  have hstatus : (s.slot p.name).status = s.status.lookup p.name := rfl
  unfold State.stopAfter Slot.settled
  rw [hstatus]
  split
  · exact s.stopSource_slot p p.name
  · unfold State.restore
    cases hd : s.desired.lookup p.name with
    | none =>
      apply Slot.ext
      · rfl
      · simp [State.slot, State.view, hd]
      · rfl
      · rfl
    | some d =>
      apply Slot.ext
      · rfl
      · simp [State.slot, State.view, hd]
      · rfl
      · rfl

/-! ## The listeners there are -/

/-- The listeners are numbered, and those that are held are live. -/
structure Tracked (s : State) : Prop where
  numbered : ∀ (i : Nat) (l : Listener), s.started[i]? = some l → l.id = i
  stopped : ∀ id ∈ s.stopped, id < s.started.length
  held : ∀ (n : String) (l : Listener), s.running.lookup n = some l → l ∈ s.live ∧ l.config.name = n

/-- The listeners that were started and not stopped are those in `running`. -/
structure Inventory (s : State) : Prop extends Tracked s where
  live : ∀ l ∈ s.live, s.running.lookup l.config.name = some l

section Inventory

variable {l l' : Listener}

theorem State.mem_live : l ∈ s.live ↔ l ∈ s.started ∧ l.id ∉ s.stopped := by
  simp [State.live]

theorem State.live_congr (hstarted : s'.started = s.started) (hstopped : s'.stopped = s.stopped) :
    s'.live = s.live := by
  rw [State.live, State.live, hstarted, hstopped]

theorem Tracked.congr (hs : Tracked s) (hrunning : s'.running = s.running) (hstarted : s'.started = s.started)
    (hstopped : s'.stopped = s.stopped) : Tracked s' :=
  ⟨by rw [hstarted]; exact hs.numbered, by rw [hstarted, hstopped]; exact hs.stopped,
    by rw [hrunning, State.live_congr hstarted hstopped]; exact hs.held⟩

theorem Inventory.congr (hs : Inventory s) (hrunning : s'.running = s.running) (hstarted : s'.started = s.started)
    (hstopped : s'.stopped = s.stopped) : Inventory s' :=
  ⟨hs.toTracked.congr hrunning hstarted hstopped,
    by rw [hrunning, State.live_congr hstarted hstopped]; exact hs.live⟩

theorem Tracked.id_lt (hs : Tracked s) (hl : l ∈ s.started) : l.id < s.started.length := by
  obtain ⟨i, hi⟩ := List.mem_iff_getElem?.mp hl
  rw [hs.numbered i l hi]
  exact (List.getElem?_eq_some_iff.mp hi).1

/-- Two listeners with one number are one listener. -/
theorem Tracked.id_unique (hs : Tracked s) (hl : l ∈ s.started) (hl' : l' ∈ s.started) (h : l.id = l'.id) :
    l = l' := by
  obtain ⟨i, hi⟩ := List.mem_iff_getElem?.mp hl
  obtain ⟨j, hj⟩ := List.mem_iff_getElem?.mp hl'
  have hij : i = j := by rw [← hs.numbered i l hi, ← hs.numbered j l' hj, h]
  rw [hij, hj] at hi
  exact (Option.some_injective _ hi).symm

theorem Tracked.stopSource (hs : Tracked s) (name : String) (prev : Source) : Tracked (s.stopSource name prev) := by
  refine ⟨hs.numbered, fun id hid => ?_, fun n l hl => ?_⟩
  · obtain hid | hid := List.mem_append.mp hid
    · obtain ⟨l, hl, rfl⟩ := Option.map_eq_some_iff.mp (Option.mem_toList.mp hid)
      exact hs.id_lt (State.mem_live.mp (hs.held name l hl).1).1
    · exact hs.stopped id hid
  · by_cases hn : n = name
    · rw [hn] at hl
      exact absurd hl (by simp [State.stopSource])
    · rw [State.stopSource, AList.lookup_erase_ne hn] at hl
      obtain ⟨hlive, hname⟩ := hs.held n l hl
      obtain ⟨hstarted, hnot⟩ := State.mem_live.mp hlive
      refine ⟨State.mem_live.mpr ⟨hstarted, fun hid => ?_⟩, hname⟩
      obtain hid | hid := List.mem_append.mp hid
      · obtain ⟨l', hl', hid⟩ := Option.map_eq_some_iff.mp (Option.mem_toList.mp hid)
        obtain ⟨hlive', hname'⟩ := hs.held name l' hl'
        obtain rfl := hs.id_unique (State.mem_live.mp hlive').1 hstarted hid
        exact hn (hname.symm.trans hname')
      · exact hnot hid

/-- Stopping takes the listener under the name out of the live ones. -/
theorem Inventory.stopSource (hs : Inventory s) (name : String) (prev : Source) :
    Inventory (s.stopSource name prev) := by
  refine ⟨hs.toTracked.stopSource name prev, fun l hl => ?_⟩
  obtain ⟨hstarted, hnot⟩ := State.mem_live.mp hl
  obtain ⟨hother, hnot⟩ := not_or.mp (mt List.mem_append.mpr hnot)
  have hheld := hs.live l (State.mem_live.mpr ⟨hstarted, hnot⟩)
  have hname : l.config.name ≠ name := by
    rintro rfl
    simp [hheld] at hother
  rw [State.stopSource, AList.lookup_erase_ne hname]
  exact hheld

/-- A new listener may take the place of another one, which then is held nowhere. -/
theorem Tracked.startListener (hs : Tracked s) (sc : Source) (addr : String) : Tracked (s.startListener sc addr) := by
  have hnew : s.started.length ∉ s.stopped := fun hid => lt_irrefl _ (hs.stopped _ hid)
  refine ⟨fun i l hl => ?_, fun id hid => ?_, fun n l hl => ?_⟩
  · simp only [State.startListener, List.getElem?_append] at hl
    split at hl
    · exact hs.numbered i l hl
    · rename_i hi
      obtain ⟨hlt, rfl⟩ := List.getElem?_eq_some_iff.mp hl
      simp only [List.length_singleton] at hlt
      simp only [List.getElem_singleton]
      omega
  · exact (hs.stopped id hid).trans_le (by simp [State.startListener])
  · by_cases hn : n = sc.name
    · subst hn
      simp only [State.startListener, AList.lookup_insert, Option.some.injEq] at hl
      subst hl
      exact ⟨State.mem_live.mpr ⟨by simp [State.startListener], hnew⟩, rfl⟩
    · rw [State.startListener, AList.lookup_insert_ne hn] at hl
      obtain ⟨hlive, hname⟩ := hs.held n l hl
      obtain ⟨hstarted, hnot⟩ := State.mem_live.mp hlive
      exact ⟨State.mem_live.mpr ⟨List.mem_append_left _ hstarted, hnot⟩, hname⟩

/-- A listener may be started where none is held. -/
theorem Inventory.startListener (hs : Inventory s) {sc : Source} (addr : String)
    (hfree : s.running.lookup sc.name = none) : Inventory (s.startListener sc addr) := by
  refine ⟨hs.toTracked.startListener sc addr, fun l hl => ?_⟩
  obtain ⟨hstarted, hnot⟩ := State.mem_live.mp hl
  obtain hold | hnew := List.mem_append.mp hstarted
  · have hrunning := hs.live l (State.mem_live.mpr ⟨hold, hnot⟩)
    have hne : l.config.name ≠ sc.name := fun heq => by
      rw [heq, hfree] at hrunning
      cases hrunning
    rw [State.startListener, AList.lookup_insert_ne hne]
    exact hrunning
  · obtain rfl := List.mem_singleton.mp hnew
    exact AList.lookup_insert _

/-- A property of the listeners that stopping a source keeps. -/
structure Stops (P : State → Prop) : Prop where
  congr : ∀ {s s' : State}, P s → s'.running = s.running → s'.started = s.started → s'.stopped = s.stopped → P s'
  stopSource : ∀ {s : State}, P s → ∀ name prev, P (s.stopSource name prev)

theorem tracked_stops : Stops Tracked := ⟨Tracked.congr, Tracked.stopSource⟩

theorem inventory_stops : Stops Inventory := ⟨Inventory.congr, Inventory.stopSource⟩

variable {P : State → Prop}

theorem Stops.removeUnwanted (hP : Stops P) (hs : P s) (ds : List Desired) : P (s.removeUnwanted ds) := by
  refine List.foldlRecOn _ _ hs fun s hs e _ => ?_
  unfold State.keepOrRemove
  split
  · exact hs
  · exact hP.congr (hP.stopSource hs e.1 e.2.source) rfl rfl rfl

theorem Stops.stopBefore (hP : Stops P) (hs : P s) (ds : List Desired) : P (s.stopBefore ds).1 := by
  induction ds generalizing s with
  | nil => exact hs
  | cons d ds ih =>
    rw [State.stopBefore]
    split
    · exact ih hs
    · split
      · exact ih (hP.stopSource hs _ _)
      · exact ih hs

theorem Stops.stopAfter (hP : Stops P) (hs : P s) (after : List Source) : P (after.foldl State.stopAfter s) := by
  refine List.foldlRecOn _ _ hs fun s hs prev _ => ?_
  unfold State.stopAfter State.restore
  split
  · exact hP.stopSource hs _ _
  · split
    · exact hs
    · exact hP.congr hs rfl rfl rfl

end Inventory

/-- Only an enabled syslog source gets a listener. -/
theorem State.listens_of_outcome {sc : Source} {addr : String} (h : s.outcome env sc = .listening addr) :
    sc.isEnabled = true ∧ isHTTP sc = false := by
  unfold State.outcome at h
  split at h
  · cases h
  · rename_i hon
    split at h
    · split at h <;> cases h
    · exact ⟨by simpa using hon, by simpa using ‹¬isHTTP sc = true›⟩

theorem Inventory.apply {ds : List Desired} (hs : Inventory s) (hnames : (ds.map Desired.name).Nodup)
    (hfree : ∀ d ∈ ds, d.source.isEnabled = true → isHTTP d.source = false → s.running.lookup d.name = none) :
    Inventory (s.apply env ds) := by
  induction ds generalizing s with
  | nil => exact hs
  | cons d ds ih =>
    rw [List.map_cons, List.nodup_cons] at hnames
    refine ih ?_ hnames.2 fun d' hd' hon hhttp => ?_
    · unfold State.applyOne State.launch
      cases ho : s.outcome env d.source with
      | listening addr =>
        obtain ⟨hon, hhttp⟩ := State.listens_of_outcome ho
        exact (hs.startListener addr (hfree d List.mem_cons_self hon hhttp)).congr rfl rfl rfl
      | _ => exact hs.congr rfl rfl rfl
    · have hne : d'.name ≠ d.name := fun heq => hnames.1 (heq ▸ List.mem_map_of_mem hd')
      have hslot := s.applyOne_slot_ne env d d'.name hne
      exact (congrArg (·.running) hslot).trans (hfree d' (List.mem_cons_of_mem d hd') hon hhttp)

end Syslogc.Supervisor
