-- SUMMARY: Whether reconciling over and over converges.
import Syslogc.Config.Load
import Syslogc.Supervisor.Retries

/-!
# Convergence

A pass leaves a source that is unchanged alone, also if its start failed, and it stops the
replacement of one that moves. So a source that does not run after the first pass does not
run after any other, and the first pass decides: `reconcile_converges_iff`.
-/

namespace Syslogc.Supervisor

open Config

/-! ## A source that runs -/

/-- The source runs with its listed configuration. -/
def State.Runs (s : State) (d : Desired) : Prop :=
  if isHTTP d.source then s.httpSource = some d.source
  else ∃ l ∈ s.live, s.running.lookup d.name = some l ∧ l.config = d.source

/-- The start gave the source a listener or the place of the `http_json` source. -/
def Outcome.Serves (o : Outcome) : Prop := o = .http ∨ ∃ addr, o = .listening addr

/-- The outcomes that a start of the source can have. -/
structure Outcome.Suits (o : Outcome) (d : Desired) : Prop where
  http : o = .http → isHTTP d.source = true ∧ d.source.isEnabled = true
  listening : ∀ addr, o = .listening addr → isHTTP d.source = false

theorem State.outcome_suits (env : Env) (s : State) (d : Desired) : (s.outcome env d.source).Suits d :=
  ⟨fun ho => (State.outcome_http ho).2, fun _ ho => (State.listens_of_outcome ho).2⟩

namespace Slot

def Runs (v : Slot) (d : Desired) : Prop :=
  if isHTTP d.source then v.place = some d.source else ∃ l, v.running = some l ∧ l.config = d.source

/-- The next pass leaves the source running, given what becomes of its start: it runs and
is unchanged, or it is new or stopped first or turned from a listener into the `http_json`
source, and its start succeeds. -/
def Ready (v : Slot) (d : Desired) (o : Outcome) : Prop :=
  match v.desired with
  | none => o.Serves
  | some prev =>
    if prev = d then v.Runs d
    else (v.stopsFirst prev.source d = true ∨ isHTTP d.source = true ∧ isHTTP prev.source = false) ∧ o.Serves

/-- The source is taken for settled and does not run, or each pass moves it again. -/
def Stuck (v : Slot) (d : Desired) : Prop :=
  v.desired = some d ∧ ¬v.Runs d ∨
    ∃ prev, v.desired = some prev ∧ v.stopsFirst prev.source d = false ∧
      (isHTTP d.source = true → isHTTP prev.source = true)

/-- The source is to give up its listener for the place of the `http_json` source. -/
def Waits (v : Slot) (d : Desired) : Prop :=
  isHTTP d.source = true ∧
    ∃ prev, v.desired = some prev ∧ v.stopsFirst prev.source d = false ∧ isHTTP prev.source = false

variable {v : Slot} {d prev : Desired} {o : Outcome} {id : Nat}

theorem applied_running_any : ((v.applied d o id).status.any (·.state = .running)) = true ↔ o.Serves := by
  simp [applied, status_running_iff, Outcome.Serves]

theorem settled_of_serves (ho : o.Serves) (p : Source) :
    (v.applied d o id).settled p = (v.applied d o id).stopped p :=
  if_pos (applied_running_any.mpr ho)

/-- A start that failed only leaves its mark on the definition and the status. -/
theorem applied_of_not_serves (ho : ¬o.Serves) :
    (v.applied d o id).running = v.running ∧ (v.applied d o id).place = v.place := by
  rw [Outcome.Serves, not_or] at ho
  refine ⟨?_, if_neg ho.1⟩
  cases o with
  | listening addr => exact absurd ⟨addr, rfl⟩ ho.2
  | _ => rfl

theorem settled_of_not_serves (ho : ¬o.Serves) (p : Source) : (v.applied d o id).settled p =
    { v.applied d o id with desired := some ⟨p, d.origin⟩ } :=
  if_neg (mt applied_running_any.mp ho)

theorem runs_applied_iff (hrunning : v.running = none) (hplace : v.place = none) (hsuits : o.Suits d) :
    (v.applied d o id).Runs d ↔ o.Serves := by
  unfold Runs applied Outcome.Serves
  cases o with
  | disabled => simp [hrunning, hplace]
  | failed e => simp [hrunning, hplace]
  | http => simp [(hsuits.http rfl).1]
  | listening addr => simp [hsuits.listening addr rfl]

theorem source_ne_of_moves (hmoves : v.stopsFirst prev.source d = false) : prev.source ≠ d.source := by
  intro heq
  simp [stopsFirst, sameBind, heq] at hmoves

/-- What runs under a name is what is kept for it. -/
theorem Fits.source_of_runs (h : v.Fits) (hruns : v.Runs d) :
    ∃ prev, v.desired = some prev ∧ prev.source = d.source := by
  unfold Runs at hruns
  split at hruns
  · exact (h.place _ hruns).2.2
  · obtain ⟨l, hl, hconfig⟩ := hruns
    obtain ⟨prev, hprev, hsource⟩ := h.running l hl
    exact ⟨prev, hprev, hsource.trans hconfig⟩

theorem Stuck.not_runs (h : v.Fits) (hstuck : v.Stuck d) : ¬v.Runs d := by
  intro hruns
  obtain ⟨-, hnot⟩ | ⟨prev, hprev, hmoves, -⟩ := hstuck
  · exact hnot hruns
  · obtain ⟨prev', hprev', hsource⟩ := h.source_of_runs hruns
    cases hprev.symm.trans hprev'
    exact source_ne_of_moves hmoves hsource

/-- A move that fails is made again. -/
theorem settled_moves (hmoves : v.stopsFirst prev.source d = false) (ho : ¬o.Serves) :
    ((v.applied d o id).settled prev.source).desired = some ⟨prev.source, d.origin⟩ ∧
      ((v.applied d o id).settled prev.source).stopsFirst prev.source d = false := by
  rw [settled_of_not_serves ho]
  refine ⟨rfl, ?_⟩
  rw [← hmoves]
  unfold stopsFirst boundTo
  rw [(applied_of_not_serves ho).1]

/-- The replacement of a source that moves only stays if it has no listener and takes the
place of none. -/
theorem runs_settled_iff (h : v.Fits) (hsuits : o.Suits d) (hprev : v.desired = some prev)
    (hmoves : v.stopsFirst prev.source d = false) :
    ((v.applied d o id).settled prev.source).Runs d ↔
      (isHTTP d.source = true ∧ isHTTP prev.source = false) ∧ o.Serves := by
  by_cases ho : o.Serves
  · rw [settled_of_serves ho]
    by_cases hhttp : isHTTP d.source = true
    · obtain rfl | ⟨addr, rfl⟩ := ho
      · simp [Runs, stopped, applied, hhttp, Outcome.Serves]
      · exact absurd hhttp (by simp [hsuits.listening addr rfl])
    · simp [Runs, stopped, View.stopped, hhttp]
  · have hfits : (v.pass d o id).Fits := h.pass hsuits.http
    rw [pass_of_moves hprev hmoves] at hfits
    refine iff_of_false (fun hruns => ?_) (fun hserves => ho hserves.2)
    obtain ⟨prev', hprev', hsource⟩ := hfits.source_of_runs hruns
    cases (settled_moves hmoves ho).1.symm.trans hprev'
    exact source_ne_of_moves hmoves hsource

theorem runs_pass_iff (h : v.Fits) (hsuits : o.Suits d) : (v.pass d o id).Runs d ↔ v.Ready d o := by
  unfold Ready
  cases hprev : v.desired with
  | none =>
    rw [pass_of_new hprev]
    refine runs_applied_iff (h.running_none hprev) (h.place_none fun d hd => ?_) hsuits
    cases hprev.symm.trans hd
  | some prev =>
    by_cases heq : prev = d
    · rw [pass_of_same (heq ▸ hprev)]
      simp only [heq, if_true]
    · simp only [heq, if_false]
      by_cases hfirst : v.stopsFirst prev.source d = true
      · rw [pass_of_first hprev heq hfirst, runs_applied_iff rfl (h.stopped_place hprev) hsuits]
        simp [hfirst]
      · have hmoves : v.stopsFirst prev.source d = false := by simpa using hfirst
        rw [pass_of_moves hprev hmoves, runs_settled_iff h hsuits hprev hmoves]
        simp [hfirst]

/-- A source that is settled after a pass stays as it is. -/
theorem pass_desired (hstays : ∀ prev, v.desired = some prev → prev ≠ d → v.stopsFirst prev.source d = true) :
    (v.pass d o id).desired = some d := by
  by_cases hsame : v.desired = some d
  · rw [pass_of_same hsame]
    exact hsame
  · cases hprev : v.desired with
    | none =>
      rw [pass_of_new hprev]
      rfl
    | some prev =>
      have hne : prev ≠ d := fun heq => hsame (heq ▸ hprev)
      rw [pass_of_first hprev hne (hstays prev hprev hne)]
      rfl

theorem settled_stuck (hruns : ¬((v.applied d o id).settled prev.source).Runs d)
    (hmoves : v.stopsFirst prev.source d = false) (hhttp : isHTTP d.source = true → isHTTP prev.source = true) :
    ((v.applied d o id).settled prev.source).Stuck d := by
  by_cases ho : o.Serves
  · refine .inl ⟨?_, hruns⟩
    rw [settled_of_serves ho]
    rfl
  · obtain ⟨hdesired, hagain⟩ := settled_moves hmoves ho
    exact .inr ⟨_, hdesired, hagain, hhttp⟩

theorem Stuck.pass (h : v.Fits) (hsuits : o.Suits d) (hstuck : v.Stuck d) : (v.pass d o id).Stuck d := by
  obtain ⟨hsame, hnot⟩ | ⟨prev, hprev, hmoves, hhttp⟩ := hstuck
  · rw [pass_of_same hsame]
    exact .inl ⟨hsame, hnot⟩
  · rw [pass_of_moves hprev hmoves]
    refine settled_stuck (fun hruns => ?_) hmoves hhttp
    obtain ⟨⟨hd, hp⟩, -⟩ := (runs_settled_iff h hsuits hprev hmoves).mp hruns
    cases hp.symm.trans (hhttp hd)

/-- A source that does not run after a pass is stuck, or it waits for the place of the
`http_json` source. -/
theorem stuck_or_waits (h : v.Fits) (hsuits : o.Suits d) (hnot : ¬(v.pass d o id).Runs d) :
    (v.pass d o id).Stuck d ∨ v.Waits d ∧ ¬o.Serves := by
  by_cases hstays : ∀ prev, v.desired = some prev → prev ≠ d → v.stopsFirst prev.source d = true
  · exact .inl (.inl ⟨pass_desired hstays, hnot⟩)
  · push Not at hstays
    obtain ⟨prev, hprev, -, hmoves⟩ := hstays
    have hmoves : v.stopsFirst prev.source d = false := by simpa using hmoves
    rw [pass_of_moves hprev hmoves] at hnot ⊢
    by_cases hhttp : isHTTP d.source = true → isHTTP prev.source = true
    · exact .inl (settled_stuck hnot hmoves hhttp)
    · obtain ⟨hd, hp⟩ : isHTTP d.source = true ∧ isHTTP prev.source = false := by simpa using hhttp
      rw [runs_settled_iff h hsuits hprev hmoves] at hnot
      exact .inr ⟨⟨hd, prev, hprev, hmoves, hp⟩, fun hserves => hnot ⟨⟨hd, hp⟩, hserves⟩⟩

end Slot

/-! ## The place of the `http_json` source -/

/-- No two sources have one name, and no two that are enabled want the same place. -/
structure ConflictFree (ds : List Desired) : Prop where
  names : (ds.map Desired.name).Nodup
  places : ∀ d ∈ ds, ∀ d' ∈ ds, d ≠ d' → ¬d.source.Contends d'.source

theorem ConflictFree.http_unique {ds : List Desired} (h : ConflictFree ds) {d d' : Desired} (hd : d ∈ ds)
    (hd' : d' ∈ ds) (hon : d.source.isEnabled = true) (hon' : d'.source.isEnabled = true)
    (hhttp : isHTTP d.source = true) (hhttp' : isHTTP d'.source = true) : d = d' := by
  by_contra hne
  exact h.places d hd d' hd' hne ⟨hon, hon', .inl ⟨by simpa [isHTTP] using hhttp, by simpa [isHTTP] using hhttp'⟩⟩

/-- A listener holds the transport and the address that the source asks for. -/
def Listener.Holds (l : Listener) (sc : Source) : Prop := transport l.config = transport sc ∧ l.addr = sc.address

/-- A start only fails for an address that a live listener holds. -/
structure Env.FailsOnlyHeld (env : Env) : Prop where
  start : ∀ live sc e, env.start live sc = .error e → ∃ l ∈ live, l.Holds sc
  settings : ∀ sc, env.settings sc = .ok ()

section Place

variable {s : State} {env : Env} {ds : List Desired} {d : Desired}

theorem Tidy.runs_iff (hs : Tidy s) : s.Runs d ↔ (s.slot d.name).Runs d := by
  unfold State.Runs Slot.Runs
  split
  · constructor
    · intro hplace
      simp [State.slot, hplace, Desired.name]
    · intro hplace
      exact (Option.filter_eq_some_iff.mp hplace).1
  · constructor
    · rintro ⟨l, -, hheld, hconfig⟩
      exact ⟨l, hheld, hconfig⟩
    · rintro ⟨l, hheld, hconfig⟩
      exact ⟨l, (hs.tracked.held d.name l hheld).1, hheld, hconfig⟩

/-- Starting other sources does not change who has the place. -/
theorem State.apply_httpSource (env : Env) (s : State) {cs : List Desired}
    (h : ∀ c ∈ cs, isHTTP c.source = true → c.source.isEnabled = false) :
    (s.apply env cs).httpSource = s.httpSource := by
  induction cs generalizing s with
  | nil => rfl
  | cons c cs ih =>
    have hrest := fun c' hc' => h c' (List.mem_cons_of_mem c hc')
    refine (ih (s.applyOne env c) hrest).trans ?_
    rw [State.applyOne_httpSource, if_neg]
    intro ho
    obtain ⟨-, hhttp, hon⟩ := State.outcome_http ho
    cases hon.symm.trans (h c List.mem_cons_self hhttp)

/-- An `http_json` source only fails to start because another one has the place. -/
theorem State.place_taken (henv : env.FailsOnlyHeld) (hon : d.source.isEnabled = true)
    (hhttp : isHTTP d.source = true) (hfails : ¬(s.outcome env d.source).Serves) : ∃ x, s.httpSource = some x := by
  cases hplace : s.httpSource with
  | some x => exact ⟨x, rfl⟩
  | none =>
    refine absurd (.inl ?_) hfails
    simp [State.outcome, hon, hhttp, henv.settings, hplace]

theorem State.turn_httpSource (hds : ConflictFree ds) (hd : d ∈ ds) (hon : d.source.isEnabled = true)
    (hhttp : isHTTP d.source = true) :
    (s.turn env ds d).httpSource = (s.stopBefore (s.changed ds)).1.httpSource := by
  apply State.apply_httpSource
  intro c hc hc'
  by_contra hcon
  have hmem := (State.mem_changed.mp ((List.takeWhile_sublist _).subset hc)).1
  obtain rfl := hds.http_unique hmem hd (by simpa using hcon) hon hc' hhttp
  simpa using List.mem_takeWhile_imp hc

/-- Whoever has the place after the first stops has it before, and is not stopped first. -/
theorem Tidy.place_before (hs : Tidy s) (hnames : (ds.map Desired.name).Nodup) {x : Source}
    (hx : (s.stopBefore (s.changed ds)).1.httpSource = some x) :
    (s.slot x.name).place = some x ∧ ∀ c ∈ s.changed ds, c.name = x.name → ∀ prev, s.desired.lookup c.name = some prev →
      (s.slot x.name).stopsFirst prev.source c = false := by
  have hplace : ((s.stopBefore (s.changed ds)).1.slot x.name).place = some x := by simp [State.slot, hx]
  by_cases hn : ∀ c ∈ s.changed ds, x.name ≠ c.name
  · rw [State.stopBefore_slot_ne _ _ hn] at hplace
    exact ⟨hplace, fun c hc hname => absurd hname.symm (hn c hc)⟩
  · obtain ⟨c, hc, hname⟩ : ∃ c ∈ s.changed ds, x.name = c.name := by simpa using hn
    rw [hname] at hplace ⊢
    rw [State.stopBefore_slot (State.changed_nodup hnames) hc] at hplace
    cases hprev : s.desired.lookup c.name with
    | none =>
      simp only [hprev] at hplace
      obtain ⟨-, -, prev, hprev', -⟩ := (hs.fits c.name).place x hplace
      cases hprev.symm.trans hprev'
    | some prev =>
      simp only [hprev] at hplace
      split at hplace
      · rw [(hs.fits c.name).stopped_place hprev] at hplace
        cases hplace
      · rename_i hmoves
        refine ⟨hplace, fun c' hc' hname' prev' hprev' => ?_⟩
        obtain rfl := eq_of_name_eq (State.changed_nodup hnames) hc' hc hname'
        cases hprev.symm.trans hprev'
        simpa using hmoves

/-- If a source waits for the place in vain, then the source that has the place is stuck. -/
theorem Tidy.stuck_of_waits (hs : Tidy s) (hwithin : s.Within ds) (hds : ConflictFree ds) (henv : env.FailsOnlyHeld)
    (hd : d ∈ ds) (hon : d.source.isEnabled = true) (hwaits : (s.slot d.name).Waits d)
    (hfails : ¬(s.atTurn env ds d).Serves) :
    ∃ c ∈ ds, c.source.isEnabled = true ∧ (s.slot c.name).Stuck c := by
  obtain ⟨hhttp, prev, hprev, -, hlistened⟩ := hwaits
  obtain ⟨x, hx⟩ := State.place_taken henv hon hhttp hfails
  rw [State.turn_httpSource hds hd hon hhttp] at hx
  obtain ⟨hplace, hlater⟩ := hs.place_before hds.names hx
  obtain ⟨hxhttp, hxon, p, hp, rfl⟩ := (hs.fits x.name).place x hplace
  obtain ⟨c, hc, hname⟩ := hwithin p.source.name (by
    intro hnone
    cases hnone.symm.trans hp)
  rw [← hname] at hp hlater
  have hcd : c ≠ d := by
    rintro rfl
    cases hp.symm.trans hprev
    cases hxhttp.symm.trans hlistened
  have hpc : p ≠ c := by
    rintro rfl
    exact hcd (hds.http_unique hc hd hxon hon hxhttp hhttp)
  have hmoves := hlater c (State.mem_changed.mpr ⟨hc, fun heq => hpc (Option.some_injective _ (hp.symm.trans heq))⟩)
    rfl p hp
  have hcon : c.source.isEnabled = true := by
    by_contra hoff
    simp [Slot.stopsFirst, hoff] at hmoves
  refine ⟨c, hc, hcon, .inr ⟨p, hp, hmoves, fun hchttp => ?_⟩⟩
  exact absurd (hds.http_unique hc hd hcon hon hchttp hhttp) hcd

end Place

/-! ## Pass after pass -/

/-- Reconcile with the same list over and over. -/
def State.passes (s : State) (envs : Nat → Env) (ds : List Desired) : Nat → State
  | 0 => s
  | n + 1 => (s.passes envs ds n).reconcile (envs n) ds

/-- Every enabled source of the list runs. -/
def State.AllRun (s : State) (ds : List Desired) : Prop := ∀ d ∈ ds, d.source.isEnabled = true → s.Runs d

variable {s : State} {envs : Nat → Env} {ds : List Desired} {d : Desired}

theorem Tidy.passes (hs : Tidy s) (hnames : (ds.map Desired.name).Nodup) (n : Nat) : Tidy (s.passes envs ds n) := by
  induction n with
  | zero => exact hs
  | succ n ih => exact ih.reconcile hnames

theorem Tidy.reconcile_pass (hs : Tidy s) (env : Env) (hnames : (ds.map Desired.name).Nodup) (hd : d ∈ ds) :
    ∃ id, (s.reconcile env ds).slot d.name =
      (s.slot d.name).pass d ((s.removeUnwanted ds).atTurn env ds d) id := by
  rw [State.reconcile_eq, State.restart_slot _ (hs.removeUnwanted ds).named hnames hd, s.removeUnwanted_slot_wanted hd]
  exact ⟨_, rfl⟩

theorem Tidy.reconcile_stuck (hs : Tidy s) (env : Env) (hnames : (ds.map Desired.name).Nodup) (hd : d ∈ ds)
    (hstuck : (s.slot d.name).Stuck d) : ((s.reconcile env ds).slot d.name).Stuck d := by
  obtain ⟨id, hslot⟩ := hs.reconcile_pass env hnames hd
  rw [hslot]
  exact hstuck.pass (hs.fits d.name) (State.outcome_suits _ _ _)

/-- A source that is stuck after one pass is stuck after every later one. -/
theorem Tidy.passes_stuck (hs : Tidy s) (hnames : (ds.map Desired.name).Nodup) (hd : d ∈ ds)
    (hstuck : ((s.passes envs ds 1).slot d.name).Stuck d) (n : Nat) :
    ((s.passes envs ds (n + 1)).slot d.name).Stuck d := by
  induction n with
  | zero => exact hstuck
  | succ n ih => exact (hs.passes hnames (n + 1)).reconcile_stuck (envs (n + 1)) hnames hd ih

/-- If a source does not run after the first pass, then some source of the list is stuck. -/
theorem Tidy.stuck_of_not_ready (hs : Tidy s) (hds : ConflictFree ds) {env : Env} (henv : env.FailsOnlyHeld)
    (hd : d ∈ ds) (hon : d.source.isEnabled = true)
    (hnot : ¬(s.slot d.name).Ready d ((s.removeUnwanted ds).atTurn env ds d)) :
    ∃ c ∈ ds, c.source.isEnabled = true ∧ ((s.reconcile env ds).slot c.name).Stuck c := by
  obtain ⟨id, hslot⟩ := hs.reconcile_pass env hds.names hd
  have hsuits : ((s.removeUnwanted ds).atTurn env ds d).Suits d := State.outcome_suits _ _ _
  have hstops : ¬((s.slot d.name).pass d ((s.removeUnwanted ds).atTurn env ds d) id).Runs d :=
    mt (Slot.runs_pass_iff (hs.fits d.name) hsuits).mp hnot
  obtain hstuck | ⟨hwaits, hfails⟩ := Slot.stuck_or_waits (hs.fits d.name) hsuits hstops
  · exact ⟨d, hd, hon, hslot ▸ hstuck⟩
  · rw [← s.removeUnwanted_slot_wanted hd] at hwaits
    obtain ⟨c, hc, hcon, hstuck⟩ := (hs.removeUnwanted ds).stuck_of_waits (s.removeUnwanted_within ds) hds henv hd hon
      hwaits hfails
    rw [s.removeUnwanted_slot_wanted hc] at hstuck
    exact ⟨c, hc, hcon, hs.reconcile_stuck env hds.names hc hstuck⟩

/-- After every history of reconciliations in which any starts fail, with a list free of
conflicts, and starts that from now on only fail for an address that is held: reconciling
with the list again and again ends with every enabled source running if and only if all of
them run already or the first pass makes them all run. -/
theorem reconcile_converges_iff {history : List (Env × List Desired)}
    (hhistory : ∀ pass ∈ history, (pass.2.map Desired.name).Nodup) {ds : List Desired} (hds : ConflictFree ds)
    {envs : Nat → Env} (henvs : ∀ n, (envs n).FailsOnlyHeld) :
    let s := State.reconciles {} history
    (∃ n, (s.passes envs ds n).AllRun ds) ↔
      s.AllRun ds ∨ ∀ d ∈ ds, d.source.isEnabled = true →
        (s.slot d.name).Ready d ((s.removeUnwanted ds).atTurn (envs 0) ds d) := by
  intro s
  have hs : Tidy s := Tidy.init.reconciles hhistory
  constructor
  · rintro ⟨n, hall⟩
    cases n with
    | zero => exact .inl hall
    | succ n =>
      refine .inr fun d hd hon => ?_
      by_contra hnot
      obtain ⟨c, hc, hcon, hstuck⟩ := hs.stuck_of_not_ready hds (henvs 0) hd hon hnot
      have htidy : Tidy (s.passes envs ds (n + 1)) := hs.passes hds.names (n + 1)
      exact (hs.passes_stuck hds.names hc hstuck n).not_runs (htidy.fits c.name) (htidy.runs_iff.mp (hall c hc hcon))
  · rintro (hall | hready)
    · exact ⟨0, hall⟩
    · refine ⟨1, fun d hd hon => ?_⟩
      obtain ⟨id, hslot⟩ := hs.reconcile_pass (envs 0) hds.names hd
      rw [(hs.passes hds.names 1).runs_iff]
      show ((s.reconcile (envs 0) ds).slot d.name).Runs d
      rw [hslot]
      exact (Slot.runs_pass_iff (hs.fits d.name) (State.outcome_suits _ _ _)).mpr (hready d hd hon)

/-- A network in which a start fails for an address that is held, and only then. -/
def onlyHeldFails : Env where
  start live sc := if live.any fun l => transport l.config = transport sc ∧ l.addr = sc.address then
    .error "address already in use" else .ok sc.address
  settings _ := .ok ()

theorem onlyHeldFails_failsOnlyHeld : onlyHeldFails.FailsOnlyHeld := by
  refine ⟨fun live sc e he => ?_, fun _ => rfl⟩
  simp only [onlyHeldFails] at he
  split at he
  next hheld => simpa [Listener.Holds] using hheld
  next => cases he

/-- A source that moved to a free address runs after no number of passes. -/
theorem moved_never_runs :
    ConflictFree [syslogAt "a" "127.0.0.1:515"] ∧ onlyHeldFails.FailsOnlyHeld ∧
      ∀ n, ¬((State.reconciles {} [(onlyHeldFails, [syslogAt "a" "127.0.0.1:514"])]).passes (fun _ => onlyHeldFails)
        [syslogAt "a" "127.0.0.1:515"] n).AllRun [syslogAt "a" "127.0.0.1:515"] := by
  refine ⟨⟨by decide, by simp⟩, onlyHeldFails_failsOnlyHeld, ?_⟩
  generalize hs : State.reconciles {} [(onlyHeldFails, [syslogAt "a" "127.0.0.1:514"])] = s
  have hs₀ : s.running.lookup "a" = some ⟨0, (syslogAt "a" "127.0.0.1:514").source, "127.0.0.1:514"⟩ := hs ▸ rfl
  have hfix : (s.reconcile onlyHeldFails [syslogAt "a" "127.0.0.1:515"]).reconcile onlyHeldFails
      [syslogAt "a" "127.0.0.1:515"] = s.reconcile onlyHeldFails [syslogAt "a" "127.0.0.1:515"] := hs ▸ rfl
  have hgone : (s.reconcile onlyHeldFails [syslogAt "a" "127.0.0.1:515"]).running.lookup "a" = none := hs ▸ rfl
  have hpasses (n : Nat) : s.passes (fun _ => onlyHeldFails) [syslogAt "a" "127.0.0.1:515"] (n + 1) =
      s.reconcile onlyHeldFails [syslogAt "a" "127.0.0.1:515"] := by
    induction n with
    | zero => rfl
    | succ n ih =>
      rw [State.passes, ih]
      exact hfix
  intro n hall
  obtain ⟨l, -, hheld, hconfig⟩ := hall _ (List.mem_singleton.mpr rfl) rfl
  cases n with
  | zero =>
    cases hs₀.symm.trans hheld
    exact absurd hconfig (by decide)
  | succ n =>
    rw [hpasses n] at hheld
    cases hgone.symm.trans hheld

/-- A second source joins a running one. -/
theorem reconcile_converges_iff_join :
    ∃ n, ((State.reconciles {} [(onlyHeldFails, [syslogAt "a" "127.0.0.1:514"])]).passes (fun _ => onlyHeldFails)
      [syslogAt "a" "127.0.0.1:514", syslogAt "b" "127.0.0.1:515"] n).AllRun
        [syslogAt "a" "127.0.0.1:514", syslogAt "b" "127.0.0.1:515"] := by
  have hhistory : ∀ pass ∈ [(onlyHeldFails, [syslogAt "a" "127.0.0.1:514"])], (pass.2.map Desired.name).Nodup := by
    intro pass hpass
    obtain rfl := List.mem_singleton.mp hpass
    decide
  have hds : ConflictFree [syslogAt "a" "127.0.0.1:514", syslogAt "b" "127.0.0.1:515"] := by
    refine ⟨by decide, ?_⟩
    simp [syslogAt, Source.Contends, Source.SharesAddress, sourceTypeSyslog, sourceTypeHTTPJSON]
  refine (reconcile_converges_iff hhistory hds fun _ => onlyHeldFails_failsOnlyHeld).mpr (.inr fun d hd hon => ?_)
  obtain rfl | rfl : d = syslogAt "a" "127.0.0.1:514" ∨ d = syslogAt "b" "127.0.0.1:515" := by simpa using hd
  · exact ⟨_, rfl, rfl⟩
  · exact .inr ⟨_, rfl⟩

end Syslogc.Supervisor
