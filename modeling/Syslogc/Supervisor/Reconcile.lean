-- SUMMARY: Which listeners the supervisor leaves running.
import Syslogc.Supervisor.Passes

/-!
# Reconciliation

A source that moves to another address is started under the name its old listener
is held under, so the stop that follows hits the new listener and the old one is
out of reach. `Stationary` excludes this and the few other calls that leave a
listener behind or a source without one; `reconcile_serving_iff` says that after
every other sequence of calls it decides whether the listeners are those of the
list.
-/

namespace Syslogc.Supervisor

open Config

/-- The source is to have a listener of its own. -/
def Desired.listens (d : Desired) : Bool := d.source.isEnabled && !isHTTP d.source

/-- The listeners that were started and not stopped are those of the enabled
sources of the list, one for each: built from its definition, held under its name
and reported running. -/
structure Serving (s : State) (ds : List Desired) : Prop where
  each : ∀ d ∈ ds, d.listens = true → ∃ l ∈ s.live, l.config = d.source ∧
    s.running.lookup d.name = some l ∧ (∃ st, s.status.lookup d.name = some st ∧ st.state = .running) ∧
    ∀ l' ∈ s.live, l'.config.name = d.name → l' = l
  only : ∀ l ∈ s.live, ∃ d ∈ ds, d.listens = true ∧ l.config = d.source ∧
    s.running.lookup d.name = some l

/-! ## The calls that leave nothing behind -/

/-- The listener starts succeed. -/
def Env.Starts (env : Env) : Prop := ∀ live sc, ∃ addr, env.start live sc = .ok addr

/-- What is assumed of a call: names are unique, and the listeners start. -/
def Op.Regular : Op → Prop
  | .start env sources => (sources.map (·.name)).Nodup ∧ env.Starts
  | .reconcile env ds => (ds.map Desired.name).Nodup ∧ env.Starts
  | .stop => True

/-- An enabled source of the list is new; or it is unchanged and has its listener;
or it changes at its address, so that the old listener is stopped first; or it
becomes an `http_json` source, and has no listener or can be built and finds the place
of the `http_json` source free. -/
def State.Follows (env : Env) (s : State) (ds : List Desired) (d : Desired) : Prop :=
  match s.desired.lookup d.name with
  | none => True
  | some prev =>
    if prev = d then isHTTP d.source = true ∨ (s.running.lookup d.name).isSome = true
    else s.stopsFirst prev.source d = true ∨ isHTTP d.source = true ∧
      (s.running.lookup d.name = none ∨
        (∃ u, env.settings d.source = .ok u) ∧ (s.turn env ds d).httpSource = none)

/-- A call that leaves no listener behind and no source without one. -/
def Stationary (s : State) : Op → Prop
  | .start _ sources => ∀ sc ∈ sources, s.running.lookup sc.name = none
  | .reconcile env ds =>
    ∀ d ∈ ds, d.source.isEnabled = true → (s.removeUnwanted ds).Follows env ds d
  | .stop => True

/-! ## One pass over a source -/

namespace Slot

/-- The source is held by a listener of the definition, and reported running. -/
structure Listens (v : Slot) (d : Desired) (l : Listener) : Prop where
  running : v.running = some l
  config : l.config = d.source
  desired : v.desired = some d
  status : ∃ st, v.status = some st ∧ st.state = .running

/-- A listener that is held is the one of an enabled definition, and reported running. -/
def Settled (v : Slot) : Prop := ∀ l, v.running = some l → ∃ d, d.listens = true ∧ v.Listens d l

/-- `State.Follows`, given what becomes of the start. -/
def Follows (v : Slot) (d : Desired) (o : Outcome) : Prop :=
  match v.desired with
  | none => True
  | some prev =>
    if prev = d then isHTTP d.source = true ∨ v.running.isSome = true
    else v.stopsFirst prev.source d = true ∨ isHTTP d.source = true ∧ (v.running = none ∨ o = .http)

variable {v : Slot} {d : Desired} {o : Outcome} {addr : String} {id : Nat}

theorem settled_of_none (h : v.running = none) : v.Settled := by
  intro l hl
  cases h.symm.trans hl

/-- A listener that is held belongs to the definition that is known. -/
theorem Settled.running_none (hv : v.Settled) (h : ∀ d, v.desired = some d → d.listens = false) :
    v.running = none := by
  cases hl : v.running with
  | none => rfl
  | some l =>
    obtain ⟨d, hlistens, hd⟩ := hv l hl
    cases hlistens.symm.trans (h d hd.desired)

/-- A source that got a listener ends with it if it follows, and without one otherwise. -/
theorem Settled.pass_listening (hv : v.Settled) (hhttp : isHTTP d.source = false) :
    (v.Follows d (.listening addr) ∧ ∃ l, (v.pass d (.listening addr) id).Listens d l) ∨
      ¬v.Follows d (.listening addr) ∧ (v.pass d (.listening addr) id).running = none := by
  unfold Follows
  have hnew (w : Slot) : (w.applied d (.listening addr) id).Listens d ⟨id, d.source, addr⟩ :=
    ⟨rfl, rfl, rfl, _, rfl, rfl⟩
  cases hprev : v.desired with
  | none =>
    rw [pass_of_new hprev]
    exact .inl ⟨trivial, _, hnew v⟩
  | some prev =>
    by_cases heq : prev = d
    · subst heq
      simp only [pass_of_same hprev, if_true, hhttp, Bool.false_eq_true, false_or]
      cases hl : v.running with
      | none => exact .inr ⟨by simp, rfl⟩
      | some l =>
        obtain ⟨d, -, hd⟩ := hv l hl
        cases hprev.symm.trans hd.desired
        exact .inl ⟨rfl, l, hd⟩
    · simp only [if_neg heq]
      cases hfirst : v.stopsFirst prev.source d with
      | true =>
        rw [pass_of_first hprev heq hfirst]
        exact .inl ⟨.inl rfl, _, hnew _⟩
      | false =>
        rw [pass_of_moves hprev hfirst]
        exact .inr ⟨by simp [hhttp], rfl⟩

/-- A source that got no listener ends without one if and only if it follows. -/
theorem Settled.pass_silent_iff (hv : v.Settled) (hlistens : d.listens = false)
    (ho : ∀ addr, o ≠ .listening addr) :
    (v.pass d o id).running = none ↔ (d.source.isEnabled = true → v.Follows d o) := by
  unfold Follows
  have hkept (w : Slot) : (w.applied d o id).running = w.running := by
    cases o with
    | listening addr => exact absurd rfl (ho addr)
    | _ => rfl
  have hhttp (hon : d.source.isEnabled = true) : isHTTP d.source = true := by
    simpa [Desired.listens, hon] using hlistens
  cases hprev : v.desired with
  | none =>
    rw [pass_of_new hprev, hkept]
    refine iff_of_true (hv.running_none fun c hc => ?_) fun _ => trivial
    cases hprev.symm.trans hc
  | some prev =>
    by_cases heq : prev = d
    · subst heq
      rw [pass_of_same hprev]
      refine iff_of_true (hv.running_none fun c hc => ?_) fun hon => ?_
      · cases hprev.symm.trans hc
        exact hlistens
      · simp only [if_true]
        exact .inl (hhttp hon)
    · simp only [if_neg heq]
      cases hfirst : v.stopsFirst prev.source d with
      | true =>
        rw [pass_of_first hprev heq hfirst, hkept]
        exact iff_of_true rfl fun _ => .inl rfl
      | false =>
        -- only the `http_json` source moves and does not listen
        have hon : d.source.isEnabled = true := by
          by_contra hoff
          simp [stopsFirst, hoff] at hfirst
        rw [pass_of_moves hprev hfirst, settled]
        simp only [applied, Option.any_some, decide_eq_true_eq, status_running_iff, ho, exists_false, or_false, hon,
          hhttp hon, Bool.false_eq_true, false_or, true_and, forall_const]
        by_cases hserves : o = .http
        · rw [if_pos hserves]
          exact iff_of_true rfl (.inr hserves)
        · rw [if_neg hserves, or_iff_left hserves]

end Slot

section Turn

variable {env : Env} {s : State} {ds : List Desired} {d : Desired}

theorem State.atTurn_listening (s : State) (ds : List Desired) (henv : env.Starts) (hlistens : d.listens = true) :
    ∃ addr, s.atTurn env ds d = .listening addr := by
  obtain ⟨hon, hhttp⟩ : d.source.isEnabled = true ∧ isHTTP d.source = false := by
    simpa [Desired.listens] using hlistens
  obtain ⟨addr, haddr⟩ := henv (s.turn env ds d).live d.source
  exact ⟨addr, by simp [State.atTurn, State.outcome, hon, hhttp, haddr]⟩

theorem listens_of_outcome_listening {t : State} {addr : String} (h : t.outcome env d.source = .listening addr) :
    d.listens = true := by
  simpa [Desired.listens] using State.listens_of_outcome h

theorem State.follows_iff (hon : d.source.isEnabled = true) :
    s.Follows env ds d ↔ (s.slot d.name).Follows d (s.atTurn env ds d) := by
  have hturn (hhttp : isHTTP d.source = true) : s.atTurn env ds d = .http ↔
      (∃ u, env.settings d.source = .ok u) ∧ (s.turn env ds d).httpSource = none := by
    rw [State.atTurn, State.outcome, hon, hhttp]
    cases env.settings d.source <;> cases (s.turn env ds d).httpSource <;> simp
  unfold State.Follows Slot.Follows
  show _ ↔ match s.desired.lookup d.name with | none => _ | some prev => _
  cases s.desired.lookup d.name with
  | none => rfl
  | some prev =>
    simp only [State.stopsFirst_eq]
    split
    · rfl
    · refine or_congr_right (and_congr_right fun hhttp => ?_)
      rw [hturn hhttp]
      rfl

end Turn

/-! ## The invariant -/

structure Consistent (s : State) : Prop where
  inventory : Inventory s
  named : s.Named
  settled : ∀ n, (s.slot n).Settled

theorem Consistent.init : Consistent {} := by
  refine ⟨⟨⟨by simp, by simp, by simp⟩, by simp [State.live]⟩, by simp [State.Named], fun n => ?_⟩
  exact Slot.settled_of_none rfl

/-- Only sources of the list are known. -/
def State.Within (s : State) (ds : List Desired) : Prop :=
  ∀ n, s.desired.lookup n ≠ none → ∃ d ∈ ds, d.name = n

theorem State.removeUnwanted_within (s : State) (ds : List Desired) : (s.removeUnwanted ds).Within ds := by
  intro n hn
  have hn : ((s.removeUnwanted ds).slot n).desired ≠ none := hn
  obtain ⟨h, hwithin⟩ | ⟨prev, -, h⟩ := s.removeUnwanted_slot ds n
  · rw [h] at hn
    exact hwithin hn
  · rw [h] at hn
    exact absurd rfl hn

theorem Consistent.removeUnwanted {s : State} (hs : Consistent s) (ds : List Desired) :
    Consistent (s.removeUnwanted ds) := by
  refine ⟨inventory_stops.removeUnwanted hs.inventory ds, hs.named.removeUnwanted ds, fun n => ?_⟩
  obtain ⟨h, -⟩ | ⟨prev, -, h⟩ := s.removeUnwanted_slot ds n
  · rw [h]
    exact hs.settled n
  · rw [h]
    exact Slot.settled_of_none rfl

section Restart

variable {env : Env} {s : State} {ds : List Desired} {d : Desired}

/-- A source that is to listen ends with its listener if and only if it follows. -/
theorem Consistent.restart_listening (hs : Consistent s) (hnames : (ds.map Desired.name).Nodup)
    (henv : env.Starts) (hd : d ∈ ds) (hlistens : d.listens = true) :
    (s.Follows env ds d ∧ ∃ l, ((s.restart env ds).slot d.name).Listens d l) ∨
      ¬s.Follows env ds d ∧ (s.restart env ds).running.lookup d.name = none := by
  obtain ⟨hon, hhttp⟩ : d.source.isEnabled = true ∧ isHTTP d.source = false := by
    simpa [Desired.listens] using hlistens
  obtain ⟨addr, ho⟩ := s.atTurn_listening ds henv hlistens
  have hslot := State.restart_slot env hs.named hnames hd
  rw [State.follows_iff hon, ho, hslot, ho]
  refine ((hs.settled d.name).pass_listening hhttp).imp_right fun h => ⟨h.1, ?_⟩
  rw [← h.2, ← ho, ← hslot]
  rfl

/-- A source that is not to listen ends without a listener if and only if it follows. -/
theorem Consistent.restart_silent_iff (hs : Consistent s) (hnames : (ds.map Desired.name).Nodup) (hd : d ∈ ds)
    (hlistens : d.listens = false) : (s.restart env ds).running.lookup d.name = none ↔
      (d.source.isEnabled = true → s.Follows env ds d) := by
  have ho (addr : String) : s.atTurn env ds d ≠ .listening addr := fun h => by
    cases hlistens.symm.trans (listens_of_outcome_listening h)
  have hslot := State.restart_slot env hs.named hnames hd
  have hrunning : (s.restart env ds).running.lookup d.name = ((s.restart env ds).slot d.name).running := rfl
  rw [hrunning, hslot, (hs.settled d.name).pass_silent_iff hlistens ho]
  exact forall_congr' fun hon => (State.follows_iff hon).symm

/-- Where every enabled source follows, a listener that is held is one of the list. -/
theorem Consistent.restart_held (hs : Consistent s) (hwithin : s.Within ds) (hnames : (ds.map Desired.name).Nodup)
    (henv : env.Starts) (hfollows : ∀ d ∈ ds, d.source.isEnabled = true → s.Follows env ds d) {n : String}
    {l : Listener} (hheld : (s.restart env ds).running.lookup n = some l) :
    ∃ d ∈ ds, d.name = n ∧ d.listens = true ∧ ((s.restart env ds).slot n).Listens d l := by
  by_cases hlisted : ∀ d ∈ ds, n ≠ d.name
  · have hslot := State.restart_slot_ne env hs.named hlisted
    obtain ⟨d, -, hd⟩ := hs.settled n l ((congrArg (·.running) hslot).symm.trans hheld)
    have hknown : s.desired.lookup n = some d := hd.desired
    obtain ⟨c, hc, hname⟩ := hwithin n (by simp [hknown])
    exact absurd hname.symm (hlisted c hc)
  · obtain ⟨d, hd, rfl⟩ : ∃ d ∈ ds, n = d.name := by simpa using hlisted
    cases hlistens : d.listens with
    | false => cases hheld.symm.trans ((hs.restart_silent_iff hnames hd hlistens).mpr (hfollows d hd))
    | true =>
      obtain ⟨-, l', hl'⟩ | ⟨-, hnone⟩ := hs.restart_listening hnames henv hd hlistens
      · cases hheld.symm.trans hl'.running
        exact ⟨d, hd, rfl, hlistens, hl'⟩
      · cases hheld.symm.trans hnone

/-- A changed source that is to listen and follows is new or is stopped first. -/
theorem Consistent.restart_inventory (hs : Consistent s) (hnames : (ds.map Desired.name).Nodup)
    (hfollows : ∀ d ∈ ds, d.listens = true → s.Follows env ds d) : Inventory (s.restart env ds) := by
  refine inventory_stops.stopAfter ((inventory_stops.stopBefore hs.inventory _).apply (State.changed_nodup hnames) ?_) _
  intro d hd hon hhttp
  obtain ⟨hin, hne⟩ := State.mem_changed.mp hd
  have hfollows := hfollows d hin (by simp [Desired.listens, hon, hhttp])
  refine (congrArg (·.running) (State.stopBefore_slot (State.changed_nodup hnames) hd)).trans ?_
  unfold State.Follows at hfollows
  cases hprev : s.desired.lookup d.name with
  | none =>
    refine (hs.settled d.name).running_none fun c hc => ?_
    cases hprev.symm.trans hc
  | some prev =>
    have hprevne : prev ≠ d := fun heq => hne (heq ▸ hprev)
    simp only [hprev, if_neg hprevne, hhttp, Bool.false_eq_true, false_and, or_false, State.stopsFirst_eq] at hfollows
    simp only [hfollows, if_true]
    rfl

theorem Consistent.restart (hs : Consistent s) (hwithin : s.Within ds) (hnames : (ds.map Desired.name).Nodup)
    (henv : env.Starts) (hfollows : ∀ d ∈ ds, d.source.isEnabled = true → s.Follows env ds d) :
    Consistent (s.restart env ds) := by
  have hlisten (d : Desired) (hd : d ∈ ds) (hlistens : d.listens = true) : s.Follows env ds d :=
    hfollows d hd (Bool.and_eq_true_iff.mp hlistens).1
  refine ⟨hs.restart_inventory hnames hlisten, hs.named.restart hnames, fun n l hl => ?_⟩
  obtain ⟨d, -, -, hlistens, hd⟩ := hs.restart_held hwithin hnames henv hfollows hl
  exact ⟨d, hlistens, hd⟩

theorem Consistent.restart_serving (hs : Consistent s) (hwithin : s.Within ds) (hnames : (ds.map Desired.name).Nodup)
    (henv : env.Starts) (hfollows : ∀ d ∈ ds, d.source.isEnabled = true → s.Follows env ds d) :
    Serving (s.restart env ds) ds := by
  have hinv := (hs.restart hwithin hnames henv hfollows).inventory
  constructor
  case each =>
    intro d hd hlistens
    obtain ⟨-, l, hl⟩ | ⟨hnot, -⟩ := hs.restart_listening hnames henv hd hlistens
    · have hheld : (s.restart env ds).running.lookup d.name = some l := hl.running
      refine ⟨l, (hinv.held _ l hheld).1, hl.config, hheld, hl.status, fun l' hl' hname => ?_⟩
      have hheld' := hinv.live l' hl'
      rw [hname, hheld] at hheld'
      exact (Option.some_injective _ hheld').symm
    · exact absurd (hfollows d hd (Bool.and_eq_true_iff.mp hlistens).1) hnot
  case only =>
    intro l hl
    have hheld := hinv.live l hl
    obtain ⟨d, hd, hname, hlistens, hd'⟩ := hs.restart_held hwithin hnames henv hfollows hheld
    exact ⟨d, hd, hlistens, hd'.config, hname ▸ hheld⟩

/-- Only where every enabled source follows are the listeners those of the list. -/
theorem Consistent.follows_of_serving (hs : Consistent s) (hnames : (ds.map Desired.name).Nodup)
    (henv : env.Starts) (hserving : Serving (s.restart env ds) ds) (hd : d ∈ ds)
    (hon : d.source.isEnabled = true) : s.Follows env ds d := by
  have hlisten (d : Desired) (hd : d ∈ ds) (hlistens : d.listens = true) : s.Follows env ds d := by
    obtain ⟨l, -, -, hheld, -⟩ := hserving.each d hd hlistens
    obtain ⟨h, -⟩ | ⟨-, hnone⟩ := hs.restart_listening hnames henv hd hlistens
    · exact h
    · cases hheld.symm.trans hnone
  cases hlistens : d.listens with
  | true => exact hlisten d hd hlistens
  | false =>
    refine (hs.restart_silent_iff hnames hd hlistens).mp ?_ hon
    cases hheld : (s.restart env ds).running.lookup d.name with
    | none => rfl
    | some l =>
      obtain ⟨hlive, hname⟩ := (hs.restart_inventory hnames hlisten).held _ l hheld
      obtain ⟨d', hd', hlistens', hconfig, -⟩ := hserving.only l hlive
      obtain rfl := eq_of_name_eq hnames hd' hd ((congrArg Source.name hconfig).symm.trans hname)
      cases hlistens.symm.trans hlistens'

end Restart

/-! ## The calls -/

section Calls

variable {env : Env} {s : State}

theorem Consistent.reconcile {ds : List Desired} (hs : Consistent s)
    (hregular : (Op.reconcile env ds).Regular) (hguard : Stationary s (.reconcile env ds)) :
    Consistent (s.reconcile env ds) := by
  rw [State.reconcile_eq]
  exact (hs.removeUnwanted ds).restart (s.removeUnwanted_within ds) hregular.1 hregular.2 hguard

theorem Consistent.serving_iff {ds : List Desired} (hs : Consistent s)
    (hregular : (Op.reconcile env ds).Regular) :
    Serving (s.reconcile env ds) ds ↔ Stationary s (.reconcile env ds) := by
  obtain ⟨hnames, henv⟩ := hregular
  have hs := hs.removeUnwanted ds
  rw [State.reconcile_eq]
  constructor
  · intro hserving d hd hon
    exact hs.follows_of_serving hnames henv hserving hd hon
  · intro hguard
    exact hs.restart_serving (s.removeUnwanted_within ds) hnames henv hguard

theorem Consistent.start {sources : List Source} (hs : Consistent s)
    (hregular : (Op.start env sources).Regular) (hguard : Stationary s (.start env sources)) :
    Consistent (s.start env sources) := by
  obtain ⟨hnames, henv⟩ := hregular
  have hnames : ((fileSources sources).map Desired.name).Nodup := by
    simpa [fileSources, Desired.name, Function.comp_def] using hnames
  have hfree : ∀ d ∈ fileSources sources, s.running.lookup d.name = none := by
    intro d hd
    obtain ⟨sc, hsc, rfl⟩ := List.mem_map.mp hd
    exact hguard sc hsc
  -- what the loop leaves under a name of the list is what it leaves of its source
  have hslot (n : String) : (s.start env sources).slot n = s.slot n ∨ ∃ d ∈ fileSources sources, ∃ t : State,
      n = d.name ∧ (s.start env sources).slot n = (s.slot n).applied d (t.outcome env d.source) t.started.length := by
    by_cases hlisted : ∀ d ∈ fileSources sources, n ≠ d.name
    · exact .inl (State.apply_slot_ne hlisted)
    · obtain ⟨d, hd, rfl⟩ : ∃ d ∈ fileSources sources, n = d.name := by simpa using hlisted
      obtain ⟨hbefore, hafter⟩ := foldl_slot (s := s) (fun s d => s.applyOne_slot_ne env d) hnames hd
      rw [State.applyOne_slot, hbefore] at hafter
      exact .inr ⟨d, hd, _, rfl, hafter⟩
  refine ⟨hs.inventory.apply hnames fun d hd _ _ => hfree d hd, fun n c hc => ?_, fun n => ?_⟩
  · obtain h | ⟨d, -, t, rfl, h⟩ := hslot n
    · exact hs.named n c ((congrArg (·.desired) h).symm.trans hc)
    · cases (congrArg (·.desired) h).symm.trans hc
      rfl
  · obtain h | ⟨d, hd, t, rfl, h⟩ := hslot n
    · rw [h]
      exact hs.settled n
    · rw [h]
      cases ho : t.outcome env d.source with
      | listening addr =>
        intro l hl
        cases hl
        exact ⟨d, listens_of_outcome_listening ho, rfl, rfl, rfl, _, rfl, rfl⟩
      | _ => exact Slot.settled_of_none (hfree d hd)

theorem Inventory.stop (hs : Inventory s) : Inventory s.stop := by
  refine ⟨⟨hs.numbered, fun id hid => ?_, fun n l hl => ?_⟩, fun l hl => ?_⟩
  · obtain hid | hid := List.mem_append.mp hid
    · obtain ⟨⟨n, l⟩, hl, rfl⟩ := List.mem_map.mp hid
      have hheld : s.running.lookup n = some l := AList.mem_lookup_iff.mpr hl
      exact hs.id_lt (State.mem_live.mp (hs.held n l hheld).1).1
    · exact hs.stopped id hid
  · exact absurd hl (by simp [State.stop])
  · obtain ⟨hstarted, hnot⟩ := State.mem_live.mp hl
    simp only [State.stop, List.mem_append, not_or] at hnot
    have hheld := hs.live l (State.mem_live.mpr ⟨hstarted, hnot.2⟩)
    exact absurd (List.mem_map.mpr ⟨(⟨_, l⟩ : Σ _ : String, Listener), AList.mem_lookup_iff.mp hheld, rfl⟩) hnot.1

theorem Consistent.stop (hs : Consistent s) : Consistent s.stop := by
  exact ⟨hs.inventory.stop, hs.named, fun n => Slot.settled_of_none rfl⟩

/-- A call that is regular and stationary. -/
def Careful (s : State) (op : Op) : Prop := op.Regular ∧ Stationary s op

theorem Consistent.step {s' : State} {op : Op} (hs : Consistent s) (hguard : Careful s op)
    (hstep : step s op = some s') : Consistent s' := by
  obtain ⟨hregular, hstationary⟩ := hguard
  cases op with
  | start env sources =>
    cases hstep
    exact hs.start hregular hstationary
  | reconcile env ds =>
    cases hstep
    exact hs.reconcile hregular hstationary
  | stop =>
    cases hstep
    exact hs.stop

end Calls

/-- After every sequence of calls none of which leaves a listener behind, a `Reconcile`
makes the listeners those of its list exactly when every enabled source of the list
follows. -/
theorem reconcile_serving_iff (ops : List Op) (env : Env) (ds : List Desired) (s : State)
    (hguard : Transition.Guarded step Careful {} ops) (hrun : run ops = some s)
    (hregular : (Op.reconcile env ds).Regular) :
    Serving (s.reconcile env ds) ds ↔ Stationary s (.reconcile env ds) := by
  have hs : Consistent s :=
    hguard.invariant (fun _ _ _ hs hG hstep => hs.step hG hstep) Consistent.init hrun
  exact hs.serving_iff hregular

/-- Every listener starts, at the address its definition asks for. -/
def allStart : Env := ⟨fun _ sc => .ok sc.address, fun _ => .ok ()⟩

/-- A UDP source at an address. -/
def syslogAt (name address : String) : Desired :=
  ⟨{ name, type := sourceTypeSyslog, protocol := protocolUDP, address }, .file⟩

theorem allStart_starts : allStart.Starts := fun _ sc => ⟨sc.address, rfl⟩

/-- A second source joins a running one. -/
theorem reconcile_serving_iff_join :
    Serving (State.reconcile allStart (State.start allStart {} [(syslogAt "a" "127.0.0.1:514").source])
      [syslogAt "a" "127.0.0.1:514", syslogAt "b" "127.0.0.1:515"])
      [syslogAt "a" "127.0.0.1:514", syslogAt "b" "127.0.0.1:515"] := by
  have hguard : Transition.Guarded step Careful {}
      [.start allStart [(syslogAt "a" "127.0.0.1:514").source]] := by
    intro s' _
    exact ⟨⟨⟨by decide, allStart_starts⟩, fun _ _ => rfl⟩, trivial⟩
  refine (reconcile_serving_iff _ allStart _ _ hguard rfl ⟨by decide, allStart_starts⟩).mpr ?_
  intro d hd hon
  obtain rfl | rfl : d = syslogAt "a" "127.0.0.1:514" ∨ d = syslogAt "b" "127.0.0.1:515" := by
    simpa using hd
  · exact .inr rfl
  · trivial

/-- A source is moved to another address: its new listener is stopped and the old one
is live and held nowhere. -/
theorem move_leaks :
    ∃ s, run [.start allStart [(syslogAt "a" "127.0.0.1:514").source],
        .reconcile allStart [syslogAt "a" "127.0.0.1:515"]] = some s ∧
      s.live = [⟨0, (syslogAt "a" "127.0.0.1:514").source, "127.0.0.1:514"⟩] ∧
      s.running.lookup "a" = none ∧ ¬ Serving s [syslogAt "a" "127.0.0.1:515"] := by
  refine ⟨_, rfl, rfl, rfl, fun h => ?_⟩
  obtain ⟨l, -, -, hheld, -⟩ := h.each (syslogAt "a" "127.0.0.1:515") (by simp) rfl
  cases hheld

end Syslogc.Supervisor
