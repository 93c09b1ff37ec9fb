-- SUMMARY: What one pass of `Reconcile` does to each source.
import Syslogc.Supervisor.Listeners

/-!
# One pass

A pass acts on each name on its own: on what is held under it, and on the place of the
`http_json` source if the name has it. Only the outcome of the start depends on the other
sources. `State.restart_slot` says what a pass makes of a source, given that outcome.
-/

namespace Syslogc.Supervisor

open Config

/-! ## One pass over a name -/

namespace Slot

variable {v : Slot} {d prev : Desired} {o : Outcome} {id : Nat}

theorem pass_of_same (h : v.desired = some d) : v.pass d o id = v := if_pos h

theorem pass_of_new (h : v.desired = none) : v.pass d o id = v.applied d o id := by
  rw [pass, if_neg (by simp [h]), h]

theorem pass_of_first (h : v.desired = some prev) (hne : prev ≠ d) (hfirst : v.stopsFirst prev.source d = true) :
    v.pass d o id = (v.stopped prev.source).applied d o id := by
  rw [pass, if_neg (by simpa [h] using hne), h]
  exact if_pos hfirst

/-- A definition that does not stop first is another one. -/
theorem ne_of_moves (hmoves : v.stopsFirst prev.source d = false) : prev ≠ d := by
  rintro rfl
  simp [stopsFirst, sameBind] at hmoves

theorem pass_of_moves (h : v.desired = some prev) (hmoves : v.stopsFirst prev.source d = false) :
    v.pass d o id = (v.applied d o id).settled prev.source := by
  rw [pass, if_neg (by simpa [h] using ne_of_moves hmoves), h]
  exact if_neg (by simp [hmoves])

/-- The outcomes that are reported as running. -/
theorem status_running_iff : (d.status o).state = .running ↔ o = .http ∨ ∃ addr, o = .listening addr := by
  cases o with
  | disabled => exact iff_of_false (show SourceState.disabled ≠ .running by decide) (by simp)
  | failed e => exact iff_of_false (show SourceState.error ≠ .running by decide) (by simp)
  | http => exact iff_of_true rfl (.inl rfl)
  | listening addr => exact iff_of_true rfl (.inr ⟨addr, rfl⟩)

theorem pass_desired_cases (v : Slot) (d : Desired) (o : Outcome) (id : Nat) :
    (v.pass d o id).desired = v.desired ∨ (v.pass d o id).desired = some d ∨
      ∃ prev, v.desired = some prev ∧ (v.pass d o id).desired = some ⟨prev.source, d.origin⟩ := by
  unfold pass
  split
  · exact .inl rfl
  · split
    · exact .inr (.inl rfl)
    · split
      · exact .inr (.inl rfl)
      · unfold settled
        split
        · exact .inr (.inl rfl)
        · exact .inr (.inr ⟨_, ‹_›, rfl⟩)

end Slot

variable {s : State} {n : String} {env : Env} {d : Desired}

/-! ## The loops -/

section Loop

variable {α : Type} {f : State → α → State} {name : α → String} {as : List α}

/-- A loop whose body acts on one name at a time does not touch the other names. -/
theorem foldl_slot_ne (hf : ∀ s a n, n ≠ name a → (f s a).slot n = s.slot n) (h : ∀ a ∈ as, n ≠ name a) :
    (as.foldl f s).slot n = s.slot n := by
  induction as generalizing s with
  | nil => rfl
  | cons a as ih =>
    rw [List.foldl_cons, ih fun b hb => h b (List.mem_cons_of_mem a hb)]
    exact hf s a n (h a List.mem_cons_self)

/-- What such a loop leaves under a name is what its body leaves, from the state at the
turn of the name. -/
theorem foldl_slot (hf : ∀ s a n, n ≠ name a → (f s a).slot n = s.slot n) (hnames : (as.map name).Nodup) {a : α}
    (ha : a ∈ as) :
    let t := (as.takeWhile fun b => name b ≠ name a).foldl f s
    t.slot (name a) = s.slot (name a) ∧ (as.foldl f s).slot (name a) = (f t a).slot (name a) := by
  induction as generalizing s with
  | nil => cases ha
  | cons b as ih =>
    obtain ⟨hb, hnames⟩ := List.nodup_cons.mp hnames
    by_cases hab : name b = name a
    · have hfresh : ∀ c ∈ as, name a ≠ name c := fun c hc heq => hb (hab ▸ heq ▸ List.mem_map_of_mem hc)
      obtain rfl | ha := List.mem_cons.mp ha
      · simp only [List.takeWhile_cons, ne_eq, not_true_eq_false, decide_false, Bool.false_eq_true, if_false,
          List.foldl_nil, true_and]
        exact foldl_slot_ne hf hfresh
      · exact absurd rfl (hfresh a ha)
    · have ha : a ∈ as := by
        obtain rfl | ha := List.mem_cons.mp ha
        · exact absurd rfl hab
        · exact ha
      obtain ⟨hbefore, hafter⟩ := ih (s := f s b) hnames ha
      simp only [List.takeWhile_cons, ne_eq, hab, not_false_eq_true, decide_true, if_true, List.foldl_cons]
      exact ⟨hbefore.trans (hf s b _ (Ne.symm hab)), hafter⟩

end Loop

section Steps

variable {ds : List Desired}

theorem State.apply_slot_ne (h : ∀ d ∈ ds, n ≠ d.name) : (s.apply env ds).slot n = s.slot n :=
  foldl_slot_ne (fun s d => s.applyOne_slot_ne env d) h

theorem State.stopAfter_fold_slot_ne {after : List Source} (h : ∀ p ∈ after, n ≠ p.name) :
    (after.foldl State.stopAfter s).slot n = s.slot n :=
  foldl_slot_ne State.stopAfter_slot_ne h

theorem State.stopBefore_slot_ne (s : State) (ds : List Desired) (h : ∀ d ∈ ds, n ≠ d.name) :
    (s.stopBefore ds).1.slot n = s.slot n := by
  induction ds generalizing s with
  | nil => rfl
  | cons d ds ih =>
    have hrest := fun d' hd' => h d' (List.mem_cons_of_mem d hd')
    rw [State.stopBefore]
    split
    · exact ih s hrest
    · split
      · rw [ih _ hrest, State.stopSource_slot_ne _ _ (h d List.mem_cons_self)]
      · exact ih s hrest

/-- What the loop over the changed sources leaves of one of them. -/
theorem State.stopBefore_slot (hnames : (ds.map Desired.name).Nodup) (hd : d ∈ ds) :
    (s.stopBefore ds).1.slot d.name =
      match s.desired.lookup d.name with
      | none => s.slot d.name
      | some prev =>
        if (s.slot d.name).stopsFirst prev.source d then (s.slot d.name).stopped prev.source else s.slot d.name := by
  induction ds generalizing s with
  | nil => cases hd
  | cons c ds ih =>
    rw [List.map_cons, List.nodup_cons] at hnames
    obtain ⟨hfresh, hnames⟩ := hnames
    have hfresh : ∀ d' ∈ ds, c.name ≠ d'.name := fun d' hd' heq => hfresh (heq ▸ List.mem_map_of_mem hd')
    obtain rfl | hd := List.mem_cons.mp hd
    · rw [State.stopBefore]
      cases hprev : s.desired.lookup d.name with
      | none => exact s.stopBefore_slot_ne ds hfresh
      | some prev =>
        simp only [State.stopsFirst_eq]
        split
        · rw [State.stopBefore_slot_ne _ ds hfresh, State.stopSource_slot]
        · exact s.stopBefore_slot_ne ds hfresh
    · have hne : d.name ≠ c.name := fun heq => hfresh d hd heq.symm
      rw [State.stopBefore]
      split
      · exact ih hnames hd
      · split
        · rename_i prev _ _
          have hdesired : (s.stopSource c.name prev.source).desired = s.desired := rfl
          rw [ih hnames hd, s.stopSource_slot_ne prev.source hne, hdesired]
        · exact ih hnames hd

/-- The source moves: the listener of its previous definition `p` is to be stopped
after the new one is started. -/
def State.Moves (s : State) (d : Desired) (p : Source) : Prop :=
  ∃ prev, s.desired.lookup d.name = some prev ∧ s.stopsFirst prev.source d = false ∧
    prev.source = p

theorem State.moves_congr {s' : State} (h : s'.slot d.name = s.slot d.name) (p : Source) :
    s'.Moves d p ↔ s.Moves d p := by
  have hdesired : s'.desired.lookup d.name = s.desired.lookup d.name := congrArg (·.desired) h
  simp only [State.Moves, hdesired, State.stopsFirst_eq, h]

theorem State.stopBefore_after (hnames : (ds.map Desired.name).Nodup) (p : Source) :
    p ∈ (s.stopBefore ds).2 ↔ ∃ d ∈ ds, s.Moves d p := by
  induction ds generalizing s with
  | nil => simp [State.stopBefore]
  | cons c ds ih =>
    rw [List.map_cons, List.nodup_cons] at hnames
    obtain ⟨hfresh, hnames⟩ := hnames
    have hne : ∀ d ∈ ds, d.name ≠ c.name := fun d hd heq => hfresh (heq ▸ List.mem_map_of_mem hd)
    simp only [List.mem_cons, exists_eq_or_imp]
    rw [State.stopBefore]
    split
    · rename_i hnone
      have hstays : ¬ s.Moves c p := by simp [State.Moves, hnone]
      rw [ih hnames, or_iff_right hstays]
    · rename_i prev hprev
      split
      · rename_i hfirst
        have hstays : ¬ s.Moves c p := by simp [State.Moves, hprev, hfirst]
        rw [ih hnames, or_iff_right hstays]
        refine exists_congr fun d => and_congr_right fun hd => ?_
        exact State.moves_congr (s.stopSource_slot_ne prev.source (hne d hd)) p
      · rename_i hlater
        have hmoves : s.Moves c p ↔ p = prev.source := by
          simp only [State.Moves, hprev, Option.some.injEq, exists_eq_left', eq_comm,
            (by simpa using hlater : s.stopsFirst prev.source c = false), true_and]
        rw [hmoves, ← ih hnames]
        exact List.mem_cons

/-- The definitions are kept under their names. -/
def State.Named (s : State) : Prop := ∀ n d, s.desired.lookup n = some d → d.name = n

theorem State.stopBefore_after_names (hs : s.Named) (ds : List Desired) :
    ((s.stopBefore ds).2.map (·.name)).Sublist (ds.map Desired.name) := by
  induction ds generalizing s with
  | nil => exact .slnil
  | cons d ds ih =>
    rw [State.stopBefore]
    split
    · exact (ih hs).cons _
    · rename_i prev hprev
      split
      · exact (ih (s := s.stopSource d.name prev.source) hs).cons _
      · have hname : prev.source.name = d.name := hs d.name prev hprev
        simp only [List.map_cons, hname]
        exact (ih hs).cons_cons _

end Steps

/-! ## One pass over the list -/

variable {ds : List Desired}

/-- The changed sources are started, and nothing is stopped yet that is to be stopped
afterwards. -/
def State.applied (env : Env) (s : State) (ds : List Desired) : State :=
  (s.stopBefore (s.changed ds)).1.apply env (s.changed ds)

/-- The state in which a changed source is started. -/
def State.turn (env : Env) (s : State) (ds : List Desired) (d : Desired) : State :=
  (s.stopBefore (s.changed ds)).1.apply env ((s.changed ds).takeWhile fun c => c.name ≠ d.name)

/-- What becomes of a changed source when it is started. -/
def State.atTurn (env : Env) (s : State) (ds : List Desired) (d : Desired) : Outcome :=
  (s.turn env ds d).outcome env d.source

/-- What `Reconcile` does once the unwanted sources are removed. -/
def State.restart (env : Env) (s : State) (ds : List Desired) : State :=
  (s.stopBefore (s.changed ds)).2.foldl State.stopAfter (s.applied env ds)

theorem State.reconcile_eq (env : Env) (s : State) (ds : List Desired) :
    s.reconcile env ds = (s.removeUnwanted ds).restart env ds := by
  simp only [State.reconcile, State.restart, State.applied]
  split
  · rename_i hnone
    rw [hnone]
    rfl
  · rfl

theorem State.mem_changed : d ∈ s.changed ds ↔ d ∈ ds ∧ s.desired.lookup d.name ≠ some d := by
  simp [State.changed]

theorem State.changed_nodup (hnames : (ds.map Desired.name).Nodup) :
    ((s.changed ds).map Desired.name).Nodup :=
  hnames.sublist (List.filter_sublist.map _)

/-- Names are unique, so a source is known by its name. -/
theorem eq_of_name_eq (hnames : (ds.map Desired.name).Nodup) {d' : Desired} (hd : d ∈ ds) (hd' : d' ∈ ds)
    (h : d.name = d'.name) : d = d' :=
  List.inj_on_of_nodup_map hnames hd hd' h

theorem State.turn_slot (env : Env) (hnames : (ds.map Desired.name).Nodup) (hd : d ∈ s.changed ds) :
    (s.turn env ds d).slot d.name = (s.stopBefore (s.changed ds)).1.slot d.name ∧
      (s.applied env ds).slot d.name = ((s.turn env ds d).applyOne env d).slot d.name :=
  foldl_slot (fun s d => s.applyOne_slot_ne env d) (State.changed_nodup hnames) hd

/-- A pass over a source of the list, given what becomes of its start. -/
theorem State.restart_slot (env : Env) (hs : s.Named) (hnames : (ds.map Desired.name).Nodup) (hd : d ∈ ds) :
    (s.restart env ds).slot d.name =
      (s.slot d.name).pass d (s.atTurn env ds d) (s.turn env ds d).started.length := by
  have hafterNames := State.stopBefore_after_names hs (s.changed ds)
  have hname_of {p : Source} (hp : p ∈ (s.stopBefore (s.changed ds)).2) (hname : p.name = d.name) :
      d ∈ s.changed ds ∧ s.Moves d p := by
    obtain ⟨d', hd', hmoves⟩ := (State.stopBefore_after (State.changed_nodup hnames) p).mp hp
    obtain ⟨prev, hprev, -, rfl⟩ := id hmoves
    have hname' : prev.source.name = d'.name := hs d'.name prev hprev
    obtain rfl := eq_of_name_eq hnames (State.mem_changed.mp hd').1 hd (hname'.symm.trans hname)
    exact ⟨hd', hmoves⟩
  have hdesired : (s.slot d.name).desired = s.desired.lookup d.name := rfl
  unfold Slot.pass
  rw [hdesired]
  by_cases hsame : s.desired.lookup d.name = some d
  · have hout : d ∉ s.changed ds := fun h => (State.mem_changed.mp h).2 hsame
    have hapart : ∀ c ∈ s.changed ds, d.name ≠ c.name := fun c hc hname =>
      hout (eq_of_name_eq hnames hd (State.mem_changed.mp hc).1 hname ▸ hc)
    rw [if_pos hsame, State.restart, State.stopAfter_fold_slot_ne, State.applied, State.apply_slot_ne hapart,
      State.stopBefore_slot_ne _ _ hapart]
    intro p hp hname
    exact hout (hname_of hp hname.symm).1
  · have hchanged := State.mem_changed.mpr ⟨hd, hsame⟩
    obtain ⟨hturn, happlied⟩ := State.turn_slot env hnames hchanged
    rw [if_neg hsame]
    rw [State.applyOne_slot, hturn, State.stopBefore_slot (State.changed_nodup hnames) hchanged] at happlied
    cases hprev : s.desired.lookup d.name with
    | none =>
      rw [State.restart, State.stopAfter_fold_slot_ne]
      · simp only [hprev] at happlied
        exact happlied
      · intro p hp hname
        obtain ⟨prev, hprev', -⟩ := (hname_of hp hname.symm).2
        cases hprev.symm.trans hprev'
    | some prev =>
      simp only [hprev] at happlied ⊢
      by_cases hfirst : (s.slot d.name).stopsFirst prev.source d = true
      · rw [if_pos hfirst] at happlied ⊢
        rw [State.restart, State.stopAfter_fold_slot_ne]
        · exact happlied
        · intro p hp hname
          obtain ⟨prev', hprev', hlater, -⟩ := (hname_of hp hname.symm).2
          cases hprev.symm.trans hprev'
          rw [State.stopsFirst_eq, hfirst] at hlater
          cases hlater
      · rw [if_neg hfirst] at happlied ⊢
        have hmoves : s.Moves d prev.source := ⟨prev, hprev, by rw [State.stopsFirst_eq]; simpa using hfirst, rfl⟩
        have hp := (State.stopBefore_after (State.changed_nodup hnames) prev.source).mpr ⟨d, hchanged, hmoves⟩
        have hname : prev.source.name = d.name := hs d.name prev hprev
        obtain ⟨hbefore, hlast⟩ := foldl_slot (s := s.applied env ds) State.stopAfter_slot_ne
          ((State.changed_nodup hnames).sublist hafterNames) hp
        rw [hname] at hbefore hlast
        rw [State.restart, hlast, ← hname, State.stopAfter_slot, hname, hbefore, happlied]
        rfl

/-- A name that is not in the list is not touched once the unwanted sources are removed. -/
theorem State.restart_slot_ne (env : Env) (hs : s.Named) (h : ∀ d ∈ ds, n ≠ d.name) :
    (s.restart env ds).slot n = s.slot n := by
  have hchanged : ∀ d ∈ s.changed ds, n ≠ d.name := fun d hd => h d (State.mem_changed.mp hd).1
  rw [State.restart, State.stopAfter_fold_slot_ne, State.applied, State.apply_slot_ne hchanged,
    State.stopBefore_slot_ne _ _ hchanged]
  intro p hp hname
  obtain ⟨d, hd, hd'⟩ := List.mem_map.mp ((State.stopBefore_after_names hs _).subset (List.mem_map_of_mem hp))
  exact hchanged d hd (hname.trans hd'.symm)

theorem State.Named.restart (hs : s.Named) (hnames : (ds.map Desired.name).Nodup) : (s.restart env ds).Named := by
  intro n c hc
  have hc : ((s.restart env ds).slot n).desired = some c := hc
  by_cases hn : ∀ d ∈ ds, n ≠ d.name
  · rw [State.restart_slot_ne _ hs hn] at hc
    exact hs n c hc
  · obtain ⟨d, hd, rfl⟩ : ∃ d ∈ ds, n = d.name := by simpa using hn
    rw [State.restart_slot _ hs hnames hd] at hc
    obtain h | h | ⟨prev, hprev, h⟩ := Slot.pass_desired_cases (s.slot d.name) d (s.atTurn env ds d) _
    · exact hs d.name c (h.symm.trans hc)
    · cases h.symm.trans hc
      rfl
    · cases h.symm.trans hc
      exact hs d.name prev hprev

/-! ## Removing what is no longer wanted -/

/-- The sources of the list stay as they are. -/
theorem State.removeUnwanted_slot_wanted (s : State) (hd : d ∈ ds) :
    (s.removeUnwanted ds).slot d.name = s.slot d.name := by
  unfold State.removeUnwanted
  generalize s.desired.entries = es
  induction es generalizing s with
  | nil => rfl
  | cons e es ih =>
    rw [List.foldl_cons, ih]
    by_cases he : d.name = e.1
    · have hany : ds.any (·.name = e.1) := List.any_eq_true.mpr ⟨d, hd, by simpa using he⟩
      rw [State.keepOrRemove, if_pos hany]
    · exact s.keepOrRemove_slot_ne ds e d.name he

/-- A source that is not in the list is removed, if it is known. -/
theorem State.removeUnwanted_slot_unwanted (s : State) (h : ∀ d ∈ ds, n ≠ d.name) :
    (s.removeUnwanted ds).slot n =
      match s.desired.lookup n with
      | none => s.slot n
      | some prev => (s.slot n).removed prev.source := by
  have hne := State.keepOrRemove_slot_ne ds
  have hunwanted : ¬ds.any (·.name = n) := by
    rw [List.any_eq_true]
    rintro ⟨d, hd, hname⟩
    exact h d hd (Eq.symm (by simpa using hname))
  cases hprev : s.desired.lookup n with
  | none =>
    apply foldl_slot_ne hne
    intro e he hn
    have hmem : (⟨n, e.2⟩ : Σ _ : String, Desired) ∈ s.desired.entries := by rw [hn]; exact he
    cases hprev.symm.trans (AList.mem_lookup_iff.mpr hmem)
  | some prev =>
    have hmem : (⟨n, prev⟩ : Σ _ : String, Desired) ∈ s.desired.entries := AList.mem_lookup_iff.mp hprev
    obtain ⟨hbefore, hafter⟩ := foldl_slot (s := s) hne s.desired.nodupKeys hmem
    rw [State.removeUnwanted, hafter, State.keepOrRemove, if_neg hunwanted, State.remove_slot, hbefore]

/-- A name keeps what belongs to it, and is known only if it is in the list, or it is emptied. -/
theorem State.removeUnwanted_slot (s : State) (ds : List Desired) (n : String) :
    (s.removeUnwanted ds).slot n = s.slot n ∧ (s.desired.lookup n ≠ none → ∃ d ∈ ds, d.name = n) ∨
      ∃ prev, s.desired.lookup n = some prev ∧ (s.removeUnwanted ds).slot n = (s.slot n).removed prev.source := by
  by_cases hn : ∀ d ∈ ds, n ≠ d.name
  · have hslot := s.removeUnwanted_slot_unwanted hn
    cases hprev : s.desired.lookup n with
    | none =>
      rw [hprev] at hslot
      exact .inl ⟨hslot, fun h => absurd rfl h⟩
    | some prev =>
      rw [hprev] at hslot
      exact .inr ⟨prev, rfl, hslot⟩
  · obtain ⟨d, hd, rfl⟩ : ∃ d ∈ ds, n = d.name := by simpa using hn
    exact .inl ⟨s.removeUnwanted_slot_wanted hd, fun _ => ⟨d, hd, rfl⟩⟩

theorem State.Named.removeUnwanted (hs : s.Named) (ds : List Desired) : (s.removeUnwanted ds).Named := by
  intro n d hd
  have hd : ((s.removeUnwanted ds).slot n).desired = some d := hd
  obtain ⟨h, -⟩ | ⟨prev, -, h⟩ := s.removeUnwanted_slot ds n
  · rw [h] at hd
    exact hs n d hd
  · rw [h] at hd
    cases hd

end Syslogc.Supervisor
