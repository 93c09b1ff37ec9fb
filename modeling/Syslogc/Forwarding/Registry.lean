-- SUMMARY: Which forwarders the registry leaves running.
import Syslogc.Lib.Lists
import Syslogc.Forwarding.Invariant

/-!
# The registry

`Reconcile` keeps the forwarder of an unchanged target and stops those whose name
is no longer wanted. A target that is reconfigured under its old name gets a new
forwarder, and the old one is neither registered nor stopped: its name is kept.
`Reconciles` excludes this case, targets that share a name, and builds that fail;
`registered_of_guarded` says that nothing else leaks.
-/

namespace Syslogc.Forwarding

variable {κ : Type}

/-! ## What the registry should hold -/

/-- `Stop` has run its course: no sender is left, and nothing is queued. -/
structure Forwarder.Stopped (f : Forwarder κ) : Prop where
  closed : f.closed = true
  idle : f.idle = true
  queue : f.queue = []

/-- The forwarder with index `id` was built for the target. -/
def State.Serves (s : State κ) (t : Target κ) (id : Nat) : Prop :=
  ∃ f, s.forwarders[id]? = some f ∧ f.opts = t.options.withDefaults

def enabledTargets (ts : List (Target κ)) : List (Target κ) := ts.filter (·.enabled)

/-- Every forwarder ever built is the one registered under its name or is stopped,
and the unstopped ones are those of the enabled targets, one for each. -/
structure Registered (s : State κ) : Prop where
  held : ∀ (id : Nat) (f : Forwarder κ), s.forwarders[id]? = some f →
    (id ∈ s.current ∧ ∀ id' ∈ s.current, s.nameOf id' = s.nameOf id → id' = id) ∨ f.Stopped
  one : ∀ t ∈ enabledTargets s.wanted, ∃ (id : Nat) (f : Forwarder κ),
    s.forwarders[id]? = some f ∧ f.closed = false ∧ f.opts = t.options.withDefaults ∧
    ∀ (id' : Nat) (f' : Forwarder κ), s.forwarders[id']? = some f' → f'.closed = false →
      f'.name = t.name → id' = id
  only : ∀ (id : Nat) (f : Forwarder κ), s.forwarders[id]? = some f → f.closed = false →
    ∃ t ∈ enabledTargets s.wanted, f.opts = t.options.withDefaults

/-- The steps that leave nothing behind. Of a reconciliation: the enabled targets
have different names, and each of them is unchanged, or is built under a name that
is not in use. Of a stop: the queue is empty or has a sender to empty it. -/
def Reconciles [DecidableEq κ] (s : State κ) : Label κ → Prop
  | .reconcile rs =>
    ((enabledTargets (rs.map (·.target))).map Target.name).Nodup ∧
      ∀ r ∈ rs, r.target.enabled = true → s.unchanged r.target ≠ none ∨
        r.built = true ∧ s.running r.target.name = none
  | .close id => ∀ f ∈ s.forwarders[id]?, f.senders ≠ [] ∨ f.queue = []
  | _ => True

instance [DecidableEq κ] (s : State κ) (l : Label κ) : Decidable (Reconciles s l) := by
  cases l <;> (unfold Reconciles; infer_instance)

/-! ## Names -/

variable {s : State κ}

theorem State.Serves.nameOf {t : Target κ} {id : Nat} (h : s.Serves t id) :
    s.nameOf id = some t.name := by
  obtain ⟨f, hf, hopts⟩ := h
  simp [State.nameOf, hf, Forwarder.name, hopts, Options.withDefaults, Target.name]

theorem names_of_serves {ts : List (Target κ)} {ids : List Nat}
    (h : List.Forall₂ s.Serves ts ids) : ids.map s.nameOf = ts.map fun t => some t.name := by
  induction h with
  | nil => rfl
  | cons hserves _ ih => rw [List.map_cons, List.map_cons, ih, hserves.nameOf]

/-- No two registered forwarders share a name. -/
theorem names_nodup {ts : List (Target κ)} {ids : List Nat}
    (h : List.Forall₂ s.Serves ts ids) (hnames : (ts.map Target.name).Nodup) :
    (ids.map s.nameOf).Nodup := by
  rw [names_of_serves h]
  have hsome := hnames.map (Option.some_injective String)
  rwa [List.map_map] at hsome

theorem id_unique {ids : List Nat} (hnodup : (ids.map s.nameOf).Nodup) {id id' : Nat}
    (hid : id ∈ ids) (hid' : id' ∈ ids) (hname : s.nameOf id' = s.nameOf id) : id' = id :=
  List.inj_on_of_nodup_map hnodup hid' hid hname

theorem State.running_eq (hnodup : (s.current.map s.nameOf).Nodup) {name : String}
    {id : Nat} (hid : id ∈ s.current) (hname : s.nameOf id = some name) :
    s.running name = some id := by
  cases hrunning : s.running name with
  | none =>
    have hno := List.find?_eq_none.mp hrunning id (List.mem_reverse.mpr hid)
    simp [hname] at hno
  | some id' =>
    obtain ⟨hid', hname'⟩ := State.running_mem hrunning
    rw [id_unique hnodup hid hid' (by rw [hname, hname'])]

/-! ## The loop of Reconcile -/

/-- The index chosen for a target: the one it had, or that of a new forwarder. -/
structure Chosen [DecidableEq κ] (s : State κ) (fs : List (Forwarder κ)) (t : Target κ)
    (id : Nat) : Prop where
  serves : ∃ f, fs[id]? = some f ∧ f.opts = t.options.withDefaults
  fresh : s.unchanged t = some id ∨ s.unchanged t = none ∧
    s.forwarders.length ≤ id ∧ ∃ f, fs[id]? = some f ∧ f.closed = false

theorem enabledTargets_cons {r : BuildRequest κ} {rs : List (BuildRequest κ)} (h : r.target.enabled = true) :
    enabledTargets ((r :: rs).map (·.target)) = r.target :: enabledTargets (rs.map (·.target)) := by
  simp [enabledTargets, h]

/-- When every enabled target is unchanged or can be built, the loop chooses one
forwarder for each, in order, and builds no others. -/
theorem State.plan_chosen [DecidableEq κ] (s : State κ) (rs : List (BuildRequest κ))
    (hrs : ∀ r ∈ rs, r.target.enabled = true →
      (∀ id, s.unchanged r.target = some id → s.Serves r.target id) ∧
      (s.unchanged r.target = none → r.built = true))
    (p : Plan κ) (hp : s.forwarders <+: p.forwarders) :
    ∃ fs ids,
      (s.plan p rs).forwarders = p.forwarders ++ fs ∧
      (s.plan p rs).next = p.next ++ ids ∧
      (s.plan p rs).keep = p.keep ++ (enabledTargets (rs.map (·.target))).map Target.name ∧
      List.Forall₂ (Chosen s (p.forwarders ++ fs)) (enabledTargets (rs.map (·.target))) ids ∧
      ∀ k < fs.length, p.forwarders.length + k ∈ ids := by
  fun_induction State.plan s p rs with
  | case1 p => exact ⟨[], [], by simp [enabledTargets]⟩
  | case2 p r rs hoff ih =>
    have htail : enabledTargets ((r :: rs).map (·.target)) = enabledTargets (rs.map (·.target)) := by
      have hoff : r.target.enabled = false := by simpa using hoff
      simp [enabledTargets, hoff]
    rw [htail]
    exact ih (fun r' hr' => hrs r' (List.mem_cons_of_mem r hr')) hp
  | case3 p r rs hon id hid ih =>
    have hon : r.target.enabled = true := by simpa using hon
    obtain ⟨fs, ids, hfs, hids, hkeep, hchosen, hnew⟩ :=
      ih (fun r' hr' => hrs r' (List.mem_cons_of_mem r hr')) hp
    rw [enabledTargets_cons hon]
    refine ⟨fs, id :: ids, hfs, by rw [hids]; simp, by rw [hkeep]; simp, .cons ⟨?_, .inl hid⟩ hchosen,
      fun k hk => List.mem_cons_of_mem _ (hnew k hk)⟩
    obtain ⟨f, hf, hopts⟩ := (hrs r (by simp) hon).1 id hid
    obtain ⟨gs, hgs⟩ := hp
    refine ⟨f, ?_, hopts⟩
    have hlt : id < s.forwarders.length := (List.getElem?_eq_some_iff.mp hf).1
    rw [← hgs, List.append_assoc, List.getElem?_append_left hlt, hf]
  | case4 p r rs hon hchanged hbuilt ih =>
    have hon : r.target.enabled = true := by simpa using hon
    simp [(hrs r (by simp) hon).2 hchanged] at hbuilt
  | case5 p r rs hon hchanged hbuilt ih =>
    have hon : r.target.enabled = true := by simpa using hon
    obtain ⟨fs, ids, hfs, hids, hkeep, hchosen, hnew⟩ :=
      ih (fun r' hr' => hrs r' (List.mem_cons_of_mem r hr')) (hp.trans (List.prefix_append _ _))
    have hassoc : p.forwarders ++ s.build r.target :: fs =
        p.forwarders ++ [s.build r.target] ++ fs := by simp
    have hget : (p.forwarders ++ s.build r.target :: fs)[p.forwarders.length]? =
        some (s.build r.target) := by simp
    rw [enabledTargets_cons hon]
    refine ⟨s.build r.target :: fs, p.forwarders.length :: ids, by rw [hfs, hassoc],
      by rw [hids]; simp, by rw [hkeep]; simp, .cons ⟨?_, .inr ?_⟩ (hassoc ▸ hchosen), ?_⟩
    · exact ⟨_, hget, (s.build_opts r.target).1⟩
    · exact ⟨hchanged, hp.length_le, _, hget, (s.build_opts r.target).2⟩
    · intro k hk
      cases k with
      | zero => simp
      | succ k =>
        have hmem := hnew k (by simpa using hk)
        simp only [List.length_append, List.length_singleton] at hmem
        rw [Nat.add_comm k 1, ← Nat.add_assoc]
        exact List.mem_cons_of_mem _ hmem

/-! ## What calls and senders may do meanwhile -/

/-- What calls and senders may do to a forwarder. -/
structure Forwarder.Later (f f' : Forwarder κ) : Prop where
  opts : f'.opts = f.opts
  closed : f'.closed = f.closed
  senders : f.senders ≠ [] → f'.senders ≠ []
  queue : f.closed = true → f.queue = [] → f'.queue = []
  stopped : f.Stopped → f'.Stopped

theorem Forwarder.Later.refl (f : Forwarder κ) : f.Later f := ⟨rfl, rfl, id, fun _ => id, id⟩

/-- A change that leaves the queue and the senders alone. -/
theorem Forwarder.Later.of_eq {f f' : Forwarder κ} (hopts : f'.opts = f.opts)
    (hclosed : f'.closed = f.closed) (hsenders : f'.senders = f.senders)
    (hqueue : f'.queue = f.queue) : f.Later f' :=
  ⟨hopts, hclosed, by rw [hsenders]; exact id, by rw [hqueue]; exact fun _ => id, fun h =>
    ⟨hclosed ▸ h.closed, by rw [Forwarder.idle, hsenders]; exact h.idle, hqueue ▸ h.queue⟩⟩

theorem Touched.later {l : Label κ} {id : Nat} {f f' : Forwarder κ} (hs : Sound s)
    (hf : s.forwarders[id]? = some f) (h : Touched s l id f f') (hclose : l ≠ .close id)
    (hstart : l = .start → f.Stopped → id ∉ s.current) : f.Later f' := by
  cases h with
  | same => exact .refl f
  | visited _ hc htodo h =>
    obtain ⟨hopts, hclosed, hsenders⟩ := h.frame
    obtain hqueue | ⟨out, hphase, -⟩ := h.queue
    · exact .of_eq hopts hclosed hsenders hqueue
    · have hopen := hs.open_of_inside hc htodo hf (by simp [hphase])
      exact ⟨hopts, hclosed, by rw [hsenders]; exact fun h => h, by rw [hopen]; rintro ⟨⟩,
        fun hstopped => absurd hstopped.closed (by rw [hopen]; rintro ⟨⟩)⟩
  | sent hw h =>
    have hmem := List.mem_of_getElem? hw
    obtain ⟨w', hset, -⟩ := h.sender ((hs.forwarders f (List.mem_of_getElem? hf)).clean _ hmem)
    refine ⟨h.frame.1, h.frame.2.1, by simp [hset], fun _ hnil => List.subset_nil.mp (hnil ▸ h.queue),
      fun hstopped => ?_⟩
    have hexited := List.all_eq_true.mp hstopped.idle _ hmem
    rw [h.running] at hexited
    cases hexited
  | started hl =>
    refine ⟨rfl, rfl, fun hne => by simp [hne], fun _ hq => hq, fun hstopped => ?_⟩
    -- A stopped forwarder is not in use, so it gets no sender.
    rw [List.count_eq_zero_of_not_mem (hstart hl hstopped)]
    simpa using hstopped
  | closed hl => exact absurd hl hclose
  | expired => exact .of_eq rfl rfl rfl rfl

/-! ## The invariant -/

def Mutation.todo : Mutation → List Nat
  | .none => []
  | .stopping todo _ _ => todo

def Mutation.waiting : Mutation → List Nat
  | .none => []
  | .stopping _ waiting _ => waiting

/-- The registry's `Stop` is running. -/
def Mutation.shutdown : Mutation → Bool
  | .none => false
  | .stopping _ _ all => all

structure Tidy (s : State κ) : Prop where
  names : ((enabledTargets s.wanted).map Target.name).Nodup
  serving : s.mutation.shutdown = false →
    List.Forall₂ s.Serves (enabledTargets s.wanted) s.current
  desired : s.mutation.shutdown = false → s.desired = s.wanted ∨ s.current = []
  current : s.mutation.shutdown = false → ∀ id ∈ s.current, ∀ (f : Forwarder κ),
    s.forwarders[id]? = some f → f.closed = false
  shutdown : s.mutation.shutdown = true → s.wanted = []
  todo : ∀ id ∈ s.mutation.todo, ∀ (f : Forwarder κ), s.forwarders[id]? = some f → f.closed = false
  nodup : s.mutation.todo.Nodup
  apart : s.mutation.shutdown = false → ∀ id ∈ s.mutation.todo, id ∉ s.current
  waiting : ∀ id ∈ s.mutation.waiting, ∀ (f : Forwarder κ), s.forwarders[id]? = some f →
    f.closed = true ∧ (f.senders ≠ [] ∨ f.queue = [])
  held : ∀ (id : Nat) (f : Forwarder κ), s.forwarders[id]? = some f →
    (id ∈ s.current ∧ s.mutation.shutdown = false) ∨ id ∈ s.mutation.todo ∨
      id ∈ s.mutation.waiting ∨ f.Stopped

theorem Tidy.init : Tidy ({} : State κ) := by
  constructor <;> simp [enabledTargets, Mutation.todo, Mutation.waiting, Mutation.shutdown]

/-- A step that changes nothing of the registry but the insides of its forwarders. -/
theorem Tidy.background [DecidableEq κ] {s' : State κ} {l : Label κ} (hs : Tidy s) (hsound : Sound s)
    (h : Moves s l s') (hlength : s'.forwarders.length = s.forwarders.length)
    (hcurrent : s'.current = s.current) (hdesired : s'.desired = s.desired)
    (hwanted : s'.wanted = s.wanted) (hmutation : s'.mutation = s.mutation)
    (hclose : ∀ id, l ≠ .close id) (hstart : l = .start → s.mutation = .none) : Tidy s' := by
  have hearlier (id : Nat) (f' : Forwarder κ) (hf' : s'.forwarders[id]? = some f') :
      ∃ f, s.forwarders[id]? = some f ∧ f.Later f' := by
    obtain ⟨f, hf, htouched⟩ | ⟨hnew, -⟩ := h.touched hf'
    · refine ⟨f, hf, htouched.later hsound hf (hclose id) fun hl hstopped hid => ?_⟩
      have hopen := hs.current (by rw [hstart hl]; rfl) id hid f hf
      rw [hstopped.closed] at hopen
      cases hopen
    · exact absurd (List.getElem?_eq_some_iff.mp hf').1 (by omega)
  have hclosed : ∀ (id : Nat) (f' : Forwarder κ), s'.forwarders[id]? = some f' →
      (∀ f, s.forwarders[id]? = some f → f.closed = false) → f'.closed = false := by
    intro id f' hf' hopen
    obtain ⟨f, hf, hl⟩ := hearlier id f' hf'
    rw [hl.closed]
    exact hopen f hf
  constructor <;> simp only [hmutation, hwanted, hcurrent, hdesired]
  case names => exact hs.names
  case serving =>
    refine fun hno => (hs.serving hno).imp fun t id ⟨f, hf, hopts⟩ => ?_
    have hlt := (List.getElem?_eq_some_iff.mp hf).1
    obtain ⟨g, hg, hl⟩ := hearlier id _ (List.getElem?_eq_getElem (hlength ▸ hlt))
    cases hf.symm.trans hg
    exact ⟨_, List.getElem?_eq_getElem (hlength ▸ hlt), hl.opts.trans hopts⟩
  case desired => exact hs.desired
  case current => exact fun hno id hid f' hf' => hclosed id f' hf' (hs.current hno id hid)
  case shutdown => exact hs.shutdown
  case todo => exact fun id hid f' hf' => hclosed id f' hf' (hs.todo id hid)
  case nodup => exact hs.nodup
  case apart => exact hs.apart
  case waiting =>
    intro id hid f' hf'
    obtain ⟨f, hf, hl⟩ := hearlier id f' hf'
    obtain ⟨hc, hq⟩ := hs.waiting id hid f hf
    exact ⟨hl.closed.trans hc, hq.imp hl.senders (hl.queue hc)⟩
  case held =>
    intro id f' hf'
    obtain ⟨f, hf, hl⟩ := hearlier id f' hf'
    exact (hs.held id f hf).imp_right (.imp_right (.imp_right hl.stopped))

theorem Tidy.current_nodup (hs : Tidy s) (hno : s.mutation.shutdown = false) :
    (s.current.map s.nameOf).Nodup :=
  names_nodup (hs.serving hno) hs.names

theorem State.mem_unwanted {keep : List String} {id : Nat} :
    id ∈ s.unwanted keep ↔ id ∈ s.current ∧
      ∃ name, s.nameOf id = some name ∧ s.running name = some id ∧ name ∉ keep := by
  rw [State.unwanted, List.mem_dedup, List.mem_filter]
  cases hname : s.nameOf id with
  | none => simp
  | some name => simp

/-- What an unchanged target is served by before a reconciliation. -/
theorem Tidy.unchanged_serves [DecidableEq κ] (hs : Tidy s)
    (hno : s.mutation.shutdown = false) {t : Target κ} (ht : t.enabled = true) {id : Nat}
    (h : s.unchanged t = some id) : s.Serves t id := by
  obtain ⟨hid, hname⟩ := State.running_mem (State.unchanged_running h)
  unfold State.unchanged at h
  split at h
  · rename_i hdesired
    obtain hwanted | hnil := hs.desired hno
    · have hmem : t ∈ enabledTargets s.wanted := by
        have hin : t ∈ s.desired := List.mem_reverse.mp (List.mem_of_find?_eq_some hdesired)
        exact List.mem_filter.mpr ⟨hwanted ▸ hin, ht⟩
      obtain ⟨id', hid', hserves⟩ := Lists.forall₂_exists_right (hs.serving hno) hmem
      have heq : id' = id :=
        id_unique (hs.current_nodup hno) hid hid' (by rw [hserves.nameOf, hname])
      exact heq ▸ hserves
    · rw [hnil] at hid
      cases hid
  · cases h

/-- After a reconciliation that meets the conditions, every forwarder there was is
chosen again or about to be stopped. -/
theorem Tidy.reconcile [DecidableEq κ] {rs : List (BuildRequest κ)} (hs : Tidy s)
    (hsound : Sound s) (hmutation : s.mutation = .none)
    (hguard : Reconciles s (.reconcile rs)) : Tidy (s.reconcile rs) := by
  obtain ⟨hnames, hrs⟩ := hguard
  have hno : s.mutation.shutdown = false := by rw [hmutation]; rfl
  have hnodup := hs.current_nodup hno
  obtain ⟨fs, ids, hfs, hids, hkeep, hchosen, hnew⟩ := s.plan_chosen rs
    (fun r hr hon => ⟨fun id hid => hs.unchanged_serves hno hon hid,
      fun hchanged => ((hrs r hr hon).resolve_left (absurd hchanged)).1⟩)
    { forwarders := s.forwarders } (List.prefix_refl _)
  simp only [List.nil_append] at hids hkeep
  have hforwarders : (s.reconcile rs).forwarders = s.forwarders ++ fs := hfs
  have hcurrent : (s.reconcile rs).current = ids := hids
  have htodo : (s.reconcile rs).mutation.todo =
      s.unwanted ((enabledTargets (rs.map (·.target))).map Target.name) := by
    simp only [State.reconcile, hkeep, Mutation.todo]
  have hold : ∀ {id : Nat} {f : Forwarder κ}, s.forwarders[id]? = some f →
      (s.forwarders ++ fs)[id]? = some f := by
    intro id f hf
    rw [List.getElem?_append_left (List.getElem?_eq_some_iff.mp hf).1, hf]
  have holdOpen : ∀ id ∈ s.current, ∀ f : Forwarder κ, (s.forwarders ++ fs)[id]? = some f →
      f.closed = false := by
    intro id hid f hf
    rw [List.getElem?_append_left (hsound.current id hid)] at hf
    exact hs.current hno id hid f hf
  refine ⟨hnames, fun _ => ?_, fun _ => .inl rfl, fun _ => ?_, by rintro ⟨⟩, ?_, ?_, fun _ => ?_,
    by rintro _ ⟨⟩, ?_⟩
  · rw [hcurrent]
    refine hchosen.imp fun t id hc => ?_
    obtain ⟨f, hf, hopts⟩ := hc.serves
    exact ⟨f, hforwarders ▸ hf, hopts⟩
  · rw [hcurrent, hforwarders]
    intro id hid f hf
    obtain ⟨t, -, hc⟩ := Lists.forall₂_exists_left hchosen hid
    obtain hkept | ⟨-, -, g, hg, hopen⟩ := hc.fresh
    · exact holdOpen id (State.running_mem (State.unchanged_running hkept)).1 f hf
    · rw [hg] at hf
      cases hf
      exact hopen
  · rw [htodo, hforwarders]
    exact fun id hid => holdOpen id (State.mem_unwanted.mp hid).1
  · rw [htodo]
    exact List.nodup_dedup _
  · rw [htodo, hcurrent]
    intro id hid hmem
    obtain ⟨hin, name, hname, -, hnot⟩ := State.mem_unwanted.mp hid
    obtain ⟨t, ht, hc⟩ := Lists.forall₂_exists_left hchosen hmem
    obtain hkept | ⟨-, hlen, -⟩ := hc.fresh
    · have hname' := (State.running_mem (State.unchanged_running hkept)).2
      rw [hname] at hname'
      cases hname'
      exact hnot (List.mem_map_of_mem ht)
    · exact absurd (hsound.current id hin) (by omega)
  · rw [htodo, hcurrent, hforwarders]
    intro id f hf
    by_cases hid : id < s.forwarders.length
    · rw [List.getElem?_append_left hid] at hf
      obtain ⟨hin, -⟩ | hrest := hs.held id f hf
      · have hname : s.nameOf id = some f.name := by simp [State.nameOf, hf]
        have hrunning := State.running_eq hnodup hin hname
        by_cases hwanted : f.name ∈ (enabledTargets (rs.map (·.target))).map Target.name
        · -- The name is wanted and in use, so the target must be unchanged.
          obtain ⟨t, ht, hteq⟩ := List.mem_map.mp hwanted
          obtain ⟨r, hr, rfl⟩ := List.mem_map.mp (List.mem_filter.mp ht).1
          obtain ⟨id', hid', hc⟩ := Lists.forall₂_exists_right hchosen ht
          have hunchanged : s.unchanged r.target ≠ none := by
            refine (hrs r hr (by simpa using (List.mem_filter.mp ht).2)).resolve_right ?_
            rintro ⟨-, hnone⟩
            rw [hteq, hrunning] at hnone
            cases hnone
          obtain hkept | ⟨hnone, -⟩ := hc.fresh
          · have heq := State.unchanged_running hkept
            rw [hteq, hrunning] at heq
            cases heq
            exact .inl ⟨hid', rfl⟩
          · exact absurd hnone hunchanged
        · exact .inr (.inl (State.mem_unwanted.mpr ⟨hin, f.name, hname, hrunning, hwanted⟩))
      · rw [hmutation] at hrest
        exact .inr (.inr (.inr (by simpa [Mutation.todo, Mutation.waiting] using hrest)))
    · have hlen := (List.getElem?_eq_some_iff.mp hf).1
      rw [List.length_append] at hlen
      have hmem : s.forwarders.length + (id - s.forwarders.length) ∈ ids := hnew _ (by omega)
      rw [Nat.add_sub_cancel' (by omega)] at hmem
      exact .inl ⟨hmem, rfl⟩

theorem Tidy.stop (hs : Tidy s) (hmutation : s.mutation = .none) :
    Tidy { s with mutation := .stopping s.current [] true, wanted := [] } := by
  have hno : s.mutation.shutdown = false := by rw [hmutation]; rfl
  refine ⟨by simp [enabledTargets], by rintro ⟨⟩, by rintro ⟨⟩, by rintro ⟨⟩, fun _ => rfl, hs.current hno,
    List.Nodup.of_map _ (hs.current_nodup hno), by rintro ⟨⟩, by rintro _ ⟨⟩, fun id f hf => ?_⟩
  obtain ⟨hid, -⟩ | hrest := hs.held id f hf
  · exact .inr (.inl hid)
  · rw [hmutation] at hrest
    exact .inr (.inr (.inr (by simpa [Mutation.todo, Mutation.waiting] using hrest)))

/-- Once the senders of a closed forwarder are gone, it is stopped. -/
theorem Sound.stopped {f : Forwarder κ} (hs : Sound s) (hf : f ∈ s.forwarders)
    (hclosed : f.closed = true) (hidle : f.idle = true)
    (hqueue : f.senders ≠ [] ∨ f.queue = []) : f.Stopped := by
  refine ⟨hclosed, hidle, ?_⟩
  obtain hne | hnil := hqueue
  · obtain ⟨w, hw⟩ := List.exists_mem_of_ne_nil _ hne
    have hphase : w.phase = .exited := by
      simpa [Sender.isExited] using List.all_eq_true.mp hidle w hw
    exact ((hs.forwarders f hf).leaving w hw (by rw [hphase]; rfl)).2
  · exact hnil

theorem Tidy.stops [DecidableEq κ] {s' : State κ} {l : Label κ} (hs : Tidy s) (hsound : Sound s)
    (hguard : Reconciles s l) (h : Stops s l s') : Tidy s' := by
  have hmoves : Moves s l s' := .stops h
  obtain ⟨forwarders, current, desired, started, mutation, calls, wanted⟩ := s
  cases h with
  | stop hnone => exact hs.stop hnone
  | skip hf hstopping hid hclosed =>
    -- What is still to be stopped is open.
    obtain rfl : mutation = _ := hstopping
    have hopen := hs.todo _ hid _ hf
    rw [hclosed] at hopen
    cases hopen
  | @close id f todo waiting all hf hstopping hid =>
    obtain rfl : mutation = _ := hstopping
    have hlt := (List.getElem?_eq_some_iff.mp hf).1
    have hother {id' : Nat} {g : Forwarder κ} (hne : id' ≠ id)
        (hg : (forwarders.set id { f with closed := true })[id']? = some g) :
        forwarders[id']? = some g :=
      (Lists.getElem?_set_cases hg).elim (fun h => absurd h.1 hne) fun h => h.2
    refine { hs with
      serving := fun hno => ?_
      current := fun hno id' hid' g hg => ?_
      todo := fun id' hid' g hg => ?_
      nodup := hs.nodup.erase id
      apart := fun hno id' hid' => hs.apart hno id' (List.mem_of_mem_erase hid')
      waiting := fun id' hid' g hg => ?_
      held := fun id' g hg => ?_ }
    · refine (hs.serving hno).imp fun t id' ⟨g, hg, hopts⟩ => ?_
      by_cases hne : id = id'
      · subst hne
        cases hf.symm.trans hg
        exact ⟨{ f with closed := true }, List.getElem?_set_self hlt, hopts⟩
      · exact ⟨g, (List.getElem?_set_ne hne).trans hg, hopts⟩
    · have hne : id' ≠ id := fun heq => hs.apart hno id hid (heq ▸ hid')
      exact hs.current hno id' hid' g (hother hne hg)
    · obtain ⟨hne, hid'⟩ := (hs.nodup.mem_erase_iff).mp hid'
      exact hs.todo id' hid' g (hother hne hg)
    · obtain ⟨rfl, rfl⟩ | ⟨hne, hg⟩ := Lists.getElem?_set_cases hg
      · exact ⟨rfl, hguard f hf⟩
      · exact hs.waiting id' ((List.mem_cons.mp hid').resolve_left hne) g hg
    · by_cases hne : id' = id
      · exact .inr (.inr (.inl (hne ▸ List.mem_cons_self)))
      · obtain hcur | htd | hw | hstopped := hs.held id' g (hother hne hg)
        · exact .inl hcur
        · exact .inr (.inl ((hs.nodup.mem_erase_iff).mpr ⟨hne, htd⟩))
        · exact .inr (.inr (.inl (List.mem_cons_of_mem _ hw)))
        · exact .inr (.inr (.inr hstopped))
  | expire =>
    exact hs.background hsound hmoves (List.length_set ..) rfl rfl rfl rfl (by rintro _ ⟨⟩) (by rintro ⟨⟩)
  | @stopped id f todo waiting all hf hstopping hid hidle =>
    obtain rfl : mutation = _ := hstopping
    refine { hs with
      waiting := fun id' hid' => hs.waiting id' (List.mem_of_mem_erase hid')
      held := fun id' g hg => ?_ }
    by_cases hne : id' = id
    · subst hne
      cases hf.symm.trans hg
      obtain ⟨hclosed, hqueue⟩ := hs.waiting id' hid f hf
      exact .inr (.inr (.inr (hsound.stopped (List.mem_of_getElem? hf) hclosed hidle hqueue)))
    · exact (hs.held id' g hg).imp_right (.imp_right (.imp_left (List.mem_erase_of_ne hne).mpr))
  | @finish all hstopping =>
    obtain rfl : mutation = _ := hstopping
    cases all with
    | false => exact { hs with shutdown := by rintro ⟨⟩ }
    | true =>
      obtain rfl : wanted = [] := hs.shutdown rfl
      refine { hs with
        serving := fun _ => .nil
        desired := fun _ => .inr rfl
        current := fun _ => by rintro _ ⟨⟩
        shutdown := by rintro ⟨⟩
        apart := fun _ => by rintro _ ⟨⟩
        held := fun id f hf => ?_ }
      obtain ⟨-, hno⟩ | hrest := hs.held id f hf
      · cases hno
      · exact .inr hrest

theorem Tidy.step [DecidableEq κ] {s' : State κ} {l : Label κ} (hs : Tidy s) (hsound : Sound s)
    (hguard : Reconciles s l) (h : step s l = some s') : Tidy s' := by
  have hmoves := step_moves h
  have hbackground := hs.background hsound hmoves
  cases hmoves with
  | forward | returned => exact hbackground rfl rfl rfl rfl rfl (by rintro _ ⟨⟩) (by rintro ⟨⟩)
  | visited | sent =>
    exact hbackground (List.length_set ..) rfl rfl rfl rfl (by rintro _ ⟨⟩) (by rintro ⟨⟩)
  | started hnone =>
    exact hbackground (List.length_mapIdx ..) rfl rfl rfl rfl (by rintro _ ⟨⟩) fun _ => hnone
  | reconciled rs hnone => exact hs.reconcile hsound hnone hguard
  | stops hstops => exact hs.stops hsound hguard hstops

/-! ## Between two calls -/

theorem Tidy.registered (hs : Tidy s) (hmutation : s.mutation = .none) :
    Registered s := by
  have hno : s.mutation.shutdown = false := by rw [hmutation]; rfl
  have hserving := hs.serving hno
  have hnodup := hs.current_nodup hno
  have hheld : ∀ (id : Nat) (f : Forwarder κ), s.forwarders[id]? = some f →
      id ∈ s.current ∨ f.Stopped := by
    intro id f hf
    have hheld := hs.held id f hf
    rw [hmutation] at hheld
    simpa [Mutation.todo, Mutation.waiting, Mutation.shutdown] using hheld
  have hopen : ∀ (id : Nat) (f : Forwarder κ), s.forwarders[id]? = some f → f.closed = false →
      id ∈ s.current := by
    intro id f hf hclosed
    refine (hheld id f hf).resolve_right fun hstopped => ?_
    rw [hstopped.closed] at hclosed
    cases hclosed
  refine ⟨fun id f hf => ?_, fun t ht => ?_, fun id f hf hclosed => ?_⟩
  · exact (hheld id f hf).imp_left fun hid => ⟨hid, fun id' hid' => id_unique hnodup hid hid'⟩
  · obtain ⟨id, hid, hserves⟩ := Lists.forall₂_exists_right hserving ht
    obtain ⟨f, hf, hopts⟩ := hserves
    refine ⟨id, f, hf, hs.current hno id hid f hf, hopts, fun id' f' hf' hclosed hname => ?_⟩
    refine id_unique hnodup hid (hopen id' f' hf' hclosed) ?_
    rw [State.Serves.nameOf ⟨f, hf, hopts⟩, State.nameOf, hf', Option.map_some, hname]
  · obtain ⟨t, ht, g, hg, hopts⟩ := Lists.forall₂_exists_left hserving (hopen id f hf hclosed)
    rw [hf] at hg
    cases hg
    exact ⟨t, ht, hopts⟩

/-- Whatever else is in the list, the forwarder of an unchanged target is chosen
again and its name kept. -/
theorem State.plan_keeps [DecidableEq κ] (s : State κ) (rs : List (BuildRequest κ)) (p : Plan κ) :
    p.next ⊆ (s.plan p rs).next ∧ p.keep ⊆ (s.plan p rs).keep ∧
      ∀ r ∈ rs, r.target.enabled = true → ∀ id, s.unchanged r.target = some id →
        id ∈ (s.plan p rs).next ∧ r.target.name ∈ (s.plan p rs).keep := by
  have hcons {r : BuildRequest κ} {rs : List (BuildRequest κ)} {q : Plan κ}
      (hfirst : ∀ id, r.target.enabled = true → s.unchanged r.target = some id → id ∈ q.next ∧ r.target.name ∈ q.keep)
      (hrest : ∀ r ∈ rs, r.target.enabled = true → ∀ id, s.unchanged r.target = some id →
        id ∈ q.next ∧ r.target.name ∈ q.keep) :
      ∀ r' ∈ r :: rs, r'.target.enabled = true → ∀ id, s.unchanged r'.target = some id →
        id ∈ q.next ∧ r'.target.name ∈ q.keep :=
    List.forall_mem_cons.mpr ⟨fun hon id hid => hfirst id hon hid, hrest⟩
  fun_induction State.plan s p rs with
  | case1 p => exact ⟨List.Subset.refl _, List.Subset.refl _, by simp⟩
  | case2 p r rs hoff ih =>
    obtain ⟨hnext, hkeep, hrest⟩ := ih
    exact ⟨hnext, hkeep, hcons (fun id hon => by simp [hon] at hoff) hrest⟩
  | case3 p r rs hon id hid ih =>
    obtain ⟨hnext, hkeep, hrest⟩ := ih
    refine ⟨fun _ h => hnext (List.mem_append_left _ h), fun _ h => hkeep (List.mem_append_left _ h),
      hcons (fun id' _ hid' => ?_) hrest⟩
    cases hid.symm.trans hid'
    exact ⟨hnext (by simp), hkeep (by simp)⟩
  | case4 p r rs hon hchanged hbuilt ih =>
    obtain ⟨hnext, hkeep, hrest⟩ := ih
    exact ⟨hnext, hkeep, hcons (fun id _ hid => by simp [hchanged] at hid) hrest⟩
  | case5 p r rs hon hchanged hbuilt ih =>
    obtain ⟨hnext, hkeep, hrest⟩ := ih
    exact ⟨fun _ h => hnext (List.mem_append_left _ h), fun _ h => hkeep (List.mem_append_left _ h),
      hcons (fun id _ hid => by simp [hchanged] at hid) hrest⟩

theorem Sound.reconcile_keeps [DecidableEq κ] {rs : List (BuildRequest κ)}
    {r : BuildRequest κ} {id : Nat} (hs : Sound s) (hr : r ∈ rs) (hon : r.target.enabled = true)
    (h : s.unchanged r.target = some id) :
    id ∈ (s.reconcile rs).current ∧ (s.reconcile rs).forwarders[id]? = s.forwarders[id]? ∧
      id ∉ (s.reconcile rs).mutation.todo := by
  obtain ⟨-, -, hplan⟩ := s.plan_keeps rs { forwarders := s.forwarders }
  obtain ⟨fs, hfs, -⟩ := s.plan_spec rs { forwarders := s.forwarders }
  obtain ⟨hnext, hkeep⟩ := hplan r hr hon id h
  obtain ⟨hcurrent, hname⟩ := State.running_mem (State.unchanged_running h)
  refine ⟨hnext, ?_, fun htodo => ?_⟩
  · rw [State.reconcile, hfs, List.getElem?_append_left (hs.current id hcurrent)]
  · obtain ⟨-, name, hname', -, hnot⟩ := State.mem_unwanted.mp htodo
    rw [hname] at hname'
    cases hname'
    exact hnot hkeep

/-- In every run whose steps leave nothing behind, the registry is in order after
each call; and a reconciliation leaves the forwarder of an unchanged target in
place, as it is. -/
theorem registered_of_guarded [DecidableEq κ] {ls : List (Label κ)} {s : State κ}
    (hrun : run ls = some s) (hguard : Transition.Guarded step Reconciles {} ls)
    (hidle : s.mutation = .none) :
    Registered s ∧
      ∀ rs s', step s (.reconcile rs) = some s' → ∀ r ∈ rs, r.target.enabled = true →
        s.desiredTarget r.target.name = some r.target →
        ∀ id, s.running r.target.name = some id →
          id ∈ s'.current ∧ s'.forwarders[id]? = s.forwarders[id]? ∧ id ∉ s'.mutation.todo := by
  obtain ⟨hsound, htidy⟩ : Sound s ∧ Tidy s := by
    refine Transition.Guarded.invariant (I := fun s => Sound s ∧ Tidy s) ?_ ⟨.init, .init⟩ hguard hrun
    exact fun s l s' ⟨hsound, htidy⟩ hG h => ⟨hsound.step h, htidy.step hsound hG h⟩
  refine ⟨htidy.registered hidle, fun rs s' h r hr hon hdesired id hid => ?_⟩
  simp only [step, if_pos hidle] at h
  cases h
  refine hsound.reconcile_keeps hr hon ?_
  rw [State.unchanged, if_pos hdesired, hid]

/-- One target is added beside another, and the first is removed. -/
def addAndRemove : List (Label Unit) :=
  [.start, .reconcile [⟨mirror "a" 10, true⟩], .finish,
    .reconcile [⟨mirror "a" 10, true⟩, ⟨mirror "b" 10, true⟩], .finish,
    .reconcile [⟨mirror "b" 10, true⟩], .close 0, .sender 0 0 .drained, .stopped 0, .finish]

theorem registered_of_guarded_addAndRemove :
    ∃ s, run addAndRemove = some s ∧ s.current = [1] ∧ Registered s := by
  have hguard : Transition.Guarded step Reconciles {} addAndRemove := by decide
  exact ⟨_, rfl, rfl, (registered_of_guarded rfl hguard rfl).1⟩

/-- The queue of a running target is enlarged. -/
def enlargeQueue : List (Label Unit) :=
  [.start, .reconcile [⟨mirror "a" 10, true⟩], .finish,
    .reconcile [⟨mirror "a" 20, true⟩], .finish]

/-- The forwarder of the old settings is not registered any more and still runs. -/
theorem enlargeQueue_leaks : ∃ s, run enlargeQueue = some s ∧ s.mutation = .none ∧ ¬ Registered s := by
  refine ⟨_, rfl, rfl, fun h => ?_⟩
  obtain ⟨hid, -⟩ | hstopped := h.held 0 _ rfl
  · exact absurd hid (by decide)
  · exact absurd hstopped.closed (by decide)

end Syslogc.Forwarding
