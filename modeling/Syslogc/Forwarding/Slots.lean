-- SUMMARY: Why a full queue drops the entries of calls in turn.
import Syslogc.Forwarding.Bounds

/-!
# The slots of a forwarder's queue

The queue holds a fixed number of groups, whatever their sizes, besides its limits. Calls
that come one after the other see what waits on the counters. So the limits refuse what
would go over them and nothing else, and whatever else is dropped found no free slot.
-/

namespace Syslogc.Forwarding

open Sums Storage

variable {κ : Type}

/-! ## Calls one after the other -/

/-- `Forward` is called only when no other call is running. -/
def Sequential (s : State κ) : Label κ → Prop
  | .forward _ _ => s.calls = []
  | _ => True

instance Sequential.decidable (s : State κ) : ∀ l, Decidable (Sequential s l)
  | .forward _ _ => inferInstanceAs (Decidable (s.calls = []))
  | .visit _ | .sender _ _ _ | .start | .reconcile _ | .stop | .close _ | .expire _ | .stopped _ | .finish =>
    .isTrue trivial

/-- What a call is about to send is not empty. -/
def CallPhase.Carries : CallPhase → Prop
  | .checking out | .checkingBytes out | .sending out => out ≠ []
  | .entering | .counting _ | .countingBytes _ => True

structure Lone (s : State κ) : Prop where
  single : s.calls.length ≤ 1
  carries : ∀ c ∈ s.calls, c.phase.Carries
  groups : ∀ f ∈ s.forwarders, ∀ g ∈ f.queue, g ≠ []

section

variable {s s' : State κ} {i id : Nat} {c c' : Call} {f f' : Forwarder κ} {l : Label κ}

theorem Visits.carries (h : Visits c f f' c') (hc : c.phase.Carries) : c'.phase.Carries := by
  cases h with
  | skip | refuse | send | count | countBytes => trivial
  | enter _ _ hne => exact hne
  | passCount hphase | passBytes hphase => rwa [hphase] at hc

theorem State.build_queue (s : State κ) (t : Target κ) : (s.build t).queue = [] := by
  unfold State.build
  split <;> rfl

/-- No step puts an empty group into a queue. -/
theorem Lone.touched (hs : Lone s) (hf : s.forwarders[id]? = some f) (h : Touched s l id f f') :
    ∀ g ∈ f'.queue, g ≠ [] := by
  have hgroups := hs.groups f (List.mem_of_getElem? hf)
  cases h with
  | same | started | closed | expired => exact hgroups
  | sent _ h => exact fun g hg => hgroups g (h.queue hg)
  | visited _ hc _ h =>
    obtain hqueue | ⟨out, hphase, -, hqueue⟩ := h.queue
    · rwa [hqueue]
    · have hcarries := hs.carries _ (List.mem_of_getElem? hc)
      rw [hphase] at hcarries
      intro g hg
      rw [hqueue, List.mem_append, List.mem_singleton] at hg
      exact hg.elim (hgroups g) fun heq => heq ▸ hcarries

/-- A call that is alone is alone with the counters. -/
theorem Lone.past_eq_zero (hs : Lone s) (hc : s.calls[i]? = some c) (hphase : c.phase.past = false)
    (id : Nat) : s.past id = 0 := by
  refine total_eq_zero fun d hd => ?_
  obtain ⟨hlt, hget⟩ := List.getElem?_eq_some_iff.mp hc
  have hsingle := hs.single
  obtain ⟨j, hj, rfl⟩ := List.mem_iff_getElem.mp hd
  have hij : j = i := by omega
  subst hij
  rw [hget]
  exact Call.past_of_not_past hphase id

theorem Lone.alone (hs : Lone s) : Alone s l := by
  cases l with
  | visit i =>
    intro c hc id _ out hphase
    exact hs.past_eq_zero hc (by rw [hphase]; rfl) id
  | _ => trivial

end

theorem Lone.step [DecidableEq κ] {s s' : State κ} {l : Label κ} (hs : Lone s) (hone : Sequential s l)
    (h : step s l = some s') : Lone s' := by
  have hmoves := step_moves h
  refine ⟨?_, fun d hd => ?_, fun f' hf' => ?_⟩
  · cases hmoves with
    | forward =>
      have hnone : s.calls = [] := hone
      simp [hnone]
    | returned => exact (List.length_eraseIdx_le _ _).trans hs.single
    | visited => simpa [State.act] using hs.single
    | sent | started | reconciled => exact hs.single
    | stops h => cases h <;> exact hs.single
  · obtain hd | ⟨-, hphase⟩ | ⟨i, c, id, todo, f, f', -, hc, -, -, hvisits⟩ := hmoves.called hd
    · exact hs.carries d hd
    · rw [hphase]
      trivial
    · exact hvisits.carries (hs.carries c (List.mem_of_getElem? hc))
  · obtain ⟨id, hget⟩ := List.mem_iff_getElem?.mp hf'
    obtain ⟨f, hf, htouched⟩ | ⟨-, t, rfl⟩ := hmoves.touched hget
    · exact hs.touched hf htouched
    · simp [s.build_queue]

/-! ## Drops -/

/-- Of what the step drops because a queue is full, all of it would have gone over a limit. -/
def Justified [DecidableEq κ] (s : State κ) (l : Label κ) : Prop :=
  ∀ s', step s l = some s' → ∀ (id : Nat) (f f' : Forwarder κ) (out : List Copy), s.forwarders[id]? = some f →
    s'.forwarders[id]? = some f' → out ≠ [] → f'.dropped = f.dropped ++ out.map (·, DropReason.queueFull) →
    ¬f.Within (f.waiting + load out)

/-- A group that is sent finds a free slot. -/
def Roomy (s : State κ) : Label κ → Prop
  | .visit i => ∀ c ∈ s.calls[i]?, ∀ id ∈ c.todo.head?, ∀ f ∈ s.forwarders[id]?, ∀ out,
      c.phase = .sending out → f.queue.length < f.opts.queueCap
  | _ => True

/-- A queue without a free slot may hold more messages than it has slots. -/
def Scarce (s : State κ) : Label κ → Prop
  | .visit i => ∀ c ∈ s.calls[i]?, ∀ id ∈ c.todo.head?, ∀ f ∈ s.forwarders[id]?, ∀ out,
      c.phase = .sending out → ¬f.queue.length < f.opts.queueCap →
        (f.opts.queueCap : Int) < f.opts.queueMaxMessages
  | _ => True

section

variable {s s' : State κ} {i id : Nat} {c : Call} {f f' : Forwarder κ} {todo : List Nat} {out : List Copy}

theorem drops_same (hne : out ≠ []) {dropped : List (Copy × DropReason)} :
    dropped ≠ dropped ++ out.map (·, DropReason.queueFull) := by
  simpa using hne

theorem drops_other {g : List Copy} {reason : DropReason} (hreason : reason ≠ .queueFull) (hne : out ≠ [])
    {dropped : List (Copy × DropReason)} :
    dropped ++ g.map (fun c => (c, reason)) ≠ dropped ++ out.map (·, DropReason.queueFull) := by
  intro h
  cases out with
  | nil => exact hne rfl
  | cons a out =>
    have hcons := List.append_cancel_left h
    cases g with
    | nil => simp at hcons
    | cons b g =>
      simp only [List.map_cons, List.cons.injEq, Prod.mk.injEq] at hcons
      exact hreason hcons.1.2

theorem drops_queueFull
    (h : f.dropped ++ out'.map (·, DropReason.queueFull) = f.dropped ++ out.map (·, DropReason.queueFull)) :
    out' = out := by
  have hmap := List.append_cancel_left h
  exact List.map_injective_iff.mpr (fun a b hab => (Prod.mk.inj hab).1) hmap

theorem Sends.dropped_eq {k : Nat} {w : Sender} (h : Sends f k w f') : ∃ (g : List Copy) (reason : DropReason),
    reason ≠ .queueFull ∧ f'.dropped = f.dropped ++ g.map fun c => (c, reason) := by
  cases h with
  | dropped hreason => exact ⟨_, _, hreason, rfl⟩
  | _ => exact ⟨[], .shutdown, by rintro ⟨⟩, (List.append_nil _).symm⟩

/-- The limits refuse what would go over them, and nothing else. -/
theorem Refused.not_within (hs : Lone s) (hx : Exclusive s)
    (hm : Metered s) (hc : s.calls[i]? = some c) (hhead : c.todo.head? = some id) (hf : s.forwarders[id]? = some f)
    (h : Refused f out c.phase) : ¬f.Within (f.waiting + load out) ↔ c.phase ≠ .sending out := by
  obtain ⟨todo, htodo⟩ := List.head?_eq_some_iff.mp hhead
  have hchecked := hx.checked c (List.mem_of_getElem? hc) id f hhead hf
  generalize hphase : c.phase = phase at h hchecked
  cases h with
  | count hover =>
    have hreading := hm.reading_of_none hf (hs.past_eq_zero hc (by rw [hphase]; rfl) id)
    refine iff_of_true (fun hwithin => ?_) (by rintro ⟨⟩)
    have hrows := hwithin.1
    rw [load_coe] at hrows
    exact absurd ((Forwarder.countExceeded_iff _ hreading).mp hover) (not_lt.mpr hrows)
  | bytes hover =>
    have hreading := hm.reading_checkingBytes hx hf hc htodo hphase
    obtain ⟨hlimit, hsize⟩ := (Forwarder.bytesExceeded_iff _ hreading).mp hover
    refine iff_of_true (fun hwithin => ?_) (by rintro ⟨⟩)
    have hbytes := hwithin.2 hlimit
    rw [load_coe] at hbytes
    exact absurd hsize (not_lt.mpr hbytes)
  | slots hover => exact iff_of_false (fun h => h hchecked) (fun h => h rfl)

end

section

variable [DecidableEq κ] {s s' : State κ} {l : Label κ}

/-- Nothing but a call drops entries because a queue is full. -/
theorem step_refused (h : step s l = some s') {id : Nat} {f f' : Forwarder κ} {out : List Copy}
    (hf : s.forwarders[id]? = some f) (hf' : s'.forwarders[id]? = some f') (hne : out ≠ [])
    (hdropped : f'.dropped = f.dropped ++ out.map (·, DropReason.queueFull)) :
    ∃ i c, l = .visit i ∧ s.calls[i]? = some c ∧ c.todo.head? = some id ∧ Refused f out c.phase := by
  obtain ⟨g, hg, htouched⟩ | ⟨hnew, -⟩ := (step_moves h).touched hf'
  · cases hf.symm.trans hg
    cases htouched with
    | same | started | closed | expired => exact absurd hdropped (drops_same hne)
    | sent _ h =>
      obtain ⟨batch, reason, hreason, hbatch⟩ := h.dropped_eq
      exact absurd (hbatch.symm.trans hdropped) (drops_other hreason hne)
    | visited hl hc htodo h =>
      refine ⟨_, _, hl, hc, by simp [htodo], ?_⟩
      cases h with
      | refuse h =>
        cases drops_queueFull hdropped
        exact h
      | _ => exact absurd hdropped (drops_same hne)
  · exact absurd (List.getElem?_eq_some_iff.mp hf).1 (not_lt.mpr hnew)

theorem Lone.justified_iff (hs : Lone s) (hx : Exclusive s) (hm : Metered s) (h : Forwarding.step s l = some s') :
    Justified s l ↔ Roomy s l := by
  constructor
  · intro hjust
    cases l with
    | visit i =>
      intro c hc id hid f hf out hphase
      by_contra hslot
      obtain ⟨todo, htodo⟩ := List.head?_eq_some_iff.mp hid
      obtain ⟨hlt, _⟩ := List.getElem?_eq_some_iff.mp hf
      have hdrops : s' = (s.setForwarder id (f.drop .queueFull out)).nextForwarder i c := by
        rw [Option.mem_def] at hc hf
        simp only [Forwarding.step, hc, htodo, hf, Option.bind_some, Option.map_some, Option.some_inj, State.visitStep,
          hphase, hslot, if_false] at h
        exact h.symm
      have hcarries : out ≠ [] := by
        have := hs.carries c (List.mem_of_getElem? hc)
        rwa [hphase] at this
      have hrefused : Refused f out c.phase := hphase ▸ .slots hslot
      refine (Refused.not_within hs hx hm hc hid hf hrefused).mp ?_ hphase
      exact hjust s' h id f (f.drop .queueFull out) out hf (hdrops ▸ List.getElem?_set_self hlt) hcarries rfl
    | _ => trivial
  · intro hroomy s'' h'' id f f' out hf hf' hne hdropped
    obtain ⟨i, c, rfl, hc, hhead, hrefused⟩ := step_refused h'' hf hf' hne hdropped
    rw [Refused.not_within hs hx hm hc hhead hf hrefused]
    rintro hphase
    rw [hphase] at hrefused
    cases hrefused with
    | slots hslot => exact hslot (hroomy c hc id hhead f hf out hphase)

end

/-- A queue of groups that are not empty holds at least as many entries as groups. -/
theorem length_le_waiting {f : Forwarder κ} (h : ∀ g ∈ f.queue, g ≠ []) : (f.queue.length : Int) ≤ f.waiting.1 := by
  have hsenders : 0 ≤ total Sender.load f.senders := by
    apply List.sum_nonneg
    intro n hn
    obtain ⟨w, -, rfl⟩ := List.mem_map.mp hn
    refine add_nonneg (load_nonneg _) ?_
    cases w.phase with
    | uncounting rows size next => exact ⟨Int.natCast_nonneg _, Int.natCast_nonneg _⟩
    | uncountingBytes size next => exact ⟨le_rfl, Int.natCast_nonneg _⟩
    | selecting | writing | backingOff | exited => exact le_rfl
  have hgroups (queue : List (List Copy)) (h : ∀ g ∈ queue, g ≠ []) : queue.length ≤ queue.flatten.length := by
    induction queue with
    | nil => exact le_rfl
    | cons g queue ih =>
      have hg := List.length_pos_of_ne_nil (h g List.mem_cons_self)
      have := ih fun g hg => h g (List.mem_cons_of_mem _ hg)
      rw [List.flatten_cons, List.length_append, List.length_cons]
      omega
  have hqueue := hgroups f.queue h
  have hnonneg : (0 : Int) ≤ (total Sender.load f.senders).1 := hsenders.1
  rw [Forwarder.waiting, load_coe, Prod.fst_add]
  dsimp only
  omega

theorem Lone.scarce {s : State κ} {l : Label κ} (hs : Lone s) (hx : Exclusive s) : Scarce s l := by
  cases l with
  | visit i =>
    intro c hc id hid f hf out hphase hslot
    have hmem := List.mem_of_getElem? hc
    have hcarries := hs.carries c hmem
    have hchecked := hx.checked c hmem id f hid hf
    rw [hphase] at hcarries hchecked
    have hrows : f.waiting.1 + (load out).1 ≤ f.opts.queueMaxMessages := hchecked.1
    have hout := List.length_pos_of_ne_nil hcarries
    have hqueue := length_le_waiting (hs.groups f (List.mem_of_getElem? hf))
    rw [load_coe] at hrows
    dsimp only at hrows
    omega
  | _ => trivial

theorem Lone.init : Lone ({} : State κ) := ⟨by simp, by simp, by simp⟩

/-- When calls come one after the other, everything dropped because of a full queue would
have gone over a limit exactly if every group that is sent finds a free slot. It does at
every forwarder that has a slot for each message it may hold. -/
theorem queueFull_drops_iff [DecidableEq κ] (ls : List (Label κ)) (h : Transition.Guarded step Sequential {} ls) :
    (Transition.Guarded step Justified {} ls ↔ Transition.Guarded step Roomy {} ls) ∧
      Transition.Guarded step Scarce {} ls := by
  have hinit : Sound ({} : State κ) ∧ Metered ({} : State κ) ∧ Exclusive ({} : State κ) ∧ Lone ({} : State κ) :=
    ⟨.init, .init, .init, .init⟩
  have hstep (s : State κ) (l : Label κ) (s' : State κ) (hs : Sound s ∧ Metered s ∧ Exclusive s ∧ Lone s)
      (hone : Sequential s l) (h : step s l = some s') : Sound s' ∧ Metered s' ∧ Exclusive s' ∧ Lone s' := by
    obtain ⟨hsound, hm, hx, hlone⟩ := hs
    exact ⟨hsound.step h, hm.step hsound h, hx.step hsound hm hlone.alone h, hlone.step hone h⟩
  constructor
  · refine Transition.Guarded.congr hstep ?_ hinit h
    rintro s l s' ⟨-, hm, hx, hlone⟩ - hs'
    exact hlone.justified_iff hx hm hs'
  · refine Transition.Guarded.imp hstep ?_ hinit h
    rintro s l s' ⟨-, -, hx, hlone⟩ - -
    exact hlone.scarce hx

/-- A call that runs from its start to its end. -/
def wholeCall : List (Label Unit) := .forward "default" [sampleEntry] :: List.replicate 7 (.visit 0)

/-- Calls with an entry each, one after the other: eight whole ones, and a ninth up to the
moment at which it sends. The queue is for twenty messages and has eight slots. -/
def singleEntries : List (Label Unit) :=
  [.start, .reconcile [⟨mirror "a" 20, true⟩], .finish] ++ (List.replicate 8 wholeCall).flatten ++
    [.forward "default" [sampleEntry], .visit 0, .visit 0, .visit 0]

/-- The next step drops the ninth entry, where eight of twenty wait. -/
theorem ninth_entry_dropped : Transition.Guarded step Sequential {} (singleEntries ++ [.visit 0]) ∧
    ∃ s, run singleEntries = some s ∧ ¬ Justified s (.visit 0) := by
  refine ⟨by decide +kernel, _, rfl, fun h => ?_⟩
  refine h _ rfl 0 _ _ [⟨8, sampleEntry⟩] rfl rfl (by simp) rfl ?_
  decide +kernel

theorem queueFull_drops_iff_singleEntries : Transition.Guarded step Sequential {} singleEntries ∧
    (Transition.Guarded step Justified {} singleEntries ↔ Transition.Guarded step Roomy {} singleEntries) := by
  have h : Transition.Guarded step Sequential {} singleEntries := by decide +kernel
  exact ⟨h, (queueFull_drops_iff singleEntries h).1⟩

end Syslogc.Forwarding
