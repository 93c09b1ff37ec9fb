-- SUMMARY: When the limits of a forwarder's queue hold.
import Syslogc.Forwarding.Metering

/-!
# The limits of a forwarder's queue

`Forward` looks at the counters, sends to the queue, and counts, in steps of their own. So
the limits hold as long as every group still fits when it is sent. It does if no call looks
at the counters of a forwarder while another is past them.

The queue has slots besides: a fixed number of groups, whatever their sizes. Calls that
come one after the other are refused by the limits, or because no slot is free.
-/

namespace Syslogc.Forwarding

open Sums Storage

variable {κ : Type}

/-! ## The limits -/

/-- The sender has nothing to write and nothing to take off the counters. -/
def Sender.atRest (w : Sender) : Prop := w.pending = [] ∧ (w.phase = .selecting ∨ w.phase = .exited)

/-- Everything that came to forwarder `f`, which has index `id`, has been dealt with. -/
structure Drains (s : State κ) (id : Nat) (f : Forwarder κ) : Prop where
  queue : f.queue.flatten = []
  senders : ∀ w ∈ f.senders, w.atRest
  calls : ∀ c ∈ s.calls, c.inside id = false

/-- No more waits than the limits of each forwarder allow, and the counters of one that
is drained are zero. -/
structure Limited (s : State κ) : Prop where
  within : ∀ f ∈ s.forwarders, f.Within f.waiting
  drained : ∀ id f, s.forwarders[id]? = some f → Drains s id f → f.queued = 0 ∧ f.bytes = 0

theorem Sender.atRest.load_eq_zero {w : Sender} (h : w.atRest) : w.load = 0 := by
  obtain ⟨hpending, hphase | hphase⟩ := h <;>
  · rw [Sender.load, Sender.items, hpending, hphase]
    rfl

theorem Call.uncounted_outside {c : Call} {id : Nat} (h : c.inside id = false) : c.uncounted id = 0 := by
  unfold Call.uncounted
  split
  · rename_i hhead
    have hphase : c.phase = .entering := by simpa [Call.inside, hhead] using h
    rw [hphase]
    rfl
  · rfl

theorem Metered.drained {s : State κ} {id : Nat} {f : Forwarder κ} (hs : Metered s)
    (hf : s.forwarders[id]? = some f) (h : Drains s id f) : f.queued = 0 ∧ f.bytes = 0 := by
  have hwaiting : f.waiting = 0 := by
    rw [Forwarder.waiting, h.queue, total_eq_zero fun w hw => (h.senders w hw).load_eq_zero]
    rfl
  have hledger := hs id f hf
  rw [hwaiting, total_eq_zero fun c hc => Call.uncounted_outside (h.calls c hc), add_zero] at hledger
  exact ⟨(congrArg Prod.fst hledger).symm, (congrArg Prod.snd hledger).symm⟩

/-- A group that is sent still fits. -/
def Fits (s : State κ) : Label κ → Prop
  | .visit i => ∀ c ∈ s.calls[i]?, ∀ id ∈ c.todo.head?, ∀ f ∈ s.forwarders[id]?, ∀ out,
      c.phase = .sending out → f.queue.length < f.opts.queueCap → f.Within (f.waiting + load out)
  | _ => True

theorem Options.withDefaults_pos (o : Options κ) : 0 < o.withDefaults.queueMaxMessages := by
  simp only [Options.withDefaults]
  split <;> omega

theorem State.build_within (s : State κ) (t : Target κ) : (s.build t).Within (s.build t).waiting := by
  have hpos := t.options.withDefaults_pos
  rw [s.build_waiting, Forwarder.Within, (s.build_opts t).1]
  exact ⟨hpos.le, le_of_lt⟩

section

variable [DecidableEq κ] {s s' : State κ} {l : Label κ}

/-- A forwarder that was there before a step holds no more after it, unless the step sends
a group to it. One that was not is empty. -/
theorem step_waiting (h : step s l = some s') {id : Nat} {f' : Forwarder κ} (hf' : s'.forwarders[id]? = some f') :
    (∃ f, s.forwarders[id]? = some f ∧ f'.opts = f.opts ∧
      (f'.waiting ≤ f.waiting ∨ ∃ i c todo out, l = .visit i ∧ s.calls[i]? = some c ∧ c.todo = id :: todo ∧
        c.phase = .sending out ∧ f.queue.length < f.opts.queueCap ∧ f'.waiting = f.waiting + load out)) ∨
    s.forwarders.length ≤ id ∧ ∃ t, f' = s.build t := by
  refine ((step_moves h).touched hf').imp_left ?_
  rintro ⟨f, hf, htouched⟩
  refine ⟨f, hf, ?_⟩
  cases htouched with
  | same | closed | expired => exact ⟨rfl, .inl le_rfl⟩
  | visited hl hc htodo h =>
    refine ⟨h.frame.1, ?_⟩
    cases h with
    | send hphase hslot => exact .inr ⟨_, _, _, _, hl, hc, htodo, hphase, hslot, f.send_waiting _⟩
    | _ => exact .inl le_rfl
  | sent hw h => exact ⟨h.frame.1, .inl (h.waiting_le hw)⟩
  | started =>
    rw [← Forwarder.repeat_start, f.start_waiting]
    exact ⟨by rw [Forwarder.repeat_start], .inl le_rfl⟩

/-- A step from a state within the limits leads to one within the limits exactly if what
it sends still fits. -/
theorem Limited.step_iff (hs : Limited s) (hsound : Sound s) (hmetered : Metered s) (h : step s l = some s') :
    Limited s' ↔ Fits s l := by
  have hdrained (id : Nat) (f : Forwarder κ) (hf : s'.forwarders[id]? = some f) :
      Drains s' id f → f.queued = 0 ∧ f.bytes = 0 :=
    (hmetered.step hsound h).drained hf
  constructor
  · intro hs'
    cases l with
    | visit i =>
      intro c hc id hid f hf out hphase hslot
      obtain ⟨hlt, _⟩ := List.getElem?_eq_some_iff.mp hf
      obtain ⟨todo, htodo⟩ := List.head?_eq_some_iff.mp hid
      have hsent : s' = s.visitStep i c id f := by
        rw [Option.mem_def] at hc hf
        simp only [step, hc, htodo, hf, Option.bind_some, Option.map_some, Option.some_inj] at h
        exact h.symm
      rw [State.visitStep, hphase] at hsent
      simp only [hslot, if_true] at hsent
      have hmem := hs'.within { f with queue := f.queue ++ [out] } (by rw [hsent]; exact List.mem_set hlt _)
      rwa [f.send_waiting] at hmem
    | _ => trivial
  · intro hfits
    refine ⟨fun f' hf' => ?_, hdrained⟩
    obtain ⟨id, hget⟩ := List.mem_iff_getElem?.mp hf'
    obtain ⟨f, hf, hopts, hle | ⟨i, c, todo, out, rfl, hc, htodo, hphase, hslot, hsent⟩⟩ | ⟨-, t, rfl⟩ :=
      step_waiting h hget
    · exact (hs.within f (List.mem_of_getElem? hf)).mono hopts hle
    · have hfit := hfits c hc id (by simp [htodo]) f hf out hphase hslot
      exact hfit.mono hopts hsent.le
    · exact s.build_within t

end

/-! ## Calls that do not overlap -/

/-- The call has looked at the counter of messages, and has not left the forwarder. -/
def CallPhase.past : CallPhase → Bool
  | .checkingBytes _ | .sending _ | .counting _ | .countingBytes _ => true
  | .entering | .checking _ => false

def Call.past (id : Nat) (c : Call) : Nat := if c.todo.head? = some id ∧ c.phase.past then 1 else 0

/-- How many calls are past the counters of a forwarder. -/
def State.past (s : State κ) (id : Nat) : Nat := total (Call.past id) s.calls

/-- A call looks at the counters of a forwarder only while no other is past them. -/
def Alone (s : State κ) : Label κ → Prop
  | .visit i => ∀ c ∈ s.calls[i]?, ∀ id ∈ c.todo.head?, ∀ out, c.phase = .checking out → s.past id = 0
  | _ => True

/-- What a call has found out about the forwarder it visits. -/
def CallPhase.Checked (f : Forwarder κ) : CallPhase → Prop
  | .checkingBytes out => f.waiting.1 + out.length ≤ f.opts.queueMaxMessages
  | .sending out => f.Within (f.waiting + load out)
  | .entering | .checking _ | .counting _ | .countingBytes _ => True

/-- At most one call is past the counters of a forwarder, and what it has found out is
still so. -/
structure Exclusive (s : State κ) : Prop where
  single : ∀ id, s.past id ≤ 1
  checked : ∀ c ∈ s.calls, ∀ id f, c.todo.head? = some id → s.forwarders[id]? = some f → c.phase.Checked f

theorem CallPhase.Checked.mono {f f' : Forwarder κ} {phase : CallPhase} (h : phase.Checked f)
    (hopts : f'.opts = f.opts) (hle : f'.waiting ≤ f.waiting) : phase.Checked f' := by
  cases phase with
  | checkingBytes out =>
    have hrows : f.waiting.1 + out.length ≤ f.opts.queueMaxMessages := h
    have hless : f'.waiting.1 ≤ f.waiting.1 := hle.1
    change f'.waiting.1 + out.length ≤ f'.opts.queueMaxMessages
    rw [hopts]
    omega
  | sending out => exact Forwarder.Within.mono h hopts (add_le_add_left hle _)
  | _ => trivial

theorem CallPhase.checked_of_not_past {phase : CallPhase} (h : phase.past = false) (f : Forwarder κ) :
    phase.Checked f := by
  cases phase with
  | entering | checking | counting | countingBytes => trivial
  | checkingBytes | sending => cases h

theorem Call.past_le (id : Nat) (c : Call) : c.past id ≤ 1 := by
  unfold Call.past
  split <;> omega

theorem Call.not_past {id : Nat} {c : Call} (h : c.past id = 0) (hhead : c.todo.head? = some id) :
    c.phase.past = false := by
  simpa [Call.past, hhead] using h

theorem Call.past_of_not_past {c : Call} (h : c.phase.past = false) (id : Nat) : c.past id = 0 := by
  simp [Call.past, h]

theorem Call.uncounted_of_not_past {id : Nat} {c : Call} (h : c.past id = 0) : c.uncounted id = 0 := by
  unfold Call.uncounted
  split
  · have hphase := Call.not_past h ‹_›
    cases hc : c.phase with
    | entering | checking | checkingBytes | sending => rfl
    | counting | countingBytes => rw [hc] at hphase; cases hphase
  · rfl

theorem uncounted_eq_zero {calls : List Call} {id : Nat} (h : total (Call.past id) calls = 0) :
    total (Call.uncounted id) calls = 0 :=
  total_eq_zero fun _ hc => Call.uncounted_of_not_past
    (List.sum_eq_zero_iff.mp h _ (List.mem_map_of_mem hc))

section

variable {s : State κ} {i id : Nat} {c c' : Call} {f f' : Forwarder κ} {todo : List Nat}

theorem Call.past_self (htodo : c.todo = id :: todo) (hpast : c.phase.past = true) : c.past id = 1 := by
  simp [Call.past, htodo, hpast]

/-- If a call is past the counters, no other is. -/
theorem Exclusive.others (hs : Exclusive s) (hc : s.calls[i]? = some c) (hpast : c.past id = 1) :
    total (Call.past id) (s.calls.eraseIdx i) = 0 := by
  have hsingle := hs.single id
  rw [State.past, total_eraseIdx (Call.past id) hc] at hsingle
  omega

theorem mem_set_or_erase {α : Type*} {as : List α} {i : Nat} {a b : α} (h : b ∈ as.set i a) :
    b = a ∨ b ∈ as.eraseIdx i := by
  obtain ⟨j, hj⟩ := List.mem_iff_getElem?.mp h
  by_cases hij : i = j
  · subst hij
    rw [List.getElem?_set] at hj
    simp only [if_true] at hj
    split at hj
    · exact .inl (Option.some.inj hj).symm
    · cases hj
  · rw [List.getElem?_set_ne hij] at hj
    exact .inr (List.mem_eraseIdx_iff_getElem?.mpr ⟨j, Ne.symm hij, hj⟩)

/-- While a call is past the counters, they show all that waits but what it has sent. -/
theorem Metered.reading_past (hm : Metered s) (hs : Exclusive s) (hf : s.forwarders[id]? = some f)
    (hc : s.calls[i]? = some c) (hpast : c.past id = 1) : f.waiting = f.reading + c.uncounted id := by
  rw [hm id f hf, total_eraseIdx (Call.uncounted id) hc, uncounted_eq_zero (hs.others hc hpast), zero_add]

theorem Metered.reading_checkingBytes {out : List Copy} (hm : Metered s) (hs : Exclusive s)
    (hf : s.forwarders[id]? = some f) (hc : s.calls[i]? = some c) (htodo : c.todo = id :: todo)
    (hphase : c.phase = .checkingBytes out) : f.waiting = f.reading := by
  have hpast : c.phase.past = true := by rw [hphase]; rfl
  rw [hm.reading_past hs hf hc (Call.past_self htodo hpast), Call.uncounted_self htodo, hphase]
  exact add_zero _

theorem Metered.reading_of_none (hm : Metered s) (hf : s.forwarders[id]? = some f) (hpast : s.past id = 0) :
    f.waiting = f.reading := by
  rw [hm id f hf, uncounted_eq_zero hpast, add_zero]

theorem Forwarder.countExceeded_iff (out : List Copy) (h : f.waiting = f.reading) :
    f.countExceeded out = true ↔ f.opts.queueMaxMessages < f.waiting.1 + out.length := by
  rw [h]
  simp [Forwarder.countExceeded, Forwarder.reading]

theorem Forwarder.bytesExceeded_iff (out : List Copy) (h : f.waiting = f.reading) :
    f.bytesExceeded out = true ↔
      0 < f.opts.queueMaxBytes ∧ f.opts.queueMaxBytes < f.waiting.2 + groupSize out := by
  rw [h]
  simp [Forwarder.bytesExceeded, Forwarder.reading]

/-- A visit leaves no more than one call past the counters, and what is known of the
forwarder is still so: it holds no more, or the call that sent was the one past them. -/
theorem Exclusive.act (hs : Exclusive s) (hc : s.calls[i]? = some c) (htodo : c.todo = id :: todo)
    (hf : s.forwarders[id]? = some f) (h : Visits c f f' c')
    (hpast : c.phase.past = true ∨ c'.phase.past = false ∨ s.past id = 0)
    (hle : f'.waiting ≤ f.waiting ∨ c.phase.past = true) (hchecked : c'.phase.Checked f') :
    Exclusive (s.act id f' i c') := by
  have hhead : ∀ id', c'.todo.head? = some id' → c'.phase.past = false ∨ id' = id := by
    intro id' hhead
    obtain rfl | ⟨⟨phase, rfl⟩, -⟩ := h.call
    · exact .inl rfl
    · exact .inr (by simpa [htodo] using hhead.symm)
  refine ⟨fun id' => ?_, fun d hd id' g hd' hg => ?_⟩
  · have hset : (s.act id f' i c').past id' + c.past id' = s.past id' + c'.past id' := total_set _ hc c'
    have hsingle := hs.single id'
    have hle := c'.past_le id'
    by_cases hno : c'.past id' = 0
    · omega
    · have hyes : c'.todo.head? = some id' ∧ c'.phase.past = true := by
        by_contra hnot
        exact hno (if_neg hnot)
      obtain hfalse | rfl := hhead id' hyes.1
      · rw [hyes.2] at hfalse
        cases hfalse
      · obtain hpast | hpast | hpast := hpast
        · have := Call.past_self htodo hpast
          omega
        · rw [hyes.2] at hpast
          cases hpast
        · omega
  · obtain rfl | hother := mem_set_or_erase hd
    · obtain hfalse | rfl := hhead id' hd'
      · exact CallPhase.checked_of_not_past hfalse g
      · obtain ⟨-, rfl⟩ | ⟨hne, -⟩ := Lists.getElem?_set_cases hg
        · exact hchecked
        · exact absurd rfl hne
    · have hmem := List.mem_of_mem_eraseIdx hother
      obtain ⟨rfl, rfl⟩ | ⟨-, hg⟩ := Lists.getElem?_set_cases hg
      · obtain hle | hone := hle
        · exact (hs.checked d hmem id' f hd' hf).mono h.frame.1 hle
        · have hzero := List.sum_eq_zero_iff.mp (hs.others hc (Call.past_self htodo hone)) _
            (List.mem_map_of_mem hother)
          exact CallPhase.checked_of_not_past (Call.not_past hzero hd') _
      · exact hs.checked d hmem id' g hd' hg

theorem Exclusive.visit (hs : Exclusive s) (hm : Metered s) (hc : s.calls[i]? = some c)
    (htodo : c.todo = id :: todo) (hf : s.forwarders[id]? = some f)
    (halone : ∀ out, c.phase = .checking out → s.past id = 0) (h : Visits c f f' c') :
    Exclusive (s.act id f' i c') := by
  have hact := hs.act hc htodo hf h
  cases h with
  | skip | enter | refuse | countBytes =>
    exact hact (.inr (.inl rfl)) (.inl le_rfl) trivial
  | @passCount out hphase hcount =>
    have hnone := halone out hphase
    have hover := Forwarder.countExceeded_iff out (hm.reading_of_none hf hnone)
    refine hact (.inr (.inr hnone)) (.inl le_rfl) ?_
    change f.waiting.1 + out.length ≤ f.opts.queueMaxMessages
    rw [hcount] at hover
    simpa using hover
  | @passBytes out hphase hbytes =>
    have hpast : c.phase.past = true := by rw [hphase]; rfl
    have hrows := hs.checked c (List.mem_of_getElem? hc) id f (by simp [htodo]) hf
    rw [hphase] at hrows
    have hover := Forwarder.bytesExceeded_iff out (hm.reading_checkingBytes hs hf hc htodo hphase)
    refine hact (.inl hpast) (.inl le_rfl) ⟨?_, fun hlimit => ?_⟩
    · rw [load_coe]
      exact hrows
    · rw [hbytes] at hover
      rw [load_coe]
      have : ¬f.opts.queueMaxBytes < f.waiting.2 + groupSize out := fun hlt =>
        Bool.false_ne_true (hover.mpr ⟨hlimit, hlt⟩)
      exact not_lt.mp this
  | send hphase | count hphase =>
    have hpast : c.phase.past = true := by rw [hphase]; rfl
    exact hact (.inl hpast) (.inr hpast) trivial

end

/-- What a call finds no longer changes while no other gets past the counters. -/
theorem Exclusive.fits {s : State κ} {l : Label κ} (hs : Exclusive s) : Fits s l := by
  cases l with
  | visit i =>
    intro c hc id hid f hf out hphase _
    have hchecked := hs.checked c (List.mem_of_getElem? hc) id f hid hf
    rwa [hphase] at hchecked
  | _ => trivial

section

variable [DecidableEq κ] {s s' : State κ} {l : Label κ}

theorem Exclusive.step (hs : Exclusive s) (hsound : Sound s) (hm : Metered s) (halone : Alone s l)
    (h : step s l = some s') : Exclusive s' := by
  -- The calls are as before, and no forwarder they visit holds more.
  have hquiet (hno : ∀ i, l ≠ .visit i) (hcalls : s'.calls = s.calls) : Exclusive s' := by
    refine ⟨fun id => by rw [State.past, hcalls]; exact hs.single id, fun c hc id f' hhead hf' => ?_⟩
    rw [hcalls] at hc
    have hlt := hsound.todo c hc id (List.mem_of_head? hhead)
    obtain ⟨f, hf, hopts, hle | ⟨i, c, todo, out, hl, -⟩⟩ | ⟨hnew, -⟩ := step_waiting h hf'
    · exact (hs.checked c hc id f hhead hf).mono hopts hle
    · exact absurd hl (hno i)
    · omega
  cases step_moves h with
  | forward tenant entries =>
    refine ⟨fun id => ?_, fun c hc id f hhead hf => ?_⟩
    · rw [State.past, total_append, total_cons, total_nil, Call.past_of_not_past rfl]
      exact hs.single id
    · obtain hc | hc := List.mem_append.mp hc
      · exact hs.checked c hc id f hhead hf
      · rw [List.mem_singleton.mp hc]
        trivial
  | @returned i c hc htodo =>
    refine ⟨fun id => ?_, fun d hd => hs.checked d (List.mem_of_mem_eraseIdx hd)⟩
    have hsingle := hs.single id
    rw [State.past, total_eraseIdx (Call.past id) hc] at hsingle
    exact le_trans (Nat.le_add_right _ _) hsingle
  | visited hc htodo hf hvisits =>
    exact hs.visit hm hc htodo hf (halone _ hc _ (by simp [htodo])) hvisits
  | sent | started | reconciled => exact hquiet (by rintro i ⟨⟩) rfl
  | stops h => cases h <;> exact hquiet (by rintro i ⟨⟩) rfl

end

theorem Metered.init : Metered ({} : State κ) := by simp [Metered, Ledger]

theorem Exclusive.init : Exclusive ({} : State κ) := ⟨fun _ => by simp [State.past], by simp⟩

theorem Limited.init : Limited ({} : State κ) := ⟨by simp, by simp⟩

/-- Along every interleaving in which no call looks at the counters of a forwarder while
another is past them, the limits hold and the counters of a drained forwarder are zero. They
do in general exactly where every group still fits when it is sent. -/
theorem limits_always_iff [DecidableEq κ] (ls : List (Label κ)) :
    (Transition.Guarded step Alone {} ls → Transition.Always step Limited {} ls) ∧
      (Transition.Always step Limited {} ls ↔ Transition.Guarded step Fits {} ls) := by
  constructor
  · intro halone
    have hinv : Transition.Always step (fun s : State κ => (Sound s ∧ Metered s ∧ Exclusive s) ∧ Limited s) {} ls :=
      halone.always (fun s l s' hs halone h => by
        obtain ⟨⟨hsound, hm, hexclusive⟩, hlimited⟩ := hs
        exact ⟨⟨hsound.step h, hm.step hsound h, hexclusive.step hsound hm halone h⟩,
          (hlimited.step_iff hsound hm h).mpr hexclusive.fits⟩) ⟨⟨.init, .init, .init⟩, .init⟩
    exact hinv.imp fun s hs => hs.2
  · refine Transition.always_iff_guarded (I := fun s => Sound s ∧ Metered s) ?_ ?_ ⟨.init, .init⟩ .init ls
    · rintro s l s' ⟨hsound, hm⟩ h
      exact ⟨hsound.step h, hm.step hsound h⟩
    · rintro s l s' ⟨hsound, hm⟩ hs h
      exact hs.step_iff hsound hm h

/-- Two calls look at the counters of a queue for one message before either has sent. -/
def overlappingCalls : List (Label Unit) :=
  [.start, .reconcile [⟨mirror "a" 1, true⟩], .finish, .forward "default" [sampleEntry],
    .forward "default" [sampleEntry], .visit 0, .visit 0, .visit 0, .visit 1, .visit 1, .visit 1, .visit 0, .visit 1]

/-- Two messages wait where one may. -/
theorem overlappingCalls_exceed : ∃ s, run overlappingCalls = some s ∧ ¬ Limited s := by
  refine ⟨_, rfl, fun h => ?_⟩
  have hwithin := (h.within _ List.mem_cons_self).1
  exact absurd hwithin (by decide)

end Syslogc.Forwarding
