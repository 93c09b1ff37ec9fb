-- SUMMARY: The slots of queries, exports and live tails.
import Syslogc.Lib.Transition
import Syslogc.Query.Service

/-!
# Slots

The service counts the queries and exports of each caller that are running, and the live
tails of each caller and of all. A request takes its slot in one critical section and
gives it back in another. In between it asks the log store, which may refuse, and an
export or a tail stays open until it is closed.

The counts are what the requests hold, in every interleaving.
-/

namespace Syslogc.Query

/-- Who a slot is counted for. -/
inductive Caller
  | key (id : Option Nat)
  | user (id : Option Nat)
deriving DecidableEq, Repr

/-- The counters of the service. A caller that is in no map counts as zero. -/
structure Slots where
  inflight : Caller → Int := fun _ => 0
  tails : Caller → Int := fun _ => 0
  tailTotal : Int := 0

/-! ## The critical sections -/

/-- One less of a caller, who is deleted from the map at zero. -/
def decrement (m : Caller → Int) (c : Caller) : Caller → Int :=
  Function.update m c (if m c - 1 ≤ 0 then 0 else m c - 1)

def increment (m : Caller → Int) (c : Caller) : Caller → Int := Function.update m c (m c + 1)

/-- The slot of a query. -/
def Slots.acquire (limits : Limits) (c : Caller) (s : Slots) : Option Slots :=
  if 0 < limits.maxConcurrent && limits.maxConcurrent ≤ s.inflight c then none
  else some { s with inflight := increment s.inflight c }

/-- The slot of an export, which has none where a query has no limit. -/
def Slots.openExport (limits : Limits) (c : Caller) (s : Slots) : Option Slots :=
  if limits.maxConcurrent ≤ s.inflight c then none
  else some { s with inflight := increment s.inflight c }

def Slots.openTail (limits : Limits) (maxTailTotal : Int) (c : Caller) (s : Slots) : Option Slots :=
  if limits.maxTailSessions ≤ s.tails c then none
  else if maxTailTotal ≤ s.tailTotal then none
  else some { s with tails := increment s.tails c, tailTotal := s.tailTotal + 1 }

def Slots.release (c : Caller) (s : Slots) : Slots := { s with inflight := decrement s.inflight c }

def Slots.releaseTail (c : Caller) (s : Slots) : Slots :=
  { s with tails := decrement s.tails c, tailTotal := s.tailTotal - 1 }

/-! ## Requests -/

inductive Kind
  | query
  | openExport
  | openTail
deriving DecidableEq, Repr

inductive Phase
  /-- Before the slot: the request is resolved and checked. -/
  | checking
  /-- The log store is asked for an export or a tail. -/
  | opening
  /-- The log store has refused, and the slot is still held. -/
  | failing
  /-- A query that runs, or an export or a tail that is open. -/
  | opened
  | refused
  | closed
deriving DecidableEq, Repr

structure Request where
  kind : Kind
  caller : Caller
  phase : Phase := .checking
deriving DecidableEq, Repr

inductive Event
  /-- A check before the slot fails. -/
  | checkFails
  | take
  | storeFails
  | storeAnswers
  /-- The query ends, the export or the tail is closed, or its opening is given up. -/
  | release
deriving DecidableEq, Repr

variable (svc : Service) (limits : Caller → Limits)

def Slots.take (r : Request) (s : Slots) : Option Slots :=
  match r.kind with
  | .query => s.acquire (limits r.caller) r.caller
  | .openExport => s.openExport (limits r.caller) r.caller
  | .openTail => s.openTail (limits r.caller) svc.opts.maxTailTotal r.caller

def Slots.giveBack (r : Request) (s : Slots) : Slots :=
  match r.kind with
  | .openTail => s.releaseTail r.caller
  | _ => s.release r.caller

/-- What an event does to the counters and to the request it is an event of. -/
def Request.advance (r : Request) (s : Slots) : Event → Option (Slots × Phase)
  | .checkFails => if r.phase = .checking then some (s, .refused) else none
  | .take =>
    if r.phase = .checking then
      match s.take svc limits r with
      | none => some (s, .refused)
      | some s' => some (s', if r.kind = .query then .opened else .opening)
    else none
  | .storeFails => if r.phase = .opening then some (s, .failing) else none
  | .storeAnswers => if r.phase = .opening then some (s, .opened) else none
  | .release =>
    match r.phase with
    | .failing => some (s.giveBack r, .refused)
    | .opened => some (s.giveBack r, .closed)
    | _ => none

/-- The counters, and the requests that were made. -/
structure ServiceState where
  slots : Slots := {}
  requests : List Request := []

inductive Label
  | start (kind : Kind) (caller : Caller)
  | advance (i : Nat) (e : Event)

def ServiceState.step (st : ServiceState) : Label → Option ServiceState
  | .start kind caller => some { st with requests := st.requests ++ [⟨kind, caller, .checking⟩] }
  | .advance i e => do
    let r ← st.requests[i]?
    let (slots, phase) ← r.advance svc limits st.slots e
    return ⟨slots, st.requests.set i { r with phase }⟩

/-! ## What the counters should be -/

/-- In this phase a request holds its slot: it is open, or it is being opened. -/
def Phase.holds (phase : Phase) : Bool := phase = .opening || phase = .failing || phase = .opened

/-- An outstanding query or export of the caller. -/
def Request.isQuery (c : Caller) (r : Request) : Bool := r.phase.holds && r.kind ≠ .openTail && r.caller = c

def Request.isTail (r : Request) : Bool := r.phase.holds && r.kind = .openTail

def Request.isTailOf (c : Caller) (r : Request) : Bool := r.isTail && r.caller = c

/-- The counters are what is outstanding, and within the limits. A limit on queries that
is not positive is none. -/
structure ServiceState.Balanced (st : ServiceState) : Prop where
  inflight : ∀ c, st.slots.inflight c = st.requests.countP (Request.isQuery c)
  tails : ∀ c, st.slots.tails c = st.requests.countP (Request.isTailOf c)
  tailTotal : st.slots.tailTotal = st.requests.countP Request.isTail
  concurrent_le : ∀ c, 0 < (limits c).maxConcurrent → st.slots.inflight c ≤ (limits c).maxConcurrent
  sessions_le : ∀ c, st.slots.tails c ≤ max 0 (limits c).maxTailSessions
  total_le : st.slots.tailTotal ≤ svc.opts.maxTailTotal

variable {svc limits}

/-- What an event can do. -/
inductive Advances (svc : Service) (limits : Caller → Limits) (r : Request) (s : Slots) :
    Event → Slots × Phase → Prop
  | checkFails (h : r.phase = .checking) : Advances svc limits r s .checkFails (s, .refused)
  | full (h : r.phase = .checking) : Advances svc limits r s .take (s, .refused)
  | take (h : r.phase = .checking) {s' : Slots} (htake : s.take svc limits r = some s') (phase : Phase)
      (hphase : phase = .opened ∨ phase = .opening) : Advances svc limits r s .take (s', phase)
  | asked (e : Event) (h : r.phase = .opening) (phase : Phase)
      (hphase : phase = .opened ∨ phase = .failing) : Advances svc limits r s e (s, phase)
  | release (h : r.phase = .failing ∨ r.phase = .opened) (phase : Phase)
      (hphase : phase = .refused ∨ phase = .closed) : Advances svc limits r s .release (s.giveBack r, phase)

theorem Request.advance_cases {r : Request} {s : Slots} {e : Event} {out : Slots × Phase}
    (h : r.advance svc limits s e = some out) : Advances svc limits r s e out := by
  cases e with
  | checkFails =>
    obtain ⟨hphase, h⟩ := Option.ite_none_right_eq_some.mp h
    cases h
    exact .checkFails hphase
  | take =>
    obtain ⟨hphase, h⟩ := Option.ite_none_right_eq_some.mp h
    split at h
    · cases h
      exact .full hphase
    · cases h
      refine .take hphase ‹_› _ ?_
      split
      · exact .inl rfl
      · exact .inr rfl
  | storeFails =>
    obtain ⟨hphase, h⟩ := Option.ite_none_right_eq_some.mp h
    cases h
    exact .asked _ hphase _ (.inr rfl)
  | storeAnswers =>
    obtain ⟨hphase, h⟩ := Option.ite_none_right_eq_some.mp h
    cases h
    exact .asked _ hphase _ (.inl rfl)
  | release =>
    simp only [Request.advance] at h
    split at h
    · cases h
      exact .release (.inl ‹_›) _ (.inl rfl)
    · cases h
      exact .release (.inr ‹_›) _ (.inr rfl)
    · cases h

/-! ## Changing the counters -/

@[simp] theorem increment_apply (m : Caller → Int) (c d : Caller) :
    increment m c d = m d + if c = d then 1 else 0 := by
  unfold increment
  by_cases h : c = d
  · subst h
    simp
  · simp [h, Function.update_of_ne (Ne.symm h)]

/-- A slot that is held is taken off the count. -/
theorem decrement_apply {m : Caller → Int} {c : Caller} (hpos : 0 < m c) (d : Caller) :
    decrement m c d = m d + if c = d then -1 else 0 := by
  unfold decrement
  by_cases h : c = d
  · subst h
    simp only [Function.update_self, if_true]
    split <;> omega
  · simp [h, Function.update_of_ne (Ne.symm h)]

/-- The counters of the request change by `n`. -/
structure Slots.Changed (r : Request) (n : Int) (s s' : Slots) : Prop where
  inflight : ∀ c, s'.inflight c = s.inflight c + if r.kind ≠ .openTail ∧ r.caller = c then n else 0
  tails : ∀ c, s'.tails c = s.tails c + if r.kind = .openTail ∧ r.caller = c then n else 0
  tailTotal : s'.tailTotal = s.tailTotal + if r.kind = .openTail then n else 0

/-- What taking a slot does, and what was checked for it. -/
theorem Slots.take_changed {r : Request} {s s' : Slots} (h : s.take svc limits r = some s') :
    Slots.Changed r 1 s s' ∧
      (r.kind ≠ .openTail → 0 < (limits r.caller).maxConcurrent →
        s.inflight r.caller < (limits r.caller).maxConcurrent) ∧
      (r.kind = .openTail →
        s.tails r.caller < (limits r.caller).maxTailSessions ∧ s.tailTotal < svc.opts.maxTailTotal) := by
  unfold Slots.take at h
  split at h
  · rename_i hkind
    obtain ⟨hfree, h⟩ := Option.ite_none_left_eq_some.mp h
    cases h
    refine ⟨⟨by simp [hkind], by simp [hkind], by simp [hkind]⟩, fun _ hpos => ?_, by simp [hkind]⟩
    simpa [hpos] using hfree
  · rename_i hkind
    obtain ⟨hfree, h⟩ := Option.ite_none_left_eq_some.mp h
    cases h
    exact ⟨⟨by simp [hkind], by simp [hkind], by simp [hkind]⟩, fun _ _ => not_le.mp hfree, by simp [hkind]⟩
  · rename_i hkind
    obtain ⟨hsessions, h⟩ := Option.ite_none_left_eq_some.mp h
    obtain ⟨htotal, h⟩ := Option.ite_none_left_eq_some.mp h
    cases h
    exact ⟨⟨by simp [hkind], by simp [hkind], by simp [hkind]⟩, by simp [hkind],
      fun _ => ⟨not_le.mp hsessions, not_le.mp htotal⟩⟩

/-- Giving a slot back undoes that, if it is counted. -/
theorem Slots.giveBack_changed {r : Request} {s : Slots} (hquery : r.kind ≠ .openTail → 0 < s.inflight r.caller)
    (htail : r.kind = .openTail → 0 < s.tails r.caller) : Slots.Changed r (-1) s (s.giveBack r) := by
  unfold Slots.giveBack
  split
  · rename_i hkind
    have hpos := htail hkind
    exact ⟨by simp [Slots.releaseTail, hkind], by simp [Slots.releaseTail, hkind, decrement_apply hpos],
      by simp [Slots.releaseTail, hkind, Int.sub_eq_add_neg]⟩
  · rename_i hother
    have hkind : r.kind ≠ .openTail := hother
    have hpos := hquery hkind
    exact ⟨by simp [Slots.release, hkind, decrement_apply hpos], by simp [Slots.release, hkind],
      by simp [Slots.release, hkind]⟩

/-! ## Counting requests -/

/-- What a request counts for in a phase. -/
def Phase.weight (phase : Phase) : Int := if phase.holds then 1 else 0

section Counts

variable {l : List Request} {i : Nat} {r : Request} (h : l[i]? = some r) (phase : Phase)

include h

/-- A phase changes the requests of a sort that hold a slot by what it changes at one of
them. -/
theorem countP_phase {p : Request → Bool} {q : Bool} (hp : ∀ phase, p { r with phase } = (phase.holds && q)) :
    ((l.set i { r with phase }).countP p : Int) =
      l.countP p + if q then phase.weight - r.phase.weight else 0 := by
  obtain ⟨hi, hr⟩ := List.getElem?_eq_some_iff.mp h
  have hcount := List.countP_set (p := p) (l := l) (a := { r with phase }) hi
  have hbefore : p l[i] = (r.phase.holds && q) := hr ▸ hp r.phase
  have hpos : p l[i] = true → 0 < l.countP p := fun hmem =>
    List.countP_pos_iff.mpr ⟨l[i], List.getElem_mem hi, hmem⟩
  rw [hcount, hbefore, hp phase]
  rw [hbefore] at hpos
  unfold Phase.weight
  cases q <;> cases hr' : r.phase.holds <;> cases phase.holds <;> (simp_all; try omega)

theorem queries_set (c : Caller) :
    ((l.set i { r with phase }).countP (Request.isQuery c) : Int) = l.countP (Request.isQuery c) +
      if r.kind ≠ .openTail ∧ r.caller = c then phase.weight - r.phase.weight else 0 := by
  rw [countP_phase h phase (q := r.kind ≠ .openTail && r.caller = c)]
  · simp
  · intro phase
    simp [Request.isQuery, Bool.and_assoc]

theorem tails_set (c : Caller) :
    ((l.set i { r with phase }).countP (Request.isTailOf c) : Int) = l.countP (Request.isTailOf c) +
      if r.kind = .openTail ∧ r.caller = c then phase.weight - r.phase.weight else 0 := by
  rw [countP_phase h phase (q := r.kind = .openTail && r.caller = c)]
  · simp
  · intro phase
    simp [Request.isTailOf, Request.isTail, Bool.and_assoc]

theorem tailTotal_set :
    ((l.set i { r with phase }).countP Request.isTail : Int) = l.countP Request.isTail +
      if r.kind = .openTail then phase.weight - r.phase.weight else 0 := by
  rw [countP_phase h phase (q := r.kind = .openTail)]
  · simp
  · intro phase
    rfl

end Counts

theorem countP_append_request (p : Request → Bool) (l : List Request) {r : Request} (h : p r = false) :
    (l ++ [r]).countP p = l.countP p := by
  simp [List.countP_append, h]

/-- A request that holds a slot is counted. -/
theorem countP_pos_of_holds {l : List Request} {i : Nat} {r : Request} (h : l[i]? = some r)
    {p : Request → Bool} (hp : p r = true) : (0 : Int) < l.countP p := by
  have hpos := List.countP_pos_iff.mpr ⟨r, List.mem_of_getElem? h, hp⟩
  exact_mod_cast hpos

/-! ## Steps -/

namespace ServiceState.Balanced

variable {st : ServiceState}

theorem start (h : st.Balanced svc limits) (kind : Kind) (c : Caller) :
    ServiceState.Balanced svc limits { st with requests := st.requests ++ [⟨kind, c, .checking⟩] } where
  inflight d := by rw [countP_append_request _ _ (by rfl)]; exact h.inflight d
  tails d := by rw [countP_append_request _ _ (by rfl)]; exact h.tails d
  tailTotal := by rw [countP_append_request _ _ (by rfl)]; exact h.tailTotal
  concurrent_le := h.concurrent_le
  sessions_le := h.sessions_le
  total_le := h.total_le

variable {i : Nat} {r : Request} {phase : Phase}

/-- The counters change with what the request holds, and are within the limits. -/
theorem changed (h : st.Balanced svc limits) (hr : st.requests[i]? = some r) {s : Slots}
    (hs : Slots.Changed r (phase.weight - r.phase.weight) st.slots s)
    (hconcurrent : ∀ c, 0 < (limits c).maxConcurrent → s.inflight c ≤ (limits c).maxConcurrent)
    (hsessions : ∀ c, s.tails c ≤ max 0 (limits c).maxTailSessions) (htotal : s.tailTotal ≤ svc.opts.maxTailTotal) :
    ServiceState.Balanced svc limits ⟨s, st.requests.set i { r with phase }⟩ where
  inflight c := by rw [queries_set hr, ← h.inflight c]; exact hs.inflight c
  tails c := by rw [tails_set hr, ← h.tails c]; exact hs.tails c
  tailTotal := by rw [tailTotal_set hr, ← h.tailTotal]; exact hs.tailTotal
  concurrent_le := hconcurrent
  sessions_le := hsessions
  total_le := htotal

/-- A request goes on holding its slot, or goes on holding none. -/
theorem keep (h : st.Balanced svc limits) (hr : st.requests[i]? = some r)
    (hphase : phase.weight = r.phase.weight) :
    ServiceState.Balanced svc limits ⟨st.slots, st.requests.set i { r with phase }⟩ :=
  h.changed hr ⟨by simp [hphase], by simp [hphase], by simp [hphase]⟩ h.concurrent_le h.sessions_le h.total_le

theorem take (h : st.Balanced svc limits) (hr : st.requests[i]? = some r) {s : Slots}
    (htake : st.slots.take svc limits r = some s) (hphase : phase.weight - r.phase.weight = 1) :
    ServiceState.Balanced svc limits ⟨s, st.requests.set i { r with phase }⟩ := by
  obtain ⟨hs, hquery, htail⟩ := Slots.take_changed htake
  refine h.changed hr (hphase ▸ hs) (fun c hpos => ?_) (fun c => ?_) ?_
  · rw [hs.inflight]
    split
    · rename_i hc
      obtain ⟨hkind, rfl⟩ := hc
      exact hquery hkind hpos
    · simpa using h.concurrent_le c hpos
  · rw [hs.tails]
    split
    · rename_i hc
      obtain ⟨hkind, rfl⟩ := hc
      exact (htail hkind).1.trans_le (le_max_right _ _)
    · simpa using h.sessions_le c
  · rw [hs.tailTotal]
    split
    · exact (htail ‹_›).2
    · simpa using h.total_le

theorem giveBack (h : st.Balanced svc limits) (hr : st.requests[i]? = some r) (hholds : r.phase.holds = true)
    (hphase : phase.weight - r.phase.weight = -1) :
    ServiceState.Balanced svc limits ⟨st.slots.giveBack r, st.requests.set i { r with phase }⟩ := by
  have hs : Slots.Changed r (-1) st.slots (st.slots.giveBack r) := by
    refine Slots.giveBack_changed (fun hkind => ?_) fun hkind => ?_
    · rw [h.inflight]
      exact countP_pos_of_holds hr (by simp [Request.isQuery, hkind, hholds])
    · rw [h.tails]
      exact countP_pos_of_holds hr (by simp [Request.isTailOf, Request.isTail, hkind, hholds])
  have hless {p : Prop} [Decidable p] (n : Int) : (n + if p then -1 else 0) ≤ n := by split <;> omega
  refine h.changed hr (hphase ▸ hs) (fun c hpos => ?_) (fun c => ?_) ?_
  · exact (hs.inflight c).le.trans ((hless _).trans (h.concurrent_le c hpos))
  · exact (hs.tails c).le.trans ((hless _).trans (h.sessions_le c))
  · exact hs.tailTotal.le.trans ((hless _).trans h.total_le)

/-- Every event keeps the balance. -/
theorem advance (h : st.Balanced svc limits) (hr : st.requests[i]? = some r) {e : Event}
    {out : Slots × Phase} (hout : Advances svc limits r st.slots e out) :
    ServiceState.Balanced svc limits ⟨out.1, st.requests.set i { r with phase := out.2 }⟩ := by
  cases hout with
  | checkFails hphase => exact h.keep hr (by rw [hphase]; rfl)
  | full hphase => exact h.keep hr (by rw [hphase]; rfl)
  | asked e hphase phase hnext =>
    apply h.keep hr
    rw [hphase]
    rcases hnext with rfl | rfl <;> rfl
  | take hphase htake phase hnext =>
    have hweight : phase.weight - r.phase.weight = 1 := by
      rw [hphase]
      rcases hnext with rfl | rfl <;> rfl
    exact h.take hr htake hweight
  | release hphase phase hnext =>
    have hholds : r.phase.holds = true := by rcases hphase with hphase | hphase <;> rw [hphase] <;> rfl
    have hweight : phase.weight - r.phase.weight = -1 := by
      rw [Phase.weight, Phase.weight, hholds]
      rcases hnext with rfl | rfl <;> rfl
    exact h.giveBack hr hholds hweight

end ServiceState.Balanced

/-- What a step can do. -/
theorem ServiceState.step_advance {st st' : ServiceState} {i : Nat} {e : Event}
    (h : st.step svc limits (.advance i e) = some st') :
    ∃ r out, st.requests[i]? = some r ∧ Advances svc limits r st.slots e out ∧
      st' = ⟨out.1, st.requests.set i { r with phase := out.2 }⟩ := by
  obtain ⟨r, hr, h⟩ := Option.bind_eq_some_iff.mp h
  obtain ⟨out, hout, h⟩ := Option.bind_eq_some_iff.mp h
  cases h
  exact ⟨r, out, hr, Request.advance_cases hout, rfl⟩

theorem ServiceState.Balanced.step {st st' : ServiceState} {l : Label} (h : st.Balanced svc limits)
    (hstep : st.step svc limits l = some st') : st'.Balanced svc limits := by
  cases l with
  | start kind c =>
    cases hstep
    exact h.start kind c
  | advance i e =>
    obtain ⟨r, out, hr, hout, rfl⟩ := ServiceState.step_advance hstep
    exact h.advance hr hout

theorem balanced_init : ServiceState.Balanced svc limits {} where
  inflight _ := rfl
  tails _ := rfl
  tailTotal := rfl
  concurrent_le _ h := h.le
  sessions_le _ := le_max_left _ _
  total_le := svc.tailTotal_pos.le

/-- The counters are determined by what is outstanding. -/
theorem ServiceState.Balanced.slots_eq {st st' : ServiceState} (h : st.Balanced svc limits)
    (h' : st'.Balanced svc limits) {i : Nat} {r : Request} (hr : st.requests[i]? = some r)
    {phase : Phase} (hrequests : st'.requests = st.requests.set i { r with phase })
    (hphase : phase.weight = r.phase.weight) : st'.slots = st.slots := by
  have hkeep := h.keep hr hphase
  obtain ⟨slots, requests⟩ := st'
  subst hrequests
  have hinflight : slots.inflight = st.slots.inflight := funext fun c =>
    (h'.inflight c).trans (hkeep.inflight c).symm
  have htails : slots.tails = st.slots.tails := funext fun c => (h'.tails c).trans (hkeep.tails c).symm
  have htotal : slots.tailTotal = st.slots.tailTotal := h'.tailTotal.trans hkeep.tailTotal.symm
  obtain ⟨inflight, tails, tailTotal⟩ := slots
  simp only at hinflight htails htotal
  subst hinflight htails htotal
  rfl

/-- The events of one request change no other. -/
theorem run_alone {st st' : ServiceState} {i : Nat} {r : Request} (hr : st.requests[i]? = some r)
    {es : List Event}
    (hrun : Transition.run (ServiceState.step svc limits) st (es.map (.advance i)) = some st') :
    ∃ phase, st'.requests = st.requests.set i { r with phase } := by
  induction es generalizing st r with
  | nil =>
    cases hrun
    obtain ⟨hi, rfl⟩ := List.getElem?_eq_some_iff.mp hr
    exact ⟨_, (List.set_getElem_self hi).symm⟩
  | cons e es ih =>
    obtain ⟨st₁, hstep, hrest⟩ := Option.bind_eq_some_iff.mp hrun
    obtain ⟨r', out, hr', -, rfl⟩ := ServiceState.step_advance hstep
    cases hr.symm.trans hr'
    have hnext : (st.requests.set i { r with phase := out.2 })[i]? = some { r with phase := out.2 } := by
      rw [List.getElem?_set_self (List.getElem?_eq_some_iff.mp hr).1]
    obtain ⟨phase, hphase⟩ := ih hnext hrest
    exact ⟨phase, by rw [hphase, List.set_set]⟩

/-- In every state that is reached, the counters are what is outstanding and within the
limits, and an export or a tail that is tried and fails leaves them as they were. -/
theorem slots_balanced (svc : Service) (limits : Caller → Limits) {ls : List Label} {st : ServiceState}
    (hrun : Transition.run (ServiceState.step svc limits) {} ls = some st) :
    st.Balanced svc limits ∧
      ∀ (i : Nat) (r : Request), st.requests[i]? = some r → r.phase = .checking →
        ∀ (es : List Event) (st' : ServiceState),
          Transition.run (ServiceState.step svc limits) st (es.map (.advance i)) = some st' →
          st'.requests[i]?.map (·.phase) = some .refused → st'.slots = st.slots := by
  have hbalanced : st.Balanced svc limits :=
    Transition.run_invariant (fun _ _ _ h hstep => h.step hstep) balanced_init hrun
  refine ⟨hbalanced, fun i r hr hchecking es st' halone hrefused => ?_⟩
  have hbalanced' : st'.Balanced svc limits :=
    Transition.run_invariant (fun _ _ _ h hstep => h.step hstep) hbalanced halone
  obtain ⟨phase, hrequests⟩ := run_alone hr halone
  have hphase : phase = .refused := by
    rw [hrequests, List.getElem?_set_self (List.getElem?_eq_some_iff.mp hr).1] at hrefused
    simpa using hrefused
  subst hphase
  exact hbalanced.slots_eq hbalanced' hr hrequests (by rw [hchecking]; rfl)

/-- A caller with one slot and one tail, whose query runs while an export is refused and
a tail is open. -/
def busyService : Service := newService ⟨[], 0⟩

def busyLimits (_ : Caller) : Limits := ⟨0, 1, 1⟩

def busyRun : List Label :=
  [.start .query (.user (some 1)), .advance 0 .take, .start .openExport (.user (some 1)), .advance 1 .take,
    .start .openTail (.user (some 1)), .advance 2 .take, .advance 2 .storeAnswers]

def busyState : ServiceState :=
  (Transition.run (ServiceState.step busyService busyLimits) {} busyRun).getD {}

theorem slots_balanced_busy :
    Transition.run (ServiceState.step busyService busyLimits) {} busyRun = some busyState ∧
      busyState.Balanced busyService busyLimits ∧ busyState.slots.inflight (.user (some 1)) = 1 ∧
      busyState.slots.tails (.user (some 1)) = 1 ∧ busyState.slots.tailTotal = 1 := by
  have hrun : Transition.run (ServiceState.step busyService busyLimits) {} busyRun = some busyState := rfl
  exact ⟨hrun, (slots_balanced busyService busyLimits hrun).1, rfl, rfl, rfl⟩

end Syslogc.Query
