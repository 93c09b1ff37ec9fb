-- SUMMARY: The registry of forwarders, one action at a time.
import Syslogc.Forwarding.Forwarder

/-!
# The forwarding system

The registry holds the forwarders in use and swaps them as a whole. `Forward`
loads the set once and visits its members in turn, so a call may still hold
forwarders that a reconciliation has replaced. `Reconcile` and `Stop` hold the
registry's mutex from their first step to `finish`; they stop forwarders while
calls and senders go on.

Every forwarder ever built stays in `State.forwarders` and is named by its index.
-/

namespace Syslogc.Forwarding

variable {κ : Type}

/-! ## Targets -/

inductive Origin where
  | file
  | database
deriving DecidableEq, Repr

/-- One place to mirror to. -/
structure Target (κ : Type) where
  options : Options κ
  origin : Origin
  enabled : Bool
deriving DecidableEq, Repr

def Target.name (t : Target κ) : String := t.options.name

/-- A target that mirrors everything, with a queue of `n` messages. -/
def mirror (name : String) (n : Int) : Target Unit where
  options := {
    name, queueMaxMessages := n, queueMaxBytes := 0, batchMaxRows := 5, batchMaxBytes := 0
    batchMaxWait := 1, initialBackoff := 1, maxBackoff := 1, sources := [], config := ()
    minSeverity := none }
  origin := .database
  enabled := true

/-! ## State -/

/-- Where a call stands with the forwarder it visits. It holds the read lock in
every phase but the first. -/
inductive CallPhase where
  | entering
  /-- The copies are made; `queued` is looked at next. -/
  | checking (out : List Copy)
  | checkingBytes (out : List Copy)
  | sending (out : List Copy)
  /-- The group is in the queue; `queued` is not yet raised. -/
  | counting (out : List Copy)
  | countingBytes (out : List Copy)
deriving DecidableEq, Repr

/-- A call of `Registry.Forward`: the forwarders of its snapshot that it has yet to
visit, the current one first. -/
structure Call where
  tenant : String
  entries : List Entry
  todo : List Nat
  phase : CallPhase := .entering
deriving DecidableEq, Repr

/-- What holds the registry's mutex. -/
inductive Mutation where
  | none
  /-- Forwarders to be stopped and, of these, the ones whose senders are waited
  for. `Stop` stops all at once, `Reconcile` one after the other. -/
  | stopping (todo waiting : List Nat) (all : Bool)
deriving DecidableEq, Repr

structure State (κ : Type) where
  forwarders : List (Forwarder κ) := []
  current : List Nat := []
  desired : List (Target κ) := []
  started : Bool := false
  mutation : Mutation := .none
  calls : List Call := []
  /-- The list of the last `Reconcile`, empty after `Stop`. -/
  wanted : List (Target κ) := []
deriving DecidableEq, Repr

/-! ## Reconciliation -/

/-- `r.desired[name]`: of several targets with one name the last counts. -/
def State.desiredTarget (s : State κ) (name : String) : Option (Target κ) :=
  s.desired.reverse.find? (·.name = name)

def State.nameOf (s : State κ) (id : Nat) : Option String :=
  (s.forwarders[id]?).map Forwarder.name

/-- `running[name]`, built from the current forwarders: the last one counts. -/
def State.running (s : State κ) (name : String) : Option Nat :=
  s.current.reverse.find? (s.nameOf · = some name)

/-- A target with what `build` makes of it. -/
structure BuildRequest (κ : Type) where
  target : Target κ
  built : Bool
deriving DecidableEq, Repr

/-- What the loop of `Reconcile` has put together. -/
structure Plan (κ : Type) where
  forwarders : List (Forwarder κ)
  next : List Nat := []
  keep : List String := []

/-- The target is as before and its forwarder is running. -/
def State.unchanged [DecidableEq κ] (s : State κ) (t : Target κ) : Option Nat :=
  if s.desiredTarget t.name = some t then s.running t.name else none

/-- A forwarder built for a target; on a live registry it is started at once. -/
def State.build (s : State κ) (t : Target κ) : Forwarder κ :=
  if s.started then (Forwarder.new t.options).start else Forwarder.new t.options

/-- The loop of `Reconcile` over the targets. -/
def State.plan [DecidableEq κ] (s : State κ) (p : Plan κ) : List (BuildRequest κ) → Plan κ
  | [] => p
  | r :: rs =>
    if !r.target.enabled then s.plan p rs
    else match s.unchanged r.target with
      | some id =>
        s.plan { p with next := p.next ++ [id], keep := p.keep ++ [r.target.name] } rs
      | none =>
        if !r.built then s.plan p rs
        else
          s.plan {
            forwarders := p.forwarders ++ [s.build r.target]
            next := p.next ++ [p.forwarders.length]
            keep := p.keep ++ [r.target.name] } rs

/-- The forwarders of `running` that are not kept. -/
def State.unwanted (s : State κ) (keep : List String) : List Nat :=
  (s.current.filter fun id =>
    match s.nameOf id with
    | some name => s.running name = some id && !keep.contains name
    | none => false).dedup

def State.reconcile [DecidableEq κ] (s : State κ) (rs : List (BuildRequest κ)) : State κ :=
  let p := s.plan { forwarders := s.forwarders } rs
  { s with
    forwarders := p.forwarders
    current := p.next
    desired := rs.map (·.target)
    wanted := rs.map (·.target)
    mutation := .stopping (s.unwanted p.keep) [] false }

/-! ## Steps -/

inductive Label (κ : Type) where
  /-- `Registry.Forward` is called and loads the current set. -/
  | forward (tenant : String) (entries : List Entry)
  /-- Call `i` takes its next action. -/
  | visit (i : Nat)
  /-- Sender `k` of forwarder `id` acts. -/
  | sender (id k : Nat) (a : SenderAct)
  | start
  | reconcile (rs : List (BuildRequest κ))
  | stop
  /-- `Stop` of forwarder `id` takes the lock and closes the queue. -/
  | close (id : Nat)
  /-- The context given to `Stop` ends: in-flight writes are abandoned. -/
  | expire (id : Nat)
  /-- `Stop` of forwarder `id` returns. -/
  | stopped (id : Nat)
  /-- `Reconcile` or `Stop` returns. -/
  | finish

def State.setForwarder (s : State κ) (id : Nat) (f : Forwarder κ) : State κ :=
  { s with forwarders := s.forwarders.set id f }

/-- Call `i` goes on to the next forwarder of its snapshot. -/
def State.nextForwarder (s : State κ) (i : Nat) (c : Call) : State κ :=
  { s with calls := s.calls.set i { c with todo := c.todo.tail, phase := .entering } }

def State.setPhase (s : State κ) (i : Nat) (c : Call) (phase : CallPhase) : State κ :=
  { s with calls := s.calls.set i { c with phase } }

/-- `Forwarder.Forward` of `f`, which has index `id`, called by `c`. -/
def State.visitStep (s : State κ) (i : Nat) (c : Call) (id : Nat) (f : Forwarder κ) : State κ :=
  match c.phase with
  | .entering =>
    let out := f.copies c.tenant c.entries
    let s := s.setForwarder id { f with handed := f.handed ++ out }
    if f.closed then s.nextForwarder i c
    else if out = [] then s.nextForwarder i c
    else s.setPhase i c (.checking out)
  | .checking out =>
    if f.countExceeded out then (s.setForwarder id (f.drop .queueFull out)).nextForwarder i c
    else s.setPhase i c (.checkingBytes out)
  | .checkingBytes out =>
    if f.bytesExceeded out then (s.setForwarder id (f.drop .queueFull out)).nextForwarder i c
    else s.setPhase i c (.sending out)
  | .sending out =>
    if f.queue.length < f.opts.queueCap then
      (s.setForwarder id { f with queue := f.queue ++ [out] }).setPhase i c (.counting out)
    else (s.setForwarder id (f.drop .queueFull out)).nextForwarder i c
  | .counting out =>
    (s.setForwarder id { f with queued := f.queued + out.length }).setPhase i c
      (.countingBytes out)
  | .countingBytes out =>
    (s.setForwarder id { f with bytes := f.bytes + groupSize out }).nextForwarder i c

/-- The call is inside `Forward` of forwarder `id` and holds its read lock. -/
def Call.inside (id : Nat) (c : Call) : Bool := c.todo.head? = some id && c.phase ≠ .entering

/-- `Stop` of forwarder `id`, up to the wait: a forwarder already closed is left
alone, and the lock is free only when no call is inside. -/
def State.closeStep (s : State κ) (id : Nat) (f : Forwarder κ) : Option (State κ) :=
  match s.mutation with
  | .stopping todo waiting all =>
    if id ∈ todo ∧ (all = true ∨ waiting = []) then
      if f.closed then some { s with mutation := .stopping (todo.erase id) waiting all }
      else if s.calls.any (·.inside id) then none
      else some ({ s with mutation := .stopping (todo.erase id) (id :: waiting) all }.setForwarder id
        { f with closed := true })
    else none
  | .none => none

/-- The waits of `Stop`, and the end of `Reconcile` and of the registry's `Stop`. -/
def State.stopStep (s : State κ) : Label κ → Option (State κ)
  | .expire id =>
    match s.mutation, s.forwarders[id]? with
    | .stopping _ waiting _, some f =>
      if id ∈ waiting then some (s.setForwarder id { f with stopped := true }) else none
    | _, _ => none
  | .stopped id =>
    match s.mutation, s.forwarders[id]? with
    | .stopping todo waiting all, some f =>
      if id ∈ waiting ∧ f.idle then
        some { s with mutation := .stopping todo (waiting.erase id) all }
      else none
    | _, _ => none
  | .finish =>
    match s.mutation with
    | .stopping [] [] all =>
      some { s with mutation := .none, current := if all then [] else s.current }
    | _ => none
  | _ => none

/-- `Start`: the forwarders in use each get a sender. -/
def State.startAll (s : State κ) : State κ :=
  { s with
    started := true
    forwarders := s.forwarders.mapIdx fun id f =>
      Nat.repeat Forwarder.start (s.current.count id) f }

/-- One action of one goroutine. -/
def step [DecidableEq κ] (s : State κ) : Label κ → Option (State κ)
  | .forward tenant entries =>
    some { s with calls := s.calls ++ [{ tenant, entries, todo := s.current }] }
  | .visit i =>
    (s.calls[i]?).bind fun c =>
      match c.todo with
      | [] => some { s with calls := s.calls.eraseIdx i }
      | id :: _ => (s.forwarders[id]?).map (s.visitStep i c id)
  | .sender id k a =>
    (s.forwarders[id]?).bind fun f => (f.senders[k]?).bind fun w =>
      (f.senderStep k w a).map (s.setForwarder id)
  | .start => if s.mutation = .none then some s.startAll else none
  | .reconcile rs => if s.mutation = .none then some (s.reconcile rs) else none
  | .stop =>
    if s.mutation = .none then
      some { s with mutation := .stopping s.current [] true, wanted := [] }
    else none
  | .close id => (s.forwarders[id]?).bind (s.closeStep id)
  | .expire id => s.stopStep (.expire id)
  | .stopped id => s.stopStep (.stopped id)
  | .finish => s.stopStep .finish

/-- The state an interleaving leads to, from an empty registry. -/
def run [DecidableEq κ] (ls : List (Label κ)) : Option (State κ) := Transition.run step {} ls

/-! ## What a step can do -/

/-- What sender `k`, which stands at `w`, can do to its forwarder. -/
inductive Sends (f : Forwarder κ) (k : Nat) (w : Sender) : Forwarder κ → Prop
  | receive {g : List Copy} {queue : List (List Copy)} (hphase : w.phase = .selecting)
      (hqueue : f.queue = g :: queue) : Sends f k w ({ f with queue }.setSender k (w.receive f.opts g))
  | timer (hphase : w.phase = .selecting) : Sends f k w (f.setSender k (w.flush f.opts .select))
  | drained (hphase : w.phase = .selecting) (hqueue : f.queue = []) (hclosed : f.closed = true) :
      Sends f k w (f.setSender k (w.flush f.opts .exit))
  | sent {next : AfterFlush} (hphase : w.phase = .writing next) :
      Sends f k w ({ f with sent := f.sent ++ w.pending }.written k w next)
  | dropped {next : AfterFlush} {reason : DropReason} (hreason : reason ≠ .queueFull)
      (hphase : w.phase = .writing next ∨ w.phase = .backingOff next) :
      Sends f k w ((f.drop reason w.pending).written k w next)
  | backOff {next : AfterFlush} (hphase : w.phase = .writing next) :
      Sends f k w (f.setSender k { w with phase := .backingOff next })
  | retry {next : AfterFlush} (hphase : w.phase = .backingOff next) :
      Sends f k w (f.setSender k { w with phase := .writing next })
  | uncount {rows size : Nat} {next : AfterFlush} (hphase : w.phase = .uncounting rows size next) :
      Sends f k w ({ f with queued := f.queued - rows }.setSender k
        { w with phase := .uncountingBytes size next })
  | uncountBytes {size : Nat} {next : AfterFlush} (hphase : w.phase = .uncountingBytes size next) :
      Sends f k w ({ f with bytes := f.bytes - size }.setSender k (w.goOn f.opts next))

/-- Why a call drops a group: it goes over a limit, or finds no free slot. -/
inductive Refused (f : Forwarder κ) (out : List Copy) : CallPhase → Prop
  | count (h : f.countExceeded out = true) : Refused f out (.checking out)
  | bytes (h : f.bytesExceeded out = true) : Refused f out (.checkingBytes out)
  | slots (h : ¬f.queue.length < f.opts.queueCap) : Refused f out (.sending out)

/-- The call goes on to the next forwarder. -/
def Call.next (c : Call) : Call := { c with todo := c.todo.tail, phase := .entering }

/-- What a call does next with the forwarder it visits, and where it stands then. -/
inductive Visits (c : Call) (f : Forwarder κ) : Forwarder κ → Call → Prop
  | skip (hphase : c.phase = .entering) (h : f.closed = true ∨ f.copies c.tenant c.entries = []) :
      Visits c f { f with handed := f.handed ++ f.copies c.tenant c.entries } c.next
  | enter (hphase : c.phase = .entering) (hopen : f.closed = false)
      (hne : f.copies c.tenant c.entries ≠ []) :
      Visits c f { f with handed := f.handed ++ f.copies c.tenant c.entries }
        { c with phase := .checking (f.copies c.tenant c.entries) }
  | refuse {out : List Copy} (h : Refused f out c.phase) : Visits c f (f.drop .queueFull out) c.next
  | passCount {out : List Copy} (hphase : c.phase = .checking out) (h : f.countExceeded out = false) :
      Visits c f f { c with phase := .checkingBytes out }
  | passBytes {out : List Copy} (hphase : c.phase = .checkingBytes out)
      (h : f.bytesExceeded out = false) : Visits c f f { c with phase := .sending out }
  | send {out : List Copy} (hphase : c.phase = .sending out) (h : f.queue.length < f.opts.queueCap) :
      Visits c f { f with queue := f.queue ++ [out] } { c with phase := .counting out }
  | count {out : List Copy} (hphase : c.phase = .counting out) :
      Visits c f { f with queued := f.queued + out.length } { c with phase := .countingBytes out }
  | countBytes {out : List Copy} (hphase : c.phase = .countingBytes out) :
      Visits c f { f with bytes := f.bytes + groupSize out } c.next

/-- What `Stop` does to a registry, step by step. -/
inductive Stops (s : State κ) : Label κ → State κ → Prop
  | stop (hnone : s.mutation = .none) :
      Stops s .stop { s with mutation := .stopping s.current [] true, wanted := [] }
  | skip {id : Nat} {f : Forwarder κ} {todo waiting : List Nat} {all : Bool}
      (hf : s.forwarders[id]? = some f) (hstopping : s.mutation = .stopping todo waiting all)
      (hid : id ∈ todo) (hclosed : f.closed = true) :
      Stops s (.close id) { s with mutation := .stopping (todo.erase id) waiting all }
  | close {id : Nat} {f : Forwarder κ} {todo waiting : List Nat} {all : Bool}
      (hf : s.forwarders[id]? = some f) (hstopping : s.mutation = .stopping todo waiting all)
      (hid : id ∈ todo) (hopen : f.closed = false) (hout : ∀ c ∈ s.calls, c.inside id = false) :
      Stops s (.close id)
        ({ s with mutation := .stopping (todo.erase id) (id :: waiting) all }.setForwarder id
          { f with closed := true })
  | expire {id : Nat} {f : Forwarder κ} (hf : s.forwarders[id]? = some f) :
      Stops s (.expire id) (s.setForwarder id { f with stopped := true })
  | stopped {id : Nat} {f : Forwarder κ} {todo waiting : List Nat} {all : Bool}
      (hf : s.forwarders[id]? = some f) (hstopping : s.mutation = .stopping todo waiting all)
      (hid : id ∈ waiting) (hidle : f.idle = true) :
      Stops s (.stopped id) { s with mutation := .stopping todo (waiting.erase id) all }
  | finish {all : Bool} (hstopping : s.mutation = .stopping [] [] all) :
      Stops s .finish { s with mutation := .none, current := if all then [] else s.current }

/-- Call `i` acts on forwarder `id`. -/
def State.act (s : State κ) (id : Nat) (f : Forwarder κ) (i : Nat) (c : Call) : State κ :=
  { s with forwarders := s.forwarders.set id f, calls := s.calls.set i c }

/-- Every step there is. -/
inductive Moves [DecidableEq κ] (s : State κ) : Label κ → State κ → Prop
  | forward (tenant : String) (entries : List Entry) :
      Moves s (.forward tenant entries) { s with calls := s.calls ++ [{ tenant, entries, todo := s.current }] }
  | returned {i : Nat} {c : Call} (hc : s.calls[i]? = some c) (htodo : c.todo = []) :
      Moves s (.visit i) { s with calls := s.calls.eraseIdx i }
  | visited {i id : Nat} {c c' : Call} {todo : List Nat} {f f' : Forwarder κ}
      (hc : s.calls[i]? = some c) (htodo : c.todo = id :: todo) (hf : s.forwarders[id]? = some f)
      (h : Visits c f f' c') : Moves s (.visit i) (s.act id f' i c')
  | sent {id k : Nat} {a : SenderAct} {f f' : Forwarder κ} {w : Sender}
      (hf : s.forwarders[id]? = some f) (hw : f.senders[k]? = some w) (h : Sends f k w f') :
      Moves s (.sender id k a) (s.setForwarder id f')
  | started (hnone : s.mutation = .none) : Moves s .start s.startAll
  | reconciled (rs : List (BuildRequest κ)) (hnone : s.mutation = .none) :
      Moves s (.reconcile rs) (s.reconcile rs)
  | stops {l : Label κ} {s' : State κ} (h : Stops s l s') : Moves s l s'

section Moves

variable {s s' : State κ} {i id k : Nat} {c : Call} {f f' : Forwarder κ} {w : Sender}
  {next : AfterFlush} {l : Label κ}

theorem Forwarder.resultStep_sends (r : Storage.WriteResult) (hphase : w.phase = .writing next) :
    Sends f k w (f.resultStep k w next r) := by
  cases r with
  | ok => exact .sent hphase
  | error cls =>
    simp only [Forwarder.resultStep]
    split
    · exact .dropped (by rintro ⟨⟩) (.inl hphase)
    · split
      · exact .dropped (by rintro ⟨⟩) (.inl hphase)
      · exact .backOff hphase
      · exact .backOff hphase

theorem Forwarder.senderStep_sends {a : SenderAct} (h : f.senderStep k w a = some f') :
    Sends f k w f' := by
  cases a <;> simp only [Forwarder.senderStep] at h <;> split at h <;> cases h
  · exact .receive ‹_› ‹_›
  · exact .timer ‹_›
  · exact .drained ‹_› ‹_› ‹_›
  · exact Forwarder.resultStep_sends _ ‹_›
  · exact .retry ‹_›
  · exact .dropped (by rintro ⟨⟩) (.inr ‹_›)
  · exact .uncount ‹_›
  · exact .uncountBytes ‹_›

theorem State.visitStep_visits (hf : s.forwarders[id]? = some f) :
    ∃ f' c', Visits c f f' c' ∧ s.visitStep i c id f = s.act id f' i c' := by
  have hself : s.forwarders.set id f = s.forwarders := by
    obtain ⟨hlt, rfl⟩ := List.getElem?_eq_some_iff.mp hf
    exact List.set_getElem_self hlt
  have hstay (phase : CallPhase) : s.setPhase i c phase = s.act id f i { c with phase } := by
    rw [State.act, hself]
    rfl
  unfold State.visitStep
  split
  · rename_i hphase
    dsimp only
    split
    · exact ⟨_, _, .skip hphase (.inl ‹_›), rfl⟩
    · split
      · exact ⟨_, _, .skip hphase (.inr ‹_›), rfl⟩
      · exact ⟨_, _, .enter hphase (Bool.eq_false_of_not_eq_true ‹_›) ‹_›, rfl⟩
  · rename_i out hphase
    split
    · exact ⟨_, _, .refuse (hphase ▸ .count ‹_›), rfl⟩
    · exact ⟨f, _, .passCount hphase (Bool.eq_false_of_not_eq_true ‹_›), hstay _⟩
  · rename_i out hphase
    split
    · exact ⟨_, _, .refuse (hphase ▸ .bytes ‹_›), rfl⟩
    · exact ⟨f, _, .passBytes hphase (Bool.eq_false_of_not_eq_true ‹_›), hstay _⟩
  · rename_i out hphase
    split
    · exact ⟨_, _, .send hphase ‹_›, rfl⟩
    · exact ⟨_, _, .refuse (hphase ▸ .slots ‹_›), rfl⟩
  · exact ⟨_, _, .count ‹_›, rfl⟩
  · exact ⟨_, _, .countBytes ‹_›, rfl⟩

theorem State.closeStep_stops (hf : s.forwarders[id]? = some f) (h : s.closeStep id f = some s') :
    Stops s (.close id) s' := by
  unfold State.closeStep at h
  split at h
  · split at h
    · rename_i hid
      split at h
      · cases h
        exact .skip hf ‹_› hid.1 ‹_›
      · rename_i hopen
        split at h <;> cases h
        rename_i hout
        refine .close hf ‹_› hid.1 (by simpa using hopen) fun c hc => ?_
        by_contra hinside
        exact hout (List.any_eq_true.mpr ⟨c, hc, by simpa using hinside⟩)
    · cases h
  · cases h

theorem State.stopStep_stops (h : s.stopStep l = some s') : Stops s l s' := by
  unfold State.stopStep at h
  split at h
  · split at h
    · split at h <;> cases h
      exact .expire ‹_›
    · cases h
  · split at h
    · split at h <;> cases h
      rename_i hmutation hf hdone
      exact .stopped hf hmutation hdone.1 hdone.2
    · cases h
  · split at h <;> cases h
    exact .finish ‹_›
  · cases h

theorem step_moves [DecidableEq κ] (h : step s l = some s') : Moves s l s' := by
  cases l with
  | forward tenant entries =>
    cases h
    exact .forward tenant entries
  | visit i =>
    obtain ⟨c, hc, hstep⟩ := Option.bind_eq_some_iff.mp h
    split at hstep
    · cases hstep
      exact .returned hc ‹_›
    · rename_i id todo htodo
      obtain ⟨f, hf, rfl⟩ := Option.map_eq_some_iff.mp hstep
      obtain ⟨f', c', hvisits, heq⟩ := State.visitStep_visits (i := i) (c := c) hf
      rw [heq]
      exact .visited hc htodo hf hvisits
  | sender id k a =>
    obtain ⟨f, hf, hstep⟩ := Option.bind_eq_some_iff.mp h
    obtain ⟨w, hw, hstep⟩ := Option.bind_eq_some_iff.mp hstep
    obtain ⟨f', hf', rfl⟩ := Option.map_eq_some_iff.mp hstep
    exact .sent hf hw (Forwarder.senderStep_sends hf')
  | start =>
    obtain ⟨hnone, h⟩ := Option.ite_none_right_eq_some.mp h
    cases h
    exact .started hnone
  | reconcile rs =>
    obtain ⟨hnone, h⟩ := Option.ite_none_right_eq_some.mp h
    cases h
    exact .reconciled rs hnone
  | stop =>
    obtain ⟨hnone, h⟩ := Option.ite_none_right_eq_some.mp h
    cases h
    exact .stops (.stop hnone)
  | close id =>
    obtain ⟨f, hf, hstep⟩ := Option.bind_eq_some_iff.mp h
    exact .stops (State.closeStep_stops hf hstep)
  | expire | stopped | finish => exact .stops (State.stopStep_stops h)

end Moves

end Syslogc.Forwarding
