-- SUMMARY: The supervisor of ingestion sources.
import Syslogc.Config.Source
import Syslogc.Lib.Transition

/-!
# The supervisor

The supervisor holds the listener of each source in `running`, the definition it
was asked for in `desired`, and what it reports in `status`. `Reconcile` stops
what is no longer wanted, restarts what changed, and keeps the rest. A source that
moves to another address is started first; its old listener is to be stopped once
the new one serves.

`State.started` and `State.stopped` record every listener that was started and
those of them that were stopped. The code keeps no such record: a listener that is
in neither `running` nor `stopped` is one that nothing can stop any more.
-/

namespace Syslogc.Supervisor

open Config

/-! ## State -/

/-- Where a definition came from. -/
inductive Origin where
  | file
  | database
deriving DecidableEq, Repr

structure Desired where
  source : Source
  origin : Origin
deriving DecidableEq, Repr

def Desired.name (d : Desired) : String := d.source.name

inductive SourceState where
  | running
  | stopped
  | error
  | disabled
deriving DecidableEq, Repr

structure Status where
  name : String
  type : String
  protocol : String
  address : String
  state : SourceState
  error : String := ""
  origin : Origin
deriving DecidableEq, Repr

/-- A started listener: the definition it was built from and the address it is
bound to. Listeners are numbered as they are started. -/
structure Listener where
  id : Nat
  config : Source
  addr : String
deriving DecidableEq, Repr

/-- A map of the source, by source name. -/
abbrev Names (α : Type) := AList fun _ : String => α

structure State where
  running : Names Listener := ∅
  desired : Names Desired := ∅
  status : Names Status := ∅
  /-- The definition of the active `http_json` source. -/
  httpSource : Option Source := none
  started : List Listener := []
  stopped : List Nat := []

/-- The listeners that were started and not stopped. -/
def State.live (s : State) : List Listener := s.started.filter fun l => l.id ∉ s.stopped

/-- What starting a source meets outside of the supervisor. -/
structure Env where
  /-- `Supervisor.start`, given the listeners that are live: an error, or the
  address the new listener is bound to. -/
  start : List Listener → Source → Except String String
  /-- `source.New`. -/
  settings : Source → Except String Unit

/-- The source is served by the HTTP server and has no listener of its own. -/
def isHTTP (sc : Source) : Bool := sc.type = sourceTypeHTTPJSON

/-! ## Stopping and starting one source -/

/-- Report a source stopped. -/
def reportStopped (status : Names Status) (name : String) : Names Status :=
  match status.lookup name with
  | none => status
  | some st => status.insert name { st with state := .stopped }

/-- Stop the listener that is held under a name, if one is; give up the place of
the `http_json` source if the name holds it; and report a running source stopped. -/
def State.stopSource (s : State) (name : String) (prev : Source) : State :=
  { s with
    running := s.running.erase name
    stopped := ((s.running.lookup name).map (·.id)).toList ++ s.stopped
    httpSource :=
      if isHTTP prev && s.httpSource.any (·.name = name) then none else s.httpSource
    status :=
      if (s.status.lookup name).any (·.state = .running) then reportStopped s.status name
      else s.status }

/-- Start a listener for a source; it takes the source's place in `running`. -/
def State.startListener (s : State) (sc : Source) (addr : String) : State :=
  let l : Listener := ⟨s.started.length, sc, addr⟩
  { s with running := s.running.insert sc.name l, started := s.started ++ [l] }

/-- What becomes of a source in `apply`. -/
inductive Outcome where
  | disabled
  | failed (error : String)
  /-- It takes the place of the `http_json` source. -/
  | http
  | listening (addr : String)
deriving DecidableEq, Repr

def State.outcome (env : Env) (s : State) (sc : Source) : Outcome :=
  if !sc.isEnabled then .disabled
  else if isHTTP sc then
    match env.settings sc, s.httpSource with
    | .error e, _ => .failed e
    | .ok _, some active =>
      .failed ("only one http_json source is supported; " ++ active.name ++ " is active")
    | .ok _, none => .http
  else
    match env.start s.live sc with
    | .error e => .failed e
    | .ok addr => .listening addr

/-- What is reported of a source. -/
def Desired.status (d : Desired) (o : Outcome) : Status where
  name := d.source.name
  type := d.source.type
  protocol := match o with
    | .http => "http"
    | _ => d.source.protocol
  address := match o with
    | .http => "POST /api/v1/ingest"
    | .listening addr => addr
    | _ => d.source.address
  state := match o with
    | .disabled => .disabled
    | .failed _ => .error
    | .http | .listening _ => .running
  error := match o with
    | .failed e => e
    | _ => ""
  origin := d.origin

/-- Take what an outcome brings. -/
def State.launch (s : State) (sc : Source) : Outcome → State
  | .disabled | .failed _ => s
  | .http => { s with httpSource := some sc }
  | .listening addr => s.startListener sc addr

def State.record (s : State) (d : Desired) (st : Status) : State :=
  { s with status := s.status.insert d.name st, desired := s.desired.insert d.name d }

/-- The body of the loop of `apply`. -/
def State.applyOne (env : Env) (s : State) (d : Desired) : State :=
  (s.launch d.source (s.outcome env d.source)).record d (d.status (s.outcome env d.source))

def State.apply (env : Env) (s : State) (ds : List Desired) : State := ds.foldl (State.applyOne env) s

/-! ## Start, Reconcile and Stop -/

/-- Label configuration-file sources. -/
def fileSources (sources : List Source) : List Desired := sources.map fun sc => ⟨sc, .file⟩

def State.start (env : Env) (s : State) (sources : List Source) : State :=
  s.apply env (fileSources sources)

/-- Whether two definitions listen on the same address. -/
def sameBind (a b : Source) : Bool :=
  a.type = b.type && a.protocol = b.protocol && a.address = b.address

/-- Whether the source's listener is already bound to the address the new
definition asks for. -/
def State.boundTo (s : State) (sc : Source) : Bool :=
  match s.running.lookup sc.name with
  | none => false
  | some l =>
    l.config.type = sc.type && l.config.protocol = sc.protocol && l.addr = sc.address

/-- Stop and forget a source that is no longer wanted. -/
def State.remove (s : State) (name : String) (prev : Source) : State :=
  { s.stopSource name prev with
    desired := s.desired.erase name
    status := (s.stopSource name prev).status.erase name }

/-- The body of the loop that removes sources. -/
def State.keepOrRemove (ds : List Desired) (s : State) (e : Σ _ : String, Desired) : State :=
  if ds.any (·.name = e.1) then s else s.remove e.1 e.2.source

def State.removeUnwanted (s : State) (ds : List Desired) : State :=
  s.desired.entries.foldl (State.keepOrRemove ds) s

def State.changed (s : State) (ds : List Desired) : List Desired :=
  ds.filter fun d => s.desired.lookup d.name ≠ some d

/-- The old listener must go before the new definition can be started. -/
def State.stopsFirst (s : State) (prev : Source) (d : Desired) : Bool :=
  sameBind prev d.source || s.boundTo d.source || !d.source.isEnabled

/-- The loop over the changed sources that stops what must be stopped first and
collects the definitions whose listener is to be stopped afterwards. -/
def State.stopBefore : State → List Desired → State × List Source
  | s, [] => (s, [])
  | s, d :: ds =>
    match s.desired.lookup d.name with
    | none => s.stopBefore ds
    | some prev =>
      if s.stopsFirst prev.source d then (s.stopSource d.name prev.source).stopBefore ds
      else
        let (s, after) := s.stopBefore ds
        (s, prev.source :: after)

/-- Go back to the previous definition; `apply` has just recorded the new one. -/
def State.restore (s : State) (prev : Source) : State :=
  match s.desired.lookup prev.name with
  | none => s
  | some d => { s with desired := s.desired.insert prev.name ⟨prev, d.origin⟩ }

/-- Give up the old listener of a moved source if its replacement is serving, and
otherwise keep it and the definition it belongs to. -/
def State.stopAfter (s : State) (prev : Source) : State :=
  if (s.status.lookup prev.name).any (·.state = .running) then s.stopSource prev.name prev
  else s.restore prev

def State.reconcile (env : Env) (s : State) (ds : List Desired) : State :=
  let s := s.removeUnwanted ds
  let changed := s.changed ds
  if changed = [] then s
  else
    let (s, after) := s.stopBefore changed
    after.foldl State.stopAfter (s.apply env changed)

/-- `Stop`: every listener is stopped and reported so; the definitions stay. Every
running source has a status. -/
def State.stop (s : State) : State :=
  let names := s.running.keys ++ (s.httpSource.map (·.name)).toList
  { s with
    status := names.foldl reportStopped s.status
    running := ∅
    httpSource := none
    stopped := s.running.entries.map (·.2.id) ++ s.stopped }

/-- A call of the supervisor, with what it meets. -/
inductive Op where
  | start (env : Env) (sources : List Source)
  | reconcile (env : Env) (ds : List Desired)
  | stop

/-- Every call is possible in every state. -/
def step (s : State) : Op → Option State
  | .start env sources => some (s.start env sources)
  | .reconcile env ds => some (s.reconcile env ds)
  | .stop => some s.stop

/-- The state after a sequence of calls on a new supervisor. -/
def run (ops : List Op) : Option State := Transition.run step {} ops

end Syslogc.Supervisor
