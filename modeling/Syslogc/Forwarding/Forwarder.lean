-- SUMMARY: One forward target: its queue and its sender goroutine.
import Syslogc.Lib.Transition
import Syslogc.Storage.Types

/-!
# Forwarders

A forwarder mirrors stored entries to one remote backend. `Forward` copies the
entries that pass the target's filter into a bounded queue; a sender takes groups
off the queue, collects them into batches of one tenant and writes these, retrying
until the remote accepts or rejects a batch or the forwarder is abandoned.

`Forwarder.handed` numbers the copies in the order in which `Forward` made them.
The code keeps no such list: it is what the accounting is compared with.
-/

namespace Syslogc.Forwarding

open Storage

/-! ## Entries and options -/

/-- What forwarding reads of a log entry; `size` is its `EstimateSize`. -/
structure Entry where
  tenant : String
  source : String
  severity : Nat
  size : Nat
deriving DecidableEq, Repr

/-- A copy of an entry, made for one forwarder. -/
structure Copy where
  id : Nat
  entry : Entry
deriving DecidableEq, Repr

inductive DropReason where
  | queueFull
  | rejected
  | shutdown
deriving DecidableEq, Repr

/-- The options of one target. `config` is the definition they were made from;
durations are nanoseconds. -/
structure Options (κ : Type) where
  name : String
  queueMaxMessages : Int
  queueMaxBytes : Int
  batchMaxRows : Int
  batchMaxBytes : Int
  batchMaxWait : Int
  initialBackoff : Int
  maxBackoff : Int
  sources : List String
  config : κ
  minSeverity : Option Nat
deriving DecidableEq, Repr

variable {κ : Type}

/-- The defaults `New` fills in. -/
def Options.withDefaults (o : Options κ) : Options κ :=
  { o with
    batchMaxRows := if o.batchMaxRows ≤ 0 then 10000 else o.batchMaxRows
    batchMaxWait := if o.batchMaxWait ≤ 0 then 1000000000 else o.batchMaxWait
    queueMaxMessages := if o.queueMaxMessages ≤ 0 then 200000 else o.queueMaxMessages
    initialBackoff := if o.initialBackoff ≤ 0 then 250000000 else o.initialBackoff
    maxBackoff := if o.maxBackoff ≤ 0 then 30000000000 else o.maxBackoff }

/-- The slots of the queue: one for each batch-sized group. -/
def Options.queueCap (o : Options κ) : Nat :=
  max (o.queueMaxMessages / o.batchMaxRows).toNat 8

/-- Whether an entry passes the target's source and severity filter. -/
def Options.passes (o : Options κ) (e : Entry) : Bool :=
  (o.sources.isEmpty || o.sources.contains e.source) &&
    match o.minSeverity with
    | none => true
    | some m => e.severity ≤ m

def groupSize (g : List Copy) : Nat := (g.map (·.entry.size)).sum

/-- `group[0].Tenant`; no empty group is ever queued. -/
def groupTenant : List Copy → String
  | [] => ""
  | c :: _ => c.entry.tenant

/-! ## Senders -/

/-- What `run` goes on with after `flush`. -/
inductive AfterFlush where
  /-- The group received next is of another tenant. -/
  | group (g : List Copy)
  /-- The loop over the entries of a group. -/
  | rest (g : List Copy)
  | select
  | exit
deriving DecidableEq, Repr

inductive SenderPhase where
  | selecting
  /-- `WriteBatch` is running on the pending entries. -/
  | writing (next : AfterFlush)
  /-- Waiting to try again. -/
  | backingOff (next : AfterFlush)
  /-- The deferred function of `write`, before it lowers `queued`. -/
  | uncounting (rows size : Nat) (next : AfterFlush)
  /-- The deferred function of `write`, before it lowers `bytes`. -/
  | uncountingBytes (size : Nat) (next : AfterFlush)
  | exited
deriving DecidableEq, Repr

/-- A sender goroutine: the local variables of `run` and where it stands. -/
structure Sender where
  pending : List Copy := []
  tenant : String := ""
  size : Nat := 0
  phase : SenderPhase := .selecting
deriving DecidableEq, Repr

def Sender.isExited (w : Sender) : Bool := w.phase = .exited

/-- The pending entries make a full batch. -/
def Sender.full (o : Options κ) (w : Sender) : Bool :=
  w.pending.length ≥ o.batchMaxRows || (o.batchMaxBytes > 0 && w.size ≥ o.batchMaxBytes)

/-- The loop over a group: append entries until a batch is full. -/
def Sender.addEntries (o : Options κ) (w : Sender) : List Copy → Sender
  | [] => { w with phase := .selecting }
  | c :: g =>
    let w := { w with pending := w.pending ++ [c], size := w.size + c.entry.size }
    if w.full o then { w with phase := .writing (.rest g) } else w.addEntries o g

/-- A group begins: it sets the tenant of what is pending from now on. -/
def Sender.beginGroup (o : Options κ) (w : Sender) (g : List Copy) : Sender :=
  { w with tenant := groupTenant g }.addEntries o g

/-- A group is received from the queue. -/
def Sender.receive (o : Options κ) (w : Sender) (g : List Copy) : Sender :=
  if w.pending ≠ [] ∧ groupTenant g ≠ w.tenant then
    { w with phase := .writing (.group g) }
  else w.beginGroup o g

/-- `flush` has returned. -/
def Sender.goOn (o : Options κ) (w : Sender) : AfterFlush → Sender
  | .group g => w.beginGroup o g
  | .rest g => w.addEntries o g
  | .select => { w with phase := .selecting }
  | .exit => { w with phase := .exited }

/-- `flush`: write what is pending, if anything is. -/
def Sender.flush (o : Options κ) (w : Sender) (next : AfterFlush) : Sender :=
  if w.pending = [] then w.goOn o next else { w with phase := .writing next }

/-! ## Forwarders -/

structure Forwarder (κ : Type) where
  opts : Options κ
  queue : List (List Copy) := []
  /-- `Start` adds one sender each time it is called. -/
  senders : List Sender := []
  queued : Int := 0
  bytes : Int := 0
  sent : List Copy := []
  dropped : List (Copy × DropReason) := []
  /-- `stopCtx` has been cancelled. -/
  stopped : Bool := false
  closed : Bool := false
  handed : List Copy := []
deriving DecidableEq, Repr

/-- `New`. -/
def Forwarder.new (o : Options κ) : Forwarder κ where
  opts := o.withDefaults

namespace Forwarder

def name (f : Forwarder κ) : String := f.opts.name

/-- `Start` runs a sender. -/
def start (f : Forwarder κ) : Forwarder κ := { f with senders := f.senders ++ [{}] }

/-- No sender of the forwarder is running. -/
def idle (f : Forwarder κ) : Bool := f.senders.all (·.isExited)

/-- The copies `Forward` makes of the entries that pass, under the batch's tenant. -/
def copies (f : Forwarder κ) (tenant : String) (entries : List Entry) : List Copy :=
  ((entries.filter f.opts.passes).map fun e => { e with tenant }).mapIdx fun i e =>
    ⟨f.handed.length + i, e⟩

def drop (f : Forwarder κ) (reason : DropReason) (g : List Copy) : Forwarder κ :=
  { f with dropped := f.dropped ++ g.map (·, reason) }

/-- The group would take the queue over its limit of messages. -/
def countExceeded (f : Forwarder κ) (g : List Copy) : Bool :=
  f.queued + g.length > f.opts.queueMaxMessages

/-- The group would take the queue over its limit of bytes, if it has one. -/
def bytesExceeded (f : Forwarder κ) (g : List Copy) : Bool :=
  f.opts.queueMaxBytes > 0 && f.bytes + groupSize g > f.opts.queueMaxBytes

def setSender (f : Forwarder κ) (k : Nat) (w : Sender) : Forwarder κ :=
  { f with senders := f.senders.set k w }

/-- The batch that sender `k` was writing has been dealt with: its entries leave
`pending`, and the counters are lowered next. -/
def written (f : Forwarder κ) (k : Nat) (w : Sender) (next : AfterFlush) : Forwarder κ :=
  f.setSender k { w with
    pending := []
    size := 0
    phase := .uncounting w.pending.length (groupSize w.pending) next }

end Forwarder

/-- The actions of a sender. -/
inductive SenderAct where
  | receive
  | timer
  /-- The queue is closed and empty. -/
  | drained
  /-- `WriteBatch` returns. -/
  | result (r : WriteResult)
  /-- The backoff is over. -/
  | retry
  /-- `stopCtx` ends the backoff. -/
  | abandon
  | uncount
  | uncountBytes
deriving DecidableEq, Repr

/-- `write` after `WriteBatch` has returned `r`. -/
def Forwarder.resultStep (f : Forwarder κ) (k : Nat) (w : Sender) (next : AfterFlush) :
    WriteResult → Forwarder κ
  | .ok => { f with sent := f.sent ++ w.pending }.written k w next
  | .error cls =>
    if f.stopped then (f.drop .shutdown w.pending).written k w next
    else match classOf cls with
      | .rejected => (f.drop .rejected w.pending).written k w next
      | .retryable | .fatal => f.setSender k { w with phase := .backingOff next }

/-- The actions of sender `k`, which stands at `w`. -/
def Forwarder.senderStep (f : Forwarder κ) (k : Nat) (w : Sender) :
    SenderAct → Option (Forwarder κ)
  | .receive =>
    match w.phase, f.queue with
    | .selecting, g :: queue => some ({ f with queue }.setSender k (w.receive f.opts g))
    | _, _ => none
  | .timer =>
    match w.phase with
    | .selecting => some (f.setSender k (w.flush f.opts .select))
    | _ => none
  | .drained =>
    match w.phase, f.queue, f.closed with
    | .selecting, [], true => some (f.setSender k (w.flush f.opts .exit))
    | _, _, _ => none
  | .result r =>
    match w.phase with
    | .writing next => some (f.resultStep k w next r)
    | _ => none
  | .retry =>
    match w.phase with
    | .backingOff next => some (f.setSender k { w with phase := .writing next })
    | _ => none
  | .abandon =>
    match w.phase, f.stopped with
    | .backingOff next, true => some ((f.drop .shutdown w.pending).written k w next)
    | _, _ => none
  | .uncount =>
    match w.phase with
    | .uncounting rows size next =>
      some ({ f with queued := f.queued - rows }.setSender k
        { w with phase := .uncountingBytes size next })
    | _ => none
  | .uncountBytes =>
    match w.phase with
    | .uncountingBytes size next =>
      some ({ f with bytes := f.bytes - size }.setSender k (w.goOn f.opts next))
    | _ => none

end Syslogc.Forwarding
