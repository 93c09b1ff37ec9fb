-- SUMMARY: The ingestion pipeline, one action at a time.
import Syslogc.Lib.Bytes
import Syslogc.Lib.Transition
import Syslogc.Pipeline.Writer

/-!
# The ingestion pipeline

Producers put messages on the ingest queue, parse workers build a batch for each
tenant and hand full ones over a channel, storage writers write them, and `Close`
shuts the stages down in order. All goroutines are components of one `State`; a
`Label` names the goroutine that moves and what it meets, so a list of labels is
an interleaving.

A step is one action on shared state: a semaphore operation, a channel
operation, a read or write of a flag. What a goroutine does on its own between
two of these belongs to the step before.
-/

namespace Syslogc.Pipeline

open Storage

/-! ## Messages and configuration -/

/-- What the pipeline reads of a source's settings. -/
structure Settings where
  name : String
  tenant : String
deriving DecidableEq, Repr

/-- One framed message handed over by a listener. -/
structure RawMessage where
  data : Bytes
  truncated : Bool
  source : Settings
deriving DecidableEq, Repr

/-- Approximates the memory a message takes beyond its payload. -/
def messageOverhead : Nat := 256

/-- The tokens a message holds of the byte budget. -/
def RawMessage.weight (m : RawMessage) : Nat := m.data.length + messageOverhead

/-- Pipeline sizing, as configuration validation lets it through: every count of
goroutines and the queue capacity are positive. -/
structure Config where
  queueMaxMessages : Nat
  queueMaxBytes : Nat
  workers : Nat
  batchMaxRows : Nat
  batchMaxBytes : Nat
  writers : Nat
  batchQueue : Nat
  queueMaxMessages_pos : 0 < queueMaxMessages
  workers_pos : 0 < workers
  writers_pos : 0 < writers

/-- The capacity of the batch channel: twice the writers unless configured. -/
def Config.batchQueueCap (cfg : Config) : Nat :=
  if cfg.batchQueue = 0 then 2 * cfg.writers else cfg.batchQueue

/-- An accepted message. Messages are numbered as they are accepted, so that two
messages with the same bytes stay apart. -/
structure Item where
  id : Nat
  msg : RawMessage
deriving DecidableEq, Repr

abbrev ItemBatch := Batch Item Settings

/-! ## Components -/

/-- Where a call of `TryEnqueue` or `Enqueue` stands. It holds the read lock in
every one of these phases, and its tokens in all but `waiting`. -/
inductive CallerPhase where
  /-- `TryEnqueue` has its tokens and is about to send. -/
  | trying
  /-- `Enqueue` has its tokens on the fast path and is about to send. -/
  | fast
  /-- `Enqueue` waits in `budget.Acquire`. -/
  | waiting
  /-- `Enqueue` has its tokens on the slow path and waits to send. -/
  | sending
  /-- The message is in the queue; `queueBytes` is not yet raised. -/
  | counting
deriving DecidableEq, Repr

structure Caller where
  msg : RawMessage
  phase : CallerPhase
deriving DecidableEq, Repr

/-- What a worker goes on with after `p.batches <- b`. -/
inductive AfterSend where
  /-- `process` returns; the message's tokens are still held. -/
  | processed (weight : Nat)
  /-- The loop of `flushAll`, which exits the worker on shutdown. -/
  | flushAll (exit : Bool)
deriving DecidableEq, Repr

inductive WorkerPhase where
  | idle
  /-- Blocked on the batch channel. -/
  | sending (b : ItemBatch) (next : AfterSend)
  /-- `process` has returned; `queueBytes` is not yet lowered. -/
  | uncounting (weight : Nat)
  /-- `queueBytes` is lowered; the tokens are not yet released. -/
  | releasing (weight : Nat)
  /-- In the loop of `flushAll`. -/
  | flushing (exit : Bool)
  | exited

/-- A parse worker: its open batches, one for each tenant, and its flush timer. -/
structure Worker where
  batches : List ItemBatch := []
  pending : Nat := 0
  timerActive : Bool := false
  phase : WorkerPhase := .idle

/-- A storage writer. `writeRange` recurses on halves; the ranges that are still
to be written form a stack, the current one first. -/
inductive Writer where
  | idle
  /-- At the top of the loop, before the context is looked at. -/
  | ready (b : ItemBatch) (ranges : List (Nat × Nat))
  /-- `WriteBatch` is running on the first range. -/
  | writing (b : ItemBatch) (ranges : List (Nat × Nat))
  | exited

/-- How far `Close` has come. -/
inductive Closing where
  | no
  /-- Producers are woken; the write lock is not yet taken. -/
  | stopping
  /-- The queue is closed and `Close` waits for the goroutines. -/
  | waiting
  | returned
deriving DecidableEq, Repr

structure State where
  queue : List Item := []
  budget : Nat := 0
  queueBytes : Int := 0
  callers : List Caller := []
  workers : List Worker
  batches : List ItemBatch := []
  batchesClosed : Bool := false
  writers : List Writer
  closed : Bool := false
  ioCancelled : Bool := false
  closing : Closing := .no
  /-- Every message accepted so far, in order. -/
  accepted : List Item := []
  stored : List Item := []
  dropped : List (Item × DropReason) := []
  /-- Messages `TryEnqueue` refused because the queue was full or closed. -/
  droppedQueueFull : Nat := 0
  droppedClosed : Nat := 0

/-- The state after `Start`. -/
def State.start (cfg : Config) : State where
  workers := List.replicate cfg.workers {}
  writers := List.replicate cfg.writers .idle

/-! ## Building batches -/

def getBatch (tenant : String) : ItemBatch := ⟨tenant, [], [], 0, rfl⟩

/-- Append one normalised entry and its source. -/
def addEntry (b : ItemBatch) (it : Item) (size : Nat) : ItemBatch where
  tenant := b.tenant
  entries := b.entries ++ [it]
  sources := b.sources ++ [it.msg.source]
  bytes := b.bytes + size
  aligned := by simp [b.aligned]

/-- Put an entry into the open batch of its tenant, opening one if needed, and
return that batch. -/
def putEntry (it : Item) (size : Nat) : List ItemBatch → List ItemBatch × ItemBatch
  | [] =>
    let b := addEntry (getBatch it.msg.source.tenant) it size
    ([b], b)
  | b :: bs =>
    if b.tenant = it.msg.source.tenant then
      let b := addEntry b it size
      (b :: bs, b)
    else
      let (bs, b') := putEntry it size bs
      (b :: bs, b')

/-- Whether a batch is flushed by its rows or its bytes. -/
def flushDue (cfg : Config) (b : ItemBatch) : Bool :=
  b.entries.length ≥ cfg.batchMaxRows || b.bytes ≥ cfg.batchMaxBytes

/-- `delete(w.batches, tenant)`. -/
def deleteBatch (tenant : String) (bs : List ItemBatch) : List ItemBatch :=
  bs.eraseP (·.tenant = tenant)

/-- The first half of `flush`: take the batch out of the map. An absent or empty
batch is left alone. What remains is to send it. -/
def Worker.flush (w : Worker) (tenant : String) (next : AfterSend) : Option Worker :=
  match w.batches.find? (·.tenant = tenant) with
  | none => none
  | some b =>
    if b.entries = [] then none
    else some { w with
      batches := deleteBatch tenant w.batches
      pending := w.pending - b.entries.length
      phase := .sending b next }

/-- `process`: parse the message into an entry of estimated size `size`, add it to
its tenant's batch and flush that batch when it is full. -/
def Worker.process (cfg : Config) (w : Worker) (it : Item) (size : Nat) : Worker :=
  let (batches, b) := putEntry it size w.batches
  let w := { w with batches, pending := w.pending + 1, phase := .uncounting it.msg.weight }
  if flushDue cfg b then (w.flush b.tenant (.processed it.msg.weight)).getD w else w

/-- Start or stop the flush timer after a message. -/
def Worker.updateTimer (w : Worker) : Worker :=
  if w.pending > 0 && !w.timerActive then { w with timerActive := true }
  else if w.pending == 0 && w.timerActive then { w with timerActive := false }
  else w

/-! ## Steps -/

inductive Label where
  | tryEnqueue (msg : RawMessage)
  | enqueue (msg : RawMessage)
  /-- A call whose `TryAcquire` fails because another caller is waiting for tokens. -/
  | tryEnqueueBehind (msg : RawMessage)
  | enqueueBehind (msg : RawMessage)
  /-- Caller `i` takes its next action. -/
  | call (i : Nat)
  /-- Caller `i` gives up waiting: its context has ended or the pipeline stops. -/
  | giveUp (i : Nat)
  /-- Worker `j` receives a message; `size` is the entry's estimated size. -/
  | receive (j : Nat) (size : Nat)
  /-- Worker `j` gets its batch into the channel. -/
  | send (j : Nat)
  | uncount (j : Nat)
  | release (j : Nat)
  /-- The flush timer of worker `j` fires. -/
  | timer (j : Nat)
  /-- Worker `j` finds the queue closed and empty. -/
  | drain (j : Nat)
  /-- `flushAll` of worker `j` reaches the batch of a tenant. -/
  | flush (j : Nat) (tenant : String)
  /-- `flushAll` of worker `j` is through. -/
  | flushed (j : Nat)
  /-- Writer `k` receives a batch. -/
  | take (k : Nat)
  | attempt (k : Nat)
  /-- `WriteBatch` of writer `k` returns. -/
  | result (k : Nat) (r : WriteResult)
  /-- Writer `k` is done with its batch. -/
  | putBatch (k : Nat)
  /-- Writer `k` finds the channel closed and empty. -/
  | exit (k : Nat)
  | closeStop
  | closeLock
  | closeBatches
  /-- The context given to `Close` expires. -/
  | closeExpire
  | closeReturn

/-- The queue has room for another message. -/
def State.queueHasRoom (cfg : Config) (s : State) : Prop := s.queue.length < cfg.queueMaxMessages

instance (cfg : Config) (s : State) : Decidable (s.queueHasRoom cfg) := by
  unfold State.queueHasRoom; infer_instance

/-- `budget.TryAcquire(n)` would succeed. -/
def State.budgetHas (cfg : Config) (s : State) (n : Nat) : Prop :=
  s.budget + n ≤ cfg.queueMaxBytes

instance (cfg : Config) (s : State) (n : Nat) : Decidable (s.budgetHas cfg n) := by
  unfold State.budgetHas; infer_instance

/-- `p.queue <- msg`: the message is accepted. -/
def State.accept (s : State) (msg : RawMessage) : State :=
  let it : Item := ⟨s.accepted.length, msg⟩
  { s with queue := s.queue ++ [it], accepted := s.accepted ++ [it] }

def State.tryEnqueue (cfg : Config) (s : State) (msg : RawMessage) : State :=
  if s.closed then { s with droppedClosed := s.droppedClosed + 1 }
  else if s.budgetHas cfg msg.weight then
    { s with budget := s.budget + msg.weight, callers := s.callers ++ [⟨msg, .trying⟩] }
  else { s with droppedQueueFull := s.droppedQueueFull + 1 }

/-- On a closed pipeline `Enqueue` returns `ErrClosed` and changes nothing. -/
def State.enqueue (cfg : Config) (s : State) (msg : RawMessage) : State :=
  if s.closed then s
  else if s.budgetHas cfg msg.weight then
    { s with budget := s.budget + msg.weight, callers := s.callers ++ [⟨msg, .fast⟩] }
  else { s with callers := s.callers ++ [⟨msg, .waiting⟩] }

/-- Some caller waits in `budget.Acquire`: `TryAcquire` may then fail although there are
tokens. -/
def State.hasWaiter (s : State) : Bool := s.callers.any (·.phase = .waiting)

def State.tryEnqueueBehind (s : State) : Option State :=
  if s.hasWaiter && !s.closed then some { s with droppedQueueFull := s.droppedQueueFull + 1 } else none

def State.enqueueBehind (s : State) (msg : RawMessage) : Option State :=
  if s.hasWaiter && !s.closed then some { s with callers := s.callers ++ [⟨msg, .waiting⟩] } else none

/-- The next action of caller `i`, which stands at `c`. -/
def State.call (cfg : Config) (s : State) (i : Nat) (c : Caller) : Option State :=
  let moveTo (s : State) (phase : CallerPhase) : State :=
    { s with callers := s.callers.set i { c with phase } }
  let sent : State := moveTo (s.accept c.msg) .counting
  match c.phase with
  | .trying =>
    if s.queueHasRoom cfg then some sent
    else some { s with
      budget := s.budget - c.msg.weight
      droppedQueueFull := s.droppedQueueFull + 1
      callers := s.callers.eraseIdx i }
  | .fast =>
    if s.queueHasRoom cfg then some sent
    else some (moveTo { s with budget := s.budget - c.msg.weight } .waiting)
  | .waiting =>
    if s.budgetHas cfg c.msg.weight then
      some (moveTo { s with budget := s.budget + c.msg.weight } .sending)
    else none
  | .sending => if s.queueHasRoom cfg then some sent else none
  | .counting =>
    some { s with
      queueBytes := s.queueBytes + c.msg.weight
      callers := s.callers.eraseIdx i }

/-- Only the two waits of the slow path watch the context. -/
def State.giveUp (s : State) (i : Nat) (c : Caller) : Option State :=
  match c.phase with
  | .waiting => some { s with callers := s.callers.eraseIdx i }
  | .sending =>
    some { s with budget := s.budget - c.msg.weight, callers := s.callers.eraseIdx i }
  | _ => none

def State.setWorker (s : State) (j : Nat) (w : Worker) : State :=
  { s with workers := s.workers.set j w }

def State.setWriter (s : State) (k : Nat) (w : Writer) : State :=
  { s with writers := s.writers.set k w }

/-- The phase a worker is in once its batch is in the channel. -/
def AfterSend.phase : AfterSend → WorkerPhase
  | .processed weight => .uncounting weight
  | .flushAll exit => .flushing exit

/-- The actions of worker `j`, which stands at `w`. -/
def State.workerStep (cfg : Config) (s : State) (j : Nat) (w : Worker) : Label → Option State
  | .receive _ size =>
    match w.phase, s.queue with
    | .idle, it :: queue => some ({ s with queue }.setWorker j (w.process cfg it size))
    | _, _ => none
  | .send _ =>
    match w.phase with
    | .sending b next =>
      if s.batches.length < cfg.batchQueueCap then
        some ({ s with batches := s.batches ++ [b] }.setWorker j { w with phase := next.phase })
      else none
    | _ => none
  | .uncount _ =>
    match w.phase with
    | .uncounting weight =>
      some ({ s with queueBytes := s.queueBytes - weight }.setWorker j
        { w with phase := .releasing weight })
    | _ => none
  | .release _ =>
    match w.phase with
    | .releasing weight =>
      some ({ s with budget := s.budget - weight }.setWorker j
        { w.updateTimer with phase := .idle })
    | _ => none
  | .timer _ =>
    match w.phase, w.timerActive with
    | .idle, true => some (s.setWorker j { w with timerActive := false, phase := .flushing false })
    | _, _ => none
  | .drain _ =>
    match w.phase, s.queue, s.closed with
    | .idle, [], true => some (s.setWorker j { w with phase := .flushing true })
    | _, _, _ => none
  | .flush _ tenant =>
    match w.phase with
    | .flushing exit => (w.flush tenant (.flushAll exit)).map (s.setWorker j)
    | _ => none
  | .flushed _ =>
    match w.phase with
    | .flushing exit =>
      if ∀ b ∈ w.batches, b.entries = [] then
        some (s.setWorker j { w with pending := 0, phase := if exit then .exited else .idle })
      else none
    | _ => none
  | _ => none

/-- What a writer does with its first range once `WriteBatch` has returned. -/
def State.resultStep (s : State) (k : Nat) (b : ItemBatch) (lo hi : Nat)
    (ranges : List (Nat × Nat)) (r : WriteResult) : State :=
  match afterWrite s.ioCancelled (hi - lo) r with
  | .store =>
    { s with stored := s.stored ++ slice b.entries lo hi }.setWriter k (.ready b ranges)
  | .drop reason =>
    { s with dropped := s.dropped ++ (slice b.entries lo hi).map (·, reason) }.setWriter k
      (.ready b ranges)
  | .split =>
    s.setWriter k (.ready b ((lo, midpoint lo hi) :: (midpoint lo hi, hi) :: ranges))
  | .retry => s.setWriter k (.ready b ((lo, hi) :: ranges))

/-- The actions of writer `k`, which stands at `w`. -/
def State.writerStep (s : State) (k : Nat) (w : Writer) : Label → Option State
  | .take _ =>
    match w, s.batches with
    | .idle, b :: batches =>
      some ({ s with batches }.setWriter k (.ready b [(0, b.entries.length)]))
    | _, _ => none
  | .attempt _ =>
    match w with
    | .ready b ((lo, hi) :: ranges) =>
      if s.ioCancelled then
        some ({ s with dropped := s.dropped ++ (slice b.entries lo hi).map (·, DropReason.shutdown) }.setWriter k
          (.ready b ranges))
      else some (s.setWriter k (.writing b ((lo, hi) :: ranges)))
    | _ => none
  | .result _ r =>
    match w with
    | .writing b ((lo, hi) :: ranges) => some (s.resultStep k b lo hi ranges r)
    | _ => none
  | .putBatch _ =>
    match w with
    | .ready _ [] => some (s.setWriter k .idle)
    | _ => none
  | .exit _ =>
    match w, s.batches, s.batchesClosed with
    | .idle, [], true => some (s.setWriter k .exited)
    | _, _, _ => none
  | _ => none

def Worker.isExited (w : Worker) : Bool :=
  match w.phase with
  | .exited => true
  | _ => false

def Writer.isExited : Writer → Bool
  | .exited => true
  | _ => false

/-- The actions of `Close` and of the goroutine that closes the batch channel. -/
def State.closeStep (s : State) : Label → Option State
  | .closeStop => if s.closing = .no then some { s with closing := .stopping } else none
  | .closeLock =>
    -- The write lock is free only when no producer holds the read lock.
    if s.closing = .stopping ∧ s.callers = [] then
      some { s with closed := true, closing := .waiting }
    else none
  | .closeBatches =>
    if s.closing = .waiting ∧ s.workers.all (·.isExited) ∧ s.batchesClosed = false then
      some { s with batchesClosed := true }
    else none
  | .closeExpire => if s.closing = .waiting then some { s with ioCancelled := true } else none
  | .closeReturn =>
    if s.closing = .waiting ∧ s.workers.all (·.isExited) ∧ s.writers.all (·.isExited) then
      some { s with closing := .returned }
    else none
  | _ => none

/-- One action of one goroutine. -/
def step (cfg : Config) (s : State) (l : Label) : Option State :=
  match l with
  | .tryEnqueue msg => some (s.tryEnqueue cfg msg)
  | .enqueue msg => some (s.enqueue cfg msg)
  | .tryEnqueueBehind _ => s.tryEnqueueBehind
  | .enqueueBehind msg => s.enqueueBehind msg
  | .call i => (s.callers[i]?).bind (s.call cfg i)
  | .giveUp i => (s.callers[i]?).bind (s.giveUp i)
  | .receive j _ | .send j | .uncount j | .release j | .timer j | .drain j | .flush j _
  | .flushed j => (s.workers[j]?).bind fun w => s.workerStep cfg j w l
  | .take k | .attempt k | .result k _ | .putBatch k | .exit k =>
    (s.writers[k]?).bind fun w => s.writerStep k w l
  | .closeStop | .closeLock | .closeBatches | .closeExpire | .closeReturn => s.closeStep l

/-- The state an interleaving leads to. -/
def run (cfg : Config) (ls : List Label) : Option State :=
  Transition.run (step cfg) (State.start cfg) ls

/-! ## What a step can do -/

variable {cfg : Config} {s s' : State} {l : Label}

/-- The tokens a call holds for a message that is not in the queue. -/
def Caller.held (c : Caller) : Nat :=
  match c.phase with
  | .trying | .fast | .sending => c.msg.weight
  | .waiting | .counting => 0

/-- The steps of `TryEnqueue` and `Enqueue`. -/
def Label.ofProducer : Label → Bool
  | .tryEnqueue _ | .enqueue _ | .tryEnqueueBehind _ | .enqueueBehind _ | .call _ | .giveUp _ => true
  | _ => false

/-- What a producer can do in one step. -/
inductive Calls (cfg : Config) (s : State) : State → Prop
  | refused {droppedQueueFull droppedClosed : Nat} : Calls cfg s { s with droppedQueueFull, droppedClosed }
  | admitted {c : Caller} (hopen : s.closed = false) (hphase : c.phase = .trying ∨ c.phase = .fast)
      (hroom : s.budgetHas cfg c.msg.weight) :
      Calls cfg s { s with budget := s.budget + c.msg.weight, callers := s.callers ++ [c] }
  | waits {msg : RawMessage} (hopen : s.closed = false) :
      Calls cfg s { s with callers := s.callers ++ [⟨msg, .waiting⟩] }
  | sent {i : Nat} {c : Caller} (hc : s.callers[i]? = some c)
      (hphase : c.phase = .trying ∨ c.phase = .fast ∨ c.phase = .sending) :
      Calls cfg s { s.accept c.msg with callers := s.callers.set i { c with phase := .counting } }
  /-- The queue is full, so the tokens of the fast path go back. -/
  | refunded {i : Nat} {c : Caller} (hc : s.callers[i]? = some c) (hphase : c.phase = .fast) :
      Calls cfg s { s with
        budget := s.budget - c.msg.weight, callers := s.callers.set i { c with phase := .waiting } }
  | acquired {i : Nat} {c : Caller} (hc : s.callers[i]? = some c) (hphase : c.phase = .waiting)
      (hroom : s.budgetHas cfg c.msg.weight) :
      Calls cfg s { s with
        budget := s.budget + c.msg.weight, callers := s.callers.set i { c with phase := .sending } }
  | counted {i : Nat} {c : Caller} (hc : s.callers[i]? = some c) (hphase : c.phase = .counting) :
      Calls cfg s { s with queueBytes := s.queueBytes + c.msg.weight, callers := s.callers.eraseIdx i }
  | left {i : Nat} {c : Caller} {droppedQueueFull : Nat} (hc : s.callers[i]? = some c)
      (hphase : c.phase ≠ .counting) :
      Calls cfg s { s with budget := s.budget - c.held, droppedQueueFull, callers := s.callers.eraseIdx i }

theorem State.tryEnqueue_calls (cfg : Config) (s : State) (msg : RawMessage) : Calls cfg s (s.tryEnqueue cfg msg) := by
  unfold State.tryEnqueue
  split
  · exact .refused
  · split
    · exact .admitted (c := ⟨msg, .trying⟩) (Bool.eq_false_of_not_eq_true ‹_›) (.inl rfl) ‹_›
    · exact .refused

theorem State.enqueue_calls (cfg : Config) (s : State) (msg : RawMessage) : Calls cfg s (s.enqueue cfg msg) := by
  unfold State.enqueue
  split
  · exact .refused
  · split
    · exact .admitted (c := ⟨msg, .fast⟩) (Bool.eq_false_of_not_eq_true ‹_›) (.inr rfl) ‹_›
    · exact .waits (Bool.eq_false_of_not_eq_true ‹_›)

theorem State.call_calls {i : Nat} {c : Caller} (hc : s.callers[i]? = some c) (h : s.call cfg i c = some s') :
    Calls cfg s s' := by
  obtain ⟨msg, phase⟩ := c
  cases phase <;> simp only [State.call] at h
  case trying =>
    split at h <;> cases h
    · exact .sent hc (.inl rfl)
    · exact .left (c := ⟨msg, .trying⟩) hc (by rintro ⟨⟩)
  case fast =>
    split at h <;> cases h
    · exact .sent hc (.inr (.inl rfl))
    · exact .refunded (c := ⟨msg, .fast⟩) hc rfl
  case waiting =>
    split at h <;> cases h
    exact .acquired (c := ⟨msg, .waiting⟩) hc rfl ‹_›
  case sending =>
    split at h <;> cases h
    exact .sent hc (.inr (.inr rfl))
  case counting =>
    cases h
    exact .counted hc rfl

theorem State.giveUp_calls {i : Nat} {c : Caller} (hc : s.callers[i]? = some c) (h : s.giveUp i c = some s') :
    Calls cfg s s' := by
  obtain ⟨msg, phase⟩ := c
  cases phase <;> cases h
  · exact .left (c := ⟨msg, .waiting⟩) hc (by rintro ⟨⟩)
  · exact .left (c := ⟨msg, .sending⟩) hc (by rintro ⟨⟩)

theorem step_calls (hl : l.ofProducer) (h : step cfg s l = some s') : Calls cfg s s' := by
  cases l with
  | tryEnqueue msg =>
    cases h
    exact s.tryEnqueue_calls cfg msg
  | enqueue msg =>
    cases h
    exact s.enqueue_calls cfg msg
  | tryEnqueueBehind msg =>
    obtain ⟨-, ⟨⟩⟩ := Option.ite_none_right_eq_some.mp h
    exact .refused
  | enqueueBehind msg =>
    obtain ⟨hopen, ⟨⟩⟩ := Option.ite_none_right_eq_some.mp h
    exact .waits (by simpa using (Bool.and_eq_true_iff.mp hopen).2)
  | call i =>
    obtain ⟨c, hc, h⟩ := Option.bind_eq_some_iff.mp h
    exact State.call_calls hc h
  | giveUp i =>
    obtain ⟨c, hc, h⟩ := Option.bind_eq_some_iff.mp h
    exact State.giveUp_calls hc h
  | _ => cases hl

/-- What a worker that stands at `w` can do in one step: what becomes of the state, the
worker apart, and of the worker. -/
inductive Works (cfg : Config) (s : State) (w : Worker) : State → Worker → Prop
  | receive {it : Item} {queue : List Item} (size : Nat) (hphase : w.phase = .idle)
      (hqueue : s.queue = it :: queue) : Works cfg s w { s with queue } (w.process cfg it size)
  | send {b : ItemBatch} {next : AfterSend} (hphase : w.phase = .sending b next) :
      Works cfg s w { s with batches := s.batches ++ [b] } { w with phase := next.phase }
  | uncount {weight : Nat} (hphase : w.phase = .uncounting weight) :
      Works cfg s w { s with queueBytes := s.queueBytes - weight } { w with phase := .releasing weight }
  | release {weight : Nat} (hphase : w.phase = .releasing weight) :
      Works cfg s w { s with budget := s.budget - weight } { w.updateTimer with phase := .idle }
  | timer (hphase : w.phase = .idle) :
      Works cfg s w s { w with timerActive := false, phase := .flushing false }
  | drain (hphase : w.phase = .idle) (hqueue : s.queue = []) (hclosed : s.closed = true) :
      Works cfg s w s { w with phase := .flushing true }
  | flush {exit : Bool} {tenant : String} {w' : Worker} (hphase : w.phase = .flushing exit)
      (hflush : w.flush tenant (.flushAll exit) = some w') : Works cfg s w s w'
  | flushed {exit : Bool} (hphase : w.phase = .flushing exit) (hempty : ∀ b ∈ w.batches, b.entries = []) :
      Works cfg s w s { w with pending := 0, phase := if exit then .exited else .idle }

theorem State.workerStep_works {j : Nat} {w : Worker} (h : s.workerStep cfg j w l = some s') :
    ∃ s₁ w', Works cfg s w s₁ w' ∧ s' = s₁.setWorker j w' := by
  cases l <;> simp only [State.workerStep, reduceCtorEq] at h
  case receive size =>
    split at h <;> cases h
    exact ⟨_, _, .receive size ‹_› ‹_›, rfl⟩
  case send =>
    split at h
    · split at h <;> cases h
      exact ⟨_, _, .send ‹_›, rfl⟩
    · cases h
  case uncount =>
    split at h <;> cases h
    exact ⟨_, _, .uncount ‹_›, rfl⟩
  case release =>
    split at h <;> cases h
    exact ⟨_, _, .release ‹_›, rfl⟩
  case timer =>
    split at h <;> cases h
    exact ⟨_, _, .timer ‹_›, rfl⟩
  case drain =>
    split at h <;> cases h
    exact ⟨_, _, .drain ‹_› ‹_› ‹_›, rfl⟩
  case flush =>
    split at h
    · obtain ⟨w', hflush, rfl⟩ := Option.map_eq_some_iff.mp h
      exact ⟨_, _, .flush ‹_› hflush, rfl⟩
    · cases h
  case flushed =>
    split at h
    · split at h <;> cases h
      exact ⟨_, _, .flushed ‹_› ‹_›, rfl⟩
    · cases h

/-- What a writer that stands at `w` can do in one step. -/
inductive Writes (s : State) : Writer → State → Writer → Prop
  | take {b : ItemBatch} {batches : List ItemBatch} (hbatches : s.batches = b :: batches) :
      Writes s .idle { s with batches } (.ready b [(0, b.entries.length)])
  | begin {b : ItemBatch} {ranges : List (Nat × Nat)} : Writes s (.ready b ranges) s (.writing b ranges)
  | store {b : ItemBatch} {lo hi : Nat} {ranges : List (Nat × Nat)} :
      Writes s (.writing b ((lo, hi) :: ranges)) { s with stored := s.stored ++ slice b.entries lo hi }
        (.ready b ranges)
  | drop {b : ItemBatch} {lo hi : Nat} {ranges : List (Nat × Nat)} {w : Writer} (reason : DropReason)
      (hw : w = .ready b ((lo, hi) :: ranges) ∨ w = .writing b ((lo, hi) :: ranges)) :
      Writes s w { s with dropped := s.dropped ++ (slice b.entries lo hi).map (·, reason) } (.ready b ranges)
  | split {b : ItemBatch} {lo hi : Nat} {ranges : List (Nat × Nat)} (hmany : hi - lo > 1) :
      Writes s (.writing b ((lo, hi) :: ranges)) s
        (.ready b ((lo, midpoint lo hi) :: (midpoint lo hi, hi) :: ranges))
  | retry {b : ItemBatch} {ranges : List (Nat × Nat)} : Writes s (.writing b ranges) s (.ready b ranges)
  | done {b : ItemBatch} : Writes s (.ready b []) s .idle
  | exit (hbatches : s.batches = []) (hclosed : s.batchesClosed = true) : Writes s .idle s .exited

theorem afterWrite_split {cancelled : Bool} {rows : Nat} {r : WriteResult} (h : afterWrite cancelled rows r = .split) :
    rows > 1 := by
  unfold afterWrite at h
  repeat' split at h
  all_goals first | assumption | cases h

theorem State.writerStep_writes {k : Nat} {w : Writer} (h : s.writerStep k w l = some s') :
    ∃ s₁ w', Writes s w s₁ w' ∧ s' = s₁.setWriter k w' := by
  cases l <;> simp only [State.writerStep, reduceCtorEq] at h
  case take =>
    split at h <;> cases h
    exact ⟨_, _, .take ‹_›, rfl⟩
  case attempt =>
    split at h
    · split at h <;> cases h
      · exact ⟨_, _, .drop .shutdown (.inl rfl), rfl⟩
      · exact ⟨_, _, .begin, rfl⟩
    · cases h
  case result r =>
    split at h <;> cases h
    unfold State.resultStep
    split
    · exact ⟨_, _, .store, rfl⟩
    · exact ⟨_, _, .drop _ (.inr rfl), rfl⟩
    · exact ⟨_, _, .split (afterWrite_split ‹_›), rfl⟩
    · exact ⟨_, _, .retry, rfl⟩
  case putBatch =>
    split at h <;> cases h
    exact ⟨_, _, .done, rfl⟩
  case exit =>
    split at h <;> cases h
    exact ⟨_, _, .exit ‹_› ‹_›, rfl⟩

/-- `Close` only sets flags. -/
theorem State.closeStep_flags (h : s.closeStep l = some s') : ∃ closed closing batchesClosed ioCancelled,
    s' = { s with closed, closing, batchesClosed, ioCancelled } := by
  cases l <;> simp only [State.closeStep, reduceCtorEq] at h
  all_goals
    split at h <;> cases h
    exact ⟨_, _, _, _, rfl⟩

/-- One step is one of a producer, of a worker, of a writer or of `Close`. -/
inductive Moves (cfg : Config) (s : State) : State → Prop
  | call {s' : State} (h : Calls cfg s s') : Moves cfg s s'
  | work {j : Nat} {w w' : Worker} {s' : State} (hw : s.workers[j]? = some w) (h : Works cfg s w s' w') :
      Moves cfg s (s'.setWorker j w')
  | write {k : Nat} {w w' : Writer} {s' : State} (hw : s.writers[k]? = some w) (h : Writes s w s' w') :
      Moves cfg s (s'.setWriter k w')
  | close {l : Label} {s' : State} (h : s.closeStep l = some s') : Moves cfg s s'

theorem step_moves (h : step cfg s l = some s') : Moves cfg s s' := by
  cases l with
  | tryEnqueue | enqueue | tryEnqueueBehind | enqueueBehind | call | giveUp => exact .call (step_calls rfl h)
  | receive | send | uncount | release | timer | drain | flush | flushed =>
    obtain ⟨w, hw, h⟩ := Option.bind_eq_some_iff.mp h
    obtain ⟨s₁, w', hworks, rfl⟩ := State.workerStep_works h
    exact .work hw hworks
  | take | attempt | result | putBatch | exit =>
    obtain ⟨w, hw, h⟩ := Option.bind_eq_some_iff.mp h
    obtain ⟨s₁, w', hwrites, rfl⟩ := State.writerStep_writes h
    exact .write hw hwrites
  | closeStop | closeLock | closeBatches | closeExpire | closeReturn =>
    simp only [step] at h
    exact .close h

/-- What every move preserves holds in every interleaving. -/
theorem run_invariant {I : State → Prop} {ls : List Label} (hstart : I (State.start cfg))
    (hmoves : ∀ s s', I s → Moves cfg s s' → I s') (h : run cfg ls = some s) : I s :=
  Transition.run_invariant (fun s _ s' hs hstep => hmoves s s' hs (step_moves hstep)) hstart h

end Syslogc.Pipeline
