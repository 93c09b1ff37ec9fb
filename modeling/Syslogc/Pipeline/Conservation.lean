-- SUMMARY: No step of the pipeline loses or doubles a message.
import Syslogc.Lib.Sums
import Syslogc.Pipeline.System

/-!
# Conservation of messages

Every step moves messages between places and creates one only where it accepts
one. `Moves.keeps` says this once for all steps, and `run_items` for every
interleaving: what the pipeline holds or has accounted for is what it accepted.
-/

namespace Syslogc.Pipeline

open Sums Storage

/-! ## The messages a component holds -/

def batchItems (bs : List ItemBatch) : Multiset Item :=
  total (fun b : ItemBatch => (b.entries : Multiset Item)) bs

def rangeItems (b : ItemBatch) (ranges : List (Nat × Nat)) : Multiset Item :=
  total (fun r : Nat × Nat => (slice b.entries r.1 r.2 : Multiset Item)) ranges

def WorkerPhase.items : WorkerPhase → Multiset Item
  | .sending b _ => b.entries
  | _ => 0

/-- The open batches of a worker, and the batch it is about to hand over. -/
def Worker.items (w : Worker) : Multiset Item := batchItems w.batches + w.phase.items

def Writer.items : Writer → Multiset Item
  | .ready b ranges | .writing b ranges => rangeItems b ranges
  | .idle | .exited => 0

/-- Everything the pipeline holds or has accounted for. -/
def State.items (s : State) : Multiset Item :=
  s.queue + total Worker.items s.workers + batchItems s.batches + total Writer.items s.writers
    + s.stored + (s.dropped.map Prod.fst : List Item)

@[simp] theorem WorkerPhase.items_sending (b : ItemBatch) (next : AfterSend) :
    (WorkerPhase.sending b next).items = b.entries := rfl
@[simp] theorem WorkerPhase.items_idle : WorkerPhase.idle.items = 0 := rfl
@[simp] theorem WorkerPhase.items_uncounting (n : Nat) : (WorkerPhase.uncounting n).items = 0 := rfl
@[simp] theorem WorkerPhase.items_releasing (n : Nat) : (WorkerPhase.releasing n).items = 0 := rfl
@[simp] theorem WorkerPhase.items_flushing (e : Bool) : (WorkerPhase.flushing e).items = 0 := rfl
@[simp] theorem WorkerPhase.items_exited : WorkerPhase.exited.items = 0 := rfl

@[simp] theorem AfterSend.phase_items (next : AfterSend) : next.phase.items = 0 := by
  cases next <;> rfl

@[simp] theorem Worker.updateTimer_batches (w : Worker) : w.updateTimer.batches = w.batches := by
  unfold Worker.updateTimer
  split
  · rfl
  · split <;> rfl

theorem putEntry_items (it : Item) (size : Nat) (bs : List ItemBatch) :
    batchItems (putEntry it size bs).1 = batchItems bs + {it} := by
  induction bs with
  | nil => simp [putEntry, batchItems, addEntry, getBatch]
  | cons b bs ih =>
    simp only [batchItems] at ih ⊢
    rw [putEntry]
    split
    · simp only [total_cons, addEntry, ← Multiset.coe_add, Multiset.coe_singleton]
      abel
    · simp only [total_cons, ih, add_assoc]

/-- Taking the batch of a tenant out of the map leaves the others. -/
theorem deleteBatch_items {tenant : String} {bs : List ItemBatch} {b : ItemBatch}
    (h : bs.find? (·.tenant = tenant) = some b) :
    batchItems bs = batchItems (deleteBatch tenant bs) + b.entries := by
  induction bs with
  | nil => simp at h
  | cons c bs ih =>
    by_cases hc : c.tenant = tenant
    · simp only [List.find?_cons, hc, decide_true, Option.some.injEq] at h
      subst h
      simp only [deleteBatch, List.eraseP_cons, hc, decide_true, batchItems, total_cons]
      exact add_comm _ _
    · simp only [List.find?_cons, hc, decide_false] at h
      have ih := ih h
      simp only [deleteBatch, batchItems] at ih ⊢
      simp only [List.eraseP_cons, hc, decide_false, total_cons, ih, cond_false,
        add_assoc]

/-- `flush` takes a batch with entries out of the map and into the hand that sends it. -/
theorem Worker.flush_eq {w w' : Worker} {tenant : String} {next : AfterSend}
    (h : w.flush tenant next = some w') :
    ∃ b, w.batches.find? (·.tenant = tenant) = some b ∧ b.entries ≠ [] ∧ w' = { w with
      batches := deleteBatch tenant w.batches
      pending := w.pending - b.entries.length
      phase := .sending b next } := by
  unfold Worker.flush at h
  split at h
  · cases h
  · split at h <;> cases h
    exact ⟨_, ‹_›, ‹_›, rfl⟩

theorem Worker.flush_items {w w' : Worker} {tenant : String} {next : AfterSend}
    (h : w.flush tenant next = some w') (hphase : w.phase.items = 0) : w'.items = w.items := by
  obtain ⟨b, hfind, -, rfl⟩ := Worker.flush_eq h
  simp only [Worker.items, WorkerPhase.items_sending, hphase, add_zero]
  exact (deleteBatch_items hfind).symm

/-- The worker once the entry is in its batch, before that batch is flushed if it is full. -/
def Worker.put (w : Worker) (it : Item) (size : Nat) : Worker := { w with
  batches := (putEntry it size w.batches).1
  pending := w.pending + 1
  phase := .uncounting it.msg.weight }

theorem Worker.process_cases (cfg : Config) (w : Worker) (it : Item) (size : Nat) :
    w.process cfg it size = w.put it size ∨
      ∃ tenant, (w.put it size).flush tenant (.processed it.msg.weight) = some (w.process cfg it size) := by
  simp only [Worker.process]
  split
  · cases hflush : Worker.flush _ _ _ with
    | none => exact .inl rfl
    | some w' => exact .inr ⟨_, hflush⟩
  · exact .inl rfl

theorem Worker.process_items (cfg : Config) {w : Worker} (it : Item) (size : Nat)
    (hphase : w.phase.items = 0) : (w.process cfg it size).items = w.items + {it} := by
  have hput : (w.put it size).items = w.items + {it} := by
    simp only [Worker.put, Worker.items, WorkerPhase.items_uncounting, hphase, add_zero, putEntry_items]
  obtain heq | ⟨tenant, hflush⟩ := w.process_cases cfg it size
  · rw [heq, hput]
  · rw [Worker.flush_items hflush rfl, hput]

theorem rangeItems_split (b : ItemBatch) {lo hi : Nat} (h : hi - lo > 1)
    (ranges : List (Nat × Nat)) :
    rangeItems b ((lo, midpoint lo hi) :: (midpoint lo hi, hi) :: ranges) =
      rangeItems b ((lo, hi) :: ranges) := by
  simp only [rangeItems, total_cons]
  rw [← add_assoc, Multiset.coe_add, slice_append (lt_midpoint h).le (midpoint_lt h).le]

/-! ## What a step moves -/

/-- A step keeps the messages of the pipeline, apart from the one it may accept. -/
structure Keeps (s s' : State) : Prop where
  items : s'.items + (s.accepted : Multiset Item) = s.items + (s'.accepted : Multiset Item)
  accepted : s'.accepted = s.accepted ∨
    ∃ msg, s'.accepted = s.accepted ++ [⟨s.accepted.length, msg⟩]

variable {s : State}

theorem Keeps.of_eq {s' : State} (hitems : s'.items = s.items)
    (hacc : s'.accepted = s.accepted) : Keeps s s' :=
  ⟨by rw [hitems, hacc], .inl hacc⟩

theorem State.accept_keeps (s : State) (msg : RawMessage) : Keeps s (s.accept msg) := by
  refine ⟨?_, .inr ⟨msg, rfl⟩⟩
  simp only [State.accept, State.items, ← Multiset.coe_add]
  abel

theorem Calls.keeps {cfg : Config} {s' : State} (h : Calls cfg s s') : Keeps s s' := by
  cases h with
  | sent hc hphase => exact ⟨(s.accept_keeps _).items, (s.accept_keeps _).accepted⟩
  | _ => exact .of_eq (by simp only [State.items]) rfl

/-- A worker that keeps its messages keeps those of the pipeline. -/
theorem State.setWorker_items {j : Nat} {w w' : Worker}
    (hw : s.workers[j]? = some w) (h : w'.items = w.items) :
    (s.setWorker j w').items = s.items := by
  simp only [State.items, State.setWorker, total_set_same hw h]

theorem Works.keeps {cfg : Config} {s' : State} {j : Nat} {w w' : Worker}
    (hw : s.workers[j]? = some w) (h : Works cfg s w s' w') : Keeps s (s'.setWorker j w') := by
  cases h with
  | @receive it queue size hphase hqueue =>
    have hgain := total_set_gain hw (Worker.process_items cfg it size (w := w) (by rw [hphase]; rfl))
    refine .of_eq ?_ rfl
    simp only [State.items, State.setWorker, hgain, hqueue, ← Multiset.cons_coe, ← Multiset.singleton_add]
    abel
  | @send b next hphase =>
    have hlose : total Worker.items s.workers =
        total Worker.items (s.workers.set j { w with phase := next.phase }) + b.entries :=
      total_set_lose hw (by simp [Worker.items, hphase])
    refine .of_eq ?_ rfl
    simp only [State.items, State.setWorker, hlose, batchItems, total_append, total_cons, total_nil, add_zero]
    abel
  | uncount hphase | release hphase | timer hphase | drain hphase =>
    exact .of_eq (State.setWorker_items hw (by simp [Worker.items, hphase])) rfl
  | flush hphase hflush =>
    exact .of_eq (State.setWorker_items hw (Worker.flush_items hflush (by rw [hphase]; rfl))) rfl
  | @flushed exit hphase =>
    refine .of_eq (State.setWorker_items hw ?_) rfl
    cases exit <;> simp [Worker.items, hphase]

/-- Taking the first range off the stack takes its messages off the writer. -/
theorem State.popRange_items {k : Nat} {w : Writer} {b : ItemBatch} {lo hi : Nat}
    {ranges : List (Nat × Nat)} (hw : s.writers[k]? = some w)
    (hitems : w.items = rangeItems b ((lo, hi) :: ranges)) :
    total Writer.items s.writers =
      total Writer.items (s.writers.set k (.ready b ranges)) + slice b.entries lo hi := by
  refine total_set_lose hw ?_
  rw [hitems]
  simp only [Writer.items, rangeItems, total_cons]
  exact add_comm _ _

theorem Writes.keeps {s' : State} {k : Nat} {w w' : Writer}
    (hw : s.writers[k]? = some w) (h : Writes s w s' w') : Keeps s (s'.setWriter k w') := by
  have hsame {v : Writer} (hv : v.items = w.items) : Keeps s (s.setWriter k v) :=
    .of_eq (by simp only [State.items, State.setWriter, total_set_same hw hv]) rfl
  cases h with
  | @take b batches hbatches =>
    have hgain : total Writer.items (s.writers.set k (.ready b [(0, b.entries.length)])) =
        total Writer.items s.writers + b.entries :=
      total_set_gain hw (by simp [Writer.items, rangeItems])
    refine .of_eq ?_ rfl
    simp only [State.items, State.setWriter, hgain, hbatches, batchItems, total_cons]
    abel
  | store =>
    refine .of_eq ?_ rfl
    simp only [State.items, State.setWriter, State.popRange_items hw rfl, ← Multiset.coe_add]
    abel
  | @drop b lo hi ranges _ reason hready =>
    have hitems : w.items = rangeItems b ((lo, hi) :: ranges) := by
      obtain rfl | rfl := hready <;> rfl
    have hfst : ((slice b.entries lo hi).map (·, reason)).map Prod.fst = slice b.entries lo hi := by
      simp [Function.comp_def]
    refine .of_eq ?_ rfl
    simp only [State.items, State.setWriter, State.popRange_items hw hitems, List.map_append, hfst,
      ← Multiset.coe_add]
    abel
  | @split b lo hi ranges hmany => exact hsame (rangeItems_split b hmany ranges)
  | begin | retry | exit => exact hsame rfl
  | done => exact hsame (by simp [Writer.items, rangeItems])

theorem Moves.keeps {cfg : Config} {s' : State} (h : Moves cfg s s') : Keeps s s' := by
  cases h with
  | call h => exact h.keeps
  | work hw h => exact h.keeps hw
  | write hw h => exact h.keeps hw
  | close h =>
    obtain ⟨closed, closing, batchesClosed, ioCancelled, rfl⟩ := State.closeStep_flags h
    exact .of_eq rfl rfl

/-! ## Every interleaving -/

/-- What the pipeline holds is what it accepted, message by message. -/
def Conserved (s : State) : Prop := s.items = (s.accepted : Multiset Item)

theorem State.start_conserved (cfg : Config) : Conserved (State.start cfg) := by
  have hworkers : total Worker.items (List.replicate cfg.workers {}) = 0 :=
    total_replicate_zero (by simp [Worker.items, batchItems]) _
  have hwriters : total Writer.items (List.replicate cfg.writers .idle) = 0 :=
    total_replicate_zero (by simp [Writer.items]) _
  simp [Conserved, State.items, State.start, hworkers, hwriters, batchItems]

theorem run_conserved {cfg : Config} {ls : List Label} (h : run cfg ls = some s) :
    Conserved s := by
  refine run_invariant (State.start_conserved cfg) (fun s s' (hs : Conserved s) hmoves => ?_) h
  have hitems := hmoves.keeps.items
  rw [hs, add_comm] at hitems
  exact add_left_cancel hitems

/-- Accepted messages are numbered in the order of their acceptance. -/
def Numbered (s : State) : Prop := s.accepted.map Item.id = List.range s.accepted.length

theorem run_accepted_nodup {cfg : Config} {ls : List Label}
    (h : run cfg ls = some s) : s.accepted.Nodup := by
  have hnum : Numbered s := by
    refine run_invariant (by rfl) (fun s s' (hs : Numbered s) hmoves => ?_) h
    unfold Numbered at hs ⊢
    obtain heq | ⟨msg, heq⟩ := hmoves.keeps.accepted
    · rwa [heq]
    · rw [heq, List.map_append, hs, List.length_append, List.length_singleton, List.range_succ]
      rfl
  exact List.Nodup.of_map Item.id (hnum ▸ List.nodup_range)

end Syslogc.Pipeline
