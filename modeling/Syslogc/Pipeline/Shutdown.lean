-- SUMMARY: The order in which the pipeline shuts down.
import Syslogc.Pipeline.Conservation

/-!
# Shutdown

Each goroutine's steps are summed up once by what they can change of the other
stages (`Works.move`, `Writes.move`, `Calls.move`). `Orderly` is the invariant: a
worker leaves only when the queue is closed and drained, the batch channel is
closed only when the workers have left, and a writer leaves only when the channel
is closed and drained. So when `Close` returns no stage holds a message.
-/

namespace Syslogc.Pipeline

open Sums Storage

/-! ## What a step can change -/

/-- The worker has found the queue closed and empty. -/
def WorkerPhase.leaving : WorkerPhase → Bool
  | .sending _ (.flushAll exit) | .flushing exit => exit
  | .exited => true
  | _ => false

/-- The batch a worker hands over, if it is at that point, has an entry. -/
def WorkerPhase.HandsEntries : WorkerPhase → Prop
  | .sending b _ => b.entries ≠ []
  | _ => True

theorem AfterSend.phase_leaving (next : AfterSend) (b : ItemBatch) :
    next.phase.leaving = (WorkerPhase.sending b next).leaving := by
  cases next <;> rfl

theorem AfterSend.phase_handsEntries (next : AfterSend) : next.phase.HandsEntries := by
  cases next <;> trivial

theorem Worker.isExited_iff {w : Worker} : w.isExited = true ↔ w.phase = .exited := by
  unfold Worker.isExited
  cases w.phase <;> simp

theorem Worker.process_phase (cfg : Config) (w : Worker) (it : Item) (size : Nat) :
    (w.process cfg it size).phase = .uncounting it.msg.weight ∨
      ∃ b, (w.process cfg it size).phase = .sending b (.processed it.msg.weight) ∧
        b.entries ≠ [] := by
  obtain heq | ⟨tenant, hflush⟩ := w.process_cases cfg it size
  · exact .inl (by rw [heq]; rfl)
  · obtain ⟨b, -, hb, heq⟩ := Worker.flush_eq hflush
    exact .inr ⟨b, by rw [heq], hb⟩

variable {cfg : Config} {s s' : State} {w w' : Worker}

/-- What a step of a worker does to the queue, the channel and itself. -/
structure WorkerMove (s : State) (queue : List Item) (batches : List ItemBatch) (w w' : Worker) : Prop where
  working : w.isExited = false
  queue : s.queue = [] → queue = []
  batches : ∀ b ∈ batches, b ∈ s.batches ∨ ∃ next, w.phase = .sending b next
  leaving : w'.phase.leaving → w.phase.leaving ∨ s.closed = true ∧ s.queue = []
  hands : w'.phase.HandsEntries
  exited : w'.isExited = true → w'.items = 0

/-- A step of a worker leaves everything else alone, the accounts apart. -/
theorem Works.move (h : Works cfg s w s' w') : ∃ queue batches budget queueBytes,
    s' = { s with queue, batches, budget, queueBytes } ∧ WorkerMove s queue batches w w' := by
  cases h with
  | @receive it queue size hphase hqueue =>
    refine ⟨_, _, _, _, rfl, by simp [Worker.isExited, hphase], by simp [hqueue], fun b hb => .inl hb, ?_, ?_, ?_⟩ <;>
    obtain hp | ⟨b, hp, hb⟩ := w.process_phase cfg it size <;>
    simp_all [WorkerPhase.leaving, WorkerPhase.HandsEntries, Worker.isExited]
  | @send b next hphase =>
    refine ⟨_, _, _, _, rfl, by simp [Worker.isExited, hphase], id, fun c hc => ?_, ?_,
      next.phase_handsEntries, ?_⟩
    · obtain hc | hc := List.mem_append.mp hc
      · exact .inl hc
      · exact .inr ⟨next, by rw [List.mem_singleton.mp hc, hphase]⟩
    · rw [hphase]
      exact fun hl => .inl (by rwa [← next.phase_leaving b])
    · cases next <;> simp [Worker.isExited, AfterSend.phase]
  | uncount hphase | release hphase | timer hphase =>
    exact ⟨_, _, _, _, rfl, by simp [Worker.isExited, hphase], id, fun b hb => .inl hb, by rintro ⟨⟩, trivial,
      by rintro ⟨⟩⟩
  | drain hphase hqueue hclosed =>
    exact ⟨_, _, _, _, rfl, by simp [Worker.isExited, hphase], id, fun b hb => .inl hb,
      fun _ => .inr ⟨hclosed, hqueue⟩, trivial, by rintro ⟨⟩⟩
  | flush hphase hflush =>
    obtain ⟨b, -, hb, rfl⟩ := Worker.flush_eq hflush
    refine ⟨_, _, _, _, rfl, by simp [Worker.isExited, hphase], id, fun b hb => .inl hb, ?_, hb, by rintro ⟨⟩⟩
    rw [hphase]
    exact .inl
  | @flushed exit hphase hempty =>
    have hnone : batchItems w.batches = 0 := total_eq_zero fun b hb => by rw [hempty b hb]; rfl
    refine ⟨_, _, _, _, rfl, by simp [Worker.isExited, hphase], id, fun b hb => .inl hb, ?_, ?_, ?_⟩ <;>
    cases exit <;>
    simp [hphase, WorkerPhase.leaving, WorkerPhase.HandsEntries, Worker.isExited, Worker.items, hnone]

/-- A step of a writer may take a batch from the channel, and leaves the other stages alone. -/
theorem Writes.move {w w' : Writer} (h : Writes s w s' w') : ∃ batches stored dropped,
    s' = { s with batches, stored, dropped } ∧ w.isExited = false ∧ batches ⊆ s.batches ∧
      (w'.isExited = true → s.batchesClosed = true ∧ s.batches = []) := by
  cases h with
  | take hbatches => exact ⟨_, _, _, rfl, rfl, by simp [hbatches], by rintro ⟨⟩⟩
  | drop reason hready =>
    refine ⟨_, _, _, rfl, ?_, List.Subset.refl _, by rintro ⟨⟩⟩
    obtain rfl | rfl := hready <;> rfl
  | exit hbatches hclosed => exact ⟨_, _, _, rfl, rfl, List.Subset.refl _, fun _ => ⟨hclosed, hbatches⟩⟩
  | _ => exact ⟨_, _, _, rfl, rfl, List.Subset.refl _, by rintro ⟨⟩⟩

/-- A step of a producer changes nothing once the pipeline is closed and no producer is
left inside, the accounts apart. -/
theorem Calls.move (h : Calls cfg s s') : ∃ callers queue accepted budget queueBytes droppedQueueFull droppedClosed,
    s' = { s with callers, queue, accepted, budget, queueBytes, droppedQueueFull, droppedClosed } ∧
      (s.closed = true → s.callers = [] → callers = [] ∧ queue = s.queue) := by
  have hbusy {i : Nat} {c : Caller} (hc : s.callers[i]? = some c) : s.callers ≠ [] :=
    List.ne_nil_of_mem (List.mem_of_getElem? hc)
  cases h with
  | refused => exact ⟨_, _, _, _, _, _, _, rfl, fun _ hnil => ⟨hnil, rfl⟩⟩
  | admitted hopen | waits hopen => exact ⟨_, _, _, _, _, _, _, rfl, fun hc => absurd (hopen ▸ hc) Bool.false_ne_true⟩
  | sent hc | refunded hc | acquired hc | counted hc | left hc =>
    exact ⟨_, _, _, _, _, _, _, rfl, fun _ hnil => absurd hnil (hbusy hc)⟩

/-! ## The invariant -/

structure Orderly (s : State) : Prop where
  closed : s.closed = true ↔ s.closing = .waiting ∨ s.closing = .returned
  callers : s.closed = true → s.callers = []
  leaving : ∀ w ∈ s.workers, w.phase.leaving = true → s.closed = true ∧ s.queue = []
  hands : ∀ w ∈ s.workers, w.phase.HandsEntries
  empty : ∀ w ∈ s.workers, w.isExited = true → w.items = 0
  channel : ∀ b ∈ s.batches, b.entries ≠ []
  batchesClosed : s.batchesClosed = true → ∀ w ∈ s.workers, w.isExited = true
  writers : ∀ w ∈ s.writers, w.isExited = true → s.batchesClosed = true ∧ s.batches = []
  returned : s.closing = .returned →
    (∀ w ∈ s.workers, w.isExited = true) ∧ ∀ w ∈ s.writers, w.isExited = true
  staffed : s.workers ≠ [] ∧ s.writers ≠ []

theorem State.start_orderly (cfg : Config) : Orderly (State.start cfg) := by
  have hworkers : ∀ w ∈ (State.start cfg).workers, w = {} := fun w => List.eq_of_mem_replicate
  have hwriters : ∀ w ∈ (State.start cfg).writers, w = .idle := fun w => List.eq_of_mem_replicate
  refine ⟨by simp [State.start], by rintro ⟨⟩, ?_, ?_, ?_, by rintro _ ⟨⟩, by rintro ⟨⟩, ?_, by rintro ⟨⟩, ?_⟩
  · intro w hw hleaving
    rw [hworkers w hw] at hleaving
    exact absurd hleaving Bool.false_ne_true
  · intro w hw
    rw [hworkers w hw]
    trivial
  · intro w hw hexited
    rw [hworkers w hw] at hexited
    exact absurd hexited Bool.false_ne_true
  · intro w hw hexited
    rw [hwriters w hw] at hexited
    exact absurd hexited Bool.false_ne_true
  · simp [State.start, cfg.workers_pos.ne', cfg.writers_pos.ne']

theorem Orderly.work {j : Nat} (hs : Orderly s) (hw : s.workers[j]? = some w) (h : Works cfg s w s' w') :
    Orderly (s'.setWorker j w') := by
  obtain ⟨queue, batches, budget, queueBytes, rfl, hmove⟩ := h.move
  have hmem : w ∈ s.workers := List.mem_of_getElem? hw
  have hother : ∀ v ∈ s.workers.set j w', v ∈ s.workers ∨ v = w' := fun v hv => List.mem_or_eq_of_mem_set hv
  -- The worker is still there, so neither the channel nor `Close` is past the workers.
  have hopen : s.batchesClosed ≠ true := fun hclosed => by
    simpa [hmove.working] using hs.batchesClosed hclosed w hmem
  have hwaiting : s.closing ≠ .returned := fun hreturned => by
    simpa [hmove.working] using (hs.returned hreturned).1 w hmem
  refine ⟨hs.closed, hs.callers, ?_, ?_, ?_, ?_, fun hclosed => absurd hclosed hopen,
    fun v hv hexited => absurd (hs.writers v hv hexited).1 hopen, fun hreturned => absurd hreturned hwaiting,
    by simpa [State.setWorker] using hs.staffed⟩
  · intro v hv hleaving
    obtain hv | rfl := hother v hv
    · exact (hs.leaving v hv hleaving).imp_right hmove.queue
    · obtain hwas | hnow := hmove.leaving hleaving
      · exact (hs.leaving w hmem hwas).imp_right hmove.queue
      · exact hnow.imp_right hmove.queue
  · intro v hv
    obtain hv | rfl := hother v hv
    · exact hs.hands v hv
    · exact hmove.hands
  · intro v hv hexited
    obtain hv | rfl := hother v hv
    · exact hs.empty v hv hexited
    · exact hmove.exited hexited
  · intro b hb
    obtain hb | ⟨next, hphase⟩ := hmove.batches b hb
    · exact hs.channel b hb
    · have hhands := hs.hands w hmem
      rwa [hphase] at hhands

theorem Orderly.write {k : Nat} {w w' : Writer} (hs : Orderly s) (hw : s.writers[k]? = some w)
    (h : Writes s w s' w') : Orderly (s'.setWriter k w') := by
  obtain ⟨batches, stored, dropped, rfl, hworking, hbatches, hexit⟩ := h.move
  have hnil (hnil : s.batches = []) : batches = [] := List.subset_nil.mp (hnil ▸ hbatches)
  refine ⟨hs.closed, hs.callers, hs.leaving, hs.hands, hs.empty, fun b hb => hs.channel b (hbatches hb),
    hs.batchesClosed, fun v hv hexited => ?_, fun hreturned => ?_, by simpa [State.setWriter] using hs.staffed⟩
  · obtain hv | rfl := List.mem_or_eq_of_mem_set hv
    · exact (hs.writers v hv hexited).imp_right hnil
    · exact (hexit hexited).imp_right hnil
  · have hexited := (hs.returned hreturned).2 w (List.mem_of_getElem? hw)
    rw [hworking] at hexited
    cases hexited

theorem Orderly.call (hs : Orderly s) (h : Calls cfg s s') : Orderly s' := by
  obtain ⟨callers, queue, accepted, budget, queueBytes, droppedQueueFull, droppedClosed, rfl, hquiet⟩ := h.move
  refine ⟨hs.closed, fun hclosed => (hquiet hclosed (hs.callers hclosed)).1, fun w hw hleaving => ?_, hs.hands,
    hs.empty, hs.channel, hs.batchesClosed, hs.writers, hs.returned, hs.staffed⟩
  obtain ⟨hclosed, hqueue⟩ := hs.leaving w hw hleaving
  exact ⟨hclosed, (hquiet hclosed (hs.callers hclosed)).2.trans hqueue⟩

theorem Orderly.close {l : Label} (hs : Orderly s) (h : s.closeStep l = some s') : Orderly s' := by
  cases l with
  | closeStop =>
    simp only [State.closeStep] at h
    split at h <;> cases h
    rename_i hno
    have hopen : ¬ s.closed = true := by simp [hs.closed, hno]
    exact { hs with closed := by simpa using hopen, returned := by rintro ⟨⟩ }
  | closeLock =>
    simp only [State.closeStep] at h
    split at h <;> cases h
    rename_i hlock
    exact { hs with
      closed := by simp
      callers := fun _ => hlock.2
      leaving := fun w hw hleaving => ⟨rfl, (hs.leaving w hw hleaving).2⟩
      returned := by rintro ⟨⟩ }
  | closeBatches =>
    simp only [State.closeStep] at h
    split at h <;> cases h
    rename_i hdone
    exact { hs with
      batchesClosed := fun _ => List.all_eq_true.mp hdone.2.1
      writers := fun w hw hexited => ⟨rfl, (hs.writers w hw hexited).2⟩ }
  | closeExpire =>
    simp only [State.closeStep] at h
    split at h <;> cases h
    exact { hs with }
  | closeReturn =>
    simp only [State.closeStep] at h
    split at h <;> cases h
    rename_i hdone
    have hclosed : s.closed = true := hs.closed.mpr (.inl hdone.1)
    exact { hs with
      closed := by simpa using hclosed
      returned := fun _ => ⟨List.all_eq_true.mp hdone.2.1, List.all_eq_true.mp hdone.2.2⟩ }
  | _ => simp [State.closeStep] at h

theorem run_orderly {ls : List Label} (h : run cfg ls = some s) : Orderly s := by
  refine run_invariant (State.start_orderly cfg) (fun s s' hs hmoves => ?_) h
  cases hmoves with
  | call h => exact hs.call h
  | work hw h => exact hs.work hw h
  | write hw h => exact hs.write hw h
  | close h => exact hs.close h

/-- When `Close` has returned, every message is accounted for. -/
theorem Orderly.returned_items {s : State} (hs : Orderly s) (h : s.closing = .returned) :
    s.items = (s.stored : Multiset Item) + (s.dropped.map Prod.fst : List Item) := by
  obtain ⟨hworkers, hwriters⟩ := hs.returned h
  obtain ⟨w, hw⟩ := List.exists_mem_of_ne_nil _ hs.staffed.1
  obtain ⟨v, hv⟩ := List.exists_mem_of_ne_nil _ hs.staffed.2
  have hleft : w.phase.leaving = true := by rw [Worker.isExited_iff.mp (hworkers w hw)]; rfl
  have hqueue : s.queue = [] := (hs.leaving w hw hleft).2
  have hbatches : s.batches = [] := (hs.writers v hv (hwriters v hv)).2
  have hworkerItems : total Worker.items s.workers = 0 :=
    total_eq_zero fun u hu => hs.empty u hu (hworkers u hu)
  have hwriterItems : total Writer.items s.writers = 0 := by
    refine total_eq_zero fun u hu => ?_
    have hexited := hwriters u hu
    cases u <;> simp_all [Writer.isExited, Writer.items]
  simp [State.items, hqueue, hbatches, hworkerItems, hwriterItems, batchItems]

/-! ## Where a message is -/

/-- The places a message can be in. -/
inductive Place where
  | queue
  /-- In a batch of a worker, open or on its way into the channel. -/
  | openBatch
  | channel
  /-- In a batch a writer has taken, neither stored nor dropped yet. -/
  | writing
  | stored
  | dropped
deriving DecidableEq, Repr

instance : Fintype Place where
  elems := {.queue, .openBatch, .channel, .writing, .stored, .dropped}
  complete p := by cases p <;> decide

theorem Place.sum_univ {M : Type*} [AddCommMonoid M] (f : Place → M) :
    ∑ p, f p = f .queue + (f .openBatch + (f .channel + (f .writing + (f .stored + f .dropped)))) := by
  change ∑ p ∈ ({.queue, .openBatch, .channel, .writing, .stored, .dropped} : Finset Place), f p = _
  simp

/-- The messages that are in a place, as often as they are there. -/
def State.itemsAt (s : State) : Place → Multiset Item
  | .queue => s.queue
  | .openBatch => total Worker.items s.workers
  | .channel => batchItems s.batches
  | .writing => total Writer.items s.writers
  | .stored => s.stored
  | .dropped => (s.dropped.map Prod.fst : List Item)

theorem State.items_eq_sum (s : State) : s.items = ∑ p, s.itemsAt p := by
  simp only [State.items, Place.sum_univ, State.itemsAt, add_assoc]

/-- In every interleaving, every accepted message is once in one place and in no
other, no message is stored twice, and once `Close` has returned every accepted
message is stored or counted as dropped. -/
theorem run_accounts_for_accepted {cfg : Config} {ls : List Label} {s : State}
    (h : run cfg ls = some s) :
    (∀ it ∈ s.accepted, ∃ p, (s.itemsAt p).count it = 1 ∧
      ∀ q, q ≠ p → (s.itemsAt q).count it = 0) ∧
    (∀ p, ∀ it ∈ s.itemsAt p, it ∈ s.accepted) ∧
    s.stored.Nodup ∧
    (s.closing = .returned →
      ∀ it ∈ s.accepted, it ∈ s.stored ∨ ∃ reason, (it, reason) ∈ s.dropped) := by
  have hitems : s.items = (s.accepted : Multiset Item) := run_conserved h
  have hnodup : s.accepted.Nodup := run_accepted_nodup h
  refine ⟨fun it hit => ?_, fun p it hit => ?_, ?_, fun hreturned it hit => ?_⟩
  · apply exists_single_of_sum_eq_one
    rw [← Multiset.count_sum', ← s.items_eq_sum, hitems]
    exact Multiset.count_eq_one_of_mem hnodup hit
  · rw [← Multiset.mem_coe, ← hitems, s.items_eq_sum, Multiset.mem_sum]
    exact ⟨p, Finset.mem_univ p, hit⟩
  · have hle : (s.stored : Multiset Item) ≤ s.accepted := by
      rw [← hitems, s.items_eq_sum]
      exact Finset.single_le_sum (f := s.itemsAt) (fun _ _ => zero_le)
        (Finset.mem_univ Place.stored)
    exact Multiset.nodup_of_le hle hnodup
  · rw [← Multiset.mem_coe, ← hitems, (run_orderly h).returned_items hreturned] at hit
    simpa using hit

/-- One worker and one writer, with batches of two rows. -/
def tinyConfig : Config where
  queueMaxMessages := 2
  queueMaxBytes := 1024
  workers := 1
  batchMaxRows := 2
  batchMaxBytes := 100
  writers := 1
  batchQueue := 0
  queueMaxMessages_pos := by decide
  workers_pos := by decide
  writers_pos := by decide

/-- Two messages in one batch, which is rejected, split, half stored and half
dropped; then the pipeline is closed. -/
def splitAndClose (first second : RawMessage) : List Label :=
  [.enqueue first, .call 0, .call 0, .tryEnqueue second, .call 0, .call 0,
    .receive 0 1, .uncount 0, .release 0, .receive 0 1, .send 0, .uncount 0, .release 0,
    .take 0, .attempt 0, .result 0 (.error (some .rejected)), .attempt 0, .result 0 .ok,
    .attempt 0, .result 0 (.error (some .rejected)), .putBatch 0,
    .closeStop, .closeLock, .drain 0, .flushed 0, .closeBatches, .exit 0, .closeReturn]

theorem run_accounts_for_accepted_splitAndClose :
    ∃ s, run tinyConfig (splitAndClose ⟨[1], false, ⟨"a", "t"⟩⟩ ⟨[2], true, ⟨"b", "t"⟩⟩) = some s ∧
      s.accepted.length = 2 ∧ s.closing = .returned ∧
      ∀ it ∈ s.accepted, it ∈ s.stored ∨ ∃ reason, (it, reason) ∈ s.dropped :=
  ⟨_, rfl, rfl, rfl, (@run_accounts_for_accepted tinyConfig
    (splitAndClose ⟨[1], false, ⟨"a", "t"⟩⟩ ⟨[2], true, ⟨"b", "t"⟩⟩) _ rfl).2.2.2 rfl⟩

end Syslogc.Pipeline
