-- SUMMARY: The open batches of a worker and its flush timer.
import Syslogc.Pipeline.Shutdown

/-!
# Pending entries

A worker counts the entries of its open batches, and its flush timer runs while it waits
with any of them. The timer is started or stopped after each message, so between two of
them the three agree.
-/

namespace Syslogc.Pipeline

open Sums

/-- The entries of the open batches, counted. -/
def Worker.openEntries (w : Worker) : Nat := (w.batches.map fun b => b.entries.length).sum

theorem card_batchItems (bs : List ItemBatch) :
    (batchItems bs).card = (bs.map fun b => b.entries.length).sum := by
  induction bs with
  | nil => rfl
  | cons b bs ih =>
    rw [List.map_cons, List.sum_cons, ← ih]
    simp [batchItems]

/-- An open batch has recorded the source of each of its entries. -/
def Sourced (b : ItemBatch) : Prop := b.sources = b.entries.map fun it => it.msg.source

/-- What the batches of a worker, its count and its timer say of each other. -/
structure Worker.Consistent (w : Worker) : Prop where
  sources : ∀ b ∈ w.batches, Sourced b
  pending : w.pending = w.openEntries
  timer : w.phase = .idle → 0 < w.pending → w.timerActive = true
  left : w.phase = .exited → w.pending = 0

theorem addEntry_sourced {b : ItemBatch} (it : Item) (size : Nat) (h : Sourced b) : Sourced (addEntry b it size) := by
  have hsources : b.sources = b.entries.map fun it => it.msg.source := h
  simp [Sourced, addEntry, hsources]

theorem putEntry_sourced (it : Item) (size : Nat) {bs : List ItemBatch} (h : ∀ b ∈ bs, Sourced b) :
    ∀ b ∈ (putEntry it size bs).1, Sourced b := by
  induction bs with
  | nil =>
    rintro b hb
    obtain rfl := List.mem_singleton.mp hb
    exact addEntry_sourced it size rfl
  | cons c bs ih =>
    obtain ⟨hc, hbs⟩ := List.forall_mem_cons.mp h
    rw [putEntry]
    split
    · exact List.forall_mem_cons.mpr ⟨addEntry_sourced it size hc, hbs⟩
    · exact List.forall_mem_cons.mpr ⟨hc, ih hbs⟩

theorem Worker.put_openEntries (w : Worker) (it : Item) (size : Nat) :
    (w.put it size).openEntries = w.openEntries + 1 := by
  rw [Worker.openEntries, Worker.openEntries, ← card_batchItems, ← card_batchItems]
  simp [Worker.put, putEntry_items]

/-- A batch that is flushed takes its entries off the count. -/
theorem Worker.flush_consistent {w w' : Worker} {tenant : String} {next : AfterSend}
    (hsources : ∀ b ∈ w.batches, Sourced b) (hpending : w.pending = w.openEntries)
    (h : w.flush tenant next = some w') : w'.Consistent := by
  obtain ⟨b, hfind, -, rfl⟩ := Worker.flush_eq h
  have hitems := congrArg Multiset.card (deleteBatch_items hfind)
  rw [Multiset.card_add, card_batchItems, card_batchItems, Multiset.coe_card] at hitems
  refine ⟨fun c hc => hsources c (List.mem_of_mem_eraseP hc), ?_, by rintro ⟨⟩, by rintro ⟨⟩⟩
  simp only [Worker.openEntries] at hpending ⊢
  omega

theorem Worker.Consistent.process {w : Worker} (hw : w.Consistent) (cfg : Config) (it : Item) (size : Nat) :
    (w.process cfg it size).Consistent := by
  have hsources : ∀ b ∈ (w.put it size).batches, Sourced b := putEntry_sourced it size hw.sources
  have hpending : (w.put it size).pending = (w.put it size).openEntries := by
    rw [w.put_openEntries, ← hw.pending]
    rfl
  obtain heq | ⟨tenant, hflush⟩ := w.process_cases cfg it size
  · rw [heq]
    exact ⟨hsources, hpending, by rintro ⟨⟩, by rintro ⟨⟩⟩
  · exact Worker.flush_consistent hsources hpending hflush

/-- After a message the timer runs if anything is pending. -/
theorem Worker.updateTimer_active (w : Worker) :
    w.updateTimer.pending = w.pending ∧ (0 < w.pending → w.updateTimer.timerActive = true) := by
  unfold Worker.updateTimer
  split
  · exact ⟨rfl, fun _ => rfl⟩
  · split <;> simp_all

theorem Works.consistent {cfg : Config} {s s' : State} {w w' : Worker} (h : Works cfg s w s' w')
    (hw : w.Consistent) : w'.Consistent := by
  cases h with
  | receive size => exact hw.process cfg _ size
  | @send b next =>
    refine ⟨hw.sources, hw.pending, ?_, ?_⟩ <;> cases next <;> rintro ⟨⟩
  | uncount | timer | drain => exact ⟨hw.sources, hw.pending, by rintro ⟨⟩, by rintro ⟨⟩⟩
  | release =>
    obtain ⟨hpending, hactive⟩ := w.updateTimer_active
    refine ⟨?_, ?_, fun _ hpos => hactive (hpending ▸ hpos), by rintro ⟨⟩⟩
    · simpa using hw.sources
    · simpa [Worker.openEntries, hpending] using hw.pending
  | flush hphase hflush => exact Worker.flush_consistent hw.sources hw.pending hflush
  | flushed hphase hempty =>
    refine ⟨hw.sources, ?_, fun _ hpos => absurd hpos (lt_irrefl 0), fun _ => rfl⟩
    refine (List.sum_eq_zero fun n hn => ?_).symm
    obtain ⟨b, hb, rfl⟩ := List.mem_map.mp hn
    rw [hempty b hb, List.length_nil]

theorem run_consistent {cfg : Config} {ls : List Label} {s : State} (h : run cfg ls = some s) :
    ∀ w ∈ s.workers, w.Consistent := by
  refine run_invariant (I := fun s => ∀ w ∈ s.workers, w.Consistent) (fun w hw => ?_) (fun s s' hs hmoves => ?_) h
  · obtain rfl := List.eq_of_mem_replicate hw
    exact ⟨by rintro b ⟨⟩, rfl, fun _ hpos => absurd hpos (lt_irrefl 0), by rintro ⟨⟩⟩
  · cases hmoves with
    | call h =>
      obtain ⟨callers, queue, accepted, budget, queueBytes, droppedQueueFull, droppedClosed, rfl, -⟩ := h.move
      exact hs
    | @work j w w' _ hw h =>
      obtain ⟨queue, batches, budget, queueBytes, rfl, -⟩ := h.move
      intro v hv
      obtain hv | rfl := List.mem_or_eq_of_mem_set hv
      · exact hs v hv
      · exact h.consistent (hs w (List.mem_of_getElem? hw))
    | write hw h =>
      obtain ⟨batches, stored, dropped, rfl, -⟩ := h.move
      exact hs
    | close h =>
      obtain ⟨closed, closing, batchesClosed, ioCancelled, rfl⟩ := State.closeStep_flags h
      exact hs

/-- In every interleaving, every open batch of a worker has one source for each entry, the
pending count is the number of entries in the open batches, and a worker that waits for a
message with pending entries has its flush timer running, so that a flush of them all is
due; a worker that has left has none. -/
theorem run_pending {cfg : Config} {ls : List Label} {s : State} (h : run cfg ls = some s) {j : Nat} {w : Worker}
    (hw : s.workers[j]? = some w) :
    (∀ b ∈ w.batches, b.sources = b.entries.map fun it => it.msg.source) ∧
      w.pending = (w.batches.map fun b => b.entries.length).sum ∧
      (w.phase = .idle → 0 < w.pending → w.timerActive = true ∧ (step cfg s (.timer j)).isSome) ∧
      (w.phase = .exited → ∀ b ∈ w.batches, b.entries = []) := by
  have hsound := run_consistent h w (List.mem_of_getElem? hw)
  refine ⟨hsound.sources, hsound.pending, fun hidle hpos => ?_, fun hexited b hb => ?_⟩
  · have htimer := hsound.timer hidle hpos
    simp [step, hw, State.workerStep, hidle, htimer]
  · have hzero : w.openEntries = 0 := by rw [← hsound.pending, hsound.left hexited]
    exact List.length_eq_zero_iff.mp (List.sum_eq_zero_iff.mp hzero _ (List.mem_map_of_mem hb))

/-- Two messages of different tenants stay in two open batches. -/
def twoTenants : List Label :=
  [.enqueue ⟨[1], false, ⟨"a", "t"⟩⟩, .call 0, .call 0, .receive 0 1, .uncount 0, .release 0,
    .enqueue ⟨[2], false, ⟨"b", "u"⟩⟩, .call 0, .call 0, .receive 0 1, .uncount 0, .release 0]

theorem run_pending_twoTenants :
    ∃ s w, run tinyConfig twoTenants = some s ∧ s.workers[0]? = some w ∧ w.phase = .idle ∧ w.pending = 2 ∧
      w.batches.length = 2 ∧ (step tinyConfig s (.timer 0)).isSome :=
  ⟨_, _, rfl, rfl, rfl, rfl, rfl,
    ((@run_pending tinyConfig twoTenants _ rfl 0 _ rfl).2.2.1 rfl (by decide)).2⟩

end Syslogc.Pipeline
