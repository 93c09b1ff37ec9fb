-- SUMMARY: The byte budget in every interleaving.
import Syslogc.Pipeline.Shutdown

/-!
# The byte budget

A message holds tokens of the budget from the moment its producer has them until the
worker that processed it gives them back. The counter of queued bytes is raised after
the message is in the queue and lowered before its tokens are released, so it lags behind.
-/

namespace Syslogc.Pipeline

open Sums

/-! ## Who holds tokens -/

/-- The bytes a call has put into the queue and not counted yet. -/
def Caller.uncounted (c : Caller) : Nat :=
  match c.phase with
  | .counting => c.msg.weight
  | _ => 0

/-- The tokens of the message a worker is processing. -/
def WorkerPhase.held : WorkerPhase → Nat
  | .sending _ (.processed weight) | .uncounting weight | .releasing weight => weight
  | _ => 0

/-- The bytes of that message, until the counter is lowered. -/
def WorkerPhase.counted : WorkerPhase → Nat
  | .sending _ (.processed weight) | .uncounting weight => weight
  | _ => 0

def Item.weight (it : Item) : Nat := it.msg.weight
def Worker.held (w : Worker) : Nat := w.phase.held
def Worker.counted (w : Worker) : Nat := w.phase.counted

/-- The tokens of the messages that are being enqueued, queued or processed. -/
def State.tokens (s : State) : Nat :=
  total Caller.held s.callers + total Item.weight s.queue + total Worker.held s.workers

/-- What the counter is to be once every call has counted. -/
def State.countedBytes (s : State) : Nat := total Item.weight s.queue + total Worker.counted s.workers

def State.uncounted (s : State) : Nat := total Caller.uncounted s.callers

structure Balanced (cfg : Config) (s : State) : Prop where
  budget : s.budget = s.tokens
  bound : s.budget ≤ cfg.queueMaxBytes
  counter : s.queueBytes + s.uncounted = s.countedBytes

theorem State.start_balanced (cfg : Config) : Balanced cfg (State.start cfg) := by
  have hheld : total Worker.held (List.replicate cfg.workers {}) = 0 :=
    total_replicate_zero (by rfl) _
  have hcounted : total Worker.counted (List.replicate cfg.workers {}) = 0 :=
    total_replicate_zero (by rfl) _
  refine ⟨?_, Nat.zero_le _, ?_⟩
  · simp [State.start, State.tokens, hheld]
  · simp [State.start, State.uncounted, State.countedBytes, hcounted]

/-! ## Steps -/

variable {cfg : Config} {s s' : State}

/-- A step that leaves both accounts and everything they sum up alone. -/
theorem Balanced.of_eq (hs : Balanced cfg s) (hbudget : s'.budget = s.budget)
    (hbytes : s'.queueBytes = s.queueBytes) (hcallers : s'.callers = s.callers) (hqueue : s'.queue = s.queue)
    (hheld : total Worker.held s'.workers = total Worker.held s.workers)
    (hcounted : total Worker.counted s'.workers = total Worker.counted s.workers) : Balanced cfg s' := by
  obtain ⟨h₁, h₂, h₃⟩ := hs
  refine ⟨?_, by rwa [hbudget], ?_⟩
  · rw [hbudget, h₁, State.tokens, State.tokens, hcallers, hqueue, hheld]
  · rw [hbytes, State.uncounted, State.countedBytes, hcallers, hqueue, hcounted]
    exact h₃

/-- A step of a producer moves tokens between the calls, the queue and the budget. -/
theorem Balanced.adjust (hs : Balanced cfg s) (hworkers : s'.workers = s.workers)
    (hbound : s'.budget ≤ cfg.queueMaxBytes)
    (hbudget : s'.budget + (total Caller.held s.callers + total Item.weight s.queue) =
      s.budget + (total Caller.held s'.callers + total Item.weight s'.queue))
    (hbytes : s'.queueBytes + total Caller.uncounted s'.callers + total Item.weight s.queue =
      s.queueBytes + total Caller.uncounted s.callers + total Item.weight s'.queue) : Balanced cfg s' := by
  obtain ⟨h₁, h₂, h₃⟩ := hs
  simp only [State.tokens, State.uncounted, State.countedBytes] at h₁ h₃
  refine ⟨?_, hbound, ?_⟩
  · rw [State.tokens, hworkers]
    omega
  · rw [State.uncounted, State.countedBytes, hworkers]
    omega

/-- A call holds no more than the budget. -/
theorem Balanced.held_le {i : Nat} {c : Caller} (hs : Balanced cfg s) (hc : s.callers[i]? = some c) :
    c.held ≤ s.budget := by
  have h := total_eraseIdx Caller.held hc
  rw [hs.budget, State.tokens]
  omega

theorem Balanced.call (hs : Balanced cfg s) (h : Calls cfg s s') : Balanced cfg s' := by
  have hbound := hs.bound
  cases h with
  | refused => exact hs.of_eq rfl rfl rfl rfl rfl rfl
  | @admitted c _ hphase hroom =>
    obtain ⟨msg, phase⟩ := c
    refine hs.adjust rfl hroom ?_ ?_ <;> obtain rfl | rfl := hphase <;>
    simp only [total_append, total_cons, total_nil, Caller.held, Caller.uncounted] <;> omega
  | waits => refine hs.adjust rfl hbound ?_ ?_ <;> simp [Caller.held, Caller.uncounted]
  | @sent i c hc hphase =>
    obtain ⟨msg, phase⟩ := c
    have hheld := total_set Caller.held hc ⟨msg, .counting⟩
    have huncounted := total_set Caller.uncounted hc ⟨msg, .counting⟩
    obtain rfl | rfl | rfl := hphase <;> simp only [Caller.held, Caller.uncounted] at hheld huncounted <;>
    refine hs.adjust rfl hbound ?_ ?_ <;>
    simp only [State.accept, total_append, total_cons, total_nil, Item.weight] <;> omega
  | @refunded i c hc hphase =>
    obtain ⟨msg, phase⟩ := c
    obtain rfl := hphase
    have hle : msg.weight ≤ s.budget := hs.held_le hc
    have hheld := total_set Caller.held hc ⟨msg, .waiting⟩
    have huncounted := total_set Caller.uncounted hc ⟨msg, .waiting⟩
    simp only [Caller.held, Caller.uncounted] at hheld huncounted
    refine hs.adjust rfl ?_ ?_ ?_ <;> dsimp only <;> omega
  | @acquired i c hc hphase hroom =>
    obtain ⟨msg, phase⟩ := c
    obtain rfl := hphase
    have hheld := total_set Caller.held hc ⟨msg, .sending⟩
    have huncounted := total_set Caller.uncounted hc ⟨msg, .sending⟩
    simp only [Caller.held, Caller.uncounted] at hheld huncounted
    refine hs.adjust rfl hroom ?_ ?_ <;> dsimp only <;> omega
  | @counted i c hc hphase =>
    obtain ⟨msg, phase⟩ := c
    obtain rfl := hphase
    have hheld := total_eraseIdx Caller.held hc
    have huncounted := total_eraseIdx Caller.uncounted hc
    simp only [Caller.held, Caller.uncounted] at hheld huncounted
    refine hs.adjust rfl hbound ?_ ?_ <;> dsimp only <;> omega
  | @left i c _ hc hphase =>
    have hle := hs.held_le hc
    have hnone : c.uncounted = 0 := by
      unfold Caller.uncounted
      split
      · exact absurd ‹_› hphase
      · rfl
    have hheld := total_eraseIdx Caller.held hc
    have huncounted := total_eraseIdx Caller.uncounted hc
    refine hs.adjust rfl ?_ ?_ ?_ <;> dsimp only <;> omega

variable {j : Nat} {w w' : Worker}

/-- A worker goes on, with what it takes from the queue or gives back. -/
theorem Balanced.setWorker (hs : Balanced cfg s) (hw : s.workers[j]? = some w) {budget : Nat} {queueBytes : Int}
    {queue : List Item}
    (hbudget : budget + total Item.weight s.queue + w.held = s.budget + total Item.weight queue + w'.held)
    (hbound : budget ≤ s.budget)
    (hbytes : queueBytes + total Item.weight s.queue + w.counted =
      s.queueBytes + total Item.weight queue + w'.counted) :
    Balanced cfg ({ s with budget, queueBytes, queue }.setWorker j w') := by
  have h := total_set Worker.held hw w'
  have h' := total_set Worker.counted hw w'
  obtain ⟨h₁, h₂, h₃⟩ := hs
  refine ⟨?_, hbound.trans h₂, ?_⟩
  · simp only [State.tokens, State.setWorker] at h₁ ⊢
    omega
  · simp only [State.uncounted, State.countedBytes, State.setWorker] at h₃ ⊢
    omega

/-- A worker goes on with the same message, or with none as before. -/
theorem Balanced.setWorker_same (hs : Balanced cfg s) (hw : s.workers[j]? = some w) (hheld : w'.held = w.held)
    (hcounted : w'.counted = w.counted) : Balanced cfg (s.setWorker j w') :=
  hs.setWorker hw (by rw [hheld]) le_rfl (by rw [hcounted])

theorem AfterSend.phase_held (next : AfterSend) (b : ItemBatch) :
    next.phase.held = (WorkerPhase.sending b next).held ∧
      next.phase.counted = (WorkerPhase.sending b next).counted := by
  cases next <;> exact ⟨rfl, rfl⟩

theorem Worker.process_held (cfg : Config) (w : Worker) (it : Item) (size : Nat) :
    (w.process cfg it size).held = it.weight ∧ (w.process cfg it size).counted = it.weight := by
  obtain hp | ⟨b, hp, -⟩ := w.process_phase cfg it size <;>
  simp only [Worker.held, Worker.counted, hp] <;> exact ⟨rfl, rfl⟩

theorem Worker.held_le (hs : Balanced cfg s) (hw : s.workers[j]? = some w) : w.held ≤ s.budget := by
  have h := total_eraseIdx Worker.held hw
  rw [hs.budget, State.tokens]
  omega

theorem Balanced.work (hs : Balanced cfg s) (hw : s.workers[j]? = some w) (h : Works cfg s w s' w') :
    Balanced cfg (s'.setWorker j w') := by
  cases h with
  | @receive it queue size hphase hqueue =>
    obtain ⟨hheld, hcounted⟩ := w.process_held cfg it size
    have hidle : w.held = 0 ∧ w.counted = 0 := by
      simp only [Worker.held, Worker.counted, hphase]
      exact ⟨rfl, rfl⟩
    refine hs.setWorker hw ?_ le_rfl ?_
    · rw [hheld, hidle.1, hqueue, total_cons]
      omega
    · rw [hcounted, hidle.2, hqueue, total_cons]
      push_cast
      omega
  | @send b next hphase =>
    have hsame := next.phase_held b
    have hset : Balanced cfg (s.setWorker j { w with phase := next.phase }) := hs.setWorker_same hw
      (by rw [Worker.held, Worker.held, hphase]; exact hsame.1)
      (by rw [Worker.counted, Worker.counted, hphase]; exact hsame.2)
    exact hset.of_eq rfl rfl rfl rfl rfl rfl
  | uncount hphase =>
    refine hs.setWorker hw ?_ le_rfl ?_
    · simp only [Worker.held, hphase, WorkerPhase.held]
    · simp only [Worker.counted, hphase, WorkerPhase.counted]
      omega
  | release hphase =>
    have hle := Worker.held_le hs hw
    simp only [Worker.held, hphase, WorkerPhase.held] at hle
    refine hs.setWorker hw ?_ (Nat.sub_le _ _) ?_
    · simp only [Worker.held, hphase, WorkerPhase.held]
      omega
    · simp only [Worker.counted, hphase, WorkerPhase.counted]
  | timer hphase | drain hphase =>
    exact hs.setWorker_same hw (by simp only [Worker.held, hphase, WorkerPhase.held])
      (by simp only [Worker.counted, hphase, WorkerPhase.counted])
  | flush hphase hflush =>
    obtain ⟨b, -, -, rfl⟩ := Worker.flush_eq hflush
    exact hs.setWorker_same hw (by simp only [Worker.held, hphase, WorkerPhase.held])
      (by simp only [Worker.counted, hphase, WorkerPhase.counted])
  | @flushed exit hphase =>
    refine hs.setWorker_same hw ?_ ?_
    · cases exit <;> simp [Worker.held, hphase, WorkerPhase.held]
    · cases exit <;> simp [Worker.counted, hphase, WorkerPhase.counted]

theorem Balanced.moves (hs : Balanced cfg s) (h : Moves cfg s s') : Balanced cfg s' := by
  cases h with
  | call h => exact hs.call h
  | work hw h => exact hs.work hw h
  | write hw h =>
    obtain ⟨batches, stored, dropped, rfl, -⟩ := h.move
    exact hs.of_eq rfl rfl rfl rfl rfl rfl
  | close h =>
    obtain ⟨closed, closing, batchesClosed, ioCancelled, rfl⟩ := State.closeStep_flags h
    exact hs.of_eq rfl rfl rfl rfl rfl rfl

theorem run_balanced {ls : List Label} (h : run cfg ls = some s) : Balanced cfg s :=
  run_invariant (State.start_balanced cfg) (fun _ _ hs hmoves => hs.moves hmoves) h

/-! ## What follows in every state -/

theorem WorkerPhase.counted_le_held (p : WorkerPhase) : p.counted ≤ p.held := by
  cases p with
  | sending b next => cases next <;> simp [counted, held]
  | uncounting weight => exact le_rfl
  | releasing weight => exact Nat.zero_le _
  | _ => exact le_rfl

theorem total_counted_le_held (ws : List Worker) : total Worker.counted ws ≤ total Worker.held ws := by
  induction ws with
  | nil => exact le_rfl
  | cons w ws ih =>
    rw [total_cons, total_cons]
    exact Nat.add_le_add w.phase.counted_le_held ih

theorem Balanced.queueBytes_le (hs : Balanced cfg s) : s.queueBytes ≤ s.budget := by
  have hle := total_counted_le_held s.workers
  obtain ⟨h₁, -, h₃⟩ := hs
  simp only [State.tokens, State.uncounted, State.countedBytes] at h₁ h₃
  omega

/-- No call runs, nothing is queued, and no worker has a message. -/
def State.Idle (s : State) : Prop := s.callers = [] ∧ s.queue = [] ∧ ∀ w ∈ s.workers, w.held = 0

theorem Balanced.of_idle (hs : Balanced cfg s) (hidle : s.Idle) : s.budget = 0 ∧ s.queueBytes = 0 := by
  obtain ⟨hcallers, hqueue, hworkers⟩ := hidle
  have hheld : total Worker.held s.workers = 0 := total_eq_zero hworkers
  have hcounted := total_counted_le_held s.workers
  obtain ⟨h₁, -, h₃⟩ := hs
  simp only [State.tokens, State.uncounted, State.countedBytes, hcallers, hqueue, total_nil] at h₁ h₃
  omega

/-- A call fails by a step to `s'`: its message is not put into the queue, and it is refused
at once or ends. The number is what it holds until then. -/
inductive Fails (cfg : Config) (s s' : State) (l : Label) : Nat → Prop
  | refused (hl : l.ofProducer) (h : step cfg s l = some s') (haccepted : s'.accepted = s.accepted)
      (hcallers : s'.callers = s.callers) : Fails cfg s s' l 0
  | ended {i : Nat} {c : Caller} (hl : l.ofProducer) (h : step cfg s l = some s')
      (haccepted : s'.accepted = s.accepted) (hc : s.callers[i]? = some c)
      (hcallers : s'.callers = s.callers.eraseIdx i) : Fails cfg s s' l c.held

/-- A step of a producer leaves the workers alone, and the queue unless it puts a message
into it. -/
theorem Calls.quiet (h : Calls cfg s s') (haccepted : s'.accepted = s.accepted) :
    s'.queue = s.queue ∧ s'.workers = s.workers := by
  cases h with
  | sent => simp [State.accept] at haccepted
  | _ => exact ⟨rfl, rfl⟩

/-- A call that fails gives back what it holds. -/
theorem Balanced.fails {l : Label} {held : Nat} (hs : Balanced cfg s) (h : Fails cfg s s' l held) :
    s'.budget + held = s.budget := by
  cases h with
  | refused hl h haccepted hcallers =>
    obtain ⟨hqueue, hworkers⟩ := (step_calls hl h).quiet haccepted
    rw [(hs.moves (step_moves h)).budget, hs.budget, State.tokens, State.tokens, hqueue, hworkers, hcallers,
      Nat.add_zero]
  | ended hl h haccepted hc hcallers =>
    obtain ⟨hqueue, hworkers⟩ := (step_calls hl h).quiet haccepted
    have herase := total_eraseIdx Caller.held hc
    rw [(hs.moves (step_moves h)).budget, hs.budget, State.tokens, State.tokens, hqueue, hworkers, hcallers]
    omega

/-- In every interleaving the tokens that are taken are those of the messages being
enqueued, queued or processed, and never more than there are; the counter never exceeds
them; a call that fails gives back what it holds; and with no message in flight both
accounts are zero. -/
theorem run_budget {ls : List Label} (h : run cfg ls = some s) :
    s.budget = total Caller.held s.callers + total Item.weight s.queue + total Worker.held s.workers ∧
      s.budget ≤ cfg.queueMaxBytes ∧ s.queueBytes ≤ s.budget ∧
      (∀ l s' held, Fails cfg s s' l held → s'.budget + held = s.budget) ∧
      (s.Idle → s.budget = 0 ∧ s.queueBytes = 0) :=
  have hs := run_balanced h
  ⟨hs.budget, hs.bound, hs.queueBytes_le, fun _ _ _ hfails => hs.fails hfails, hs.of_idle⟩

/-- A message is processed before its producer counts it. -/
def overtaken (msg : RawMessage) : List Label :=
  [.enqueue msg, .call 0, .receive 0 1, .uncount 0, .release 0, .call 0]

theorem run_budget_overtaken :
    ∃ s, run tinyConfig (overtaken ⟨[1], false, ⟨"a", "t"⟩⟩) = some s ∧ s.Idle ∧
      s.budget = 0 ∧ s.queueBytes = 0 := by
  obtain ⟨s, h, hidle⟩ : ∃ s, run tinyConfig (overtaken ⟨[1], false, ⟨"a", "t"⟩⟩) = some s ∧ s.Idle := by
    refine ⟨_, rfl, rfl, rfl, fun w hw => ?_⟩
    obtain rfl := List.mem_singleton.mp hw
    rfl
  exact ⟨s, h, hidle, (run_budget h).2.2.2.2 hidle⟩

/-- Once `Close` has returned, every token is given back and the counter is zero. -/
theorem run_returned_budget {ls : List Label} (h : run cfg ls = some s) (hreturned : s.closing = .returned) :
    s.budget = 0 ∧ s.queueBytes = 0 := by
  have hs := run_orderly h
  have hexited := fun w hw => Worker.isExited_iff.mp ((hs.returned hreturned).1 w hw)
  obtain ⟨w, hw⟩ := List.exists_mem_of_ne_nil _ hs.staffed.1
  obtain ⟨hclosed, hqueue⟩ := hs.leaving w hw (by rw [hexited w hw]; rfl)
  refine (run_balanced h).of_idle ⟨hs.callers hclosed, hqueue, fun u hu => ?_⟩
  rw [Worker.held, hexited u hu]
  rfl

theorem run_returned_budget_splitAndClose :
    ∃ s, run tinyConfig (splitAndClose ⟨[1], false, ⟨"a", "t"⟩⟩ ⟨[2], true, ⟨"b", "t"⟩⟩) = some s ∧ s.budget = 0 :=
  ⟨_, rfl,
    (@run_returned_budget tinyConfig _ (splitAndClose ⟨[1], false, ⟨"a", "t"⟩⟩ ⟨[2], true, ⟨"b", "t"⟩⟩) rfl rfl).1⟩

end Syslogc.Pipeline
