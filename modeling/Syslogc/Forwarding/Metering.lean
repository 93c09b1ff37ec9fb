-- SUMMARY: How much waits in a forwarder, against its counters.
import Syslogc.Forwarding.Accounting

/-!
# What waits in a forwarder

An entry waits while it is in the queue, with a sender, or in a batch whose `write` has
not returned. The two counters lag behind by the groups that are in the queue and not yet
counted. That is all `Metered` says, and it holds in every run.
-/

namespace Syslogc.Forwarding

open Sums Storage

variable {κ : Type}

/-! ## What waits -/

/-- How many copies there are, and their size. -/
def load (m : Multiset Copy) : Int × Int := (m.map fun c => ((1 : Int), (c.entry.size : Int))).sum

@[simp] theorem load_add (m m' : Multiset Copy) : load (m + m') = load m + load m' := by
  simp [load]

theorem load_nonneg (m : Multiset Copy) : 0 ≤ load m := by
  apply Multiset.sum_nonneg
  intro n hn
  obtain ⟨c, -, rfl⟩ := Multiset.mem_map.mp hn
  exact ⟨zero_le_one, Int.natCast_nonneg _⟩

theorem load_coe (g : List Copy) : load g = ((g.length : Int), (groupSize g : Int)) := by
  induction g with
  | nil => rfl
  | cons c g ih =>
    have hcons : load (c :: g : List Copy) = (1, (c.entry.size : Int)) + load g := by simp [load]
    rw [hcons, ih]
    simp [groupSize, add_comm]

/-- What `write` has dealt with and not yet taken off the counters. -/
def SenderPhase.owed : SenderPhase → Int × Int
  | .uncounting rows size _ => (rows, size)
  | .uncountingBytes size _ => (0, size)
  | .selecting | .writing _ | .backingOff _ | .exited => 0

def Sender.load (w : Sender) : Int × Int := Forwarding.load w.items + w.phase.owed

namespace Forwarder

/-- What waits in the forwarder: how many entries, and their size. -/
def waiting (f : Forwarder κ) : Int × Int := load f.queue.flatten + total Sender.load f.senders

/-- The two counters. -/
def reading (f : Forwarder κ) : Int × Int := (f.queued, f.bytes)

/-- So much may wait: the limit of bytes counts only if it is set. -/
def Within (f : Forwarder κ) (n : Int × Int) : Prop :=
  n.1 ≤ f.opts.queueMaxMessages ∧ (0 < f.opts.queueMaxBytes → n.2 ≤ f.opts.queueMaxBytes)

instance Within.decidable (f : Forwarder κ) (n : Int × Int) : Decidable (f.Within n) :=
  inferInstanceAs (Decidable (_ ∧ (_ → _)))

theorem Within.mono {f f' : Forwarder κ} {n n' : Int × Int} (h : f.Within n) (hopts : f'.opts = f.opts)
    (hle : n' ≤ n) : f'.Within n' := by
  rw [Within, hopts]
  exact ⟨hle.1.trans h.1, fun hpos => hle.2.trans (h.2 hpos)⟩

theorem setSender_waiting {f : Forwarder κ} {k : Nat} {w w' : Sender} (hw : f.senders[k]? = some w) :
    (f.setSender k w').waiting + w.load = f.waiting + w'.load := by
  simp only [waiting, setSender, add_assoc, total_set Sender.load hw w']

theorem setSender_waiting_same {f : Forwarder κ} {k : Nat} {w w' : Sender} (hw : f.senders[k]? = some w)
    (h : w'.load = w.load) : (f.setSender k w').waiting = f.waiting := by
  have hset : (f.setSender k w').waiting + w.load = f.waiting + w'.load := setSender_waiting hw
  rw [h] at hset
  exact add_right_cancel hset

end Forwarder

/-! ## Senders -/

theorem Sender.addEntries_owed (o : Options κ) (w : Sender) (g : List Copy) : (w.addEntries o g).phase.owed = 0 := by
  induction g generalizing w with
  | nil => rfl
  | cons c g ih =>
    rw [Sender.addEntries]
    split
    · rfl
    · exact ih _

theorem Sender.receive_load (o : Options κ) (w : Sender) (g : List Copy) :
    (w.receive o g).load = Forwarding.load w.pending + Forwarding.load g := by
  have howed : (w.receive o g).phase.owed = 0 := by
    unfold Sender.receive
    split
    · rfl
    · exact Sender.addEntries_owed o _ g
  rw [Sender.load, howed, w.receive_items, load_add, add_zero]

theorem Sender.goOn_owed (o : Options κ) (w : Sender) (next : AfterFlush) : (w.goOn o next).phase.owed = 0 := by
  cases next with
  | group g => exact Sender.addEntries_owed o _ g
  | rest g => exact w.addEntries_owed o g
  | select => rfl
  | exit => rfl

theorem Sender.goOn_load (o : Options κ) (w : Sender) (next : AfterFlush) :
    (w.goOn o next).load = Forwarding.load w.pending + Forwarding.load next.items := by
  rw [Sender.load, w.goOn_owed, w.goOn_items, load_add, add_zero]

theorem Sender.flush_load (o : Options κ) (w : Sender) (next : AfterFlush) :
    (w.flush o next).load = Forwarding.load w.pending + Forwarding.load next.items := by
  have howed : (w.flush o next).phase.owed = 0 := by
    unfold Sender.flush
    split
    · exact w.goOn_owed o next
    · rfl
  rw [Sender.load, howed, w.flush_items, load_add, add_zero]

theorem Sender.load_selecting {w : Sender} (h : w.phase = .selecting) : w.load = Forwarding.load w.pending := by
  rw [Sender.load, Sender.items, h]
  exact (add_zero _).trans (congrArg Forwarding.load (add_zero _))

section

variable {f f' : Forwarder κ} {k : Nat} {w : Sender} {next : AfterFlush}

theorem Sender.load_of_writing {phase : SenderPhase} (hphase : w.phase.items = next.items) (howed : w.phase.owed = 0)
    (hphase' : phase.items = next.items) (howed' : phase.owed = 0) : Sender.load { w with phase } = w.load := by
  simp only [Sender.load, Sender.items, hphase, howed, hphase', howed']

/-- A batch that was dealt with waits until `write` has taken it off the counters. -/
theorem Forwarder.written_waiting (hw : f.senders[k]? = some w)
    (hphase : w.phase = .writing next ∨ w.phase = .backingOff next) :
    (f.written k w next).waiting = f.waiting := by
  have hbefore : w.load = load w.pending + load next.items := by
    rw [Sender.load, Sender.items, load_add]
    obtain hphase | hphase := hphase <;> rw [hphase] <;> exact add_zero _
  refine Forwarder.setSender_waiting_same hw ?_
  change load (([] : List Copy) + next.items) + ((w.pending.length : Int), (groupSize w.pending : Int)) = w.load
  rw [hbefore, ← load_coe, add_comm]
  simp

/-- What a sender takes off the counters no longer waits. -/
theorem Sends.loses (h : Sends f k w f') (hw : f.senders[k]? = some w) :
    ∃ n, 0 ≤ n ∧ f.waiting = f'.waiting + n ∧ f.reading = f'.reading + n := by
  have hsame {g : Forwarder κ} (hwaiting : g.waiting = f.waiting) (hreading : g.reading = f.reading) :
      ∃ n, 0 ≤ n ∧ f.waiting = g.waiting + n ∧ f.reading = g.reading + n :=
    ⟨0, le_rfl, by rw [hwaiting, add_zero], by rw [hreading, add_zero]⟩
  cases h with
  | @receive g queue hphase hqueue =>
    have hload : (w.receive f.opts g).load = w.load + load g := by
      rw [w.receive_load, Sender.load_selecting hphase]
    refine hsame ?_ rfl
    simp only [Forwarder.waiting, Forwarder.setSender, total_set_gain hw hload, hqueue, List.flatten_cons,
      ← Multiset.coe_add, load_add]
    abel
  | timer hphase | drained hphase =>
    refine hsame (Forwarder.setSender_waiting_same hw ?_) rfl
    rw [w.flush_load, Sender.load_selecting hphase]
    exact add_zero _
  | sent hphase =>
    exact hsame (Forwarder.written_waiting (f := { f with sent := f.sent ++ w.pending }) hw (.inl hphase)) rfl
  | dropped _ hphase => exact hsame (Forwarder.written_waiting (f := f.drop _ w.pending) hw hphase) rfl
  | backOff hphase | retry hphase =>
    exact hsame (Forwarder.setSender_waiting_same hw
      (Sender.load_of_writing (by rw [hphase]; rfl) (by rw [hphase]; rfl) rfl rfl)) rfl
  | @uncount rows size next hphase =>
    have hload : w.load = Sender.load { w with phase := .uncountingBytes size next } + ((rows : Int), 0) := by
      rw [Sender.load, Sender.load, Sender.items, Sender.items, hphase]
      ext <;> simp [SenderPhase.items, SenderPhase.owed]
    refine ⟨((rows : Int), 0), ⟨Int.natCast_nonneg _, le_rfl⟩, ?_,
      by ext <;> simp [Forwarder.reading, Forwarder.setSender]⟩
    simp only [Forwarder.waiting, Forwarder.setSender, total_set_lose hw hload, add_assoc]
  | @uncountBytes size next hphase =>
    have hload : w.load = (w.goOn f.opts next).load + (0, (size : Int)) := by
      rw [w.goOn_load, Sender.load, Sender.items, hphase, load_add]
      rfl
    refine ⟨(0, (size : Int)), ⟨le_rfl, Int.natCast_nonneg _⟩, ?_,
      by ext <;> simp [Forwarder.reading, Forwarder.setSender]⟩
    simp only [Forwarder.waiting, Forwarder.setSender, total_set_lose hw hload, add_assoc]

theorem Sends.waiting_le (h : Sends f k w f') (hw : f.senders[k]? = some w) : f'.waiting ≤ f.waiting := by
  obtain ⟨n, hn, hwaiting, -⟩ := h.loses hw
  rw [hwaiting]
  exact le_add_of_nonneg_right hn

end

/-! ## Calls -/

/-- What is in the queue and not yet on the counters. -/
def CallPhase.uncounted : CallPhase → Int × Int
  | .counting out => (out.length, groupSize out)
  | .countingBytes out => (0, groupSize out)
  | .entering | .checking _ | .checkingBytes _ | .sending _ => 0

def Call.uncounted (id : Nat) (c : Call) : Int × Int := if c.todo.head? = some id then c.phase.uncounted else 0

/-- What waits in a forwarder is on its counters, but for the groups that a call has sent
and not yet counted. -/
def Metered (s : State κ) : Prop := Ledger Forwarder.waiting Forwarder.reading Call.uncounted s

theorem Forwarder.start_waiting (f : Forwarder κ) (n : Nat) :
    (Nat.repeat Forwarder.start n f).waiting = f.waiting := by
  have hnew : total Sender.load (List.replicate n {}) = 0 :=
    total_replicate_zero (by rw [Sender.load_selecting rfl]; rfl) n
  rw [Forwarder.repeat_start]
  simp only [Forwarder.waiting, total_append, hnew, add_zero]

theorem State.build_waiting (s : State κ) (t : Target κ) : (s.build t).waiting = 0 := by
  unfold State.build
  split
  · exact Forwarder.start_waiting (Forwarder.new t.options) 1
  · rfl

theorem State.build_reading (s : State κ) (t : Target κ) : (s.build t).reading = 0 := by
  unfold State.build
  split <;> rfl

theorem books_metered : Books (κ := κ) Forwarder.waiting Forwarder.reading CallPhase.uncounted where
  entering := rfl
  build s t := by rw [s.build_waiting, s.build_reading]
  sends hw h := by
    obtain ⟨n, -, hwaiting, hreading⟩ := h.loses hw
    rw [hwaiting, hreading, add_right_comm, add_assoc]
  started f n := by rw [f.start_waiting, Forwarder.repeat_start]; rfl
  flags f closed stopped := ⟨rfl, rfl⟩

/-- A group in the queue waits. -/
theorem Forwarder.send_waiting (f : Forwarder κ) (out : List Copy) :
    Forwarder.waiting { f with queue := f.queue ++ [out] } = f.waiting + load out := by
  simp only [Forwarder.waiting, List.flatten_append, List.flatten_singleton, ← Multiset.coe_add, load_add]
  abel

section

variable {s s' : State κ} {i id : Nat} {c c' : Call} {f f' : Forwarder κ} {todo : List Nat} {l : Label κ}

theorem Call.uncounted_self (h : c.todo = id :: todo) : c.uncounted id = c.phase.uncounted := by
  simp [Call.uncounted, h]

theorem Refused.uncounted {out : List Copy} {phase : CallPhase} (h : Refused f out phase) :
    phase.uncounted = 0 := by
  cases h <;> rfl

theorem Metered.visit (hs : Metered s) (hc : s.calls[i]? = some c) (htodo : c.todo = id :: todo)
    (hf : s.forwarders[id]? = some f) (h : Visits c f f' c') : Metered (s.act id f' i c') := by
  refine (Ledger.visit_iff rfl hs hc htodo hf h).mpr ?_
  cases h with
  | skip hphase | enter hphase | passCount hphase | passBytes hphase => rw [hphase]; rfl
  | refuse h => rw [h.uncounted]; rfl
  | send hphase =>
    rw [hphase, f.send_waiting, load_coe]
    simp only [CallPhase.uncounted, add_zero]
    exact add_right_comm _ _ _ |>.trans (add_assoc _ _ _)
  | count hphase | countBytes hphase =>
    rw [hphase]
    change f.waiting + _ = f.waiting + _
    congr 1
    ext <;> simp [Forwarder.reading, CallPhase.uncounted, Call.next]

theorem Metered.step [DecidableEq κ] (hs : Metered s) (hsound : Sound s) (h : step s l = some s') :
    Metered s' :=
  Ledger.step books_metered hs hsound (step_moves h) fun _ _ _ _ _ _ _ _ hc htodo hf h =>
    hs.visit hc htodo hf h

end

end Syslogc.Forwarding
