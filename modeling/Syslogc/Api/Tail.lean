-- SUMMARY: Live tail: reader, channel and sender, and the rows lost between.
import Syslogc.Lib.Transition
import Syslogc.Query.Rows
import Syslogc.Storage.Queries

/-!
# Live tail

One goroutine reads rows off the log store and puts them into a channel of
`tailClientBuffer` places; a row that finds it full is dropped and counted. The handler
takes rows out of the channel, sends them in batches, and sends the count of dropped rows
every now and then. It selects among what is ready: nothing says that the channel is
empty when it learns that the reader is done.

Every row that is read carries its number in the stream. The numbers are not in the code;
they say which rows a batch and a count are about.
-/

namespace Syslogc.Api

open Syslogc.Query (GoTime LogRow shapeRow)
open Syslogc.VictoriaLogs (Failure Rows)

namespace Tail

def tailMaxBatch : Nat := 500

def tailClientBuffer : Nat := 5000

/-- A row with its number in the stream. -/
abbrev Numbered := Nat × LogRow

/-- What the client is sent. -/
inductive Event
  | logs (rows : List Numbered)
  | stats (rowsSent dropped : Nat)
  | heartbeat
  | error (e : Failure)

/-- Why the handler returned. -/
inductive End
  | contextDone
  | deadline
  | streamEnded
  | writeFailed
deriving DecidableEq, Repr

structure State where
  /-- What the log store delivers. -/
  stream : Rows
  /-- How many rows were read. -/
  read : Nat := 0
  channel : List Numbered := []
  /-- The numbers of the rows that were dropped; the counter is their number. -/
  dropped : List Nat := []
  readerDone : Bool := false
  batch : List Numbered := []
  sent : Nat := 0
  out : List Event := []
  /-- The rows of a batch that could not be written. -/
  unwritten : List Numbered := []
  ended : Option End := none

/-- What happens next: a step of the reader, or what the loop selects. A flag says whether
what is written then is written. -/
inductive Step
  | read
  | readerDone
  | contextDone
  | deadline (ok : Bool)
  | streamEnded (ok reports : Bool)
  | row (ok : Bool)
  | flush (ok : Bool)
  | heartbeat (ok : Bool)
  | stats (ok : Bool)
deriving DecidableEq, Repr

variable (gt : GoTime) (canViewRaw : Bool)

/-- The reader takes the next row. -/
def State.readRow (st : State) : Option State :=
  if st.readerDone then none
  else (st.stream.rows[st.read]?).map fun row =>
    if st.channel.length < tailClientBuffer then
      { st with read := st.read + 1, channel := st.channel ++ [(st.read, shapeRow gt canViewRaw row)] }
    else { st with read := st.read + 1, dropped := st.dropped ++ [st.read] }

/-- `emit`: send the batch, unless it is empty. -/
def State.emit (ok : Bool) (st : State) : State × Bool :=
  if st.batch = [] then (st, true)
  else
    let sent := st.sent + st.batch.length
    if ok then ({ st with sent, batch := [], out := st.out ++ [.logs st.batch] }, true)
    else ({ st with sent, batch := [], unwritten := st.batch }, false)

def State.finish (st : State) (e : End) : State := { st with ended := some e }

/-- Go on, unless the write failed. -/
def orEnd (r : State × Bool) : State := if r.2 then r.1 else r.1.finish .writeFailed

/-- Write one event. -/
def State.send (st : State) (ok : Bool) (e : Event) : State × Bool :=
  if ok then ({ st with out := st.out ++ [e] }, true) else (st, false)

/-- What the loop does with what it selected. -/
def State.select (st : State) : Step → Option State
  | .contextDone => some (st.finish .contextDone)
  | .deadline ok => some ((st.emit ok).1.finish .deadline)
  | .streamEnded ok reports =>
    if st.readerDone then
      let st := (st.emit ok).1
      match st.stream.err with
      | some e => some ((st.send reports (.error e)).1.finish .streamEnded)
      | none => some (st.finish .streamEnded)
    else none
  | .row ok =>
    match st.channel with
    | [] => none
    | row :: rest =>
      let st := { st with channel := rest, batch := st.batch ++ [row] }
      if tailMaxBatch ≤ st.batch.length then some (orEnd (st.emit ok)) else some st
  | .flush ok => some (orEnd (st.emit ok))
  | .heartbeat ok => some (orEnd (st.send ok .heartbeat))
  | .stats ok => some (orEnd (st.send ok (.stats st.sent st.dropped.length)))
  | _ => none

def step (st : State) : Step → Option State
  | .read => st.readRow gt canViewRaw
  | .readerDone =>
    if st.readerDone ∨ st.stream.rows.length ≠ st.read then none else some { st with readerDone := true }
  | l => if st.ended = none then st.select l else none

/-! ## What the client got -/

/-- The rows that the client was sent. -/
def sentRows (out : List Event) : List Numbered :=
  out.flatMap fun e => match e with
    | .logs rows => rows
    | _ => []

/-- The count of dropped rows that the client was told last. -/
def reported (out : List Event) : Nat :=
  out.foldl (fun n e => match e with
    | .stats _ dropped => dropped
    | _ => n) 0

/-- Every row that was read was sent, or it was dropped and is in the count the client was
told; no row was both, and the rows were sent in order. -/
structure State.Accounted (st : State) : Prop where
  ordered : ((sentRows st.out).map (·.1)).Pairwise (· < ·)
  rows : ∀ e ∈ sentRows st.out, (st.stream.rows[e.1]?).map (shapeRow gt canViewRaw) = some e.2
  covered : ∀ i < st.read,
    i ∈ (sentRows st.out).map (·.1) ∨ i ∈ st.dropped.take (reported st.out)
  once : ∀ i ∈ (sentRows st.out).map (·.1), i ∉ st.dropped

/-! ## The loop -/

/-- The rows that were not dropped, from the first that was sent to the last in the
channel. -/
def State.kept (st : State) : List Numbered := sentRows st.out ++ st.unwritten ++ st.batch ++ st.channel

@[simp] theorem sentRows_append (out out' : List Event) : sentRows (out ++ out') = sentRows out ++ sentRows out' :=
  List.flatMap_append

@[simp] theorem sentRows_logs (rows : List Numbered) : sentRows [.logs rows] = rows := by
  simp [sentRows]

@[simp] theorem reported_logs (out : List Event) (rows : List Numbered) :
    reported (out ++ [.logs rows]) = reported out := by
  simp [reported]

/-- What the loop leaves as it is. The count that the client was told is as before, or the
present one. -/
structure Keeps (st st' : State) : Prop where
  stream : st'.stream = st.stream
  read : st'.read = st.read
  dropped : st'.dropped = st.dropped
  kept : st'.kept = st.kept
  told : reported st'.out = reported st.out ∨ reported st'.out = st.dropped.length

theorem Keeps.refl (st : State) : Keeps st st := ⟨rfl, rfl, rfl, rfl, .inl rfl⟩

variable {st st' : State}

theorem Keeps.trans {st'' : State} (h : Keeps st st') (h' : Keeps st' st'') : Keeps st st'' where
  stream := h'.stream.trans h.stream
  read := h'.read.trans h.read
  dropped := h'.dropped.trans h.dropped
  kept := h'.kept.trans h.kept
  told := by
    rcases h'.told with htold | htold
    · rw [htold]
      exact h.told
    · exact .inr (htold.trans (congrArg List.length h.dropped))

theorem keeps_emit (h : st.unwritten = []) (ok : Bool) : Keeps st (st.emit ok).1 := by
  unfold State.emit
  split
  · exact .refl st
  · cases ok with
    | true =>
      refine ⟨rfl, rfl, rfl, ?_, .inl ?_⟩
      · simp [State.kept, h]
      · simp
    | false =>
      refine ⟨rfl, rfl, rfl, ?_, .inl rfl⟩
      simp [State.kept, h]

theorem emit_batch (st : State) (ok : Bool) : (st.emit ok).1.batch = [] := by
  unfold State.emit
  split
  · assumption
  · cases ok <;> rfl

/-- Nothing is lost by a write that succeeds. -/
theorem emit_unwritten {ok : Bool} (h : st.unwritten = []) (hok : (st.emit ok).2 = true) :
    (st.emit ok).1.unwritten = [] := by
  unfold State.emit at hok ⊢
  split
  · exact h
  · cases ok with
    | true => exact h
    | false =>
      rw [if_neg ‹_›] at hok
      cases hok

theorem emit_ended (st : State) (ok : Bool) : (st.emit ok).1.ended = st.ended := by
  unfold State.emit
  split
  · rfl
  · cases ok <;> rfl

/-- An event without rows is one that keeps the count, or the stats. -/
theorem keeps_send (st : State) (ok : Bool) {e : Event} (hrows : sentRows [e] = [])
    (htold : reported (st.out ++ [e]) = reported st.out ∨ reported (st.out ++ [e]) = st.dropped.length) :
    Keeps st (st.send ok e).1 := by
  unfold State.send
  cases ok with
  | true =>
    refine ⟨rfl, rfl, rfl, ?_, htold⟩
    simp [State.kept, hrows]
  | false => exact .refl st

/-- What the loop makes of a step: rows are lost only by a write that fails, which ends the
session, and the session has ended with its stream only if the loop learned of that. -/
structure Selected (l : Step) (st st' : State) : Prop extends Keeps st st' where
  running : st'.ended = none → st'.unwritten = []
  ended : st'.ended = some .streamEnded → st'.batch = [] ∧ ∃ ok reports, l = .streamEnded ok reports

theorem selected_finish {l : Step} (h : Keeps st st') {e : End}
    (he : e = .streamEnded → st'.batch = [] ∧ ∃ ok reports, l = .streamEnded ok reports) :
    Selected l st (st'.finish e) where
  toKeeps := h.trans ⟨rfl, rfl, rfl, rfl, .inl rfl⟩
  running hend := by simp [State.finish] at hend
  ended hend := he (by simpa [State.finish] using hend)

theorem selected_running {l : Step} (h : Keeps st st') (hended : st'.ended = none) (hunwritten : st'.unwritten = []) :
    Selected l st st' :=
  ⟨h, fun _ => hunwritten, fun hend => by rw [hended] at hend; cases hend⟩

theorem selected_orEnd {l : Step} {r : State × Bool} (h : Keeps st r.1) (hended : r.1.ended = none)
    (hok : r.2 = true → r.1.unwritten = []) : Selected l st (orEnd r) := by
  unfold orEnd
  split
  · exact selected_running h hended (hok ‹_›)
  · exact selected_finish h (by rintro ⟨⟩)

theorem send_fields (st : State) (ok : Bool) (e : Event) :
    (st.send ok e).1.ended = st.ended ∧ (st.send ok e).1.unwritten = st.unwritten ∧
      (st.send ok e).1.batch = st.batch := by
  unfold State.send
  cases ok <;> exact ⟨rfl, rfl, rfl⟩

/-- Whatever the loop selects, no row is dropped or made up. -/
theorem select_selected {l : Step} (hended : st.ended = none) (h : st.unwritten = [])
    (hselect : st.select l = some st') : Selected l st st' := by
  cases l with
  | read => cases hselect
  | readerDone => cases hselect
  | contextDone =>
    cases hselect
    exact selected_finish (.refl st) (by rintro ⟨⟩)
  | deadline ok =>
    cases hselect
    exact selected_finish (keeps_emit h ok) (by rintro ⟨⟩)
  | streamEnded ok reports =>
    simp only [State.select] at hselect
    split at hselect
    · have hemit := keeps_emit h ok
      have hbatch := emit_batch st ok
      split at hselect
      · rename_i e _
        cases hselect
        have hsend : Keeps (st.emit ok).1 ((st.emit ok).1.send reports (.error e)).1 :=
          keeps_send _ reports rfl (.inl (by simp [reported]))
        exact selected_finish (hemit.trans hsend) fun _ => ⟨(send_fields _ _ _).2.2.trans hbatch, ok, reports, rfl⟩
      · cases hselect
        exact selected_finish hemit fun _ => ⟨hbatch, ok, reports, rfl⟩
    · cases hselect
  | row ok =>
    simp only [State.select] at hselect
    split at hselect
    · cases hselect
    · rename_i row rest hchannel
      have hrow : Keeps st { st with channel := rest, batch := st.batch ++ [row] } := by
        refine ⟨rfl, rfl, rfl, ?_, .inl rfl⟩
        simp [State.kept, hchannel]
      split at hselect
      · cases hselect
        have hunwritten : { st with channel := rest, batch := st.batch ++ [row] }.unwritten = [] := h
        exact selected_orEnd (hrow.trans (keeps_emit hunwritten ok)) ((emit_ended _ _).trans hended)
          (emit_unwritten hunwritten)
      · cases hselect
        exact selected_running hrow hended h
  | flush ok =>
    cases hselect
    exact selected_orEnd (keeps_emit h ok) ((emit_ended _ _).trans hended) (emit_unwritten h)
  | heartbeat ok =>
    cases hselect
    obtain ⟨hended', hunwritten, -⟩ := send_fields st ok .heartbeat
    exact selected_orEnd (keeps_send st ok rfl (.inl (by simp [reported]))) (hended'.trans hended)
      fun _ => hunwritten.trans h
  | stats ok =>
    cases hselect
    obtain ⟨hended', hunwritten, -⟩ := send_fields st ok (.stats st.sent st.dropped.length)
    exact selected_orEnd (keeps_send st ok rfl (.inr (by simp [reported]))) (hended'.trans hended)
      fun _ => hunwritten.trans h

/-! ## Whole sessions -/

/-- The rows that were read are those that were kept, in order, and those that were
dropped. -/
structure State.Sound (st : State) : Prop where
  running : st.ended = none → st.unwritten = []
  ended : st.ended = some .streamEnded → st.batch = []
  ordered : (st.kept.map (·.1)).Pairwise (· < ·)
  perm : (st.kept.map (·.1) ++ st.dropped).Perm (List.range st.read)
  rows : ∀ e ∈ st.kept, (st.stream.rows[e.1]?).map (shapeRow gt canViewRaw) = some e.2
  told_le : reported st.out ≤ st.dropped.length

variable {gt canViewRaw}

theorem Selected.sound {l : Step} (h : Selected l st st') (hst : st.Sound gt canViewRaw) :
    st'.Sound gt canViewRaw where
  running := h.running
  ended hend := (h.ended hend).1
  ordered := by rw [h.kept]; exact hst.ordered
  perm := by rw [h.kept, h.dropped, h.read]; exact hst.perm
  rows := by rw [h.kept, h.stream]; exact hst.rows
  told_le := by
    rw [h.dropped]
    rcases h.told with htold | htold
    · rw [htold]
      exact hst.told_le
    · exact htold.le

theorem readRow_sound (hst : st.Sound gt canViewRaw)
    (h : st.readRow gt canViewRaw = some st') : st'.Sound gt canViewRaw := by
  unfold State.readRow at h
  split at h
  · cases h
  · obtain ⟨row, hrow, h⟩ := Option.map_eq_some_iff.mp h
    have hlt : ∀ i ∈ st.kept.map (·.1), i < st.read := by
      intro i hi
      exact List.mem_range.mp (hst.perm.mem_iff.mp (List.mem_append_left _ hi))
    split at h
    · subst h
      have hkept : State.kept { st with
            read := st.read + 1
            channel := st.channel ++ [(st.read, shapeRow gt canViewRaw row)] } =
          st.kept ++ [(st.read, shapeRow gt canViewRaw row)] := by
        simp [State.kept]
      refine ⟨hst.running, hst.ended, ?_, ?_, ?_, hst.told_le⟩
      · rw [hkept, List.map_append, List.pairwise_append]
        refine ⟨hst.ordered, by simp, fun i hi j hj => ?_⟩
        obtain rfl : j = st.read := by simpa using hj
        exact hlt i hi
      · rw [hkept, List.map_append, List.range_succ, List.append_assoc]
        exact (List.perm_append_comm.append_left _).trans
          (List.append_assoc _ _ _ ▸ hst.perm.append_right [st.read])
      · rw [hkept]
        intro e he
        obtain he | he := List.mem_append.mp he
        · exact hst.rows e he
        · obtain rfl := List.mem_singleton.mp he
          simp [hrow]
    · subst h
      refine ⟨hst.running, hst.ended, hst.ordered, ?_, hst.rows, ?_⟩
      · rw [List.range_succ]
        exact List.append_assoc _ _ _ ▸ hst.perm.append_right [st.read]
      · simpa using hst.told_le.trans (Nat.le_succ _)

theorem step_sound {l : Step} (hst : st.Sound gt canViewRaw)
    (h : step gt canViewRaw st l = some st') : st'.Sound gt canViewRaw := by
  have hselect : ∀ l, (if st.ended = none then st.select l else none) = some st' →
      st'.Sound gt canViewRaw := by
    intro l h
    split at h
    · rename_i hended
      exact (select_selected hended (hst.running hended) h).sound hst
    · cases h
  cases l with
  | read => exact readRow_sound hst h
  | readerDone =>
    simp only [step] at h
    split at h
    · cases h
    · cases h
      exact ⟨hst.running, hst.ended, hst.ordered, hst.perm, hst.rows, hst.told_le⟩
  | _ => exact hselect _ h

theorem sound_init (stream : Rows) : State.Sound gt canViewRaw { stream } where
  running _ := rfl
  ended h := by cases h
  ordered := List.Pairwise.nil
  perm := List.Perm.refl _
  rows := by simp [State.kept, sentRows]
  told_le := le_refl _

/-- When the loop learns that the reader is done, no row is left in the channel, the client
was told the last count, and the last batch is written. -/
def Settled (st : State) : Step → Prop
  | .streamEnded ok _ => st.channel = [] ∧ reported st.out = st.dropped.length ∧ (ok = true ∨ st.batch = [])
  | _ => True

/-- The reader does not end the session. -/
theorem reader_ended {l : Step} (hl : l = .read ∨ l = .readerDone) (hstep : step gt canViewRaw st l = some st') :
    st'.ended = st.ended := by
  obtain rfl | rfl := hl
  · simp only [step, State.readRow] at hstep
    split at hstep
    · cases hstep
    · obtain ⟨row, -, rfl⟩ := Option.map_eq_some_iff.mp hstep
      split <;> rfl
  · simp only [step] at hstep
    split at hstep
    · cases hstep
    · cases hstep
      rfl

theorem ended_kept {l : Step} {e : End} (h : st.ended = some e)
    (hstep : step gt canViewRaw st l = some st') : st'.ended = some e := by
  cases l with
  | read => rw [reader_ended (.inl rfl) hstep, h]
  | readerDone => rw [reader_ended (.inr rfl) hstep, h]
  | _ => simp [step, h] at hstep

/-- What the last step of the loop leaves. -/
theorem streamEnded_leaves {ok reports : Bool} (hended : st.ended = none) (hst : st.unwritten = [])
    (hstep : step gt canViewRaw st (.streamEnded ok reports) = some st') :
    st'.readerDone = true ∧ st'.ended = some .streamEnded ∧ st'.channel = st.channel ∧ st'.dropped = st.dropped ∧
      reported st'.out = reported st.out ∧ (st'.unwritten = [] ↔ ok = true ∨ st.batch = []) := by
  have hemit : (st.emit ok).1.readerDone = st.readerDone ∧ (st.emit ok).1.channel = st.channel ∧
      (st.emit ok).1.dropped = st.dropped ∧ reported (st.emit ok).1.out = reported st.out ∧
      ((st.emit ok).1.unwritten = [] ↔ ok = true ∨ st.batch = []) := by
    unfold State.emit
    split
    next hbatch => simp [hst, hbatch]
    next hbatch => cases ok <;> simp [hst, hbatch]
  simp only [step, hended, if_true, State.select] at hstep
  split at hstep
  next hdone =>
    rw [hdone] at hemit
    generalize (st.emit ok).1 = st₁ at hemit hstep
    split at hstep
    · cases hstep
      cases reports <;> simpa [State.send, State.finish, reported] using hemit
    · cases hstep
      simpa [State.finish] using hemit
  next => cases hstep

/-- Only the end of the stream ends a session as one whose stream has ended. -/
theorem streamEnded_of_ended {l : Step} (hst : st.Sound gt canViewRaw) (hended : st.ended = none)
    (hstep : step gt canViewRaw st l = some st') (hended' : st'.ended = some .streamEnded) :
    ∃ ok reports, l = .streamEnded ok reports := by
  cases l with
  | read | readerDone =>
    rw [reader_ended (by simp) hstep, hended] at hended'
    cases hended'
  | _ =>
    simp only [step, hended, if_true] at hstep
    exact ((select_selected hended (hst.running hended) hstep).ended hended').2

/-- What is left when the session is over was left when the loop learned of the end. -/
theorem left_iff_settled {ls : List Step} (hst : st.Sound gt canViewRaw) (hended : st.ended = none)
    (hrun : Transition.run (step gt canViewRaw) st ls = some st') (hended' : st'.ended = some .streamEnded) :
    (st'.channel = [] ∧ reported st'.out = st'.dropped.length ∧ st'.unwritten = []) ↔
      Transition.Guarded (step gt canViewRaw) Settled st ls := by
  induction ls generalizing st with
  | nil =>
    cases hrun
    rw [hended] at hended'
    cases hended'
  | cons l ls ih =>
    obtain ⟨t, ht, hrest⟩ := Option.bind_eq_some_iff.mp hrun
    have hguard : Transition.Guarded (step gt canViewRaw) Settled st (l :: ls) ↔
        Settled st l ∧ Transition.Guarded (step gt canViewRaw) Settled t ls := by
      simp [Transition.Guarded, ht]
    rw [hguard]
    cases hend : t.ended with
    | none =>
      rw [ih (step_sound hst ht) hend hrest, iff_and_self]
      intro _
      cases l with
      | streamEnded ok reports =>
        have := (streamEnded_leaves hended (hst.running hended) ht).2.1
        rw [hend] at this
        cases this
      | _ => trivial
    | some e =>
      have hkept := Transition.run_invariant (I := fun s => s.ended = some e) (fun _ _ _ => ended_kept) hend hrest
      obtain rfl : e = .streamEnded := Option.some.inj (hkept.symm.trans hended')
      obtain ⟨ok, reports, rfl⟩ := streamEnded_of_ended hst hended ht hend
      obtain ⟨hdone, -, hchannel, hdropped, hreported, hunwritten⟩ := streamEnded_leaves hended (hst.running hended) ht
      cases ls with
      | nil =>
        cases hrest
        rw [hchannel, hdropped, hreported, hunwritten]
        exact (and_iff_left trivial).symm
      | cons l ls =>
        -- the reader is done and the loop has ended
        obtain ⟨u, hu, -⟩ := Option.bind_eq_some_iff.mp hrest
        cases l <;> simp [step, State.readRow, hdone, hend] at hu

/-- In every session that ends because the stream has ended, every row that was read was
sent or is in the count of dropped rows that the client was told, if and only if the loop
learned of the end when the channel was empty and the client had been told the last count,
and the last batch was written then. -/
theorem session_accounted_iff (gt : GoTime) (canViewRaw : Bool) (stream : Rows) (ls : List Step) (st : State)
    (hrun : Transition.run (step gt canViewRaw) { stream } ls = some st)
    (hended : st.ended = some .streamEnded) :
    st.Accounted gt canViewRaw ↔ Transition.Guarded (step gt canViewRaw) Settled { stream } ls := by
  have hst : st.Sound gt canViewRaw :=
    Transition.run_invariant (fun _ _ _ h hstep => step_sound h hstep) (sound_init stream) hrun
  rw [← left_iff_settled (sound_init stream) rfl hrun hended]
  have hbatch := hst.ended hended
  have hnodup : (st.kept.map (·.1) ++ st.dropped).Nodup := hst.perm.nodup_iff.mpr List.nodup_range
  obtain ⟨hkept, hdropped, hdisjoint⟩ := List.nodup_append'.mp hnodup
  constructor
  · intro h
    have hsplit : st.kept.map (·.1) = (sentRows st.out).map (·.1) ++ (st.unwritten ++ st.channel).map (·.1) := by
      simp [State.kept, hbatch]
    -- a row that was kept and not sent is in no count
    have hlost : st.unwritten ++ st.channel = [] := by
      refine List.eq_nil_iff_forall_not_mem.mpr fun e he => ?_
      have hmem : e.1 ∈ (st.unwritten ++ st.channel).map (·.1) := List.mem_map_of_mem he
      have hread : e.1 < st.read := by
        refine List.mem_range.mp (hst.perm.mem_iff.mp (List.mem_append_left _ ?_))
        rw [hsplit]
        exact List.mem_append_right _ hmem
      obtain hsent | hdrop := h.covered e.1 hread
      · rw [hsplit] at hkept
        exact (List.nodup_append'.mp hkept).2.2 hsent hmem
      · refine hdisjoint ?_ (List.mem_of_mem_take hdrop)
        rw [hsplit]
        exact List.mem_append_right _ hmem
    -- nor is a row that was dropped after the client was told
    have hafter : st.dropped.drop (reported st.out) = [] := by
      refine List.eq_nil_iff_forall_not_mem.mpr fun i hi => ?_
      have hdrop := List.mem_of_mem_drop hi
      have hread : i < st.read := List.mem_range.mp (hst.perm.mem_iff.mp (List.mem_append_right _ hdrop))
      obtain hsent | htold := h.covered i hread
      · exact h.once i hsent hdrop
      · rw [← List.take_append_drop (reported st.out) st.dropped] at hdropped
        exact (List.nodup_append'.mp hdropped).2.2 htold hi
    obtain ⟨hunwritten, hchannel⟩ := List.append_eq_nil_iff.mp hlost
    exact ⟨hchannel, le_antisymm hst.told_le (List.drop_eq_nil_iff.mp hafter), hunwritten⟩
  · rintro ⟨hchannel, htold, hunwritten⟩
    have hsent : st.kept = sentRows st.out := by simp [State.kept, hchannel, hunwritten, hbatch]
    have hordered := hst.ordered
    have hrows := hst.rows
    rw [hsent] at hordered hrows hdisjoint
    refine ⟨hordered, hrows, fun i hi => ?_, fun i hi hdrop => hdisjoint hi hdrop⟩
    have hmem := hst.perm.mem_iff.mpr (List.mem_range.mpr hi)
    rw [hsent] at hmem
    rw [htold, List.take_length]
    exact List.mem_append.mp hmem

/-- A stream of one row. -/
def oneRow : Rows := ⟨[[(utf8 "_msg", utf8 "link down")]], none⟩

/-- The row is read, the reader is done, and the loop learns that before it takes the row
out of the channel. -/
def hasty : List Step := [.read, .readerDone, .streamEnded true true]

def patient : List Step := [.read, .row true, .readerDone, .streamEnded true true]

/-- A library that parses no time. -/
def timeless : GoTime where
  Location := Unit
  utc := ()
  loadLocation _ := none
  parse _ := none
  startOfHour _ t := t
  startOfDay _ t := t
  startOfWeek _ t := t
  atoi _ := none
  quote := id

theorem session_accounted_iff_patient :
    ∃ st, Transition.run (step timeless false) { stream := oneRow } patient = some st ∧
      st.ended = some .streamEnded ∧ st.Accounted timeless false := by
  have hrun : Transition.run (step timeless false) { stream := oneRow } patient =
      some ((Transition.run (step timeless false) { stream := oneRow } patient).getD { stream := oneRow }) := rfl
  refine ⟨_, hrun, rfl, (session_accounted_iff timeless false oneRow patient _ hrun rfl).mpr ?_⟩
  rintro s₁ ⟨⟩
  refine ⟨trivial, ?_⟩
  rintro s₂ ⟨⟩
  refine ⟨trivial, ?_⟩
  rintro s₃ ⟨⟩
  exact ⟨trivial, fun s₄ _ => ⟨⟨rfl, rfl, .inl rfl⟩, trivial⟩⟩

/-- The row is neither sent nor counted. -/
theorem hasty_session_loses_row :
    ∃ st, Transition.run (step timeless false) { stream := oneRow } hasty = some st ∧
      st.ended = some .streamEnded ∧ ¬ st.Accounted timeless false := by
  refine ⟨_, rfl, rfl, fun h => ?_⟩
  obtain hsent | hdrop := h.covered 0 Nat.one_pos
  · cases hsent
  · cases hdrop

end Tail

end Syslogc.Api
