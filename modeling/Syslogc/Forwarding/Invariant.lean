-- SUMMARY: What a forwarding step does, and what holds in every state.
import Syslogc.Lib.Lists
import Syslogc.Lib.Sums
import Syslogc.Forwarding.System

/-!
# Invariants of the forwarding system

`Touched` says what a step may do to one forwarder, `Moves.called` what it may do to a
call. `Sound` holds in every state that a run reaches, whatever is called in whatever
order. A ledger compares two readings of a forwarder; only a call that visits a
forwarder can upset it.
-/

namespace Syslogc.Forwarding

open Sums Storage

variable {κ : Type}

/-! ## The copies a sender holds -/

def AfterFlush.items : AfterFlush → Multiset Copy
  | .group g | .rest g => g
  | .select | .exit => 0

def SenderPhase.items : SenderPhase → Multiset Copy
  | .writing next | .backingOff next | .uncounting _ _ next | .uncountingBytes _ next => next.items
  | .selecting | .exited => 0

/-- The pending entries, and those of the group the sender is in the middle of. -/
def Sender.items (w : Sender) : Multiset Copy := w.pending + w.phase.items

theorem Sender.addEntries_items (o : Options κ) (w : Sender) (g : List Copy) :
    (w.addEntries o g).items = w.pending + (g : Multiset Copy) := by
  induction g generalizing w with
  | nil => rfl
  | cons c g ih =>
    have hcons : (w.pending : Multiset Copy) + ((c :: g : List Copy) : Multiset Copy)
        = (w.pending ++ [c] : List Copy) + (g : Multiset Copy) := by
      simp
    rw [Sender.addEntries, hcons]
    split
    · rfl
    · exact ih _

theorem Sender.beginGroup_items (o : Options κ) (w : Sender) (g : List Copy) :
    (w.beginGroup o g).items = w.pending + (g : Multiset Copy) :=
  Sender.addEntries_items o _ g

theorem Sender.receive_items (o : Options κ) (w : Sender) (g : List Copy) :
    (w.receive o g).items = w.pending + (g : Multiset Copy) := by
  unfold Sender.receive
  split
  · rfl
  · exact w.beginGroup_items o g

theorem Sender.goOn_items (o : Options κ) (w : Sender) (next : AfterFlush) :
    (w.goOn o next).items = w.pending + next.items := by
  cases next with
  | group g => exact w.beginGroup_items o g
  | rest g => exact w.addEntries_items o g
  | select => rfl
  | exit => rfl

theorem Sender.flush_items (o : Options κ) (w : Sender) (next : AfterFlush) :
    (w.flush o next).items = w.pending + next.items := by
  unfold Sender.flush
  split
  · exact w.goOn_items o next
  · rfl

/-! ## The copies a forwarder holds or has accounted for -/

namespace Forwarder

def items (f : Forwarder κ) : Multiset Copy :=
  f.queue.flatten + total Sender.items f.senders + f.sent + (f.dropped.map Prod.fst : List Copy)

theorem drop_items (f : Forwarder κ) (reason : DropReason) (g : List Copy) :
    (f.drop reason g).items = f.items + g := by
  have hfst : (g.map (·, reason)).map Prod.fst = g := by simp [Function.comp_def]
  simp only [items, drop, List.map_append, hfst, ← Multiset.coe_add]
  abel

theorem setSender_items {f : Forwarder κ} {k : Nat} {w w' : Sender} (hw : f.senders[k]? = some w)
    (h : w'.items = w.items) : (f.setSender k w').items = f.items := by
  simp only [items, setSender, total_set_same hw h]

/-- A batch that is dealt with leaves the sender. -/
theorem written_items {f : Forwarder κ} {k : Nat} {w : Sender} {next : AfterFlush}
    (hw : f.senders[k]? = some w) (hphase : w.phase.items = next.items) :
    (f.written k w next).items + w.pending = f.items := by
  have hlose : total Sender.items f.senders =
      total Sender.items (f.written k w next).senders + w.pending := by
    refine total_set_lose hw ?_
    rw [Sender.items, hphase, add_comm]
    simp [Sender.items, SenderPhase.items]
  simp only [items, hlose, written, setSender]
  abel

end Forwarder

/-! ## What a step of a sender can do -/

def AfterFlush.leaving : AfterFlush → Bool
  | .exit => true
  | _ => false

/-- The sender has found the queue closed and empty. -/
def SenderPhase.leaving : SenderPhase → Bool
  | .writing next | .backingOff next | .uncounting _ _ next | .uncountingBytes _ next =>
    next.leaving
  | .exited => true
  | .selecting => false

/-- Once its batch is dealt with, a sender has nothing pending. -/
def Sender.Clean (w : Sender) : Prop :=
  match w.phase with
  | .uncounting .. | .uncountingBytes .. | .exited => w.pending = []
  | _ => True

theorem Sender.exited_items {w : Sender} (h : w.isExited = true) (hclean : w.Clean) :
    w.items = 0 := by
  have hphase : w.phase = .exited := by simpa [Sender.isExited] using h
  rw [Sender.Clean, hphase] at hclean
  rw [Sender.items, hphase, hclean]
  rfl

theorem Sender.addEntries_leaving (o : Options κ) (w : Sender) (g : List Copy) :
    (w.addEntries o g).phase.leaving = false ∧ (w.addEntries o g).Clean := by
  induction g generalizing w with
  | nil => exact ⟨rfl, trivial⟩
  | cons c g ih =>
    rw [Sender.addEntries]
    split
    · exact ⟨rfl, trivial⟩
    · exact ih _

theorem Sender.receive_leaving (o : Options κ) (w : Sender) (g : List Copy) :
    (w.receive o g).phase.leaving = false ∧ (w.receive o g).Clean := by
  unfold Sender.receive
  split
  · exact ⟨rfl, trivial⟩
  · exact Sender.addEntries_leaving o _ g

theorem Sender.goOn_leaving (o : Options κ) {w : Sender} (next : AfterFlush)
    (hpending : w.pending = []) :
    (w.goOn o next).phase.leaving = next.leaving ∧ (w.goOn o next).Clean := by
  cases next with
  | group g => exact Sender.addEntries_leaving o _ g
  | rest g => exact w.addEntries_leaving o g
  | select => exact ⟨rfl, trivial⟩
  | exit => exact ⟨rfl, hpending⟩

theorem Sender.flush_leaving (o : Options κ) (w : Sender) (next : AfterFlush) :
    (w.flush o next).phase.leaving = next.leaving ∧ (w.flush o next).Clean := by
  unfold Sender.flush
  split
  · exact w.goOn_leaving o next ‹_›
  · exact ⟨rfl, trivial⟩

section Sends

variable {f f' : Forwarder κ} {k : Nat} {w : Sender} (h : Sends f k w f')
include h

theorem Sends.frame : f'.opts = f.opts ∧ f'.closed = f.closed ∧ f'.handed = f.handed := by
  cases h <;> exact ⟨rfl, rfl, rfl⟩

theorem Sends.running : w.isExited = false := by
  cases h <;> grind [Sender.isExited]

theorem Sends.queue : f'.queue ⊆ f.queue := by
  cases h with
  | receive _ hqueue =>
    rw [hqueue]
    exact List.subset_cons_self _ _
  | _ => exact List.Subset.refl _

/-- A sender keeps the copies of its forwarder. -/
theorem Sends.items (hw : f.senders[k]? = some w) : f'.items = f.items := by
  cases h with
  | @receive g queue hphase hqueue =>
    have hgain : total Sender.items (f.senders.set k (w.receive f.opts g)) =
        total Sender.items f.senders + g :=
      total_set_gain hw (by rw [w.receive_items, Sender.items, hphase]; simp [SenderPhase.items])
    simp only [Forwarder.items, Forwarder.setSender, hgain, hqueue, List.flatten_cons,
      ← Multiset.coe_add]
    abel
  | timer hphase | drained hphase =>
    refine Forwarder.setSender_items hw ?_
    rw [w.flush_items, Sender.items, hphase]
    rfl
  | @sent next hphase =>
    have hwritten := Forwarder.written_items (f := { f with sent := f.sent ++ w.pending }) hw
      (show w.phase.items = next.items by rw [hphase]; rfl)
    have hsent : Forwarder.items { f with sent := f.sent ++ w.pending } = f.items + w.pending := by
      simp only [Forwarder.items, ← Multiset.coe_add]
      abel
    rw [hsent] at hwritten
    exact add_right_cancel hwritten
  | @dropped next reason _ hphase =>
    have hwritten := Forwarder.written_items (f := f.drop reason w.pending) hw
      (show w.phase.items = next.items by obtain hphase | hphase := hphase <;> rw [hphase] <;> rfl)
    rw [Forwarder.drop_items] at hwritten
    exact add_right_cancel hwritten
  | backOff hphase | retry hphase =>
    exact Forwarder.setSender_items hw (by rw [Sender.items, Sender.items, hphase]; rfl)
  | uncount hphase =>
    refine Forwarder.setSender_items (f := { f with queued := _ }) hw ?_
    rw [Sender.items, Sender.items, hphase]
    rfl
  | uncountBytes hphase =>
    refine Forwarder.setSender_items (f := { f with bytes := _ }) hw ?_
    rw [w.goOn_items, Sender.items, hphase]
    rfl

/-- Where the sender stands then; it leaves only if the queue is closed and empty. -/
theorem Sends.sender (hclean : w.Clean) : ∃ w', f'.senders = f.senders.set k w' ∧ w'.Clean ∧
    (w'.phase.leaving = true → w.phase.leaving = true ∨ f.closed = true ∧ f.queue = []) := by
  cases h with
  | @receive g =>
    obtain ⟨hleaving, hclean'⟩ := w.receive_leaving f.opts g
    exact ⟨_, rfl, hclean', by simp [hleaving]⟩
  | timer =>
    obtain ⟨hleaving, hclean'⟩ := w.flush_leaving f.opts .select
    exact ⟨_, rfl, hclean', by simp [hleaving, AfterFlush.leaving]⟩
  | drained _ hqueue hclosed =>
    exact ⟨_, rfl, (w.flush_leaving f.opts .exit).2, fun _ => .inr ⟨hclosed, hqueue⟩⟩
  | sent hphase => exact ⟨_, rfl, rfl, by rw [hphase]; exact .inl⟩
  | dropped _ hphase =>
    exact ⟨_, rfl, rfl, by obtain hphase | hphase := hphase <;> rw [hphase] <;> exact .inl⟩
  | backOff hphase | retry hphase => exact ⟨_, rfl, trivial, by rw [hphase]; exact .inl⟩
  | uncount hphase =>
    rw [Sender.Clean, hphase] at hclean
    exact ⟨_, rfl, hclean, by rw [hphase]; exact .inl⟩
  | @uncountBytes size next hphase =>
    rw [Sender.Clean, hphase] at hclean
    obtain ⟨hleaving, hclean'⟩ := Sender.goOn_leaving f.opts next hclean
    exact ⟨_, rfl, hclean', by rw [hleaving, hphase]; exact .inl⟩

end Sends

/-! ## What a step of a call can do -/

section Visits

variable {c c' : Call} {f f' : Forwarder κ} (h : Visits c f f' c')
include h

theorem Visits.frame : f'.opts = f.opts ∧ f'.closed = f.closed ∧ f'.senders = f.senders := by
  cases h <;> exact ⟨rfl, rfl, rfl⟩

theorem Visits.queue : f'.queue = f.queue ∨ ∃ out, c.phase = .sending out ∧
    f.queue.length < f.opts.queueCap ∧ f'.queue = f.queue ++ [out] := by
  cases h with
  | send hphase hslot => exact .inr ⟨_, hphase, hslot, rfl⟩
  | _ => exact .inl rfl

/-- The call leaves, or stays with a forwarder that it was inside of or found open. -/
theorem Visits.call : c' = c.next ∨
    (∃ phase, c' = { c with phase }) ∧ (c.phase = .entering → f.closed = false) := by
  cases h with
  | skip | refuse | countBytes => exact .inl rfl
  | enter _ hopen => exact .inr ⟨⟨_, rfl⟩, fun _ => hopen⟩
  | passCount hphase | passBytes hphase | send hphase | count hphase =>
    exact .inr ⟨⟨_, rfl⟩, by rw [hphase]; rintro ⟨⟩⟩

end Visits

/-! ## What a step does to one forwarder -/

theorem State.running_mem {s : State κ} {name : String} {id : Nat}
    (h : s.running name = some id) : id ∈ s.current ∧ s.nameOf id = some name := by
  have hmem : id ∈ s.current := List.mem_reverse.mp (List.mem_of_find?_eq_some h)
  exact ⟨hmem, by simpa using List.find?_some h⟩

theorem State.unchanged_running [DecidableEq κ] {s : State κ} {t : Target κ} {id : Nat}
    (h : s.unchanged t = some id) : s.running t.name = some id :=
  (Option.ite_none_right_eq_some.mp h).2

/-- The forwarders a step may leave: those there were, and new ones at the end. -/
theorem State.plan_spec [DecidableEq κ] (s : State κ) (rs : List (BuildRequest κ)) (p : Plan κ) :
    ∃ fs, (s.plan p rs).forwarders = p.forwarders ++ fs ∧
      (∀ f ∈ fs, ∃ t, f = s.build t) ∧
      ∀ id ∈ (s.plan p rs).next,
        id ∈ p.next ∨ id ∈ s.current ∨ id < (s.plan p rs).forwarders.length := by
  fun_induction State.plan s p rs with
  | case1 p => exact ⟨[], by simp, by simp, fun id hid => .inl hid⟩
  | case2 p r rs hoff ih => exact ih
  | case3 p r rs hon id hid ih =>
    obtain ⟨fs, hfs, hnew, hnext⟩ := ih
    refine ⟨fs, hfs, hnew, fun id' hid' => (hnext id' hid').elim (fun hp => ?_) .inr⟩
    refine (List.mem_append.mp hp).imp_right fun hp => .inl ?_
    rw [List.mem_singleton.mp hp]
    exact (State.running_mem (State.unchanged_running hid)).1
  | case4 p r rs hon hid hbuilt ih => exact ih
  | case5 p r rs hon hid hbuilt ih =>
    obtain ⟨fs, hfs, hnew, hnext⟩ := ih
    refine ⟨_ :: fs, by rw [hfs, List.append_assoc]; rfl, ?_,
      fun id' hid' => (hnext id' hid').elim (fun hp => ?_) .inr⟩
    · exact List.forall_mem_cons.mpr ⟨⟨r.target, rfl⟩, hnew⟩
    · refine (List.mem_append.mp hp).imp_right fun hp => .inr ?_
      rw [List.mem_singleton.mp hp, hfs]
      simp

theorem Forwarder.repeat_start (f : Forwarder κ) (n : Nat) :
    Nat.repeat Forwarder.start n f = { f with senders := f.senders ++ List.replicate n {} } := by
  induction n with
  | zero => simp [Nat.repeat]
  | succ n ih =>
    rw [Nat.repeat, ih]
    simp [Forwarder.start, List.replicate_succ']

section Touched

variable {s s' : State κ} {l : Label κ} {id : Nat} {f f' : Forwarder κ}

/-- What a step does to a forwarder that was there before, which has index `id`. -/
inductive Touched (s : State κ) (l : Label κ) (id : Nat) (f : Forwarder κ) : Forwarder κ → Prop
  | same : Touched s l id f f
  | visited {i : Nat} {c c' : Call} {todo : List Nat} {f' : Forwarder κ} (hl : l = .visit i)
      (hc : s.calls[i]? = some c) (htodo : c.todo = id :: todo) (h : Visits c f f' c') : Touched s l id f f'
  | sent {k : Nat} {w : Sender} {f' : Forwarder κ} (hw : f.senders[k]? = some w)
      (h : Sends f k w f') : Touched s l id f f'
  | started (hl : l = .start) :
      Touched s l id f { f with senders := f.senders ++ List.replicate (s.current.count id) {} }
  | closed (hl : l = .close id) (hout : ∀ c ∈ s.calls, c.inside id = false) :
      Touched s l id f { f with closed := true }
  | expired : Touched s l id f { f with stopped := true }

theorem State.startAll_get (s : State κ) (id : Nat) : s.startAll.forwarders[id]? =
    (s.forwarders[id]?).map fun f =>
      { f with senders := f.senders ++ List.replicate (s.current.count id) {} } := by
  simp [State.startAll, List.getElem?_mapIdx, Forwarder.repeat_start]

theorem State.reconcile_get [DecidableEq κ] {rs : List (BuildRequest κ)}
    (h : (s.reconcile rs).forwarders[id]? = some f) :
    s.forwarders[id]? = some f ∨ s.forwarders.length ≤ id ∧ ∃ t, f = s.build t := by
  obtain ⟨fs, hfs, hnew, -⟩ := s.plan_spec rs { forwarders := s.forwarders }
  rw [State.reconcile, hfs] at h
  by_cases hid : id < s.forwarders.length
  · rw [List.getElem?_append_left hid] at h
    exact .inl h
  · rw [List.getElem?_append_right (by simpa using hid)] at h
    exact .inr ⟨by simpa using hid, hnew f (List.mem_of_getElem? h)⟩

theorem Moves.touched [DecidableEq κ] (h : Moves s l s') (hf' : s'.forwarders[id]? = some f') :
    (∃ f, s.forwarders[id]? = some f ∧ Touched s l id f f') ∨
      s.forwarders.length ≤ id ∧ ∃ t, f' = s.build t := by
  have hset {j : Nat} {g g' : Forwarder κ} (hg : s.forwarders[j]? = some g) (h : Touched s l j g g')
      (hget : (s.forwarders.set j g')[id]? = some f') :
      ∃ f, s.forwarders[id]? = some f ∧ Touched s l id f f' := by
    obtain ⟨rfl, rfl⟩ | ⟨-, hget⟩ := Lists.getElem?_set_cases hget
    · exact ⟨g, hg, h⟩
    · exact ⟨f', hget, .same⟩
  cases h with
  | forward | returned => exact .inl ⟨f', hf', .same⟩
  | visited hc htodo hf h => exact .inl (hset hf (.visited rfl hc htodo h) hf')
  | sent hf hw h => exact .inl (hset hf (.sent hw h) hf')
  | started =>
    rw [s.startAll_get, Option.map_eq_some_iff] at hf'
    obtain ⟨f, hf, rfl⟩ := hf'
    exact .inl ⟨f, hf, .started rfl⟩
  | reconciled rs => exact (State.reconcile_get hf').imp_left fun hf => ⟨f', hf, .same⟩
  | stops h =>
    cases h with
    | stop | skip | stopped | finish => exact .inl ⟨f', hf', .same⟩
    | close hf _ _ _ hout => exact .inl (hset hf (.closed rfl hout) hf')
    | expire hf => exact .inl (hset hf .expired hf')

theorem Moves.length_le [DecidableEq κ] (h : Moves s l s') :
    s.forwarders.length ≤ s'.forwarders.length := by
  cases h with
  | forward | returned => exact le_rfl
  | visited | sent | started => simp [State.act, State.setForwarder, State.startAll]
  | reconciled rs =>
    obtain ⟨fs, hfs, -⟩ := s.plan_spec rs { forwarders := s.forwarders }
    simp [State.reconcile, hfs]
  | stops h => cases h <;> simp [State.setForwarder]

theorem Moves.called [DecidableEq κ] {d : Call} (h : Moves s l s') (hd : d ∈ s'.calls) :
    d ∈ s.calls ∨ d.todo = s.current ∧ d.phase = .entering ∨
      ∃ i c id todo f f', l = .visit i ∧ s.calls[i]? = some c ∧ c.todo = id :: todo ∧
        s.forwarders[id]? = some f ∧ Visits c f f' d := by
  cases h with
  | forward tenant entries =>
    obtain hd | hd := List.mem_append.mp hd
    · exact .inl hd
    · rw [List.mem_singleton.mp hd]
      exact .inr (.inl ⟨rfl, rfl⟩)
  | returned => exact .inl (List.mem_of_mem_eraseIdx hd)
  | visited hc htodo hf h =>
    obtain hd | rfl := List.mem_or_eq_of_mem_set hd
    · exact .inl hd
    · exact .inr (.inr ⟨_, _, _, _, _, _, rfl, hc, htodo, hf, h⟩)
  | sent | started | reconciled => exact .inl hd
  | stops h => cases h <;> exact .inl hd

end Touched

/-! ## What holds in every state -/

structure Forwarder.Sound (f : Forwarder κ) : Prop where
  leaving : ∀ w ∈ f.senders, w.phase.leaving = true → f.closed = true ∧ f.queue = []
  clean : ∀ w ∈ f.senders, w.Clean
  numbered : f.handed.map Copy.id = List.range f.handed.length

theorem Forwarder.new_sound (o : Options κ) : (Forwarder.new o).Sound :=
  ⟨by simp [Forwarder.new], by simp [Forwarder.new], rfl⟩

theorem Forwarder.Sound.addSenders {f : Forwarder κ} (hf : f.Sound) (n : Nat) :
    Forwarder.Sound { f with senders := f.senders ++ List.replicate n {} } := by
  refine ⟨fun w hw hleaving => ?_, fun w hw => ?_, hf.numbered⟩
  · obtain hw | hw := List.mem_append.mp hw
    · exact hf.leaving w hw hleaving
    · rw [List.eq_of_mem_replicate hw] at hleaving
      cases hleaving
  · obtain hw | hw := List.mem_append.mp hw
    · exact hf.clean w hw
    · rw [List.eq_of_mem_replicate hw]
      trivial

theorem Forwarder.Sound.sends {f f' : Forwarder κ} {k : Nat} {w : Sender} (hf : f.Sound)
    (hw : f.senders[k]? = some w) (h : Sends f k w f') : f'.Sound := by
  have hmem : w ∈ f.senders := List.mem_of_getElem? hw
  obtain ⟨-, hclosed, hhanded⟩ := h.frame
  obtain ⟨w', hset, hclean, hleaves⟩ := h.sender (hf.clean w hmem)
  have hqueue : f.queue = [] → f'.queue = [] := fun hnil => List.subset_nil.mp (hnil ▸ h.queue)
  have hother : ∀ v ∈ f'.senders, v ∈ f.senders ∨ v = w' := fun v hv =>
    List.mem_or_eq_of_mem_set (hset ▸ hv)
  refine ⟨fun v hv hleaving => ?_, fun v hv => ?_, by rw [hhanded]; exact hf.numbered⟩
  · rw [hclosed]
    obtain hv | rfl := hother v hv
    · exact (hf.leaving v hv hleaving).imp_right hqueue
    · obtain hwas | hnow := hleaves hleaving
      · exact (hf.leaving w hmem hwas).imp_right hqueue
      · exact hnow.imp_right hqueue
  · obtain hv | rfl := hother v hv
    · exact hf.clean v hv
    · exact hclean

theorem Forwarder.copies_ids (f : Forwarder κ) (tenant : String) (entries : List Entry) :
    (f.copies tenant entries).map Copy.id =
      List.range' f.handed.length (f.copies tenant entries).length := by
  unfold Forwarder.copies
  generalize (entries.filter f.opts.passes).map _ = es
  apply List.ext_getElem
  · simp
  · intro i h₁ h₂
    simp

theorem Forwarder.Sound.hand {f : Forwarder κ} (hf : f.Sound) (tenant : String)
    (entries : List Entry) :
    Forwarder.Sound { f with handed := f.handed ++ f.copies tenant entries } := by
  refine ⟨hf.leaving, hf.clean, ?_⟩
  rw [List.map_append, hf.numbered, f.copies_ids, List.length_append, List.range_eq_range',
    List.range_eq_range']
  simpa using List.range'_append_1 (s := 0) (m := f.handed.length)
    (n := (f.copies tenant entries).length)

theorem State.build_sound (s : State κ) (t : Target κ) : (s.build t).Sound := by
  unfold State.build
  split
  · exact (Forwarder.new_sound t.options).addSenders 1
  · exact Forwarder.new_sound t.options

theorem State.build_opts (s : State κ) (t : Target κ) :
    (s.build t).opts = t.options.withDefaults ∧ (s.build t).closed = false := by
  unfold State.build
  split <;> exact ⟨rfl, rfl⟩

structure Sound (s : State κ) : Prop where
  current : ∀ id ∈ s.current, id < s.forwarders.length
  todo : ∀ c ∈ s.calls, ∀ id ∈ c.todo, id < s.forwarders.length
  forwarders : ∀ f ∈ s.forwarders, f.Sound
  /-- No call is inside a closed forwarder. -/
  outside : ∀ id f, s.forwarders[id]? = some f → f.closed = true →
    ∀ c ∈ s.calls, c.inside id = false

section Sound

variable {s s' : State κ} {l : Label κ} {i id : Nat} {c d : Call} {f f' : Forwarder κ} {todo : List Nat}

/-- A call that is past the entry is inside, so its forwarder is open. -/
theorem Sound.open_of_inside (hs : Sound s) (hc : s.calls[i]? = some c) (htodo : c.todo = id :: todo)
    (hf : s.forwarders[id]? = some f) (hphase : c.phase ≠ .entering) : f.closed = false := by
  by_contra hclosed
  have hinside := hs.outside id f hf (by simpa using hclosed) c (List.mem_of_getElem? hc)
  simp [Call.inside, htodo, hphase] at hinside

theorem Sound.touched (hs : Sound s) (hf : s.forwarders[id]? = some f) (h : Touched s l id f f') :
    f'.Sound := by
  have hfs : f.Sound := hs.forwarders f (List.mem_of_getElem? hf)
  cases h with
  | same => exact hfs
  | visited _ hc htodo h =>
    cases h with
    | skip | enter => exact hfs.hand _ _
    | send hphase =>
      have hopen := hs.open_of_inside hc htodo hf (by simp [hphase])
      refine ⟨fun w hw hleaving => ?_, hfs.clean, hfs.numbered⟩
      rw [(hfs.leaving w hw hleaving).1] at hopen
      cases hopen
    | refuse | passCount | passBytes | count | countBytes =>
      exact ⟨hfs.leaving, hfs.clean, hfs.numbered⟩
  | sent hw h => exact hfs.sends hw h
  | started => exact hfs.addSenders _
  | closed =>
    exact ⟨fun w hw hleaving => ⟨rfl, (hfs.leaving w hw hleaving).2⟩, hfs.clean, hfs.numbered⟩
  | expired => exact ⟨hfs.leaving, hfs.clean, hfs.numbered⟩

theorem Touched.closed_before (h : Touched s l id f f') (hclosed : f'.closed = true) :
    f.closed = true ∨ l = .close id ∧ ∀ c ∈ s.calls, c.inside id = false := by
  cases h with
  | same | started | expired => exact .inl hclosed
  | visited _ _ _ h => exact .inl (h.frame.2.1 ▸ hclosed)
  | sent _ h => exact .inl (h.frame.2.1 ▸ hclosed)
  | closed hl hout => exact .inr ⟨hl, hout⟩

theorem Call.next_outside (c : Call) (id : Nat) : c.next.inside id = false := by
  simp [Call.next, Call.inside]

variable [DecidableEq κ]

/-- No call is inside a forwarder that is closed after a step. -/
theorem Sound.outside_step (hs : Sound s) (h : Moves s l s') (hf' : s'.forwarders[id]? = some f')
    (hclosed : f'.closed = true) (hd : d ∈ s'.calls) : d.inside id = false := by
  obtain ⟨f, hf, htouched⟩ | ⟨-, t, rfl⟩ := h.touched hf'
  · obtain hd | ⟨-, hphase⟩ | ⟨i, c, j, todo, g, g', rfl, hc, htodo, hg, hvisits⟩ := h.called hd
    · obtain hclosed | ⟨-, hout⟩ := htouched.closed_before hclosed
      · exact hs.outside id f hf hclosed d hd
      · exact hout d hd
    · simp [Call.inside, hphase]
    · obtain hclosed | ⟨⟨⟩, -⟩ := htouched.closed_before hclosed
      obtain rfl | ⟨⟨phase, rfl⟩, hopen⟩ := hvisits.call
      · exact c.next_outside id
      · by_cases hid : j = id
        · -- the call was outside, so it has just found the forwarder open
          subst hid
          cases hf.symm.trans hg
          have hphase : c.phase = .entering := by
            simpa [Call.inside, htodo] using hs.outside j f hf hclosed c (List.mem_of_getElem? hc)
          rw [hopen hphase] at hclosed
          cases hclosed
        · simp [Call.inside, htodo, hid]
  · rw [(s.build_opts t).2] at hclosed
    cases hclosed

theorem Moves.current (h : Moves s l s') (hid : id ∈ s'.current) :
    id ∈ s.current ∨ id < s'.forwarders.length := by
  cases h with
  | forward | returned | visited | sent | started => exact .inl hid
  | reconciled rs =>
    obtain ⟨fs, -, -, hnext⟩ := s.plan_spec rs { forwarders := s.forwarders }
    exact (hnext id hid).resolve_left List.not_mem_nil
  | stops h =>
    cases h with
    | stop | skip | close | expire | stopped => exact .inl hid
    | @finish all =>
      cases all with
      | true => cases hid
      | false => exact .inl hid

theorem Sound.step (hs : Sound s) (h : step s l = some s') : Sound s' := by
  have hmoves := step_moves h
  have hlen := hmoves.length_le
  refine ⟨fun id hid => ?_, fun d hd id hid => lt_of_lt_of_le ?_ hlen, fun f' hf' => ?_,
    fun id f' hf' hclosed d hd => hs.outside_step hmoves hf' hclosed hd⟩
  · obtain hid | hid := hmoves.current hid
    · exact lt_of_lt_of_le (hs.current id hid) hlen
    · exact hid
  · obtain hd | ⟨htodo, -⟩ | ⟨i, c, j, todo, g, g', -, hc, -, -, hvisits⟩ := hmoves.called hd
    · exact hs.todo d hd id hid
    · exact hs.current id (htodo ▸ hid)
    · refine hs.todo c (List.mem_of_getElem? hc) id ?_
      obtain rfl | ⟨⟨phase, rfl⟩, -⟩ := hvisits.call
      · exact List.mem_of_mem_tail hid
      · exact hid
  · obtain ⟨id, hget⟩ := List.mem_iff_getElem?.mp hf'
    obtain ⟨f, hf, htouched⟩ | ⟨-, t, rfl⟩ := hmoves.touched hget
    · exact hs.touched hf htouched
    · exact s.build_sound t

end Sound

theorem Sound.init : Sound ({} : State κ) := by
  refine ⟨?_, ?_, ?_, ?_⟩ <;> simp

/-! ## Ledgers -/

section Ledger

variable {M : Type*} [AddCancelCommMonoid M]

/-- For every forwarder, one reading of it is another reading and what the calls that
visit it have in hand. -/
def Ledger (X Y : Forwarder κ → M) (hand : Nat → Call → M) (s : State κ) : Prop :=
  ∀ id f, s.forwarders[id]? = some f → X f = Y f + total (hand id) s.calls

/-- What a call that is in a phase has in hand for the forwarder it visits. -/
def Call.share (hand : CallPhase → M) (id : Nat) (c : Call) : M :=
  if c.todo.head? = some id then hand c.phase else 0

/-- The readings change together, but for what calls do; and a call that enters has
nothing in hand. -/
structure Books (X Y : Forwarder κ → M) (hand : CallPhase → M) : Prop where
  entering : hand .entering = 0
  build : ∀ (s : State κ) t, X (s.build t) = Y (s.build t)
  sends : ∀ {f f' : Forwarder κ} {k w}, f.senders[k]? = some w → Sends f k w f' →
    X f' + Y f = X f + Y f'
  started : ∀ (f : Forwarder κ) n, X (Nat.repeat Forwarder.start n f) + Y f =
    X f + Y (Nat.repeat Forwarder.start n f)
  flags : ∀ (f : Forwarder κ) closed stopped,
    X { f with closed, stopped } = X f ∧ Y { f with closed, stopped } = Y f

variable {X Y : Forwarder κ → M} {hand : CallPhase → M} {s s' : State κ} {i id : Nat} {c c' : Call}
  {f f' : Forwarder κ} {todo : List Nat} {l : Label κ}

/-- When one call acts on one forwarder, the ledger is kept exactly when the readings of
the two change together. -/
theorem Ledger.visit_iff (hentering : hand .entering = 0) (hs : Ledger X Y (Call.share hand) s)
    (hc : s.calls[i]? = some c) (htodo : c.todo = id :: todo) (hf : s.forwarders[id]? = some f)
    (h : Visits c f f' c') : Ledger X Y (Call.share hand) (s.act id f' i c') ↔
      X f' + (Y f + hand c.phase) = X f + (Y f' + hand c'.phase) := by
  have hself : Call.share hand id c = hand c.phase := by simp [Call.share, htodo]
  obtain ⟨hself', hother⟩ : Call.share hand id c' = hand c'.phase ∧
      ∀ id', id' ≠ id → Call.share hand id' c' = Call.share hand id' c := by
    obtain rfl | ⟨⟨phase, rfl⟩, -⟩ := h.call
    · exact ⟨by simp [Call.share, Call.next, hentering], fun id' hne => by
        simp [Call.share, Call.next, hentering, htodo, hne.symm]⟩
    · exact ⟨by simp [Call.share, htodo], fun id' hne => by simp [Call.share, htodo, hne.symm]⟩
  have hhands : total (Call.share hand id) (s.calls.set i c') + hand c.phase =
      total (Call.share hand id) s.calls + hand c'.phase := by
    rw [← hself, ← hself']
    exact total_set _ hc c'
  constructor
  · intro hs'
    have hbefore := hs id f hf
    have hafter := hs' id f' (List.getElem?_set_self (List.getElem?_eq_some_iff.mp hf).1)
    calc X f' + (Y f + hand c.phase)
        = Y f' + Y f + (total (Call.share hand id) (s.calls.set i c') + hand c.phase) := by
          rw [hafter]; simp only [State.act]; abel
      _ = Y f + total (Call.share hand id) s.calls + (Y f' + hand c'.phase) := by rw [hhands]; abel
      _ = X f + (Y f' + hand c'.phase) := by rw [← hbefore]
  · intro hmoved id' g hg
    obtain ⟨rfl, rfl⟩ | ⟨hid, hg⟩ := Lists.getElem?_set_cases hg
    · rw [hs id' f hf] at hmoved
      refine add_right_cancel (b := Y f + hand c.phase) (hmoved.trans ?_)
      calc Y f + total (Call.share hand id') s.calls + (Y g + hand c'.phase)
          = Y g + Y f + (total (Call.share hand id') s.calls + hand c'.phase) := by abel
        _ = Y g + total (Call.share hand id') (s.calls.set i c') + (Y f + hand c.phase) := by
          rw [← hhands]; abel
    · rw [hs id' g hg]
      exact congrArg _ (total_set_same hc (hother id' hid)).symm

/-- A change of one forwarder that keeps the difference of its readings keeps the ledger. -/
theorem Ledger.of_calls {hand : Nat → Call → M} (hs : Ledger X Y hand s) (hcalls : s'.calls = s.calls)
    (h : ∀ id f', s'.forwarders[id]? = some f' → (∃ f, s.forwarders[id]? = some f ∧ X f' + Y f = X f + Y f') ∨
      X f' = Y f' ∧ total (hand id) s.calls = 0) : Ledger X Y hand s' := by
  intro id f' hf'
  rw [hcalls]
  obtain ⟨f, hf, hsame⟩ | ⟨hnew, hnone⟩ := h id f' hf'
  · refine add_right_cancel (b := Y f) (hsame.trans ?_)
    rw [hs id f hf]
    abel
  · rw [hnone, add_zero, hnew]

/-- Every step keeps the ledger, if every visit does. -/
theorem Ledger.step [DecidableEq κ] (hbooks : Books X Y hand) (hs : Ledger X Y (Call.share hand) s)
    (hsound : Sound s) (h : Moves s l s')
    (hvisit : ∀ i c id todo f f' c', l = .visit i → s.calls[i]? = some c → c.todo = id :: todo →
      s.forwarders[id]? = some f → Visits c f f' c' → Ledger X Y (Call.share hand) (s.act id f' i c')) :
    Ledger X Y (Call.share hand) s' := by
  have htouched (hl : ∀ i, l ≠ .visit i) (id : Nat) (f' : Forwarder κ) (hf' : s'.forwarders[id]? = some f') :
      (∃ f, s.forwarders[id]? = some f ∧ X f' + Y f = X f + Y f') ∨
        X f' = Y f' ∧ total (Call.share hand id) s.calls = 0 := by
    obtain ⟨f, hf, htouched⟩ | ⟨hid, t, rfl⟩ := h.touched hf'
    · refine .inl ⟨f, hf, ?_⟩
      cases htouched with
      | same => rfl
      | visited hvisit => exact absurd hvisit (hl _)
      | sent hw h => exact hbooks.sends hw h
      | started =>
        rw [← Forwarder.repeat_start]
        exact hbooks.started f _
      | closed =>
        obtain ⟨hX, hY⟩ := hbooks.flags f true f.stopped
        rw [hX, hY]
      | expired =>
        obtain ⟨hX, hY⟩ := hbooks.flags f f.closed true
        rw [hX, hY]
    · -- no call visits a forwarder that was just built
      refine .inr ⟨hbooks.build s t, total_eq_zero fun c hc => if_neg fun hhead => ?_⟩
      exact absurd (hsound.todo c hc id (List.mem_of_head? hhead)) (by omega)
  cases h with
  | forward tenant entries =>
    intro id f hf
    have hnew : Call.share hand id { tenant, entries, todo := s.current } = 0 := by
      simp [Call.share, hbooks.entering]
    rw [hs id f hf, total_append, total_cons, total_nil, hnew, add_zero, add_zero]
  | returned hc htodo =>
    intro id f hf
    rw [hs id f hf, total_eraseIdx (Call.share hand id) hc, Call.share, htodo]
    simp
  | visited hc htodo hf h => exact hvisit _ _ _ _ _ _ _ rfl hc htodo hf h
  | sent | started | reconciled => exact hs.of_calls rfl (htouched (by rintro _ ⟨⟩))
  | stops h => cases h <;> exact hs.of_calls rfl (htouched (by rintro _ ⟨⟩))

end Ledger

end Syslogc.Forwarding
