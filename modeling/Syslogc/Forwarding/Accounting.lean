-- SUMMARY: Which of the entries given to the registry are accounted for.
import Syslogc.Forwarding.Invariant

/-!
# Accounting for forwarded entries

What is given to `Registry.Forward` and passes a target's filter is offered to each
forwarder of the snapshot. A copy that `Forward` has made of it is in the hands of the
call, in the queue, with a sender, sent, or counted as dropped. Every step keeps this
balance but one: a call that meets a closed forwarder returns without counting. And a
queue that is closed while no sender was ever started is never emptied.
`accounted_always_iff` says that nothing else goes wrong.
-/

namespace Syslogc.Forwarding

open Sums

variable {κ : Type}

/-! ## What is offered to a forwarder -/

/-- The filter of a target lets the entry pass. -/
def Options.Admits (o : Options κ) (e : Entry) : Prop :=
  (o.sources = [] ∨ e.source ∈ o.sources) ∧ ∀ m ∈ o.minSeverity, e.severity ≤ m

instance (o : Options κ) (e : Entry) : Decidable (o.Admits e) := inferInstanceAs (Decidable (_ ∧ _))

/-- What a target is to have of a batch, under the batch's tenant. -/
def Options.wants (o : Options κ) (tenant : String) (entries : List Entry) : Multiset Entry :=
  (entries.filter fun e => o.Admits e).map fun e => { e with tenant }

/-- What a batch that is given to the registry offers to forwarder `id`. -/
def State.offers (s : State κ) (tenant : String) (entries : List Entry) (id : Nat) : Multiset Entry :=
  match s.forwarders[id]? with
  | none => 0
  | some f => s.current.count id • f.opts.wants tenant entries

/-- A run, with what was offered to each forwarder. -/
structure Traced (κ : Type) where
  state : State κ := {}
  offered : Nat → Multiset Entry := fun _ => 0

def Traced.step [DecidableEq κ] (t : Traced κ) (l : Label κ) : Option (Traced κ) :=
  (Forwarding.step t.state l).map fun state =>
    { state
      offered :=
        match l with
        | .forward tenant entries => fun id => t.offered id + t.state.offers tenant entries id
        | _ => t.offered }

/-- The forwarders that a call has yet to enter. -/
def Call.ahead (c : Call) : List Nat := if c.phase = .entering then c.todo else c.todo.tail

/-- What calls have yet to bring to forwarder `id`. -/
def State.coming (s : State κ) (id : Nat) (f : Forwarder κ) : Multiset Entry :=
  total (fun c => c.ahead.count id • f.opts.wants c.tenant c.entries) s.calls

/-- The copies that were made for a forwarder are those of the entries offered to it, but
for what has yet to come. -/
structure Offered (t : Traced κ) : Prop where
  made : ∀ id f, t.state.forwarders[id]? = some f →
    t.offered id = (f.handed.map Copy.entry : List Entry) + t.state.coming id f
  unbuilt : ∀ id, t.state.forwarders.length ≤ id → t.offered id = 0

theorem Options.passes_iff (o : Options κ) (e : Entry) : o.passes e = true ↔ o.Admits e := by
  unfold Options.passes Options.Admits
  cases o.minSeverity <;> simp

theorem Forwarder.copies_entries (f : Forwarder κ) (tenant : String) (entries : List Entry) :
    (((f.copies tenant entries).map Copy.entry : List Entry) : Multiset Entry) = f.opts.wants tenant entries := by
  have hfilter : entries.filter f.opts.passes = entries.filter fun e => f.opts.Admits e :=
    List.filter_congr fun e _ => by simp [← f.opts.passes_iff]
  have hmap (es : List Entry) (n : Nat) : (es.mapIdx fun i e => (⟨n + i, e⟩ : Copy)).map Copy.entry = es := by
    apply List.ext_getElem <;> simp
  rw [Forwarder.copies, Options.wants, hfilter, hmap]

theorem Forwarder.copies_eq_nil_iff (f : Forwarder κ) (tenant : String) (entries : List Entry) :
    f.copies tenant entries = [] ↔ ∀ e ∈ entries, ¬f.opts.Admits e := by
  simp [Forwarder.copies, ← f.opts.passes_iff]

/-- A call that acts goes on with its batch. It makes its copies for a forwarder as it enters. -/
theorem Visits.ahead {c c' : Call} {f f' : Forwarder κ} (h : Visits c f f' c') {id : Nat} {todo : List Nat}
    (htodo : c.todo = id :: todo) : c'.tenant = c.tenant ∧ c'.entries = c.entries ∧
      (f'.handed = f.handed ++ f.copies c.tenant c.entries ∧ c.ahead = id :: c'.ahead ∨
        f'.handed = f.handed ∧ c'.ahead = c.ahead) := by
  cases h with
  | skip hphase => exact ⟨rfl, rfl, .inl ⟨rfl, by simp [Call.ahead, Call.next, hphase, htodo]⟩⟩
  | enter hphase => exact ⟨rfl, rfl, .inl ⟨rfl, by simp [Call.ahead, hphase, htodo]⟩⟩
  | refuse h =>
    have hphase : c.phase ≠ .entering := by
      intro hphase
      rw [hphase] at h
      cases h
    exact ⟨rfl, rfl, .inr ⟨rfl, by simp [Call.ahead, Call.next, hphase]⟩⟩
  | countBytes hphase => exact ⟨rfl, rfl, .inr ⟨rfl, by simp [Call.ahead, Call.next, hphase]⟩⟩
  | passCount hphase | passBytes hphase | send hphase | count hphase =>
    exact ⟨rfl, rfl, .inr ⟨rfl, by simp [Call.ahead, hphase]⟩⟩

theorem State.build_items (s : State κ) (t : Target κ) :
    (s.build t).items = 0 ∧ (s.build t).handed = [] := by
  unfold State.build
  split <;>
  exact ⟨by simp [Forwarder.items, Forwarder.start, Forwarder.new, Sender.items, SenderPhase.items],
    rfl⟩

theorem Call.mem_of_ahead {c : Call} {id : Nat} (h : id ∈ c.ahead) : id ∈ c.todo := by
  unfold Call.ahead at h
  split at h
  · exact h
  · exact List.mem_of_mem_tail h

section Offered

variable {s s' : State κ} {t t' : Traced κ} {l : Label κ} {i id : Nat} {c c' : Call} {f f' : Forwarder κ}

theorem Touched.frame (h : Touched s l id f f') : f'.opts = f.opts ∧ ((∀ i, l ≠ .visit i) → f'.handed = f.handed) := by
  cases h with
  | same | started | closed | expired => exact ⟨rfl, fun _ => rfl⟩
  | visited hl _ _ h => exact ⟨h.frame.1, fun hne => absurd hl (hne _)⟩
  | sent _ h => exact ⟨h.frame.1, fun _ => h.frame.2.2⟩

/-- A step that leaves the calls alone makes no copies. -/
theorem Offered.of_calls [DecidableEq κ] (ht : Offered t) (hs : Sound t.state) (h : Moves t.state l s')
    (hl : ∀ i, l ≠ .visit i) (hcalls : s'.calls = t.state.calls) : Offered ⟨s', t.offered⟩ := by
  refine ⟨fun id f' hf' => ?_, fun id hid => ht.unbuilt id (h.length_le.trans hid)⟩
  obtain ⟨f, hf, htouched⟩ | ⟨hid, target, rfl⟩ := h.touched hf'
  · obtain ⟨hopts, hhanded⟩ := htouched.frame
    rw [State.coming, hcalls, hopts, hhanded hl]
    exact ht.made id f hf
  · have hcoming : s'.coming id (t.state.build target) = 0 := by
      rw [State.coming, hcalls]
      refine total_eq_zero fun c hc => ?_
      have hcount : c.ahead.count id = 0 := by
        refine List.count_eq_zero.mpr fun hmem => ?_
        exact absurd (hs.todo c hc id (c.mem_of_ahead hmem)) (by omega)
      rw [hcount, zero_smul]
    rw [hcoming, (t.state.build_items target).2]
    exact ht.unbuilt id hid

/-- A call that enters a forwarder makes the copies that were to come from it. -/
theorem Offered.visit (ht : Offered t) (hc : t.state.calls[i]? = some c) {todo : List Nat} (htodo : c.todo = id :: todo)
    (hf : t.state.forwarders[id]? = some f) (h : Visits c f f' c') : Offered ⟨t.state.act id f' i c', t.offered⟩ := by
  obtain ⟨htenant, hentries, hmade⟩ := h.ahead htodo
  refine ⟨fun id' g hg => ?_, fun id' hid' => ht.unbuilt id' (by simpa [State.act] using hid')⟩
  obtain ⟨rfl, rfl⟩ | ⟨hne, hg⟩ := Lists.getElem?_set_cases hg
  · rw [ht.made id' f hf]
    simp only [State.coming, State.act, h.frame.1]
    obtain ⟨hhanded, hahead⟩ | ⟨hhanded, hahead⟩ := hmade
    · have hlose : c.ahead.count id' • f.opts.wants c.tenant c.entries =
          c'.ahead.count id' • f.opts.wants c'.tenant c'.entries + f.opts.wants c.tenant c.entries := by
        simp [hahead, htenant, hentries, add_smul]
      rw [total_set_lose hc hlose, hhanded, List.map_append, ← Multiset.coe_add, f.copies_entries]
      abel
    · rw [hhanded, total_set_same hc (by simp [hahead, htenant, hentries])]
  · rw [ht.made id' g hg]
    have hcount : c'.ahead.count id' = c.ahead.count id' := by
      obtain ⟨-, hahead⟩ | ⟨-, hahead⟩ := hmade
      · simp [hahead, Ne.symm hne]
      · rw [hahead]
    simp only [State.coming, State.act]
    rw [total_set_same hc (by simp [hcount, htenant, hentries])]

theorem Offered.step [DecidableEq κ] (ht : Offered t) (hs : Sound t.state) (h : t.step l = some t') : Offered t' := by
  obtain ⟨s', hs', rfl⟩ := Option.map_eq_some_iff.mp h
  cases step_moves hs' with
  | forward tenant entries =>
    refine ⟨fun id f hf => ?_, fun id hid => ?_⟩
    · have hoffers : t.state.offers tenant entries id = t.state.current.count id • f.opts.wants tenant entries := by
        rw [State.offers, hf]
      simp only [ht.made id f hf, hoffers, State.coming, total_append, total_cons, total_nil, Call.ahead, if_true]
      abel
    · have hnone : t.state.forwarders[id]? = none := List.getElem?_eq_none hid
      simp only [ht.unbuilt id hid, State.offers, hnone, add_zero]
  | returned hc htodo =>
    refine ⟨fun id f hf => ?_, ht.unbuilt⟩
    rw [ht.made id f hf, State.coming, total_eraseIdx _ hc]
    simp [Call.ahead, htodo, State.coming]
  | visited hc htodo hf hvisits => exact ht.visit hc htodo hf hvisits
  | sent | started | reconciled => exact ht.of_calls hs (step_moves hs') (by rintro _ ⟨⟩) rfl
  | stops hstops => cases hstops <;> exact ht.of_calls hs (step_moves hs') (by rintro _ ⟨⟩) rfl

end Offered

/-! ## The balance of a forwarder -/

def CallPhase.hand : CallPhase → Multiset Copy
  | .checking out | .checkingBytes out | .sending out => out
  | .entering | .counting _ | .countingBytes _ => 0

/-- The copies a call holds that it made for forwarder `id`. -/
def Call.hand (id : Nat) (c : Call) : Multiset Copy :=
  if c.todo.head? = some id then c.phase.hand else 0

def State.hands (s : State κ) (id : Nat) : Multiset Copy := total (Call.hand id) s.calls

/-- Every copy made for a forwarder is in the hands of a call, or with the
forwarder, or accounted for. -/
def Balanced (s : State κ) : Prop :=
  ∀ id f, s.forwarders[id]? = some f → (f.handed : Multiset Copy) = f.items + s.hands id

/-- A closed forwarder that no sender was ever started for has an empty queue. -/
def Drained (s : State κ) : Prop :=
  ∀ f ∈ s.forwarders, f.closed = true → f.senders = [] → f.queue.flatten = []

/-- Outside of a call nothing is in its hands. -/
theorem Call.hand_eq_zero_of_outside {c : Call} {id : Nat} (h : c.inside id = false) :
    c.hand id = 0 := by
  unfold Call.hand
  split
  · rename_i hhead
    have hphase : c.phase = .entering := by simpa [Call.inside, hhead] using h
    rw [hphase]
    rfl
  · rfl

theorem State.hands_eq_zero {s : State κ} {id : Nat} (h : ∀ c ∈ s.calls, c.inside id = false) :
    s.hands id = 0 :=
  total_eq_zero fun c hc => Call.hand_eq_zero_of_outside (h c hc)

/-! ## Every step -/

/-- The steps that count what they do not queue: a call that meets a closed
forwarder has nothing for it, and a queue is closed with a sender to empty it or
with nothing in it. -/
def Counts (s : State κ) : Label κ → Prop
  | .visit i => ∀ c ∈ s.calls[i]?, ∀ id ∈ c.todo.head?, ∀ f ∈ s.forwarders[id]?,
      c.phase = .entering → f.closed = true → ∀ e ∈ c.entries, ¬f.opts.Admits e
  | .close id => ∀ f ∈ s.forwarders[id]?, f.senders ≠ [] ∨ f.queue.flatten = []
  | _ => True

theorem Forwarder.start_items (f : Forwarder κ) (n : Nat) :
    (Nat.repeat Forwarder.start n f).items = f.items := by
  have hnew : total Sender.items (List.replicate n {}) = 0 :=
    total_replicate_zero (by simp [Sender.items, SenderPhase.items]) n
  rw [Forwarder.repeat_start]
  simp only [Forwarder.items, total_append, hnew, add_zero]

theorem books_balanced :
    Books (fun f : Forwarder κ => (f.handed : Multiset Copy)) Forwarder.items CallPhase.hand where
  entering := rfl
  build s t := by rw [(s.build_items t).1, (s.build_items t).2]; rfl
  sends hw h := by rw [h.items hw, h.frame.2.2]
  started f n := by rw [f.start_items, Forwarder.repeat_start]
  flags f closed stopped := ⟨rfl, rfl⟩

section Steps

variable {s s' : State κ} {l : Label κ} {i id : Nat} {c c' : Call} {f f' : Forwarder κ} {todo : List Nat}

theorem Refused.hand {out : List Copy} {phase : CallPhase} (h : Refused f out phase) : phase.hand = out := by
  cases h <;> rfl

/-- `Forward` loses copies only where it meets a closed forwarder. -/
theorem Balanced.visit_iff (hs : Balanced s) (hc : s.calls[i]? = some c) (htodo : c.todo = id :: todo)
    (hf : s.forwarders[id]? = some f) (h : Visits c f f' c') : Balanced (s.act id f' i c') ↔
      (c.phase = .entering → f.closed = true → f.copies c.tenant c.entries = []) := by
  refine (Ledger.visit_iff (X := fun f => (f.handed : Multiset Copy)) rfl hs hc htodo hf h).trans ?_
  generalize hout : f.copies c.tenant c.entries = out
  cases h with
  | skip hphase hskip =>
    have hcancel : (f.handed + out + (f.items + 0) : Multiset Copy) = f.handed + (f.items + 0) ↔ out = [] := by
      rw [add_right_comm, add_zero, add_eq_left, Multiset.coe_eq_zero]
    rw [hphase, hout, ← Multiset.coe_add]
    refine hcancel.trans ⟨fun h _ _ => h, fun h => ?_⟩
    exact hskip.elim (h rfl) hout.symm.trans
  | enter hphase hopen =>
    refine iff_of_true ?_ (by simp [hopen])
    rw [hphase, hout, ← Multiset.coe_add]
    change (f.handed + out + (f.items + 0) : Multiset Copy) = f.handed + (f.items + out)
    abel
  | refuse h =>
    refine iff_of_true ?_ fun hphase => by rw [hphase] at h; cases h
    rw [f.drop_items, h.hand]
    exact congrArg _ (add_zero _).symm
  | passCount hphase | passBytes hphase | count hphase =>
    exact iff_of_true (by rw [hphase]; rfl) (by rw [hphase]; rintro ⟨⟩)
  | send hphase =>
    refine iff_of_true ?_ (by rw [hphase]; rintro ⟨⟩)
    rw [hphase]
    simp only [Forwarder.items, CallPhase.hand, List.flatten_append, List.flatten_singleton,
      ← Multiset.coe_add]
    abel
  | countBytes hphase => exact iff_of_true (by rw [hphase]; rfl) (by rw [hphase]; rintro ⟨⟩)

variable [DecidableEq κ]

/-- Closing a queue keeps the accounts unless the queue holds something that no
sender will take. -/
theorem Drained.step_iff (hs : Sound s) (hd : Drained s) (h : Moves s l s') : Drained s' ↔
    ∀ id, l = .close id → ∀ f ∈ s.forwarders[id]?, f.senders ≠ [] ∨ f.queue.flatten = [] := by
  constructor
  · rintro hd' id rfl f hf
    refine or_iff_not_imp_left.mpr fun hsenders => ?_
    have hsenders : f.senders = [] := by simpa using hsenders
    obtain ⟨hlt, -⟩ := List.getElem?_eq_some_iff.mp hf
    cases h with
    | stops h =>
      cases h with
      | skip hg _ _ hclosed =>
        cases hg.symm.trans hf
        exact hd f (List.mem_of_getElem? hf) hclosed hsenders
      | close hg =>
        cases hg.symm.trans hf
        exact hd' { f with closed := true } (List.mem_set hlt _) rfl hsenders
  · intro hclose f' hf' hclosed hsenders
    obtain ⟨id, hget⟩ := List.mem_iff_getElem?.mp hf'
    obtain ⟨f, hf, htouched⟩ | ⟨-, t, rfl⟩ := h.touched hget
    · have hwas := hd f (List.mem_of_getElem? hf)
      cases htouched with
      | same | expired => exact hwas hclosed hsenders
      | visited _ hc htodo h =>
        obtain ⟨-, hclosed', hsenders'⟩ := h.frame
        rw [hclosed'] at hclosed
        obtain hqueue | ⟨out, hphase, -⟩ := h.queue
        · rw [hqueue]
          exact hwas hclosed (hsenders' ▸ hsenders)
        · rw [hs.open_of_inside hc htodo hf (by simp [hphase])] at hclosed
          cases hclosed
      | sent hw h =>
        have hclean := (hs.forwarders f (List.mem_of_getElem? hf)).clean _ (List.mem_of_getElem? hw)
        obtain ⟨w', hset, -⟩ := h.sender hclean
        rw [hset, List.set_eq_nil_iff] at hsenders
        rw [hsenders] at hw
        cases hw
      | started => exact hwas hclosed (List.append_eq_nil_iff.mp hsenders).1
      | closed hl => exact (hclose id hl f hf).resolve_left fun hne => hne hsenders
    · rw [(s.build_opts t).2] at hclosed
      cases hclosed

theorem Balanced.step_iff (hs : Sound s) (hb : Balanced s) (h : Moves s l s') : Balanced s' ↔
    ∀ i, l = .visit i → ∀ c ∈ s.calls[i]?, ∀ id ∈ c.todo.head?, ∀ f ∈ s.forwarders[id]?,
      c.phase = .entering → f.closed = true → f.copies c.tenant c.entries = [] := by
  constructor
  · rintro hb' i rfl c hc id hid f hf
    cases h with
    | returned hd htodo =>
      cases hd.symm.trans hc
      simp [htodo] at hid
    | visited hd htodo hg h =>
      cases hd.symm.trans hc
      obtain rfl : _ = id := by simpa [htodo] using hid
      cases hg.symm.trans hf
      exact (hb.visit_iff hc htodo hf h).mp hb'
    | stops h => cases h
  · intro hcounts
    refine Ledger.step books_balanced hb hs h fun i c id todo f f' c' hl hc htodo hf hvisits => ?_
    exact (hb.visit_iff hc htodo hf hvisits).mpr (hcounts i hl c hc id (by simp [htodo]) f hf)

/-- A step keeps the accounts exactly when it counts what it does not queue. -/
theorem step_accounts_iff (hs : Sound s) (hb : Balanced s) (hd : Drained s) (h : step s l = some s') :
    Balanced s' ∧ Drained s' ↔ Counts s l := by
  rw [hb.step_iff hs (step_moves h), hd.step_iff hs (step_moves h)]
  cases l <;> simp [Counts, Forwarder.copies_eq_nil_iff]

end Steps

/-! ## Where a copy is -/

/-- The places a copy can be in. -/
inductive Place where
  /-- In the hands of `Forward`. -/
  | calling
  | queued
  /-- With a sender. -/
  | sending
  | sent
  | dropped
deriving DecidableEq, Repr

instance : Fintype Place where
  elems := {.calling, .queued, .sending, .sent, .dropped}
  complete p := by cases p <;> decide

theorem Place.sum_univ {M : Type*} [AddCommMonoid M] (f : Place → M) :
    ∑ p, f p = f .calling + (f .queued + (f .sending + (f .sent + f .dropped))) := by
  change ∑ p ∈ ({.calling, .queued, .sending, .sent, .dropped} : Finset Place), f p = _
  simp

/-- The copies for forwarder `f`, which has index `id`, that are in a place. -/
def State.copiesAt (s : State κ) (id : Nat) (f : Forwarder κ) : Place → Multiset Copy
  | .calling => s.hands id
  | .queued => f.queue.flatten
  | .sending => total Sender.items f.senders
  | .sent => f.sent
  | .dropped => (f.dropped.map Prod.fst : List Copy)

theorem State.sum_copiesAt (s : State κ) (id : Nat) (f : Forwarder κ) :
    ∑ p, s.copiesAt id f p = f.items + s.hands id := by
  simp only [Place.sum_univ, State.copiesAt, Forwarder.items]
  abel

/-- For every target: the copies made for it are of the entries offered to it, but for
those that calls have yet to bring; every copy is once in one place and in no other, and
nothing else is in any place; and when the target is stopped every copy was sent or
counted as dropped. -/
structure Accounted (t : Traced κ) : Prop where
  offered : Offered t
  once : ∀ id f, t.state.forwarders[id]? = some f → ∀ c ∈ f.handed,
    ∃ p, (t.state.copiesAt id f p).count c = 1 ∧ ∀ q, q ≠ p → (t.state.copiesAt id f q).count c = 0
  handed : ∀ id f, t.state.forwarders[id]? = some f → ∀ p, ∀ c ∈ t.state.copiesAt id f p, c ∈ f.handed
  settled : ∀ f ∈ t.state.forwarders, f.closed = true → f.idle = true →
    ∀ c ∈ f.handed, c ∈ f.sent ∨ ∃ reason, (c, reason) ∈ f.dropped

theorem Forwarder.Sound.handed_nodup {f : Forwarder κ} (hf : f.Sound) : f.handed.Nodup :=
  List.Nodup.of_map Copy.id (hf.numbered ▸ List.nodup_range)

/-- A forwarder that is stopped holds nothing. -/
theorem Sound.items_of_idle {s : State κ} {f : Forwarder κ} (hs : Sound s) (hd : Drained s)
    (hf : f ∈ s.forwarders) (hclosed : f.closed = true) (hidle : f.idle = true) :
    f.items = f.sent + (f.dropped.map Prod.fst : List Copy) := by
  have hfs : f.Sound := hs.forwarders f hf
  have hexited : ∀ w ∈ f.senders, w.isExited = true := List.all_eq_true.mp hidle
  have hsenders : total Sender.items f.senders = 0 :=
    total_eq_zero fun w hw => Sender.exited_items (hexited w hw) (hfs.clean w hw)
  have hqueue : f.queue.flatten = [] := by
    by_cases hnone : f.senders = []
    · exact hd f hf hclosed hnone
    · obtain ⟨w, hw⟩ := List.exists_mem_of_ne_nil _ hnone
      have hphase : w.phase = .exited := by simpa [Sender.isExited] using hexited w hw
      rw [(hfs.leaving w hw (by rw [hphase]; rfl)).2]
      rfl
  simp [Forwarder.items, hsenders, hqueue]

section Accounted

variable {t : Traced κ}

theorem accounted_of_balanced (ho : Offered t) (hs : Sound t.state) (hb : Balanced t.state) (hd : Drained t.state) :
    Accounted t where
  offered := ho
  once id f hf c hc := by
    apply exists_single_of_sum_eq_one
    rw [← Multiset.count_sum', State.sum_copiesAt, ← hb id f hf]
    exact Multiset.count_eq_one_of_mem (hs.forwarders f (List.mem_of_getElem? hf)).handed_nodup hc
  handed id f hf p c hc := by
    rw [← Multiset.mem_coe, hb id f hf, ← State.sum_copiesAt, Multiset.mem_sum]
    exact ⟨p, Finset.mem_univ p, hc⟩
  settled f hf hclosed hidle c hc := by
    obtain ⟨id, hid⟩ := List.mem_iff_getElem?.mp hf
    rw [← Multiset.mem_coe, hb id f hid, hs.items_of_idle hd hf hclosed hidle,
      State.hands_eq_zero (hs.outside id f hid hclosed), add_zero] at hc
    simpa using hc

theorem Accounted.balanced (hs : Sound t.state) (h : Accounted t) : Balanced t.state := by
  intro id f hf
  have hnodup := (hs.forwarders f (List.mem_of_getElem? hf)).handed_nodup
  ext c
  rw [← State.sum_copiesAt, Multiset.count_sum']
  by_cases hc : c ∈ f.handed
  · obtain ⟨p, hone, hother⟩ := h.once id f hf c hc
    rw [Finset.sum_eq_single p (fun q _ hq => hother q hq) (by simp), hone]
    exact Multiset.count_eq_one_of_mem hnodup hc
  · rw [Multiset.count_eq_zero_of_notMem (by simpa using hc), eq_comm]
    refine Finset.sum_eq_zero fun p _ => Multiset.count_eq_zero_of_notMem fun hp => ?_
    exact hc (h.handed id f hf p c hp)

theorem Accounted.drained (h : Accounted t) : Drained t.state := by
  intro f hf hclosed hsenders
  obtain ⟨id, hid⟩ := List.mem_iff_getElem?.mp hf
  by_contra hqueue
  obtain ⟨c, hc⟩ := List.exists_mem_of_ne_nil _ hqueue
  have hqueued : c ∈ t.state.copiesAt id f .queued := hc
  have hhanded : c ∈ f.handed := h.handed id f hid .queued c hqueued
  have hdone : ∃ q, q ≠ Place.queued ∧ c ∈ t.state.copiesAt id f q := by
    obtain hsent | ⟨reason, hdropped⟩ :=
      h.settled f hf hclosed (by simp [Forwarder.idle, hsenders]) c hhanded
    · exact ⟨.sent, by decide, hsent⟩
    · exact ⟨.dropped, by decide, Multiset.mem_coe.mpr (List.mem_map_of_mem hdropped)⟩
  obtain ⟨q, hq, hmem⟩ := hdone
  obtain ⟨p, -, hother⟩ := h.once id f hid c hhanded
  -- Two places hold the copy, so one of them is not the place it is in.
  by_cases hp : p = .queued
  · exact Multiset.count_ne_zero.mpr hmem (hother q (by rw [hp]; exact hq))
  · exact Multiset.count_ne_zero.mpr hqueued (hother .queued (Ne.symm hp))

theorem accounted_iff (ho : Offered t) (hs : Sound t.state) :
    Accounted t ↔ Balanced t.state ∧ Drained t.state :=
  ⟨fun h => ⟨h.balanced hs, h.drained⟩, fun h => accounted_of_balanced ho hs h.1 h.2⟩

end Accounted

def sampleEntry : Entry := ⟨"default", "web", 6, 400⟩

/-- A call loads the set of forwarders; before it gets to the only one, the target
is removed and its forwarder drained and stopped. -/
def staleSnapshot : List (Label Unit) :=
  [.start, .reconcile [⟨mirror "a" 10, true⟩], .finish, .forward "default" [sampleEntry],
    .reconcile [], .close 0, .sender 0 0 .drained, .stopped 0, .finish, .visit 0]

end Syslogc.Forwarding
