-- SUMMARY: The connections of a TCP listener, and `Stop`.
import Syslogc.Lib.Sums
import Syslogc.Lib.Transition

/-!
# Connections

The accept loop takes a slot of the semaphore for each connection, and registers it unless
the listener is stopping. A served connection gives back its slot, and `Stop` waits for all
goroutines.
-/

namespace Syslogc.Listener

open Sums

/-- `serve`, and then its deferred calls: it closes the connection and deletes it from the
map, and gives back its slot. -/
inductive Serving
  | serving
  | deleted
  | released
  | done

inductive AcceptLoop
  | accepting
  /-- The address of a new connection is allowed. -/
  | allowed
  /-- A slot is taken. -/
  | holding
  /-- The slot is to be given back. -/
  | refusing
  | leaving
  | exited

structure TCP where
  sem : Nat := 0
  wg : Nat := 1
  stopping : Bool := false
  loop : AcceptLoop := .accepting
  conns : List Serving := []

inductive TCPEvent
  /-- The accept loop; what `Accept` returns is an error or whether the address is allowed. -/
  | loop (conn : Option Bool)
  | serve (n : Nat)
  | stop

variable (configured : Int)

def maxConns : Nat := if configured ≤ 0 then 2 ^ 20 else configured.toNat

def TCP.acceptLoop (t : TCP) (conn : Option Bool) : Option TCP :=
  match t.loop with
  | .accepting =>
    match conn with
    | none => if t.stopping then some { t with loop := .leaving } else some t
    -- Also while `Stop` has not closed the socket yet.
    | some allowed => if allowed then some { t with loop := .allowed } else some t
  | .allowed =>
    if t.sem < maxConns configured then some { t with sem := t.sem + 1, loop := .holding }
    else some { t with loop := .accepting }
  | .holding =>
    if t.stopping then some { t with loop := .refusing }
    else some { t with conns := t.conns ++ [.serving], wg := t.wg + 1, loop := .accepting }
  | .refusing => some { t with sem := t.sem - 1, loop := .leaving }
  | .leaving => some { t with wg := t.wg - 1, loop := .exited }
  | .exited => none

def TCP.serve (t : TCP) (n : Nat) (c : Serving) : Option TCP :=
  match c with
  | .serving => some { t with conns := t.conns.set n .deleted }
  | .deleted => some { t with conns := t.conns.set n .released, sem := t.sem - 1 }
  | .released => some { t with conns := t.conns.set n .done, wg := t.wg - 1 }
  | .done => none

def TCP.step (t : TCP) : TCPEvent → Option TCP
  | .loop conn => t.acceptLoop configured conn
  | .serve n => t.conns[n]?.bind (t.serve n)
  | .stop => some { t with stopping := true }

/-! ## Slots and goroutines -/

def Serving.slots : Serving → Nat
  | .serving | .deleted => 1
  | .released | .done => 0

def Serving.waits : Serving → Nat
  | .done => 0
  | _ => 1

def AcceptLoop.slots : AcceptLoop → Nat
  | .holding | .refusing => 1
  | _ => 0

def AcceptLoop.waits : AcceptLoop → Nat
  | .exited => 0
  | _ => 1

structure TCP.Sound (t : TCP) : Prop where
  sem : t.sem = t.loop.slots + total Serving.slots t.conns
  bound : t.sem ≤ maxConns configured
  wg : t.wg = t.loop.waits + total Serving.waits t.conns

variable {configured} {t t' : TCP} {e : TCPEvent}

/-- A step of the accept loop that gives back `k` slots and `m` goroutines. -/
theorem TCP.Sound.loop (ht : t.Sound configured) {a : AcceptLoop} {k m : Nat}
    (hslots : t.loop.slots = a.slots + k) (hwaits : t.loop.waits = a.waits + m) :
    TCP.Sound configured { t with loop := a, sem := t.sem - k, wg := t.wg - m } := by
  obtain ⟨hsem, hbound, hwg⟩ := ht
  constructor <;> dsimp only <;> omega

/-- A step of a connection that gives back `k` slots and `m` goroutines. -/
theorem TCP.Sound.conn (ht : t.Sound configured) {n : Nat} {c c' : Serving} {k m : Nat}
    (hc : t.conns[n]? = some c) (hslots : c.slots = c'.slots + k) (hwaits : c.waits = c'.waits + m) :
    TCP.Sound configured { t with conns := t.conns.set n c', sem := t.sem - k, wg := t.wg - m } := by
  obtain ⟨hsem, hbound, hwg⟩ := ht
  have hslots := total_set_lose hc hslots
  have hwaits := total_set_lose hc hwaits
  constructor <;> dsimp only <;> omega

theorem acceptLoop_sound {conn : Option Bool} (ht : t.Sound configured)
    (h : t.acceptLoop configured conn = some t') : t'.Sound configured := by
  revert h
  fun_cases TCP.acceptLoop configured t conn <;> intro h <;> cases h
  case case2 | case4 => exact ht
  case case1 hloop _ | case3 hloop | case6 hloop _ | case7 hloop _ =>
    exact ht.loop (k := 0) (m := 0) (by rw [hloop]; rfl) (by rw [hloop]; rfl)
  case case5 hloop hroom =>
    obtain ⟨hsem, -, hwg⟩ := ht
    rw [hloop] at hsem hwg
    exact ⟨by rw [hsem, Nat.add_right_comm]; rfl, hroom, hwg⟩
  case case8 hloop _ =>
    obtain ⟨hsem, hbound, hwg⟩ := ht
    rw [hloop] at hsem hwg
    refine ⟨?_, hbound, ?_⟩
    · rw [hsem, total_append]; exact (Nat.add_comm _ _).trans (Nat.zero_add _).symm
    · rw [hwg, total_append]; exact Nat.add_assoc _ _ _
  case case9 hloop => exact ht.loop (k := 1) (m := 0) (by rw [hloop]; rfl) (by rw [hloop]; rfl)
  case case10 hloop => exact ht.loop (k := 0) (m := 1) (by rw [hloop]; rfl) (by rw [hloop]; rfl)

theorem step_sound (ht : t.Sound configured) (h : t.step configured e = some t') : t'.Sound configured := by
  cases e with
  | loop conn => exact acceptLoop_sound ht h
  | serve n =>
    obtain ⟨c, hc, h⟩ := Option.bind_eq_some_iff.mp h
    cases c <;> cases h
    · exact ht.conn (k := 0) (m := 0) hc rfl rfl
    · exact ht.conn (k := 1) (m := 0) hc rfl rfl
    · exact ht.conn (k := 0) (m := 1) hc rfl rfl
  | stop => cases h; exact { ht with }

/-- At no time more slots than allowed are held by the accept loop and the connections, and
when the wait of `Stop` is over the accept loop and all connections have ended. -/
theorem listener_run {events : List TCPEvent} (h : Transition.run (TCP.step configured) {} events = some t) :
    t.sem = t.loop.slots + total Serving.slots t.conns ∧ t.sem ≤ maxConns configured ∧
      (t.wg = 0 → t.loop = .exited ∧ ∀ c ∈ t.conns, c = .done) := by
  have ht : t.Sound configured :=
    Transition.run_invariant (fun _ _ _ => step_sound) ⟨rfl, Nat.zero_le _, rfl⟩ h
  refine ⟨ht.sem, ht.bound, fun hwg => ?_⟩
  obtain ⟨hloop, hconns⟩ := Nat.add_eq_zero_iff.mp (ht.wg.symm.trans hwg)
  refine ⟨by cases hl : t.loop <;> simp_all [AcceptLoop.waits], fun c hc => ?_⟩
  have := List.sum_eq_zero_iff.mp hconns c.waits (List.mem_map_of_mem hc)
  cases c <;> simp_all [Serving.waits]

/-- A connection is accepted and served, and `Stop` waits for it. -/
def oneConnection : Option TCP :=
  Transition.run (TCP.step 1) {} [.loop (some true), .loop none, .loop none, .stop, .loop none, .loop none,
    .serve 0, .serve 0, .serve 0]

theorem listener_run_oneConnection :
    ∃ t, oneConnection = some t ∧ t.conns.length = 1 ∧ t.sem ≤ 1 ∧ t.loop = .exited ∧ ∀ c ∈ t.conns, c = .done := by
  have h : oneConnection = some _ := rfl
  exact ⟨_, h, rfl, (listener_run h).2.1, (listener_run h).2.2 rfl⟩

end Syslogc.Listener
