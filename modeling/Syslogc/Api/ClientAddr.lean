-- SUMMARY: The address a client is seen as behind trusted proxies.
import Syslogc.Lib.Netip
import Mathlib

/-!
# Client addresses

A proxy appends the address it was reached from to the forwarded hops of a request. The
server goes over the hops from the last one on, as long as the hop it comes from is
trusted. What a client writes into the header stands to the left of what the proxies
append, and the server does not look at it.
-/

namespace Syslogc.Api

open Netip

/-! ## The address of a request -/

structure ForwardedRequest where
  remoteAddr : Bytes
  /-- The values of the `X-Forwarded-For` headers. -/
  forwardedFor : List Bytes
deriving DecidableEq, Repr

-- `netip.ParseAddr`, and the address of `netip.ParseAddrPort`
variable (parseAddr parseAddrPort : Bytes → Option Addr) (trustedProxies : List Prefix)

def trusted (a : Addr) : Bool := trustedProxies.any (·.contains a)

/-- The header lines as one. -/
def forwardedText (values : List Bytes) : Bytes := [44].intercalate values

def forwardedHops (values : List Bytes) : List Bytes := (forwardedText values).splitOn 44

def hopAddr (hop : Bytes) : Option Addr := (parseAddr hop.trimSpace).map Addr.unmap

/-- The loop over the hops, the last of them first, from an address that is trusted. -/
def scanHops (addr : Addr) : List Bytes → Addr
  | [] => addr
  | hop :: hops =>
    match hopAddr parseAddr hop with
    | none => addr
    | some a => if trusted trustedProxies a then scanHops a hops else a

def clientAddr (r : ForwardedRequest) : Addr :=
  match parseAddrPort r.remoteAddr with
  | none => .invalid
  | some ap =>
    let addr := ap.unmap
    if !trusted trustedProxies addr then addr
    else scanHops parseAddr trustedProxies addr (forwardedHops r.forwardedFor).reverse

def clientIP (r : ForwardedRequest) : Bytes :=
  let a := clientAddr parseAddr parseAddrPort trustedProxies r
  if a.isValid then a.text else r.remoteAddr

/-! ## The hop that is used -/

/-- The addresses a request came over: the forwarded hops, and the peer. -/
def route (peer : Addr) (values : List Bytes) : List (Option Addr) :=
  (forwardedHops values).map (hopAddr parseAddr) ++ [some peer.unmap]

def Trusted (hop : Option Addr) : Prop := ∃ a, hop = some a ∧ trusted trustedProxies a

/-- The header lines agree with the first ones from a hop on, whatever stands to its left.
With no hop left to agree on they are any lines. -/
def AgreesFrom (n : Nat) (values values' : List Bytes) : Prop :=
  let rest := [44].intercalate ((forwardedHops values).drop n)
  n = (forwardedHops values).length ∨ forwardedText values' = rest ∨
    ∃ left, forwardedText values' = left ++ 44 :: rest

variable {parseAddr parseAddrPort trustedProxies} {a peer addr : Addr} {values values' : List Bytes}

theorem scanHops_append {hops rest : List Bytes} {hop : Bytes}
    (hhops : ∀ h ∈ hops, Trusted trustedProxies (hopAddr parseAddr h)) (hhop : hopAddr parseAddr hop = some a)
    (ha : trusted trustedProxies a = false) :
    scanHops parseAddr trustedProxies addr (hops ++ hop :: rest) = a := by
  induction hops generalizing addr with
  | nil => simp [scanHops, hhop, ha]
  | cons h hops ih =>
    obtain ⟨b, hb, htrusted⟩ := hhops h List.mem_cons_self
    simp only [List.cons_append, scanHops, hb, htrusted, if_true]
    exact ih fun h hh => hhops h (List.mem_cons_of_mem _ hh)

theorem not_mem_of_mem_splitOn {α : Type*} [DecidableEq α] {x : α} {xs part : List α} (h : part ∈ xs.splitOn x) :
    x ∉ part := by
  induction hn : xs.length using Nat.strong_induction_on generalizing xs with
  | _ n ih =>
    by_cases hx : x ∈ xs
    · obtain ⟨l, r, rfl, hl⟩ := List.eq_append_cons_of_mem hx
      rw [List.splitOn_append_cons_self_of_not_mem hl, List.mem_cons] at h
      rcases h with rfl | h
      · exact hl
      · exact ih r.length (by simp at hn; omega) h rfl
    · rw [List.splitOn_eq_singleton hx, List.mem_singleton] at h
      exact h ▸ hx

/-- Lines that agree from a hop on have the same hops from it on. -/
theorem AgreesFrom.hops {n : Nat} (h : AgreesFrom n values values') (hn : n < (forwardedHops values).length) :
    ∃ before, forwardedHops values' = before ++ (forwardedHops values).drop n := by
  have hrest : ([44].intercalate ((forwardedHops values).drop n)).splitOn 44 = (forwardedHops values).drop n := by
    apply List.splitOn_intercalate
    · intro hop hhop
      exact not_mem_of_mem_splitOn (List.mem_of_mem_drop hhop)
    · simpa using hn
  rcases h with h | h | ⟨left, h⟩
  · omega
  · exact ⟨[], by rw [forwardedHops, h, hrest, List.nil_append]⟩
  · exact ⟨left.splitOn 44, by rw [forwardedHops, h, List.splitOn_append_cons_self, hrest]⟩

/-- The address is that of the hop behind which every hop is trusted. -/
theorem clientAddr_hop {r : ForwardedRequest} {before after : List Bytes} {hop : Bytes}
    (hpeer : parseAddrPort r.remoteAddr = some peer) (htrusted : trusted trustedProxies peer.unmap)
    (hhops : forwardedHops r.forwardedFor = before ++ hop :: after)
    (hafter : ∀ h ∈ after, Trusted trustedProxies (hopAddr parseAddr h)) (hhop : hopAddr parseAddr hop = some a)
    (ha : trusted trustedProxies a = false) : clientAddr parseAddr parseAddrPort trustedProxies r = a := by
  have hreverse : (before ++ hop :: after).reverse = after.reverse ++ hop :: before.reverse := by simp
  simp only [clientAddr, hpeer, htrusted, Bool.not_true, Bool.false_eq_true, if_false, hhops, hreverse]
  exact scanHops_append (fun h hh => hafter h (List.mem_reverse.mp hh)) hhop ha

theorem clientAddr_peer {r : ForwardedRequest} (hpeer : parseAddrPort r.remoteAddr = some peer)
    (h : trusted trustedProxies peer.unmap = false) :
    clientAddr parseAddr parseAddrPort trustedProxies r = peer.unmap := by
  simp [clientAddr, hpeer, h]

/-- The client address is the right-most one of the route that is not trusted, if all that
stand to its right are addresses and trusted, and it stays the same whatever is written
into the header to its left. -/
theorem clientAddr_rightmost_untrusted (parseAddr parseAddrPort : Bytes → Option Addr) (trustedProxies : List Prefix)
    (remoteAddr : Bytes) (peer a : Addr) (values : List Bytes) (before after : List (Option Addr))
    (hpeer : parseAddrPort remoteAddr = some peer)
    (hroute : route parseAddr peer values = before ++ some a :: after) (ha : trusted trustedProxies a = false)
    (hafter : ∀ hop ∈ after, Trusted trustedProxies hop) :
    clientAddr parseAddr parseAddrPort trustedProxies ⟨remoteAddr, values⟩ = a ∧
      ∀ values', AgreesFrom before.length values values' →
        clientAddr parseAddr parseAddrPort trustedProxies ⟨remoteAddr, values'⟩ = a := by
  unfold route at hroute
  rcases List.eq_nil_or_concat after with rfl | ⟨after, last, rfl⟩
  · -- The peer itself is not trusted, and no header is looked at.
    obtain ⟨-, hlast⟩ := List.append_inj' hroute rfl
    obtain rfl : peer.unmap = a := by simpa using hlast
    exact ⟨clientAddr_peer hpeer ha, fun values' _ => clientAddr_peer hpeer ha⟩
  · rw [List.concat_eq_append] at hroute hafter
    rw [← List.cons_append, ← List.append_assoc] at hroute
    obtain ⟨hhops, hlast⟩ := List.append_inj' hroute rfl
    obtain rfl : some peer.unmap = last := by simpa using hlast
    obtain ⟨_, ⟨⟩, htrusted⟩ := hafter (some peer.unmap) (by simp)
    obtain ⟨hbefore, hrest, hsplit, hlength, hrest'⟩ := List.map_eq_append_iff.mp hhops
    obtain ⟨hop, hright, rfl, hhop, hmap⟩ := List.map_eq_cons_iff.mp hrest'
    have hright : ∀ h ∈ hright, Trusted trustedProxies (hopAddr parseAddr h) := by
      intro h hh
      apply hafter
      rw [List.mem_append, ← hmap]
      exact .inl (List.mem_map_of_mem hh)
    refine ⟨clientAddr_hop hpeer htrusted hsplit hright hhop ha, fun values' hagrees => ?_⟩
    have hn : before.length = hbefore.length := by rw [← hlength, List.length_map]
    obtain ⟨before', hhops'⟩ := hagrees.hops (by rw [hsplit, hn]; simp)
    rw [hsplit, hn, List.drop_left] at hhops'
    exact clientAddr_hop hpeer htrusted hhops' hright hhop ha

/-- A parser that knows three addresses. -/
def parseKnown (s : Bytes) : Option Addr :=
  [(utf8 "10.0.0.1:4711", Addr.v4 10 0 0 1), (utf8 "10.0.0.2", .v4 10 0 0 2),
    (utf8 "203.0.113.7", .v4 203 0 113 7)].lookup s

/-- Two proxies, and a client that wrote a header of its own. -/
theorem clientAddr_rightmost_untrusted_forged :
    let values := [utf8 "spoofed", utf8 "203.0.113.7, 10.0.0.2"]
    clientAddr parseKnown parseKnown [⟨.v4 10 0 0 0, 8⟩] ⟨utf8 "10.0.0.1:4711", values⟩ = .v4 203 0 113 7 ∧
      ∀ values', AgreesFrom 1 values values' →
        clientAddr parseKnown parseKnown [⟨.v4 10 0 0 0, 8⟩] ⟨utf8 "10.0.0.1:4711", values'⟩ = .v4 203 0 113 7 :=
  clientAddr_rightmost_untrusted parseKnown parseKnown [⟨.v4 10 0 0 0, 8⟩] (utf8 "10.0.0.1:4711") (.v4 10 0 0 1)
    (.v4 203 0 113 7) [utf8 "spoofed", utf8 "203.0.113.7, 10.0.0.2"] [none] [some (.v4 10 0 0 2), some (.v4 10 0 0 1)]
    (by decide) (by decide) (by decide) (by
      intro hop hhop
      simp only [List.mem_cons, List.not_mem_nil, or_false] at hhop
      rcases hhop with rfl | rfl
      · exact ⟨_, rfl, by decide⟩
      · exact ⟨_, rfl, by decide⟩)

end Syslogc.Api
