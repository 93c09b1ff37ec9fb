-- SUMMARY: IP addresses of either version, and their text.
import Syslogc.Lib.Decimal

/-!
# IP addresses
-/

namespace Netip

/-- An address as `netip.Addr` holds it. A zone is any string; there is none if it is empty. -/
inductive Addr where
  | invalid
  | v4 (a b c d : UInt8)
  | v6 (groups : Vector UInt16 8) (zone : Bytes)
deriving DecidableEq, Repr

namespace Addr

def isValid : Addr → Bool
  | .invalid => false
  | _ => true

def zone : Addr → Bytes
  | .v6 _ zone => zone
  | _ => []

/-- An IPv4 address that is written as an IPv6 address. -/
def is4In6 (groups : Vector UInt16 8) : Bool := groups.toList.take 6 = [0, 0, 0, 0, 0, 0xFFFF]

def low (g : UInt16) : UInt8 := UInt8.ofNat (g.toNat % 256)
def high (g : UInt16) : UInt8 := UInt8.ofNat (g.toNat / 256)

def unmap : Addr → Addr
  | .v6 groups zone =>
    if is4In6 groups then .v4 (high groups[6]) (low groups[6]) (high groups[7]) (low groups[7]) else .v6 groups zone
  | a => a

def text4 (a b c d : UInt8) : Bytes :=
  Decimal.text a.toNat ++ 46 :: Decimal.text b.toNat ++ 46 :: Decimal.text c.toNat ++ 46 :: Decimal.text d.toNat

/-- Where the first of the longest runs of two or more zeros starts and ends. -/
def zeroRun (groups : List UInt16) : Option (Nat × Nat) :=
  (List.range groups.length).foldl (fun run i =>
    let l := ((groups.drop i).takeWhile (· = 0)).length
    if 2 ≤ l ∧ run.all (fun r => r.2 - r.1 < l) then some (i, i + l) else run) none

def groupsText (groups : List UInt16) : Bytes :=
  ((groups.map fun g => Decimal.inBase 16 g.toNat).intersperse [58]).flatten

def text6 (groups : List UInt16) : Bytes :=
  match zeroRun groups with
  | none => groupsText groups
  | some (start, stop) => groupsText (groups.take start) ++ [58, 58] ++ groupsText (groups.drop stop)

/-- What stands before the zone. -/
def bare : Addr → Bytes
  | .invalid => []
  | .v4 a b c d => text4 a b c d
  | .v6 groups _ =>
    if is4In6 groups then
      utf8 "::ffff:" ++ text4 (high groups[6]) (low groups[6]) (high groups[7]) (low groups[7])
    else text6 groups.toList

/-- Go's `Addr.AppendTo`. The zone is not looked at. -/
def text (a : Addr) : Bytes := a.bare ++ if a.zone = [] then [] else 37 :: a.zone

/-- A hexadecimal digit, a point or a colon. -/
def isMark (c : UInt8) : Bool := Decimal.isHexDigit c || c = 46 || c = 58

theorem isMark_of_mem_text4 {a b c d x : UInt8} (h : x ∈ text4 a b c d) : isMark x = true := by
  have hdigit {n : Nat} (hx : x ∈ Decimal.text n) : isMark x = true := by
    simp [isMark, Decimal.isHexDigit, Decimal.isDigit_of_mem_text hx]
  simp only [text4, List.mem_append, List.mem_cons] at h
  rcases h with ((hx | rfl | hx) | rfl | hx) | rfl | hx
  all_goals first | rfl | exact hdigit hx

theorem isMark_of_mem_groupsText {groups : List UInt16} {x : UInt8} (h : x ∈ groupsText groups) : isMark x = true := by
  obtain ⟨part, hpart, hx⟩ := List.mem_flatten.mp h
  have hmem : part = [58] ∨ part ∈ groups.map fun g => Decimal.inBase 16 g.toNat := by
    generalize groups.map (fun g => Decimal.inBase 16 g.toNat) = parts at hpart
    induction parts using List.twoStepInduction with
    | nil => cases hpart
    | singleton a => exact .inr hpart
    | cons_cons a b l _ ih =>
      rw [List.intersperse_cons_cons, List.mem_cons, List.mem_cons] at hpart
      obtain rfl | rfl | hpart := hpart
      · exact .inr List.mem_cons_self
      · exact .inl rfl
      · exact (ih b hpart).imp_right (List.mem_cons_of_mem a)
  obtain rfl | hpart := hmem
  · rw [List.mem_singleton] at hx
    subst hx
    rfl
  · obtain ⟨g, -, rfl⟩ := List.mem_map.mp hpart
    simp [isMark, Decimal.isHexDigit_of_mem_inBase hx]

theorem isMark_of_mem_bare {a : Addr} {x : UInt8} (h : x ∈ a.bare) : isMark x = true := by
  cases a with
  | invalid => cases h
  | v4 a b c d => exact isMark_of_mem_text4 h
  | v6 groups zone =>
    rw [bare] at h
    split at h
    · obtain h | h := List.mem_append.mp h
      · have hall : ∀ x ∈ utf8 "::ffff:", isMark x = true := by decide +kernel
        exact hall x h
      · exact isMark_of_mem_text4 h
    · unfold text6 at h
      split at h
      · exact isMark_of_mem_groupsText h
      · simp only [List.mem_append, List.mem_cons, List.not_mem_nil, or_false] at h
        rcases h with (h | rfl | rfl) | h
        all_goals first | rfl | exact isMark_of_mem_groupsText h

/-! ## Prefixes -/

/-- The bits of an address, the first one first. -/
def bits : Addr → List Bool
  | .invalid => []
  | .v4 a b c d => [a, b, c, d].flatMap fun x => (List.range 8).map fun i => x.toNat.testBit (7 - i)
  | .v6 groups _ => groups.toList.flatMap fun g => (List.range 16).map fun i => g.toNat.testBit (15 - i)

end Addr

structure Prefix where
  ip : Addr
  bits : Nat
deriving DecidableEq, Repr

/-- Go's `Prefix.Contains`: never across versions, and never an address with a zone. -/
def Prefix.contains (p : Prefix) (a : Addr) : Bool :=
  p.ip.isValid && a.zone = [] && p.ip.bits.length = a.bits.length && p.ip.bits.take p.bits = a.bits.take p.bits

end Netip
