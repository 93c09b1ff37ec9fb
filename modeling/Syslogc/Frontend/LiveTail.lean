-- SUMMARY: The ring buffers of the live tail, against lists.
import Mathlib

/-!
# Live tail

The live tail shows the last rows it was sent, in a ring buffer; while it is paused they go
into a second one. For everything that can be read of them the two buffers are lists that
keep their last `capacity` elements.
-/

namespace Syslogc.LiveTail

variable {α : Type}

/-! ## The ring buffer -/

/-- A fixed number of places, of which `count` are used, from `start` on and around the end. -/
structure RingBuffer (α : Type) where
  buf : List (Option α)
  start : Nat
  count : Nat
  dropped : Nat
  start_lt : start < buf.length
  count_le : count ≤ buf.length

namespace RingBuffer

def new (capacity : ℕ+) : RingBuffer α where
  buf := List.replicate capacity none
  start := 0
  count := 0
  dropped := 0
  start_lt := by simp
  count_le := Nat.zero_le _

def capacity (r : RingBuffer α) : Nat := r.buf.length
def size (r : RingBuffer α) : Nat := r.count
def evicted (r : RingBuffer α) : Nat := r.dropped

/-- The place of the `i`-th element. -/
def index (r : RingBuffer α) (i : Nat) : Nat := (r.start + i) % r.buf.length

theorem index_lt (r : RingBuffer α) (i : Nat) : r.index i < r.buf.length :=
  Nat.mod_lt _ (Nat.zero_lt_of_lt r.start_lt)

/-- One turn of the loop of `push`. -/
def pushOne (r : RingBuffer α) (item : α) : RingBuffer α :=
  if h : r.count < r.buf.length then
    { r with
      buf := r.buf.set (r.index r.count) (some item)
      count := r.count + 1
      start_lt := by simpa using r.start_lt
      count_le := by simpa using h }
  else
    { r with
      buf := r.buf.set (r.index r.count) (some item)
      start := r.index 1
      dropped := r.dropped + 1
      start_lt := by simpa using r.index_lt 1
      count_le := by simpa using r.count_le }

def push (r : RingBuffer α) (items : List α) : RingBuffer α := items.foldl pushOne r

def toArray (r : RingBuffer α) : List α := (List.range r.count).filterMap fun i => r.buf[r.index i]?.join

def clear (r : RingBuffer α) : RingBuffer α where
  buf := List.replicate r.buf.length none
  start := 0
  count := 0
  dropped := 0
  start_lt := by simpa using Nat.zero_lt_of_lt r.start_lt
  count_le := Nat.zero_le _

def resize (r : RingBuffer α) (capacity : ℕ+) : RingBuffer α :=
  (new capacity).push (r.toArray.drop (r.toArray.length - capacity))

end RingBuffer

/-! ## The store -/

structure TailStore (α : Type) where
  rows : RingBuffer α
  pending : RingBuffer α
  paused : Bool := false
  received : Nat := 0

inductive Op (α : Type) where
  | push (rows : List α)
  | setPaused (paused : Bool)
  | clear
  | resize (capacity : ℕ+)

namespace TailStore

def new (capacity : ℕ+) : TailStore α := { rows := .new capacity, pending := .new capacity }

def step (s : TailStore α) : Op α → TailStore α
  | .push rows =>
    let s := { s with received := s.received + rows.length }
    if s.paused then { s with pending := s.pending.push rows } else { s with rows := s.rows.push rows }
  | .setPaused true => { s with paused := true }
  | .setPaused false =>
    { s with paused := false, rows := s.rows.push s.pending.toArray, pending := s.pending.clear }
  | .clear => { s with rows := s.rows.clear, pending := s.pending.clear }
  | .resize capacity => { s with rows := s.rows.resize capacity, pending := s.pending.resize capacity }

def run (capacity : ℕ+) (ops : List (Op α)) : TailStore α := ops.foldl step (new capacity)

def snapshot (s : TailStore α) : List α := s.rows.toArray
def pendingCount (s : TailStore α) : Nat := s.pending.size

end TailStore

/-! ## Lists that keep their last elements -/

structure Kept (α : Type) where
  items : List α := []
  evicted : Nat := 0

/-- What goes beyond the capacity is evicted, the oldest first. -/
def Kept.push (capacity : Nat) (k : Kept α) (items : List α) : Kept α where
  items := (k.items ++ items).rtake capacity
  evicted := k.evicted + (k.items.length + items.length - capacity)

structure Tail (α : Type) where
  capacity : Nat
  rows : Kept α := {}
  pending : Kept α := {}
  paused : Bool := false
  received : Nat := 0

def Tail.step (t : Tail α) : Op α → Tail α
  | .push rows =>
    let t := { t with received := t.received + rows.length }
    if t.paused then { t with pending := t.pending.push t.capacity rows }
    else { t with rows := t.rows.push t.capacity rows }
  | .setPaused true => { t with paused := true }
  | .setPaused false =>
    { t with paused := false, rows := t.rows.push t.capacity t.pending.items, pending := {} }
  | .clear => { t with rows := {}, pending := {} }
  | .resize capacity => { t with
      capacity
      rows := { items := t.rows.items.rtake capacity }
      pending := { items := t.pending.items.rtake capacity } }

def Tail.run (capacity : ℕ+) (ops : List (Op α)) : Tail α := ops.foldl Tail.step { capacity }

theorem rtake_of_length_le {l : List α} {n : Nat} (h : l.length ≤ n) : l.rtake n = l := by
  rw [List.rtake, Nat.sub_eq_zero_of_le h, List.drop_zero]

theorem length_rtake (l : List α) (n : Nat) : (l.rtake n).length = min n l.length := by
  rw [List.rtake, List.length_drop]
  omega

theorem rtake_append_rtake (n : Nat) (l l' : List α) : (l.rtake n ++ l').rtake n = (l ++ l').rtake n := by
  simp only [List.rtake, List.drop_append, List.length_append, List.length_drop, List.drop_drop]
  congr 2 <;> omega

theorem rtake_append_rtake_right (n : Nat) (l l' : List α) : (l ++ l'.rtake n).rtake n = (l ++ l').rtake n := by
  obtain h | h := Nat.le_total l'.length n
  · rw [rtake_of_length_le h]
  · have hlast {m : List α} (hm : n ≤ m.length) : (l ++ m).rtake n = m.rtake n := by
      rw [List.rtake, List.length_append, Nat.add_sub_assoc hm, List.drop_length_add_append, List.rtake]
    have hfull : (l'.rtake n).length = n := by rw [length_rtake, Nat.min_eq_left h]
    rw [hlast hfull.ge, hlast h, rtake_of_length_le hfull.le]

/-! ## What a ring buffer holds -/

/-- The elements of the buffer, the oldest first. -/
structure RingBuffer.Holds (r : RingBuffer α) (l : List α) : Prop where
  count : r.count = l.length
  cells : ∀ i < l.length, r.buf[r.index i]? = some l[i]?

variable {r : RingBuffer α} {l : List α}

theorem RingBuffer.Holds.toArray (h : r.Holds l) : r.toArray = l := by
  have hcells : ∀ i ∈ List.range l.length, r.buf[r.index i]?.join = l[i]? := fun i hi => by
    rw [h.cells i (List.mem_range.mp hi), Option.join_some]
  rw [RingBuffer.toArray, h.count, List.filterMap_congr hcells]
  clear h hcells
  induction l using List.reverseRecOn with
  | nil => rfl
  | append_singleton l x ih =>
    have hleft : ∀ i ∈ List.range l.length, (l ++ [x])[i]? = l[i]? := fun i hi =>
      List.getElem?_append_left (List.mem_range.mp hi)
    rw [List.length_append, List.length_singleton, List.range_succ, List.filterMap_append, List.filterMap_congr hleft,
      ih]
    simp

/-- Different elements have different places. -/
theorem RingBuffer.index_injective {i j : Nat} (hi : i < r.buf.length) (hj : j < r.buf.length)
    (h : r.index i = r.index j) : i = j :=
  (Nat.ModEq.add_left_cancel' r.start h).eq_of_lt_of_lt hi hj

theorem RingBuffer.Holds.pushOne (h : r.Holds l) (x : α) : (r.pushOne x).Holds ((l ++ [x]).rtake r.buf.length) := by
  have hcount := h.count
  have hle := r.count_le
  unfold RingBuffer.pushOne
  split
  · rename_i hlt
    rw [rtake_of_length_le (by simp; omega)]
    refine ⟨by simp [hcount], fun i hi => ?_⟩
    simp only [RingBuffer.index, List.length_set]
    change (r.buf.set (r.index r.count) (some x))[r.index i]? = _
    by_cases hlast : i = l.length
    · rw [hlast, ← hcount, List.getElem?_set_self (r.index_lt _), hcount]
      simp
    · have hi : i < l.length := by simp at hi; omega
      have hne : r.index r.count ≠ r.index i := fun heq => by
        have := r.index_injective hlt (by omega) heq
        omega
      rw [List.getElem?_set_ne hne, h.cells i hi, List.getElem?_append_left hi]
  · rename_i hfull
    have hlength : l.length = r.buf.length := by omega
    have hzero : r.index r.count = r.index 0 := by
      rw [RingBuffer.index, RingBuffer.index, hcount, hlength, Nat.add_mod_right, Nat.add_zero]
    have hrtake : (l ++ [x]).rtake r.buf.length = (l ++ [x]).drop 1 := by
      rw [List.rtake, List.length_append, hlength, List.length_singleton, Nat.add_sub_cancel_left]
    rw [hrtake]
    refine ⟨by simp [hcount], fun i hi => ?_⟩
    have hnext : (r.index 1 + i) % r.buf.length = r.index (i + 1) := by
      rw [RingBuffer.index, RingBuffer.index, Nat.mod_add_mod, Nat.add_assoc, Nat.add_comm 1]
    have hi : i < r.buf.length := by simpa [hlength] using hi
    rw [List.getElem?_drop, Nat.add_comm 1]
    simp only [RingBuffer.index, List.length_set]
    change (r.buf.set (r.index r.count) (some x))[(r.index 1 + i) % r.buf.length]? = _
    rw [hnext]
    by_cases hlast : i + 1 = r.buf.length
    · rw [hlast, ← hlength, ← hcount, List.getElem?_set_self (r.index_lt _), hcount]
      simp
    · have hne : r.index r.count ≠ r.index (i + 1) := fun heq => by
        have := r.index_injective (by omega) (by omega) (hzero ▸ heq)
        omega
      rw [List.getElem?_set_ne hne, h.cells (i + 1) (by omega), List.getElem?_append_left (by omega)]

theorem RingBuffer.pushOne_capacity (r : RingBuffer α) (x : α) : (r.pushOne x).buf.length = r.buf.length := by
  unfold RingBuffer.pushOne
  split <;> simp

theorem RingBuffer.pushOne_dropped (r : RingBuffer α) (x : α) :
    (r.pushOne x).dropped = r.dropped + (r.count + 1 - r.buf.length) := by
  have hle := r.count_le
  unfold RingBuffer.pushOne
  split <;> dsimp only <;> omega

/-- The buffer is one of the lists that keep their last elements. -/
structure RingBuffer.Refines (r : RingBuffer α) (capacity : Nat) (k : Kept α) : Prop where
  capacity : r.buf.length = capacity
  holds : r.Holds k.items
  evicted : r.dropped = k.evicted

variable {capacity : Nat} {k : Kept α}

theorem RingBuffer.refines_empty (hcapacity : r.buf.length = capacity) (hcount : r.count = 0)
    (hdropped : r.dropped = 0) :
    r.Refines capacity {} :=
  ⟨hcapacity, ⟨hcount, by rintro i ⟨⟩⟩, hdropped⟩

theorem RingBuffer.Refines.push (h : r.Refines capacity k) (items : List α) :
    (r.push items).Refines capacity (k.push capacity items) := by
  induction items generalizing r k with
  | nil =>
    have hle : k.items.length ≤ capacity := by rw [← h.holds.count, ← h.capacity]; exact r.count_le
    have hsame : k.push capacity [] = k := by
      simp [Kept.push, rtake_of_length_le hle, Nat.sub_eq_zero_of_le hle]
    rw [hsame]
    exact h
  | cons x items ih =>
    obtain rfl := h.capacity
    have hle : k.items.length ≤ r.buf.length := by rw [← h.holds.count]; exact r.count_le
    have hone : (r.pushOne x).Refines r.buf.length (k.push r.buf.length [x]) :=
      ⟨r.pushOne_capacity x, h.holds.pushOne x, by rw [r.pushOne_dropped, h.evicted, h.holds.count]; rfl⟩
    have hrest := ih hone
    have hsplit : (k.push r.buf.length [x]).push r.buf.length items = k.push r.buf.length (x :: items) := by
      simp only [Kept.push, rtake_append_rtake, List.append_assoc, List.singleton_append, length_rtake,
        List.length_append, List.length_cons, List.length_nil, Kept.mk.injEq, true_and]
      omega
    rwa [hsplit] at hrest

theorem RingBuffer.Refines.clear (h : r.Refines capacity k) : r.clear.Refines capacity {} :=
  RingBuffer.refines_empty (by simpa [RingBuffer.clear] using h.capacity) rfl rfl

theorem RingBuffer.new_refines (capacity : ℕ+) : (new capacity : RingBuffer α).Refines capacity {} :=
  RingBuffer.refines_empty (by simp [RingBuffer.new]) rfl rfl

theorem RingBuffer.Refines.resize (h : r.Refines capacity k) (capacity' : ℕ+) :
    (r.resize capacity').Refines capacity' { items := k.items.rtake capacity' } := by
  have hpush := (RingBuffer.new_refines capacity').push (k.items.rtake capacity')
  have hle : (k.items.rtake capacity').length ≤ capacity' := by rw [length_rtake]; exact Nat.min_le_left _ _
  have hitems : Kept.push capacity' {} (k.items.rtake capacity') = { items := k.items.rtake capacity' } := by
    simp [Kept.push, rtake_of_length_le hle, Nat.sub_eq_zero_of_le hle]
  rw [hitems] at hpush
  rw [RingBuffer.resize, h.holds.toArray]
  exact hpush

/-! ## What the store shows -/

structure TailStore.Refines (s : TailStore α) (t : Tail α) : Prop where
  rows : s.rows.Refines t.capacity t.rows
  pending : s.pending.Refines t.capacity t.pending
  paused : s.paused = t.paused
  received : s.received = t.received

theorem TailStore.Refines.step {s : TailStore α} {t : Tail α} (h : s.Refines t) (op : Op α) :
    (s.step op).Refines (t.step op) := by
  cases op with
  | push rows =>
    have hreceived : s.received + rows.length = t.received + rows.length := by rw [h.received]
    simp only [TailStore.step, Tail.step, h.paused]
    split
    · exact ⟨h.rows, h.pending.push rows, rfl, hreceived⟩
    · exact ⟨h.rows.push rows, h.pending, rfl, hreceived⟩
  | setPaused paused =>
    cases paused with
    | true => exact ⟨h.rows, h.pending, rfl, h.received⟩
    | false =>
      refine ⟨?_, h.pending.clear, rfl, h.received⟩
      simp only [TailStore.step, h.pending.holds.toArray]
      exact h.rows.push t.pending.items
  | clear => exact ⟨h.rows.clear, h.pending.clear, h.paused, h.received⟩
  | resize capacity => exact ⟨h.rows.resize capacity, h.pending.resize capacity, h.paused, h.received⟩

theorem TailStore.run_refines (capacity : ℕ+) (ops : List (Op α)) :
    (run capacity ops).Refines (Tail.run capacity ops) := by
  refine List.foldl_rel (r := TailStore.Refines) ?_ fun op _ s t h => h.step op
  exact ⟨RingBuffer.new_refines capacity, RingBuffer.new_refines capacity, rfl, rfl⟩

/-- The rows that an operation brings. -/
def Op.rows : Op α → List α
  | .push rows => rows
  | _ => []

def Op.isClear : Op α → Bool
  | .clear => true
  | _ => false

def Op.isResize : Op α → Bool
  | .resize _ => true
  | _ => false

/-- The operations after the last `clear`, or all of them. -/
def sinceClear (ops : List (Op α)) : List (Op α) := ops.rtakeWhile fun op => !op.isClear

/-- The rows received are those shown and those held back, each cut to the capacity. -/
def Tail.Received (t : Tail α) (rows : List α) : Prop :=
  ∃ shown held, shown ++ held = rows ∧ t.rows.items = shown.rtake t.capacity ∧
    t.pending.items = held.rtake t.capacity ∧ (t.paused = false → held = [])

theorem Tail.received_empty {t : Tail α} (hrows : t.rows = {}) (hpending : t.pending = {}) : t.Received [] :=
  ⟨[], [], rfl, by simp [hrows, List.rtake], by simp [hpending, List.rtake], fun _ => rfl⟩

theorem Tail.Received.step {t : Tail α} {rows : List α} (h : t.Received rows) {op : Op α} (hclear : op.isClear = false)
    (hresize : op.isResize = false) : (t.step op).Received (rows ++ op.rows) := by
  obtain ⟨shown, held, rfl, hrows, hpending, hpaused⟩ := h
  cases op with
  | clear => cases hclear
  | resize capacity => cases hresize
  | push new =>
    simp only [Tail.step]
    split
    · refine ⟨shown, held ++ new, (List.append_assoc ..).symm, hrows, ?_, by simp_all⟩
      simp only [Kept.push, hpending, rtake_append_rtake]
    · obtain rfl := hpaused (Bool.eq_false_of_not_eq_true ‹_›)
      refine ⟨shown ++ new, [], by simp [Op.rows], ?_, hpending, fun _ => rfl⟩
      simp only [Kept.push, hrows, rtake_append_rtake]
  | setPaused paused =>
    cases paused with
    | true => exact ⟨shown, held, (List.append_nil _).symm, hrows, hpending, by rintro ⟨⟩⟩
    | false =>
      refine ⟨shown ++ held, [], rfl, ?_, by simp [Tail.step, List.rtake], fun _ => rfl⟩
      simp only [Tail.step, Kept.push, hrows, hpending, rtake_append_rtake, rtake_append_rtake_right]

theorem Tail.run_received (capacity : ℕ+) {ops : List (Op α)} (h : ∀ op ∈ sinceClear ops, op.isResize = false) :
    (Tail.run capacity ops).Received ((sinceClear ops).flatMap Op.rows) := by
  induction ops using List.reverseRecOn with
  | nil => exact Tail.received_empty rfl rfl
  | append_singleton ops op ih =>
    have hrun : Tail.run capacity (ops ++ [op]) = (Tail.run capacity ops).step op := List.foldl_concat ..
    rw [hrun]
    cases hclear : op.isClear with
    | true =>
      rw [sinceClear, List.rtakeWhile_concat_neg _ _ _ (by simp [hclear])]
      cases op with
      | clear => exact Tail.received_empty rfl rfl
      | _ => cases hclear
    | false =>
      rw [sinceClear, List.rtakeWhile_concat_pos _ _ _ (by simp [hclear])] at h ⊢
      rw [List.flatMap_append, List.flatMap_singleton]
      exact (ih fun op hop => h op (List.mem_append_left _ hop)).step hclear (h op (by simp))

/-- After any operations the store is the model of two lists that keep their last elements:
what it shows and holds back, the sizes of its buffers, and what they evicted. While it is not
paused, and without a `resize` since the last `clear`, it shows the last rows received since. -/
theorem TailStore.run_lists (capacity : ℕ+) (ops : List (Op α)) :
    let s := run capacity ops
    let t := Tail.run capacity ops
    (s.snapshot = t.rows.items ∧ s.rows.size = t.rows.items.length ∧ s.rows.evicted = t.rows.evicted ∧
      s.pending.toArray = t.pending.items ∧ s.pendingCount = t.pending.items.length ∧
      s.pending.evicted = t.pending.evicted ∧
      s.rows.capacity = t.capacity ∧ s.pending.capacity = t.capacity ∧ s.paused = t.paused) ∧
    (s.paused = false → (∀ op ∈ sinceClear ops, op.isResize = false) →
      s.snapshot = ((sinceClear ops).flatMap Op.rows).rtake s.rows.capacity) := by
  intro s t
  have h : s.Refines t := run_refines capacity ops
  refine ⟨⟨h.rows.holds.toArray, h.rows.holds.count, h.rows.evicted, h.pending.holds.toArray, h.pending.holds.count,
    h.pending.evicted, h.rows.capacity, h.pending.capacity, h.paused⟩, fun hpaused hresize => ?_⟩
  obtain ⟨shown, held, hall, hrows, -, hheld⟩ := Tail.run_received capacity hresize
  obtain rfl := hheld (h.paused ▸ hpaused)
  rw [← hall, List.append_nil]
  exact h.rows.holds.toArray.trans (hrows.trans (by rw [RingBuffer.capacity, h.rows.capacity]))

/-- Four rows, two of them while paused, in buffers of three. -/
theorem TailStore.run_lists_resumed :
    (run 3 [.push [1, 2], .clear, .push [3, 4], .setPaused true, .push [5, 6], .setPaused false]).snapshot =
      [4, 5, 6] :=
  (run_lists 3 [.push [1, 2], .clear, .push [3, 4], .setPaused true, .push [5, 6], .setPaused false]).2 (by decide)
    (by decide)

end Syslogc.LiveTail
