-- SUMMARY: Storage writers: retries and the bisection of `writeRange`.
import Syslogc.Storage.Types

/-!
# Storage writers

`writeRange` writes the rows `lo..hi` of a batch. It retries transient failures
and bisects a rejected range until the bad rows stand alone. What a single turn
of its loop decides is `afterWrite`; the interleaved model of the pipeline takes
the same decisions, one turn at a time.
-/

namespace Syslogc.Pipeline

open Storage

/-! ## Batches -/

/-- A flushed batch: the entries of one tenant and, index by index, the source
each of them came from. -/
structure Batch (ε κ : Type) where
  tenant : String
  entries : List ε
  sources : List κ
  bytes : Nat
  aligned : sources.length = entries.length

namespace Batch

variable {ε κ : Type}

/-- The entries paired with their sources. -/
def rows (b : Batch ε κ) : List (ε × κ) := b.entries.zip b.sources

@[simp] theorem rows_length (b : Batch ε κ) : b.rows.length = b.entries.length := by
  simp [rows, b.aligned]

@[simp] theorem rows_map_fst (b : Batch ε κ) : b.rows.map Prod.fst = b.entries := by
  simp [rows, List.map_fst_zip, b.aligned]

end Batch

/-- The slice `xs[lo:hi]`. -/
def slice {α : Type} (xs : List α) (lo hi : Nat) : List α := (xs.take hi).drop lo

section Slice

variable {α β : Type}

@[simp] theorem slice_full (xs : List α) : slice xs 0 xs.length = xs := by simp [slice]

theorem slice_append {xs : List α} {lo mid hi : Nat} (hlo : lo ≤ mid) (hhi : mid ≤ hi) :
    slice xs lo mid ++ slice xs mid hi = slice xs lo hi := by
  have hdrop : (xs.take hi).drop mid = ((xs.take hi).drop lo).drop (mid - lo) := by
    rw [List.drop_drop, Nat.add_sub_cancel' hlo]
  have htake : (xs.take mid).drop lo = ((xs.take hi).drop lo).take (mid - lo) := by
    rw [List.drop_take, List.drop_take, List.take_take]
    congr 1
    omega
  rw [slice, slice, slice, hdrop, htake, List.take_append_drop]

theorem slice_map (f : α → β) (xs : List α) (lo hi : Nat) :
    slice (xs.map f) lo hi = (slice xs lo hi).map f := by
  simp [slice, List.map_drop, List.map_take]

theorem slice_length {xs : List α} {lo hi : Nat} (h : hi ≤ xs.length) :
    (slice xs lo hi).length = hi - lo := by
  simp [slice, h]

theorem slice_ne_nil {xs : List α} {lo hi : Nat} (hlt : lo < hi) (h : hi ≤ xs.length) :
    slice xs lo hi ≠ [] := by
  intro hnil
  have hlen : (slice xs lo hi).length = hi - lo := slice_length h
  rw [hnil] at hlen
  simp at hlen
  omega

end Slice

/-! ## One turn of the write loop -/

inductive DropReason where
  | shutdown
  | rejected
deriving DecidableEq, Repr

/-- What the loop does with its range once `WriteBatch` has returned. -/
inductive Decision where
  | store
  | drop (reason : DropReason)
  | split
  | retry
deriving DecidableEq, Repr

/-- The body of the loop after the call, for a range of `n` rows. `cancelled` is
whether `writeCtx` has ended by then. -/
def afterWrite (cancelled : Bool) (n : Nat) : WriteResult → Decision
  | .ok => .store
  | .error cls =>
    if cancelled then .drop .shutdown
    else match classOf cls with
      | .rejected => if n > 1 then .split else .drop .rejected
      | .retryable | .fatal => .retry

/-- Where a range of `hi - lo > 1` rows is cut. -/
def midpoint (lo hi : Nat) : Nat := lo + (hi - lo) / 2

theorem lt_midpoint {lo hi : Nat} (h : hi - lo > 1) : lo < midpoint lo hi := by
  unfold midpoint; omega

theorem midpoint_lt {lo hi : Nat} (h : hi - lo > 1) : midpoint lo hi < hi := by
  unfold midpoint; omega

/-! ## writeRange -/

/-- What a write call meets outside the pipeline: a backend in some state `ω`,
whether the write context has ended, and what happens during a backoff wait. -/
structure WriteEnv (ω ε : Type) where
  write : ω → List ε → WriteResult × ω
  cancelled : ω → Bool
  wait : ω → ω

/-- The counters a writer keeps, with the rows they counted. -/
structure WriteLog (ε κ : Type) where
  stored : List (ε × κ) := []
  dropped : List ((ε × κ) × DropReason) := []
  healthy : Bool := true
  retries : Nat := 0

/-- Why a run of `writeRange` produced no result: the fuel of the model ran out,
or an index was out of range. -/
inductive Halt where
  | fuel
  | panic
deriving DecidableEq, Repr

section WriteRange

variable {ω ε κ : Type}

def countDropped (b : Batch ε κ) (lo hi : Nat) (reason : DropReason) (log : WriteLog ε κ) :
    WriteLog ε κ :=
  { log with dropped := log.dropped ++ (slice b.rows lo hi).map (·, reason) }

/-- Reads `Entries[lo]` for the oldest receive time, so an empty range panics. -/
def recordStored (b : Batch ε κ) (lo hi : Nat) (log : WriteLog ε κ) : Except Halt (WriteLog ε κ) :=
  match b.entries[lo]? with
  | none => .error .panic
  | some _ => .ok { log with stored := log.stored ++ slice b.rows lo hi, healthy := true }

/-- Write `entries[lo:hi]` of `b`, retrying transient failures and bisecting
rejected ranges. The fuel bounds the turns of the loop along one branch. -/
def writeRange (env : WriteEnv ω ε) (b : Batch ε κ) :
    Nat → Nat → Nat → ω → WriteLog ε κ → Except Halt (ω × WriteLog ε κ)
  | 0, _, _, _, _ => .error .fuel
  | fuel + 1, lo, hi, w, log =>
    if env.cancelled w then .ok (w, countDropped b lo hi .shutdown log)
    else
      let (result, w) := env.write w (slice b.entries lo hi)
      match afterWrite (env.cancelled w) (hi - lo) result with
      | .store => (recordStored b lo hi log).map (w, ·)
      | .drop .shutdown => .ok (w, countDropped b lo hi .shutdown log)
      | .drop .rejected =>
        -- The warning names the row, so it is read before it is counted.
        match b.entries[lo]? with
        | none => .error .panic
        | some _ => .ok (w, countDropped b lo hi .rejected log)
      | .split => do
        let (w, log) ← writeRange env b fuel lo (midpoint lo hi) w log
        writeRange env b fuel (midpoint lo hi) hi w log
      | .retry =>
        writeRange env b fuel lo hi (env.wait w)
          { log with healthy := false, retries := log.retries + 1 }

variable {log : WriteLog ε κ}

/-- More fuel changes nothing once the run has ended. -/
theorem writeRange_fuel_succ {env : WriteEnv ω ε} {b : Batch ε κ} {fuel lo hi : Nat} {w : ω}
    {r : ω × WriteLog ε κ}
    (h : writeRange env b fuel lo hi w log = .ok r) :
    writeRange env b (fuel + 1) lo hi w log = .ok r := by
  induction fuel generalizing lo hi w log r with
  | zero => simp [writeRange] at h
  | succ fuel ih =>
    rw [writeRange] at h ⊢
    split at h
    · rename_i hc
      rw [if_pos hc]
      exact h
    · rename_i hc
      rw [if_neg hc]
      cases hres : env.write w (slice b.entries lo hi) with
      | mk result w₁ =>
      simp only [hres] at h ⊢
      cases hdec : afterWrite (env.cancelled w₁) (hi - lo) result with
      | store => simpa only [hdec] using h
      | drop reason => cases reason <;> simpa only [hdec] using h
      | retry =>
        simp only [hdec] at h ⊢
        exact ih h
      | split =>
        simp only [hdec] at h ⊢
        cases hleft : writeRange env b fuel lo (midpoint lo hi) w₁ log with
        | error e => rw [hleft] at h; cases h
        | ok r₁ =>
          rw [hleft] at h
          rw [ih hleft]
          exact ih h

theorem writeRange_fuel_le {env : WriteEnv ω ε} {b : Batch ε κ} {fuel fuel' lo hi : Nat} {w : ω}
    {r : ω × WriteLog ε κ} (hle : fuel ≤ fuel')
    (h : writeRange env b fuel lo hi w log = .ok r) :
    writeRange env b fuel' lo hi w log = .ok r := by
  induction hle with
  | refl => exact h
  | step _ ih => exact writeRange_fuel_succ ih

/-! ## A backend with poisoned rows -/

/-- Offered the rows `xs` in state `w`, the backend fails transiently a finite
number of times and then gives its verdict, which leaves it in state `w'`: it
rejects the rows exactly when one of them is in `P`. -/
inductive Settles (env : WriteEnv ω ε) (P : ε → Prop) (xs : List ε) : ω → ω → Prop where
  | accept {w w' : ω} :
      (∀ x ∈ xs, ¬ P x) → env.write w xs = (.ok, w') → Settles env P xs w w'
  | reject {w w' : ω} :
      (∃ x ∈ xs, P x) → env.write w xs = (.error (some .rejected), w') → Settles env P xs w w'
  | transient {w w₁ w' : ω} {cls : Option ErrorClass} :
      env.write w xs = (.error cls, w₁) → classOf cls ≠ .rejected →
      Settles env P xs (env.wait w₁) w' → Settles env P xs w w'

/-- The rows of a range that survive, and those that are counted as rejected. -/
structure Isolated (P : ε → Prop) [DecidablePred P] (b : Batch ε κ) (lo hi : Nat)
    (log log' : WriteLog ε κ) : Prop where
  stored : log'.stored = log.stored ++ (slice b.rows lo hi).filter fun r => ¬ P r.1
  dropped : log'.dropped =
    log.dropped ++ ((slice b.rows lo hi).filter fun r => P r.1).map (·, .rejected)

variable {env : WriteEnv ω ε} {P : ε → Prop} [DecidablePred P] {b : Batch ε κ}

/-- Isolating the two halves of a range isolates the range. -/
theorem Isolated.append {lo mid hi : Nat} {log₁ log' : WriteLog ε κ}
    (hlo : lo ≤ mid) (hhi : mid ≤ hi)
    (hleft : Isolated P b lo mid log log₁) (hright : Isolated P b mid hi log₁ log') :
    Isolated P b lo hi log log' := by
  constructor
  · rw [hright.stored, hleft.stored, ← slice_append hlo hhi, List.filter_append,
      List.append_assoc]
  · rw [hright.dropped, hleft.dropped, ← slice_append hlo hhi, List.filter_append,
      List.map_append, List.append_assoc]

/-- The rows of a range are the rows whose entries the backend was offered. -/
theorem slice_rows_fst (b : Batch ε κ) (lo hi : Nat) :
    (slice b.rows lo hi).map Prod.fst = slice b.entries lo hi := by
  rw [← slice_map, b.rows_map_fst]

theorem isolated_of_accept {lo hi : Nat}
    (hclean : ∀ x ∈ slice b.entries lo hi, ¬ P x) :
    Isolated P b lo hi log
      { log with stored := log.stored ++ slice b.rows lo hi, healthy := true } := by
  have hrows : ∀ r ∈ slice b.rows lo hi, ¬ P r.1 := by
    intro r hr
    apply hclean
    rw [← slice_rows_fst]
    exact List.mem_map_of_mem hr
  constructor
  · simp only [List.append_cancel_left_eq]
    exact (List.filter_eq_self.mpr (by simpa using hrows)).symm
  · have hnone : (slice b.rows lo hi).filter (fun r => P r.1) = [] :=
      List.filter_eq_nil_iff.mpr (by simpa using hrows)
    simp [hnone]

/-- A rejected range of a single row drops exactly that row. -/
theorem isolated_of_reject {lo hi : Nat} (hlt : lo < hi)
    (hhi : hi ≤ b.entries.length) (hone : ¬ hi - lo > 1)
    (hbad : ∃ x ∈ slice b.entries lo hi, P x) :
    Isolated P b lo hi log (countDropped b lo hi .rejected log) := by
  have hlen : (slice b.rows lo hi).length = 1 := by
    rw [slice_length (by simpa using hhi)]
    omega
  obtain ⟨r, hr⟩ := List.length_eq_one_iff.mp hlen
  have hP : P r.1 := by
    obtain ⟨x, hx, hPx⟩ := hbad
    rw [← slice_rows_fst, hr] at hx
    simp only [List.map_cons, List.map_nil, List.mem_singleton] at hx
    rw [← hx]
    exact hPx
  constructor
  · simp [countDropped, hr, hP]
  · simp [countDropped, hr, hP]

/-- The induction behind `writeRange_isolates`: on the number of rows, and for a
fixed range on the transient failures the backend has left. -/
theorem writeRange_range_isolates (hlive : ∀ w, env.cancelled w = false)
    (hsettles : ∀ xs w, xs ≠ [] → ∃ w', Settles env P xs w w')
    (n : Nat) : ∀ (lo hi : Nat) (w : ω) (log : WriteLog ε κ), hi - lo = n → lo < hi →
      hi ≤ b.entries.length →
      ∃ fuel w' log', writeRange env b fuel lo hi w log = .ok (w', log') ∧
        Isolated P b lo hi log log' := by
  induction n using Nat.strong_induction_on with
  | _ n ih =>
  intro lo hi w log hn hlt hhi
  have hentry : ∃ e, b.entries[lo]? = some e := ⟨_, List.getElem?_eq_getElem (by omega)⟩
  obtain ⟨e, he⟩ := hentry
  obtain ⟨w', hset⟩ := hsettles (slice b.entries lo hi) w (slice_ne_nil hlt hhi)
  induction hset generalizing log with
  | @accept w w' hclean hwrite =>
    refine ⟨1, w', _, ?_, isolated_of_accept hclean⟩
    simp [writeRange, hlive, hwrite, afterWrite, recordStored, he, Except.map]
  | @reject w w' hbad hwrite =>
    by_cases hmany : hi - lo > 1
    · have hl := lt_midpoint hmany
      have hr := midpoint_lt hmany
      obtain ⟨f₁, w₁, log₁, hrun₁, hiso₁⟩ :=
        ih (midpoint lo hi - lo) (by omega) lo (midpoint lo hi) w' log rfl hl (by omega)
      obtain ⟨f₂, w₂, log₂, hrun₂, hiso₂⟩ :=
        ih (hi - midpoint lo hi) (by omega) (midpoint lo hi) hi w₁ log₁ rfl hr hhi
      refine ⟨max f₁ f₂ + 1, w₂, log₂, ?_, hiso₁.append hl.le hr.le hiso₂⟩
      have h₁ := writeRange_fuel_le (le_max_left f₁ f₂) hrun₁
      have h₂ := writeRange_fuel_le (le_max_right f₁ f₂) hrun₂
      simp [writeRange, hlive, hwrite, afterWrite, classOf, hmany, h₁, h₂, bind, Except.bind]
    · refine ⟨1, w', _, ?_, isolated_of_reject hlt hhi hmany hbad⟩
      simp [writeRange, hlive, hwrite, afterWrite, classOf, hmany, he]
  | @transient w w₁ w' cls hwrite hcls _ ih' =>
    obtain ⟨f, w₂, log', hrun, hiso⟩ :=
      ih' { log with healthy := false, retries := log.retries + 1 }
    refine ⟨f + 1, w₂, log', ?_, ⟨hiso.stored, hiso.dropped⟩⟩
    have hdec : afterWrite false (hi - lo) (.error cls) = .retry := by
      cases hc : classOf cls with
      | rejected => exact absurd hc hcls
      | retryable => simp [afterWrite, hc]
      | fatal => simp [afterWrite, hc]
    simp [writeRange, hlive, hwrite, hdec, hrun]

/-- Against a backend that rejects exactly the batches holding a row of `P`,
however often it fails transiently first, writing a whole batch ends with the
rows outside `P` stored and the rows of `P` counted as rejected, each once and
in order. -/
theorem writeRange_isolates (b : Batch ε κ) (hne : b.entries ≠ [])
    (hlive : ∀ w, env.cancelled w = false)
    (hsettles : ∀ xs w, xs ≠ [] → ∃ w', Settles env P xs w w') (w : ω) (log : WriteLog ε κ) :
    ∃ fuel w' log',
      (∀ fuel' ≥ fuel, writeRange env b fuel' 0 b.entries.length w log = .ok (w', log')) ∧
      log'.stored = log.stored ++ b.rows.filter (fun r => ¬ P r.1) ∧
      log'.dropped = log.dropped ++ (b.rows.filter fun r => P r.1).map (·, .rejected) := by
  have hlen : 0 < b.entries.length := List.length_pos_iff.mpr hne
  obtain ⟨fuel, w', log', hrun, hiso⟩ :=
    writeRange_range_isolates (P := P) (b := b) hlive hsettles b.entries.length
      0 b.entries.length w log rfl hlen le_rfl
  have hfull : slice b.rows 0 b.entries.length = b.rows := by
    rw [← b.rows_length, slice_full]
  refine ⟨fuel, w', log', fun fuel' hle => writeRange_fuel_le hle hrun, ?_, ?_⟩
  · rw [hiso.stored, hfull]
  · rw [hiso.dropped, hfull]

end WriteRange

/-- A backend that fails `w` more times and then rejects what holds a bad entry. -/
def flakyBackend (bad : Nat → Bool) : WriteEnv Nat Nat where
  write w xs :=
    match w with
    | 0 => (if xs.any bad then .error (some .rejected) else .ok, 0)
    | w + 1 => (.error none, w)
  cancelled _ := false
  wait w := w

theorem flakyBackend_settles (bad : Nat → Bool) (xs : List Nat) (w : Nat) :
    Settles (flakyBackend bad) (fun x => bad x) xs w 0 := by
  induction w with
  | zero =>
    by_cases h : xs.any bad
    · exact .reject (List.any_eq_true.mp h) (by simp only [flakyBackend, if_pos h])
    · refine .accept (fun x hx hbad => h (List.any_eq_true.mpr ⟨x, hx, hbad⟩)) ?_
      simp only [flakyBackend, if_neg h]
  | succ w ih => exact @Settles.transient _ _ _ _ _ _ _ _ none rfl (by decide) ih

/-- Three rows, the middle one bad, and a backend that first fails twice. -/
theorem writeRange_isolates_middle_row :
    ∃ fuel w' log',
      (∀ fuel' ≥ fuel, writeRange (flakyBackend (· == 2))
        (⟨"default", [1, 2, 3], ["a", "b", "a"], 0, rfl⟩ : Batch Nat String) fuel' 0 3 2 {}
          = .ok (w', log')) ∧
      log'.stored = [(1, "a"), (3, "a")] ∧ log'.dropped = [((2, "b"), .rejected)] :=
  writeRange_isolates (P := fun x => (x == 2) = true)
    (⟨"default", [1, 2, 3], ["a", "b", "a"], 0, rfl⟩ : Batch Nat String) (by simp)
    (fun _ => rfl) (fun xs w _ => ⟨0, flakyBackend_settles (· == 2) xs w⟩) 2 {}

end Syslogc.Pipeline
