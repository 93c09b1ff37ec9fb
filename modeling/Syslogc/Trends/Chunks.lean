-- SUMMARY: Counting in chunks gives the rows of one query.
import Syslogc.Trends.Coverage

/-!
# Counting in chunks

The recorder asks for a few categories at a time. Of the log store it needs that a category
is counted the same whatever else is in the query: then the rows of the chunks are those of
one query for all categories.
-/

namespace Syslogc.Trends

open Instants Fallible Syslogc.VictoriaLogs

variable {ε : Type} (querier : Nat → CategoryQuery → Except ε (List CategoryRow)) (sel : Selection)
  (distinctField : Bytes) (step : Step)

/-- `countInChunks`, for any log store: `querier` says how it answers the query of each
number, and the first one is `n`. -/
def countInChunks : Nat → List (List Category) → Except ε (List CategoryRow)
  | _, [] => .ok []
  | n, part :: parts => do
    let rows ← querier n (groupQuery sel distinctField step part)
    let more ← countInChunks (n + 1) parts
    return rows ++ more

/-- Each category is counted independently of the others in the query. -/
def Independent : Prop :=
  ∃ count : Category → Set CategoryRow, ∀ n categories rows,
    querier n (groupQuery sel distinctField step categories) = .ok rows →
    ∀ row, row ∈ rows ↔ ∃ c ∈ categories, row ∈ count c

variable {querier sel distinctField step} {parts : List (List Category)} {categories : List Category} {n : Nat}

/-- The rows are those of the answers, one for each chunk. -/
theorem countInChunks_eq_ok {rows : List CategoryRow}
    (h : countInChunks querier sel distinctField step n parts = .ok rows) :
    ∃ answers, rows = answers.flatten ∧
      List.Forall₂ (fun part answer => ∃ m, querier m (groupQuery sel distinctField step part) = .ok answer)
        parts answers := by
  induction parts generalizing n rows with
  | nil =>
    cases h
    exact ⟨[], rfl, .nil⟩
  | cons part parts ih =>
    obtain ⟨answer, hanswer, h⟩ := bind_eq_ok.mp h
    obtain ⟨more, hmore, h⟩ := bind_eq_ok.mp h
    obtain ⟨answers, rfl, hanswers⟩ := ih hmore
    exact ⟨answer :: answers, (pure_eq_ok.mp h).symm, .cons ⟨n, hanswer⟩ hanswers⟩

/-- Counting fails exactly if the query for a chunk fails. -/
theorem countInChunks_eq_error :
    (∃ e, countInChunks querier sel distinctField step n parts = .error e) ↔
      ∃ i part e, parts[i]? = some part ∧ querier (n + i) (groupQuery sel distinctField step part) = .error e := by
  induction parts generalizing n with
  | nil => simp [countInChunks]
  | cons part parts ih =>
    have hrest : (∃ i part' e, (part :: parts)[i]? = some part' ∧
          querier (n + i) (groupQuery sel distinctField step part') = .error e) ↔
        (∃ e, querier n (groupQuery sel distinctField step part) = .error e) ∨
          ∃ i part' e, parts[i]? = some part' ∧
            querier (n + 1 + i) (groupQuery sel distinctField step part') = .error e := by
      constructor
      · rintro ⟨_ | i, part', e, hpart, herror⟩
        · cases hpart
          exact .inl ⟨e, herror⟩
        · exact .inr ⟨i, part', e, hpart, by rwa [add_assoc, add_comm 1]⟩
      · rintro (⟨e, herror⟩ | ⟨i, part', e, hpart, herror⟩)
        · exact ⟨0, part, e, rfl, herror⟩
        · exact ⟨i + 1, part', e, hpart, by rwa [add_comm i, ← add_assoc]⟩
    rw [hrest, ← ih, countInChunks]
    cases hfirst : querier n (groupQuery sel distinctField step part) with
    | error e => simp [bind, Except.bind]
    | ok rows =>
      cases countInChunks querier sel distinctField step (n + 1) parts with
      | error e => simp [bind, Except.bind]
      | ok more => simp [bind, Except.bind, pure, Except.pure]

/-- Counting in chunks of any size gives the rows of one query for all categories, and
fails exactly if the query for a chunk fails. -/
theorem countInChunks_whole (h : Independent querier sel distinctField step) (chunk : Nat)
    (categories : List Category) :
    (∀ n rows, countInChunks querier sel distinctField step n (groups chunk categories) = .ok rows →
      ∀ m whole, querier m (groupQuery sel distinctField step categories) = .ok whole →
      ∀ row, row ∈ rows ↔ row ∈ whole) ∧
    ∀ n, (∃ e, countInChunks querier sel distinctField step n (groups chunk categories) = .error e) ↔
      ∃ i part e, (groups chunk categories)[i]? = some part ∧
        querier (n + i) (groupQuery sel distinctField step part) = .error e := by
  refine ⟨fun n rows hrows m whole hwhole row => ?_, fun n => countInChunks_eq_error⟩
  obtain ⟨count, hcount⟩ := h
  obtain ⟨answers, rfl, hanswers⟩ := countInChunks_eq_ok hrows
  rw [hcount m categories whole hwhole row, List.mem_flatten]
  constructor
  · rintro ⟨answer, hanswer, hrow⟩
    obtain ⟨part, hpart, k, hquery⟩ := Lists.forall₂_exists_left hanswers hanswer
    obtain ⟨c, hc, hmem⟩ := (hcount k part answer hquery row).mp hrow
    refine ⟨c, ?_, hmem⟩
    rw [← Lists.flatten_pieces _ categories]
    exact List.mem_flatten_of_mem hpart hc
  · rintro ⟨c, hc, hmem⟩
    obtain ⟨part, hpart, hcpart⟩ := List.mem_flatten.mp ((Lists.flatten_pieces _ categories).symm ▸ hc)
    obtain ⟨answer, hanswer, k, hquery⟩ := Lists.forall₂_exists_right hanswers hpart
    exact ⟨answer, hanswer, (hcount k part answer hquery row).mpr ⟨c, hcpart, hmem⟩⟩

/-- A log store that counts one message of one client for each category. -/
def oneEach (_ : Nat) (q : CategoryQuery) : Except Bytes (List CategoryRow) :=
  .ok (q.categories.map fun c => ⟨q.range.start, c.name, 1, 1⟩)

theorem oneEach_independent (sel : Selection) (distinctField : Bytes) (step : Step) :
    Independent oneEach sel distinctField step := by
  refine ⟨fun c => {⟨sel.range.start, c.name, 1, 1⟩}, fun n categories rows h row => ?_⟩
  cases h
  simp [groupQuery, eq_comm]

def firstDay : Selection where
  tenant := []
  range := ⟨0, day⟩

def named (name : String) : Category := { name := utf8 name }

/-- Two categories, one at a time. -/
theorem countInChunks_whole_pair : ∃ rows whole,
    countInChunks oneEach firstDay [] resolutionHour 0 (groups 1 [named "mail", named "web"]) = .ok rows ∧
      oneEach 0 (groupQuery firstDay [] resolutionHour [named "mail", named "web"]) = .ok whole ∧
      ∀ row, row ∈ rows ↔ row ∈ whole := by
  have hrows : countInChunks oneEach firstDay [] resolutionHour 0 (groups 1 [named "mail", named "web"]) =
      .ok [⟨0, utf8 "mail", 1, 1⟩, ⟨0, utf8 "web", 1, 1⟩] := by
    decide +kernel
  exact ⟨_, _, hrows, rfl,
    (countInChunks_whole (oneEach_independent firstDay [] resolutionHour) 1 _).1 0 _ hrows 0 _ rfl⟩

end Syslogc.Trends
