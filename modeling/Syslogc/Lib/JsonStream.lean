-- SUMMARY: Where an object on a stream of JSON values ends.
import Syslogc.Lib.Json

/-!
# Objects on a stream

A decoder reads one value off a stream that goes on. Numbers need the byte after them;
an object does not. So a text that is an object is read as that object before any
continuation, and the continuation is what remains.
-/

namespace Json

open Bufio

/-- Only white space. -/
def Blank (b : Bytes) : Prop := ∀ c ∈ b, isSpace c = true

theorem blank_nil : Blank [] := by simp [Blank]

variable {b : Bytes}

theorem Blank.append {a : Bytes} (ha : Blank a) (hb : Blank b) : Blank (a ++ b) := by
  intro c hc
  exact (List.mem_append.mp hc).elim (ha c) (hb c)

theorem Blank.of_cons {c : UInt8} (h : Blank (c :: b)) : isSpace c = true ∧ Blank b :=
  ⟨h c (by simp), fun d hd => h d (by simp [hd])⟩

theorem blank_takeWhile (b : Bytes) : Blank (b.takeWhile isSpace) := by
  intro c hc
  exact List.mem_takeWhile_imp hc

theorem blank_iff_dropWhile : Blank b ↔ b.dropWhile isSpace = [] := by
  rw [List.dropWhile_eq_nil_iff]
  rfl

/-- White space in front is skipped. -/
theorem dropWhile_blank_append {ws : Bytes} (h : Blank ws) (b : Bytes) :
    (ws ++ b).dropWhile isSpace = b.dropWhile isSpace := by
  induction ws with
  | nil => rfl
  | cons c ws ih =>
    rw [List.cons_append, List.dropWhile_cons_of_pos h.of_cons.1, ih h.of_cons.2]

/-! ## The scanner inside a value -/

/-- Inside an object or an array. -/
structure Scanner.Inside (s : Scanner) : Prop where
  stack : s.stack ≠ []
  state : s.state ≠ .endTop

/-- What the byte `c` does to a scanner inside an object or an array: it is never the
byte after the value, and a closing bracket leaves the levels around it. -/
def Stays (c : UInt8) (r : Op × Scanner) : Prop :=
  match r.1 with
  | .done => False
  | .error => r.2.state = .error
  | .go => r.2.Inside
  | _ => (c = 93 ∨ c = 125) ∧ ∃ stack, r.2 = Scanner.pop stack

theorem Scanner.fail_stays (s : Scanner) (c : UInt8) : Stays c s.fail := rfl

theorem Scanner.push_stays (s : Scanner) (c : UInt8) {state : State} (ctx : Context)
    (hstate : state ≠ .endTop) : Stays c (s.push state ctx) := by
  unfold Scanner.push
  split
  · exact ⟨by simp, hstate⟩
  · exact s.fail_stays c

namespace Scanner.Inside

variable {s : Scanner}

theorem to_stays (h : s.Inside) (c : UInt8) {state : State} (hstate : state ≠ .endTop) :
    Stays c (s.to state) := ⟨h.stack, hstate⟩

theorem stepEndValue (h : s.Inside) (c : UInt8) : Stays c (s.stepEndValue c) := by
  unfold Scanner.stepEndValue
  split
  · exact absurd ‹_› h.stack
  · rename_i ctx stack _
    by_cases hspace : isSpace c = true
    · rw [if_pos hspace]
      exact h.to_stays c (by simp)
    · rw [if_neg hspace]
      cases ctx with
      | objectKey =>
        simp only
        split_ifs
        · exact ⟨by simp, by simp⟩
        · exact s.fail_stays c
      | objectValue =>
        simp only
        split_ifs
        · exact ⟨by simp, by simp⟩
        · exact ⟨.inr ‹_›, _, rfl⟩
        · exact s.fail_stays c
      | arrayValue =>
        simp only
        split_ifs
        · exact h.to_stays c (by simp)
        · exact ⟨.inl ‹_›, _, rfl⟩
        · exact s.fail_stays c

theorem stepBeginValue (h : s.Inside) (c : UInt8) : Stays c (s.stepBeginValue c) := by
  unfold Scanner.stepBeginValue
  split_ifs
  · exact h.to_stays c (by simp)
  · exact s.push_stays c _ (by simp)
  · exact s.push_stays c _ (by simp)
  all_goals first
    | exact h.to_stays c (by simp)
    | exact s.fail_stays c

theorem stepBeginString (h : s.Inside) (c : UInt8) : Stays c (s.stepBeginString c) := by
  unfold Scanner.stepBeginString
  split_ifs
  · exact h.to_stays c (by simp)
  · exact h.to_stays c (by simp)
  · exact s.fail_stays c

theorem stepZero (h : s.Inside) (c : UInt8) : Stays c (s.stepZero c) := by
  unfold Scanner.stepZero
  split_ifs
  · exact h.to_stays c (by simp)
  · exact h.to_stays c (by simp)
  · exact h.stepEndValue c

theorem stepExpSign (h : s.Inside) (c : UInt8) : Stays c (s.stepExpSign c) := by
  unfold Scanner.stepExpSign
  split_ifs
  · exact h.to_stays c (by simp)
  · exact s.fail_stays c

theorem step (h : s.Inside) (c : UInt8) : Stays c (s.step c) := by
  have hto : ∀ {state : State}, state ≠ .endTop → Stays c (s.to state) := h.to_stays c
  have hfail := s.fail_stays c
  have hend := h.stepEndValue c
  unfold Scanner.step
  split
  · split_ifs
    · exact hto (by simp)
    · exact hend
    · exact h.stepBeginValue c
  · exact h.stepBeginValue c
  · split_ifs
    · exact hto (by simp)
    · refine Inside.stepEndValue ?_ c
      exact ⟨by simp, h.state⟩
    · exact h.stepBeginString c
  · exact h.stepBeginString c
  · exact hend
  · exact absurd ‹_› h.state
  · split_ifs
    all_goals first
      | exact hto (by simp)
      | exact hfail
  · split_ifs
    all_goals first
      | exact hto (by simp)
      | exact hfail
  · split_ifs
    · split
      · exact hto (by simp)
      · exact hto (by simp)
    · exact hfail
  · split_ifs
    all_goals first
      | exact hto (by simp)
      | exact hfail
  · split_ifs
    · exact hto (by simp)
    · exact h.stepZero c
  · exact h.stepZero c
  · split_ifs
    · exact hto (by simp)
    · exact hfail
  · split_ifs
    · exact hto (by simp)
    · exact hto (by simp)
    · exact hend
  · split_ifs
    · exact hto (by simp)
    · exact h.stepExpSign c
  · exact h.stepExpSign c
  · split_ifs
    · exact hto (by simp)
    · exact hend
  · split_ifs
    · split
      · exact hto (by simp)
      · exact hto (by simp)
    · exact hfail
  · exact hfail

/-- A text that ends inside an object or an array is not complete. -/
theorem eof (h : s.Inside) : s.eof = false := by
  have hstep := h.step 32
  have hnext : (s.step 32).2.state ≠ .endTop := by
    unfold Stays at hstep
    split at hstep
    · exact hstep.elim
    · rw [hstep]
      simp
    · exact hstep.state
    · exact absurd hstep.1 (by decide)
  unfold Scanner.eof
  split
  · rfl
  · exact absurd ‹_› h.state
  · exact decide_eq_false hnext

end Scanner.Inside

/-- After the value only white space may follow. -/
theorem run_endTop {s : Scanner}
    (h : Scanner.run ⟨.endTop, []⟩ b = some s) (heof : s.eof = true) : Blank b := by
  induction b with
  | nil => exact blank_nil
  | cons c b ih =>
    by_cases hc : isSpace c = true
    · have hrun : Scanner.run ⟨.endTop, []⟩ b = some s := by
        simpa [Scanner.run, Scanner.step, Scanner.stepEndTop, hc] using h
      intro d hd
      obtain rfl | hd := List.mem_cons.mp hd
      · exact hc
      · exact ih hrun d hd
    · -- the scanner complains at the next byte, or at the end of the text
      simp [Scanner.run, Scanner.step, Scanner.stepEndTop, hc] at h
      cases b with
      | nil =>
        cases h
        cases heof
      | cons d b => simp [Scanner.run, Scanner.step, Scanner.fail] at h

/-- Where the text of a value is completed inside it, the value is read to the end of
the text, and not further. -/
theorem readValue_inside {s s' : Scanner} (hs : s.Inside)
    (hrun : s.run b = some s') (heof : s'.eof = true) (hlast : ∀ c, b.getLast? = some c → isSpace c = false)
    (failure : Failure) (blank : Bool) (more : Bytes) :
    readValue failure blank s (b ++ more) = .ok (b, more) := by
  induction b generalizing s blank with
  | nil =>
    cases hrun
    rw [hs.eof] at heof
    cases heof
  | cons c b ih =>
    have hstep := hs.step c
    have hlast' : ∀ d, b.getLast? = some d → isSpace d = false := by
      intro d hd
      apply hlast d
      rw [List.getLast?_cons, hd]
      rfl
    unfold Scanner.run at hrun
    split at hrun
    · cases hrun
    · rename_i hop
      have hconsume : ∀ blank, (s.step c).2.Inside →
          consume c (readValue failure blank (s.step c).2 (b ++ more)) = .ok (c :: b, more) := by
        intro blank hin
        rw [ih hin hrun hlast']
        rfl
      rw [List.cons_append, readValue]
      unfold Stays at hstep
      split
      · rename_i hdone
        rw [hdone] at hstep
        exact hstep.elim
      · exact absurd ‹_› hop
      · rename_i hgo
        rw [hgo] at hstep
        exact hconsume _ hstep
      · rename_i hdone _ hgo
        split at hstep
        · exact hstep.elim
        · exact absurd ‹_› hop
        · exact absurd ‹_› hgo
        · obtain ⟨-, stack, hpop⟩ := hstep
          cases stack with
          | nil =>
            -- the outermost level is closed: nothing but white space is left, so nothing is
            rw [hpop] at hrun ⊢
            have hblank := run_endTop (s := s') hrun heof
            have hb : b = [] := by
              cases hlastb : b.getLast? with
              | none => exact List.getLast?_eq_none_iff.mp hlastb
              | some d =>
                have := hblank d (List.mem_of_getLast? hlastb)
                rw [hlast' d hlastb] at this
                cases this
            subst hb
            rfl
          | cons ctx stack =>
            have hin : (s.step c).2.Inside := by
              rw [hpop]
              exact ⟨by simp [Scanner.pop], by simp [Scanner.pop]⟩
            have hspace : ((s.step c).2.stepEndValue 32).1 ≠ .done := by
              have hstays := hin.stepEndValue 32
              intro hdone
              unfold Stays at hstays
              rw [hdone] at hstays
              exact hstays
            rw [if_neg hspace]
            exact hconsume _ hin

/-- White space in front of a value is read with it. -/
theorem decode_blank_append {ws : Bytes} (hws : Blank ws) (failure : Failure) (b : Bytes) :
    decode failure (ws ++ b) = (decode failure b).map fun p => (ws ++ p.1, p.2) := by
  induction ws with
  | nil =>
    cases h : decode failure b <;> simp [h, Except.map]
  | cons c ws ih =>
    have hc := hws.of_cons
    have hstep : Scanner.step {} c = (.go, {}) := by
      simp [Scanner.step, Scanner.stepBeginValue, Scanner.to, hc.1]
    have hread : decode failure (c :: (ws ++ b)) = consume c (decode failure (ws ++ b)) := by
      simp only [decode, readValue, hstep, hc.1, Bool.and_self]
    rw [List.cons_append, hread, ih hc.2]
    cases decode failure b <;> rfl

/-- An object is read off a stream as it is written, whatever follows. -/
theorem decode_object (hvalid : valid b = true) (hhead : b.head? = some 123)
    (hlast : ∀ c, b.getLast? = some c → isSpace c = false) (failure : Failure) (more : Bytes) :
    decode failure (b ++ more) = .ok (b, more) := by
  obtain ⟨t, rfl⟩ := List.head?_eq_some_iff.mp hhead
  have hstep : Scanner.step {} 123 = (.go, ⟨.beginStringOrEmpty, [.objectKey]⟩) := rfl
  obtain ⟨s, hrun, heof⟩ := Option.any_eq_true _ _ |>.mp hvalid
  have hrun' : Scanner.run ⟨.beginStringOrEmpty, [.objectKey]⟩ t = some s := hrun
  have hlast' : ∀ c, t.getLast? = some c → isSpace c = false := by
    intro c hc
    apply hlast c
    rw [List.getLast?_cons, hc]
    rfl
  have hread := readValue_inside ⟨by simp, by simp⟩ hrun' heof hlast' failure
    (true && isSpace 123) more
  simp only [decode, List.cons_append, readValue, hstep, hread]
  rfl

theorem readValue_eof {failure : Failure} {blank : Bool} {s : Scanner}
    (h : readValue failure blank s b = .error .eof) : failure = .eof ∧ blank = true ∧ Blank b := by
  have hconsume : ∀ {c : UInt8} {r}, consume c r = .error .eof → r = .error .eof := by
    rintro c (e | p) hr
    · exact hr
    · cases hr
  induction b generalizing blank s with
  | nil =>
    simp only [readValue] at h
    split at h
    · cases h
    · rename_i hfailure
      have heof : failure = .eof := by
        cases failure with
        | eof => rfl
        | other => exact absurd rfl hfailure
      split at h
      · cases h
      · cases blank with
        | true => exact ⟨heof, rfl, blank_nil⟩
        | false => cases h
  | cons c b ih =>
    simp only [readValue] at h
    split at h
    · cases h
    · cases h
    · obtain ⟨hfailure, hblank, hb⟩ := ih (hconsume h)
      rw [Bool.and_eq_true] at hblank
      refine ⟨hfailure, hblank.1, fun d hd => ?_⟩
      obtain rfl | hd := List.mem_cons.mp hd
      · exact hblank.2
      · exact hb d hd
    · split at h
      · cases h
      · cases (ih (hconsume h)).2.1

/-- The end of a stream is met where only white space is left. -/
theorem decode_eof {failure : Failure} (h : decode failure b = .error .eof) :
    failure = .eof ∧ Blank b :=
  ⟨(readValue_eof h).1, (readValue_eof h).2.2⟩

end Json
