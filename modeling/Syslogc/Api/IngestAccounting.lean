-- SUMMARY: What an ingestion request answers, against its body.
import Syslogc.Lib.JsonStream
import Syslogc.Api.Ingest

/-!
# What an ingestion answer accounts for

A body is well formed when it is written by the grammar of its format from its first
byte to its last: lines that are objects or blank, objects one after the other, or an
array of objects. An answer of 202 without a rejected event should say that the body
was well formed and that each of its events was taken over by the queue.

For an array it says less. `Decoder.More` ends the loop at a closing bracket of either
kind and at the end of the body, and nothing is read after it.
-/

namespace Syslogc.Api

open Bufio Json Pipeline

/-! ## Well-formed bodies -/

/-- Objects one after the other. -/
inductive Values : Bytes → List Bytes → Prop
  | nil {b : Bytes} (hb : Blank b) : Values b []
  | cons {part rest : Bytes} {es : List Bytes} (hpart : isObject (trimSpace part) = true)
      (hrest : Values rest es) : Values (part ++ rest) (trimSpace part :: es)

/-- What follows the opening bracket of an array, or, where `first` is false, an element of
it: objects with commas between them, up to the end of the text or a closing bracket of
either kind. -/
inductive Listed : Bool → Bytes → List Bytes → Bytes → Prop
  | stop {first : Bool} {ws left : Bytes} (hws : Blank ws) (hleft : ∀ c ∈ left.head?, c = 93 ∨ c = 125) :
      Listed first (ws ++ left) [] left
  | head {part rest left : Bytes} {es : List Bytes} (hpart : isObject (trimSpace part) = true)
      (hrest : Listed false rest es left) : Listed true (part ++ rest) (trimSpace part :: es) left
  | next {ws part rest left : Bytes} {es : List Bytes} (hws : Blank ws)
      (hpart : isObject (trimSpace part) = true) (hrest : Listed false rest es left) :
      Listed false (ws ++ 44 :: (part ++ rest)) (trimSpace part :: es) left

/-- The body is well formed to its end and has these events. -/
inductive WellFormed : Bool → Bytes → List Bytes → Prop
  | lines {b : Bytes} (hobjects : ∀ line ∈ b.splitOn 10, trimSpace line ≠ [] →
        isObject (trimSpace line) = true) :
      WellFormed true b (((b.splitOn 10).map trimSpace).filter (· ≠ []))
  | values {b : Bytes} {es : List Bytes} (h : Values b es) : WellFormed false b es
  | array {ws b tail : Bytes} {es : List Bytes} (hws : Blank ws) (h : Listed true b es (93 :: tail))
      (htail : Blank tail) : WellFormed false (ws ++ 91 :: b) es

/-- How many of the messages given to the queue were taken over. -/
def enqueued (deps : IngestDeps) (messages : List RawMessage) : Nat :=
  (List.range messages.length).countP deps.sink

/-- The answer to a request says what became of its body. -/
structure Accounts (deps : IngestDeps) (text : BodyError → String) (r : IngestRequest) : Prop where
  accepted : ∀ status resp, (handleIngest deps text r).1 = .ok (status, resp) →
    resp.accepted = enqueued deps (handleIngest deps text r).2
  complete : ∀ resp, (handleIngest deps text r).1 = .ok (202, resp) → resp.rejected = 0 →
    ∃ body events, r.decoded = .ok body ∧ body.failure = .eof ∧
      WellFormed (isNDJSON r.mediaType) body.bytes events ∧
      (handleIngest deps text r).2.map (·.data) = events ∧ resp.accepted = events.length

/-- If the body is an array of objects, then what follows its elements is the closing square
bracket and white space, and no failure. -/
def Body.Closed (body : Body) : Prop :=
  ∀ ws t es left, Blank ws → body.bytes = ws ++ 91 :: t → Listed true t es left →
    body.failure = .eof ∧ ∃ tail, left = 93 :: tail ∧ Blank tail

/-! ## White space around an event -/

variable {ws : Bytes}

theorem trimSpace_blank_append (h : Blank ws) (b : Bytes) :
    trimSpace (ws ++ b) = trimSpace b := by
  rw [trimSpace, dropWhile_blank_append h, trimSpace]

theorem trimSpace_append_blank (h : Blank ws) (b : Bytes) :
    trimSpace (b ++ ws) = trimSpace b := by
  have hreverse : Blank ws.reverse := fun c hc => h c (List.mem_reverse.mp hc)
  unfold trimSpace
  rw [List.dropWhile_append]
  split
  · rename_i hb
    rw [blank_iff_dropWhile.mp h, List.isEmpty_iff.mp hb]
  · rw [List.rdropWhile, List.reverse_append, dropWhile_blank_append hreverse, List.rdropWhile]

theorem trimSpace_dropCR (b : Bytes) : trimSpace (dropCR b) = trimSpace b := by
  unfold dropCR
  split
  · rename_i hlast
    obtain ⟨a, rfl⟩ := List.getLast?_eq_some_iff.mp hlast
    rw [List.dropLast_concat, trimSpace_append_blank]
    simp [Blank, isSpace]
  · rfl

/-- An event with the white space around it. -/
theorem eq_trimSpace (b : Bytes) :
    ∃ lead trail, Blank lead ∧ Blank trail ∧ b = lead ++ trimSpace b ++ trail := by
  refine ⟨b.takeWhile isSpace, (b.dropWhile isSpace).rtakeWhile isSpace, blank_takeWhile b, ?_, ?_⟩
  · intro c hc
    exact List.mem_rtakeWhile_imp hc
  · rw [trimSpace, List.append_assoc, List.rdropWhile_append_rtakeWhile, List.takeWhile_append_dropWhile]

theorem trimSpace_getLast? (b : Bytes) (c : UInt8) (h : (trimSpace b).getLast? = some c) :
    isSpace c = false := by
  obtain ⟨a, ha⟩ := List.getLast?_eq_some_iff.mp h
  have hne : trimSpace b ≠ [] := by simp [ha]
  have hlast := List.rdropWhile_last_not isSpace _ hne
  have hc : (trimSpace b).getLast hne = c := by simp [ha]
  rw [show ((b.dropWhile isSpace).rdropWhile isSpace).getLast hne = c from hc] at hlast
  simpa using hlast

/-- An event is read off a stream up to its last byte. -/
theorem decode_part {part : Bytes} (h : isObject (trimSpace part) = true) :
    ∃ raw trail, Blank trail ∧ part = raw ++ trail ∧ trimSpace raw = trimSpace part ∧
      ∀ failure more, decode failure (part ++ more) = .ok (raw, trail ++ more) := by
  obtain ⟨lead, trail, hlead, htrail, hpart⟩ := eq_trimSpace part
  unfold isObject at h
  rw [Bool.and_eq_true, decide_eq_true_eq] at h
  refine ⟨lead ++ trimSpace part, trail, htrail, hpart, ?_, fun failure more => ?_⟩
  · rw [← trimSpace_append_blank htrail, ← hpart]
  · have hread := decode_object h.2 h.1 (trimSpace_getLast? part) failure (trail ++ more)
    have hall : part ++ more = lead ++ (trimSpace part ++ (trail ++ more)) := by
      nth_rewrite 1 [hpart]
      simp only [List.append_assoc]
    rw [hall, decode_blank_append hlead, hread]
    rfl

/-! ## The loop over the events -/

/-- The accepted events are the messages taken over. -/
def Ingest.Counted (deps : IngestDeps) (st : Ingest) : Prop :=
  st.resp.accepted = enqueued deps st.messages

theorem enqueued_concat (deps : IngestDeps) (messages : List RawMessage) (m : RawMessage) :
    enqueued deps (messages ++ [m]) =
      enqueued deps messages + if deps.sink messages.length then 1 else 0 := by
  simp [enqueued, List.range_succ, List.countP_append, List.countP_singleton]

section Loop

variable {deps : IngestDeps} {src : Settings} {err err' : Option BodyError} {atEnd : Bool}
  {st st' : Ingest} {e : Event} {es : List Event} {r : Ingest × Bool}

theorem Ingest.Took.counted (h : Took deps src st e r) (hst : st.Counted deps) : r.1.Counted deps := by
  cases h with
  | accepted _ hsink =>
    simp only [Ingest.Counted, enqueued_concat, hsink, if_true]
    rw [hst]
  | rejected msg goes => exact hst
  | refused hsink =>
    simp only [Ingest.Counted, enqueued_concat, hsink]
    exact hst

theorem Ingest.Took.rejected_le (h : Took deps src st e r) : st.resp.rejected ≤ r.1.resp.rejected := by
  cases h with
  | accepted _ _ => exact le_refl _
  | rejected _ _ => exact Nat.le_succ _
  | refused _ => exact le_refl _

theorem Ingest.run_rejected_le (st : Ingest) (es : List Event) :
    st.resp.rejected ≤ (st.run deps src err atEnd es).1.resp.rejected :=
  Ingest.run_invariant (I := fun st' => st.resp.rejected ≤ st'.resp.rejected) (fun _ _ h => h)
    (fun _ _ _ _ htook h => h.trans htook.rejected_le) le_rfl

/-- A loop that rejects nothing and is not refused goes through all events. -/
theorem Ingest.run_clean
    (hrun : st.run deps src err atEnd es = (st', err')) (hrejected : st'.resp.rejected = 0)
    (hback : st'.backpressure = false) :
    (∀ e ∈ es, isObject (trimSpace e.raw) = true) ∧ err' = err ∧
      (atEnd = true → st'.atEnd = true) ∧
      st'.messages = st.messages ++ es.map (fun e => ⟨trimSpace e.raw, false, src⟩) ∧
      st'.resp.accepted = st.resp.accepted + es.length := by
  induction es generalizing st with
  | nil =>
    cases hrun
    exact ⟨by simp, rfl, fun h => by simp [h], by simp, rfl⟩
  | cons e es ih =>
    have htook := st.enqueue_took deps src e
    have hle : (st.enqueue deps src e).1.resp.rejected ≤
        ((st.enqueue deps src e).1.run deps src err atEnd es).1.resp.rejected :=
      Ingest.run_rejected_le _ es
    unfold Ingest.run at hrun
    generalize hr : st.enqueue deps src e = r at htook hrun hle
    cases htook with
    | accepted hobject hsink =>
      obtain ⟨hobjects, herr, hend, hmessages, haccepted⟩ := ih hrun
      refine ⟨?_, herr, hend, ?_, ?_⟩
      · intro e' he'
        obtain rfl | he' := List.mem_cons.mp he'
        · exact hobject
        · exact hobjects e' he'
      · rw [hmessages, List.map_cons, List.append_assoc]
        rfl
      · rw [haccepted, List.length_cons]
        simp only
        omega
    | rejected msg goes =>
      exfalso
      cases goes with
      | true =>
        simp only at hrun hle
        rw [hrun] at hle
        simp [IngestResponse.reject, hrejected] at hle
      | false =>
        cases hrun
        simp [IngestResponse.reject] at hrejected
    | refused hsink =>
      cases hrun
      cases hback

end Loop

/-! ## Lines -/

/-- The events of a body of lines. -/
def lineTexts (b : Bytes) : List Bytes := ((b.splitOn 10).map trimSpace).filter (· ≠ [])

theorem lineTexts_nil : lineTexts [] = [] := by decide

/-- The first line, and the lines after it. -/
theorem splitOn_eq (b : Bytes) :
    b.splitOn 10 = upTo 10 b :: if 10 ∈ b then (afterDelim 10 b).splitOn 10 else [] := by
  split
  · rename_i hmem
    have hsplit : b = upTo 10 b ++ 10 :: afterDelim 10 b := by
      rw [← List.singleton_append, ← List.append_assoc, ← take_upTo hmem, afterDelim,
        List.take_append_drop]
    nth_rewrite 1 [hsplit]
    exact List.splitOn_append_cons_self_of_not_mem (not_mem_upTo 10 b) _
  · rename_i hmem
    have hupTo : upTo 10 b = b := by
      have happend := upTo_append hmem []
      rwa [List.append_nil, upTo_nil, List.append_nil] at happend
    rw [hupTo, List.splitOn_eq_singleton hmem]

theorem afterDelim_of_not_mem {b : Bytes} (h : 10 ∉ b) : afterDelim 10 b = [] := by
  have happend := afterDelim_append h []
  rwa [List.append_nil, afterDelim_nil] at happend

theorem lineTexts_eq (b : Bytes) :
    lineTexts b = [trimSpace (upTo 10 b)].filter (· ≠ []) ++ lineTexts (afterDelim 10 b) := by
  rw [lineTexts, splitOn_eq, List.map_cons, ← List.singleton_append, List.filter_append]
  split
  · rfl
  · rw [afterDelim_of_not_mem ‹_›, lineTexts_nil]
    rfl

theorem lineEvents_lines {failure : Failure} {together : Bool} {maxToken line : Nat} {b : Bytes}
    (herr : (lineEvents failure together maxToken line b).err = none) :
    failure = .eof ∧
      (lineEvents failure together maxToken line b).list.map (fun e => trimSpace e.raw) = lineTexts b := by
  fun_induction lineEvents failure together maxToken line b with
  | case1 line =>
    refine ⟨?_, by rw [lineTexts_nil]; rfl⟩
    cases failure with
    | eof => rfl
    | other => cases herr
  | case2 => cases herr
  | case3 line b _ _ rest hblank ih =>
    rw [trimSpace_dropCR] at hblank
    rw [lineTexts_eq, hblank]
    exact ih herr
  | case4 line b _ _ rest hblank ih =>
    obtain ⟨hfailure, hlist⟩ := ih herr
    refine ⟨hfailure, ?_⟩
    rw [trimSpace_dropCR] at hblank
    rw [lineTexts_eq, ← hlist]
    simp [Events.cons, trimSpace_dropCR, hblank, rest]

/-! ## Values and elements -/

/-- The events without the white space around them. -/
def Events.texts (es : Events) : List Bytes := es.list.map fun e => trimSpace e.raw

/-- Every event is an object. -/
def Events.Objects (es : Events) : Prop := ∀ e ∈ es.list, isObject (trimSpace e.raw) = true

theorem Events.Objects.of_cons {es : Events} {e : Event} (h : (es.cons e).Objects) :
    isObject (trimSpace e.raw) = true ∧ es.Objects :=
  ⟨h e (by simp [Events.cons]), fun e' he' => h e' (by simp [Events.cons, he'])⟩

theorem blank_append_dropWhile (b : Bytes) :
    ∃ ws, Blank ws ∧ b = ws ++ b.dropWhile isSpace :=
  ⟨b.takeWhile isSpace, blank_takeWhile b, List.takeWhile_append_dropWhile.symm⟩

theorem Values.blank_append {b : Bytes} {es : List Bytes} (hws : Blank ws)
    (h : Values b es) : Values (ws ++ b) es := by
  cases h with
  | nil hb => exact .nil (hws.append hb)
  | @cons part rest es hpart hrest =>
    rw [← List.append_assoc, ← trimSpace_blank_append hws]
    exact .cons (by rwa [trimSpace_blank_append hws]) hrest

theorem valueEvents_values {failure : Failure} {i : Nat} {b : Bytes}
    (herr : (valueEvents failure i b).err = none) (hobjects : (valueEvents failure i b).Objects) :
    failure = .eof ∧ Values b (valueEvents failure i b).texts := by
  fun_induction valueEvents failure i b with
  | case1 i b e hdecode =>
    cases e with
    | eof => exact ⟨(decode_eof hdecode).1, .nil (decode_eof hdecode).2⟩
    | _ => cases herr
  | case2 i b raw rest hdecode ih =>
    obtain ⟨hraw, hrest⟩ := hobjects.of_cons
    obtain ⟨hfailure, hvalues⟩ := ih herr hrest
    refine ⟨hfailure, ?_⟩
    rw [← readValue_append hdecode]
    exact .cons hraw hvalues

/-- The first byte of an event is an opening brace. -/
theorem dropWhile_part {part : Bytes} (h : isObject (trimSpace part) = true) (more : Bytes) :
    ∃ t, (part ++ more).dropWhile isSpace = 123 :: t := by
  obtain ⟨lead, trail, hlead, -, hpart⟩ := eq_trimSpace part
  unfold isObject at h
  rw [Bool.and_eq_true, decide_eq_true_eq] at h
  obtain ⟨t, ht⟩ := List.head?_eq_some_iff.mp h.1
  refine ⟨t ++ (trail ++ more), ?_⟩
  rw [hpart, List.append_assoc, List.append_assoc, dropWhile_blank_append hlead, ht]
  exact List.dropWhile_cons_of_neg (by decide)

theorem dropWhile_append_of_cons {b t : Bytes} {c : UInt8} (h : b.dropWhile isSpace = c :: t)
    (x : Bytes) : (b ++ x).dropWhile isSpace = c :: (t ++ x) := by
  rw [List.dropWhile_append, h]
  rfl

/-- A text that goes on at a closing bracket or not at all has no white space in front. -/
theorem dropWhile_left {left : Bytes} (hws : Blank ws) (hleft : ∀ c ∈ left.head?, c = 93 ∨ c = 125) :
    (ws ++ left).dropWhile isSpace = left := by
  rw [dropWhile_blank_append hws]
  cases left with
  | nil => rfl
  | cons c t =>
    obtain rfl | rfl := hleft c rfl <;> exact List.dropWhile_cons_of_neg (by decide)

/-- How a list goes on: it stops, or it has an element, after a comma unless it is the first. -/
theorem Listed.begins {first : Bool} {b left : Bytes} {es : List Bytes} (h : Listed first b es left) :
    b.dropWhile isSpace = left ∧ (∀ c ∈ left.head?, c = 93 ∨ c = 125) ∨
      ∃ part rest es', isObject (trimSpace part) = true ∧ Listed false rest es' left ∧
        if first then b = part ++ rest else b.dropWhile isSpace = 44 :: (part ++ rest) := by
  cases h with
  | stop hws hleft => exact .inl ⟨dropWhile_left hws hleft, hleft⟩
  | @head part rest _ es hpart hrest => exact .inr ⟨part, rest, es, hpart, hrest, rfl⟩
  | @next ws part rest _ es hws hpart hrest =>
    refine .inr ⟨part, rest, es, hpart, hrest, ?_⟩
    rw [dropWhile_blank_append hws]
    exact List.dropWhile_cons_of_neg (by decide)

/-- A text that begins with an object in two ways goes on with the same, but for white space. -/
theorem after_part {part rest part' rest' ws' : Bytes} (hpart : isObject (trimSpace part) = true)
    (hpart' : isObject (trimSpace part') = true) (hws : Blank ws) (hws' : Blank ws')
    (h : ws ++ (part ++ rest) = ws' ++ (part' ++ rest')) :
    ∃ trail trail', Blank trail ∧ Blank trail' ∧ trail ++ rest = trail' ++ rest' := by
  obtain ⟨raw, trail, htrail, -, -, hread⟩ := decode_part hpart
  obtain ⟨raw', trail', htrail', -, -, hread'⟩ := decode_part hpart'
  have hdecode := congrArg (decode .eof) h
  rw [decode_blank_append hws, decode_blank_append hws', hread, hread'] at hdecode
  exact ⟨trail, trail', htrail, htrail', congrArg Prod.snd (Except.ok.inj hdecode)⟩

/-- What follows the elements of an array is determined by its text. -/
theorem Listed.unique {first : Bool} {b b' ws' left left' : Bytes} {es es' : List Bytes}
    (h : Listed first b es left) (h' : Listed first b' es' left') (hws : Blank ws) (hws' : Blank ws')
    (heq : ws ++ b = ws' ++ b') : left = left' := by
  induction h generalizing b' ws ws' es' with
  | @stop first ws₀ left hws₀ hleft =>
    have hdrop : (ws' ++ b').dropWhile isSpace = left := by
      rw [← heq, ← List.append_assoc, dropWhile_left (hws.append hws₀) hleft]
    rw [dropWhile_blank_append hws'] at hdrop
    obtain ⟨hstop, -⟩ | ⟨part, rest, es₁, hpart, -, hb⟩ := h'.begins
    · exact hdrop.symm.trans hstop
    · exfalso
      cases first with
      | true =>
        obtain ⟨t, ht⟩ := dropWhile_part hpart rest
        rw [if_pos rfl] at hb
        rw [hb, ht] at hdrop
        exact absurd (hleft 123 (by simp [← hdrop])) (by decide)
      | false =>
        simp only [Bool.false_eq_true, if_false] at hb
        rw [hb] at hdrop
        exact absurd (hleft 44 (by simp [← hdrop])) (by decide)
  | @head part rest left es hpart hrest ih =>
    obtain ⟨hstop, hleft'⟩ | ⟨part', rest', es₁, hpart', hrest', hb⟩ := h'.begins
    · exfalso
      obtain ⟨t, ht⟩ := dropWhile_part hpart rest
      have hdrop := congrArg (List.dropWhile isSpace) heq
      rw [dropWhile_blank_append hws, dropWhile_blank_append hws', ht, hstop] at hdrop
      exact absurd (hleft' 123 (by simp [← hdrop])) (by decide)
    · rw [if_pos rfl] at hb
      rw [hb] at heq
      obtain ⟨trail, trail', htrail, htrail', hsame⟩ := after_part hpart hpart' hws hws' heq
      exact ih hrest' htrail htrail' hsame
  | @next ws₀ part rest left es hws₀ hpart hrest ih =>
    have hdrop := congrArg (List.dropWhile isSpace) heq
    rw [← List.append_assoc, dropWhile_blank_append (hws.append hws₀), dropWhile_blank_append hws',
      List.dropWhile_cons_of_neg (by decide)] at hdrop
    obtain ⟨hstop, hleft'⟩ | ⟨part', rest', es₁, hpart', hrest', hb⟩ := h'.begins
    · rw [hstop] at hdrop
      exact absurd (hleft' 44 (by simp [← hdrop])) (by decide)
    · simp only [Bool.false_eq_true, if_false] at hb
      rw [hb, List.cons.injEq] at hdrop
      obtain ⟨trail, trail', htrail, htrail', hsame⟩ := after_part hpart hpart' blank_nil blank_nil hdrop.2
      exact ih hrest' htrail htrail' hsame

/-- An array that is read without an error is a list of its events, if it is read no further
than the body goes. -/
theorem elementEvents_listed {failure : Failure} {first : Bool} {i : Nat} {b x : Bytes}
    (herr : (elementEvents failure first i b).err = none) (hobjects : (elementEvents failure first i b).Objects)
    (hend : (elementEvents failure first i b).atEnd = true → x = []) :
    ∃ left, Listed first (b ++ x) (elementEvents failure first i b).texts left := by
  fun_induction elementEvents failure first i b with
  | case1 first i b hnil =>
    obtain rfl := hend rfl
    exact ⟨[], .stop (blank_iff_dropWhile.mpr hnil) (by simp)⟩
  | case2 first i b c t hcons hclose =>
    obtain ⟨ws, hws, hb⟩ := blank_append_dropWhile b
    rw [hb, hcons, List.append_assoc]
    exact ⟨c :: t ++ x, .stop hws (by simpa using hclose)⟩
  | case3 => cases herr
  | case4 => cases herr
  | case5 first i b c t hcons hclose hcomma raw rest hdecode ih =>
    obtain ⟨hraw, hmore⟩ := hobjects.of_cons
    obtain ⟨left, hnext⟩ := ih herr hmore hend
    obtain ⟨ws, hws, hb⟩ := blank_append_dropWhile b
    refine ⟨left, ?_⟩
    rw [hb, hcons]
    cases first with
    | true =>
      have happend : raw ++ rest = c :: t := readValue_append hdecode
      rw [← happend, ← List.append_assoc, List.append_assoc]
      have hpart : trimSpace (ws ++ raw) = trimSpace raw := trimSpace_blank_append hws raw
      have hobject : isObject (trimSpace (ws ++ raw)) = true := by rwa [hpart]
      have hel := Listed.head hobject hnext
      rwa [hpart] at hel
    | false =>
      obtain rfl : c = 44 := by simpa using hcomma
      have happend : raw ++ rest = t := readValue_append hdecode
      rw [← happend, List.append_assoc, List.cons_append, List.append_assoc]
      exact .next hws hraw hnext

/-! ## What well-formed bodies are read as -/

/-- What a text is read as: these objects, and whether more than the text is asked for. -/
structure Events.Reads (es : Events) (parts : List Bytes) (more : Bool) : Prop where
  texts : es.texts = parts
  objects : es.Objects
  atEnd : es.atEnd = more
  early : ∀ e ∈ es.list, e.atEnd = true → more = true

theorem Events.Reads.cons {es : Events} {parts : List Bytes} {more : Bool} (h : es.Reads parts more)
    {e : Event} (he : isObject (trimSpace e.raw) = true) (hend : e.atEnd = true → more = true) :
    (es.cons e).Reads (trimSpace e.raw :: parts) more where
  texts := congrArg (trimSpace e.raw :: ·) h.texts
  objects := List.forall_mem_cons.mpr ⟨he, h.objects⟩
  atEnd := h.atEnd
  early := List.forall_mem_cons.mpr ⟨hend, h.early⟩

section Elements

variable {failure : Failure} {first : Bool} {i : Nat} {b t : Bytes} {c : UInt8}

theorem elementEvents_end (h : b.dropWhile isSpace = []) : elementEvents failure first i b = { atEnd := true } := by
  rw [elementEvents.eq_def]
  split
  · rfl
  · next hcons =>
    rw [h] at hcons
    cases hcons

theorem elementEvents_cons (h : b.dropWhile isSpace = c :: t) : elementEvents failure first i b =
    if c = 93 || c = 125 then {}
    else if !first && c ≠ 44 then { err := some (.decode .invalidSyntax) }
    else match decode failure (if first then c :: t else t) with
      | .error e => { endOf e with err := some (.decode e) }
      | .ok (raw, rest) => (elementEvents failure false (i + 1) rest).cons { line := i, raw } := by
  rw [elementEvents.eq_def]
  split
  · next hnil =>
    rw [h] at hnil
    cases hnil
  · next hcons =>
    rw [h] at hcons
    cases hcons
    refine if_congr Iff.rfl rfl (if_congr Iff.rfl rfl ?_)
    split <;> simp only [*]

end Elements

/-- An element is read also where the white space in front of it was skipped. -/
theorem decode_dropWhile {part : Bytes} (h : isObject (trimSpace part) = true) (failure : Failure)
    (rest : Bytes) : ∃ raw trail, Blank trail ∧ trimSpace raw = trimSpace part ∧
      decode failure ((part ++ rest).dropWhile isSpace) = .ok (raw, trail ++ rest) := by
  obtain ⟨raw, trail, htrail, -, hraw, hread⟩ := decode_part h
  obtain ⟨ws, hws, hb⟩ := blank_append_dropWhile (part ++ rest)
  have hread := hread failure rest
  rw [hb, decode_blank_append hws] at hread
  cases hdecode : decode failure ((part ++ rest).dropWhile isSpace) with
  | error e =>
    rw [hdecode] at hread
    cases hread
  | ok p =>
    rw [hdecode] at hread
    obtain ⟨rfl, hrest⟩ := Prod.mk.inj (Except.ok.inj hread)
    rw [trimSpace_blank_append hws] at hraw
    exact ⟨p.1, trail, htrail, hraw, by rw [← hrest]⟩

/-- The elements of an array are read up to what follows them. -/
theorem Listed.reads {first : Bool} {b left : Bytes} {es : List Bytes} (h : Listed first b es left)
    (hws : Blank ws) (failure : Failure) (i : Nat) :
    (elementEvents failure first i (ws ++ b)).Reads es (left = []) ∧
      (elementEvents failure first i (ws ++ b)).err = none := by
  induction h generalizing ws i with
  | @stop first ws₀ left hws₀ hleft =>
    have hdrop : (ws ++ (ws₀ ++ left)).dropWhile isSpace = left := by
      rw [← List.append_assoc, dropWhile_left (hws.append hws₀) hleft]
    cases left with
    | nil =>
      rw [elementEvents_end hdrop]
      exact ⟨⟨rfl, nofun, rfl, nofun⟩, rfl⟩
    | cons c t =>
      rw [elementEvents_cons hdrop, if_pos (by simpa using hleft)]
      exact ⟨⟨rfl, nofun, rfl, nofun⟩, rfl⟩
  | @head part rest left es hpart hrest ih =>
    obtain ⟨t, hdrop⟩ := dropWhile_part hpart rest
    obtain ⟨raw, trail, htrail, hraw, hread⟩ := decode_dropWhile hpart failure rest
    rw [hdrop] at hread
    rw [← dropWhile_blank_append hws] at hdrop
    rw [elementEvents_cons hdrop, if_neg (by decide), if_neg (by decide), if_pos rfl, hread, ← hraw]
    exact ⟨(ih htrail (i + 1)).1.cons (by rwa [hraw]) nofun, (ih htrail (i + 1)).2⟩
  | @next ws₀ part rest left es hws₀ hpart hrest ih =>
    have hdrop : (ws ++ (ws₀ ++ 44 :: (part ++ rest))).dropWhile isSpace = 44 :: (part ++ rest) := by
      rw [← List.append_assoc, dropWhile_blank_append (hws.append hws₀), List.dropWhile_cons_of_neg (by decide)]
    obtain ⟨raw, trail, htrail, -, hraw, hread⟩ := decode_part hpart
    rw [elementEvents_cons hdrop, if_neg (by decide), if_neg (by decide), if_neg (by decide),
      hread failure rest, ← hraw]
    exact ⟨(ih htrail (i + 1)).1.cons (by rwa [hraw]) nofun, (ih htrail (i + 1)).2⟩

/-! ## The answer -/

theorem Body.limited_append (b : Body) (n : Nat) : (b.limited n).bytes ++ b.bytes.drop n = b.bytes := by
  unfold Body.limited
  split
  · rename_i hlt
    rw [List.drop_eq_nil_of_le (Body.length_le_of_fits hlt), List.append_nil]
  · exact List.take_append_drop n b.bytes

/-- A body that is read to its end is read as a whole. -/
theorem Body.limited_eq {b : Body} {n : Nat} (h : (b.limited n).failure = .eof) : b.limited n = b := by
  unfold Body.limited at h ⊢
  split at h
  · rw [if_pos ‹_›]
  · cases h

theorem jsonEvents_array {failure : Failure} {b t : Bytes} (h : b.dropWhile isSpace = 91 :: t) :
    jsonEvents failure b = elementEvents failure true 1 t := by
  rw [jsonEvents, h]
  rfl

theorem jsonEvents_values {failure : Failure} {b t : Bytes} {c : UInt8}
    (h : b.dropWhile isSpace = c :: t) (hc : c ≠ 91) :
    jsonEvents failure b = valueEvents failure 1 (c :: t) := by
  rw [jsonEvents, h]
  exact if_neg hc

/-- A well-formed body that begins with an opening bracket is an array: values one after
the other begin with a brace. -/
theorem WellFormed.listed {bytes t : Bytes} {events : List Bytes}
    (h : WellFormed false bytes events) (hfirst : bytes.dropWhile isSpace = 91 :: t) :
    ∃ tail, Listed true t events (93 :: tail) ∧ Blank tail := by
  cases h with
  | values hvalues =>
    exfalso
    cases hvalues with
    | nil hblank =>
      rw [blank_iff_dropWhile.mp hblank] at hfirst
      cases hfirst
    | cons hpart _ =>
      obtain ⟨t', ht⟩ := dropWhile_part hpart _
      rw [ht] at hfirst
      cases hfirst
  | @array ws b tail es hws hlisted htail =>
    rw [dropWhile_blank_append hws, List.dropWhile_cons_of_neg (by decide)] at hfirst
    cases hfirst
    exact ⟨tail, hlisted, htail⟩

section WellFormed

variable {body : Body} {n : Nat}

theorem lineEvents_wellFormed {together : Bool} {maxToken line : Nat}
    (herr : (lineEvents (body.limited n).failure together maxToken line (body.limited n).bytes).err = none)
    (hobjects : (lineEvents (body.limited n).failure together maxToken line (body.limited n).bytes).Objects) :
    body.failure = .eof ∧ WellFormed true body.bytes
      (lineEvents (body.limited n).failure together maxToken line (body.limited n).bytes).texts := by
  obtain ⟨hfailure, htexts⟩ := lineEvents_lines herr
  have hbody := Body.limited_eq hfailure
  rw [hbody] at hfailure htexts hobjects ⊢
  refine ⟨hfailure, ?_⟩
  rw [Events.texts, htexts]
  refine .lines fun line hline hne => ?_
  have hmem : trimSpace line ∈ lineTexts body.bytes := by
    simp only [lineTexts, List.mem_filter, List.mem_map, decide_eq_true_eq]
    exact ⟨⟨line, hline, rfl⟩, hne⟩
  rw [← htexts] at hmem
  obtain ⟨e, he, heq⟩ := List.mem_map.mp hmem
  rw [← heq]
  exact hobjects e he

/-- A JSON body read without an error is well formed, if an array is closed. -/
theorem jsonEvents_wellFormed
    (herr : (jsonEvents (body.limited n).failure (body.limited n).bytes).err = none)
    (hobjects : (jsonEvents (body.limited n).failure (body.limited n).bytes).Objects)
    (hend : (jsonEvents (body.limited n).failure (body.limited n).bytes).atEnd = true →
      body.bytes.drop n = [])
    (hclosed : body.Closed) :
    body.failure = .eof ∧ WellFormed false body.bytes
      (jsonEvents (body.limited n).failure (body.limited n).bytes).texts := by
  obtain ⟨ws, hws, hb⟩ := blank_append_dropWhile (body.limited n).bytes
  cases hcons : (body.limited n).bytes.dropWhile isSpace with
  | nil =>
    rw [jsonEvents, hcons] at herr
    cases herr
  | cons c t =>
    by_cases hc : c = 91
    · subst hc
      rw [jsonEvents_array hcons] at herr hobjects hend ⊢
      obtain ⟨left, hlisted⟩ := elementEvents_listed herr hobjects hend
      have hbytes : body.bytes = ws ++ 91 :: (t ++ body.bytes.drop n) := by
        nth_rewrite 1 [← body.limited_append n]
        rw [hb, hcons, List.append_assoc, List.cons_append]
      obtain ⟨hfailure, tail, rfl, htail⟩ := hclosed _ _ _ _ hws hbytes hlisted
      rw [hbytes]
      exact ⟨hfailure, .array hws hlisted htail⟩
    · rw [jsonEvents_values hcons hc] at herr hobjects ⊢
      obtain ⟨hfailure, hvalues⟩ := valueEvents_values herr hobjects
      have hbody := Body.limited_eq hfailure
      rw [hbody] at hfailure hvalues hb hcons ⊢
      refine ⟨hfailure, .values ?_⟩
      rw [hb, hcons]
      exact hvalues.blank_append hws

end WellFormed

theorem Ingest.answer_ok {deps : IngestDeps} {text : BodyError → String} {exceeds : Bool}
    {st : Ingest} {err : Option BodyError} {status : Nat} {resp : IngestResponse}
    (h : st.answer deps text exceeds err = .ok (status, resp)) :
    (st.atEnd = true → exceeds = false) ∧ status = (if st.backpressure then 503 else 202) ∧
      resp.accepted = st.resp.accepted ∧ st.resp.rejected ≤ resp.rejected ∧
      (st.backpressure = false → resp.rejected = 0 → err = none) := by
  unfold Ingest.answer at h
  split at h
  · cases h
  · rename_i hexceeds
    obtain ⟨hstatus, hresp⟩ := Prod.mk.inj (Except.ok.inj h)
    refine ⟨fun hend => by simpa [hend] using hexceeds, hstatus.symm, ?_⟩
    cases err with
    | none =>
      cases hresp
      exact ⟨rfl, le_refl _, fun _ _ => rfl⟩
    | some e =>
      cases hback : st.backpressure with
      | true =>
        simp only [hback, if_true] at hresp
        cases hresp
        exact ⟨rfl, le_refl _, fun h => by cases h⟩
      | false =>
        simp only [hback, Bool.false_eq_true, if_false] at hresp
        cases hresp
        exact ⟨rfl, Nat.le_succ _, fun _ h => by simp [IngestResponse.reject] at h⟩

section Answer

variable {deps : IngestDeps} {text : BodyError → String} {src : Settings} {ndjson : Bool} {body : Body}

theorem ingestBody_accepted {status : Nat} {resp : IngestResponse}
    (h : (ingestBody deps text src ndjson body).1 = .ok (status, resp)) :
    resp.accepted = enqueued deps (ingestBody deps text src ndjson body).2 := by
  obtain ⟨-, -, haccepted, -⟩ := Ingest.answer_ok h
  rw [haccepted]
  exact Ingest.run_invariant (fun _ _ h => h) (fun _ _ _ _ htook => htook.counted) rfl

/-- What an answer of 202 without a rejected event says of the events that were read. -/
theorem ingestBody_clean {resp : IngestResponse}
    (h : (ingestBody deps text src ndjson body).1 = .ok (202, resp)) (hrejected : resp.rejected = 0) :
    let es := bodyEvents ndjson deps.maxBodyBytes (body.limited deps.maxBodyBytes)
    es.err = none ∧ es.Objects ∧ (es.atEnd = true → body.bytes.drop deps.maxBodyBytes = []) ∧
      (ingestBody deps text src ndjson body).2.map (·.data) = es.texts ∧
      resp.accepted = es.texts.length := by
  intro es
  obtain ⟨hexceeds, hstatus, haccepted, hle, herr⟩ := Ingest.answer_ok h
  have hback : (Ingest.run deps src es.err es.atEnd {} es.list).1.backpressure = false := by
    cases hback : (Ingest.run deps src es.err es.atEnd {} es.list).1.backpressure with
    | false => rfl
    | true =>
      rw [if_pos hback] at hstatus
      cases hstatus
  obtain ⟨hobjects, herr', hend, hmessages, hlength⟩ :=
    Ingest.run_clean rfl (Nat.eq_zero_of_le_zero (hrejected ▸ hle)) hback
  refine ⟨?_, hobjects, ?_, ?_, ?_⟩
  · rw [← herr']
    exact herr hback hrejected
  · intro hes
    have hfits := hexceeds (hend hes)
    rw [Bool.not_eq_false'] at hfits
    exact List.drop_eq_nil_of_le (Body.length_le_of_fits hfits)
  · change (Ingest.run deps src es.err es.atEnd {} es.list).1.messages.map (·.data) = _
    rw [hmessages]
    simp [Events.texts]
  · rw [haccepted, hlength, Events.texts, List.length_map]
    exact Nat.zero_add _

end Answer

/-- The request is read, and of its events up to `n` are taken over. -/
structure IngestDeps.Takes (deps : IngestDeps) (r : IngestRequest) (body : Body) (n : Nat) : Prop where
  source : ∃ src, deps.source = some src ∧ r.tenant = src.tenant
  mediaType : isNDJSON r.mediaType = true ∨ r.mediaType = "application/json"
  decoded : r.decoded = .ok body
  events : n ≤ deps.maxEvents
  sink : ∀ i < n, deps.sink i = true

section Takes

variable {deps : IngestDeps} {text : BodyError → String} {src : Settings} {r : IngestRequest} {body : Body}
  {parts : List Bytes} {more : Bool}

theorem IngestDeps.Takes.handleIngest_eq {n : Nat} (h : deps.Takes r body n) (text : BodyError → String) :
    ∃ src, handleIngest deps text r = ingestBody deps text src (isNDJSON r.mediaType) body := by
  obtain ⟨src, hsource, htenant⟩ := h.source
  have hmedia : (!isNDJSON r.mediaType && decide (r.mediaType ≠ "application/json")) = false := by
    obtain h | h := h.mediaType <;> simp [h]
  refine ⟨src, ?_⟩
  rw [handleIngest, hsource]
  simp only [htenant, ne_eq, not_true_eq_false, if_false, hmedia, Bool.false_eq_true, h.decoded]

/-- A loop over objects that are all taken over goes through them and rejects none. -/
theorem Ingest.run_takes (src : Settings) (err : Option BodyError) (atEnd : Bool) (st : Ingest) {es : List Event}
    (hobjects : ∀ e ∈ es, isObject (trimSpace e.raw) = true) (hevents : st.events + es.length ≤ deps.maxEvents)
    (hsink : ∀ i < es.length, deps.sink (st.messages.length + i) = true) :
    ∃ st', st.run deps src err atEnd es = (st', err) ∧ st'.backpressure = st.backpressure ∧
      st'.resp.rejected = st.resp.rejected ∧ st'.atEnd = (st.atEnd || es.any (·.atEnd) || atEnd) := by
  induction es generalizing st with
  | nil => exact ⟨_, rfl, rfl, rfl, by simp⟩
  | cons e es ih =>
    obtain ⟨hobject, hobjects⟩ := List.forall_mem_cons.mp hobjects
    rw [List.length_cons] at hevents hsink
    have hstep : st.enqueue deps src e = ({ st with
        events := st.events + 1
        atEnd := st.atEnd || e.atEnd
        messages := st.messages ++ [⟨trimSpace e.raw, false, src⟩]
        resp := { st.resp with accepted := st.resp.accepted + 1 } }, true) := by
      have hmax : ¬ deps.maxEvents < st.events + 1 := by omega
      have haccepts : deps.sink st.messages.length = true := hsink 0 (Nat.succ_pos _)
      simp only [Ingest.enqueue, hmax, if_false, hobject, Bool.not_true, Bool.false_eq_true, haccepts, if_true]
    obtain ⟨st', hrun, hback, hrejected, hend⟩ := ih (st.enqueue deps src e).1 hobjects
      (by rw [hstep]; simp only; omega) (fun i hi => by
        rw [hstep, List.length_append, List.length_singleton, Nat.add_assoc, Nat.add_comm 1]
        exact hsink (i + 1) (Nat.succ_lt_succ hi))
    rw [Ingest.run_cons, if_pos (by rw [hstep])]
    refine ⟨st', hrun, ?_, ?_, ?_⟩
    · rw [hback, hstep]
    · rw [hrejected, hstep]
    · rw [hend, hstep, List.any_cons]
      simp only [Bool.or_assoc]

/-- How a body whose events are all taken over is answered. -/
theorem IngestDeps.Takes.answer {es : Events} (h : deps.Takes r body parts.length)
    (hes : bodyEvents (isNDJSON r.mediaType) deps.maxBodyBytes (body.limited deps.maxBodyBytes) = es)
    (hreads : es.Reads parts more) (text : BodyError → String) :
    if more && !body.fits deps.maxBodyBytes then ∃ e, (handleIngest deps text r).1 = .error e ∧ e.status = 413
    else ∃ resp, (handleIngest deps text r).1 = .ok (202, resp) ∧ (es.err = none → resp.rejected = 0) := by
  obtain ⟨src, hhandle⟩ := h.handleIngest_eq text
  have hlength : es.list.length = parts.length := by rw [← hreads.texts, Events.texts, List.length_map]
  obtain ⟨st, hrun, hback, hrejected, hend⟩ := Ingest.run_takes src es.err es.atEnd {} hreads.objects
    (by simpa [hlength] using h.events) (by simpa [hlength] using h.sink)
  have hatEnd : st.atEnd = more := by
    rw [hend, hreads.atEnd]
    cases more with
    | true => simp
    | false =>
      have hnone : es.list.any (·.atEnd) = false :=
        List.any_eq_false.mpr fun e he h => absurd (hreads.early e he h) (by decide)
      rw [hnone]
      rfl
  have hanswer : (handleIngest deps text r).1 =
      st.answer deps text (!body.fits deps.maxBodyBytes) es.err := by
    rw [hhandle, ingestBody, hes]
    simp only [hrun]
  rw [hanswer]
  unfold Ingest.answer
  rw [hatEnd]
  split
  · exact ⟨_, rfl, rfl⟩
  · refine ⟨_, by rw [hback]; rfl, fun herr => ?_⟩
    rw [herr]
    exact hrejected

end Takes

/-- A request whose body is an array with a brace in the place of the closing bracket. -/
def braceRequest : IngestRequest where
  tenant := ""
  mediaType := "application/json"
  body := { bytes := [91, 123, 125, 125] }

def sampleDeps : IngestDeps := ⟨some ⟨"http", ""⟩, 100, 10, fun _ => true⟩

theorem braceRequest_listed : Listed true [123, 125, 125] [[123, 125]] [125] :=
  @Listed.head [123, 125] _ _ _ (by decide) (@Listed.stop _ [] _ blank_nil (by simp))

/-- A request whose body is a closed array. -/
def arrayRequest : IngestRequest where
  tenant := ""
  mediaType := "application/json"
  body := { bytes := [91, 123, 125, 93] }

theorem arrayRequest_listed : Listed true [123, 125, 93] [[123, 125]] [93] :=
  @Listed.head [123, 125] _ _ _ (by decide) (@Listed.stop _ [] _ blank_nil (by simp))

theorem arrayRequest_closed : arrayRequest.body.Closed := by
  intro ws t es left hws hbytes hlisted
  have hcons := congrArg (List.dropWhile isSpace) hbytes
  rw [dropWhile_blank_append hws, List.dropWhile_cons_of_neg (by decide)] at hcons
  cases hcons
  exact ⟨rfl, [], hlisted.unique arrayRequest_listed blank_nil blank_nil rfl, blank_nil⟩

end Syslogc.Api
