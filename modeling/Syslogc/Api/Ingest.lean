-- SUMMARY: HTTP ingestion: a body of JSON objects is split into messages.
import Syslogc.Lib.Json
import Syslogc.Pipeline.System

/-!
# HTTP ingestion

A body holds one JSON object, an array of them, objects one after the other, or one
on each line. Each object becomes a message for the pipeline. The body is read up to
`maxBodyBytes`; a read past that fails, and the request is answered as too large.
-/

namespace Syslogc.Api

open Bufio Json Pipeline

/-- The answer to a request that is refused. -/
structure ApiError where
  status : Nat
  code : String
  detail : String
  pointer : String := ""
deriving DecidableEq, Repr

/-- A body as it is read: its bytes, the failure after them, and whether the failure is
known with the last bytes, without another read. -/
structure Body where
  bytes : Bytes
  failure : Failure := .eof
  together : Bool := false
deriving DecidableEq, Repr

structure IngestRequest where
  /-- The tenant of the API key. -/
  tenant : String
  /-- The media type of `Content-Type`. -/
  mediaType : String
  /-- `Content-Encoding`, in lower case. -/
  encoding : String := ""
  body : Body
  /-- What the body decompresses to; `none` without a gzip header. -/
  gunzip : Option Body := none

/-- What a request meets: the active `http_json` source, the limits, and whether the
n-th `Enqueue` of the request succeeds. -/
structure IngestDeps where
  source : Option Settings
  maxBodyBytes : Nat
  maxEvents : Nat
  sink : Nat → Bool

/-! ## The events of a body -/

/-- Why the body was not read to its end. -/
inductive BodyError where
  | empty
  | tooLong
  | decode (e : DecodeError)
deriving DecidableEq, Repr

structure Event where
  line : Nat
  raw : Bytes
  /-- More of the body was asked for, in vain, before the event was complete. -/
  atEnd : Bool := false
deriving DecidableEq, Repr

/-- The events of a body in order, and how reading it ends. -/
structure Events where
  list : List Event := []
  err : Option BodyError := none
  /-- The last thing asked for was more of the body than there is. -/
  atEnd : Bool := false

def Events.cons (e : Event) (es : Events) : Events := { es with list := e :: es.list }

/-- The end of the line, without a carriage return. -/
def dropCR (line : Bytes) : Bytes :=
  if line.getLast? = some 13 then line.dropLast else line

def trimSpace (b : Bytes) : Bytes := (b.dropWhile isSpace).rdropWhile isSpace

/-- The next line fills the buffer of a scanner that holds `maxToken` bytes. A last line may
fill it if the failure after it is known. -/
def lineTooLong (together : Bool) (maxToken : Nat) (b : Bytes) : Bool :=
  maxToken < (upTo 10 b).length || ((upTo 10 b).length = maxToken && (10 ∈ b || !together))

/-- One event a line; blank lines are counted and left out. -/
def lineEvents (failure : Failure) (together : Bool) (maxToken line : Nat) (b : Bytes) : Events :=
  if b = [] then
    { err := if failure = .other then some (.decode .read) else none, atEnd := true }
  else if lineTooLong together maxToken b then { err := some .tooLong }
  else
    let rest := lineEvents failure together maxToken (line + 1) (afterDelim 10 b)
    if trimSpace (dropCR (upTo 10 b)) = [] then rest
    else rest.cons { line, raw := dropCR (upTo 10 b), atEnd := 10 ∉ b }
termination_by b.length
decreasing_by
  rename_i hb _
  have := List.length_pos_iff.mpr hb
  rw [afterDelim, List.length_drop]
  omega

/-- How reading ends where no value could be read. -/
def endOf : DecodeError → Events
  | .eof => { atEnd := true }
  | .invalidSyntax => { err := some (.decode .invalidSyntax) }
  | e => { err := some (.decode e), atEnd := true }

/-- Values one after the other. -/
def valueEvents (failure : Failure) (i : Nat) (b : Bytes) : Events :=
  match _h : decode failure b with
  | .error e => endOf e
  | .ok (raw, rest) => (valueEvents failure (i + 1) rest).cons { line := i, raw }
termination_by b.length
decreasing_by exact decode_rest_lt _h

theorem valueEvents_error {failure : Failure} {i : Nat} {b : Bytes} {e : DecodeError}
    (h : decode failure b = .error e) : valueEvents failure i b = endOf e := by
  rw [valueEvents.eq_def]
  split <;> rename_i hdecode <;> cases h.symm.trans hdecode
  rfl

theorem valueEvents_ok {failure : Failure} {i : Nat} {b raw rest : Bytes}
    (h : decode failure b = .ok (raw, rest)) :
    valueEvents failure i b = (valueEvents failure (i + 1) rest).cons { line := i, raw } := by
  rw [valueEvents.eq_def]
  split <;> rename_i hdecode <;> cases h.symm.trans hdecode
  rfl

/-- The elements of an array; `first` before the first of them. What follows the array
is not read. -/
def elementEvents (failure : Failure) (first : Bool) (i : Nat) (b : Bytes) : Events :=
  match _hb : b.dropWhile isSpace with
  | [] => { atEnd := true }
  | c :: t =>
    if c = 93 || c = 125 then {}
    else if !first && c ≠ 44 then { err := some (.decode .invalidSyntax) }
    else
      match _h : decode failure (if first then c :: t else t) with
      | .error e => { endOf e with err := some (.decode e) }
      | .ok (raw, rest) => (elementEvents failure false (i + 1) rest).cons { line := i, raw }
termination_by b.length
decreasing_by
  have hlt := decode_rest_lt _h
  have hle : (c :: t).length ≤ b.length := _hb ▸ List.length_dropWhile_le _ _
  split at hlt <;> simp_all <;> omega

/-- The events of a JSON body. -/
def jsonEvents (failure : Failure) (b : Bytes) : Events :=
  match b.dropWhile isSpace with
  | [] => { err := some (if failure = .other then .decode .read else .empty), atEnd := true }
  | c :: t => if c = 91 then elementEvents failure true 1 t else valueEvents failure 1 (c :: t)

/-! ## The handler -/

structure IngestResponse where
  accepted : Nat := 0
  rejected : Nat := 0
  errors : List (Nat × String) := []
deriving DecidableEq, Repr

/-- Where a request stands, with the messages given to `Sink.Enqueue`. -/
structure Ingest where
  events : Nat := 0
  resp : IngestResponse := {}
  backpressure : Bool := false
  /-- More of the body was asked for than there is. -/
  atEnd : Bool := false
  messages : List RawMessage := []

def maxIngestErrors : Nat := 20

def IngestResponse.reject (r : IngestResponse) (line : Nat) (msg : String) : IngestResponse :=
  { r with
    rejected := r.rejected + 1
    errors := if r.errors.length < maxIngestErrors then r.errors ++ [(line, msg)] else r.errors }

/-- The event is a valid JSON object. -/
def isObject (raw : Bytes) : Bool := raw.head? = some 123 && valid raw

/-- Take one event; `false` ends the loop. -/
def Ingest.enqueue (deps : IngestDeps) (src : Settings) (st : Ingest) (e : Event) : Ingest × Bool :=
  let raw := trimSpace e.raw
  let st := { st with events := st.events + 1, atEnd := st.atEnd || e.atEnd }
  if deps.maxEvents < st.events then
    let msg := "more than " ++ toString deps.maxEvents ++ " events in one request"
    ({ st with resp := st.resp.reject e.line msg }, false)
  else if !isObject raw then
    ({ st with resp := st.resp.reject e.line "not a valid JSON object" }, true)
  else
    let accepts := deps.sink st.messages.length
    let msg : RawMessage := ⟨raw, false, src⟩
    let st := { st with messages := st.messages ++ [msg] }
    if accepts then ({ st with resp := { st.resp with accepted := st.resp.accepted + 1 } }, true)
    else ({ st with backpressure := true }, false)

/-- The loop over the events, with the error reading the body ended with. A loop that is
broken off knows of the error only if the end was reached before. -/
def Ingest.run (deps : IngestDeps) (src : Settings) (err : Option BodyError) (atEnd : Bool)
    (st : Ingest) : List Event → Ingest × Option BodyError
  | [] => ({ st with atEnd := st.atEnd || atEnd }, err)
  | e :: es =>
    match st.enqueue deps src e with
    | (st, true) => st.run deps src err atEnd es
    | (st, false) => (st, if e.atEnd then err else none)

/-- Reading the body to its end takes no read after `maxBodyBytes` were handed out. -/
def Body.fits (b : Body) (maxBodyBytes : Nat) : Bool :=
  b.bytes.length < maxBodyBytes || (b.together && b.bytes.length = maxBodyBytes && 0 < maxBodyBytes)

/-- The first `maxBodyBytes` of a body. A read past them fails. -/
def Body.limited (b : Body) (maxBodyBytes : Nat) : Body :=
  if b.fits maxBodyBytes then b else { bytes := b.bytes.take maxBodyBytes, failure := .other }

def isNDJSON (mediaType : String) : Bool :=
  mediaType = "application/x-ndjson" || mediaType = "application/jsonl"

/-- The size that the buffer of the scanner can have: it begins with 64 KiB, and does not
grow over the limit that it is given. -/
def maxLineBytes (maxBodyBytes : Nat) : Nat := max 65536 (min maxBodyBytes 16777216)

def bodyEvents (ndjson : Bool) (maxBodyBytes : Nat) (b : Body) : Events :=
  if ndjson then lineEvents b.failure b.together (maxLineBytes maxBodyBytes) 1 b.bytes
  else jsonEvents b.failure b.bytes

/-- What is answered once the body was read, given the texts of errors. -/
def Ingest.answer (deps : IngestDeps) (text : BodyError → String) (exceeds : Bool) (st : Ingest)
    (err : Option BodyError) : Except ApiError (Nat × IngestResponse) :=
  if st.atEnd && exceeds then
    .error ⟨413, "payload_too_large", "request body exceeds " ++ toString deps.maxBodyBytes ++
      " bytes (after decompression)", ""⟩
  else
    let resp := match err with
      | some e => if st.backpressure then st.resp
        else st.resp.reject 0 ("body could not be read completely: " ++ text e)
      | none => st.resp
    .ok (if st.backpressure then 503 else 202, resp)

/-- Read a body: the answer, and the messages given to `Sink.Enqueue`. -/
def ingestBody (deps : IngestDeps) (text : BodyError → String) (src : Settings) (ndjson : Bool)
    (body : Body) : Except ApiError (Nat × IngestResponse) × List RawMessage :=
  let es := bodyEvents ndjson deps.maxBodyBytes (body.limited deps.maxBodyBytes)
  let (st, err) := Ingest.run deps src es.err es.atEnd {} es.list
  (st.answer deps text (!body.fits deps.maxBodyBytes) err, st.messages)

/-- The body that is read, decompressed if it has to be. -/
def IngestRequest.decoded (r : IngestRequest) : Except ApiError Body :=
  if r.encoding = "" || r.encoding = "identity" then .ok r.body
  else if r.encoding = "gzip" then
    match r.gunzip with
    | none => .error ⟨400, "bad_request", "invalid gzip body", ""⟩
    | some body => .ok body
  else .error ⟨415, "unsupported_media_type", "Content-Encoding must be gzip or identity", ""⟩

def handleIngest (deps : IngestDeps) (text : BodyError → String) (r : IngestRequest) :
    Except ApiError (Nat × IngestResponse) × List RawMessage :=
  match deps.source with
  | none =>
    (.error ⟨404, "not_configured", "HTTP ingestion is not configured (add an http_json source)", ""⟩, [])
  | some src =>
    if r.tenant ≠ src.tenant then
      (.error ⟨403, "forbidden", "API key tenant does not match the ingestion source", ""⟩, [])
    else if !isNDJSON r.mediaType && r.mediaType ≠ "application/json" then
      (.error ⟨415, "unsupported_media_type",
        "Content-Type must be application/json or application/x-ndjson", ""⟩, [])
    else
      match r.decoded with
      | .error e => (.error e, [])
      | .ok body => ingestBody deps text src (isNDJSON r.mediaType) body

/-! ## The messages of a request -/

theorem trimSpace_length_le (b : Bytes) : (trimSpace b).length ≤ b.length :=
  (List.rdropWhile_prefix _ _).length_le.trans (List.length_dropWhile_le _ _)

theorem dropCR_length_le (b : Bytes) : (dropCR b).length ≤ b.length := by
  unfold dropCR
  split
  · simp
  · exact le_refl _

/-- No event is longer than the body it is read from. -/
def Events.Within (es : Events) (n : Nat) : Prop := ∀ e ∈ es.list, e.raw.length ≤ n

theorem Events.within_nil {n : Nat} {es : Events} (h : es.list = []) : es.Within n := by
  simp [Events.Within, h]

theorem Events.Within.cons {n m : Nat} {es : Events} {e : Event} (h : es.Within m) (hm : m ≤ n)
    (he : e.raw.length ≤ n) : (es.cons e).Within n := by
  intro e' he'
  obtain rfl | he' := List.mem_cons.mp he'
  · exact he
  · exact (h e' he').trans hm

theorem upTo_length_le (delim : UInt8) (b : Bytes) : (upTo delim b).length ≤ b.length :=
  (List.takeWhile_prefix _).length_le

theorem afterDelim_length_le (delim : UInt8) (b : Bytes) :
    (afterDelim delim b).length ≤ b.length := by
  rw [afterDelim, List.length_drop]
  exact Nat.sub_le _ _

theorem lineEvents_within (failure : Failure) (together : Bool) (maxToken line : Nat) (b : Bytes) :
    (lineEvents failure together maxToken line b).Within b.length := by
  fun_induction lineEvents failure together maxToken line b with
  | case1 => exact Events.within_nil rfl
  | case2 => exact Events.within_nil rfl
  | case3 line b _ _ rest _ ih =>
    intro e he
    exact (ih e he).trans (afterDelim_length_le 10 b)
  | case4 line b _ _ rest _ ih =>
    apply ih.cons (afterDelim_length_le 10 b)
    exact (dropCR_length_le _).trans (upTo_length_le 10 b)

theorem endOf_within (e : DecodeError) (n : Nat) : (endOf e).Within n := by
  cases e <;> exact Events.within_nil rfl

theorem decode_raw_le {failure : Failure} {b raw rest : Bytes}
    (h : decode failure b = .ok (raw, rest)) : raw.length ≤ b.length := by
  rw [← readValue_append h, List.length_append]
  exact Nat.le_add_right _ _

theorem valueEvents_within (failure : Failure) (i : Nat) (b : Bytes) :
    (valueEvents failure i b).Within b.length := by
  fun_induction valueEvents failure i b with
  | case1 i b e => exact endOf_within e _
  | case2 i b raw rest h ih => exact ih.cons (decode_rest_lt h).le (decode_raw_le h)

theorem elementEvents_within (failure : Failure) (first : Bool) (i : Nat) (b : Bytes) :
    (elementEvents failure first i b).Within b.length := by
  fun_induction elementEvents failure first i b with
  | case1 => exact Events.within_nil rfl
  | case2 => exact Events.within_nil rfl
  | case3 => exact Events.within_nil rfl
  | case4 first i b c t hb _ _ e =>
    cases e <;> exact Events.within_nil rfl
  | case5 first i b c t hb _ _ raw rest h ih =>
    have hle : (if first = true then c :: t else t).length ≤ b.length := by
      have hlength : (c :: t).length ≤ b.length := hb ▸ List.length_dropWhile_le _ _
      split
      · exact hlength
      · exact (Nat.le_succ _).trans hlength
    exact ih.cons ((decode_rest_lt h).le.trans hle) ((decode_raw_le h).trans hle)

theorem jsonEvents_within (failure : Failure) (b : Bytes) :
    (jsonEvents failure b).Within b.length := by
  have hlength := List.length_dropWhile_le isSpace b
  unfold jsonEvents
  split
  · exact Events.within_nil rfl
  · rename_i c t hb
    rw [hb] at hlength
    split
    · intro e he
      exact (elementEvents_within failure true 1 t e he).trans ((Nat.le_succ _).trans hlength)
    · intro e he
      exact (valueEvents_within failure 1 (c :: t) e he).trans hlength

theorem Body.length_le_of_fits {b : Body} {n : Nat} (h : b.fits n = true) : b.bytes.length ≤ n := by
  simp only [Body.fits, Bool.or_eq_true, Bool.and_eq_true, decide_eq_true_eq] at h
  omega

theorem Body.limited_length (b : Body) (n : Nat) : (b.limited n).bytes.length ≤ n := by
  unfold Body.limited
  split
  · exact Body.length_le_of_fits ‹_›
  · simp

theorem bodyEvents_within (ndjson : Bool) (n : Nat) (b : Body) :
    (bodyEvents ndjson n b).Within b.bytes.length := by
  unfold bodyEvents
  split
  · exact lineEvents_within _ _ _ _ _
  · exact jsonEvents_within _ _

theorem IngestRequest.decoded_error {r : IngestRequest} {e : ApiError} (h : r.decoded = .error e) :
    e.status ≠ 413 := by
  unfold IngestRequest.decoded at h
  split_ifs at h
  · split at h <;> cases h
    decide
  · cases h
    decide

/-- A request is refused, not for the size of its body, or its body is read. -/
theorem handleIngest_cases (deps : IngestDeps) (text : BodyError → String) (r : IngestRequest) :
    (∃ e, handleIngest deps text r = (.error e, []) ∧ e.status ≠ 413) ∨
      ∃ src body, r.decoded = .ok body ∧
        handleIngest deps text r = ingestBody deps text src (isNDJSON r.mediaType) body := by
  unfold handleIngest
  split
  · exact .inl ⟨_, rfl, by decide⟩
  · split
    · exact .inl ⟨_, rfl, by decide⟩
    · split
      · exact .inl ⟨_, rfl, by decide⟩
      · split
        · rename_i e herror
          exact .inl ⟨e, rfl, r.decoded_error herror⟩
        · rename_i src _ _ _ _ body hbody
          exact .inr ⟨src, body, hbody, rfl⟩

section Loop

variable {deps : IngestDeps} {src : Settings} {err : Option BodyError} {atEnd : Bool} {st : Ingest}
  {e : Event} {es : List Event} {r : Ingest × Bool} {m : RawMessage}

/-- What one event does: it is taken over, it is rejected, or the queue refuses it and
the loop ends. -/
inductive Ingest.Took (deps : IngestDeps) (src : Settings) (st : Ingest) (e : Event) :
    Ingest × Bool → Prop
  | accepted (hobject : isObject (trimSpace e.raw) = true) (hsink : deps.sink st.messages.length = true) :
      Took deps src st e ({ st with
        events := st.events + 1
        atEnd := st.atEnd || e.atEnd
        messages := st.messages ++ [⟨trimSpace e.raw, false, src⟩]
        resp := { st.resp with accepted := st.resp.accepted + 1 } }, true)
  | rejected (msg : String) (goes : Bool) :
      Took deps src st e ({ st with
        events := st.events + 1
        atEnd := st.atEnd || e.atEnd
        resp := st.resp.reject e.line msg }, goes)
  | refused (hsink : deps.sink st.messages.length = false) :
      Took deps src st e ({ st with
        events := st.events + 1
        atEnd := st.atEnd || e.atEnd
        messages := st.messages ++ [⟨trimSpace e.raw, false, src⟩]
        backpressure := true }, false)

theorem Ingest.enqueue_took (deps : IngestDeps) (src : Settings) (st : Ingest) (e : Event) :
    Took deps src st e (st.enqueue deps src e) := by
  unfold Ingest.enqueue
  simp only
  split_ifs with hmax hobject hsink
  · exact .rejected _ _
  · exact .rejected _ _
  · exact .accepted (by simpa using hobject) hsink
  · exact .refused (by simpa using hsink)

theorem Ingest.run_cons : st.run deps src err atEnd (e :: es) =
    if (st.enqueue deps src e).2 then (st.enqueue deps src e).1.run deps src err atEnd es
    else ((st.enqueue deps src e).1, if e.atEnd then err else none) := by
  rw [Ingest.run]
  split <;> simp [*]

/-- What every event keeps, the loop keeps. -/
theorem Ingest.run_invariant {I : Ingest → Prop} (hatEnd : ∀ st b, I st → I { st with atEnd := b })
    (htook : ∀ st e r, e ∈ es → Took deps src st e r → I st → I r.1) (hst : I st) :
    I (st.run deps src err atEnd es).1 := by
  induction es generalizing st with
  | nil => exact hatEnd st _ hst
  | cons e es ih =>
    have hnext := htook st e _ (by simp) (st.enqueue_took deps src e) hst
    rw [Ingest.run_cons]
    split
    · exact ih (fun st e' r he' => htook st e' r (by simp [he'])) hnext
    · exact hnext

/-- The messages of one event: the event without the white space around it, or none. -/
theorem Ingest.Took.messages (h : Took deps src st e r) : r.1.messages = st.messages ∨
    r.1.messages = st.messages ++ [⟨trimSpace e.raw, false, src⟩] := by
  cases h with
  | accepted => exact .inr rfl
  | rejected => exact .inl rfl
  | refused => exact .inr rfl

theorem Ingest.run_messages (h : m ∈ (st.run deps src err atEnd es).1.messages) :
    m ∈ st.messages ∨ ∃ e ∈ es, m.data = trimSpace e.raw := by
  refine Ingest.run_invariant
    (I := fun st' => m ∈ st'.messages → m ∈ st.messages ∨ ∃ e ∈ es, m.data = trimSpace e.raw)
    (fun _ _ h => h) (fun st' e r he htook hst' hm => ?_) .inl h
  obtain heq | heq := htook.messages
  · exact hst' (heq ▸ hm)
  · rw [heq, List.mem_append, List.mem_singleton] at hm
    exact hm.elim hst' fun hm => .inr ⟨e, he, by rw [hm]⟩

/-- The loop keeps the messages it has given to `Enqueue`. -/
theorem Ingest.mem_run (h : m ∈ st.messages) : m ∈ (st.run deps src err atEnd es).1.messages := by
  refine Ingest.run_invariant (I := fun st' => m ∈ st'.messages) (fun _ _ h => h)
    (fun st' e r _ htook hst' => ?_) h
  obtain heq | heq := htook.messages
  · rwa [heq]
  · rw [heq]
    exact List.mem_append_left _ hst'

theorem Ingest.mem_run_cons (h : m ∈ (st.enqueue deps src e).1.messages) :
    m ∈ (st.run deps src err atEnd (e :: es)).1.messages := by
  rw [Ingest.run_cons]
  split
  · exact Ingest.mem_run h
  · exact h

/-- No message is longer than the part of the body that is read. -/
theorem handleIngest_length {deps : IngestDeps} {text : BodyError → String} {r : IngestRequest}
    {m : RawMessage} (h : m ∈ (handleIngest deps text r).2) : m.data.length ≤ deps.maxBodyBytes := by
  obtain ⟨e, hhandle, -⟩ | ⟨src, body, -, hhandle⟩ := handleIngest_cases deps text r
  · rw [hhandle] at h
    cases h
  · rw [hhandle] at h
    obtain hm | ⟨e, he, hm⟩ := Ingest.run_messages h
    · cases hm
    · rw [hm]
      exact (trimSpace_length_le _).trans ((bodyEvents_within _ _ _ e he).trans
        (body.limited_length _))

end Loop

/-- An object without members, with space inside: JSON text of any length from two. -/
def spacedObject (n : Nat) : Bytes := 123 :: (List.replicate n 32 ++ [125])

theorem spacedObject_length (n : Nat) : (spacedObject n).length = n + 2 := by
  simp [spacedObject]

/-- Inside an object that has just been opened. -/
def opened : Scanner := ⟨.beginStringOrEmpty, [.objectKey]⟩

theorem opened_run (n : Nat) :
    Scanner.run opened (List.replicate n 32 ++ [125]) = some ⟨.endTop, []⟩ := by
  induction n with
  | zero => rfl
  | succ n ih => exact ih

theorem opened_readValue (failure : Failure) (blank : Bool) (n : Nat) :
    readValue failure blank opened (List.replicate n 32 ++ [125]) =
      .ok (List.replicate n 32 ++ [125], []) := by
  induction n generalizing blank with
  | zero => rfl
  | succ n ih =>
    have hstep : opened.step 32 = (.go, opened) := rfl
    simp only [List.replicate_succ, List.cons_append, readValue, hstep, ih]
    rfl

theorem spacedObject_valid (n : Nat) : valid (spacedObject n) = true := by
  have hrun : Scanner.run {} (spacedObject n) = some ⟨.endTop, []⟩ := opened_run n
  rw [valid, hrun]
  rfl

theorem spacedObject_decode (failure : Failure) (n : Nat) :
    decode failure (spacedObject n) = .ok (spacedObject n, []) := by
  have hread : decode failure (spacedObject n) =
      consume 123 (readValue failure false opened (List.replicate n 32 ++ [125])) := rfl
  rw [hread, opened_readValue]
  rfl

theorem spacedObject_trimSpace (n : Nat) : trimSpace (spacedObject n) = spacedObject n := by
  have hdrop : (spacedObject n).dropWhile isSpace = spacedObject n := rfl
  have hlast : spacedObject n = (123 :: List.replicate n 32) ++ [125] := rfl
  rw [trimSpace, hdrop, hlast, List.rdropWhile_concat_neg]
  decide

/-- An object within the number of events is given to `Enqueue`. -/
theorem Ingest.enqueue_object (deps : IngestDeps) (src : Settings) (st : Ingest) (e : Event)
    (hevents : st.events < deps.maxEvents) (hobject : isObject (trimSpace e.raw) = true) :
    (st.enqueue deps src e).1.messages = st.messages ++ [⟨trimSpace e.raw, false, src⟩] := by
  simp only [Ingest.enqueue, hobject, not_lt.mpr (Nat.succ_le_of_lt hevents), if_false,
    Bool.not_true, Bool.false_eq_true]
  split <;> rfl

/-- A body of JSON that is not compressed. -/
def jsonRequest (tenant : String) (body : Body) : IngestRequest :=
  { tenant, mediaType := "application/json", body }

theorem handleIngest_jsonRequest {deps : IngestDeps} {src : Settings} (text : BodyError → String)
    (hsource : deps.source = some src) (body : Body) :
    handleIngest deps text (jsonRequest src.tenant body) = ingestBody deps text src false body := by
  simp [handleIngest, hsource, jsonRequest, IngestRequest.decoded, isNDJSON]

theorem jsonEvents_spacedObject (failure : Failure) (n : Nat) :
    jsonEvents failure (spacedObject n) =
      (valueEvents failure 2 []).cons { line := 1, raw := spacedObject n } :=
  valueEvents_ok (spacedObject_decode failure n)

/-- A body of the largest size can be one message. -/
theorem handleIngest_spacedObject (deps : IngestDeps) (text : BodyError → String) {src : Settings}
    {n : Nat} (hsource : deps.source = some src) (hbody : deps.maxBodyBytes = n + 2)
    (hevents : 1 ≤ deps.maxEvents) :
    (⟨spacedObject n, false, src⟩ : RawMessage) ∈
      (handleIngest deps text (jsonRequest src.tenant { bytes := spacedObject n })).2 := by
  have hlimited : Body.limited { bytes := spacedObject n } deps.maxBodyBytes =
      { bytes := spacedObject n, failure := .other } := by
    rw [Body.limited, if_neg (by simp [Body.fits, spacedObject_length, hbody]),
      List.take_of_length_le (by rw [spacedObject_length, hbody])]
  have hobject : isObject (trimSpace (spacedObject n)) = true := by
    rw [spacedObject_trimSpace, isObject, spacedObject_valid]
    rfl
  have hevent : bodyEvents false deps.maxBodyBytes { bytes := spacedObject n, failure := .other } =
      (valueEvents .other 2 []).cons { line := 1, raw := spacedObject n } :=
    jsonEvents_spacedObject .other n
  rw [handleIngest_jsonRequest text hsource, ingestBody, hlimited, hevent]
  apply Ingest.mem_run_cons
  have henqueue := Ingest.enqueue_object deps src {} { line := 1, raw := spacedObject n } hevents hobject
  rw [henqueue, spacedObject_trimSpace]
  exact List.mem_append_right _ (List.mem_singleton_self _)

end Syslogc.Api
