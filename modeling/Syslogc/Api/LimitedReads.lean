-- SUMMARY: The limit on a request body, however it is delivered.
import Syslogc.Lib.Transition
import Syslogc.Api.IngestAccounting

/-!
# The limit on a request body

`limitedReader` hands out at most `maxBodyBytes` of a body. Once it has handed out all it
may, the next read is an excess, whether or not the body goes on: a body that ends exactly
there is too large if the handler reads on, unless its end was reported together with its
last bytes. The handler reads on after lines and after values one after the other. It does
not after the closing bracket of an array.
-/

namespace Syslogc.Api

open Bufio Json Pipeline

/-- `limitedReader` over a body, with what it has handed out. -/
structure LimitedReader where
  remaining : Nat
  exceeded : Bool := false
  taken : Bytes := []
  /-- What the body has not delivered yet. -/
  unread : Bytes
  /-- A read has failed; no other follows. -/
  failed : Bool := false
  /-- The read that failed has handed out bytes. -/
  together : Bool := false
deriving DecidableEq, Repr

/-- A call of `Read`: the room in the buffer, how many bytes the body is ready to
deliver, and whether it reports its end together with its last bytes. -/
structure Read where
  room : Nat
  ready : Nat
  together : Bool := false
deriving DecidableEq, Repr

/-- `limitedReader.Read`. -/
def LimitedReader.read (l : LimitedReader) (c : Read) : LimitedReader :=
  if l.remaining = 0 then { l with exceeded := true, failed := true }
  else
    let room := if l.remaining < c.room then l.remaining else c.room
    let data := l.unread.take (min c.ready room)
    let unread := l.unread.drop (min c.ready room)
    { l with
      remaining := l.remaining - data.length
      taken := l.taken ++ data
      unread
      failed := unread.isEmpty && (data.isEmpty || c.together)
      together := unread.isEmpty && !data.isEmpty && c.together }

/-- The body is read as long as no read has failed. -/
def LimitedReader.step (l : LimitedReader) (c : Read) : Option LimitedReader :=
  if l.failed then none else some (l.read c)

/-- Read in this way, a body of these bytes is delivered up to a failure. -/
def Delivers (maxBodyBytes : Nat) (bytes : Bytes) (calls : List Read) (l : LimitedReader) : Prop :=
  Transition.run LimitedReader.step { remaining := maxBodyBytes, unread := bytes } calls = some l ∧
    l.failed = true

/-- The request with a body whose end is reported with its last bytes, or after them. -/
def IngestRequest.delivered (r : IngestRequest) (together : Bool) : IngestRequest :=
  { r with
    body := { r.body with together }
    gunzip := r.gunzip.map fun body => { body with together } }

/-- No delivery of its body makes the request too large. -/
def NeverTooLarge (deps : IngestDeps) (text : BodyError → String) (r : IngestRequest) : Prop :=
  ∀ body calls l e, r.decoded = .ok body → Delivers deps.maxBodyBytes body.bytes calls l →
    (handleIngest deps text (r.delivered l.together)).1 = .error e → e.status ≠ 413

/-! ## Reading -/

/-- Whether reading has ended, and how: with an excess after all that may be handed out, or
with the end of the body, which was asked for in time. -/
inductive LimitedReader.Ended (limit : Nat) (l : LimitedReader) : Prop
  | reading (hfailed : l.failed = false) (hexceeded : l.exceeded = false) (htogether : l.together = false)
  | excess (hfailed : l.failed = true) (hexceeded : l.exceeded = true) (htogether : l.together = false)
      (hspent : l.remaining = 0)
  | finished (hfailed : l.failed = true) (hexceeded : l.exceeded = false) (hunread : l.unread = [])
      (hlimit : 0 < limit) (htime : 0 < l.remaining ∨ l.together = true)

/-- What holds while a body is read up to a limit. -/
structure LimitedReader.Sound (bytes : Bytes) (limit : Nat) (l : LimitedReader) : Prop where
  all : l.taken ++ l.unread = bytes
  spent : l.taken.length + l.remaining = limit
  ended : l.Ended limit

theorem LimitedReader.Sound.step {bytes : Bytes} {limit : Nat} {l l' : LimitedReader} {c : Read}
    (hl : l.Sound bytes limit) (h : l.step c = some l') : l'.Sound bytes limit := by
  obtain ⟨hgoes, h⟩ := Option.ite_none_left_eq_some.mp h
  cases h
  obtain ⟨-, hexceeded, htogether⟩ | ⟨hfailed, -⟩ | ⟨hfailed, -⟩ := hl.ended
  rotate_left
  · exact absurd hfailed hgoes
  · exact absurd hfailed hgoes
  have hspent := hl.spent
  unfold LimitedReader.read
  split
  · rename_i hzero
    exact ⟨hl.all, hl.spent, .excess rfl rfl htogether hzero⟩
  · rename_i hleft
    simp only
    generalize hn : min c.ready (if l.remaining < c.room then l.remaining else c.room) = n
    have hle : n ≤ l.remaining := by
      rw [← hn]
      split <;> omega
    refine ⟨?_, ?_, ?_⟩
    · simp only [List.append_assoc, List.take_append_drop]
      exact hl.all
    · simp only [List.length_append, List.length_take]
      omega
    · cases hunread : (l.unread.drop n).isEmpty with
      | false => exact .reading rfl hexceeded rfl
      | true =>
        cases hdata : (l.unread.take n).isEmpty with
        | true =>
          refine .finished rfl hexceeded (List.isEmpty_iff.mp hunread) (by omega) (.inl ?_)
          simp only [List.isEmpty_iff.mp hdata, List.length_nil]
          omega
        | false =>
          cases htime : c.together with
          | false => exact .reading rfl hexceeded rfl
          | true => exact .finished rfl hexceeded (List.isEmpty_iff.mp hunread) (by omega) (.inr rfl)

variable {body : Body}

/-- However a body is delivered, what the handler has read of it is the body up to the limit,
and an excess was met if the body does not fit. -/
theorem Delivers.limited {limit : Nat} {calls : List Read} {l : LimitedReader}
    (h : Delivers limit body.bytes calls l) :
    l.taken = (Body.limited { body with together := l.together } limit).bytes ∧
      l.exceeded = !Body.fits { body with together := l.together } limit := by
  have hl : l.Sound body.bytes limit := Transition.run_invariant (fun _ _ _ hl h => hl.step h)
    ⟨rfl, Nat.zero_add _, .reading rfl rfl rfl⟩ h.1
  have hspent := hl.spent
  have hlength : body.bytes.length = l.taken.length + l.unread.length := by rw [← hl.all, List.length_append]
  obtain ⟨hfailed, -⟩ | ⟨-, hexceeded, htogether, hzero⟩ | ⟨-, hexceeded, hunread, hlimit, htime⟩ := hl.ended
  · cases h.2.symm.trans hfailed
  · have hfits : Body.fits { body with together := l.together } limit = false := by
      simp [Body.fits, htogether]
      omega
    rw [Body.limited, hfits, hexceeded]
    refine ⟨?_, rfl⟩
    have htaken : l.taken.length = limit := by omega
    simp only [Bool.false_eq_true, if_false]
    rw [← hl.all, ← htaken, List.take_left]
  · have hfits : Body.fits { body with together := l.together } limit = true := by
      rw [hunread, List.length_nil] at hlength
      simp only [Body.fits, Bool.or_eq_true, Bool.and_eq_true, decide_eq_true_eq]
      obtain htime | htime := htime
      · omega
      · by_cases hlt : body.bytes.length < limit
        · exact .inl hlt
        · exact .inr ⟨⟨htime, by omega⟩, hlimit⟩
    rw [Body.limited, hfits, hexceeded]
    refine ⟨?_, rfl⟩
    simp only [if_true]
    rw [← hl.all, hunread, List.append_nil]

/-- A body can be delivered in one read with its end in the next. -/
theorem exists_delivers (bytes : Bytes) :
    ∃ calls l, Delivers bytes.length bytes calls l ∧ l.together = false := by
  cases hbytes : bytes with
  | nil => exact ⟨[⟨1, 0, false⟩], _, ⟨rfl, rfl⟩, rfl⟩
  | cons c t =>
    rw [← hbytes]
    have hpos : bytes.length ≠ 0 := by simp [hbytes]
    have hfirst : LimitedReader.step { remaining := bytes.length, unread := bytes }
        ⟨bytes.length, bytes.length, false⟩ =
        some ⟨0, false, bytes, [], false, false⟩ := by
      have hne : bytes.isEmpty = false := by simp [hbytes]
      simp [LimitedReader.step, LimitedReader.read, hpos, hne]
    refine ⟨[⟨bytes.length, bytes.length, false⟩, ⟨1, 0, false⟩], ⟨0, true, bytes, [], true, false⟩, ⟨?_, rfl⟩, rfl⟩
    rw [Transition.run_cons, hfirst]
    rfl

/-! ## What is asked for -/

theorem Values.of_blank_append {ws b : Bytes} {es : List Bytes} (hws : Blank ws)
    (h : Values (ws ++ b) es) : Values b es := by
  generalize hall : ws ++ b = all at h
  cases h with
  | nil hb => exact .nil fun c hc => hb c (by simp [← hall, hc])
  | @cons part rest es hpart hrest =>
    obtain ⟨more, rfl, rfl⟩ | ⟨more, rfl, rfl⟩ := List.append_eq_append_iff.mp hall
    · rw [trimSpace_blank_append hws] at hpart ⊢
      exact .cons hpart hrest
    · have hblank : Blank part := fun c hc => hws c (by simp [hc])
      rw [trimSpace, blank_iff_dropWhile.mp hblank] at hpart
      cases hpart

/-- More is asked for after values one after the other. -/
theorem Values.reads {ws b : Bytes} {es : List Bytes} (h : Values b es) (hws : Blank ws)
    (failure : Failure) (i : Nat) : (valueEvents failure i (ws ++ b)).Reads es true := by
  induction h generalizing ws i with
  | nil hb =>
    have hread := decode_blank_append (hws.append hb) failure []
    rw [List.append_nil] at hread
    cases failure with
    | eof =>
      rw [valueEvents_error hread]
      exact ⟨rfl, List.forall_mem_nil _, rfl, List.forall_mem_nil _⟩
    | other =>
      rw [valueEvents_error hread]
      exact ⟨rfl, List.forall_mem_nil _, rfl, List.forall_mem_nil _⟩
  | @cons part rest es hpart hrest ih =>
    obtain ⟨raw, trail, htrail, -, hraw, hread⟩ := decode_part hpart
    have hread : decode failure (ws ++ (part ++ rest)) = .ok (ws ++ raw, trail ++ rest) := by
      rw [decode_blank_append hws, hread]
      rfl
    have htrim : trimSpace (ws ++ raw) = trimSpace part := (trimSpace_blank_append hws raw).trans hraw
    rw [valueEvents_ok hread, ← htrim]
    exact (ih htrail (i + 1)).cons (by rwa [htrim]) fun _ => rfl

/-- A line that an NDJSON body may have: blank or an object, and within the buffer. -/
def LineFits (maxToken : Nat) (part : Bytes) : Prop :=
  (trimSpace part ≠ [] → isObject (trimSpace part) = true) ∧ part.length < maxToken

theorem LineFits.after {b : Bytes} {maxToken : Nat} (h : ∀ part ∈ b.splitOn 10, LineFits maxToken part) :
    LineFits maxToken (upTo 10 b) ∧ ∀ part ∈ (afterDelim 10 b).splitOn 10, LineFits maxToken part := by
  rw [splitOn_eq, List.forall_mem_cons] at h
  refine ⟨h.1, ?_⟩
  by_cases hmem : 10 ∈ b
  · rw [if_pos hmem] at h
    exact h.2
  · rw [afterDelim_of_not_mem hmem]
    intro part hpart
    obtain rfl : part = [] := by simpa using hpart
    exact ⟨fun hne => absurd rfl hne, (Nat.zero_le _).trans_lt h.1.2⟩

/-- More is asked for after lines. -/
theorem lineEvents_reads {b : Bytes} {maxToken : Nat} (h : ∀ part ∈ b.splitOn 10, LineFits maxToken part)
    (failure : Failure) (together : Bool) (line : Nat) :
    (lineEvents failure together maxToken line b).Reads (lineTexts b) true := by
  fun_induction lineEvents failure together maxToken line b with
  | case1 line => exact ⟨lineTexts_nil.symm, List.forall_mem_nil _, rfl, List.forall_mem_nil _⟩
  | case2 line b _ hlong =>
    have hshort := (LineFits.after h).1.2
    simp only [lineTooLong, Bool.or_eq_true, Bool.and_eq_true, decide_eq_true_eq] at hlong
    omega
  | case3 line b _ _ rest hblank ih =>
    rw [trimSpace_dropCR] at hblank
    rw [lineTexts_eq, hblank]
    exact ih (LineFits.after h).2
  | case4 line b _ _ rest hblank ih =>
    rw [← ne_eq, trimSpace_dropCR] at hblank
    have hobject := (LineFits.after h).1.1 hblank
    rw [← trimSpace_dropCR] at hobject
    have hreads := (ih (LineFits.after h).2).cons (e := { line, raw := dropCR (upTo 10 b), atEnd := 10 ∉ b }) hobject
      fun _ => rfl
    rw [lineTexts_eq]
    simpa [trimSpace_dropCR, hblank] using hreads

/-- More than a well-formed body is asked for, unless it is an array. -/
theorem WellFormed.reads {ndjson : Bool} {bytes : Bytes} {es : List Bytes} {n : Nat}
    (h : WellFormed ndjson bytes es)
    (hshort : ndjson = true → ∀ part ∈ bytes.splitOn 10, part.length < maxLineBytes n) (failure : Failure)
    (together : Bool) :
    (bodyEvents ndjson n { bytes, failure, together }).Reads es
      (!(!ndjson && (bytes.dropWhile isSpace).head? = some 91)) := by
  cases h with
  | lines hobjects => exact lineEvents_reads (fun part hpart => ⟨hobjects part hpart, hshort rfl part hpart⟩) _ _ _
  | values hvalues =>
    rw [bodyEvents, if_neg (by decide)]
    cases hvalues with
    | nil hblank =>
      rw [jsonEvents, blank_iff_dropWhile.mp hblank]
      exact ⟨rfl, List.forall_mem_nil _, rfl, List.forall_mem_nil _⟩
    | @cons part rest es hpart hrest =>
      obtain ⟨t, ht⟩ := dropWhile_part hpart rest
      obtain ⟨ws, hws, hb⟩ := blank_append_dropWhile (part ++ rest)
      rw [ht] at hb
      have hvalues := Values.cons hpart hrest
      rw [hb] at hvalues
      rw [jsonEvents_values ht (by decide), ht]
      exact (hvalues.of_blank_append hws).reads blank_nil failure 1
  | @array ws b tail es hws hlisted htail =>
    have hcons : (ws ++ 91 :: b).dropWhile isSpace = 91 :: b := by
      rw [dropWhile_blank_append hws, List.dropWhile_cons_of_neg (by decide)]
    have hreads := (hlisted.reads blank_nil failure 1).1
    rw [bodyEvents, if_neg (by decide), jsonEvents_array hcons, hcons]
    exact hreads

/-! ## The answer -/

theorem IngestRequest.delivered_decoded {r : IngestRequest} (h : r.decoded = .ok body)
    (together : Bool) : (r.delivered together).decoded = .ok { body with together } := by
  unfold IngestRequest.decoded at h ⊢
  unfold IngestRequest.delivered
  split_ifs at h ⊢ with hplain hgzip
  · cases h
    rfl
  · cases hgunzip : r.gunzip with
    | none =>
      rw [hgunzip] at h
      cases h
    | some body' =>
      rw [hgunzip] at h
      cases h
      rfl

theorem IngestDeps.Takes.delivered {deps : IngestDeps} {r : IngestRequest} {n : Nat}
    (h : deps.Takes r body n) (together : Bool) :
    deps.Takes (r.delivered together) { body with together } n :=
  { h with decoded := IngestRequest.delivered_decoded h.decoded together }

/-- Only a body that does not fit is answered with an error once it is read. -/
theorem ingestBody_error {deps : IngestDeps} {text : BodyError → String} {src : Settings} {ndjson : Bool}
    {e : ApiError} (h : (ingestBody deps text src ndjson body).1 = .error e) :
    body.fits deps.maxBodyBytes = false := by
  unfold ingestBody Ingest.answer at h
  simp only at h
  split at h
  · rename_i hexceeds
    simp only [Bool.and_eq_true, Bool.not_eq_true'] at hexceeds
    exact hexceeds.2
  · cases h

/-- A body as long as the limit is read as a whole, whether it fits or not. -/
theorem Body.limited_of_length {n : Nat} (h : body.bytes.length = n) :
    ∃ failure together, body.limited n = { bytes := body.bytes, failure, together } := by
  unfold Body.limited
  split
  · exact ⟨_, _, rfl⟩
  · exact ⟨_, _, by rw [List.take_of_length_le h.le]⟩

/-- When a well-formed body as long as the limit is answered as too large. -/
theorem tooLarge_iff {deps : IngestDeps} {r : IngestRequest} {es : List Bytes}
    (htakes : deps.Takes r body es.length) (hlength : body.bytes.length = deps.maxBodyBytes)
    (hformed : WellFormed (isNDJSON r.mediaType) body.bytes es)
    (hshort : isNDJSON r.mediaType = true →
      ∀ part ∈ body.bytes.splitOn 10, part.length < maxLineBytes deps.maxBodyBytes)
    (text : BodyError → String) :
    (∃ e, (handleIngest deps text r).1 = .error e ∧ e.status = 413) ↔
      ¬ (isNDJSON r.mediaType = false ∧ (body.bytes.dropWhile isSpace).head? = some 91) ∧
        body.fits deps.maxBodyBytes = false := by
  obtain ⟨failure, together, hlimited⟩ := Body.limited_of_length hlength
  have hanswer := htakes.answer (by rw [hlimited]) (hformed.reads hshort failure together) text
  have hcond : (!(!isNDJSON r.mediaType && (body.bytes.dropWhile isSpace).head? = some 91) &&
      !body.fits deps.maxBodyBytes) = true ↔
      ¬ (isNDJSON r.mediaType = false ∧ (body.bytes.dropWhile isSpace).head? = some 91) ∧
        body.fits deps.maxBodyBytes = false := by
    cases isNDJSON r.mediaType <;> simp
  rw [← hcond]
  split at hanswer
  · exact iff_of_true hanswer ‹_›
  · refine iff_of_false ?_ ‹_›
    rintro ⟨e, herror, -⟩
    obtain ⟨resp, hok, -⟩ := hanswer
    cases herror.symm.trans hok

/-- A line with an empty object, as long as a body may be. -/
def fullRequest : IngestRequest where
  tenant := ""
  mediaType := "application/x-ndjson"
  body := { bytes := [123, 125, 10] }

def fullDeps : IngestDeps := ⟨some ⟨"http", ""⟩, 3, 10, fun _ => true⟩

end Syslogc.Api
