-- SUMMARY: Sources whose messages can outweigh the byte budget.
import Syslogc.Api.Sources
import Syslogc.Framing.Octets
import Syslogc.Listener.Receive

/-!
# Admission

A message holds its length and a fixed overhead of the pipeline's byte budget, and an
`Enqueue` of more than the whole budget waits until it is cancelled. The limit of a
syslog source is compared with the budget for the sources of the configuration file
only; the body of an HTTP request is never compared with it. `delivered_fit_iff` says
which sources can deliver a message that is too large.
-/

namespace Syslogc.Listener

open Bufio Framing Pipeline Config Api

/-! ## Wiring -/

/-- `wireIngest`, on a machine that runs `cpus` threads at once. -/
def wireIngest (c : IngestionConfig) (hc : c.Valid) (cpus : Nat) (hcpus : 0 < cpus) :
    Pipeline.Config where
  queueMaxMessages := c.queue.maxMessages.toNat
  queueMaxBytes := c.queue.maxBytes.toNat
  workers := if c.parseWorkers = 0 then cpus else c.parseWorkers.toNat
  batchMaxRows := c.batch.maxRows.toNat
  batchMaxBytes := c.batch.maxBytes.toNat
  writers := c.writers.toNat
  batchQueue := c.batchQueue.toNat
  queueMaxMessages_pos := by
    have := hc.messages
    omega
  workers_pos := by
    have := hc.workers
    split <;> omega
  writers_pos := by
    have := hc.writers
    omega

/-- What the pipeline reads of a source. -/
def settings (s : Source) : Settings := ⟨s.name, s.tenant⟩

/-- A message that the listener of a source, or the HTTP endpoint for it, can hand to the
pipeline. -/
inductive Delivers (c : IngestionConfig) (s : Source) (m : RawMessage) : Prop where
  | datagram (bytes : Bytes) (hsyslog : s.type = sourceTypeSyslog)
      (hudp : s.protocol = protocolUDP)
      (h : receiveDatagram (settings s) s.maxMessageBytes.toNat bytes = some m)
  | stream (reads : List Bytes) (failure : Failure) (d : Decoder) (n : Nat)
      (hsyslog : s.type = sourceTypeSyslog)
      (htcp : s.protocol = protocolTCP ∨ s.protocol = protocolTLS)
      (hopen : openDecoder (s.protocol = protocolTLS) (parseMode s.framing).1
        s.maxMessageBytes.toNat reads failure = some d)
      (h : m ∈ serve (settings s) n d)
  | request (sink : Nat → Bool) (text : BodyError → String) (r : IngestRequest)
      (hhttp : s.type = sourceTypeHTTPJSON)
      (h : m ∈ (handleIngest ⟨some (settings s), c.http.maxBodyBytes.toNat,
        c.http.maxEvents.toNat, sink⟩ text r).2)

/-- The ways in which a source is accepted, beside a configuration that is. -/
inductive Admitted (k : Checks) (c : IngestionConfig) (s : Source) : Prop where
  | file (elsewhere : List String) (hvalid : validate k elsewhere c = []) (h : s ∈ c.sources)
  | api (elsewhere : List String) (hvalid : validate k elsewhere c = []) (env : SourceEnv)
      (hchecks : env.checks = k) (body : Except ApiError SourceInput) (self : Option ManagedSource)
      (input : SourceInput) (h : decodeSource env body self = .ok (input, s))

variable {c : IngestionConfig}

theorem Admitted.config {k : Checks} {s : Source} (h : Admitted k c s) :
    c.Valid := by
  cases h with
  | file _ hvalid _ => exact .of_validate hvalid
  | api _ hvalid _ _ _ _ _ _ => exact .of_validate hvalid

theorem Admitted.source {k : Checks} {s : Source} (h : Admitted k c s) :
    s.Valid := by
  cases h with
  | file _ hvalid hs => exact ((IngestionConfig.Valid.of_validate hvalid).sources s hs).1
  | api _ _ _ _ _ _ _ h => exact decodeSource_valid h

/-! ## Waiting for the budget -/

/-- An `Enqueue` of the message that waits for the budget goes on once all of it is
free. -/
def Passes (cfg : Pipeline.Config) (m : RawMessage) : Prop :=
  ∀ (st : State) (i : Nat), st.budget = 0 → (st.call cfg i ⟨m, .waiting⟩).isSome = true

/-- An `Enqueue` of a message that outweighs the budget waits in every state. -/
theorem waiting_stuck {cfg : Pipeline.Config} {m : RawMessage} (h : cfg.queueMaxBytes < m.weight)
    (st : State) (i : Nat) : st.call cfg i ⟨m, .waiting⟩ = none := by
  have hno : ¬ st.budgetHas cfg m.weight := by
    rw [State.budgetHas]
    omega
  simp [State.call, hno]

theorem passes_iff {cfg : Pipeline.Config} {m : RawMessage} :
    Passes cfg m ↔ m.weight ≤ cfg.queueMaxBytes := by
  constructor
  · intro h
    by_contra hheavy
    have hsome := h (State.start cfg) 0 rfl
    rw [waiting_stuck (not_le.mp hheavy)] at hsome
    cases hsome
  · intro h st i hst
    have hhas : st.budgetHas cfg m.weight := by
      rw [State.budgetHas, hst, Nat.zero_add]
      exact h
    simp [State.call, hhas]

/-! ## What a source can deliver -/

theorem receiveDatagram_length {src : Settings} {max : Nat} {bytes : Bytes} {m : RawMessage}
    (h : receiveDatagram src max bytes = some m) : m.data.length ≤ max := by
  simp only [receiveDatagram] at h
  split at h
  · cases h
  · split at h
    · cases h
      simp
    · cases h
      exact not_lt.mp ‹_›

theorem serve_length {src : Settings} {n : Nat} {d : Decoder} {m : RawMessage}
    (h : m ∈ serve src n d) : m.data.length ≤ d.max := by
  induction n generalizing d with
  | zero => cases h
  | succ n ih =>
    simp only [serve] at h
    obtain h | h := List.mem_append.mp h
    · split at h
      · cases h
      · rw [List.mem_singleton] at h
        rw [h]
        exact d.next_length
    · split at h
      · have hle : m.data.length ≤ d.next.2.max := ih h
        exact hle
      · cases h

theorem openDecoder_max {tls : Bool} {mode : Mode} {max : Nat} {reads : List Bytes}
    {failure : Failure} {d : Decoder} (h : openDecoder tls mode max reads failure = some d) :
    d.max = max := by
  simp only [openDecoder] at h
  split at h
  · cases h
    rfl
  · split at h
    · cases h
    · cases h
      rfl

/-- A line of one letter. -/
def letters (n : Nat) : Bytes := List.replicate n 97

theorem trimmed_letters (n : Nat) : trimmed (letters n) = letters n := by
  cases n with
  | zero => rfl
  | succ n =>
    rw [letters, List.replicate_succ']
    exact trimmed_eq_self (by decide)

/-- A stream that does not begin like a TLS record is opened, and nothing of it is lost. -/
theorem openDecoder_rest (tls : Bool) (mode : Mode) (max : Nat) {c : UInt8} (t : Bytes)
    (hc : c ≠ 0x16) :
    ∃ d, openDecoder tls mode max [c :: t] .eof = some d ∧ d.mode = mode ∧ d.max = max ∧
      d.reader.rest = c :: t ∧ d.reader.failure = .eof := by
  have hnew : ∀ size, (Reader.new size [c :: t] .eof).rest = c :: t := by
    intro size
    simp [Reader.rest, Reader.new]
  cases tls with
  | true => exact ⟨_, rfl, rfl, rfl, hnew _, rfl⟩
  | false =>
    obtain ⟨hpeek, -, hfailure⟩ := (Reader.new defaultBufSize [c :: t] .eof).peek_after tlsRecordHeaderLen
    rw [hnew, List.nil_append] at hpeek
    simp only [openDecoder, Bool.false_eq_true, if_false]
    generalize (Reader.new defaultBufSize [c :: t] .eof).peek tlsRecordHeaderLen = br at hpeek hfailure
    have hplain : looksLikeTLSClientHello br.buffered = false := by
      unfold looksLikeTLSClientHello
      split
      · rename_i a _ _ _ hbuffered
        rw [Reader.rest, hbuffered] at hpeek
        have heq : c = a := (List.cons.inj hpeek).1
        simp [← heq, hc]
      · rfl
    rw [hplain]
    exact ⟨_, rfl, rfl, rfl, (br.withSize_rest _).1.trans hpeek.symm, (br.withSize_rest _).2.trans hfailure⟩

/-- The first frame of a stream is given to `Enqueue`. -/
theorem mem_serve {src : Settings} {d : Decoder} {b rest : Bytes} (hb : b ≠ []) (heof : d.reader.failure = .eof)
    (h : nextFrame d.mode d.max d.reader.rest = .ok ((b, false), rest)) :
    (⟨b, false, src⟩ : RawMessage) ∈ serve src 1 d := by
  have hagrees := d.next_agrees heof
  rw [h] at hagrees
  have hnext : d.next.1 = { msg := b } := hagrees.1
  simp [serve, hnext, hb]

/-- A message of letters as a counted frame. -/
def lettersFrame (n : Nat) (h : (decimal (letters (n + 1)).length).length ≤ maxLengthDigits) : OctetFrame (n + 1) where
  gap := []
  gap_delimiters := by simp
  message := letters (n + 1)
  nonempty := by simp [letters]
  fits := by simp [letters]
  digits := h
  ending := by simp [letters, List.replicate_succ', cr, newline]

theorem nextFrame_letters {mode : Mode} (hmode : mode ≠ .octetCounting) (n : Nat) :
    ∃ rest, nextFrame mode (n + 1) (97 :: letters n) = .ok ((letters (n + 1), false), rest) := by
  have hdelim : mode.delim ∉ letters (n + 1) := by
    intro hmem
    have heq := List.eq_of_mem_replicate hmem
    cases mode <;> cases heq
  have hline : upTo mode.delim (97 :: letters n) = letters (n + 1) := by
    have h := upTo_append hdelim []
    rwa [List.append_nil, upTo_nil, List.append_nil] at h
  have hcut : cutAt (n + 1) (letters (n + 1)) = (letters (n + 1), false) := by
    rw [cutAt, List.take_of_length_le (by simp [letters]), trimmed_letters]
    simp [letters]
  have hfirst : nextFrame mode (n + 1) (97 :: letters n) = line mode (n + 1) (97 :: letters n) := by
    have hstart : (97 :: letters n).dropWhile isDelimiter = 97 :: letters n := rfl
    simp only [nextFrame, hstart, firstFrame, lengthDigits_of_not_starts (c := 97) (by decide), uncounted, if_neg hmode,
      ite_self]
  exact ⟨_, by rw [hfirst, line, hline, hcut]⟩

/-- In every framing a message of the largest size can be sent. -/
theorem stream_delivers (src : Settings) (tls : Bool) (mode : Mode) (max : Nat) (hpos : 0 < max)
    (hdigits : max < 10 ^ maxLengthDigits) :
    ∃ reads d, openDecoder tls mode max reads .eof = some d ∧
      (⟨letters max, false, src⟩ : RawMessage) ∈ serve src 1 d := by
  obtain ⟨n, rfl⟩ := Nat.exists_eq_succ_of_ne_zero hpos.ne'
  have hne : letters (n + 1) ≠ [] := by simp [letters]
  by_cases hmode : mode = .octetCounting
  · have hlength : (letters (n + 1)).length = n + 1 := List.length_replicate
    let f := lettersFrame n (by rw [hlength]; exact decimal_length_le hdigits)
    obtain ⟨c, ds, hdecimal, hlow, -⟩ := decimal_head hpos
    have hbytes : f.bytes = c :: (ds ++ space :: letters (n + 1)) := by
      simp only [f, lettersFrame, OctetFrame.bytes, hlength, hdecimal]
      rfl
    obtain ⟨d, hopen, hd, hmax, hrest, heof⟩ := openDecoder_rest tls mode (n + 1)
      (ds ++ space :: letters (n + 1)) (c := c) (by rintro rfl; exact absurd hlow (by decide))
    have hnext := f.nextFrame_bytes (.inr hmode) []
    rw [f.bytes.append_nil, hbytes] at hnext
    exact ⟨_, d, hopen, mem_serve hne heof (by rw [hd, hmax, hrest]; exact hnext)⟩
  · obtain ⟨d, hopen, hd, hmax, hrest, heof⟩ := openDecoder_rest tls mode (n + 1) (letters n) (c := 97) (by decide)
    obtain ⟨rest, hnext⟩ := nextFrame_letters hmode n
    exact ⟨_, d, hopen, mem_serve hne heof (by rw [hd, hmax, hrest]; exact hnext)⟩

/-! ## Sources and the budget -/

/-- The largest message of a source. -/
def largest (c : IngestionConfig) (s : Source) : Int :=
  if s.type = sourceTypeHTTPJSON then c.http.maxBodyBytes else s.maxMessageBytes

theorem Delivers.length_le {s : Source} {m : RawMessage}
    (h : Delivers c s m) : m.data.length ≤ (largest c s).toNat := by
  have hsyslog : ∀ h : s.type = sourceTypeSyslog, largest c s = s.maxMessageBytes := by
    intro h
    rw [largest, if_neg (by rw [h]; decide)]
  cases h with
  | datagram bytes htype hudp h =>
    rw [hsyslog htype]
    exact receiveDatagram_length h
  | stream reads failure d n htype htcp hopen h =>
    rw [hsyslog htype, ← openDecoder_max hopen]
    exact serve_length h
  | request sink text r hhttp h =>
    rw [largest, if_pos hhttp]
    exact handleIngest_length h

/-- A source that is not a UDP source can deliver a message of the largest size. -/
theorem Source.Valid.delivers_largest {s : Source} (hc : c.Valid)
    (hs : s.Valid) (hstream : ¬ (s.type = sourceTypeSyslog ∧ s.protocol = protocolUDP)) :
    ∃ m, Delivers c s m ∧ m.data.length = (largest c s).toNat := by
  obtain ⟨hlow, hhigh⟩ := hs.messageBytes
  rcases hs.type with ⟨htype, hprotocol⟩ | hhttp
  · have htcp := hprotocol.resolve_left fun hudp => hstream ⟨htype, hudp⟩
    obtain ⟨reads, d, hopen, hmem⟩ := stream_delivers (settings s) (s.protocol = protocolTLS)
      (parseMode s.framing).1 s.maxMessageBytes.toNat (by omega) (by rw [maxLengthDigits]; omega)
    refine ⟨_, .stream reads .eof d 1 htype htcp hopen hmem, ?_⟩
    rw [largest, if_neg (by rw [htype]; decide)]
    exact List.length_replicate
  · have hbody := hc.body
    have hevents := hc.events
    obtain ⟨n, hn⟩ : ∃ n, c.http.maxBodyBytes.toNat = n + 2 := ⟨c.http.maxBodyBytes.toNat - 2, by omega⟩
    have hmem := handleIngest_spacedObject ⟨some (settings s), c.http.maxBodyBytes.toNat,
      c.http.maxEvents.toNat, fun _ => true⟩ (fun _ => "") rfl hn (by dsimp only; omega)
    refine ⟨_, .request (fun _ => true) (fun _ => "") _ hhttp hmem, ?_⟩
    rw [largest, if_pos hhttp, hn]
    exact spacedObject_length n

theorem Admitted.largest_pos {k : Checks} {s : Source} (h : Admitted k c s) :
    0 < largest c s := by
  have hbody := h.config.body
  have hlow := h.source.messageBytes.1
  unfold largest
  split <;> omega

/-- A UDP source always fits: datagrams are small, and the budget is not. -/
theorem Admitted.udp_fits {k : Checks} {s : Source} (h : Admitted k c s)
    (htype : s.type = sourceTypeSyslog) (hudp : s.protocol = protocolUDP) :
    largest c s + messageOverhead ≤ c.queue.maxBytes := by
  have hqueue := h.config.queue
  have hsize := h.source.datagram hudp
  rw [largest, if_neg (by rw [htype]; decide), messageOverhead]
  omega

/-- Exactly the sources whose largest message fits the budget deliver no message whose
`Enqueue` waits until it is cancelled. -/
theorem delivered_pass_iff (k : Checks) (c : IngestionConfig) (s : Source) (h : Admitted k c s)
    (cpus : Nat) (hcpus : 0 < cpus) :
    (∀ m, Delivers c s m → Passes (wireIngest c h.config cpus hcpus) m) ↔
      largest c s + messageOverhead ≤ c.queue.maxBytes := by
  have hpos := h.largest_pos
  have hbudget : (wireIngest c h.config cpus hcpus).queueMaxBytes = c.queue.maxBytes.toNat := rfl
  constructor
  · intro hpass
    by_cases hudp : s.type = sourceTypeSyslog ∧ s.protocol = protocolUDP
    · exact h.udp_fits hudp.1 hudp.2
    · obtain ⟨m, hm, hlength⟩ := Source.Valid.delivers_largest h.config h.source hudp
      have hweight := passes_iff.mp (hpass m hm)
      rw [hbudget, RawMessage.weight, hlength] at hweight
      omega
  · intro hfits m hm
    rw [passes_iff, hbudget, RawMessage.weight]
    have hlength := hm.length_le
    omega

/-- Packages that find nothing wrong. -/
def lenient : Checks where
  template _ := none
  extract _ := none
  timezone _ := none
  cidr _ := true
  splitHostPort _ := .ok ("", "514")
  addr _ := true
  atoi _ := some 514
  quote s := s
  equalFold a b := a = b

/-- A TCP source for the largest messages there are. -/
def relay : Source :=
  { name := "relay", protocol := protocolTCP, address := ":514", maxMessageBytes := 16777216 }

/-- The default queue takes the messages of the source. -/
theorem delivered_pass_iff_relay :
    ∃ h : Admitted lenient { sources := [applySourceDefaults relay] } (applySourceDefaults relay),
      ∀ m, Delivers { sources := [applySourceDefaults relay] } (applySourceDefaults relay) m →
        Passes (wireIngest _ h.config 1 Nat.one_pos) m := by
  have h : Admitted lenient { sources := [applySourceDefaults relay] } (applySourceDefaults relay) :=
    .file [] rfl (List.mem_singleton_self _)
  exact ⟨h, (delivered_pass_iff lenient _ _ h 1 Nat.one_pos).mpr (by decide)⟩

/-- A queue of the smallest size. -/
def smallQueue : IngestionConfig := { queue := { maxBytes := 1048576 } }

/-- A deployment without other sources. -/
def emptyStore : SourceEnv where
  checks := lenient
  hasStore := true
  tenant := defaultTenant
  fileSources := []
  managed := .ok []
  clientCAs _ _ := none
  load _ := none

/-- Through the API the source is accepted beside the smallest queue, and can deliver a
message that never passes. -/
theorem relay_outweighs_smallQueue :
    ∃ h : Admitted lenient smallQueue (applySourceDefaults relay),
      ∃ m, Delivers smallQueue (applySourceDefaults relay) m ∧
        ¬ Passes (wireIngest smallQueue h.config 1 Nat.one_pos) m := by
  have h : Admitted lenient smallQueue (applySourceDefaults relay) :=
    .api [] rfl emptyStore rfl (.ok { config := relay }) none { config := relay } rfl
  obtain ⟨m, hm, hlength⟩ := Source.Valid.delivers_largest h.config h.source (by decide)
  refine ⟨h, m, hm, fun hpass => ?_⟩
  have hweight : m.weight ≤ 1048576 := passes_iff.mp hpass
  rw [RawMessage.weight, hlength] at hweight
  exact absurd hweight (by decide)

end Syslogc.Listener
