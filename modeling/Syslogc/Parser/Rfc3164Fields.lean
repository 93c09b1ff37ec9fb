-- SUMMARY: How the RFC 3164 parser takes a message apart.
import Syslogc.Parser.BsdTimestamps
import Syslogc.Parser.Rfc5424Positions

/-!
# The fields of RFC 3164 messages

Each stage of the parser goes on from a position to a later one, and what it puts into the
entry stands between the two.
-/

namespace Syslogc.Parser.Rfc3164

open Logentry Decimal Checked Calendar Instants Location

/-! ## Stages -/

/-- A position is reached from another one over some text. -/
structure Moves (data : Bytes) (pos : Nat) (text : Bytes) (next : Nat) : Prop where
  le_length : next ≤ data.length
  text_eq : data.drop pos = text ++ data.drop next

variable {data : Bytes} {pos next : Nat} {e : Entry}

theorem moves_of_le (hle : pos ≤ next) (hnext : next ≤ data.length) : ∃ gap, Moves data pos gap next :=
  ⟨_, hnext, drop_slice hle⟩

theorem Moves.refl (h : pos ≤ data.length) : Moves data pos [] pos := ⟨h, by simp⟩

theorem Moves.trans {text text' : Bytes} {last : Nat} (h : Moves data pos text next) (h' : Moves data next text' last) :
    Moves data pos (text ++ text') last :=
  ⟨h'.le_length, by rw [h.text_eq, h'.text_eq, List.append_assoc]⟩

theorem yields_skipSpaces (h : pos ≤ data.length) :
    Yields (skipSpaces data pos) fun next => ∃ gap, Moves data pos gap next := by
  refine (yields_scan _ h).mono ?_
  rintro next ⟨-, hnext, gap, hgap, -⟩
  exact ⟨gap, hnext, hgap⟩

/-- The position behind the priority. -/
structure BehindPriority (data : Bytes) (pos : Nat) : Prop where
  le_length : pos ≤ data.length
  of_some : ∀ {pri rest}, parsePRI data = some (pri, rest) → data.drop pos = rest
  of_none : parsePRI data = none → pos = 0

theorem yields_parsePriority (data : Bytes) (e : Entry) :
    Yields (parsePriority data e) fun r => BehindPriority data r.2 ∧
      ∃ facility severity source, r.1 = { e with facility, severity, severitySource := source } := by
  unfold parsePriority
  rw [Positional.parsePRI_eq, ok_bind]
  cases hpri : parsePRI data with
  | none => exact yields_ok ⟨⟨Nat.zero_le _, fun h => (by cases h.symm.trans hpri), fun _ => rfl⟩, _, _, _, rfl⟩
  | some p =>
    refine yields_ok ⟨⟨Nat.sub_le _ _, fun h => ?_, fun h => (by cases h.symm.trans hpri)⟩, _, _, _, rfl⟩
    cases h.symm.trans hpri
    exact drop_posOf (parsePRI_suffix hpri)

theorem yields_parseSequence (e : Entry) (h : pos ≤ data.length) :
    Yields (parseSequence data e pos) fun r => ∃ seq gap, Moves data pos (Option.getD seq [] ++ gap) r.2 ∧
      r.1 = { e with fields := e.fields ++ seq.toList.map (⟨utf8 "sequence", ·⟩) } := by
  unfold parseSequence
  refine (yields_scan isDigit h).bind ?_
  rintro seqEnd ⟨hle, hend, -⟩
  have hcolon : Yields (andAlso (seqEnd > pos) (hasPrefixAt data seqEnd (utf8 ": "))) fun b =>
      b = true → seqEnd > pos ∧ seqEnd ≤ data.length ∧ (utf8 ": ").isPrefixOf (data.drop seqEnd) = true := by
    refine yields_andAlso fun _ => yields_andAlso fun hle => ?_
    rw [suffix_of_le hle]
    exact yields_ok id
  refine hcolon.bind fun b hb => Yields.ite (fun htrue => ?_) fun _ => ?_
  · obtain ⟨-, -, hstart⟩ := hb htrue
    have hroom := (List.isPrefixOf_iff_prefix.mp hstart).length_le
    rw [List.length_drop] at hroom
    have hroom : seqEnd + 2 ≤ data.length := by
      have : (utf8 ": ").length = 2 := rfl
      omega
    refine (yields_slice hle hend).bind ?_
    rintro seq ⟨hseq, -⟩
    refine (yields_skipSpaces hroom).bind ?_
    rintro next ⟨gap, hgap⟩
    obtain ⟨gap', hgap'⟩ := moves_of_le (Nat.le_add_right seqEnd 2) hroom
    exact yields_ok ⟨some seq, gap' ++ gap, Moves.trans ⟨hend, hseq⟩ (hgap'.trans hgap), rfl⟩
  · exact yields_ok ⟨none, [], Moves.refl h, by simp⟩

theorem attempts_parseBSDTimestamp (go : GoLib) (s : Bytes) (loc : Location) (received : Int) :
    Attempts (parseBSDTimestamp go s loc received) fun r => r.2 ≤ s.length := by
  refine (attempts_readBSD s).bind ?_
  rintro b ⟨w, hw⟩
  dsimp only
  split
  · exact attempts_pure hw.length_le
  · exact attempts_pure hw.length_le

theorem attempts_parseISOTimestamp (go : GoLib) (s : Bytes) (loc : Location) :
    Attempts (parseISOTimestamp go s loc) fun r => r.2 ≤ s.length := by
  unfold parseISOTimestamp
  have hstop : (indexByte s 32).getD s.length ≤ s.length := by
    cases hindex : indexByte s 32 with
    | none => exact le_rfl
    | some i => exact (indexByte_lt hindex).le
  refine (attempts_guard _).bind fun _ hlen => ?_
  refine (yields_index (by omega)).lift.bind fun _ _ => (attempts_guard _).bind fun _ _ => ?_
  refine (yields_index (by omega)).lift.bind fun _ _ => (attempts_guard _).bind fun _ _ => ?_
  refine (yields_index (by omega)).lift.bind fun _ _ => (attempts_guard _).bind fun _ _ => ?_
  refine (yields_slice (Nat.zero_le _) hstop).lift.bind fun tok _ => ?_
  dsimp only
  split
  · exact attempts_pure hstop
  · split
    · exact attempts_pure hstop
    · exact yields_ok fun _ h => by cases h

theorem yields_parseTime (go : GoLib) (input : Input) (e : Entry) (h : pos ≤ input.data.length) :
    Yields (parseTime go input e pos) fun r => ∃ time gap, Moves input.data pos gap r.2.1 ∧ r.1 = { e with time } := by
  unfold parseTime
  refine Yields.ite (fun hlt => ?_) fun _ => yields_ok ⟨e.time, [], Moves.refl h, rfl⟩
  refine (yields_index hlt).bind fun c _ => ?_
  dsimp only
  generalize htsPos : (if c = 42 ∨ c = 46 then pos + 1 else pos) = tsPos
  have hts : pos ≤ tsPos ∧ tsPos ≤ input.data.length := by
    rw [← htsPos]
    split <;> omega
  refine (yields_suffix hts.2).bind ?_
  rintro _ rfl
  have hmoves {n : Nat} (hn : n ≤ (input.data.drop tsPos).length) : ∃ gap, Moves input.data pos gap (tsPos + n) := by
    rw [List.length_drop] at hn
    exact moves_of_le (by omega) (by omega)
  refine (attempts_parseBSDTimestamp go (input.data.drop tsPos) _ _).run.bind fun bsd hbsd => ?_
  cases bsd with
  | some r =>
    obtain ⟨gap, hgap⟩ := hmoves (hbsd r rfl)
    exact yields_ok ⟨r.1, gap, hgap, rfl⟩
  | none =>
    refine (attempts_parseISOTimestamp go (input.data.drop tsPos) _).run.bind fun iso hiso => ?_
    cases iso with
    | some r =>
      obtain ⟨gap, hgap⟩ := hmoves (hiso r rfl)
      exact yields_ok ⟨r.1, gap, hgap, rfl⟩
    | none => exact yields_ok ⟨e.time, [], Moves.refl h, rfl⟩

theorem yields_nextToken (h : pos ≤ data.length) :
    Yields (nextToken data pos) fun r => Moves data pos r.1 r.2 := by
  unfold nextToken
  refine Yields.ite (fun hge => yields_ok (Moves.refl h)) fun _ => ?_
  refine (yields_suffix h).bind ?_
  rintro _ rfl
  cases hindex : indexByte (data.drop pos) 32 with
  | none => exact yields_ok ⟨le_rfl, by simp⟩
  | some i =>
    have hi := indexByte_lt hindex
    rw [List.length_drop] at hi
    refine (yields_slice (Nat.le_add_right pos i) (by omega)).bind ?_
    rintro tok ⟨htok, -⟩
    exact yields_ok ⟨by dsimp only; omega, htok⟩

theorem yields_isHostname (tok : Bytes) : Yields (isHostname tok) fun _ => True :=
  Yields.ite (fun _ => yields_ok trivial) fun _ => (yields_find _ tok 0).bind fun _ _ => yields_ok trivial

/-- What a host name leaves behind. -/
def HostSplit (data : Bytes) (pos : Nat) (e : Entry) (r : Entry × Nat) : Prop :=
  ∃ gap host gap', Moves data pos (gap ++ (Option.getD host [] ++ gap')) r.2 ∧
    r.1 = { e with hostname := host.getD e.hostname }

theorem yields_parseHost (e : Entry) (h : pos ≤ data.length) :
    Yields (parseHost data e pos) (HostSplit data pos e) := by
  unfold parseHost
  refine (yields_skipSpaces h).bind ?_
  rintro start ⟨gap, hgap⟩
  have hnone : Yields (pure (e, start) : Checked (Entry × Nat)) (HostSplit data pos e) :=
    yields_ok ⟨gap, none, [], by simpa using hgap, rfl⟩
  refine (yields_nextToken hgap.le_length).bind ?_
  rintro ⟨tok, next⟩ htok
  have hhost : Yields (andAlso (tok ≠ [] ∧ next < data.length) (isHostname tok)) fun b =>
      b = true → (tok ≠ [] ∧ next < data.length) ∧ True :=
    yields_andAlso fun _ => (yields_isHostname tok).mono fun _ _ _ => trivial
  refine hhost.bind fun b _ => Yields.ite (fun _ => Yields.ite (fun _ => hnone) fun _ => ?_) fun _ => hnone
  refine (yields_skipSpaces htok.le_length).bind ?_
  rintro last ⟨gap', hgap'⟩
  exact yields_ok ⟨gap, some tok, gap', hgap.trans (htok.trans hgap'), rfl⟩

/-- What a tag and a process id leave behind. -/
def TagSplit (data : Bytes) (pos : Nat) (e : Entry) (r : Entry × Nat) : Prop :=
  ∃ app gap pid gap', Moves data pos (Option.getD app [] ++ (gap ++ (Option.getD pid [] ++ gap'))) r.2 ∧
    r.1 = { e with appName := app.getD e.appName, processID := pid.getD e.processID }

/-- A byte that is looked at only behind a test of the position. -/
theorem yields_andAlso_index {p : Prop} [Decidable p] {i : Nat} (f : UInt8 → Bool) (h : p → i < data.length) :
    Yields (andAlso p (f <$> index data i)) fun _ => True := by
  refine Yields.ite (fun hp => ?_) fun _ => yields_ok trivial
  rw [index_of_lt (h hp)]
  exact yields_ok trivial

theorem yields_parseTag (e : Entry) (h : pos ≤ data.length) : Yields (parseTag data pos e) (TagSplit data pos e) := by
  have hnone : Yields (pure (e, pos) : Checked (Entry × Nat)) (TagSplit data pos e) :=
    yields_ok ⟨none, [], none, [], Moves.refl h, rfl⟩
  unfold parseTag
  refine (yields_scanTo isTagChar _ h).bind ?_
  rintro i ⟨hle, hi⟩
  refine Yields.ite (fun _ => hnone) fun hshort => ?_
  refine (yields_slice hle hi).bind ?_
  rintro tag ⟨htag, -⟩
  refine (yields_index (by omega)).bind fun c _ => ?_
  refine Yields.ite (fun _ => ?_) fun _ => Yields.ite (fun _ => ?_) fun _ => hnone
  -- "TAG: "
  · refine (yields_andAlso_index _ (by omega)).bind fun b _ => Yields.ite (fun _ => hnone) fun _ => ?_
    refine (yields_skipByte 32 (by omega)).bind ?_
    rintro next ⟨hnext, hlast⟩
    obtain ⟨gap, hgap⟩ := moves_of_le (show i ≤ next by omega) hlast
    exact yields_ok ⟨some tag, gap, none, [], by simpa using Moves.trans ⟨hi, htag⟩ hgap, rfl⟩
  -- "TAG[PID]: "
  · refine (yields_suffix (by omega)).bind ?_
    rintro _ rfl
    cases hclose : indexByte (data.drop (i + 1)) 93 with
    | none => exact hnone
    | some close =>
      have hroom := indexByte_lt hclose
      rw [List.length_drop] at hroom
      refine Yields.ite (fun _ => hnone) fun _ => ?_
      refine (yields_slice (Nat.le_add_right (i + 1) close) (by omega)).bind ?_
      rintro pid ⟨hpid, -⟩
      refine (yields_find _ pid 0).bind fun other _ => Yields.ite (fun _ => hnone) fun _ => ?_
      refine (yields_skipByte 58 (by omega)).bind ?_
      rintro j ⟨hj, hjlen⟩
      refine (yields_andAlso_index _ id).bind fun b _ => Yields.ite (fun _ => hnone) fun _ => ?_
      refine (yields_skipByte 32 hjlen).bind ?_
      rintro next ⟨hnext, hlast⟩
      obtain ⟨gap, hgap⟩ := moves_of_le (Nat.le_add_right i 1) (show i + 1 ≤ data.length by omega)
      obtain ⟨gap', hgap'⟩ := moves_of_le (show i + 1 + close ≤ next by omega) hlast
      have hpidMoves : Moves data (i + 1) pid (i + 1 + close) := ⟨by omega, hpid⟩
      exact yields_ok ⟨some tag, gap, some pid, gap', Moves.trans ⟨hi, htag⟩ (hgap.trans (hpidMoves.trans hgap')), rfl⟩

/-! ## Messages -/

/-- A message taken apart: the priority, the fields in the order in which they stand, with
what lies between them, and the text of the message. -/
structure Parts where
  priority : Bytes
  gap₁ : Bytes
  sequence : Option Bytes
  gap₂ : Bytes
  hostname : Option Bytes
  gap₃ : Bytes
  appName : Option Bytes
  gap₄ : Bytes
  processID : Option Bytes
  gap₅ : Bytes
  message : Bytes

namespace Parts

def text (p : Parts) : Bytes :=
  p.priority ++ (p.gap₁ ++ (p.sequence.getD [] ++ (p.gap₂ ++ (p.hostname.getD [] ++ (p.gap₃ ++ (p.appName.getD [] ++
    (p.gap₄ ++ (p.processID.getD [] ++ (p.gap₅ ++ p.message)))))))))

/-- The fields of an entry are the parts, and where there is no part they are as before. -/
structure SetIn (p : Parts) (e e' : Entry) : Prop where
  message : e'.message = p.message
  fields : e'.fields = e.fields ++ p.sequence.toList.map (⟨utf8 "sequence", ·⟩)
  hostname : e'.hostname = p.hostname.getD e.hostname
  appName : e'.appName = p.appName.getD e.appName
  processID : e'.processID = p.processID.getD e.processID

/-- The priority is what the priority is read from. -/
def HasPriority (p : Parts) (data : Bytes) : Prop :=
  match parsePRI data with
  | some (_, rest) => p.priority ++ rest = data
  | none => p.priority = []

end Parts

/-- A host name is looked for behind a timestamp only. -/
theorem yields_host_if (hasTime : Bool) (e : Entry) (h : pos ≤ data.length) :
    Yields (if hasTime then parseHost data e pos else pure (e, pos)) (HostSplit data pos e) :=
  Yields.ite (fun _ => yields_parseHost e h) fun _ => yields_ok ⟨[], none, [], Moves.refl h, rfl⟩

theorem yields_parse (go : GoLib) {input : Input} (e : Entry) (h : input.data ≠ []) :
    Yields (parse go input e) fun r => ∃ e' p, r = .ok e' ∧ Parts.text p = input.data ∧ p.HasPriority input.data ∧
      p.SetIn e e' := by
  unfold parse
  dsimp only
  rw [if_neg h]
  refine (yields_parsePriority input.data e).bind ?_
  rintro ⟨e₁, pos⟩ ⟨hpri, _, _, _, he₁⟩
  refine (yields_skipSpaces hpri.le_length).bind ?_
  rintro pos₁ ⟨gap₁, hgap₁⟩
  refine (yields_parseSequence _ hgap₁.le_length).bind ?_
  rintro ⟨e₂, pos₂⟩ ⟨seq, gap₂, hgap₂, he₂⟩
  refine (yields_parseTime go input _ hgap₂.le_length).bind ?_
  rintro ⟨e₃, pos₃, hasTime⟩ ⟨time, gapTime, hgapTime, he₃⟩
  refine (yields_host_if hasTime _ hgapTime.le_length).bind ?_
  rintro ⟨e₄, pos₄⟩ ⟨gapHost, host, gap₃, hgap₃, he₄⟩
  refine (yields_parseTag _ hgap₃.le_length).bind ?_
  rintro ⟨e₅, pos₅⟩ ⟨app, gap₄, pid, gap₅, hgap₅, he₅⟩
  refine (yields_suffix hgap₅.le_length).bind ?_
  rintro _ rfl
  dsimp only at hpri hgap₁ hgap₂ hgapTime hgap₃ hgap₅ he₁ he₂ he₃ he₄ he₅
  dsimp only
  have hstart : input.data.take pos ++ input.data.drop pos = input.data := List.take_append_drop _ _
  refine yields_ok ⟨_, ⟨input.data.take pos, gap₁, seq, gap₂ ++ gapTime ++ gapHost, host, gap₃, app, gap₄, pid, gap₅,
    input.data.drop pos₅⟩, rfl, ?_, ?_, rfl, ?_, ?_, ?_, ?_⟩
  · conv_rhs => rw [← hstart, hgap₁.text_eq, hgap₂.text_eq, hgapTime.text_eq, hgap₃.text_eq, hgap₅.text_eq]
    simp [Parts.text]
  · unfold Parts.HasPriority
    split
    · rename_i hsome
      rw [← hpri.of_some hsome]
      exact hstart
    · rename_i hnone
      rw [hpri.of_none hnone]
      rfl
  all_goals subst he₁ he₂ he₃ he₄ he₅; rfl

/-- Every message that is not empty is taken apart into fields that do not overlap. -/
theorem parse_splits (go : GoLib) {input : Input} (e : Entry) (h : input.data ≠ []) :
    ∃ e' p, parse go input e = .ok (.ok e') ∧ Parts.text p = input.data ∧ p.HasPriority input.data ∧ p.SetIn e e' := by
  obtain ⟨_, hparse, e', p, rfl, hp⟩ := yields_parse go e h
  exact ⟨e', p, hparse, hp⟩

theorem parse_splits_cisco :
    ∃ e' p, parse (plainGo 0) ⟨⟨utf8 "<189>42: *Mar  1 18:46:11: sw1 sshd[7]: up", false⟩, 0, none⟩ {} = .ok (.ok e') ∧
      Parts.text p = utf8 "<189>42: *Mar  1 18:46:11: sw1 sshd[7]: up" ∧
      p.HasPriority (utf8 "<189>42: *Mar  1 18:46:11: sw1 sshd[7]: up") ∧ p.SetIn {} e' :=
  parse_splits (plainGo 0) {} (by decide)

/-- Neither the parsers nor the detection index or slice outside of a message, and they end. -/
theorem parsers_in_bounds (go : GoLib) (input : Input) (e : Entry) :
    (∃ r, parse go input e = .ok r) ∧
      (∃ r, Positional.Rfc5424.parse go.toGoLib input.toInput e = .ok r) ∧
      ∃ format, Positional.detect input.data = .ok format := by
  refine ⟨?_, ⟨_, Positional.Rfc5424.parse_eq _ _ _⟩, ⟨_, Positional.detect_eq _⟩⟩
  by_cases h : input.data = []
  · exact ⟨_, if_pos h⟩
  · obtain ⟨r, hparse, -⟩ := yields_parse go e h
    exact ⟨r, hparse⟩

/-! ## Messages that are a timestamp -/

/-- A message that starts with a letter has no priority and no sequence number. -/
theorem parse_letter {c : UInt8} (hc : 65 ≤ c) {rest : Bytes} (hdata : data = c :: rest) (e : Entry) :
    (∃ e₁, parsePriority data e = .ok (e₁, 0)) ∧ skipSpaces data 0 = .ok 0 ∧ parseSequence data e 0 = .ok (e, 0) := by
  subst hdata
  have hne {d : UInt8} (hd : d < 65) : c ≠ d := by
    rintro rfl
    exact absurd hd (UInt8.not_lt.mpr hc)
  have hdigit : isDigit c = false := by
    simp only [isDigit, Bool.and_eq_false_iff, decide_eq_false_iff_not]
    exact .inr fun hle => absurd (UInt8.le_trans hc hle) (by decide)
  refine ⟨⟨{ setPRI e defaultPRI with severitySource := .default }, ?_⟩, ?_, ?_⟩
  · have hpri : parsePRI (c :: rest) = none := by simp [parsePRI, hne (d := 60) (by decide)]
    rw [parsePriority, Positional.parsePRI_eq, hpri]
    rfl
  · simp [skipSpaces, scan_eq, hne (d := 32) (by decide)]
  · simp [parseSequence, digitsEnd, scan_eq, hdigit, andAlso]

/-- A message that is the timestamp of an event and nothing else gives the time of the event,
if it is received less than a week before and less than 358 days after it. -/
theorem parse_bsdText (go : GoLib) {input : Input} (e : Entry) {fill : UInt8} {t : Int} (hfill : fill = 32 ∨ fill = 48)
    (hdata : input.data = bsdText fill t) (hutc : input.location.getD utc = utc)
    (hreceived : input.receivedAt ≠ zeroTime)
    (hwhole : t % Instants.second = 0) (hlow : input.receivedAt - 358 * Instants.day < t)
    (hhigh : t < input.receivedAt + 7 * Instants.day) :
    (parseBSDTimestamp go input.data utc input.receivedAt).run = .ok (some (t, input.data.length)) ∧
      ∃ e', parse go input e = .ok (.ok e') ∧ e'.time = t := by
  obtain ⟨a, b, c, x, y, h₁, h₂, m₁, m₂, s₁, s₂, htext, hletter, -⟩ := bsdText_bytes hfill t
  have htime := parseBSDTimestamp_bsdText hfill go hreceived hwhole hlow hhigh
  rw [← hdata] at htime htext
  have hlength : input.data.length = 15 := by rw [htext]; rfl
  rw [hlength]
  refine ⟨htime, ?_⟩
  obtain ⟨⟨e₁, hpri⟩, hspaces, -⟩ := parse_letter hletter htext e
  obtain ⟨-, -, hseq⟩ := parse_letter hletter htext e₁
  have hstamp : parseTime go input e₁ 0 = .ok ({ e₁ with time := t }, 15, true) := by
    have hindex : index input.data 0 = .ok a := by rw [htext]; rfl
    have hmark : ¬(a = 42 ∨ a = 46) := by
      rintro (rfl | rfl) <;> exact absurd hletter (by decide)
    simp only [parseTime, hlength, Nat.ofNat_pos, if_true, hindex, ok_bind, hmark, if_false,
      suffix_of_le (Nat.zero_le _), List.drop_zero, hutc, htime]
    rfl
  have hrest : Yields (parse go input e) fun r => ∃ e', r = .ok e' ∧ e'.time = t := by
    unfold parse
    dsimp only
    rw [if_neg (by rw [htext]; simp), hpri, ok_bind]
    dsimp only
    rw [hspaces, ok_bind, hseq, ok_bind]
    dsimp only
    rw [hstamp, ok_bind]
    dsimp only
    refine (yields_host_if true _ hlength.ge).bind ?_
    rintro ⟨e₂, pos⟩ ⟨_, _, _, hmoves, he₂⟩
    refine (yields_parseTag _ hmoves.le_length).bind ?_
    rintro ⟨e₃, pos⟩ ⟨_, _, _, _, hmoves, he₃⟩
    refine (yields_suffix hmoves.le_length).bind fun _ _ => yields_ok ⟨_, rfl, ?_⟩
    subst he₂ he₃
    rfl
  obtain ⟨_, hparse, e', rfl, htime'⟩ := hrest
  exact ⟨e', hparse, htime'⟩

theorem parse_bsdText_leap_day :
    (parseBSDTimestamp (plainGo 0) (bsdText 32 951782400000000000) utc 951868800000000000).run =
        .ok (some (951782400000000000, (bsdText 32 951782400000000000).length)) ∧
      ∃ e', parse (plainGo 0) ⟨⟨bsdText 32 951782400000000000, false⟩, 951868800000000000, none⟩ {} = .ok (.ok e') ∧
        e'.time = 951782400000000000 :=
  @parse_bsdText (plainGo 0) ⟨⟨bsdText 32 951782400000000000, false⟩, 951868800000000000, none⟩ {} 32 951782400000000000
    (.inl rfl) rfl rfl (by decide) (by decide) (by decide) (by decide)

/-- A message that is received at the zero time is dated by the clock. -/
theorem received_at_zeroTime :
    zeroTime - 358 * Instants.day < zeroTime + Instants.day ∧ zeroTime + Instants.day < zeroTime + 7 * Instants.day ∧
      (zeroTime + Instants.day) % Instants.second = 0 ∧
      (parseBSDTimestamp (plainGo 1767441600000000000) (bsdText 32 (zeroTime + Instants.day)) utc zeroTime).run =
        .ok (some (1767312000000000000, 15)) := by
  decide +kernel

end Syslogc.Parser.Rfc3164
