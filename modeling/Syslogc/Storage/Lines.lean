-- SUMMARY: What is read back from the lines that entries become.
import Syslogc.Lib.JsonValue
import Syslogc.Lib.Lists
import Syslogc.Storage.Encode

/-!
# Reading the lines back

The strings of an entry are escaped so that they are read back with each stray byte replaced
by U+FFFD. IP addresses are not escaped, and the zone of an IPv6 address can be any string.
-/

namespace Syslogc.VictoriaLogs

open Logentry Utf8 Json
open Bytes (hexDigits)

/-! ## Strings -/

/-- How a byte below 0x80 is written. -/
def byteItem (c : UInt8) : Item :=
  if c = 34 || c = 92 then .escape c
  else if c = 10 then .escape 110
  else if c = 13 then .escape 114
  else if c = 9 then .escape 116
  else if c < 0x20 then .unit [48, 48, hexDigits.getD (c >>> 4).toNat 0, hexDigits.getD (c &&& 0xf).toNat 0]
  else .raw [c]

/-- How a piece of a string is written. -/
def pieceItem : Piece → Item
  | .rune [c] => byteItem c
  | .rune u => .raw u
  | .stray _ => .raw replacement

def stringItems (s : Bytes) : List Item := (pieces s).map pieceItem

/-- A string between its quotes. -/
def stringText (s : Bytes) : Bytes := (stringItems s).flatMap Item.text

theorem byteItem_text {c : UInt8} (h : ¬(0x20 ≤ c ∧ c ≠ 34 ∧ c ≠ 92)) : (byteItem c).text = escapeByte c := by
  unfold byteItem escapeByte
  split
  · rfl
  · split
    · rfl
    · split
      · rfl
      · split
        · rfl
        · rename_i hquote _ _ _
          have hlow : c < 0x20 := by
            simp only [Bool.or_eq_true, decide_eq_true_eq, not_or] at hquote
            by_contra hhigh
            exact h ⟨by simpa using hhigh, hquote⟩
          rw [if_pos hlow]
          rfl

theorem byteItem_raw {c : UInt8} (h : Unescaped c) : byteItem c = .raw [c] := by
  obtain ⟨hspace, hquote, hback⟩ := h
  have hne {k : UInt8} (hk : k < 0x20) : c ≠ k := by
    rintro rfl
    exact absurd hk (by simpa using hspace)
  unfold byteItem
  rw [if_neg (by simpa using ⟨hquote, hback⟩), if_neg (hne (by decide)), if_neg (hne (by decide)),
    if_neg (hne (by decide)), if_neg (by simpa using hspace)]

/-- The bytes that are escaped, one by one. -/
theorem escapes_proper (c : UInt8) (h : ¬Unescaped c) :
    (byteItem c).Proper ∧ ∀ is, render (byteItem c :: is) = c :: render is := by
  have hsmall : c.toNat < 32 ∨ c = 34 ∨ c = 92 := by
    by_contra hno
    simp only [not_or, not_lt] at hno
    exact h ⟨UInt8.le_iff_toNat_le.mpr hno.1, hno.2.1, hno.2.2⟩
  obtain hsmall | rfl | rfl := hsmall
  · obtain ⟨k, hk, rfl⟩ : ∃ k < 32, c = UInt8.ofNat k := ⟨c.toNat, hsmall, by simp⟩
    have hproper : ∀ k < 32, (byteItem (UInt8.ofNat k) = .unit [48, 48,
        hexDigits.getD (UInt8.ofNat k >>> 4).toNat 0, hexDigits.getD (UInt8.ofNat k &&& 0xf).toNat 0] ∧
        ([48, 48, hexDigits.getD (UInt8.ofNat k >>> 4).toNat 0,
          hexDigits.getD (UInt8.ofNat k &&& 0xf).toNat 0].all isHex) = true ∧
        hexValue [48, 48, hexDigits.getD (UInt8.ofNat k >>> 4).toNat 0,
          hexDigits.getD (UInt8.ofNat k &&& 0xf).toNat 0] = k) ∨
        ∃ e ∈ [110, 114, 116], byteItem (UInt8.ofNat k) = .escape e ∧ escaped e = some (UInt8.ofNat k) := by
      decide
    obtain ⟨hitem, hhex, hvalue⟩ | ⟨e, -, hitem, hescaped⟩ := hproper k hk
    · rw [hitem]
      refine ⟨⟨rfl, List.all_eq_true.mp hhex⟩, fun is => ?_⟩
      rw [render_unit (by omega), hvalue]
      simp [encodeRune, show k < 0x80 by omega]
    · rw [hitem]
      refine ⟨by simp [Item.Proper, hescaped], fun is => ?_⟩
      rw [render, hescaped]
      rfl
  · exact ⟨show (escaped 34).isSome = true by decide, fun is => rfl⟩
  · exact ⟨show (escaped 92).isSome = true by decide, fun is => rfl⟩

/-- A character is written as it is, or it is one of the bytes that are escaped. -/
theorem pieceItem_rune {u : Bytes} (hu : IsRune u) :
    (∀ c ∈ u, Unescaped c) ∧ pieceItem (.rune u) = .raw u ∨
      ∃ c, u = [c] ∧ ¬Unescaped c ∧ pieceItem (.rune u) = byteItem c := by
  obtain ⟨c, rfl, -⟩ | hhigh := hu.ascii_or
  · by_cases hc : Unescaped c
    · exact .inl ⟨by simpa using hc, byteItem_raw hc⟩
    · exact .inr ⟨c, rfl, hc, rfl⟩
  · have hall : ∀ c ∈ u, Unescaped c := fun c hc => unescaped_of_high (hhigh c hc)
    refine .inl ⟨hall, ?_⟩
    unfold pieceItem
    split
    next c heq =>
      cases heq
      exact byteItem_raw (hall c List.mem_cons_self)
    next _ heq =>
      cases heq
      rfl
    next heq => cases heq

theorem pieceItem_proper {p : Piece} (hp : ∀ u, p = .rune u → IsRune u) :
    (pieceItem p).Proper ∧ ∀ is, render (pieceItem p :: is) = p.repaired ++ render is := by
  cases p with
  | stray b =>
    have hhigh : ∀ c ∈ replacement, 0x80 ≤ c := by decide +kernel
    exact ⟨⟨isRune_replacement, fun c hc => unescaped_of_high (hhigh c hc)⟩, fun is => rfl⟩
  | rune u =>
    have hu := hp u rfl
    obtain ⟨hall, hitem⟩ | ⟨c, rfl, hc, hitem⟩ := pieceItem_rune hu
    · rw [hitem]
      exact ⟨⟨hu, hall⟩, fun is => rfl⟩
    · rw [hitem]
      exact escapes_proper c hc

theorem stringItems_proper (s : Bytes) : ∀ i ∈ stringItems s, i.Proper := by
  intro i hi
  obtain ⟨p, hp, rfl⟩ := List.mem_map.mp hi
  exact (pieceItem_proper fun u hu => isRune_of_mem_pieces (hu ▸ hp)).1

theorem render_stringItems (s : Bytes) : render (stringItems s) = sanitize s := by
  have hpieces : ∀ u, .rune u ∈ pieces s → IsRune u := fun u hu => isRune_of_mem_pieces hu
  unfold stringItems sanitize
  generalize pieces s = ps at hpieces
  induction ps with
  | nil => rfl
  | cons p ps ih =>
    rw [List.map_cons, List.flatMap_cons, (pieceItem_proper fun u hu => hpieces u (hu ▸ List.mem_cons_self)).2,
      ih fun u hu => hpieces u (List.mem_cons_of_mem p hu)]

/-- An escaped string is read back with its stray bytes replaced. -/
theorem reads_stringText (s : Bytes) : Reads (stringText s) (sanitize s) := by
  rw [← render_stringItems]
  exact reads_items (stringItems_proper s)

theorem stringText_rune {u : Bytes} (hu : IsRune u) (s : Bytes) :
    stringText (u ++ s) = (pieceItem (.rune u)).text ++ stringText s := by
  rw [stringText, stringItems, pieces_rune hu]
  rfl

theorem stringText_stray {b : UInt8} {s : Bytes} (hb : runeLength (b :: s) = none) :
    stringText (b :: s) = replacement ++ stringText s := by
  rw [stringText, stringItems, pieces_stray hb]
  rfl

theorem appendStringLoop_skip (b pending u s : Bytes) :
    appendStringLoop b pending u.length (u ++ s) = appendStringLoop b (pending ++ u) 0 s := by
  induction u generalizing pending with
  | nil => rw [List.append_nil]; rfl
  | cons c u ih =>
    refine (ih (pending ++ [c])).trans ?_
    rw [List.append_assoc]
    rfl

/-- A character that needs no escape is copied with the bytes before it. -/
theorem appendStringLoop_raw {u : Bytes} (hu : IsRune u) (hall : ∀ c ∈ u, Unescaped c) (b pending s : Bytes) :
    appendStringLoop b pending 0 (u ++ s) = appendStringLoop b (pending ++ u) 0 s := by
  obtain ⟨c, rfl, hascii⟩ | hhigh := hu.ascii_or
  · have hc := hall c List.mem_cons_self
    rw [List.cons_append, appendStringLoop, if_pos hascii, if_pos]
    · rfl
    · simpa [Unescaped, quote, backslash, and_assoc] using hc
  · have hlength := hu.append s
    cases u with
    | nil => cases hu
    | cons c u =>
      have hc : ¬c < 0x80 := by simpa using hhigh c List.mem_cons_self
      rw [List.cons_append] at hlength ⊢
      rw [appendStringLoop, if_neg hc, hlength]
      simp only [List.length_cons, Nat.add_sub_cancel]
      rw [appendStringLoop_skip, List.append_assoc]
      rfl

theorem appendStringLoop_eq (b pending s : Bytes) : appendStringLoop b pending 0 s = b ++ pending ++ stringText s := by
  induction s using pieces_induction generalizing b pending with
  | nil => exact (List.append_nil _).symm
  | rune u s hu ih =>
    rw [stringText_rune hu]
    obtain ⟨hall, hitem⟩ | ⟨c, rfl, hc, hitem⟩ := pieceItem_rune hu
    · rw [appendStringLoop_raw hu hall, ih, hitem, Item.text]
      simp only [List.append_assoc]
    · have hascii : c < 0x80 := by
        by_contra hhigh
        exact hc (unescaped_of_high (by simpa using hhigh))
      have hspecial : ¬(0x20 ≤ c ∧ c ≠ 34 ∧ c ≠ 92) := hc
      rw [List.cons_append, appendStringLoop, if_pos hascii, if_neg (by simpa [and_assoc] using hspecial)]
      rw [List.nil_append, ih, hitem, byteItem_text hspecial, List.append_nil]
      simp only [List.append_assoc]
  | stray c s hc ih =>
    have hhigh : ¬c < 0x80 := by
      intro hascii
      rw [runeLength_ascii hascii] at hc
      cases hc
    rw [appendStringLoop, if_neg hhigh, hc, stringText_stray hc]
    simp only [ih, List.append_nil, List.append_assoc]

theorem appendString_eq (b s : Bytes) : appendString b s = b ++ 34 :: stringText s ++ [34] := by
  rw [appendString, appendStringLoop_eq]
  simp

/-! ## What is written of an entry -/

/-- A key and a value that are written, the value escaped or as it is. -/
structure Emitted where
  key : Bytes
  value : Bytes
  asIs : Bool := false
deriving DecidableEq, Repr

namespace Emitted

def member (p : Emitted) : StringMember where
  keyText := stringText p.key
  key := sanitize p.key
  valueText := if p.asIs then p.value else stringText p.value
  value := sanitize p.value

/-- A value that is left out if it is empty. -/
def opt (key value : Bytes) : List Emitted := if value = [] then [] else [⟨key, value, false⟩]

def number (key : Bytes) (v : Int) : Emitted := ⟨key, Decimal.intText v, true⟩

def fields (fs : List Field) : List Emitted := fs.map fun f => ⟨f.key, f.value, false⟩

/-- Pairs after the first, as they are written. -/
def more (ps : List Emitted) : Bytes := StringMember.more (ps.map member)

/-- The time and the message, and when the entry was received. -/
def heading (e : Entry) : List Emitted :=
  [⟨utf8 "_msg", e.message, false⟩, ⟨utf8 "received_at", Calendar.rfc3339Nano e.receivedAt, true⟩] ++
    opt (utf8 "hostname") e.hostname

def addresses (e : Entry) : List Emitted :=
  (if e.sourceIP.isValid then
    ⟨utf8 "source_ip", e.sourceIP.text, true⟩ ::
      if e.sourcePort ≠ 0 then [⟨utf8 "source_port", Decimal.text e.sourcePort.toNat, true⟩] else []
  else []) ++
  if e.peerIP.isValid && e.peerIP ≠ e.sourceIP then [⟨utf8 "peer_ip", e.peerIP.text, true⟩] else []

def priorities (e : Entry) : List Emitted :=
  match e.priority with
  | none => []
  | some pri =>
    opt (utf8 "facility") e.facility.string ++
      [number (utf8 "facility_code") e.facility.code.toNat, number (utf8 "priority") pri]

def names (e : Entry) : List Emitted :=
  number (utf8 "severity_code") e.severity.code.toNat :: (opt (utf8 "protocol") e.protocol.string ++
    opt (utf8 "format") e.format.string ++ opt (utf8 "app_name") e.appName ++ opt (utf8 "process_id") e.processID ++
    opt (utf8 "message_id") e.messageID ++ opt (utf8 "source") e.source ++
    opt (utf8 "source_type") e.sourceType.string ++ opt (utf8 "raw_message") e.raw ++
    opt (utf8 "parse_error") e.parseError)

def notes (e : Entry) : List Emitted :=
  (if e.timeSource ≠ .event then opt (utf8 "time_source") e.timeSource.string else []) ++
    (if e.severitySource = .default then opt (utf8 "severity_source") (utf8 "default") else []) ++
    opt (utf8 "timestamp_raw") e.timestampRaw ++
    (if e.truncated then opt (utf8 "truncated") (utf8 "true") else []) ++
    if e.fieldsDropped > 0 then [number (utf8 "fields_dropped") e.fieldsDropped] else []

def first (e : Entry) : Emitted := ⟨utf8 "_time", Calendar.rfc3339Nano e.time, true⟩

def severityPair (e : Entry) : Emitted := ⟨utf8 "severity", e.severity.string, false⟩

/-- The pairs that are written before the severity, which is always written. -/
def before (e : Entry) : List Emitted := heading e ++ addresses e ++ priorities e

/-- The pairs that are written after the severity. -/
def after (e : Entry) : List Emitted := names e ++ notes e ++ fields e.labels ++ fields e.fields

/-- The keys and values that are written of an entry, in order. -/
def emitted (e : Entry) : List Emitted := first e :: (before e ++ severityPair e :: after e)

/-- The line of an entry. -/
def line (e : Entry) : Bytes :=
  123 :: ((first e).member.text ++ (more (before e ++ severityPair e :: after e) ++ [125]))

end Emitted

open Emitted

section Line

variable (b : Bytes) {key : Bytes} (e : Entry)

theorem more_append (ps qs : List Emitted) : more (ps ++ qs) = more ps ++ more qs := by
  simp [more, StringMember.more]

theorem more_cons (p : Emitted) (ps : List Emitted) : more (p :: ps) = 44 :: (p.member.text ++ more ps) := by
  simp [more, StringMember.more, comma]

theorem more_nil : more [] = [] := rfl

theorem appendKV_eq (key value : Bytes) : appendKV b key value = b ++ more [⟨key, value, false⟩] := by
  rw [appendKV, appendString_eq, appendString_eq, more_cons, more_nil]
  simp [member, StringMember.text, quote, colon]

theorem appendOpt_eq (key value : Bytes) : appendOpt b key value = b ++ more (opt key value) := by
  unfold appendOpt opt
  split
  · rw [more_nil, List.append_nil]
  · exact appendKV_eq b key value

theorem appendInt_eq (key : Bytes) (v : Int) : appendInt b key v = b ++ more [number key v] := by
  rw [appendInt, appendString_eq, more_cons, more_nil]
  simp [member, number, StringMember.text, quote, colon]

/-- A key that is written as it is needs no escape. -/
theorem appendAsIs_eq (hkey : stringText key = key) (text : Bytes) :
    appendAsIs b key text = b ++ more [⟨key, text, true⟩] := by
  rw [appendAsIs, more_cons, more_nil]
  simp [member, hkey, StringMember.text, quote, colon]

theorem appendFields_eq (fs : List Field) : appendFields b fs = b ++ more (fields fs) := by
  unfold appendFields
  induction fs generalizing b with
  | nil => exact (List.append_nil b).symm
  | cons f fs ih =>
    rw [List.foldl_cons, ih, appendKV_eq, List.append_assoc, ← more_append]
    rfl

theorem append_more_ite (c : Prop) [Decidable c] (ps : List Emitted) :
    (if c then b ++ more ps else b) = b ++ more (if c then ps else []) := by
  split
  · rfl
  · rw [more_nil, List.append_nil]

theorem appendAddresses_eq : appendAddresses b e = b ++ more (addresses e) := by
  have hsource : stringText (utf8 "source_ip") = utf8 "source_ip" := by rfl
  have hport : stringText (utf8 "source_port") = utf8 "source_port" := by rfl
  have hpeer : stringText (utf8 "peer_ip") = utf8 "peer_ip" := by rfl
  unfold appendAddresses addresses
  simp only [appendAsIs_eq _ hsource, appendAsIs_eq _ hport, appendAsIs_eq _ hpeer, append_more_ite]
  simp only [List.append_assoc, ← more_append, List.singleton_append, append_more_ite]

theorem appendPriority_eq : appendPriority b e = b ++ more (priorities e) := by
  unfold appendPriority priorities
  cases e.priority with
  | none => exact (List.append_nil b).symm
  | some pri =>
    simp only [appendOpt_eq, appendInt_eq, List.append_assoc, ← more_append, List.singleton_append]

theorem severity_ne_nil : e.severity.string ≠ [] := by
  have hnames : ∀ s ∈ "unknown" :: severityNames, utf8 s ≠ [] := by decide
  apply hnames
  rw [List.getD_eq_getElem?_getD]
  cases h : severityNames[e.severity.code.toNat]? with
  | none => exact List.mem_cons_self
  | some s => exact List.mem_cons_of_mem _ (List.mem_of_getElem? h)

theorem appendNames_eq : appendNames b e = b ++ more (severityPair e :: names e) := by
  have hseverity : opt (utf8 "severity") e.severity.string = [severityPair e] := if_neg (severity_ne_nil e)
  unfold appendNames names
  simp only [appendOpt_eq, appendInt_eq, hseverity, List.append_assoc, ← more_append, List.cons_append, List.nil_append]

theorem appendNotes_eq : appendNotes b e = b ++ more (notes e) := by
  unfold appendNotes notes
  simp only [appendOpt_eq, appendInt_eq, append_more_ite]
  simp only [List.append_assoc, ← more_append]

theorem appendEntry_eq : appendEntry b e = b ++ (line e ++ [10]) := by
  have hfirst : utf8 "\x7b\"_time\":\"" = 123 :: 34 :: (stringText (utf8 "_time") ++ [34, 58, 34]) := by rfl
  have hmessage : utf8 "\",\"_msg\":" = 34 :: 44 :: 34 :: (stringText (utf8 "_msg") ++ [34, 58]) := by rfl
  have hreceived : utf8 ",\"received_at\":\"" = 44 :: 34 :: (stringText (utf8 "received_at") ++ [34, 58, 34]) := by
    rfl
  unfold appendEntry line before after heading
  simp only [appendOpt_eq, appendAddresses_eq, appendPriority_eq, appendNames_eq, appendNotes_eq, appendFields_eq,
    appendString_eq, hfirst, hmessage, hreceived, more_append, more_cons, more_nil]
  simp [first, member, StringMember.text, quote, colon]

end Line

/-! ## The keys of the core fields -/

/-- The keys that are written before the severity. -/
def beforeKeys : List Bytes :=
  ["_msg", "received_at", "hostname", "source_ip", "source_port", "peer_ip", "facility", "facility_code",
    "priority"].map utf8

/-- The keys that are written after the severity, labels and dynamic fields apart. -/
def afterKeys : List Bytes :=
  ["severity_code", "protocol", "format", "app_name", "process_id", "message_id", "source", "source_type",
    "raw_message",
    "parse_error", "time_source", "severity_source", "timestamp_raw", "truncated", "fields_dropped"].map utf8

section Keys

variable (e : Entry)

theorem opt_keys (key value : Bytes) : ((opt key value).map Emitted.key).Sublist [key] := by
  unfold opt
  split
  · exact List.nil_sublist _
  · exact List.Sublist.refl _

theorem ite_keys (c : Prop) [Decidable c] {ps : List Emitted} {keys : List Bytes}
    (h : (ps.map Emitted.key).Sublist keys) :
    ((if c then ps else []).map Emitted.key).Sublist keys := by
  split
  · exact h
  · exact List.nil_sublist _

theorem heading_keys : ((heading e).map Emitted.key).Sublist (["_msg", "received_at", "hostname"].map utf8) := by
  rw [heading, List.map_append]
  exact (List.Sublist.refl [utf8 "_msg", utf8 "received_at"]).append (opt_keys _ _)

theorem addresses_keys :
    ((addresses e).map Emitted.key).Sublist (["source_ip", "source_port", "peer_ip"].map utf8) := by
  have hsource {rest : List Emitted} (h : (rest.map Emitted.key).Sublist [utf8 "source_port"]) :
      ((⟨utf8 "source_ip", e.sourceIP.text, true⟩ :: rest).map Emitted.key).Sublist
        [utf8 "source_ip", utf8 "source_port"] := h.cons_cons _
  rw [addresses, List.map_append]
  exact (ite_keys _ (hsource (ite_keys _ (.refl _)))).append (ite_keys _ (.refl _))

theorem priorities_keys :
    ((priorities e).map Emitted.key).Sublist (["facility", "facility_code", "priority"].map utf8) := by
  unfold priorities
  cases e.priority with
  | none => exact List.nil_sublist _
  | some pri =>
    rw [List.map_append]
    exact (opt_keys (utf8 "facility") _).append (.refl _)

theorem before_keys : ((before e).map Emitted.key).Sublist beforeKeys := by
  rw [before, List.map_append, List.map_append]
  exact ((heading_keys e).append (addresses_keys e)).append (priorities_keys e)

theorem after_keys : ((names e ++ notes e).map Emitted.key).Sublist afterKeys := by
  have hopt {rest keys : List Bytes} (key value : Bytes) (h : rest.Sublist keys) :
      ((opt key value).map Emitted.key ++ rest).Sublist (key :: keys) := (opt_keys key value).append h
  have hite {rest keys : List Bytes} (c : Prop) [Decidable c] (key value : Bytes) (h : rest.Sublist keys) :
      ((if c then opt key value else []).map Emitted.key ++ rest).Sublist (key :: keys) :=
    (ite_keys c (opt_keys key value)).append h
  unfold names notes
  simp only [List.map_append, List.map_cons, List.cons_append, List.append_assoc]
  refine .cons_cons _ ?_
  iterate 9 refine hopt _ _ ?_
  refine hite _ _ _ (hite _ _ _ (hopt _ _ (hite _ _ _ ?_)))
  exact ite_keys _ (.refl _)

end Keys

/-! ## The values that are not escaped -/

theorem plain_of_marks {T : Bytes} {mark : UInt8 → Bool} (hT : ∀ c ∈ T, mark c = true)
    (hmark : ∀ k < 256, mark (UInt8.ofNat k) = true → UInt8.ofNat k < 0x80 ∧ Unescaped (UInt8.ofNat k)) : Plain T := by
  refine plain_of_ascii fun c hc => ?_
  have hk := hmark c.toNat c.toNat_lt
  rw [UInt8.ofNat_toNat] at hk
  exact hk (hT c hc)

theorem plain_rfc3339Nano (t : Int) : Plain (Calendar.rfc3339Nano t) :=
  plain_of_marks (fun _ hc => Calendar.isMark_of_mem hc) (by decide +kernel)

theorem plain_decimal (n : Nat) : Plain (Decimal.text n) :=
  plain_of_marks (fun _ hc => Decimal.isDigit_of_mem_text hc) (by decide +kernel)

theorem plain_intText (i : Int) : Plain (Decimal.intText i) := by
  unfold Decimal.intText
  split
  · obtain ⟨hvalid, hunescaped⟩ := plain_decimal i.natAbs
    exact ⟨(valid_ascii (by decide) _).trans hvalid, List.forall_mem_cons.mpr ⟨by decide, hunescaped⟩⟩
  · exact plain_decimal _

/-- The text of an address can stand as it is if and only if its zone can. -/
theorem plain_address_iff (a : Netip.Addr) : Plain a.text ↔ Plain a.zone := by
  have hbare : Plain a.bare := plain_of_marks (fun _ hc => Netip.Addr.isMark_of_mem_bare hc) (by decide +kernel)
  have hpercent : Unescaped 37 := by decide
  unfold Netip.Addr.text
  by_cases hzone : a.zone = []
  · rw [if_pos hzone, hzone, List.append_nil]
    exact iff_of_true hbare ⟨rfl, by simp⟩
  · rw [if_neg hzone]
    constructor
    · rintro ⟨hvalid, hunescaped⟩
      rw [valid_append_ascii (by decide), Bool.and_eq_true] at hvalid
      exact ⟨hvalid.2, fun c hc => hunescaped c (List.mem_append_right _ (List.mem_cons_of_mem _ hc))⟩
    · rintro ⟨hvalid, hunescaped⟩
      refine ⟨by rw [valid_append_ascii (by decide), hbare.valid, hvalid]; rfl, fun c hc => ?_⟩
      obtain hc | hc := List.mem_append.mp hc
      · exact hbare.unescaped c hc
      · obtain rfl | hc := List.mem_cons.mp hc
        · exact hpercent
        · exact hunescaped c hc

/-- The zones of the addresses of an entry need no escape. -/
structure PlainZones (e : Entry) : Prop where
  source : Plain e.sourceIP.zone
  peer : Plain e.peerIP.zone

/-- A value that is not escaped needs no escape. -/
def Emitted.Safe (p : Emitted) : Prop := p.asIs = true → Plain p.value

theorem safe_opt (key value : Bytes) : ∀ p ∈ opt key value, p.Safe := by
  intro p hp has
  unfold opt at hp
  split at hp
  · cases hp
  · rw [List.mem_singleton.mp hp] at has
    cases has

theorem safe_number (key : Bytes) (v : Int) : (number key v).Safe := fun _ => plain_intText v

theorem safe_fields (fs : List Field) : ∀ p ∈ fields fs, p.Safe := by
  intro p hp has
  obtain ⟨f, -, rfl⟩ := List.mem_map.mp hp
  cases has

theorem safe_ite {c : Prop} [Decidable c] {ps : List Emitted} (h : ∀ p ∈ ps, p.Safe) :
    ∀ p ∈ (if c then ps else []), p.Safe := by
  split
  · exact h
  · simp

theorem safe_addresses_iff (e : Entry) : (∀ p ∈ addresses e, p.Safe) ↔ PlainZones e := by
  have hinvalid {a : Netip.Addr} (h : a.isValid = false) : Plain a.zone := by
    cases a with
    | invalid => exact ⟨rfl, by rintro c ⟨⟩⟩
    | v4 a b c d => cases h
    | v6 groups zone => cases h
  have hsafe (key : Bytes) (a : Netip.Addr) : Emitted.Safe ⟨key, a.text, true⟩ ↔ Plain a.zone := by
    rw [← plain_address_iff]
    exact ⟨fun h => h rfl, fun h _ => h⟩
  have hport : ∀ p ∈ (if e.sourcePort ≠ 0 then
      [(⟨utf8 "source_port", Decimal.text e.sourcePort.toNat, true⟩ : Emitted)] else []), p.Safe :=
    safe_ite (List.forall_mem_singleton.mpr fun _ => plain_decimal _)
  rw [addresses, List.forall_mem_append]
  constructor
  · rintro ⟨hsource, hpeer⟩
    have hzone : Plain e.sourceIP.zone := by
      by_cases hvalid : e.sourceIP.isValid = true
      · rw [if_pos hvalid] at hsource
        exact (hsafe _ _).mp (hsource _ List.mem_cons_self)
      · exact hinvalid (by simpa using hvalid)
    refine ⟨hzone, ?_⟩
    by_cases hvalid : e.peerIP.isValid = true
    · by_cases heq : e.peerIP = e.sourceIP
      · rwa [heq]
      · rw [if_pos (by simpa using ⟨hvalid, heq⟩)] at hpeer
        exact (hsafe _ _).mp (hpeer _ List.mem_cons_self)
    · exact hinvalid (by simpa using hvalid)
  · rintro ⟨hsource, hpeer⟩
    refine ⟨safe_ite (List.forall_mem_cons.mpr ⟨(hsafe _ _).mpr hsource, hport⟩), safe_ite ?_⟩
    simpa using (hsafe _ _).mpr hpeer

theorem safe_heading (e : Entry) : ∀ p ∈ heading e, p.Safe := by
  simp only [heading, List.forall_mem_append, List.forall_mem_cons]
  exact ⟨⟨by rintro ⟨⟩, fun _ => plain_rfc3339Nano _, by simp⟩, safe_opt _ _⟩

theorem safe_priorities (e : Entry) : ∀ p ∈ priorities e, p.Safe := by
  unfold priorities
  cases e.priority with
  | none => simp
  | some pri =>
    simp only [List.forall_mem_append, List.forall_mem_cons]
    exact ⟨safe_opt _ _, safe_number _ _, safe_number _ _, by simp⟩

theorem safe_names (e : Entry) : ∀ p ∈ names e, p.Safe := by
  simp only [names, List.forall_mem_append, List.forall_mem_cons, and_assoc]
  exact ⟨safe_number _ _, safe_opt _ _, safe_opt _ _, safe_opt _ _, safe_opt _ _, safe_opt _ _, safe_opt _ _,
    safe_opt _ _, safe_opt _ _, safe_opt _ _⟩

theorem safe_notes (e : Entry) : ∀ p ∈ notes e, p.Safe := by
  simp only [notes, List.forall_mem_append, and_assoc]
  exact ⟨safe_ite (safe_opt _ _), safe_ite (safe_opt _ _), safe_opt _ _, safe_ite (safe_opt _ _),
    safe_ite (List.forall_mem_singleton.mpr (safe_number _ _))⟩

theorem safe_severity (e : Entry) : (severityPair e).Safe := by rintro ⟨⟩

theorem safe_after (e : Entry) : ∀ p ∈ after e, p.Safe := by
  simp only [after, List.forall_mem_append]
  exact ⟨⟨⟨safe_names e, safe_notes e⟩, safe_fields _⟩, safe_fields _⟩

theorem safe_emitted_iff (e : Entry) : (∀ p ∈ emitted e, p.Safe) ↔ PlainZones e := by
  have hfirst : (first e).Safe := fun _ => plain_rfc3339Nano _
  rw [← safe_addresses_iff]
  simp only [emitted, before, List.forall_mem_cons, List.forall_mem_append]
  exact ⟨fun h => h.2.1.1.2,
    fun h => ⟨hfirst, ⟨⟨safe_heading e, h⟩, safe_priorities e⟩, safe_severity e, safe_after e⟩⟩

/-! ## Lines -/

theorem member_good_iff (p : Emitted) : p.member.Good ↔ p.Safe := by
  obtain ⟨key, value, asIs⟩ := p
  cases asIs with
  | false => exact iff_of_true (reads_stringText value) (by rintro ⟨⟩)
  | true => exact reads_sanitize_iff.trans ⟨fun h _ => h, fun h => h rfl⟩

theorem member_good_or (p : Emitted) : p.member.Good ∨ p.member.value = sanitize p.member.valueText := by
  obtain ⟨key, value, asIs⟩ := p
  cases asIs with
  | false => exact .inl (reads_stringText value)
  | true => exact .inr rfl

/-- The object that is to be read from a line: the keys and values that were written, with
each stray byte replaced by U+FFFD. -/
def readBack (e : Entry) : Value := .object ((emitted e).map fun p => (sanitize p.key, .string (sanitize p.value)))

theorem separate_key {key : Bytes} (h : key ∈ utf8 "severity" :: beforeKeys) :
    ∃ c rest, stringText key = c :: rest ∧ StringMember.Separate c := by
  have hall : ∀ key ∈ utf8 "severity" :: beforeKeys,
      ((stringText key).head?.any fun c => !isSpace c && c ≠ comma && c ≠ 125) = true := by decide
  have hkey := hall key h
  cases htext : stringText key with
  | nil => simp [htext] at hkey
  | cons c rest =>
    simp only [htext, List.head?_cons, Option.any_some, Bool.and_eq_true, Bool.not_eq_true', decide_eq_true_eq] at hkey
    exact ⟨c, rest, rfl, hkey.1.1, hkey.1.2, hkey.2⟩

theorem followed_emitted (e : Entry) :
    StringMember.Followed (first e).member ((before e ++ severityPair e :: after e).map member) := by
  rw [List.map_append, List.map_cons]
  apply StringMember.followed_of_good
  · rw [← List.map_cons]
    intro m hm
    obtain ⟨p, -, rfl⟩ := List.mem_map.mp hm
    exact member_good_or p
  · intro m hm
    obtain hm | hm := List.mem_append.mp hm
    · obtain ⟨p, hp, rfl⟩ := List.mem_map.mp hm
      exact separate_key (List.mem_cons_of_mem _ ((before_keys e).subset (List.mem_map_of_mem hp)))
    · rw [List.mem_singleton.mp hm]
      exact separate_key List.mem_cons_self
  · rw [← List.map_cons]
    intro m hm
    obtain ⟨p, hp, rfl⟩ := List.mem_map.mp hm
    exact (member_good_iff p).mpr (List.forall_mem_cons.mpr ⟨safe_severity e, safe_after e⟩ p hp)

/-- A line is read back as what was written if and only if the zones need no escape. -/
theorem parse_line_iff (e : Entry) : parse (line e) = some (readBack e) ↔ PlainZones e := by
  have hkeys : ∀ m ∈ (emitted e).map member, Reads m.keyText m.key := by
    intro m hm
    obtain ⟨p, -, rfl⟩ := List.mem_map.mp hm
    exact reads_stringText p.key
  have hparse := StringMember.parse_eq_iff hkeys (followed_emitted e)
  have hvalue : readBack e = .object (((emitted e).map member).map StringMember.pair) := by
    rw [readBack, List.map_map]
    rfl
  rw [hvalue, ← safe_emitted_iff]
  refine hparse.trans ?_
  rw [← List.map_cons]
  simp only [List.forall_mem_map, member_good_iff]
  rfl

theorem no_newline_of_visible {T : Bytes} (h : ∀ c ∈ T, 0x20 ≤ c) : 10 ∉ T := fun hmem => absurd (h 10 hmem) (by decide)

theorem visible_stringText (s : Bytes) : ∀ c ∈ stringText s, 0x20 ≤ c := by
  intro c hc
  obtain ⟨i, hi, hc⟩ := List.mem_flatMap.mp hc
  exact (stringItems_proper s i hi).no_control c hc

theorem visible_text {p : Emitted} (h : p.Safe) : ∀ c ∈ p.member.text, 0x20 ≤ c := by
  have hvalue : ∀ c ∈ p.member.valueText, 0x20 ≤ c := by
    obtain ⟨key, value, asIs⟩ := p
    cases asIs with
    | false => exact visible_stringText value
    | true => exact fun c hc => ((h rfl).unescaped c hc).1
  intro c hc
  simp only [StringMember.text, List.mem_append, List.mem_cons, List.not_mem_nil, or_false] at hc
  obtain ((rfl | hc) | rfl | rfl | rfl | hc) | rfl := hc
  all_goals first | decide | exact visible_stringText _ c hc | exact hvalue c hc

theorem no_newline_line {e : Entry} (h : PlainZones e) : 10 ∉ line e := by
  have hsafe := (safe_emitted_iff e).mpr h
  rw [emitted, List.forall_mem_cons] at hsafe
  apply no_newline_of_visible
  intro c hc
  simp only [line, List.mem_cons, List.mem_append, List.not_mem_nil, or_false] at hc
  obtain rfl | hc | hc | rfl := hc
  · decide
  · exact visible_text hsafe.1 c hc
  · obtain ⟨m, hm, hc⟩ := List.mem_flatMap.mp hc
    obtain ⟨p, hp, rfl⟩ := List.mem_map.mp hm
    obtain rfl | hc := List.mem_cons.mp hc
    · decide
    · exact visible_text (hsafe.2 p hp) c hc
  · decide

/-! ## Batches -/

theorem encodeBatch_eq (dst : Bytes) (es : List Entry) :
    encodeBatch dst es = dst ++ (es.map line).flatMap (· ++ [10]) := by
  unfold encodeBatch
  induction es generalizing dst with
  | nil => exact (List.append_nil dst).symm
  | cons e es ih =>
    rw [List.foldl_cons, ih, appendEntry_eq, List.append_assoc]
    rfl

/-- Lines without a newline are told apart by the newlines, if there are no more of them. -/
theorem lines_unique {lines written : List Bytes} (hlines : ∀ l ∈ lines, 10 ∉ l)
    (h : lines.flatMap (· ++ [10]) = written.flatMap (· ++ [10])) (hlength : lines.length = written.length) :
    lines = written := by
  have hcount (ls : List Bytes) :
      (ls.flatMap (· ++ [10])).count (10 : UInt8) = ls.length + (ls.flatMap id).count 10 := by
    induction ls with
    | nil => rfl
    | cons l ls ih =>
      simp only [List.flatMap_cons, List.count_append, ih, List.count_singleton, List.length_cons, id_eq]
      simp
      omega
  have hwritten : ∀ l ∈ written, 10 ∉ l := by
    have hzero : (lines.flatMap id).count (10 : UInt8) = 0 := by
      rw [List.count_eq_zero]
      intro hmem
      obtain ⟨l, hl, hmem⟩ := List.mem_flatMap.mp hmem
      exact hlines l hl hmem
    have hsum := congrArg (List.count 10) h
    rw [hcount, hcount] at hsum
    have hnone : (written.flatMap id).count (10 : UInt8) = 0 := by omega
    intro l hl hmem
    exact List.count_eq_zero.mp hnone (List.mem_flatMap.mpr ⟨l, hl, hmem⟩)
  clear hcount
  induction lines generalizing written with
  | nil => exact (List.length_eq_zero_iff.mp hlength.symm).symm
  | cons l lines ih =>
    cases written with
    | nil => cases hlength
    | cons w written =>
      rw [List.forall_mem_cons] at hlines hwritten
      simp only [List.flatMap_cons, List.append_assoc, List.singleton_append] at h
      have hcut := congrArg (Bytes.cut 10) h
      rw [Bytes.cut_append hlines.1, Bytes.cut_append hwritten.1] at hcut
      obtain ⟨rfl, hrest⟩ := Prod.mk.inj (Option.some_injective _ hcut)
      rw [ih hlines.2 hrest (by simpa using hlength) hwritten.2]

/-- For every batch: what is written is one line for each entry, in order, and each line has
no newline in it and is read back as the object of the keys and values of its entry, if and
only if no zone of an address of the batch needs an escape. -/
theorem encodeBatch_lines_iff (dst : Bytes) (es : List Entry) :
    (∃ lines : List Bytes, encodeBatch dst es = dst ++ lines.flatMap (· ++ [10]) ∧
      List.Forall₂ (fun l e => 10 ∉ l ∧ parse l = some (readBack e)) lines es) ↔ ∀ e ∈ es, PlainZones e := by
  rw [encodeBatch_eq]
  constructor
  · rintro ⟨lines, htext, hall⟩ e he
    have hno : ∀ l ∈ lines, 10 ∉ l := by
      intro l hl
      obtain ⟨e', -, hl', -⟩ := Lists.forall₂_exists_right hall hl
      exact hl'
    have heq := lines_unique hno (List.append_cancel_left htext).symm (by simpa using hall.length_eq)
    subst heq
    rw [List.forall₂_map_left_iff, List.forall₂_same] at hall
    exact (parse_line_iff e).mp (hall e he).2
  · intro hplain
    refine ⟨es.map line, rfl, ?_⟩
    rw [List.forall₂_map_left_iff, List.forall₂_same]
    exact fun e he => ⟨no_newline_line (hplain e he), (parse_line_iff e).mpr (hplain e he)⟩

/-- An entry whose source address has the given zone. -/
def zoned (zone : Bytes) : Entry :=
  { time := 0, receivedAt := 0, message := utf8 "sign-in", sourceIP := .v6 #v[0xfe80, 0, 0, 0, 0, 0, 0, 1] zone }

/-- Whether a text is an object that has the key with the value. -/
def hasPair (text key value : Bytes) : Bool :=
  match parse text with
  | some (.object members) =>
    members.any fun m => m.1 = key && match m.2 with
      | .string s => s = value
      | _ => false
  | _ => false

/-- A zone with a quote in it ends its string, and what follows in the zone is read as other
fields of the entry. -/
theorem zone_forges_field :
    encodeBatch [] [zoned (utf8 "x\",\"app_name\":\"sshd")] = line (zoned (utf8 "x\",\"app_name\":\"sshd")) ++ [10] ∧
      (zoned (utf8 "x\",\"app_name\":\"sshd")).appName = [] ∧
      hasPair (line (zoned (utf8 "x\",\"app_name\":\"sshd"))) (utf8 "app_name") (utf8 "sshd") = true ∧
      parse (line (zoned (utf8 "x\",\"app_name\":\"sshd"))) ≠
        some (readBack (zoned (utf8 "x\",\"app_name\":\"sshd"))) := by
  refine ⟨?_, rfl, by decide +kernel, fun hparse => ?_⟩
  · rw [encodeBatch_eq]
    simp
  · have hplain := ((parse_line_iff _).mp hparse).source
    exact absurd hplain (by decide)

/-- An entry from a link-local address, with a quote and a newline in its message. -/
theorem encodeBatch_lines_iff_linkLocal :
    ∃ lines : List Bytes, encodeBatch [] [{ zoned (utf8 "eth0") with message := utf8 "a \"b\"\nc" }] =
        [] ++ lines.flatMap (· ++ [10]) ∧
      List.Forall₂ (fun l e => 10 ∉ l ∧ parse l = some (readBack e)) lines
        [{ zoned (utf8 "eth0") with message := utf8 "a \"b\"\nc" }] := by
  refine (encodeBatch_lines_iff [] _).mpr ?_
  rw [List.forall_mem_singleton]
  exact ⟨by decide +kernel, by decide +kernel⟩

end Syslogc.VictoriaLogs
