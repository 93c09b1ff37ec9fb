-- SUMMARY: RFC 5424 messages as built, and as parsed back.
import Syslogc.Parser.Rfc5424
import Mathlib

/-!
# Printing and parsing

A `Message` is assembled from valid components and `Message.text` is how it is sent. The
parser reads each part back and stops where the part ends; `Message.parse_text` puts the
parts together.
-/

namespace Syslogc.Parser.Rfc5424

open Logentry Decimal

/-! ## Messages -/

/-- A header token: printable characters, and at least one. The token `-` is the nil value. -/
structure Token where
  text : Bytes
  ne_nil : text ≠ []
  printable : ∀ c ∈ text, 33 ≤ c ∧ c ≤ 126

/-- A timestamp; the shortest that RFC 5424 allows has 20 characters. -/
structure Timestamp extends Token where
  long : 20 ≤ text.length

/-- The name of an element or of a parameter. -/
structure SDName where
  text : Bytes
  ne_nil : text ≠ []
  chars : ∀ c ∈ text, isSDNameChar c = true

structure Param where
  name : SDName
  value : Bytes

structure Element where
  id : SDName
  params : List Param
  distinct : (params.map (·.name.text)).Nodup

/-- The encoding of the byte order mark. -/
def byteOrderMark : Bytes := [0xEF, 0xBB, 0xBF]

/-- A text with or without a byte order mark before it. -/
structure Msg where
  bom : Bool
  body : Bytes
  unmarked : bom = false → ¬byteOrderMark <+: body

def Msg.text (msg : Msg) : Bytes := if msg.bom then byteOrderMark ++ msg.body else msg.body

/-- The components of a message. There is no structured data if there are no elements. -/
structure Message where
  pri : Nat
  pri_le : pri ≤ 191
  timestamp : Option Timestamp
  hostname : Token
  appName : Token
  processID : Token
  messageID : Token
  elements : List Element
  msg : Option Msg

/-- A value with the escapes that RFC 5424 requires. -/
def escapeValue (v : Bytes) : Bytes := v.flatMap fun c => if c = 34 || c = 92 || c = 93 then [92, c] else [c]

def Param.text (p : Param) : Bytes := 32 :: p.name.text ++ 61 :: 34 :: escapeValue p.value ++ [34]

def Element.text (el : Element) : Bytes := 91 :: el.id.text ++ el.params.flatMap Param.text ++ [93]

namespace Message

variable (m : Message)

def timestampText : Bytes := (m.timestamp.map (·.text)).getD nilValue

def dataText : Bytes := if m.elements = [] then nilValue else m.elements.flatMap Element.text

def msgText : Bytes :=
  match m.msg with
  | none => []
  | some msg => 32 :: msg.text

/-- The message as it is sent. -/
def text : Bytes :=
  60 :: (Decimal.text m.pri ++ 62 :: 49 :: 32 :: (m.timestampText ++ 32 :: (m.hostname.text ++ 32 :: (m.appName.text ++
    32 :: (m.processID.text ++ 32 :: (m.messageID.text ++ 32 :: (m.dataText ++ m.msgText)))))))

/-- The fields of the structured data, in written order. -/
def fields : List Field :=
  m.elements.flatMap fun el => el.params.map fun p => ⟨fullKey el.id.text p.name.text, p.value⟩

end Message

/-- A token in its place: the nil value leaves what was there. -/
def Token.recovered (t : Token) (old : Bytes) : Bytes := if t.text = nilValue then old else t.text

/-- The entry with what the message says. -/
def Message.entry (go : GoLib) (m : Message) (e : Entry) : Entry :=
  { e with
    facility := ⟨UInt8.ofNat (m.pri / 8)⟩
    severity := ⟨UInt8.ofNat (m.pri % 8)⟩
    severitySource := .fromLog
    time := (m.timestamp.bind fun ts => go.parseTime ts.text).getD e.time
    hostname := m.hostname.recovered e.hostname
    appName := m.appName.recovered e.appName
    processID := m.processID.recovered e.processID
    messageID := m.messageID.recovered e.messageID
    fields := e.fields ++ m.fields
    message := (m.msg.map Msg.body).getD e.message }

/-! ## The header -/

theorem pri_digits {pri : Nat} (h : pri ≤ 191) :
    Decimal.text pri ≠ [] ∧ (Decimal.text pri).length ≤ 3 ∧ digitsValue (Decimal.text pri) = pri := by
  have hall : ∀ pri < 192, Decimal.text pri ≠ [] ∧ (Decimal.text pri).length ≤ 3 ∧
      digitsValue (Decimal.text pri) = pri := by
    decide +kernel
  exact hall pri (by omega)

theorem parsePRI_text {pri : Nat} (h : pri ≤ 191) (rest : Bytes) :
    parsePRI (60 :: (Decimal.text pri ++ 62 :: rest)) = some (pri, rest) := by
  obtain ⟨hne, hlength, hvalue⟩ := pri_digits h
  have hdigits : ∀ c ∈ Decimal.text pri, isDigit c = true := fun c hc => isDigit_of_mem_text hc
  generalize Decimal.text pri = ds at *
  have htake : ((ds ++ 62 :: rest).take 4).takeWhile isDigit = ds := by
    obtain ⟨k, hk⟩ : ∃ k, 4 - ds.length = k + 1 := ⟨3 - ds.length, by omega⟩
    rw [List.take_append, List.take_of_length_le (by omega), hk, List.take_succ_cons]
    exact (Bytes.takeWhile_stop hdigits (by decide) _).1
  have hpos := List.length_pos_iff.mpr hne
  have hlong : 2 ≤ ds.length + (rest.length + 1) := by omega
  simp only [parsePRI, htake, List.drop_left]
  simp [hlong, hne, hvalue, not_lt.mpr hlength, not_lt.mpr h]

theorem parseVersion_text (rest : Bytes) : parseVersion (49 :: 32 :: rest) = .ok ([49], rest) := by
  simp [parseVersion, isDigit]

theorem token_text {t : Bytes} (hne : t ≠ []) (hspace : 32 ∉ t) (rest : Bytes) :
    token (t ++ 32 :: rest) = some (t, rest) := by
  simp [token, Bytes.cut_append hspace, hne]

theorem Token.no_space (t : Token) : 32 ∉ t.text := fun h => absurd (t.printable 32 h).1 (by decide)

theorem Token.token_eq (t : Token) (rest : Bytes) : token (t.text ++ 32 :: rest) = some (t.text, rest) :=
  token_text t.ne_nil t.no_space rest

theorem Message.token_timestamp (m : Message) (rest : Bytes) :
    token (m.timestampText ++ 32 :: rest) = some (m.timestampText, rest) := by
  unfold Message.timestampText
  cases m.timestamp with
  | none => exact token_text (by decide) (by decide) rest
  | some ts => exact ts.token_eq rest

theorem Message.tokens_eq (m : Message) (rest : Bytes) :
    tokens 5 (m.timestampText ++ 32 :: (m.hostname.text ++ 32 :: (m.appName.text ++ 32 :: (m.processID.text ++
      32 :: (m.messageID.text ++ 32 :: rest))))) =
      ([m.timestampText, m.hostname.text, m.appName.text, m.processID.text, m.messageID.text], rest) := by
  simp only [tokens, m.token_timestamp, Token.token_eq]

theorem parseTimestamp_eq {go : GoLib} {ts : Bytes} (hlong : 20 ≤ ts.length) {t : Int} (h : go.parseTime ts = some t) :
    parseTimestamp go ts = some t := by
  simp [parseTimestamp, h, not_lt.mpr hlong]

/-- What the header leaves in the entry. -/
theorem Message.applyHeader_eq {go : GoLib} (m : Message)
    (htime : ∀ ts, m.timestamp = some ts → ∃ t, go.parseTime ts.text = some t) (e : Entry) :
    applyHeader go e [m.timestampText, m.hostname.text, m.appName.text, m.processID.text, m.messageID.text] =
      { e with
        time := (m.timestamp.bind fun ts => go.parseTime ts.text).getD e.time
        hostname := m.hostname.recovered e.hostname
        appName := m.appName.recovered e.appName
        processID := m.processID.recovered e.processID
        messageID := m.messageID.recovered e.messageID } := by
  have hfirst (e : Entry) : applyToken go e 0 m.timestampText =
      { e with time := (m.timestamp.bind fun ts => go.parseTime ts.text).getD e.time } := by
    unfold Message.timestampText
    cases hts : m.timestamp with
    | none => rfl
    | some ts =>
      obtain ⟨t, ht⟩ := htime ts hts
      have hne : ts.text ≠ nilValue := by
        intro heq
        have hlong := ts.long
        rw [heq] at hlong
        exact absurd hlong (by decide)
      simp [applyToken, hne, parseTimestamp_eq ts.long ht, ht]
  have hhostname (e : Entry) :
      applyToken go e 1 m.hostname.text = { e with hostname := m.hostname.recovered e.hostname } := by
    unfold applyToken Token.recovered
    split <;> rfl
  have happName (e : Entry) :
      applyToken go e 2 m.appName.text = { e with appName := m.appName.recovered e.appName } := by
    unfold applyToken Token.recovered
    split <;> rfl
  have hprocessID (e : Entry) :
      applyToken go e 3 m.processID.text = { e with processID := m.processID.recovered e.processID } := by
    unfold applyToken Token.recovered
    split <;> rfl
  have hmessageID (e : Entry) :
      applyToken go e 4 m.messageID.text = { e with messageID := m.messageID.recovered e.messageID } := by
    unfold applyToken Token.recovered
    split <;> rfl
  simp only [applyHeader, List.zipIdx_cons, List.zipIdx_nil, List.foldl_cons, List.foldl_nil, Nat.zero_add,
    Nat.reduceAdd, hfirst, hhostname, happName, hprocessID, hmessageID]

/-! ## Structured data -/

theorem sdValue_escapeValue (v rest : Bytes) : sdValue (escapeValue v ++ 34 :: rest) = some (v, rest) := by
  induction v with
  | nil =>
    rw [escapeValue, List.flatMap_nil, List.nil_append, sdValue.eq_def]
    rfl
  | cons c v ih =>
    have hcons : escapeValue (c :: v) = (if c = 34 || c = 92 || c = 93 then [92, c] else [c]) ++ escapeValue v := rfl
    rw [hcons, List.append_assoc]
    split
    next hspecial =>
      rw [List.cons_append, List.cons_append, List.nil_append, sdValue.eq_def]
      simp only [if_true, hspecial, ih, Option.map_some]
    next hplain =>
      simp only [Bool.or_eq_true, decide_eq_true_eq, not_or] at hplain
      rw [List.cons_append, List.nil_append, sdValue.eq_def]
      simp only [hplain.1.1, hplain.1.2, if_false, ih, Option.map_some]

theorem addSDParam_new {fields earlier : List Field} {sdID name value : Bytes}
    (hnew : fullKey sdID name ∉ fields.map Field.key) :
    addSDParam (earlier ++ fields) earlier.length sdID name value false =
      earlier ++ (fields ++ [⟨fullKey sdID name, value⟩]) := by
  have hany : (fields.any fun f => f.key = fullKey sdID name || false && f.key = name) = false := by
    simp only [Bool.false_and, Bool.or_false, List.any_eq_false, decide_eq_true_eq]
    intro f hf heq
    exact hnew (heq ▸ List.mem_map_of_mem hf)
  simp only [addSDParam, List.drop_left, hany]
  simp

/-- The field of a parameter. -/
def Param.field (sdID : Bytes) (p : Param) : Field := ⟨fullKey sdID p.name.text, p.value⟩

theorem sdParams_param (length n : Nat) (sdID : Bytes) (elemStart : Nat) (fields : List Field) (p : Param)
    (rest : Bytes) :
    sdParams length false sdID elemStart (n + 1) fields (p.text ++ rest) =
      sdParams length false sdID elemStart n (addSDParam fields elemStart sdID p.name.text p.value false) rest := by
  have htext : p.text ++ rest = 32 :: (p.name.text ++ 61 :: (34 :: (escapeValue p.value ++ 34 :: rest))) := by
    simp [Param.text]
  obtain ⟨htake, hdrop⟩ :=
    Bytes.takeWhile_stop p.name.chars (c := 61) (by decide) (34 :: (escapeValue p.value ++ 34 :: rest))
  rw [htext, sdParams, if_neg (by decide), if_neg (by decide)]
  simp only [htake, hdrop, p.name.ne_nil, if_false, sdValue_escapeValue]

/-- The parameters of an element, after some of them have been read. -/
theorem sdParams_text (length : Nat) (sdID : Bytes) (earlier : List Field) (done todo : List Param)
    (hdistinct : ((done ++ todo).map (·.name.text)).Nodup) {n : Nat} (hn : todo.length ≤ n) (rest : Bytes) :
    sdParams length false sdID earlier.length (n + 1) (earlier ++ done.map (Param.field sdID))
        (todo.flatMap Param.text ++ 93 :: rest) =
      .ok (earlier ++ (done ++ todo).map (Param.field sdID), rest) := by
  induction todo generalizing done n with
  | nil =>
    rw [List.flatMap_nil, List.nil_append, sdParams, if_pos rfl, List.append_nil]
  | cons p todo ih =>
    obtain ⟨k, rfl⟩ : ∃ k, n = k + 1 := ⟨n - 1, by simp at hn; omega⟩
    have hnew : fullKey sdID p.name.text ∉ (done.map (Param.field sdID)).map Field.key := by
      intro hmem
      rw [List.map_map] at hmem
      obtain ⟨q, hq, heq⟩ := List.mem_map.mp hmem
      have hname : q.name.text = p.name.text := fullKey_injective sdID heq
      rw [List.map_append, List.nodup_append'] at hdistinct
      exact hdistinct.2.2 (List.mem_map_of_mem hq) (by rw [hname]; exact List.mem_map_of_mem List.mem_cons_self)
    have hdone : done.map (Param.field sdID) ++ [⟨fullKey sdID p.name.text, p.value⟩] =
        (done ++ [p]).map (Param.field sdID) := by rw [List.map_append]; rfl
    have hrest := ih (done ++ [p]) (by rwa [List.append_assoc]) (n := k) (by simpa using hn)
    rw [List.flatMap_cons, List.append_assoc, sdParams_param, addSDParam_new hnew, hdone, hrest, List.append_assoc]
    rfl

theorem Element.params_head (el : Element) (rest : Bytes) :
    ∃ c after, isSDNameChar c = false ∧ el.params.flatMap Param.text ++ 93 :: rest = c :: after := by
  cases el.params with
  | nil => exact ⟨93, rest, by decide, rfl⟩
  | cons p ps => exact ⟨32, _, by decide, rfl⟩

theorem length_le_flatMap {α : Type} {f : α → Bytes} (hf : ∀ a, f a ≠ []) (as : List α) :
    as.length ≤ (as.flatMap f).length := by
  induction as with
  | nil => exact le_rfl
  | cons a as ih =>
    have hpos := List.length_pos_iff.mpr (hf a)
    rw [List.flatMap_cons, List.length_append, List.length_cons]
    omega

/-- The fields of an element. -/
def Element.fields (el : Element) : List Field := el.params.map (Param.field el.id.text)

theorem sdElements_element (length n : Nat) (fields : List Field) (el : Element) (rest : Bytes) :
    sdElements length false (n + 1) fields (el.text ++ rest) =
      sdElements length false n (fields ++ el.fields) rest := by
  have htext : el.text ++ rest = 91 :: (el.id.text ++ (el.params.flatMap Param.text ++ 93 :: rest)) := by
    simp [Element.text]
  obtain ⟨c, after, hc, hafter⟩ := el.params_head rest
  obtain ⟨htake, hdrop⟩ := Bytes.takeWhile_stop el.id.chars hc after
  have hparams := sdParams_text length el.id.text fields [] el.params el.distinct
    (n := (el.params.flatMap Param.text ++ 93 :: rest).length) (by
      have := length_le_flatMap (f := Param.text) (fun p => by simp [Param.text]) el.params
      rw [List.length_append]
      omega) rest
  rw [List.map_nil, List.append_nil, List.nil_append, hafter] at hparams
  rw [htext, hafter, sdElements, if_neg (by simp)]
  simp only [htake, hdrop, el.id.ne_nil, reduceCtorEq, decide_false, Bool.or_self, Bool.false_eq_true, if_false,
    hparams]
  rfl

/-- The elements, followed by something that is none. -/
theorem sdElements_text (length : Nat) (fields : List Field) (els : List Element) {n : Nat} (hn : els.length ≤ n)
    {rest : Bytes} (hrest : rest.head? ≠ some 91) :
    sdElements length false n fields (els.flatMap Element.text ++ rest) =
      .ok (fields ++ els.flatMap Element.fields, rest) := by
  induction els generalizing fields n with
  | nil =>
    rw [List.flatMap_nil, List.flatMap_nil, List.nil_append, List.append_nil]
    cases n with
    | zero => rfl
    | succ n =>
      cases rest with
      | nil => rfl
      | cons c rest =>
        rw [sdElements, if_pos (by simpa using hrest)]
  | cons el els ih =>
    obtain ⟨k, rfl⟩ : ∃ k, n = k + 1 := ⟨n - 1, by simp at hn; omega⟩
    rw [List.flatMap_cons, List.append_assoc, sdElements_element, ih _ (by simpa using hn), List.flatMap_cons,
      List.append_assoc]

/-! ## Messages -/

namespace Message

variable (m : Message)

theorem trimBOM_text (msg : Msg) : trimBOM msg.text = msg.body := by
  unfold trimBOM Msg.text
  split
  next => rw [byteOrderMark, Bytes.cutPrefix_append, Option.getD_some]
  next hbom =>
    have hnone : Bytes.cutPrefix [0xEF, 0xBB, 0xBF] msg.body = none :=
      if_neg (mt List.isPrefixOf_iff_prefix.mp (msg.unmarked (by simpa using hbom)))
    rw [hnone, Option.getD_none]

theorem parseMessage_text (length : Nat) (e : Entry) :
    parseMessage length e m.msgText = { e with message := (m.msg.map Msg.body).getD e.message } := by
  unfold msgText
  cases m.msg with
  | none => rfl
  | some msg => simp [parseMessage, trimBOM_text]

theorem msgText_head : m.msgText.head? ≠ some 91 := by
  unfold msgText
  cases m.msg with
  | none => simp
  | some msg => simp

theorem fields_eq : m.fields = m.elements.flatMap Element.fields := rfl

theorem parseBody_text (length : Nat) (e : Entry) :
    parseBody length false e (m.dataText ++ m.msgText) =
      { e with fields := e.fields ++ m.fields, message := (m.msg.map Msg.body).getD e.message } := by
  unfold dataText
  rw [fields_eq]
  split
  next hnone =>
    rw [hnone, List.flatMap_nil, List.append_nil]
    exact m.parseMessage_text length e
  next hsome =>
    have hparse : parseSD length false e.fields (m.elements.flatMap Element.text ++ m.msgText) =
        .ok (e.fields ++ m.elements.flatMap Element.fields, m.msgText) := by
      refine sdElements_text length e.fields m.elements ?_ m.msgText_head
      have := length_le_flatMap (f := Element.text) (fun el => by simp [Element.text]) m.elements
      rw [List.length_append]
      omega
    obtain ⟨el, els, hels⟩ := List.exists_cons_of_ne_nil hsome
    have hhead : ∃ after, m.elements.flatMap Element.text ++ m.msgText = 91 :: after := by
      rw [hels]
      exact ⟨_, rfl⟩
    obtain ⟨after, hafter⟩ := hhead
    rw [hafter] at hparse ⊢
    simp only [parseBody, hparse]
    exact m.parseMessage_text length _

/-- For every message that is assembled from valid components, with a timestamp that
`time.Parse` accepts, and every entry: the parser accepts it and puts into the entry what the
message says and nothing else. In particular no parse error is noted. -/
theorem parse_text {go : GoLib} (m : Message)
    (htime : ∀ ts, m.timestamp = some ts → ∃ t, go.parseTime ts.text = some t) (e : Entry) :
    parse go ⟨m.text, false⟩ e = .ok (m.entry go e) := by
  rw [parse]
  simp only [text, parsePRI_text m.pri_le, parseVersion_text, m.tokens_eq, m.applyHeader_eq htime, parseBody_text]
  rfl

end Message

/-- The first example of RFC 5424 with structured data, with another parameter. -/
def sample : Message where
  pri := 165
  pri_le := by decide
  timestamp := some ⟨⟨utf8 "2003-10-11T22:14:15Z", by decide, by decide +kernel⟩, by rfl⟩
  hostname := ⟨utf8 "192.0.2.1", by decide, by decide +kernel⟩
  appName := ⟨utf8 "evntslog", by decide, by decide +kernel⟩
  processID := ⟨nilValue, by decide, by decide +kernel⟩
  messageID := ⟨utf8 "ID47", by decide, by decide +kernel⟩
  elements := [⟨⟨utf8 "exampleSDID@32473", by decide, by decide +kernel⟩,
    [⟨⟨utf8 "iut", by decide, by decide +kernel⟩, utf8 "3"⟩,
      ⟨⟨utf8 "path", by decide, by decide +kernel⟩, utf8 "[c:\\\"x\"]"⟩], by decide⟩]
  msg := some ⟨true, utf8 "An event", by simp⟩

theorem parse_text_sample :
    parse ⟨fun _ => some 1065910455000000000, id⟩ ⟨sample.text, false⟩ {} = .ok
      { time := 1065910455000000000, facility := ⟨20⟩, severity := ⟨5⟩, severitySource := .fromLog,
        hostname := utf8 "192.0.2.1", appName := utf8 "evntslog", messageID := utf8 "ID47", message := utf8 "An event",
        fields := [⟨utf8 "sd.exampleSDID@32473.iut", utf8 "3"⟩,
          ⟨utf8 "sd.exampleSDID@32473.path", utf8 "[c:\\\"x\"]"⟩] } := by
  refine (Message.parse_text sample (fun ts _ => ?_) {}).trans (by rfl)
  exact ⟨_, rfl⟩

end Syslogc.Parser.Rfc5424
