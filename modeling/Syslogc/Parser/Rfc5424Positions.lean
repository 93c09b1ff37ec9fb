-- SUMMARY: The RFC 5424 parser with its positions.
import Syslogc.Parser.Detect
import Syslogc.Parser.StructuredData

/-!
# Positions of the RFC 5424 parser

The source computes positions, indexes and slices the message with them, and appends to the
fields of the entry while it is scanning structured data; on an error the fields are cut
back. All of that is checked here.
-/

namespace Syslogc.Parser.Positional.Rfc5424

open Logentry Decimal Checked Parser.Rfc5424

/-! ## Header -/

/-- The next token, and the position behind the space that ends it. -/
def token (data : Bytes) (pos : Nat) : Checked (Option (Bytes × Nat)) :=
  if pos ≥ data.length then pure none
  else do
    let rest ← suffix data pos
    match indexByte rest 32 with
    | none => pure none
    | some i =>
      if i = 0 then pure none
      else do
        let tok ← slice data pos (pos + i)
        pure (some (tok, pos + i + 1))

/-- The header tokens, at most the given number, and the position behind them. -/
def tokens (data : Bytes) : Nat → Nat → Checked (List Bytes × Nat)
  | 0, pos => pure ([], pos)
  | n + 1, pos => do
    match ← token data pos with
    | none => pure ([], pos)
    | some (tok, next) =>
      let (toks, pos) ← tokens data n next
      pure (tok :: toks, pos)

/-- The version, and the position behind the space after it. -/
def parseVersion (data : Bytes) (pos : Nat) : Checked (Except Bytes (Bytes × Nat)) :=
  if data.length < pos + 2 then pure (.error (utf8 "rfc5424: input is not in this format: missing VERSION"))
  else do
    let c ← index data pos
    if c < 49 || c > 57 then pure (.error (utf8 "rfc5424: input is not in this format: missing VERSION"))
    else do
      let vEnd ← scanTo isDigit data (pos + 3) (pos + 1)
      let space ← if vEnd ≥ data.length then pure false else do
        let c ← index data vEnd
        pure (decide (c = 32))
      if !space then pure (.error (utf8 "rfc5424: input is not in this format: missing SP after VERSION"))
      else do
        let version ← slice data pos vEnd
        if version ≠ [49] then
          pure (.error (utf8 "rfc5424: input is not in this format: unsupported VERSION " ++ version))
        else pure (.ok (version, vEnd + 1))

/-! ## Structured data -/

/-- A value after its opening quote, and the position behind it. The loop holds what has been
written to the builder, where the run of plain bytes starts, and the position. -/
def sdValue (data : Bytes) (pos : Nat) : Checked (Option (Bytes × Nat)) :=
  loop (fun x : Option Bytes × Nat × Nat =>
    let (b, runStart, i) := x
    if i < data.length then do
      let c ← index data i
      if c = 92 then
        if i + 1 < data.length then do
          let e ← index data (i + 1)
          if e = 34 || e = 92 || e = 93 then do
            let run ← slice data runStart i
            pure (.inl (some (b.getD [] ++ run ++ [e]), i + 2, i + 2))
          else pure (.inl (b, runStart, i + 1))
        else pure (.inl (b, runStart, i + 1))
      else if c = 34 then
        match b with
        | none => do
          let value ← slice data pos i
          pure (.inr (some (value, i + 1)))
        | some b => do
          let run ← slice data runStart i
          pure (.inr (some (b ++ run, i + 1)))
      else pure (.inl (b, runStart, i + 1))
    else pure (.inr none)) (data.length + 1) (none, pos, pos)

def writeJSONString (s : Bytes) : Checked Bytes := do
  let b ← fold (fun b c => b ++ jsonByte c) [34] s
  pure (b ++ [34])

def appendJSONArray (existing value : Bytes) : Checked Bytes := do
  let start ←
    if (utf8 "[\"").isPrefixOf existing && (utf8 "\"]").isSuffixOf existing then do
      let n ← pred existing.length
      let values ← slice existing 0 n
      pure (values ++ [44])
    else do
      let value ← writeJSONString existing
      pure (91 :: value ++ [44])
  let value ← writeJSONString value
  pure (start ++ value ++ [93])

/-- Add a parameter to the fields, of which those from `elemStart` on are of its element. -/
def addSDParam (fields : List Field) (elemStart : Nat) (sdID name value : Bytes) (short : Bool) :
    Checked (List Field) := do
  let full := fullKey sdID name
  match ← find (fun f => f.key = full || short && f.key = name) fields elemStart with
  | some i =>
    let f ← index fields i
    let value ← appendJSONArray f.value value
    pure (fields.set i ⟨f.key, value⟩)
  | none => pure (fields ++ [⟨if short && !fields.any (·.key = name) then name else full, value⟩])

/-- The fields of the entry, and the position behind what was read or the error. -/
abbrev SDResult := List Field × Except Bytes Nat

/-- An error: `e.Fields = e.Fields[:start]`. -/
def rollBack (fields : List Field) (start : Nat) (err : Bytes) : Checked SDResult := do
  let fields ← slice fields 0 start
  pure (fields, .error err)

/-- Whether a name is not empty and a quoted value follows it. -/
def opensValue (data : Bytes) (pos nameEnd : Nat) : Checked Bool :=
  if nameEnd = pos || nameEnd + 1 ≥ data.length then pure false
  else do
    let c ← index data nameEnd
    if c ≠ 61 then pure false
    else do
      let c ← index data (nameEnd + 1)
      pure (decide (c = 34))

/-- The parameters of an element, from behind its name on. -/
def sdParams (data : Bytes) (short : Bool) (start : Nat) (sdID : Bytes) (elemStart : Nat) (fields : List Field)
    (pos : Nat) : Checked SDResult :=
  loop (fun x : List Field × Nat =>
    let (fields, pos) := x
    if pos ≥ data.length then .inr <$> rollBack fields start (utf8 "rfc5424: unterminated STRUCTURED-DATA element")
    else do
      let c ← index data pos
      if c = 93 then pure (.inr (fields, .ok (pos + 1)))
      else if c ≠ 32 then .inr <$> rollBack fields start (atOffset "invalid STRUCTURED-DATA" pos)
      else do
        let nameEnd ← scan isSDNameChar data (pos + 1)
        if !(← opensValue data (pos + 1) nameEnd) then
          .inr <$> rollBack fields start (atOffset "invalid SD-PARAM" (pos + 1))
        else do
          let name ← slice data (pos + 1) nameEnd
          match ← sdValue data (nameEnd + 2) with
          | none => .inr <$> rollBack fields start (atOffset "unterminated SD-PARAM value" (nameEnd + 2))
          | some (value, next) =>
            let fields ← addSDParam fields elemStart sdID name value short
            pure (.inl (fields, next))) (data.length + 1) (fields, pos)

/-- One or more elements. -/
def parseSD (data : Bytes) (pos : Nat) (short : Bool) (fields : List Field) : Checked SDResult :=
  let start := fields.length
  loop (fun x : List Field × Nat =>
    let (fields, pos) := x
    if pos < data.length then do
      let c ← index data pos
      if c ≠ 91 then pure (.inr (fields, .ok pos))
      else do
        let idEnd ← scan isSDNameChar data (pos + 1)
        if idEnd = pos + 1 || idEnd ≥ data.length then
          .inr <$> rollBack fields start (atOffset "invalid SD-ID" (pos + 1))
        else do
          let sdID ← slice data (pos + 1) idEnd
          match ← sdParams data short start sdID fields.length fields idEnd with
          | (fields, .error err) => pure (.inr (fields, .error err))
          | (fields, .ok pos) => pure (.inl (fields, pos))
    else pure (.inr (fields, .ok pos))) (data.length + 1) (fields, pos)

/-! ## Messages -/

/-- What follows the structured data. -/
def parseMessage (data : Bytes) (e : Entry) (pos : Nat) : Checked Entry :=
  if pos < data.length then do
    let c ← index data pos
    if c = 32 then do
      let message ← suffix data (pos + 1)
      pure { e with message := trimBOM message }
    else do
      let message ← suffix data pos
      pure { e with parseError := atOffset "expected SP after STRUCTURED-DATA" pos, message := trimBOM message }
  else pure e

/-- What follows the header. -/
def parseBody (data : Bytes) (short : Bool) (e : Entry) (pos : Nat) : Checked Entry :=
  if pos ≥ data.length then pure { e with parseError := atOffset "missing STRUCTURED-DATA" pos }
  else do
    let c ← index data pos
    if c = 45 then parseMessage data e (pos + 1)
    else if c = 91 then do
      match ← parseSD data pos short e.fields with
      | (fields, .error perr) =>
        let message ← suffix data pos
        pure { e with fields, parseError := perr, message := trimBOM message }
      | (fields, .ok pos) => parseMessage data { e with fields } pos
    else do
      let message ← suffix data pos
      pure { e with message := trimBOM message }

def parse (go : GoLib) (input : Input) (e : Entry) : Checked (Except Bytes Entry) := do
  let data := input.data
  match ← parsePRI data with
  | none => pure (.error (utf8 "rfc5424: input is not in this format: missing or invalid PRI"))
  | some (pri, n) =>
    match ← parseVersion data n with
    | .error err => pure (.error err)
    | .ok (_, pos) =>
      let e := setPRI e pri
      let (toks, pos) ← tokens data 5 pos
      if toks.length < 5 then
        pure (.ok (applyHeader go { e with parseError := atOffset "header truncated" pos } toks))
      else .ok <$> parseBody data input.sdShort (applyHeader go e toks) pos

/-! ## The header is read as before -/

theorem cut_eq (c : UInt8) (s : Bytes) :
    Bytes.cut c s = (indexByte s c).map fun i => (s.take i, s.drop (i + 1)) := by
  induction s with
  | nil => rfl
  | cons b s ih =>
    by_cases hb : b = c
    · simp [Bytes.cut, indexByte, List.findIdx?_cons, hb]
    · rw [Bytes.cut, if_neg hb, ih, indexByte, indexByte, List.findIdx?_cons]
      simp only [hb, decide_false, Bool.false_eq_true, if_false, Option.map_map]
      rfl

theorem token_eq (data : Bytes) (pos : Nat) :
    token data pos = .ok ((Parser.Rfc5424.token (data.drop pos)).map fun p => (p.1, posOf data p.2)) := by
  unfold token Parser.Rfc5424.token
  by_cases hpos : data.length ≤ pos
  · rw [if_pos hpos, List.drop_eq_nil_of_le hpos]
    rfl
  · rw [if_neg hpos, suffix_of_le (by omega), ok_bind, cut_eq]
    cases hindex : indexByte (data.drop pos) 32 with
    | none => rfl
    | some i =>
      have hi := indexByte_lt hindex
      rw [List.length_drop] at hi
      have hslice := slice_add (s := data) (i := pos) (n := i) (by omega)
      have hrest : posOf data ((data.drop pos).drop (i + 1)) = pos + i + 1 := by
        rw [List.drop_drop, posOf_drop (by omega)]
        omega
      simp only [Option.map_some, hslice, ok_bind]
      by_cases hzero : i = 0
      · simp [hzero]
      · have hne : (data.drop pos).take i ≠ [] := by
          rw [ne_eq, List.take_eq_nil_iff, List.drop_eq_nil_iff]
          omega
        simp only [hzero, if_false, hne, hrest, pure_eq, Option.map_some]

variable {rest : Bytes}

/-- A token is taken off the front. -/
theorem token_suffix {tok after : Bytes} (h : Parser.Rfc5424.token rest = some (tok, after)) : after <:+ rest := by
  unfold Parser.Rfc5424.token at h
  split at h
  · cases h
  · rename_i hcut
    split_ifs at h
    cases h
    rw [← Bytes.cut_eq_some hcut]
    exact (List.suffix_cons _ _).trans (List.suffix_append _ _)

theorem tokens_eq (data : Bytes) (n : Nat) {pos : Nat} (hpos : pos ≤ data.length) :
    tokens data n pos = .ok ((Parser.Rfc5424.tokens n (data.drop pos)).1,
      posOf data (Parser.Rfc5424.tokens n (data.drop pos)).2) := by
  induction n generalizing pos with
  | zero => simp [tokens, Parser.Rfc5424.tokens, posOf_drop hpos]
  | succ n ih =>
    rw [tokens, token_eq, ok_bind, Parser.Rfc5424.tokens]
    cases htoken : Parser.Rfc5424.token (data.drop pos) with
    | none => simp [posOf_drop hpos]
    | some p =>
      obtain ⟨tok, after⟩ := p
      have hafter : after <:+ data := (token_suffix htoken).trans (List.drop_suffix _ _)
      simp only [Option.map_some, ih (posOf_le data after), drop_posOf hafter, ok_bind, pure_eq]

theorem tokens_suffix (n : Nat) (rest : Bytes) : (Parser.Rfc5424.tokens n rest).2 <:+ rest := by
  induction n generalizing rest with
  | zero => exact List.suffix_refl rest
  | succ n ih =>
    rw [Parser.Rfc5424.tokens]
    cases htoken : Parser.Rfc5424.token rest with
    | none => exact List.suffix_refl rest
    | some p => exact (ih p.2).trans (token_suffix htoken)

theorem parseVersion_eq (data : Bytes) (pos : Nat) :
    parseVersion data pos =
      .ok ((Parser.Rfc5424.parseVersion (data.drop pos)).map fun p => (p.1, posOf data p.2)) := by
  have hlength : (data.drop pos).length = data.length - pos := List.length_drop
  unfold parseVersion Parser.Rfc5424.parseVersion
  match hrest : data.drop pos with
  | [] =>
    rw [hrest, List.length_nil] at hlength
    rw [if_pos (by omega)]
    rfl
  | [c] =>
    rw [hrest, List.length_singleton] at hlength
    rw [if_pos (by omega)]
    rfl
  | c :: d :: t =>
    rw [hrest, List.length_cons, List.length_cons] at hlength
    rw [if_neg (by omega), index_of_drop hrest, ok_bind]
    simp only [reduceCtorEq, decide_false, Bool.false_or]
    split
    · rfl
    · have hscan : ((data.take (pos + 3)).drop (pos + 1)).takeWhile isDigit = ((d :: t).take 2).takeWhile isDigit := by
        rw [List.drop_take, drop_succ hrest]
        congr 2
        omega
      rw [scanTo_eq, hscan, ok_bind]
      generalize hdigits : ((d :: t).take 2).takeWhile isDigit = digits
      have hopens : c :: digits <+: c :: d :: t := by
        rw [← hdigits, List.prefix_cons_inj]
        exact (List.takeWhile_prefix _).trans (List.take_prefix _ _)
      have hle : digits.length ≤ (d :: t).length := by simpa using hopens.length_le
      simp only [List.length_cons] at hle
      have hdrop : data.drop (pos + 1 + digits.length) = (c :: d :: t).drop (c :: digits).length := by
        rw [← hrest, List.drop_drop, List.length_cons]
        congr 1
        omega
      have hversion : slice data pos (pos + 1 + digits.length) = .ok (c :: digits) := by
        have hadd := slice_add (s := data) (i := pos) (n := (c :: digits).length)
          (by simp only [List.length_cons]; omega)
        rw [hrest, ← List.prefix_iff_eq_take.mp hopens, List.length_cons, Nat.add_comm digits.length,
          ← Nat.add_assoc] at hadd
        exact hadd
      cases hafter : (c :: d :: t).drop (c :: digits).length with
      | nil =>
        rw [hafter, List.drop_eq_nil_iff] at hdrop
        simp [hdrop, Except.map]
      | cons x after =>
        rw [hafter] at hdrop
        have hlt := lt_of_drop hdrop
        have hpos : pos + 1 + digits.length + 1 = posOf data after := by
          have := congrArg List.length hdrop
          rw [List.length_drop, List.length_cons] at this
          rw [posOf]
          omega
        have hge : ¬data.length ≤ pos + 1 + digits.length := by omega
        simp only [ge_iff_le, hge, if_false, index_of_drop hdrop, ok_bind, pure_eq, hversion]
        by_cases hx : x = 32
        · subst hx
          by_cases hone : c :: digits = [49]
          · simp [hone, hpos, Except.map]
          · simp [hone, Except.map]
        · simp [hx, Except.map]

/-! ## So is the structured data -/

/-- What has been read of a value: the builder, and the run of plain bytes after it. -/
def readSoFar (data : Bytes) (x : Option Bytes × Nat × Nat) : Bytes := x.1.getD [] ++ (data.take x.2.2).drop x.2.1

theorem take_drop_succ {data : Bytes} {i j : Nat} {c : UInt8} (h : data.drop i = c :: rest) (hj : j ≤ i) :
    (data.take (i + 1)).drop j = (data.take i).drop j ++ [c] := by
  have hi := lt_of_drop h
  have hget : data[i]? = some c := by rw [← index_eq_ok]; exact index_of_drop h
  rw [List.take_add_one, hget, Option.toList_some, List.drop_append_of_le_length]
  rw [List.length_take]
  omega

theorem sdValue_eq (data : Bytes) {pos : Nat} (hpos : pos ≤ data.length) :
    sdValue data pos = .ok ((Parser.Rfc5424.sdValue (data.drop pos)).map fun p => (p.1, posOf data p.2)) := by
  refine loop_leads (x := (none, pos, pos)) (n := data.length + 1)
    (fun k (b, runStart, i) r => (b = none → runStart = pos) ∧ runStart ≤ i ∧ i ≤ data.length ∧ k = data.length - i ∧
      r = (Parser.Rfc5424.sdValue (data.drop i)).map fun p => (readSoFar data (b, runStart, i) ++ p.1, posOf data p.2))
    ?_ ⟨fun _ => rfl, le_rfl, hpos, rfl, by simp [readSoFar]⟩ (by omega)
  rintro _ ⟨b, runStart, i⟩ _ ⟨hnone, hle, hi, rfl, rfl⟩
  dsimp only at hnone hle hi ⊢
  generalize hdrop : data.drop i = s
  fun_cases Parser.Rfc5424.sdValue s with
  | case1 =>
    left
    rw [if_neg (List.drop_eq_nil_iff.mp hdrop).not_gt]
    rfl
  | case2 =>
    have hlt := lt_of_drop hdrop
    have hlast := drop_succ hdrop
    rw [if_pos hlt, index_of_drop hdrop, ok_bind, if_pos rfl, if_neg (List.drop_eq_nil_iff.mp hlast).not_gt]
    refine .inr ⟨_, rfl, _, Nat.sub_lt_sub_left hlt (Nat.lt_succ_self i), hnone, Nat.le_succ_of_le hle, hlt, rfl, ?_⟩
    rw [hlast]
    rfl
  | case3 e after he =>
    have hsucc := drop_succ hdrop
    have hlt := lt_of_drop hsucc
    rw [if_pos (by omega), index_of_drop hdrop, ok_bind, if_pos rfl, if_pos hlt, index_of_drop hsucc, ok_bind,
      if_pos he, slice_of_le hle hi, ok_bind]
    refine .inr ⟨_, rfl, _, Nat.sub_lt_sub_left (k := i) (by omega) (by simp), by rintro ⟨⟩, le_rfl, hlt, rfl, ?_⟩
    rw [drop_succ hsucc, Option.map_map]
    simp [readSoFar, Function.comp_def]
  | case4 e after he =>
    have hlt := lt_of_drop hdrop
    have hsucc := drop_succ hdrop
    rw [if_pos hlt, index_of_drop hdrop, ok_bind, if_pos rfl, if_pos (lt_of_drop hsucc), index_of_drop hsucc, ok_bind,
      if_neg he]
    refine .inr ⟨_, rfl, _, Nat.sub_lt_sub_left hlt (Nat.lt_succ_self i), hnone, Nat.le_succ_of_le hle, hlt, rfl, ?_⟩
    rw [hsucc, Option.map_map]
    simp [readSoFar, Function.comp_def, take_drop_succ hdrop hle]
  | case5 rest =>
    left
    have hlt := lt_of_drop hdrop
    have hposition := posOf_of_drop hlt (drop_succ hdrop)
    rw [if_pos hlt, index_of_drop hdrop, ok_bind, if_neg (by decide), if_pos rfl]
    cases b with
    | none =>
      obtain rfl := hnone rfl
      simp [readSoFar, slice_of_le hle hi, hposition]
    | some b => simp [readSoFar, slice_of_le hle hi, hposition]
  | case6 c rest hback hquote =>
    have hlt := lt_of_drop hdrop
    rw [if_pos hlt, index_of_drop hdrop, ok_bind, if_neg hback, if_neg hquote]
    refine .inr ⟨_, rfl, _, Nat.sub_lt_sub_left hlt (Nat.lt_succ_self i), hnone, Nat.le_succ_of_le hle, hlt, rfl, ?_⟩
    rw [drop_succ hdrop, Option.map_map]
    simp [readSoFar, Function.comp_def, take_drop_succ hdrop hle]

theorem foldl_append (f : UInt8 → Bytes) (b s : Bytes) : s.foldl (fun b c => b ++ f c) b = b ++ s.flatMap f := by
  induction s generalizing b with
  | nil => simp
  | cons c s ih => rw [List.foldl_cons, ih, List.flatMap_cons, List.append_assoc]

theorem writeJSONString_eq (s : Bytes) : writeJSONString s = .ok (Parser.Rfc5424.writeJSONString s) := by
  rw [writeJSONString, fold_eq, ok_bind, foldl_append]
  rfl

theorem appendJSONArray_eq (existing value : Bytes) :
    appendJSONArray existing value = .ok (Parser.Rfc5424.appendJSONArray existing value) := by
  unfold appendJSONArray Parser.Rfc5424.appendJSONArray
  simp only [writeJSONString_eq, ok_bind, pure_eq]
  split
  · rename_i harray
    have hpos : 0 < existing.length := by
      rw [Bool.and_eq_true, List.isPrefixOf_iff_prefix] at harray
      exact harray.1.length_le.trans_lt' (by decide)
    rw [pred_of_pos hpos, ok_bind, slice_of_le (Nat.zero_le _) (Nat.sub_le _ _), ok_bind, List.drop_zero,
      List.dropLast_eq_take]
  · rfl

variable {fields : List Field}

/-- The first field that passes a test is the one that a value is added to. -/
theorem mergeFirst_eq (p : Field → Bool) (value : Bytes) {i : Nat} {f : Field}
    (hi : fields.findIdx? p = some i) (hf : fields[i]? = some f) :
    mergeFirst p value fields = fields.set i ⟨f.key, Parser.Rfc5424.appendJSONArray f.value value⟩ := by
  induction fields generalizing i with
  | nil => cases hi
  | cons g fields ih =>
    rw [List.findIdx?_cons] at hi
    cases hp : p g with
    | true =>
      simp only [hp, if_true, Option.some.injEq] at hi
      subst hi
      cases hf
      simp [mergeFirst, hp]
    | false =>
      simp only [hp, Bool.false_eq_true, if_false, Option.map_eq_some_iff] at hi
      obtain ⟨j, hj, rfl⟩ := hi
      rw [mergeFirst, hp]
      simp only [Bool.false_eq_true, if_false, List.set_cons_succ, ih hj hf]

theorem addSDParam_eq {elemStart : Nat} (hstart : elemStart ≤ fields.length)
    (sdID name value : Bytes) (short : Bool) :
    addSDParam fields elemStart sdID name value short =
      .ok (Parser.Rfc5424.addSDParam fields elemStart sdID name value short) := by
  unfold addSDParam Parser.Rfc5424.addSDParam
  simp only [find_eq, ok_bind]
  generalize hsame : (fun f : Field => decide (f.key = fullKey sdID name) || short && decide (f.key = name)) = same
  cases hfind : (fields.drop elemStart).findIdx? same with
  | none =>
    have hany : (fields.drop elemStart).any same = false := by
      rw [List.any_eq_false]
      intro f hf
      rw [List.findIdx?_eq_none_iff.mp hfind f hf]
      decide
    simp [hany]
  | some i =>
    obtain ⟨hi, hsamei, -⟩ := List.findIdx?_eq_some_iff_getElem.mp hfind
    have hany : (fields.drop elemStart).any same = true := List.any_eq_true.mpr ⟨_, List.getElem_mem hi, hsamei⟩
    have hget : (fields.drop elemStart)[i]? = some (fields.drop elemStart)[i] := List.getElem?_eq_getElem hi
    have hindex : index fields (elemStart + i) = .ok (fields.drop elemStart)[i] := by
      rw [index_eq_ok, ← hget, List.getElem?_drop]
    simp only [Option.map_some, hindex, ok_bind, appendJSONArray_eq, hany, if_true, mergeFirst_eq same value hfind hget]
    have hset (f : Field) :
        fields.set (elemStart + i) f = fields.take elemStart ++ (fields.drop elemStart).set i f := by
      have happend := List.set_append_right (s := fields.take elemStart) (t := fields.drop elemStart) (elemStart + i) f
        (by rw [List.length_take]; omega)
      rwa [List.take_append_drop, List.length_take, min_eq_left hstart, Nat.add_sub_cancel_left] at happend
    rw [pure_eq, hset]

theorem opensValue_eq {data : Bytes} {pos : Nat} (h : data.drop pos = rest) :
    opensValue data pos (pos + (rest.takeWhile isSDNameChar).length) =
      .ok (decide (rest.takeWhile isSDNameChar ≠ []) && (utf8 "=\"").isPrefixOf (rest.dropWhile isSDNameChar)) := by
  have hafter := drop_scan isSDNameChar data pos
  rw [h] at hafter
  generalize rest.takeWhile isSDNameChar = name at hafter ⊢
  generalize rest.dropWhile isSDNameChar = rest at hafter ⊢
  have hequals : utf8 "=\"" = [61, 34] := rfl
  have hlength := congrArg List.length hafter
  rw [List.length_drop] at hlength
  rw [opensValue, hequals]
  match rest with
  | [] =>
    rw [List.length_nil] at hlength
    rw [if_pos (by simp only [Bool.or_eq_true, decide_eq_true_eq]; omega)]
    simp
  | [c] =>
    rw [List.length_singleton] at hlength
    rw [if_pos (by simp only [Bool.or_eq_true, decide_eq_true_eq]; omega)]
    simp [List.isPrefixOf]
  | c :: d :: after =>
    have hsucc := drop_succ hafter
    have hlt := lt_of_drop hsucc
    by_cases hname : name = []
    · simp [hname]
    · have hpos := List.length_pos_iff.mpr hname
      rw [if_neg (by simp only [Bool.or_eq_true, decide_eq_true_eq]; omega), index_of_drop hafter, index_of_drop hsucc]
      by_cases hc : c = 61
      · simp [List.isPrefixOf, hc, hname, eq_comm, Bool.beq_eq_decide_eq]
      · simp [List.isPrefixOf, hc, Ne.symm hc]

theorem mergeFirst_length (p : Field → Bool) (value : Bytes) (fields : List Field) :
    (mergeFirst p value fields).length = fields.length := by
  induction fields with
  | nil => rfl
  | cons f fields ih =>
    rw [mergeFirst]
    split
    · rfl
    · rw [List.length_cons, ih, List.length_cons]

/-- A parameter leaves the fields in front of its element as they are. -/
theorem addSDParam_keeps {start elemStart : Nat} (hstart : start ≤ elemStart)
    (helem : elemStart ≤ fields.length) (sdID name value : Bytes) (short : Bool) :
    elemStart ≤ (Parser.Rfc5424.addSDParam fields elemStart sdID name value short).length ∧
      (Parser.Rfc5424.addSDParam fields elemStart sdID name value short).take start = fields.take start := by
  unfold Parser.Rfc5424.addSDParam
  dsimp only
  split
  · constructor
    · rw [List.length_append, mergeFirst_length, List.length_take, List.length_drop]
      omega
    · rw [List.take_append_of_le_length (by rw [List.length_take]; omega), List.take_take, min_eq_left hstart]
  · constructor
    · rw [List.length_append]
      omega
    · rw [List.take_append_of_le_length (by omega)]

/-- How the reading of structured data ends: on an error with the fields of before. -/
def outcome (data : Bytes) (kept : List Field) : Except Bytes (List Field × Bytes) → SDResult
  | .error err => (kept, .error err)
  | .ok (fields, after) => (fields, .ok (posOf data after))

theorem rollBack_eq {start : Nat} (h : start ≤ fields.length) (err : Bytes) :
    rollBack fields start err = .ok (fields.take start, .error err) := by
  rw [rollBack, slice_of_le (Nat.zero_le _) h, ok_bind, List.drop_zero]
  rfl

theorem sdParams_eq (data : Bytes) (short : Bool) {start elemStart n : Nat} (sdID : Bytes)
    {pos : Nat} (hstart : start ≤ elemStart) (helem : elemStart ≤ fields.length) (hpos : pos ≤ data.length)
    (hn : data.length - pos < n) :
    sdParams data short start sdID elemStart fields pos =
      .ok (outcome data (fields.take start)
        (Parser.Rfc5424.sdParams data.length short sdID elemStart n fields (data.drop pos))) := by
  refine loop_leads (x := (fields, pos)) (n := data.length + 1)
    (fun k (fs, p) r => elemStart ≤ fs.length ∧ fs.take start = fields.take start ∧ p ≤ data.length ∧
      k = data.length - p ∧ ∃ n, k < n ∧ r = outcome data (fields.take start)
        (Parser.Rfc5424.sdParams data.length short sdID elemStart n fs (data.drop p)))
    ?_ ⟨helem, rfl, hpos, rfl, n, hn, rfl⟩ (by omega)
  rintro _ ⟨fs, p⟩ _ ⟨hlen, hkept, hp, rfl, n, hn, rfl⟩
  dsimp only at hlen hkept hp ⊢
  have hroll (err : Bytes) : rollBack fs start err = .ok (fields.take start, .error err) := by
    rw [rollBack_eq (hstart.trans hlen), hkept]
  generalize hrest : data.drop p = rest
  have hat : data.length - rest.length = p := posOf_of_drop hp hrest
  -- a name and the start of a value, and where the value is
  have hnamed {c : UInt8} {rest after : Bytes} (hrest : data.drop p = c :: rest)
      (hquote : rest.dropWhile isSDNameChar = 61 :: 34 :: after) (hname : rest.takeWhile isSDNameChar ≠ []) :
      p < data.length ∧ data.drop (p + 1) = rest ∧
        opensValue data (p + 1) (p + 1 + (rest.takeWhile isSDNameChar).length) = .ok true ∧
        slice data (p + 1) (p + 1 + (rest.takeWhile isSDNameChar).length) = .ok (rest.takeWhile isSDNameChar) ∧
        data.drop (p + 1 + (rest.takeWhile isSDNameChar).length + 2) = after ∧
        p + 1 + (rest.takeWhile isSDNameChar).length + 2 ≤ data.length := by
    have hlt := lt_of_drop hrest
    have hsucc := drop_succ hrest
    obtain ⟨hslice, hafter, -⟩ := slice_scan isSDNameChar hlt hsucc
    rw [hquote] at hafter
    have hopens : (utf8 "=\"").isPrefixOf (61 :: 34 :: after) = true := rfl
    refine ⟨hlt, hsucc, ?_, hslice, drop_succ (drop_succ hafter), lt_of_drop (drop_succ hafter)⟩
    rw [opensValue_eq hsucc, hquote, hopens, decide_eq_true hname]
    rfl
  fun_cases Parser.Rfc5424.sdParams data.length short sdID elemStart n fs rest with
  | case1 => exact absurd hn (Nat.not_lt_zero _)
  | case2 =>
    left
    rw [if_pos (List.drop_eq_nil_iff.mp hrest), hroll]
    rfl
  | case3 n rest =>
    left
    have hlt := lt_of_drop hrest
    rw [if_neg hlt.not_ge, index_of_drop hrest, ok_bind, if_pos rfl, outcome, posOf_of_drop hlt (drop_succ hrest)]
    rfl
  | case4 n fields c rest hend hspace =>
    left
    rw [if_neg (lt_of_drop hrest).not_ge, index_of_drop hrest, ok_bind, if_neg hend, if_pos hspace, hroll, hat]
    rfl
  | case5 n _ c rest hend hspace name after hquote hname =>
    left
    have hlt := lt_of_drop hrest
    have hsucc := drop_succ hrest
    have hnext : data.length - rest.length = p + 1 := posOf_of_drop hlt hsucc
    have hempty : rest.takeWhile isSDNameChar = [] := hname
    rw [if_neg hlt.not_ge, index_of_drop hrest, ok_bind, if_neg hend, if_neg hspace, scan_eq, ok_bind, hsucc,
      opensValue_eq hsucc, ok_bind, hempty, if_pos (by rfl), hroll, hnext]
    rfl
  | case6 n _ c rest hend hspace name after hquote hname hvalue =>
    left
    obtain ⟨hlt, hsucc, hopens, hslice, hvalueAt, hlt'⟩ := hnamed hrest hquote hname
    have hoffset : data.length - after.length = p + 1 + name.length + 2 := posOf_of_drop hlt' hvalueAt
    rw [if_neg hlt.not_ge, index_of_drop hrest, ok_bind, if_neg hend, if_neg hspace, scan_eq, ok_bind, hsucc, hopens,
      ok_bind, if_neg (by decide), hslice, ok_bind, sdValue_eq data hlt', hvalueAt, hvalue, ok_bind, hoffset]
    simp only [Option.map_none, hroll]
    rfl
  | case7 n _ c rest hend hspace name after hquote hname value after' hvalue =>
    right
    obtain ⟨hlt, hsucc, hopens, hslice, hvalueAt, hlt'⟩ := hnamed hrest hquote hname
    obtain ⟨hsuffix, hlength⟩ := sdValue_suffix hvalue
    have hsuffix : after' <:+ data := hsuffix.trans (hvalueAt ▸ List.drop_suffix _ _)
    have hkeeps := addSDParam_keeps hstart hlen sdID name value short
    have hposition : p + 1 < posOf data after' := by
      have := congrArg List.length hvalueAt
      rw [List.length_drop] at this
      rw [posOf]
      omega
    rw [if_neg hlt.not_ge, index_of_drop hrest, ok_bind, if_neg hend, if_neg hspace, scan_eq, ok_bind, hsucc, hopens,
      ok_bind, if_neg (by decide), hslice, ok_bind, sdValue_eq data hlt', hvalueAt, hvalue, ok_bind]
    simp only [Option.map_some, addSDParam_eq hlen, ok_bind, pure_eq]
    refine ⟨_, rfl, _, ?_, hkeeps.1, hkeeps.2.trans hkept, posOf_le data after', rfl, n, ?_, ?_⟩
    · dsimp only
      omega
    · dsimp only
      omega
    · rw [drop_posOf hsuffix]
  | case8 n _ c rest hend hspace hquote =>
    left
    have hlt := lt_of_drop hrest
    have hsucc := drop_succ hrest
    have hnext : data.length - rest.length = p + 1 := posOf_of_drop hlt hsucc
    have hopens : (utf8 "=\"").isPrefixOf (rest.dropWhile isSDNameChar) = false := by
      rw [Bool.eq_false_iff, ne_eq, List.isPrefixOf_iff_prefix]
      rintro ⟨after, hafter⟩
      exact hquote after hafter.symm
    rw [if_neg hlt.not_ge, index_of_drop hrest, ok_bind, if_neg hend, if_neg hspace, scan_eq, ok_bind, hsucc,
      opensValue_eq hsucc, ok_bind, hopens, Bool.and_false, if_pos (by rfl), hroll, hnext]
    rfl

/-- When a scanned name is empty or ends the message. -/
theorem unnamed_eq {data : Bytes} {pos : Nat} (h : data.drop pos = rest) :
    (decide (pos + (rest.takeWhile isSDNameChar).length = pos) ||
      decide (pos + (rest.takeWhile isSDNameChar).length ≥ data.length)) =
      (decide (rest.takeWhile isSDNameChar = []) || decide (rest.dropWhile isSDNameChar = [])) := by
  have hempty : pos + (rest.takeWhile isSDNameChar).length = pos ↔ rest.takeWhile isSDNameChar = [] := by
    rw [← List.length_eq_zero_iff]
    omega
  have hend : pos + (rest.takeWhile isSDNameChar).length ≥ data.length ↔ rest.dropWhile isSDNameChar = [] := by
    rw [← h, ← drop_scan, List.drop_eq_nil_iff]
  rw [decide_eq_decide.mpr hempty, decide_eq_decide.mpr hend]

theorem parseSD_eq (data : Bytes) (short : Bool) (fields : List Field) {pos : Nat} (hpos : pos ≤ data.length) :
    parseSD data pos short fields =
      .ok (outcome data fields (Parser.Rfc5424.parseSD data.length short fields (data.drop pos))) := by
  rw [parseSD, Parser.Rfc5424.parseSD]
  refine loop_leads (x := (fields, pos)) (n := data.length + 1)
    (fun k (fs, p) r => fields.length ≤ fs.length ∧ fs.take fields.length = fields ∧ p ≤ data.length ∧
      k = data.length - p ∧ ∃ n, k ≤ n ∧
        r = outcome data fields (Parser.Rfc5424.sdElements data.length short n fs (data.drop p)))
    ?_ ⟨le_rfl, List.take_length, hpos, rfl, _, List.length_drop.ge, rfl⟩ (by omega)
  rintro _ ⟨fs, p⟩ _ ⟨hlen, hkept, hp, rfl, n, hn, rfl⟩
  dsimp only at hlen hkept hp ⊢
  have hroll (err : Bytes) : rollBack fs fields.length err = .ok (fields, .error err) := by
    rw [rollBack_eq hlen, hkept]
  generalize hrest : data.drop p = rest
  have hat := posOf_of_drop hp hrest
  have hlength {i : Nat} {after : Bytes} (h : data.drop i = after) : data.length - i < after.length + 1 := by
    rw [← h, List.length_drop]
    exact Nat.lt_succ_self _
  fun_cases Parser.Rfc5424.sdElements data.length short n fs rest with
  | case1 =>
    left
    rw [if_neg (by omega), outcome, hat]
    rfl
  | case2 =>
    left
    rw [if_neg (List.drop_eq_nil_iff.mp hrest).not_gt, outcome, hat]
    rfl
  | case3 n _ c rest hopen =>
    left
    rw [if_pos (lt_of_drop hrest), index_of_drop hrest, ok_bind, if_pos hopen, outcome, hat]
    rfl
  | case4 n _ c rest hopen id after hbad =>
    left
    have hlt := lt_of_drop hrest
    have hsucc := drop_succ hrest
    have hnext : data.length - rest.length = p + 1 := posOf_of_drop hlt hsucc
    rw [if_pos hlt, index_of_drop hrest, ok_bind, if_neg hopen, scan_eq, ok_bind, hsucc, unnamed_eq hsucc, if_pos hbad,
      hroll, hnext]
    rfl
  | case5 n _ c rest hopen id after hbad err hparams =>
    left
    have hlt := lt_of_drop hrest
    have hsucc := drop_succ hrest
    obtain ⟨hslice, hafter, hle⟩ := slice_scan isSDNameChar hlt hsucc
    rw [if_pos hlt, index_of_drop hrest, ok_bind, if_neg hopen, scan_eq, ok_bind, hsucc, unnamed_eq hsucc, if_neg hbad,
      hslice, ok_bind, sdParams_eq data short id hlen le_rfl hle (hlength hafter), hafter, hparams, ok_bind]
    simp only [outcome, hkept]
    rfl
  | case6 n _ c rest hopen id after hbad fs' after' hparams =>
    right
    have hlt := lt_of_drop hrest
    have hsucc := drop_succ hrest
    obtain ⟨hslice, hafter, hle⟩ := slice_scan isSDNameChar hlt hsucc
    have hat : data.drop (p + 1 + id.length) = after := hafter
    obtain ⟨ps, hps, hfs⟩ := readsParams_of_ok hparams
    obtain ⟨hsuffix, hshorter⟩ := hps.suffix
    have hadd : fs' = fs ++ (elementSlots short (fs.map Field.key) ⟨id, ps⟩).map Slot.field :=
      hfs.symm.trans (addElement_eq short fs ⟨id, ps⟩)
    have hsub : after' <:+ data := hsuffix.trans (hat ▸ List.drop_suffix _ _)
    have hposition : p < posOf data after' := by
      have := congrArg List.length hat
      rw [List.length_drop] at this
      rw [posOf]
      omega
    rw [if_pos hlt, index_of_drop hrest, ok_bind, if_neg hopen, scan_eq, ok_bind, hsucc, unnamed_eq hsucc, if_neg hbad,
      hslice, ok_bind, sdParams_eq data short id hlen le_rfl hle (hlength hafter), hafter, hparams, ok_bind]
    refine ⟨_, rfl, _, ?_, ?_, ?_, posOf_le data after', rfl, n, ?_, ?_⟩
    · dsimp only
      omega
    · rw [hadd, List.length_append]
      omega
    · rw [hadd, List.take_append_of_le_length hlen, hkept]
    · dsimp only
      omega
    · rw [drop_posOf hsub]

theorem parseVersion_suffix {version after : Bytes} (h : Parser.Rfc5424.parseVersion rest = .ok (version, after)) :
    after <:+ rest := by
  unfold Parser.Rfc5424.parseVersion at h
  split at h
  · cases h
  · rename_i c t
    split_ifs at h
    dsimp only at h
    split at h
    · rename_i after' hafter
      split_ifs at h
      cases h
      exact (List.suffix_cons 32 _).trans (hafter ▸ List.drop_suffix _ _)
    · cases h

/-! ## And so is the whole message -/

theorem parseMessage_eq (data : Bytes) (e : Entry) (h : rest <:+ data) :
    parseMessage data e (posOf data rest) = .ok (Parser.Rfc5424.parseMessage data.length e rest) := by
  have hdrop := drop_posOf h
  unfold parseMessage Parser.Rfc5424.parseMessage
  cases rest with
  | nil =>
    rw [List.drop_eq_nil_iff] at hdrop
    rw [if_neg (by omega)]
    rfl
  | cons c after =>
    have hlt := lt_of_drop hdrop
    rw [if_pos hlt, index_of_drop hdrop, ok_bind, suffix_of_le hlt, suffix_of_le hlt.le, drop_succ hdrop, hdrop,
      ok_bind, ok_bind]
    by_cases hc : c = 32
    · rw [if_pos hc]
      simp only [hc, if_true, pure_eq]
    · rw [if_neg hc]
      simp only [hc, if_false, pure_eq]
      rfl

theorem parseBody_eq (data : Bytes) (short : Bool) (e : Entry) (h : rest <:+ data) :
    parseBody data short e (posOf data rest) = .ok (Parser.Rfc5424.parseBody data.length short e rest) := by
  have hdrop := drop_posOf h
  unfold parseBody Parser.Rfc5424.parseBody
  cases rest with
  | nil =>
    rw [List.drop_eq_nil_iff] at hdrop
    rw [if_pos hdrop]
    have hend : posOf data [] = data.length := by simp [posOf]
    rw [hend]
    rfl
  | cons c after =>
    have hlt := lt_of_drop hdrop
    have hafter : after <:+ data := (List.suffix_cons _ _).trans h
    have hnext : posOf data (c :: after) + 1 = posOf data after := by
      have hle := h.length_le
      rw [List.length_cons] at hle
      rw [posOf, posOf, List.length_cons]
      omega
    rw [if_neg (by omega), index_of_drop hdrop, ok_bind, suffix_of_le hlt.le, hdrop, ok_bind, hnext]
    by_cases hnil : c = 45
    · rw [if_pos hnil, parseMessage_eq data e hafter]
      simp only [hnil, if_true]
    by_cases hopen : c = 91
    · rw [if_neg hnil, if_pos hopen, parseSD_eq data short e.fields hlt.le, hdrop, ok_bind]
      simp only [if_neg hnil, if_pos hopen]
      cases hsd : Parser.Rfc5424.parseSD data.length short e.fields (c :: after) with
      | error perr => simp only [outcome, ok_bind, pure_eq]
      | ok r =>
        obtain ⟨fields, rest⟩ := r
        have hsuffix : rest <:+ data := (readsElements_of_ok le_rfl hsd).1.trans h
        simp only [outcome, parseMessage_eq data _ hsuffix]
    · rw [if_neg hnil, if_neg hopen]
      simp only [hnil, hopen, if_false, pure_eq]

/-- Positions in place of what is left, and fields that are changed in place and cut back on
an error, make no difference: and no index or slice is out of range. -/
theorem parse_eq (go : GoLib) (input : Input) (e : Entry) :
    parse go input e = .ok (Parser.Rfc5424.parse go input e) := by
  unfold parse Parser.Rfc5424.parse
  simp only [parsePRI_eq, ok_bind]
  cases hpri : Parser.parsePRI input.data with
  | none => rfl
  | some p =>
    obtain ⟨pri, rest⟩ := p
    have hrest : rest <:+ input.data := parsePRI_suffix hpri
    have hpos : input.data.length - rest.length = posOf input.data rest := rfl
    simp only [Option.map_some, hpos, parseVersion_eq input.data, drop_posOf hrest, ok_bind]
    cases hversion : Parser.Rfc5424.parseVersion rest with
    | error err => rfl
    | ok r =>
      obtain ⟨version, rest'⟩ := r
      have hrest' : rest' <:+ input.data := (parseVersion_suffix hversion).trans hrest
      have htokens := (tokens_suffix 5 rest').trans hrest'
      simp only [Except.map, tokens_eq input.data 5 (posOf_le _ _), drop_posOf hrest', ok_bind,
        parseBody_eq input.data input.sdShort _ htokens]
      split <;> rfl

end Syslogc.Parser.Positional.Rfc5424
