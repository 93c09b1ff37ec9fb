-- SUMMARY: When the keys of a stored row are pairwise distinct.
import Syslogc.Normalization.Normalizer
import Syslogc.Storage.Lines

/-!
# Stored keys

The name that a dynamic field is stored under is never that of a core field or a label. But
two dynamic fields can get one name: moving a reserved key under `fields.`, cutting a long
key and repairing invalid UTF-8 each map different keys to one.
-/

namespace Syslogc.Normalization

open Logentry VictoriaLogs VictoriaLogs.Emitted

/-! ## Names of dynamic fields -/

theorem valid_validUTF8 (s : Bytes) : Utf8.valid (validUTF8 s) = true := by
  unfold validUTF8
  split
  · assumption
  · exact Utf8.valid_toValidUTF8 s

theorem cutBack_start (s : Bytes) (max : Nat) :
    cutBack s max = 0 ∨ Utf8.runeStart (s.getD (cutBack s max) 0) = true ∧ cutBack s max ≤ max := by
  induction max with
  | zero => exact .inl rfl
  | succ max ih =>
    rw [cutBack]
    split
    · exact .inr ⟨‹_›, le_rfl⟩
    · exact ih.imp_right fun h => ⟨h.1, h.2.trans (Nat.le_succ max)⟩

theorem cutBack_le (s : Bytes) (max : Nat) : cutBack s max ≤ max := by
  rcases cutBack_start s max with h | h
  · omega
  · exact h.2

theorem valid_truncateUTF8 {s : Bytes} (hs : Utf8.valid s = true) (max : Nat) :
    Utf8.valid (truncateUTF8 s max) = true := by
  unfold truncateUTF8
  split
  · exact hs
  · rename_i hlong
    apply Utf8.valid_take hs
    refine (cutBack_start s max).imp_right fun ⟨hstart, hle⟩ => ?_
    have hlt : cutBack s max < s.length := by omega
    rw [List.getD_eq_getElem?_getD, List.getElem?_eq_getElem hlt] at hstart
    exact ⟨_, List.getElem?_eq_getElem hlt, hstart⟩

theorem le_cutBack {s : Bytes} {k max : Nat} (hk : k ≤ max) (hstart : Utf8.runeStart (s.getD k 0) = true) :
    k ≤ cutBack s max := by
  induction max with
  | zero => exact hk
  | succ max ih =>
    rw [cutBack]
    split
    · exact hk
    · next hno =>
      obtain rfl | hlt := Nat.eq_or_lt_of_le hk
      · exact absurd hstart hno
      · exact ih (Nat.le_of_lt_succ hlt)

/-- A start of a key that is valid and shorter than `max`. -/
structure StartsKey (max : Int) (key start : Bytes) : Prop where
  isPrefix : start <+: key
  valid : Utf8.valid start = true
  short : (start.length : Int) < max

/-- How a key is stored when names may have `max` bytes: a longer one as its longest start, with a mark. -/
def Shortened (max : Int) (key short : Bytes) : Prop :=
  if 1 < max ∧ max < key.length then
    ∃ start, short = start ++ utf8 "~" ∧ StartsKey max key start ∧
      ∀ other, StartsKey max key other → other.length ≤ start.length
  else short = key

/-- What is cut is the longest start of a key. -/
theorem truncateUTF8_longest {key : Bytes} (hkey : Utf8.valid key = true) {max : Int} (hmax : 1 < max)
    (hlong : max < key.length) : StartsKey max key (truncateUTF8 key (max - 1).toNat) ∧
      ∀ other, StartsKey max key other → other.length ≤ (truncateUTF8 key (max - 1).toNat).length := by
  have hle := cutBack_le key (max - 1).toNat
  have htake : truncateUTF8 key (max - 1).toNat = key.take (cutBack key (max - 1).toNat) := if_neg (by omega)
  have hlength : (truncateUTF8 key (max - 1).toNat).length = cutBack key (max - 1).toNat := by
    rw [htake, List.length_take]
    omega
  refine ⟨⟨htake ▸ List.take_prefix _ _, valid_truncateUTF8 hkey _, by omega⟩, fun other hother => ?_⟩
  have hshort := hother.short
  have hother' : other = key.take other.length := List.prefix_iff_eq_take.mp hother.isPrefix
  rw [hlength]
  refine le_cutBack (by omega) (Utf8.runeStart_of_valid_take hkey ?_ (by omega))
  rw [← hother']
  exact hother.valid

variable (n : Normalizer)

theorem shortened_iff {key short : Bytes} (hkey : Utf8.valid key = true) :
    Shortened n.opts.maxFieldNameBytes key short ↔ short = n.cutName key := by
  unfold Shortened Normalizer.cutName
  dsimp only
  simp only [gt_iff_lt, Bool.and_eq_true, decide_eq_true_eq]
  split
  · next hlong =>
    obtain ⟨hstart, hlongest⟩ := truncateUTF8_longest hkey hlong.1 hlong.2
    constructor
    · rintro ⟨start, rfl, hstart', hlongest'⟩
      have hlength := le_antisymm (hlongest start hstart') (hlongest' _ hstart)
      rw [(List.prefix_of_prefix_length_le hstart'.isPrefix hstart.isPrefix hlength.le).eq_of_length hlength]
    · rintro rfl
      exact ⟨_, rfl, hstart, hlongest⟩
  · rfl

theorem valid_cutName {key : Bytes} (h : Utf8.valid key = true) : Utf8.valid (n.cutName key) = true := by
  have htilde : Utf8.valid (utf8 "~") = true := by rfl
  unfold Normalizer.cutName
  dsimp only
  split
  · rw [Utf8.valid_append (valid_truncateUTF8 h _), htilde]
  · exact h

theorem valid_fieldName (key : Bytes) : Utf8.valid (n.fieldName key) = true := by
  have hfields : Utf8.valid (utf8 "fields.") = true := by rfl
  have hkey := valid_cutName n (valid_validUTF8 key)
  unfold Normalizer.fieldName
  dsimp only
  split
  · rfl
  · split
    · rw [Utf8.valid_append hfields, hkey]
    · exact hkey

/-- A key under `fields.` is not reserved. -/
theorem fields_not_reserved (rest : Bytes) : isReserved (utf8 "fields." ++ rest) = false := by
  have hcore : coreFields.contains (utf8 "fields." ++ rest) = false := by
    rw [List.contains_eq_mem, decide_eq_false_iff_not]
    intro hmem
    have hall : ∀ key ∈ coreFields, (utf8 "fields.").isPrefixOf key = false := by decide
    have hpre := hall _ hmem
    rw [List.isPrefixOf_iff_prefix.mpr (List.prefix_append _ _)] at hpre
    cases hpre
  rw [isReserved, hcore]
  rfl

/-- A name starts with `fields.` or is not reserved. -/
theorem fieldName_cases (key : Bytes) :
    (∃ rest, n.fieldName key = utf8 "fields." ++ rest) ∨ isReserved (n.fieldName key) = false := by
  unfold Normalizer.fieldName
  dsimp only
  split
  · exact .inl ⟨utf8 "empty", by rfl⟩
  · split
    · exact .inl ⟨_, rfl⟩
    · exact .inr (by simpa using ‹¬isReserved _ = true›)

/-- The keys of core fields, whichever of them are written. -/
def storedCoreKeys : List Bytes := utf8 "_time" :: (beforeKeys ++ utf8 "severity" :: afterKeys)

theorem isReserved_of_core {key : Bytes} (h : key ∈ storedCoreKeys) : isReserved key = true := by
  have hall : ∀ key ∈ storedCoreKeys, isReserved key = true := by decide
  exact hall key h

/-- No core field has a key with a given start, if none of the list has. -/
theorem not_core_of_start {start : Bytes} (h : ∀ key ∈ storedCoreKeys, start.isPrefixOf key = false) (rest : Bytes) :
    start ++ rest ∉ storedCoreKeys := by
  intro hmem
  have hstart := h _ hmem
  rw [List.isPrefixOf_iff_prefix.mpr (List.prefix_append start rest)] at hstart
  cases hstart

theorem fieldName_not_core (key : Bytes) : n.fieldName key ∉ storedCoreKeys := by
  intro hmem
  have hreserved := isReserved_of_core hmem
  obtain ⟨rest, hrest⟩ | hfree := fieldName_cases n key
  · exact not_core_of_start (by decide) rest (hrest ▸ hmem)
  · rw [hfree] at hreserved
    cases hreserved

theorem fieldName_not_label (key label : Bytes) : n.fieldName key ≠ utf8 "labels." ++ label := by
  intro heq
  obtain ⟨rest, hrest⟩ | hfree := fieldName_cases n key
  · have hhead := congrArg List.head? (hrest.symm.trans heq)
    have hf : (utf8 "fields." ++ rest).head? = some 102 := rfl
    have hl : (utf8 "labels." ++ label).head? = some 108 := rfl
    rw [hf, hl] at hhead
    cases hhead
  · have hprefix : (utf8 "labels.").isPrefixOf (utf8 "labels." ++ label) = true :=
      List.isPrefixOf_iff_prefix.mpr (List.prefix_append _ _)
    rw [heq, isReserved, hprefix, Bool.or_true] at hfree
    cases hfree

/-! ## Keys that get one name -/

/-- What two shortened keys are when one name stands for both: a key, and the one to which it
is moved because it is reserved or empty. -/
def OneName (a b : Bytes) : Prop :=
  a = b ∨ isReserved a ∧ b = utf8 "fields." ++ a ∨ isReserved b ∧ a = utf8 "fields." ++ b ∨
    a = [] ∧ b = utf8 "fields.empty" ∨ b = [] ∧ a = utf8 "fields.empty"

/-- Two keys collide when names may have `max` bytes. -/
def Collide (max : Int) (key key' : Bytes) : Prop :=
  ∃ a b, Shortened max (Utf8.toValidUTF8 key) a ∧ Shortened max (Utf8.toValidUTF8 key') b ∧ OneName a b

theorem validUTF8_eq (s : Bytes) : validUTF8 s = Utf8.toValidUTF8 s := by
  unfold validUTF8
  split
  · exact (Utf8.toValidUTF8_of_valid ‹_›).symm
  · rfl

theorem cutName_eq_nil {key : Bytes} : n.cutName key = [] ↔ key = [] := by
  unfold Normalizer.cutName
  dsimp only
  split
  · next hlong =>
    simp only [gt_iff_lt, Bool.and_eq_true, decide_eq_true_eq] at hlong
    have htilde : utf8 "~" ≠ [] := by decide
    refine iff_of_false (by simp [htilde]) ?_
    rintro rfl
    simp only [List.length_nil] at hlong
    omega
  · rfl

/-- Where a shortened key is stored. -/
def storedName (key : Bytes) : Bytes :=
  if key = [] then utf8 "fields.empty" else if isReserved key then utf8 "fields." ++ key else key

theorem fieldName_eq (key : Bytes) : n.fieldName key = storedName (n.cutName (validUTF8 key)) := by
  simp only [Normalizer.fieldName, storedName, cutName_eq_nil]

theorem storedName_eq_iff (a b : Bytes) : storedName a = storedName b ↔ OneName a b := by
  have hempty : utf8 "fields.empty" = utf8 "fields." ++ utf8 "empty" := by rfl
  have hfree : isReserved (utf8 "empty") = false := by decide
  have hnil : isReserved [] = false := by decide
  have hmoved (rest : Bytes) : isReserved (utf8 "fields." ++ rest) = false := fields_not_reserved rest
  have hne (rest : Bytes) : utf8 "fields." ++ rest ≠ [] := by
    have : utf8 "fields." ≠ [] := by decide
    simp [this]
  have hcancel {x y : Bytes} (h : utf8 "fields." ++ x = utf8 "fields." ++ y) : x = y := List.append_cancel_left h
  unfold storedName OneName
  rw [hempty]
  by_cases ha : a = [] <;> by_cases hb : b = []
  · simp [ha, hb]
  · subst ha
    by_cases hreserved : isReserved b <;> grind
  · subst hb
    by_cases hreserved : isReserved a <;> grind
  · by_cases hreserved : isReserved a <;> by_cases hreserved' : isReserved b <;> grind

/-- When two keys get one name. -/
theorem fieldName_eq_iff (key key' : Bytes) :
    n.fieldName key = n.fieldName key' ↔ Collide n.opts.maxFieldNameBytes key key' := by
  rw [fieldName_eq, fieldName_eq, storedName_eq_iff, validUTF8_eq, validUTF8_eq]
  simp only [Collide, shortened_iff n (Utf8.valid_toValidUTF8 _), exists_eq_left, exists_and_left]

/-! ## Labels -/

theorem labelFields_perm (labels : List (Bytes × Bytes)) :
    ((labelFields labels).map Field.key).Perm (labels.map fun l => utf8 "labels." ++ l.1) := by
  have hsorted := List.perm_insertionSort (fun a b : Field => ¬b.key < a.key)
    (labels.map fun l => (⟨utf8 "labels." ++ l.1, l.2⟩ : Field))
  have hkeys := hsorted.map Field.key
  rwa [List.map_map] at hkeys

theorem sanitize_label (k : Bytes) : Utf8.sanitize (utf8 "labels." ++ k) = utf8 "labels." ++ Utf8.sanitize k :=
  Utf8.sanitize_append_of_valid (by rfl) k

theorem label_not_core (k : Bytes) : utf8 "labels." ++ k ∉ storedCoreKeys :=
  not_core_of_start (by decide) k

/-! ## Rows -/

/-- The keys of the object that is read from the row of an entry. -/
def storedKeys (e : Entry) : Option (List Bytes) :=
  match Json.parse (appendEntry [] e).dropLast with
  | some (.object members) => some (members.map Prod.fst)
  | _ => none

/-- The core fields that are written. -/
def coreEmitted (e : Entry) : List Emitted := first e :: (before e ++ severityPair e :: (names e ++ notes e))

theorem coreEmitted_keys (e : Entry) : ((coreEmitted e).map Emitted.key).Sublist storedCoreKeys := by
  rw [coreEmitted, List.map_cons, List.map_append, List.map_cons]
  exact ((before_keys e).append ((after_keys e).cons_cons _)).cons_cons _

theorem storedCoreKeys_nodup : storedCoreKeys.Nodup := by decide

theorem sanitize_core {key : Bytes} (h : key ∈ storedCoreKeys) : Utf8.sanitize key = key := by
  have hall : ∀ key ∈ storedCoreKeys, Utf8.valid key = true := by decide
  exact Utf8.sanitize_of_valid (hall key h)

/-- The keys of a row: those of the core fields that are written, the labels and the dynamic
fields. -/
theorem storedKeys_eq {e : Entry} (hzones : PlainZones e) : storedKeys e = some ((coreEmitted e).map Emitted.key ++
    ((e.labels.map fun f => Utf8.sanitize f.key) ++ e.fields.map fun f => Utf8.sanitize f.key)) := by
  have hemitted : emitted e = coreEmitted e ++ (fields e.labels ++ fields e.fields) := by
    simp [emitted, coreEmitted, after]
  have hcore : ((coreEmitted e).map fun p => Utf8.sanitize p.key) = (coreEmitted e).map Emitted.key := by
    apply List.map_congr_left
    intro p hp
    exact sanitize_core ((coreEmitted_keys e).subset (List.mem_map_of_mem hp))
  have hparse : Json.parse (appendEntry [] e).dropLast = some (readBack e) := by
    rw [appendEntry_eq, List.nil_append, List.dropLast_concat]
    exact (parse_line_iff e).mpr hzones
  simp only [storedKeys, hparse, readBack, List.map_map, Function.comp_def]
  rw [hemitted, List.map_append, hcore, List.map_append, fields, fields, List.map_map, List.map_map]
  rfl

theorem apply_labels (e : Entry) (src : Source) (m : Meta) : (n.apply e src m).labels = src.labels := by
  unfold Normalizer.apply Normalizer.applyRaw Normalizer.applyFields Normalizer.applyStrings Normalizer.applyTime
    Normalizer.applyPeer
  grind

theorem apply_fields (e : Entry) (src : Source) (m : Meta) :
    (n.apply e src m).fields = (n.keptFields e.fields).map fun f => (n.applyField f).1 := by
  unfold Normalizer.apply Normalizer.applyRaw Normalizer.applyFields Normalizer.applyStrings Normalizer.applyTime
    Normalizer.applyPeer
  grind

/-- The zones of the addresses that an entry and its message come with. -/
structure PlainAddresses (e : Entry) (m : Meta) : Prop where
  source : Json.Plain e.sourceIP.zone
  peer : Json.Plain e.peerIP.zone
  sender : Json.Plain m.peer.zone

theorem unmap_zone (a : Netip.Addr) : a.unmap.zone = a.zone ∨ a.unmap.zone = [] := by
  cases a with
  | invalid => exact .inl rfl
  | v4 a b c d => exact .inl rfl
  | v6 groups zone =>
    simp only [Netip.Addr.unmap]
    split
    · exact .inr rfl
    · exact .inl rfl

theorem apply_addresses (e : Entry) (src : Source) (m : Meta) :
    ((n.apply e src m).sourceIP = e.sourceIP ∨ (n.apply e src m).sourceIP = m.peer.unmap) ∧
      ((n.apply e src m).peerIP = e.peerIP ∨ (n.apply e src m).peerIP = m.peer.unmap) := by
  unfold Normalizer.apply Normalizer.applyRaw Normalizer.applyFields Normalizer.applyStrings Normalizer.applyTime
    Normalizer.applyPeer
  grind

theorem plain_nil : Json.Plain [] := ⟨rfl, by simp⟩

theorem apply_zones {e : Entry} {m : Meta} (h : PlainAddresses e m) (src : Source) : PlainZones (n.apply e src m) := by
  have hunmap : Json.Plain m.peer.unmap.zone := by
    obtain heq | heq := unmap_zone m.peer
    · exact heq ▸ h.sender
    · exact heq ▸ plain_nil
  obtain ⟨hsource, hpeer⟩ := apply_addresses n e src m
  constructor
  · exact hsource.elim (fun heq => heq ▸ h.source) fun heq => heq ▸ hunmap
  · exact hpeer.elim (fun heq => heq ▸ h.peer) fun heq => heq ▸ hunmap

theorem keptFields_eq (fields : List Field) : n.keptFields fields =
    fields.take (if 0 < n.opts.maxFields then n.opts.maxFields.toNat else fields.length) := by
  unfold Normalizer.keptFields
  by_cases hlimit : 0 < n.opts.maxFields
  · by_cases hlong : n.opts.maxFields < fields.length
    · simp [hlimit, hlong]
    · simp only [hlimit, hlong, decide_true, decide_false, Bool.and_false, Bool.false_eq_true, if_false, if_true]
      rw [List.take_of_length_le (by omega)]
  · simp [hlimit]

theorem applyField_key (f : Field) : (n.applyField f).1.key = n.fieldName f.key := by
  unfold Normalizer.applyField
  dsimp only
  split <;> rfl

/-- For every parsed entry and every set of labels, where no zone of an address needs an
escape: the keys of the row that is written for the normalized entry are pairwise distinct if
and only if no two of the dynamic fields within the limit have keys that collide, and no two
labels have the same name once it is valid UTF-8. -/
theorem storedKeys_nodup_iff {e : Entry} {m : Meta} (hzones : PlainAddresses e m) (src : Source)
    (labels : List (Bytes × Bytes)) :
    ∃ keys, storedKeys (n.apply e { src with labels := labelFields labels } m) = some keys ∧
      (keys.Nodup ↔
        ((e.fields.take (if 0 < n.opts.maxFields then n.opts.maxFields.toNat else e.fields.length)).Pairwise
          fun f g => ¬Collide n.opts.maxFieldNameBytes f.key g.key) ∧
        (labels.map fun l => Utf8.sanitize l.1).Nodup) := by
  refine ⟨_, storedKeys_eq (apply_zones n hzones _), ?_⟩
  simp only [← fieldName_eq_iff, ← keptFields_eq]
  have hpairwise : ((n.keptFields e.fields).Pairwise fun f g => ¬n.fieldName f.key = n.fieldName g.key) ↔
      ((n.keptFields e.fields).map fun f => n.fieldName f.key).Nodup := by
    rw [List.Nodup, List.pairwise_map]
  rw [hpairwise]
  have hfields : ((n.apply e { src with labels := labelFields labels } m).fields.map fun f => Utf8.sanitize f.key) =
      (n.keptFields e.fields).map fun f => n.fieldName f.key := by
    rw [apply_fields, List.map_map]
    apply List.map_congr_left
    intro f _
    exact (congrArg Utf8.sanitize (applyField_key n f)).trans (Utf8.sanitize_of_valid (valid_fieldName n f.key))
  have hlabels : ((labelFields labels).map fun f => Utf8.sanitize f.key).Perm
      (labels.map fun l => utf8 "labels." ++ Utf8.sanitize l.1) := by
    have hperm := (labelFields_perm labels).map Utf8.sanitize
    rw [List.map_map, List.map_map] at hperm
    simpa only [Function.comp_def, sanitize_label] using hperm
  have hnodup : ((labelFields labels).map fun f => Utf8.sanitize f.key).Nodup ↔
      (labels.map fun l => Utf8.sanitize l.1).Nodup := by
    rw [hlabels.nodup_iff]
    have hmap : (labels.map fun l => utf8 "labels." ++ Utf8.sanitize l.1) =
        (labels.map fun l => Utf8.sanitize l.1).map (utf8 "labels." ++ ·) := by rw [List.map_map]; rfl
    rw [hmap, List.nodup_map_iff (List.append_right_injective _)]
  have hlabel {key : Bytes} (h : key ∈ (labelFields labels).map fun f => Utf8.sanitize f.key) :
      ∃ k, key = utf8 "labels." ++ k := by
    obtain ⟨l, -, rfl⟩ := List.mem_map.mp (hlabels.mem_iff.mp h)
    exact ⟨_, rfl⟩
  rw [apply_labels, hfields, List.nodup_append', List.nodup_append', hnodup]
  constructor
  · rintro ⟨-, ⟨hlabels, hfields, -⟩, -⟩
    exact ⟨hfields, hlabels⟩
  · rintro ⟨hfields, hlabels⟩
    refine ⟨storedCoreKeys_nodup.sublist (coreEmitted_keys _), ⟨hlabels, hfields, ?_⟩, ?_⟩
    · intro key hkey hmem
      obtain ⟨k, rfl⟩ := hlabel hkey
      obtain ⟨f, -, heq⟩ := List.mem_map.mp hmem
      exact fieldName_not_label n f.key k heq
    · intro key hkey hmem
      have hcore := (coreEmitted_keys _).subset hkey
      obtain hmem | hmem := List.mem_append.mp hmem
      · obtain ⟨k, rfl⟩ := hlabel hmem
        exact label_not_core k hcore
      · obtain ⟨f, -, rfl⟩ := List.mem_map.mp hmem
        exact fieldName_not_core n f.key hcore

/-- The default limits. -/
def defaultNormalizer : Normalizer := ⟨⟨10 * Instants.minute, 0, 256, 32768, 256⟩, fun _ => []⟩

def plainSource : Source := ⟨utf8 "app", ⟨1⟩, ⟨4⟩, utf8 "default", .never, false, []⟩

/-- What the JSON parser makes of an object with the members `_id` and `fields._id`. -/
def movedKeys : Entry := { message := utf8 "saved", fields := [⟨utf8 "_id", utf8 "1"⟩, ⟨utf8 "fields._id", utf8 "2"⟩] }

/-- A reserved key is moved to where another field of the entry is. -/
theorem moved_key_collides :
    (movedKeys.fields.map Field.key).Nodup ∧
      ∃ keys, storedKeys (defaultNormalizer.apply movedKeys { plainSource with labels := labelFields [] }
        ⟨[], 0, .invalid, 0, false⟩) = some keys ∧ ¬keys.Nodup := by
  have hzones : PlainAddresses movedKeys ⟨[], 0, .invalid, 0, false⟩ := ⟨plain_nil, plain_nil, plain_nil⟩
  refine ⟨by decide, _, storedKeys_eq (apply_zones _ hzones _), ?_⟩
  decide

/-- An entry with a reserved key, from a link-local address. -/
theorem storedKeys_nodup_iff_linkLocal :
    ∃ keys, storedKeys (defaultNormalizer.apply { movedKeys with fields := [⟨utf8 "_id", utf8 "1"⟩] }
        { plainSource with labels := labelFields [(utf8 "site", utf8 "vienna")] }
        ⟨[], 0, .v6 #v[0xfe80, 0, 0, 0, 0, 0, 0, 1] (utf8 "eth0"), 514, false⟩) = some keys ∧ keys.Nodup := by
  have hzone : Json.Plain (utf8 "eth0") := by decide +kernel
  obtain ⟨keys, hkeys, hiff⟩ := storedKeys_nodup_iff defaultNormalizer
    (e := { movedKeys with fields := [⟨utf8 "_id", utf8 "1"⟩] })
    (m := ⟨[], 0, .v6 #v[0xfe80, 0, 0, 0, 0, 0, 0, 1] (utf8 "eth0"), 514, false⟩)
    ⟨plain_nil, plain_nil, hzone⟩ plainSource [(utf8 "site", utf8 "vienna")]
  refine ⟨keys, hkeys, hiff.mpr ⟨?_, List.nodup_singleton _⟩⟩
  exact (List.pairwise_singleton _ _).sublist (List.take_sublist _ _)

end Syslogc.Normalization
