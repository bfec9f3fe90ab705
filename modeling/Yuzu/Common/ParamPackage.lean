/-
  File:      Yuzu/Common/ParamPackage.lean
  Subject:   ParamPackage (common/param_package.cpp), and SplitString (common/string_util.cpp).

  A string is its bytes. The pairs stand in the order in which the map is iterated, which may be any.
  A pair whose value is empty is lost: the stream that cuts it at `:` has nothing left behind the mark.
-/
import Mathlib.Data.List.Basic
import Yuzu.Lib.Replace

namespace Yuzu.Common

open List

/-! ## 1. Strings -/

abbrev Text := List UInt8

/-- `SplitString`, with the part that is being read. `getline` fails where it finds nothing to read. -/
def splitFrom (delim : UInt8) : Text → Text → List Text
  | part, [] => if part = [] then [] else [part]
  | part, c :: rest =>
    if c = delim then part :: splitFrom delim [] rest else splitFrom delim (part ++ [c]) rest

/-- `SplitString`. -/
def splitString (str : Text) (delim : UInt8) : List Text := splitFrom delim [] str

section Split

variable {delim : UInt8} {part word rest : Text}

theorem splitFrom_append (h : delim ∉ word) (part rest : Text) :
    splitFrom delim part (word ++ delim :: rest) = (part ++ word) :: splitFrom delim [] rest := by
  induction word generalizing part with
  | nil => rw [nil_append, splitFrom, if_pos rfl, append_nil]
  | cons c word ih =>
    rw [mem_cons, not_or] at h
    rw [cons_append, splitFrom, if_neg (Ne.symm h.1), ih h.2, append_assoc]
    rfl

theorem splitFrom_last (h : delim ∉ word) (part : Text) :
    splitFrom delim part word = if part ++ word = [] then [] else [part ++ word] := by
  induction word generalizing part with
  | nil => rw [splitFrom, append_nil]
  | cons c word ih =>
    rw [mem_cons, not_or] at h
    rw [splitFrom, if_neg (Ne.symm h.1), ih h.2, append_assoc]
    rfl

theorem splitString_two (h : delim ∉ word) (h' : delim ∉ rest) :
    splitString (word ++ delim :: rest) delim = if rest = [] then [word] else [word, rest] := by
  rw [splitString, splitFrom_append h, splitFrom_last h', nil_append, nil_append]
  split <;> rfl

theorem splitString_join {parts : List Text} (hparts : ∀ p ∈ parts, delim ∉ p ∧ p ≠ []) :
    splitString ((parts.flatMap (· ++ [delim])).dropLast) delim = parts := by
  induction parts with
  | nil => rfl
  | cons p parts ih =>
    obtain ⟨hp, hne⟩ := hparts p mem_cons_self
    have ih' := ih fun q hq => hparts q (mem_cons_of_mem p hq)
    rw [flatMap_cons]
    cases parts with
    | nil =>
      rw [flatMap_nil, append_nil, dropLast_concat, splitString, splitFrom_last hp, nil_append, if_neg hne]
    | cons q parts =>
      have htail : (q :: parts).flatMap (· ++ [delim]) ≠ [] := by simp
      rw [dropLast_append_of_ne_nil htail, append_assoc, singleton_append, splitString,
        splitFrom_append hp, nil_append]
      exact congrArg (p :: ·) ih'

end Split

/-! ## 2. The package -/

namespace ParamPackage

/-- `KEY_VALUE_SEPARATOR`. -/
def keyValueSeparator : UInt8 := 0x3a

/-- `PARAM_SEPARATOR`. -/
def paramSeparator : UInt8 := 0x2c

/-- `ESCAPE_CHARACTER`. -/
def escapeCharacter : UInt8 := 0x24

/-- `KEY_VALUE_SEPARATOR_ESCAPE`. -/
def keyValueSeparatorEscape : Text := [0x24, 0x30]

/-- `PARAM_SEPARATOR_ESCAPE`. -/
def paramSeparatorEscape : Text := [0x24, 0x31]

/-- `ESCAPE_CHARACTER_ESCAPE`. -/
def escapeCharacterEscape : Text := [0x24, 0x32]

/-- `EMPTY_PLACEHOLDER`, the text `[empty]`. -/
def emptyPlaceholder : Text := [0x5b, 0x65, 0x6d, 0x70, 0x74, 0x79, 0x5d]

end ParamPackage

/-- `ParamPackage`: the pairs of its map. -/
structure ParamPackage where
  data : List (Text × Text)
  nodup : (data.map Prod.fst).Nodup

namespace ParamPackage

/-- A pair in place of the one with the same key, or behind the others. -/
def insertOrAssign (key value : Text) : List (Text × Text) → List (Text × Text)
  | [] => [(key, value)]
  | pair :: rest => if pair.1 = key then (key, value) :: rest else pair :: insertOrAssign key value rest

theorem keys_insertOrAssign (key value : Text) (data : List (Text × Text)) :
    (insertOrAssign key value data).map Prod.fst =
      if key ∈ data.map Prod.fst then data.map Prod.fst else data.map Prod.fst ++ [key] := by
  induction data with
  | nil => rfl
  | cons pair rest ih =>
    rw [insertOrAssign, map_cons]
    by_cases h : pair.1 = key
    · rw [if_pos h, if_pos (by rw [h]; exact mem_cons_self), map_cons, h]
    · rw [if_neg h, map_cons, ih]
      by_cases hmem : key ∈ rest.map Prod.fst
      · rw [if_pos hmem, if_pos (mem_cons_of_mem _ hmem)]
      · rw [if_neg hmem, if_neg (by simpa [Ne.symm h] using hmem), cons_append]

/-- `Set`. -/
def set (p : ParamPackage) (key value : Text) : ParamPackage where
  data := insertOrAssign key value p.data
  nodup := by
    rw [keys_insertOrAssign]
    split
    · exact p.nodup
    · rename_i h
      exact nodup_append.mpr ⟨p.nodup, pairwise_singleton _ key, fun a ha b hb hab => h (by
        rwa [← mem_singleton.mp hb, ← hab])⟩

/-- A part of a pair, read back. -/
def unescape (part : Text) : Text :=
  let part := replaceAll keyValueSeparatorEscape [keyValueSeparator] part
  let part := replaceAll paramSeparatorEscape [paramSeparator] part
  replaceAll escapeCharacterEscape [escapeCharacter] part

/-- A part of a pair, as it is written. -/
def escape (part : Text) : Text :=
  let part := replaceAll [escapeCharacter] escapeCharacterEscape part
  let part := replaceAll [paramSeparator] paramSeparatorEscape part
  replaceAll [keyValueSeparator] keyValueSeparatorEscape part

/-- A pair of the text comes to the package; one that is not cut into two parts is left out. -/
def addPair (p : ParamPackage) (pair : Text) : ParamPackage :=
  match splitString pair keyValueSeparator with
  | [key, value] => p.set (unescape key) (unescape value)
  | _ => p

/-- `ParamPackage()`. -/
def empty : ParamPackage := ⟨[], nodup_nil⟩

/-- `ParamPackage(serialized)`. -/
def ofSerialized (serialized : Text) : ParamPackage :=
  if serialized = emptyPlaceholder then empty
  else (splitString serialized paramSeparator).foldl addPair empty

/-- A pair of `Serialize`, without the mark behind it. -/
def serializePair (pair : Text × Text) : Text := escape pair.1 ++ keyValueSeparator :: escape pair.2

/-- `Serialize`. -/
def serialize (p : ParamPackage) : Text :=
  if p.data = [] then emptyPlaceholder
  else ((p.data.map serializePair).flatMap (· ++ [paramSeparator])).dropLast

/-! ## 3. Escapes -/

/-- The letters behind the escape, and what they stand for. -/
def letters : List (UInt8 × UInt8) :=
  [(0x30, keyValueSeparator), (0x31, paramSeparator), (0x32, escapeCharacter)]

/-- How a byte is written. -/
def escapeByte (c : UInt8) : Text :=
  if c = keyValueSeparator then keyValueSeparatorEscape
  else if c = paramSeparator then paramSeparatorEscape
  else if c = escapeCharacter then escapeCharacterEscape
  else [c]

/-- **The three passes write each byte by itself.** -/
theorem escape_eq (part : Text) : escape part = part.flatMap escapeByte := by
  rw [escape, replaceAll_singleton, replaceAll_singleton, replaceAll_singleton, flatMap_assoc,
    flatMap_assoc]
  refine flatMap_congr fun c _ => ?_
  rw [escapeByte]
  by_cases h1 : c = escapeCharacter
  · subst h1
    decide
  · rw [if_neg h1]
    by_cases h2 : c = paramSeparator
    · subst h2
      decide
    · by_cases h3 : c = keyValueSeparator
      · subst h3
        decide
      · simp [h2, h3]

/-- **The three passes back are one**, from left to right. -/
theorem unescape_eq (part : Text) : unescape part = substitute escapeCharacter (tableOf letters) part :=
  @replaceAll_entries _ _ escapeCharacter letters (by simp [letters, escapeCharacter]) (by decide) part

theorem unescape_escape (part : Text) : unescape (escape part) = part := by
  rw [unescape_eq, escape_eq]
  induction part with
  | nil => rfl
  | cons c rest ih =>
    rw [flatMap_cons, escapeByte]
    split
    · rename_i h
      rw [h]
      exact (@substitute_some _ _ _ (tableOf letters) _ _ _ rfl).trans (congrArg _ ih)
    · split
      · rename_i h
        rw [h]
        exact (@substitute_some _ _ _ (tableOf letters) _ _ _ rfl).trans (congrArg _ ih)
      · split
        · rename_i h
          rw [h]
          exact (@substitute_some _ _ _ (tableOf letters) _ _ _ rfl).trans (congrArg _ ih)
        · rename_i h
          exact (substitute_cons h).trans (congrArg _ ih)

theorem not_mem_escape {mark : UInt8} (hmark : mark = keyValueSeparator ∨ mark = paramSeparator)
    (part : Text) : mark ∉ escape part := by
  rw [escape_eq, mem_flatMap]
  intro h
  obtain ⟨c, -, hc⟩ := h
  rw [escapeByte] at hc
  rcases hmark with rfl | rfl
  all_goals
    split at hc
    · revert hc
      decide
    · split at hc
      · revert hc
        decide
      · split at hc
        · revert hc
          decide
        · simp_all

theorem escape_eq_nil {part : Text} : escape part = [] ↔ part = [] := by
  constructor
  · intro h
    rw [← unescape_escape part, h]
    rfl
  · intro h
    rw [h]
    rfl

/-! ## 4. The round trip -/

theorem insertOrAssign_append {key : Text} {data : List (Text × Text)} (h : key ∉ data.map Prod.fst)
    (value : Text) : insertOrAssign key value data = data ++ [(key, value)] := by
  induction data with
  | nil => rfl
  | cons pair rest ih =>
    rw [map_cons, mem_cons, not_or] at h
    rw [insertOrAssign, if_neg (Ne.symm h.1), ih h.2, cons_append]

/-- **A pair is read back**, unless its value is empty. -/
theorem addPair_serializePair (p : ParamPackage) (pair : Text × Text) :
    p.addPair (serializePair pair) = if pair.2 = [] then p else p.set pair.1 pair.2 := by
  rw [addPair, serializePair,
    splitString_two (not_mem_escape (.inl rfl) pair.1) (not_mem_escape (.inl rfl) pair.2)]
  by_cases h : pair.2 = []
  · rw [if_pos (escape_eq_nil.mpr h), if_pos h]
  · rw [if_neg (fun h' => h (escape_eq_nil.mp h')), if_neg h]
    dsimp only
    rw [unescape_escape, unescape_escape]

/-- Pairs with other keys than those of the package are put behind its own, by induction on the pairs. -/
theorem foldl_addPair {pairs : List (Text × Text)} {p : ParamPackage} (hnodup : (pairs.map Prod.fst).Nodup)
    (hdisjoint : ∀ pair ∈ pairs, pair.1 ∉ p.data.map Prod.fst) :
    ((pairs.map serializePair).foldl addPair p).data = p.data ++ pairs.filter (·.2 ≠ []) := by
  induction pairs generalizing p with
  | nil => rw [map_nil, foldl_nil, filter_nil, append_nil]
  | cons pair pairs ih =>
    rw [map_cons, nodup_cons] at hnodup
    rw [map_cons, foldl_cons, addPair_serializePair]
    by_cases h : pair.2 = []
    · rw [if_pos h, filter_cons_of_neg (by simpa using h)]
      exact ih hnodup.2 fun q hq => hdisjoint q (mem_cons_of_mem pair hq)
    · have hset : (p.set pair.1 pair.2).data = p.data ++ [pair] :=
        insertOrAssign_append (hdisjoint pair mem_cons_self) pair.2
      rw [if_neg h, filter_cons_of_pos (by simpa using h), ih hnodup.2, hset, append_assoc,
        singleton_append]
      intro q hq hmem
      rw [hset, map_append, mem_append] at hmem
      rcases hmem with hmem | hmem
      · exact hdisjoint q (mem_cons_of_mem pair hq) hmem
      · -- the keys of a map differ
        rw [map_singleton, mem_singleton] at hmem
        exact hnodup.1 (hmem ▸ mem_map_of_mem hq)

theorem serializePair_spec (pair : Text × Text) :
    keyValueSeparator ∈ serializePair pair ∧ paramSeparator ∉ serializePair pair := by
  constructor
  · exact mem_append_right _ mem_cons_self
  · rw [serializePair, mem_append, mem_cons, not_or, not_or]
    exact ⟨not_mem_escape (.inr rfl) _, by decide, not_mem_escape (.inr rfl) _⟩

/-- **What is read back** are the pairs whose values are not empty. -/
theorem ofSerialized_serialize (p : ParamPackage) :
    (ofSerialized p.serialize).data = p.data.filter (·.2 ≠ []) := by
  by_cases hnil : p.data = []
  · rw [serialize, if_pos hnil, ofSerialized, if_pos rfl, hnil]
    rfl
  have hsplit : splitString p.serialize paramSeparator = p.data.map serializePair := by
    rw [serialize, if_neg hnil]
    refine splitString_join fun part hpart => ?_
    obtain ⟨pair, -, rfl⟩ := mem_map.mp hpart
    exact ⟨(serializePair_spec pair).2, ne_nil_of_mem (serializePair_spec pair).1⟩
  -- the placeholder holds no mark
  have hne : p.serialize ≠ emptyPlaceholder := by
    intro h
    rw [h, show splitString emptyPlaceholder paramSeparator = [emptyPlaceholder] from rfl] at hsplit
    have hmem : emptyPlaceholder ∈ p.data.map serializePair := by
      rw [← hsplit]
      exact mem_cons_self
    obtain ⟨pair, -, hpair⟩ := mem_map.mp hmem
    have hmark := (serializePair_spec pair).1
    rw [hpair] at hmark
    exact absurd hmark (by decide)
  rw [ofSerialized, if_neg hne, hsplit, foldl_addPair p.nodup fun _ _ h => absurd h not_mem_nil]
  rfl

/-- **A package round-trips exactly when none of its values is empty.** -/
theorem ofSerialized_serialize_iff (p : ParamPackage) :
    (∀ pair, pair ∈ (ofSerialized p.serialize).data ↔ pair ∈ p.data) ↔ ∀ pair ∈ p.data, pair.2 ≠ [] := by
  rw [ofSerialized_serialize]
  constructor
  · intro h pair hpair
    simpa using (mem_filter.mp ((h pair).mpr hpair)).2
  · intro h pair
    rw [mem_filter]
    exact ⟨fun hpair => hpair.1, fun hpair => ⟨hpair, by simpa using h pair hpair⟩⟩

/-- The package of the key `a` with an empty value. -/
def emptyValue : ParamPackage := ⟨[([0x61], [])], by decide⟩

/-- **An empty value is lost**, and its key with it. -/
theorem emptyValue_lost : ¬∀ (p : ParamPackage) (pair : Text × Text),
    pair ∈ (ofSerialized p.serialize).data ↔ pair ∈ p.data :=
  fun h => absurd ((h emptyValue ([0x61], [])).mpr (by decide)) (by decide)

/-- The marks, the escape and digits behind it in a value, and a value that is the placeholder. -/
example : (ofSerialized (serialize
    ⟨[([0x61], [0x24, 0x3a, 0x31, 0x24, 0x32, 0x2c]), ([], emptyPlaceholder)], by decide⟩)).data =
    [([0x61], [0x24, 0x3a, 0x31, 0x24, 0x32, 0x2c]), ([], emptyPlaceholder)] := by
  decide

end ParamPackage

end Yuzu.Common
