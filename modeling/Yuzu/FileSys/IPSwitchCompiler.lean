/-
  File:      Yuzu/FileSys/IPSwitchCompiler.lean
  Subject:   The strings of IPSwitch patches: EscapeStringSequences and the scan for the closing quote
             (core/file_sys/ips_layer.cpp).

  The passes for the letters come before the pass for the doubled backslash, and the passes for the
  quotes and the question mark behind it. So a letter behind an even number of backslashes is taken as
  escaped, and the scan takes a quote behind any backslash as escaped. What the code does is compared
  with one pass from left to right, along the runs of backslashes.
-/
import Mathlib
import Yuzu.Lib.Replace

namespace Yuzu.FileSys

open List Option

namespace IPSwitchCompiler

abbrev Text := List UInt8

/-! ## 1. The code -/

/-- The backslash. -/
def backslash : UInt8 := 0x5c

/-- The quote around a string. -/
def quote : UInt8 := 0x22

/-- `ESCAPE_CHARACTER_MAP`. -/
def escapeCharacterMap : List (Text × Text) :=
  [([backslash, 0x61], [0x07]), ([backslash, 0x62], [0x08]), ([backslash, 0x66], [0x0c]),
    ([backslash, 0x6e], [0x0a]), ([backslash, 0x72], [0x0d]), ([backslash, 0x74], [0x09]),
    ([backslash, 0x76], [0x0b]), ([backslash, backslash], [backslash]), ([backslash, 0x27], [0x27]),
    ([backslash, quote], [quote]), ([backslash, 0x3f], [0x3f])]

/-- `EscapeStringSequences`: a pass for each entry of the map. -/
def escapeStringSequences (text : Text) : Text :=
  escapeCharacterMap.foldl (fun text seq => replaceAll seq.1 seq.2 text) text

/-- The place of a byte from an index on. -/
def find (line : Text) (c : UInt8) (i : Nat) : Option Nat := ((line.drop i).idxOf? c).map (· + i)

/-- The scan of `Parse`, from an index on: quotes behind a backslash are passed over. -/
def scanQuote (line : Text) : Nat → Nat → Option Nat
  | 0, _ => none
  | fuel + 1, i =>
    match find line quote i with
    | none => none
    | some endIndex =>
      if line.getD (endIndex - 1) 0 = backslash then scanQuote line fuel (endIndex + 1) else some endIndex

/-- The index of the closing quote, for the opening one at index 9. -/
def closingQuote (line : Text) : Option Nat := scanQuote line (line.length + 1) 10

/-! ## 2. One pass from left to right -/

/-- The letters of the first seven entries of the map, and what they stand for. -/
def letters : List (UInt8 × UInt8) :=
  [(0x61, 0x07), (0x62, 0x08), (0x66, 0x0c), (0x6e, 0x0a), (0x72, 0x0d), (0x74, 0x09), (0x76, 0x0b)]

/-- Those of the last three. -/
def quotes : List (UInt8 × UInt8) := [(0x27, 0x27), (quote, quote), (0x3f, 0x3f)]

/-- What a backslash escapes. -/
def escapes : UInt8 → Option UInt8 := tableOf (letters ++ (backslash, backslash) :: quotes)

/-- **The decode**: one pass that replaces each escape by its character. -/
def decode (text : Text) : Text := substitute backslash escapes text

/-- **The end of a string**: the place of the first quote that is not part of an escape. -/
def stringEnd : Text → Option Nat
  | [] => none
  | [c] => if c = quote then some 0 else none
  | c :: x :: rest =>
    if c = quote then some 0
    else if c = backslash ∧ (escapes x).isSome then (stringEnd rest).map (· + 2)
    else (stringEnd (x :: rest)).map (· + 1)

/-- A letter of the map, other than the backslash, stands behind an even number of backslashes that is not
0; so many stand in front of the text. -/
def Doubled : Nat → Text → Prop
  | _, [] => False
  | run, c :: rest =>
    if c = backslash then Doubled (run + 1) rest
    else (run ≠ 0 ∧ run % 2 = 0 ∧ (escapes c).isSome) ∨ Doubled 0 rest

/-- The first quote behind an even number of backslashes stands behind none. -/
def Closes : Nat → Text → Prop
  | _, [] => True
  | run, c :: rest =>
    if c = backslash then Closes (run + 1) rest
    else if c = quote ∧ run % 2 = 0 then run = 0
    else Closes 0 rest

/-! ## 3. Runs of backslashes -/

theorem runInduction {motive : Text → Prop} (hend : ∀ n, motive (List.replicate n backslash))
    (hrun : ∀ n x rest, x ≠ backslash → motive rest → motive (List.replicate n backslash ++ x :: rest))
    (text : Text) : motive text := by
  -- with a run in front, by induction on the text
  suffices h : ∀ n, motive (List.replicate n backslash ++ text) from h 0
  induction text with
  | nil =>
    intro n
    rw [append_nil]
    exact hend n
  | cons c rest ih =>
    intro n
    by_cases hc : c = backslash
    · have hjoin : List.replicate n backslash ++ c :: rest = List.replicate (n + 1) backslash ++ rest := by
        rw [replicate_succ', append_assoc, hc]
        rfl
      rw [hjoin]
      exact ih (n + 1)
    · exact hrun n c rest hc (ih 0)

section Runs

variable {table : UInt8 → Option UInt8} {x y : UInt8} {rest : Text} {n : Nat}

theorem substitute_run (htable : table backslash = none) (hx : x ≠ backslash) (h : table x = none ∨ n = 0) :
    substitute backslash table (List.replicate n backslash ++ x :: rest) =
      List.replicate n backslash ++ x :: substitute backslash table rest := by
  induction n with
  | zero => exact substitute_cons hx
  | succ n ih =>
    have hx' := h.resolve_right (Nat.succ_ne_zero n)
    cases n with
    | zero => exact (substitute_none hx').trans (congrArg _ (substitute_cons hx))
    | succ n => exact (substitute_none htable).trans (congrArg _ (ih (.inl hx')))

theorem substitute_run_end (htable : table backslash = none) :
    substitute backslash table (List.replicate n backslash) = List.replicate n backslash := by
  induction n with
  | zero => rfl
  | succ n ih =>
    cases n with
    | zero => rfl
    | succ n => exact (substitute_none htable).trans (congrArg _ ih)

theorem substitute_run_escape (htable : table backslash = none) (h : table x = some y) :
    substitute backslash table (List.replicate (n + 1) backslash ++ x :: rest) =
      List.replicate n backslash ++ y :: substitute backslash table rest := by
  induction n with
  | zero => exact substitute_some h
  | succ n ih => exact (substitute_none htable).trans (congrArg _ ih)

theorem replaceAll_run (hx : x ≠ backslash) : ∀ n, replaceAll [backslash, backslash] [backslash]
    (List.replicate n backslash ++ x :: rest) = List.replicate ((n + 1) / 2) backslash ++
      x :: replaceAll [backslash, backslash] [backslash] rest
  | 0 => replaceAll_pair_cons hx
  | 1 => by
    refine (replaceAll_pair_other hx).trans ?_
    rw [replaceAll_pair_cons hx]
    rfl
  | n + 2 => by
    have hhalf : (n + 2 + 1) / 2 = (n + 1) / 2 + 1 := by omega
    rw [hhalf]
    exact replaceAll_pair_match.trans (congrArg _ (replaceAll_run hx n))

theorem replaceAll_run_end : ∀ n,
    replaceAll [backslash, backslash] [backslash] (List.replicate n backslash) =
      List.replicate ((n + 1) / 2) backslash
  | 0 => rfl
  | 1 => rfl
  | n + 2 => by
    have hhalf : (n + 2 + 1) / 2 = (n + 1) / 2 + 1 := by omega
    rw [hhalf]
    exact replaceAll_pair_match.trans (congrArg _ (replaceAll_run_end n))

theorem decode_run (hx : x ≠ backslash) : ∀ n, decode (List.replicate n backslash ++ x :: rest) =
    List.replicate (n / 2) backslash ++
      if n % 2 = 0 then x :: decode rest
      else match escapes x with
        | some y => y :: decode rest
        | none => backslash :: x :: decode rest
  | 0 => substitute_cons hx
  | 1 => by
    cases h : escapes x with
    | some y => exact substitute_some h
    | none => exact (substitute_none h).trans (congrArg _ (substitute_cons hx))
  | n + 2 => by
    have hhalf : (n + 2) / 2 = n / 2 + 1 := by omega
    have hmod : (n + 2) % 2 = n % 2 := by omega
    rw [hhalf, hmod]
    exact (@substitute_some _ _ _ escapes _ _ _ rfl).trans (congrArg _ (decode_run hx n))

theorem decode_run_end : ∀ n, decode (List.replicate n backslash) = List.replicate ((n + 1) / 2) backslash
  | 0 => rfl
  | 1 => rfl
  | n + 2 => by
    have hhalf : (n + 2 + 1) / 2 = (n + 1) / 2 + 1 := by omega
    rw [hhalf]
    exact (@substitute_some _ _ _ escapes _ _ _ rfl).trans (congrArg _ (decode_run_end n))

end Runs

/-! ## 4. The passes -/

/-- **The passes are three**: the letters, the doubled backslash, and the quotes. -/
theorem escapeStringSequences_eq (text : Text) : escapeStringSequences text =
    substitute backslash (tableOf quotes) (replaceAll [backslash, backslash] [backslash]
      (substitute backslash (tableOf letters) text)) := by
  rw [← @replaceAll_entries _ _ backslash letters (by simp [letters, backslash]) (by decide) text,
    ← @replaceAll_entries _ _ backslash quotes (by simp [quotes, quote, backslash]) (by decide)]
  rfl

theorem escapes_cases {x : UInt8} (hx : x ≠ backslash) :
    (∃ y, tableOf letters x = some y ∧ y ≠ backslash ∧ y ≠ x ∧ tableOf quotes y = none ∧
        escapes x = some y) ∨
      (tableOf letters x = none ∧ tableOf quotes x = some x ∧ escapes x = some x) ∨
      (tableOf letters x = none ∧ tableOf quotes x = none ∧ escapes x = none) := by
  have hjoin : escapes x = (tableOf letters x).or (tableOf quotes x) := by
    rw [escapes, tableOf, lookup_append, lookup_cons, beq_eq_false_iff_ne.mpr hx]
    rfl
  rw [hjoin]
  cases hl : tableOf letters x with
  | some y =>
    have hall : ∀ p ∈ letters, p.2 ≠ backslash ∧ p.2 ≠ p.1 ∧ tableOf quotes p.2 = none := by
      simp [letters, quotes, quote, backslash, tableOf, List.lookup]
    exact .inl ⟨y, rfl, (hall (x, y) (mem_of_tableOf hl)).1, (hall (x, y) (mem_of_tableOf hl)).2.1,
      (hall (x, y) (mem_of_tableOf hl)).2.2, rfl⟩
  | none =>
    right
    cases hq : tableOf quotes x with
    | some y =>
      have hall : ∀ p ∈ quotes, p.2 = p.1 := by simp [quotes]
      have hsame : y = x := hall (x, y) (mem_of_tableOf hq)
      rw [hsame]
      exact .inl ⟨rfl, rfl, rfl⟩
    | none => exact .inr ⟨rfl, rfl, rfl⟩

/-- The passes over a run: the last backslash goes with an escape, and the others are halved upwards. -/
theorem escapeStringSequences_run {x : UInt8} (hx : x ≠ backslash) (n : Nat) (rest : Text) :
    escapeStringSequences (List.replicate n backslash ++ x :: rest) =
      match escapes x with
      | some y => if n = 0 then x :: escapeStringSequences rest
        else List.replicate (if y = x then (n - 1) / 2 else n / 2) backslash ++
          y :: escapeStringSequences rest
      | none => List.replicate ((n + 1) / 2) backslash ++ x :: escapeStringSequences rest := by
  rw [escapeStringSequences_eq, escapeStringSequences_eq rest]
  obtain ⟨y, hl, hy, hyx, hq, he⟩ | ⟨hl, hq, he⟩ | ⟨hl, hq, he⟩ := escapes_cases hx
  · rw [he]
    cases n with
    | zero =>
      have h : substitute backslash (tableOf letters) (List.replicate 0 backslash ++ x :: rest) =
          List.replicate 0 backslash ++ x :: substitute backslash (tableOf letters) rest :=
        substitute_run rfl hx (.inr rfl)
      rw [h, replaceAll_run hx]
      exact substitute_cons hx
    | succ n =>
      rw [substitute_run_escape rfl hl, replaceAll_run hy, substitute_run rfl hy (.inl hq)]
      dsimp only
      rw [if_neg (Nat.succ_ne_zero n), if_neg hyx]
  · rw [he, substitute_run rfl hx (.inl hl), replaceAll_run hx]
    dsimp only
    cases n with
    | zero => exact substitute_cons hx
    | succ n =>
      have hhalf : (n + 1 + 1) / 2 = n / 2 + 1 := by omega
      rw [hhalf, substitute_run_escape rfl hq, if_neg (Nat.succ_ne_zero n), if_pos rfl, Nat.add_sub_cancel]
  · rw [he, substitute_run rfl hx (.inl hl), replaceAll_run hx, substitute_run rfl hx (.inl hq)]

theorem escapeStringSequences_run_end (n : Nat) :
    escapeStringSequences (List.replicate n backslash) = List.replicate ((n + 1) / 2) backslash := by
  rw [escapeStringSequences_eq, substitute_run_end rfl, replaceAll_run_end, substitute_run_end rfl]

/-! ## 5. The passes and the decode -/

theorem doubled_run {x : UInt8} (hx : x ≠ backslash) (rest : Text) : ∀ n run,
    Doubled run (List.replicate n backslash ++ x :: rest) ↔
      (run + n ≠ 0 ∧ (run + n) % 2 = 0 ∧ (escapes x).isSome) ∨ Doubled 0 rest
  | 0, run => by
    rw [replicate_zero, nil_append, Doubled, if_neg hx, Nat.add_zero]
  | n + 1, run => by
    rw [replicate_succ, cons_append, Doubled, if_pos rfl, doubled_run hx rest n (run + 1),
      Nat.add_right_comm, Nat.add_assoc]

theorem not_doubled_run_end : ∀ n run, ¬Doubled run (List.replicate n backslash)
  | 0, _ => id
  | n + 1, run => by
    rw [replicate_succ, Doubled, if_pos rfl]
    exact not_doubled_run_end n (run + 1)

theorem append_cons_inj (m : Nat) {x : UInt8} {rest rest' : Text} :
    List.replicate m backslash ++ x :: rest = List.replicate m backslash ++ x :: rest' ↔ rest = rest' := by
  rw [append_cancel_left_eq, List.cons.injEq]
  exact ⟨fun h => h.2, fun h => ⟨rfl, h⟩⟩

/-- **The passes decode exactly the texts without doubled backslashes in front of an escape letter.** By
induction along the runs. -/
theorem escapeStringSequences_iff (text : Text) :
    escapeStringSequences text = decode text ↔ ¬Doubled 0 text := by
  induction text using runInduction with
  | hend n =>
    rw [escapeStringSequences_run_end, decode_run_end]
    exact ⟨fun _ => not_doubled_run_end n 0, fun _ => rfl⟩
  | hrun n x rest hx ih =>
    rw [escapeStringSequences_run hx, decode_run hx, doubled_run hx, Nat.zero_add, not_or, ← ih]
    obtain ⟨y, -, hy, hyx, -, he⟩ | ⟨-, -, he⟩ | ⟨-, -, he⟩ := escapes_cases hx
    · rw [he]
      dsimp only
      by_cases h0 : n = 0
      · subst h0
        rw [if_pos rfl, if_pos rfl]
        simp
      · rw [if_neg h0, if_neg hyx]
        by_cases h : n % 2 = 0
        · -- the letter is not escaped, and the passes take it as escaped
          rw [if_pos h]
          have hne : List.replicate (n / 2) backslash ++ y :: escapeStringSequences rest ≠
              List.replicate (n / 2) backslash ++ x :: decode rest := fun heq =>
            hyx (cons.inj (append_cancel_left heq)).1
          simp [hne, h, h0]
        · rw [if_neg h, append_cons_inj]
          simp [h]
    · rw [he]
      dsimp only
      by_cases h0 : n = 0
      · subst h0
        rw [if_pos rfl, if_pos rfl]
        simp
      · rw [if_neg h0, if_pos rfl]
        by_cases h : n % 2 = 0
        · -- a backslash too few is left
          obtain ⟨k, rfl⟩ : ∃ k, n = 2 * k + 2 := ⟨n / 2 - 1, by omega⟩
          rw [if_pos h, show (2 * k + 2 - 1) / 2 = k by omega, show (2 * k + 2) / 2 = k + 1 by omega,
            replicate_succ', append_assoc]
          have hne : List.replicate k backslash ++ x :: escapeStringSequences rest ≠
              List.replicate k backslash ++ ([backslash] ++ x :: decode rest) := fun heq =>
            hx (cons.inj (append_cancel_left heq)).1
          exact ⟨fun heq => absurd heq hne, fun hno => absurd ⟨h0, h, rfl⟩ hno.1⟩
        · rw [if_neg h, show (n - 1) / 2 = n / 2 by omega, append_cons_inj]
          simp [h]
    · rw [he]
      dsimp only
      by_cases h : n % 2 = 0
      · rw [if_pos h, show (n + 1) / 2 = n / 2 by omega, append_cons_inj]
        simp
      · rw [if_neg h, show (n + 1) / 2 = n / 2 + 1 by omega, replicate_succ', append_assoc]
        simp

/-! ## 6. The closing quote -/

/-- The scan, along the text; the byte in front of it is a backslash or not. -/
def quoteScan : Bool → Text → Option Nat
  | _, [] => none
  | escaped, c :: rest =>
    if c = quote ∧ escaped = false then some 0 else (quoteScan (decide (c = backslash)) rest).map (· + 1)

/-- Whether a backslash stands in front of an index. -/
def escapedAt (line : Text) (i : Nat) : Bool := decide (line.getD (i - 1) 0 = backslash)

theorem find_some {line : Text} {c : UInt8} {i endIndex : Nat} (h : find line c i = some endIndex) :
    ∃ before rest, line.drop i = before ++ c :: rest ∧ c ∉ before ∧ endIndex = before.length + i := by
  obtain ⟨j, hj, rfl⟩ := map_eq_some_iff.mp h
  obtain ⟨hlt, heq, hbefore⟩ := List.idxOf?_eq_some_iff.mp hj
  refine ⟨(line.drop i).take j, (line.drop i).drop (j + 1), ?_, fun hmem => ?_, ?_⟩
  · rw [← heq, getElem_cons_drop, take_append_drop]
  · obtain ⟨k, hk, hck⟩ := getElem_of_mem hmem
    rw [length_take] at hk
    rw [getElem_take] at hck
    exact hbefore k (by omega) (by simp [hck])
  · rw [length_take_of_le (Nat.le_of_lt hlt)]

theorem quoteScan_none {text : Text} (h : quote ∉ text) (escaped : Bool) :
    quoteScan escaped text = none := by
  induction text generalizing escaped with
  | nil => rfl
  | cons c rest ih =>
    rw [mem_cons, not_or] at h
    rw [quoteScan, if_neg fun hc => h.1 hc.1.symm, ih h.2]
    rfl

/-- The scan up to the first quote, from an index of the line on. -/
theorem quoteScan_append {line before rest : Text} {i : Nat} (hdrop : line.drop i = before ++ quote :: rest)
    (hbefore : quote ∉ before) : quoteScan (escapedAt line i) (line.drop i) =
      if escapedAt line (i + before.length) = false then some before.length
      else (quoteScan false rest).map (· + (before.length + 1)) := by
  rw [hdrop]
  induction before generalizing i with
  | nil =>
    rw [nil_append, quoteScan, length_nil, Nat.add_zero]
    by_cases h : escapedAt line i = false
    · rw [if_pos ⟨rfl, h⟩, if_pos h]
    · rw [if_neg fun hc => h hc.2, if_neg h]
      rfl
  | cons c before ih =>
    rw [mem_cons, not_or] at hbefore
    have hnext : line.drop (i + 1) = before ++ quote :: rest := by
      rw [← drop_drop, hdrop]
      rfl
    have hc : escapedAt line (i + 1) = decide (c = backslash) := by
      have hget : (line)[i]? = some c := by
        rw [← List.head?_drop, hdrop]
        rfl
      rw [escapedAt, Nat.add_sub_cancel, getD_eq_getElem?_getD, hget]
      rfl
    rw [cons_append, quoteScan, if_neg fun h => hbefore.1 h.1.symm, ← hc, ih hnext hbefore.2,
      length_cons, Nat.add_right_comm, Nat.add_assoc]
    split
    · rfl
    · rw [Option.map_map]
      rfl

/-- **The scan of the code** is the one along the text, by induction on the quotes that are passed over. -/
theorem scanQuote_eq {line : Text} {fuel i : Nat} (hfuel : line.length < i + fuel) :
    scanQuote line fuel i = (quoteScan (escapedAt line i) (line.drop i)).map (· + i) := by
  induction fuel generalizing i with
  | zero =>
    rw [drop_of_length_le (by omega)]
    rfl
  | succ fuel ih =>
    rw [scanQuote]
    cases hfind : find line quote i with
    | none =>
      have hnone : quote ∉ line.drop i := List.idxOf?_eq_none_iff.mp (map_eq_none_iff.mp hfind)
      rw [quoteScan_none hnone]
      rfl
    | some endIndex =>
      obtain ⟨before, rest, hdrop, hbefore, rfl⟩ := find_some hfind
      have hrest : line.drop (before.length + i + 1) = rest := by
        rw [Nat.add_comm before.length i, Nat.add_assoc, ← drop_drop, hdrop, drop_append,
          drop_of_length_le (Nat.le_succ _), Nat.add_sub_cancel_left]
        rfl
      have hquote : escapedAt line (before.length + i + 1) = false := by
        have hget : (line)[before.length + i]? = some quote := by
          rw [Nat.add_comm, ← List.getElem?_drop, hdrop, List.getElem?_append_right (Nat.le_refl _),
            Nat.sub_self]
          rfl
        rw [escapedAt, Nat.add_sub_cancel, getD_eq_getElem?_getD, hget]
        decide
      rw [quoteScan_append hdrop hbefore, Nat.add_comm i before.length]
      dsimp only
      by_cases h : line.getD (before.length + i - 1) 0 = backslash
      · rw [if_pos h, if_neg (by simpa [escapedAt] using h), ih (by omega), hrest, hquote, Option.map_map]
        congr 1
        funext k
        simp only [Function.comp_apply]
        omega
      · rw [if_neg h, if_pos (by simpa [escapedAt] using h)]
        rfl

section Close

variable {x : UInt8} {rest : Text}

theorem closes_run (hx : x ≠ backslash) (rest : Text) : ∀ n run,
    Closes run (List.replicate n backslash ++ x :: rest) ↔
      if x = quote ∧ (run + n) % 2 = 0 then run + n = 0 else Closes 0 rest
  | 0, run => by
    rw [replicate_zero, nil_append, Closes, if_neg hx, Nat.add_zero]
  | n + 1, run => by
    rw [replicate_succ, cons_append, Closes, if_pos rfl, closes_run hx rest n (run + 1),
      Nat.add_right_comm, Nat.add_assoc]

theorem closes_run_end : ∀ n run, Closes run (List.replicate n backslash)
  | 0, _ => trivial
  | n + 1, run => by
    rw [replicate_succ, Closes, if_pos rfl]
    exact closes_run_end n (run + 1)

theorem quoteScan_run (hx : x ≠ backslash) (rest : Text) : ∀ n escaped,
    quoteScan escaped (List.replicate n backslash ++ x :: rest) =
      if x = quote ∧ n = 0 ∧ escaped = false then some 0 else (quoteScan false rest).map (· + (n + 1))
  | 0, escaped => by
    rw [List.replicate_zero, List.nil_append, quoteScan, decide_eq_false hx]
    simp
  | n + 1, escaped => by
    rw [List.replicate_succ, List.cons_append, quoteScan, if_neg fun h => absurd h.1 (by decide),
      decide_eq_true rfl, quoteScan_run hx rest n true, if_neg fun h => Bool.noConfusion h.2.2,
      if_neg fun h => absurd h.2.1 (Nat.succ_ne_zero n), Option.map_map]
    rfl

theorem stringEnd_quote (rest : Text) : stringEnd (quote :: rest) = some 0 := by
  cases rest <;> rfl

theorem stringEnd_other (hx : x ≠ backslash) (hq : x ≠ quote) (rest : Text) :
    stringEnd (x :: rest) = (stringEnd rest).map (· + 1) := by
  cases rest with
  | nil => exact if_neg hq
  | cons c rest => rw [stringEnd, if_neg hq, if_neg fun h => hx h.1]

/-- The end of a string behind a run: a quote behind an even number of backslashes. -/
theorem stringEnd_run (hx : x ≠ backslash) (rest : Text) : ∀ n,
    stringEnd (List.replicate n backslash ++ x :: rest) =
      if x = quote ∧ n % 2 = 0 then some n else (stringEnd rest).map (· + (n + 1))
  | 0 => by
    rw [replicate_zero, nil_append]
    by_cases hq : x = quote
    · rw [if_pos ⟨hq, rfl⟩, hq, stringEnd_quote]
    · rw [if_neg fun h => hq h.1, stringEnd_other hx hq]
  | 1 => by
    refine Eq.trans ?_ (if_neg fun h => absurd h.2 (by decide)).symm
    rw [replicate_one, singleton_append, stringEnd, if_neg (by decide)]
    by_cases he : (escapes x).isSome
    · rw [if_pos ⟨rfl, he⟩]
    · have hq : x ≠ quote := fun h => he (by rw [h]; decide)
      rw [if_neg fun h => he h.2, stringEnd_other hx hq, Option.map_map]
      rfl
  | n + 2 => by
    have hmod : (n + 2) % 2 = n % 2 := by omega
    have hstep : stringEnd (List.replicate (n + 2) backslash ++ x :: rest) =
        (stringEnd (List.replicate n backslash ++ x :: rest)).map (· + 2) := by
      rw [replicate_succ, replicate_succ, cons_append, cons_append, stringEnd,
        if_neg (by decide), if_pos ⟨rfl, by decide⟩]
    rw [hstep, stringEnd_run hx rest n, hmod]
    split
    · rfl
    · rw [Option.map_map]
      rfl

theorem stringEnd_run_end : ∀ n, stringEnd (List.replicate n backslash) = none
  | 0 => rfl
  | 1 => rfl
  | n + 2 => by
    rw [replicate_succ, replicate_succ, stringEnd, if_neg (by decide), if_pos ⟨rfl, by decide⟩,
      stringEnd_run_end n]
    rfl

/-- **The scan ends at the right quote exactly where the first one that is not escaped has no backslash in
front.** By induction along the runs. -/
theorem quoteScan_iff (text : Text) : quoteScan false text = stringEnd text ↔ Closes 0 text := by
  induction text using runInduction with
  | hend n =>
    have hnone : quote ∉ List.replicate n backslash :=
      fun h => absurd (eq_of_mem_replicate h) (by decide)
    rw [quoteScan_none hnone, stringEnd_run_end]
    exact ⟨fun _ => closes_run_end n 0, fun _ => rfl⟩
  | hrun n x rest hx ih =>
    rw [quoteScan_run hx, stringEnd_run hx, closes_run hx, Nat.zero_add]
    by_cases hend : x = quote ∧ n % 2 = 0
    · rw [if_pos hend, if_pos hend]
      by_cases h0 : n = 0
      · rw [if_pos ⟨hend.1, h0, rfl⟩, h0]
        exact ⟨fun _ => rfl, fun _ => rfl⟩
      · -- what the scan finds lies behind this quote
        rw [if_neg fun h => h0 h.2.1]
        refine ⟨fun h => ?_, fun h => absurd h h0⟩
        obtain ⟨k, -, hk⟩ := map_eq_some_iff.mp h
        omega
    · rw [if_neg hend, if_neg hend, if_neg fun h => hend ⟨h.1, by rw [h.2.1]⟩, ← ih]
      exact ⟨fun h => map_injective (fun _ _ h => Nat.add_right_cancel h) h, fun h => by rw [h]⟩

end Close

/-- **The closing quote of a line**, for an opening one at index 9. -/
theorem closingQuote_iff {line : Text} (hopen : line.getD 9 0 = quote) :
    closingQuote line = (stringEnd (line.drop 10)).map (· + 10) ↔ Closes 0 (line.drop 10) := by
  have hfalse : escapedAt line 10 = false := by
    rw [escapedAt, hopen]
    decide
  rw [closingQuote, scanQuote_eq (by omega), hfalse, ← quoteScan_iff]
  exact ⟨fun h => map_injective (fun _ _ h => Nat.add_right_cancel h) h, fun h => by rw [h]⟩

/-! ## 7. Strings of patches -/

/-- **The strings are decoded from left to right** exactly where no letter of the map, other than the
backslash, stands behind an even number of backslashes that is not 0; and the scan ends a string at the
first quote that is not part of an escape exactly where this quote stands behind no backslash. -/
theorem strings_iff (text line : Text) : (escapeStringSequences text = decode text ↔ ¬Doubled 0 text) ∧
      (line.getD 9 0 = quote →
        (closingQuote line = (stringEnd (line.drop 10)).map (· + 10) ↔ Closes 0 (line.drop 10))) :=
  ⟨escapeStringSequences_iff text, closingQuote_iff⟩

/-- `01234567 "a\\n"` with one backslash: the string is `a`, a newline. -/
theorem strings_newline : escapeStringSequences [0x61, backslash, 0x6e] = decode [0x61, backslash, 0x6e] ∧
      closingQuote [0x30, 0x31, 0x32, 0x33, 0x34, 0x35, 0x36, 0x37, 0x20, quote, 0x61, backslash, 0x6e,
        quote] = some 13 := by
  constructor
  · exact (strings_iff _ []).1.mpr (by simp [Doubled, backslash])
  · exact (((strings_iff [] _).2 rfl).mpr (by simp [Closes, backslash, quote])).trans rfl

/-- **A doubled backslash and a letter**: `\\n` becomes a backslash and a newline, not a backslash and the
letter; and a string that ends with a doubled backslash has no end. -/
theorem doubled_backslash : ¬((∀ text, escapeStringSequences text = decode text) ∧
    ∀ line : Text, line.getD 9 0 = quote →
      closingQuote line = (stringEnd (line.drop 10)).map (· + 10)) := by
  intro h
  exact absurd (h.1 [backslash, backslash, 0x6e]) (by decide)

end IPSwitchCompiler

end Yuzu.FileSys
