/-
  File:      Yuzu/FileSys/PathNormalForm.lean
  Subject:   What PathNormalizer computes: the stack of the components of a path.

  The loop is shown to end like a machine over the components (`walk`), errors included. A path that
  starts with a backslash and has a parent reference with one gets a second separator in front: the
  machine then starts with `lead`, and the first parent reference that goes above the root takes it away.
-/
import Mathlib
import Yuzu.FileSys.PathNormalizer

namespace Yuzu.FileSys

open Checked Function List

namespace PathNormalizer

/-! ## 1. What is claimed -/

/-- The rest of a path whose parent references have forward separators; `out` stands at the place of
`prev`. -/
def rewriteFrom (prev out : UInt8) (src : List UInt8) : List UInt8 :=
  match src with
  | [] => [out]
  | c :: rest =>
    if isSeparator prev ∧ c = dot ∧ rest.getD 0 nullTerminator = dot ∧
        isSeparator (rest.getD 1 nullTerminator) then
      directorySeparator :: dot :: dot ::
        rewriteFrom (rest.getD 1 nullTerminator) directorySeparator (rest.drop 2)
    else if prev = alternateDirectorySeparator ∧ c = dot ∧ rest.getD 0 nullTerminator = dot ∧
        rest.getD 1 nullTerminator = nullTerminator then [directorySeparator, dot, dot]
    else out :: rewriteFrom c c rest
termination_by src.length

/-- The path with forward separators at the parent references that have backslashes. -/
def rewritten (path : List UInt8) : List UInt8 :=
  if isParentDirectoryPathReplacementNeeded path then
    rewriteFrom (path.getD 0 nullTerminator) directorySeparator (path.drop 1)
  else path

/-- The components of a path that are not empty. -/
def components (path : List UInt8) : List (List UInt8) :=
  (path.splitOn directorySeparator).filter (· ≠ [])

/-- A component comes to the stack: the steps above the root so far, and the stack with its top first. -/
def push (r : Nat × List (List UInt8)) (c : List UInt8) : Nat × List (List UInt8) :=
  if c = [dot] then r
  else if c = [dot, dot] then
    match r.2 with
    | [] => (r.1 + 1, [])
    | _ :: rest => (r.1, rest)
  else (r.1, c :: r.2)

/-- **The stack of a path**: the steps above the root, and the components that are left. -/
def resolve (path : List UInt8) : Nat × List (List UInt8) := (components path).foldl push (0, [])

/-- A separator in front of each component, or the root. -/
def render (stack : List (List UInt8)) : List UInt8 :=
  if stack = [] then [directorySeparator] else stack.reverse.flatMap (directorySeparator :: ·)

/-- **The normal form is computed safely**: no write leaves its buffer, no assertion fails, and on success
the path does not go above the root, if it is no Windows path, and the output is its stack. -/
def NormalizesRight (o : Options) (path : List UInt8) (dst buffer : Memory) : Prop :=
  Safe (fun r => (o.isWindowsPath ∨ (resolve (rewritten path)).1 = 0) ∧
    cString o.maxOutSize r.1 = render (resolve (rewritten path)).2 ∧
    r.2 = (render (resolve (rewritten path)).2).length) (normalize o path dst buffer)

/-- A path that starts with a backslash, is relative to a drive, and has a parent reference with one. -/
def DoublesSeparator (path : List UInt8) (isDriveRelativePath : Bool) : Prop :=
  isDriveRelativePath = true ∧ path.getD 0 nullTerminator = alternateDirectorySeparator ∧
    isParentDirectoryPathReplacementNeeded path = true

/-- The second separator does no harm: the path ends at the root, or goes above it where that is allowed,
or so often that it is refused. -/
def Harmless (path : List UInt8) (isWindowsPath : Bool) : Prop :=
  if isWindowsPath then 0 < (resolve (rewritten path)).1 ∨ (resolve (rewritten path)).2 = []
  else 1 < (resolve (rewritten path)).1 ∨
    (resolve (rewritten path)).1 = 0 ∧ (resolve (rewritten path)).2 = []

/-! ## 2. Buffers -/

/-- The buffer holds a text. -/
def Holds (dst : Memory) (text : List UInt8) : Prop := ∀ k < text.length, dst k = text.getD k 0

section Buffers

variable {dst : Memory} {text : List UInt8} {size i : Nat} {c : UInt8}

theorem store_of_lt {ε : Type} (h : i < size) :
    (store size dst i c : Checked ε Memory) = .ok (update dst i c) := by
  rw [store, inBuffer_of h]
  rfl

theorem storeReplacement_of_lt (h : i < size) : storeReplacement size dst i c = .ok (update dst i c) := by
  rw [storeReplacement, assertThat_of h]
  rfl

theorem Holds.congr {dst' : Memory} (h : Holds dst text) (hd : ∀ k < text.length, dst' k = dst k) :
    Holds dst' text := fun k hk => (hd k hk).trans (h k hk)

theorem Holds.left {l l' : List UInt8} (h : Holds dst (l ++ l')) : Holds dst l := fun k hk => by
  rw [h k (by rw [length_append]; omega), getD_append _ _ _ _ hk]

theorem Holds.push (h : Holds dst text) (c : UInt8) : Holds (update dst text.length c) (text ++ [c]) := by
  intro k hk
  rw [length_append, length_singleton] at hk
  by_cases hlast : k = text.length
  · rw [hlast, update_self, getD_append_right _ _ _ _ (Nat.le_refl _), Nat.sub_self]
    rfl
  · rw [update_of_ne hlast, h k (by omega), getD_append _ _ _ _ (by omega)]

theorem storeAll_of_le {ε : Type} :
    ∀ {l text : List UInt8} {dst : Memory}, Holds dst text → text.length + l.length ≤ size →
      ∃ dst', (storeAll size dst text.length l : Checked ε Memory) = .ok dst' ∧ Holds dst' (text ++ l)
  | [], text, dst, h, _ => ⟨dst, rfl, by rwa [append_nil]⟩
  | c :: l, text, dst, h, hle => by
    rw [length_cons] at hle
    obtain ⟨dst', hrun, hholds⟩ := storeAll_of_le (l := l) (h.push c) (by
      rw [length_append, length_singleton]
      omega)
    refine ⟨dst', ?_, by rwa [append_assoc] at hholds⟩
    rw [storeAll, store_of_lt (by omega), value_bind]
    rwa [length_append, length_singleton] at hrun

/-- The string of a buffer that holds a text with a terminator. -/
theorem cString_eq (h : Holds dst text) (hend : dst text.length = nullTerminator) (hlt : text.length < size)
    (hne : ∀ c ∈ text, c ≠ nullTerminator) : cString size dst = text := by
  have hsplit : (List.range size).map dst = text ++ nullTerminator ::
      (List.range' (text.length + 1) (size - (text.length + 1))).map dst := by
    have hrange : List.range size = List.range' 0 text.length ++
        (text.length :: List.range' (text.length + 1) (size - (text.length + 1))) := by
      rw [range_eq_range', ← range'_succ,
        show size - (text.length + 1) + 1 = size - text.length by omega]
      have happ : List.range' 0 text.length ++ List.range' (0 + text.length) (size - text.length) =
          List.range' 0 (text.length + (size - text.length)) := range'_append_1
      rw [Nat.zero_add] at happ
      rw [happ]
      congr 1
      omega
    rw [hrange, map_append, map_cons, hend]
    congr 1
    refine ext_getElem (by rw [length_map, length_range']) fun k h1 h2 => ?_
    rw [getElem_map, getElem_range', Nat.one_mul, Nat.zero_add, h k h2, getD_eq_getElem _ _ h2]
  rw [cString, hsplit, takeWhile_append_of_pos fun c hc => decide_eq_true (hne c hc),
    takeWhile_cons_of_neg (by simp), append_nil]

end Buffers

/-! ## 3. Components -/

variable {c : UInt8}

theorem components_nil : components [] = [] := rfl

theorem components_separator (path : List UInt8) :
    components (directorySeparator :: path) = components path := by
  rfl

/-- What follows a component. -/
def Behind (tail : List UInt8) : Prop := tail = [] ∨ tail.getD 0 nullTerminator = directorySeparator

theorem Behind.cases {tail : List UInt8} (h : Behind tail) :
    tail = [] ∨ ∃ rest, tail = directorySeparator :: rest := by
  cases tail with
  | nil => exact .inl rfl
  | cons c rest =>
    rcases h with h | h
    · cases h
    · exact .inr ⟨rest, by rw [getD_cons_zero] at h; rw [h]⟩

theorem components_append {component tail : List UInt8} (hne : component ≠ [])
    (hsep : directorySeparator ∉ component) (htail : Behind tail) :
    components (component ++ tail) = component :: components tail := by
  have hone : component.splitOn directorySeparator = [component] := splitOn_eq_singleton hsep
  have hkeep : [component].filter (· ≠ []) = [component] := filter_cons_of_pos (by simpa using hne)
  rcases htail.cases with rfl | ⟨rest, rfl⟩
  · rw [append_nil, components, hone, hkeep]
    rfl
  · rw [components_separator, components, splitOn_append_cons_self, hone, filter_append, hkeep]
    rfl

theorem components_swallow (path : List UInt8) : components (swallow path) = components path := by
  induction path with
  | nil => rfl
  | cons c rest ih =>
    rw [swallow]
    split
    · rename_i h
      rw [ih, h, components_separator]
    · rfl

theorem length_swallow_le (path : List UInt8) : (swallow path).length ≤ path.length := by
  induction path with
  | nil => exact Nat.le_refl 0
  | cons c rest ih =>
    rw [swallow]
    split
    · rw [length_cons]
      omega
    · exact Nat.le_refl _

theorem swallow_subset (path : List UInt8) : ∀ c ∈ swallow path, c ∈ path := by
  induction path with
  | nil => exact fun c h => h
  | cons d rest ih =>
    rw [swallow]
    split
    · exact fun c h => mem_cons_of_mem d (ih c h)
    · exact fun c h => h

theorem swallow_cons_ne {path rest : List UInt8} (h : swallow path = c :: rest) :
    c ≠ directorySeparator := by
  induction path with
  | nil => cases h
  | cons d path ih =>
    rw [swallow] at h
    split at h
    · exact ih h
    · rename_i hd
      obtain ⟨rfl, -⟩ := cons.inj h
      exact hd

/-- A component of a path: it is not empty and has no separators and no terminator. -/
structure IsComponent (component : List UInt8) : Prop where
  ne_nil : component ≠ []
  no_separator : directorySeparator ∉ component
  no_terminator : nullTerminator ∉ component

variable {rest : List UInt8}

theorem split_component (hc : c ≠ directorySeparator) (hzero : nullTerminator ∉ c :: rest) :
    ∃ component tail, c :: rest = component ++ tail ∧ IsComponent component ∧ Behind tail := by
  refine ⟨(c :: rest).takeWhile (· ≠ directorySeparator), (c :: rest).dropWhile (· ≠ directorySeparator),
    (takeWhile_append_dropWhile).symm, ⟨?_, fun h => ?_, fun h => ?_⟩, ?_⟩
  · rw [takeWhile_cons_of_pos (by simpa using hc)]
    exact cons_ne_nil _ _
  · exact absurd (mem_takeWhile_imp h) (by simp)
  · exact hzero ((List.takeWhile_prefix _).subset h)
  · cases hdrop : (c :: rest).dropWhile (· ≠ directorySeparator) with
    | nil => exact .inl rfl
    | cons d tail =>
      have hd := head_dropWhile_not (fun x : UInt8 => decide (x ≠ directorySeparator))
        (by rw [hdrop]; exact cons_ne_nil _ _)
      simp only [hdrop, head_cons] at hd
      exact .inr (by simpa using hd)

/-! ## 4. The machine over the components -/

/-- What is kept of the components so far: whether there is a second separator in front, and the stack. -/
structure Kept where
  lead : Bool
  stack : List (List UInt8)

/-- The output of what is kept, with an open separator or without. -/
def Kept.text (k : Kept) (opened : Bool) : List UInt8 :=
  (if k.lead then [directorySeparator] else []) ++ k.stack.reverse.flatMap (directorySeparator :: ·) ++
    if opened then [directorySeparator] else []

/-- A component comes behind an open separator: what is kept then, and whether the separator stays open. -/
def enter (o : Options) (component : List UInt8) (k : Kept) : Checked PathResult (Kept × Bool) := do
  resultUnless (o.allowAllCharacters ∨ ∀ c ∈ component, ¬o.invalid c) .invalidCharacter
  if component = [dot] then return (k, true)
  else if component = [dot, dot] then
    match k.stack with
    | [] => do
      resultUnless (k.lead ∨ o.isWindowsPath) .directoryUnobtainable
      return (⟨false, []⟩, false)
    | _ :: rest => return (⟨k.lead, rest⟩, false)
  else do
    resultUnless ((k.text true).length + component.length + 1 ≤ o.maxOutSize) .tooLongPath
    return (⟨k.lead, component :: k.stack⟩, false)

/-- The components one after another, each with its separator. -/
def walk (o : Options) : List (List UInt8) → Kept → Bool → Checked PathResult (Kept × Bool)
  | [], k, opened => return (k, opened)
  | component :: rest, k, opened => do
    resultUnless (opened ∨ (k.text false).length + 1 ≠ o.maxOutSize) .tooLongPath
    let r ← enter o component k
    walk o rest r.1 r.2

/-- The output of the loop holds what is kept, with room for the terminator. -/
structure Shows (o : Options) (s : Output) (k : Kept) (opened : Bool) : Prop where
  holds : Holds s.dst (k.text opened)
  totalLen : s.totalLen = (k.text opened).length
  room : s.totalLen + 1 ≤ o.maxOutSize

variable {o : Options} {s : Output} {k : Kept} {opened : Bool} {component tail : List UInt8}

theorem Kept.text_open (k : Kept) : k.text true = k.text false ++ [directorySeparator] := by
  rw [text, text, if_pos rfl, if_neg Bool.false_ne_true, append_nil]

theorem Kept.text_push (k : Kept) (component : List UInt8) :
    (⟨k.lead, component :: k.stack⟩ : Kept).text false = k.text true ++ component := by
  rw [text, text, reverse_cons, flatMap_append, flatMap_singleton, if_neg Bool.false_ne_true,
    if_pos rfl, append_nil, append_assoc, append_assoc]
  rfl

/-- The length of a component, or the error of a character in it. -/
theorem dirLength_eq (hsep : directorySeparator ∉ component) (htail : Behind tail) :
    dirLength o (component ++ tail) =
      (resultUnless (o.allowAllCharacters ∨ ∀ c ∈ component, ¬o.invalid c) .invalidCharacter >>= fun _ =>
        .ok component.length) := by
  induction component with
  | nil =>
    rw [resultUnless_of (.inr fun c hc => absurd hc not_mem_nil), value_bind, nil_append]
    rcases htail.cases with rfl | ⟨rest, rfl⟩
    · rfl
    · rw [dirLength, if_pos rfl]
      rfl
  | cons c component ih =>
    rw [mem_cons, not_or] at hsep
    rw [cons_append, dirLength, if_neg (Ne.symm hsep.1), ih hsep.2]
    by_cases hc : o.allowAllCharacters ∨ ¬o.invalid c
    · rw [resultUnless_of hc, value_bind]
      by_cases hrest : o.allowAllCharacters ∨ ∀ c ∈ component, ¬o.invalid c
      · have hall : o.allowAllCharacters ∨ ∀ d ∈ c :: component, ¬o.invalid d := by
          rcases hc with hc | hc
          · exact .inl hc
          · rcases hrest with hrest | hrest
            · exact .inl hrest
            · exact .inr (forall_mem_cons.mpr ⟨hc, hrest⟩)
        rw [resultUnless_of hrest, resultUnless_of hall, value_bind, value_bind]
        rfl
      · have hall : ¬(o.allowAllCharacters ∨ ∀ d ∈ c :: component, ¬o.invalid d) := fun h =>
          hrest (h.imp_right fun h d hd => h d (mem_cons_of_mem c hd))
        rw [resultUnless_of_not hrest, resultUnless_of_not hall]
        rfl
    · have hall : ¬(o.allowAllCharacters ∨ ∀ d ∈ c :: component, ¬o.invalid d) := fun h =>
        hc (h.imp_right fun h => h c mem_cons_self)
      rw [resultUnless_of_not hc, resultUnless_of_not hall]
      rfl

theorem isCurrentDirectory_eq (h : IsComponent component) (htail : Behind tail) :
    isCurrentDirectory (component ++ tail) = decide (component = [dot]) := by
  obtain ⟨hne, hsep, hzero⟩ := h
  rw [isCurrentDirectory]
  match component, hne with
  | [c], _ =>
    rcases htail.cases with rfl | ⟨rest, rfl⟩ <;> simp
  | c :: d :: rest, _ =>
    have hd : d ≠ directorySeparator := fun e => hsep (by simp [e])
    have hd' : d ≠ nullTerminator := fun e => hzero (by simp [e])
    simp [hd, hd']

theorem isParentDirectory_eq (h : IsComponent component) (htail : Behind tail) :
    isParentDirectory (component ++ tail) = decide (component = [dot, dot]) := by
  obtain ⟨hne, hsep, hzero⟩ := h
  rw [isParentDirectory]
  match component, hne with
  | [c], _ =>
    rcases htail.cases with rfl | ⟨rest, rfl⟩
    · simp [nullTerminator, dot]
    · simp [directorySeparator, dot]
  | [c, d], _ =>
    rcases htail.cases with rfl | ⟨rest, rfl⟩ <;> simp
  | c :: d :: e :: rest, _ =>
    have he : e ≠ directorySeparator := fun h => hsep (by simp [h])
    have he' : e ≠ nullTerminator := fun h => hzero (by simp [h])
    simp [he, he']

/-! ## 5. A turn of the loop -/

theorem walkBack_eq {dst : Memory} {start : Nat} (hstart : dst start = directorySeparator) :
    ∀ {n : Nat}, start ≤ n → (∀ j, start < j → j ≤ n → dst j ≠ directorySeparator) →
      walkBack dst n = .ok start
  | 0, hle, _ => by
    obtain rfl : start = 0 := by omega
    rw [walkBack, assertThat_of hstart]
    rfl
  | n + 1, hle, hno => by
    rw [walkBack]
    by_cases he : start = n + 1
    · rw [← he, if_pos hstart]
      rfl
    · rw [if_neg (hno (n + 1) (by omega) (Nat.le_refl _))]
      by_cases hn : n = 0
      · rw [if_pos hn]
        obtain rfl : start = 0 := by omega
        rfl
      · rw [if_neg hn]
        exact walkBack_eq hstart (by omega) fun j h1 h2 => hno j h1 (by omega)

theorem Kept.text_head (k : Kept) : ∃ rest, k.text true = directorySeparator :: rest := by
  rw [text]
  cases k.lead with
  | true => exact ⟨_, rfl⟩
  | false =>
    cases k.stack.reverse with
    | nil => exact ⟨_, rfl⟩
    | cons component rest => exact ⟨_, rfl⟩

theorem Shows.open_bytes (h : Shows o s k true) :
    0 < s.totalLen ∧ s.dst (s.totalLen - 1) = directorySeparator ∧ s.dst 0 = directorySeparator := by
  obtain ⟨rest, hhead⟩ := k.text_head
  have hlen : s.totalLen = (k.text false).length + 1 := by
    rw [h.totalLen, Kept.text_open, length_append, length_singleton]
  refine ⟨by omega, ?_, ?_⟩
  · rw [h.holds _ (by rw [← h.totalLen]; omega), Kept.text_open, hlen, Nat.add_sub_cancel,
      getD_append_right _ _ _ _ (Nat.le_refl _), Nat.sub_self]
    rfl
  · rw [h.holds 0 (by rw [← h.totalLen]; omega), hhead]
    rfl

/-- **A parent reference takes the top of the stack away.** -/
theorem removeComponent_push (hc : IsComponent component) {lead : Bool} {stack : List (List UInt8)}
    (h : Shows o s ⟨lead, component :: stack⟩ true) :
    ∃ s', removeComponent o s = .ok s' ∧ Shows o s' ⟨lead, stack⟩ false ∧
      s'.skipNextSep = s.skipNextSep := by
  obtain ⟨hpos, hlast, hfirst⟩ := h.open_bytes
  -- the text is that of the rest, a separator, the component and a separator
  have htext : (⟨lead, component :: stack⟩ : Kept).text true =
      (⟨lead, stack⟩ : Kept).text false ++ (directorySeparator :: (component ++ [directorySeparator])) := by
    rw [Kept.text_open, Kept.text_push ⟨lead, stack⟩, Kept.text_open, append_assoc, append_assoc]
    rfl
  have hholds := h.holds
  have htotal := h.totalLen
  rw [htext] at hholds
  rw [htext, length_append, length_cons, length_append, length_singleton] at htotal
  have hbytes : ∀ j < component.length + 2, s.dst (((⟨lead, stack⟩ : Kept).text false).length + j) =
      (directorySeparator :: (component ++ [directorySeparator])).getD j 0 := fun j hj => by
    rw [hholds _ (by simp only [length_append, length_cons, length_nil]; omega),
      getD_append_right _ _ _ _ (by omega), Nat.add_sub_cancel_left]
  have hstart := hbytes 0 (by omega)
  have hwalk : walkBack s.dst (s.totalLen - 2) = .ok ((⟨lead, stack⟩ : Kept).text false).length := by
    refine walkBack_eq (by simpa using hstart) (by omega) fun j h1 h2 he => ?_
    obtain ⟨i, rfl⟩ := Nat.exists_eq_add_of_lt h1
    have hi : i < component.length := by omega
    have hbyte := hbytes (i + 1) (by omega)
    rw [getD_cons_succ, getD_append _ _ _ _ hi, getD_eq_getElem _ _ hi, ← Nat.add_assoc, he] at hbyte
    exact hc.no_separator (hbyte ▸ getElem_mem hi)
  refine ⟨{ s with totalLen := ((⟨lead, stack⟩ : Kept).text false).length }, ?_,
    ⟨hholds.left, rfl, ?_⟩, rfl⟩
  · rw [removeComponent, assertThat_of ⟨hpos, hlast⟩, value_bind, assertThat_of (.inr hfirst), value_bind,
      lengthWithout, if_neg (by omega), hwalk, value_bind, assertThat_of (.inr (by simpa using hstart)),
      value_bind, assertThat_of (by have := h.room; omega), value_bind]
    rfl
  · have := h.room
    dsimp only
    omega

/-- **A parent reference at the root**: it takes the second separator away, or needs a Windows path. -/
theorem removeComponent_root {lead : Bool} (h : Shows o s ⟨lead, []⟩ true) :
    Alike (fun s' k' => Shows o s' k' false ∧ s'.skipNextSep = s.skipNextSep) (removeComponent o s)
      (resultUnless (lead ∨ o.isWindowsPath) .directoryUnobtainable >>= fun _ => .ok ⟨false, []⟩) := by
  obtain ⟨hpos, hlast, hfirst⟩ := h.open_bytes
  have hroom := h.room
  have hshows : Shows o { s with totalLen := 0 } ⟨false, []⟩ false :=
    ⟨fun k hk => absurd hk (Nat.not_lt_zero k), rfl, by dsimp only; omega⟩
  rw [removeComponent, assertThat_of ⟨hpos, hlast⟩, value_bind, assertThat_of (.inr hfirst), value_bind,
    lengthWithout]
  cases lead with
  | true =>
    have htotal : s.totalLen = 2 := h.totalLen
    rw [if_neg (by omega), htotal, walkBack, assertThat_of hfirst, resultUnless_of (.inl rfl), value_bind,
      value_bind]
    change Alike _ (Checked.assertThat _ >>= _) _
    rw [assertThat_of (.inr hfirst), value_bind, assertThat_of (by omega), value_bind]
    exact ⟨hshows, rfl⟩
  | false =>
    have htotal : s.totalLen = 1 := h.totalLen
    rw [if_pos htotal]
    by_cases hwindows : o.isWindowsPath = true
    · rw [resultUnless_of hwindows, resultUnless_of (.inr hwindows), value_bind, value_bind]
      change Alike _ (Checked.assertThat _ >>= _) _
      rw [assertThat_of (.inl hwindows), value_bind, assertThat_of (by omega), value_bind]
      exact ⟨hshows, rfl⟩
    · rw [resultUnless_of_not hwindows, resultUnless_of_not (by simpa using hwindows)]
      rfl

theorem copyComponent_push (h : Shows o s k true) :
    Alike (fun s' k' => Shows o s' k' false ∧ s'.skipNextSep = s.skipNextSep) (copyComponent o component s)
      (resultUnless ((k.text true).length + component.length + 1 ≤ o.maxOutSize) .tooLongPath >>= fun _ =>
        .ok ⟨k.lead, component :: k.stack⟩) := by
  have hroom := h.room
  have htotal := h.totalLen
  rw [copyComponent]
  by_cases hfits : (k.text true).length + component.length + 1 ≤ o.maxOutSize
  · rw [resultUnless_of hfits, if_neg (by omega), htotal]
    obtain ⟨dst', hrun, hholds⟩ := storeAll_of_le (l := component) h.holds
      (show (k.text true).length + component.length ≤ o.maxOutSize by omega)
    rw [hrun, value_bind, value_bind]
    refine ⟨⟨by rwa [Kept.text_push], ?_, hfits⟩, rfl⟩
    rw [Kept.text_push, length_append]
  · rw [resultUnless_of_not hfits, if_pos (by omega), htotal]
    have hcopied : (component.take (o.maxOutSize - ((k.text true).length + 1))).length =
        o.maxOutSize - ((k.text true).length + 1) := by
      rw [length_take]
      omega
    obtain ⟨dst', hrun, -⟩ := storeAll_of_le
      (l := component.take (o.maxOutSize - ((k.text true).length + 1))) h.holds
      (show (k.text true).length + _ ≤ o.maxOutSize by rw [hcopied]; omega)
    dsimp only
    rw [hrun, value_bind, hcopied, tooLong, store_of_lt (by omega)]
    rfl

theorem writeSeparator_open (h : Shows o s k s.skipNextSep) :
    Alike (fun s' _ => Shows o s' k true ∧ s'.skipNextSep = false) (writeSeparator o s)
      (resultUnless (s.skipNextSep ∨ (k.text false).length + 1 ≠ o.maxOutSize) .tooLongPath) := by
  have hroom := h.room
  have htotal := h.totalLen
  rw [writeSeparator]
  cases hskip : s.skipNextSep with
  | true =>
    rw [hskip] at h
    exact ⟨⟨h.holds, h.totalLen, h.room⟩, rfl⟩
  | false =>
    rw [hskip] at h htotal
    by_cases hfull : s.totalLen + 1 = o.maxOutSize
    · rw [if_pos hfull, resultUnless_of_not (by rw [← htotal]; simpa using hfull), tooLong,
        store_of_lt (by omega)]
      rfl
    · rw [if_neg hfull, resultUnless_of (.inr (by rwa [← htotal])), store_of_lt (by omega), value_bind]
      refine ⟨⟨?_, ?_, ?_⟩, rfl⟩
      · rw [Kept.text_open]
        rw [htotal]
        exact h.holds.push _
      · rw [Kept.text_open, length_append, ← htotal]
        rfl
      · dsimp only
        omega

/-! ## 6. The loop -/

/-- What is left of the path, and what is kept. -/
def After (o : Options) (tail : List UInt8) (r : List UInt8 × Output) (k : Kept × Bool) : Prop :=
  r.1 = tail ∧ Shows o r.2 k.1 k.2 ∧ r.2.skipNextSep = k.2

/-- **A component behind an open separator.** -/
theorem component_enter (hc : IsComponent component) (htail : Behind tail) (h : Shows o s k true)
    (hskip : s.skipNextSep = false) (hstack : ∀ c ∈ k.stack, IsComponent c) :
    Alike (After o tail) (PathNormalizer.component o (component ++ tail) s) (enter o component k) := by
  rw [PathNormalizer.component, dirLength_eq hc.no_separator htail, bind_assoc, enter]
  refine Alike.resultUnless fun _ => ?_
  rw [value_bind, handleComponent, isCurrentDirectory_eq hc htail, isParentDirectory_eq hc htail,
    drop_left, take_left]
  by_cases hcurrent : component = [dot]
  · rw [if_pos (decide_eq_true hcurrent), if_pos hcurrent]
    exact ⟨rfl, ⟨h.holds, h.totalLen, h.room⟩, rfl⟩
  · rw [if_neg (by simpa using hcurrent), if_neg hcurrent]
    by_cases hparent : component = [dot, dot]
    · rw [if_pos (decide_eq_true hparent), if_pos hparent]
      obtain ⟨lead, stack⟩ := k
      cases stack with
      | nil =>
        have hroot : Alike (After o tail) (removeComponent o s >>= fun s' => .ok (tail, s'))
            ((resultUnless (lead ∨ o.isWindowsPath) .directoryUnobtainable >>= fun _ =>
              .ok ⟨false, []⟩) >>= fun k' =>
              .ok (k', false)) :=
          (removeComponent_root h).bind fun s' k' hs => ⟨rfl, hs.1, hs.2.trans hskip⟩
        rwa [bind_assoc] at hroot
      | cons top stack =>
        obtain ⟨s', hrun, hshows, hsame⟩ := removeComponent_push (hstack top mem_cons_self) h
        rw [hrun, value_bind]
        exact ⟨rfl, hshows, hsame.trans hskip⟩
    · rw [if_neg (by simpa using hparent), if_neg hparent]
      have hcopy : Alike (After o tail) (copyComponent o component s >>= fun s' => .ok (tail, s'))
          ((resultUnless ((k.text true).length + component.length + 1 ≤ o.maxOutSize)
              .tooLongPath >>= fun _ =>
            .ok ⟨k.lead, component :: k.stack⟩) >>= fun k' => .ok (k', false)) :=
        (copyComponent_push h).bind fun s' k' hs => ⟨rfl, hs.1, hs.2.trans hskip⟩
      rwa [bind_assoc] at hcopy

/-- What is kept stays a stack of components, none of them a reference. -/
structure Proper (o : Options) (component : List UInt8) : Prop extends IsComponent component where
  ne_dot : component ≠ [dot]
  ne_dots : component ≠ [dot, dot]
  valid : o.allowAllCharacters ∨ ∀ c ∈ component, ¬o.invalid c

/-- **What a component does to what is kept**, when it is taken. -/
theorem enter_ok {r : Kept × Bool} (hrun : enter o component k = .ok r) :
    (o.allowAllCharacters ∨ ∀ c ∈ component, ¬o.invalid c) ∧ ((component = [dot] ∧ r = (k, true)) ∨
        (component = [dot, dot] ∧ r.2 = false ∧
          ((k.stack = [] ∧ (k.lead ∨ o.isWindowsPath) ∧ r.1 = ⟨false, []⟩) ∨
            ∃ top, k.stack = top :: r.1.stack ∧ r.1.lead = k.lead)) ∨
        (component ≠ [dot] ∧ component ≠ [dot, dot] ∧ r = (⟨k.lead, component :: k.stack⟩, false))) := by
  rw [enter] at hrun
  by_cases hvalid : o.allowAllCharacters ∨ ∀ c ∈ component, ¬o.invalid c
  · refine ⟨hvalid, ?_⟩
    rw [resultUnless_of hvalid, value_bind] at hrun
    by_cases hcurrent : component = [dot]
    · rw [if_pos hcurrent] at hrun
      exact .inl ⟨hcurrent, (Except.ok.inj hrun).symm⟩
    · rw [if_neg hcurrent] at hrun
      by_cases hparent : component = [dot, dot]
      · rw [if_pos hparent] at hrun
        refine .inr (.inl ⟨hparent, ?_⟩)
        obtain ⟨lead, stack⟩ := k
        cases stack with
        | nil =>
          by_cases hroot : lead ∨ o.isWindowsPath
          · rw [resultUnless_of hroot, value_bind] at hrun
            obtain rfl := Except.ok.inj hrun
            exact ⟨rfl, .inl ⟨rfl, hroot, rfl⟩⟩
          · rw [resultUnless_of_not hroot] at hrun
            cases hrun
        | cons top stack =>
          obtain rfl := Except.ok.inj hrun
          exact ⟨rfl, .inr ⟨top, rfl, rfl⟩⟩
      · rw [if_neg hparent] at hrun
        by_cases hfits : (k.text true).length + component.length + 1 ≤ o.maxOutSize
        · rw [resultUnless_of hfits, value_bind] at hrun
          exact .inr (.inr ⟨hcurrent, hparent, (Except.ok.inj hrun).symm⟩)
        · rw [resultUnless_of_not hfits] at hrun
          cases hrun
  · rw [resultUnless_of_not hvalid] at hrun
    cases hrun

theorem enter_proper {r : Kept × Bool} (hc : IsComponent component) (hstack : ∀ c ∈ k.stack, Proper o c)
    (hrun : enter o component k = .ok r) : ∀ c ∈ r.1.stack, Proper o c := by
  obtain ⟨hvalid, ⟨-, rfl⟩ | ⟨-, -, ⟨-, -, h⟩ | ⟨top, h, -⟩⟩ | ⟨h1, h2, rfl⟩⟩ := enter_ok hrun
  · exact hstack
  · rw [h]
    exact fun c hc => absurd hc not_mem_nil
  · exact fun c hc => hstack c (by rw [h]; exact mem_cons_of_mem top hc)
  · intro c hmem
    rcases mem_cons.mp hmem with rfl | hmem
    · exact ⟨hc, h1, h2, hvalid⟩
    · exact hstack c hmem

variable {path : List UInt8}

/-- **A turn of the loop at a separator**, where a component follows. -/
theorem turn_separator (hswallow : swallow (directorySeparator :: path) = component ++ tail)
    (hc : IsComponent component) (htail : Behind tail) (h : Shows o s k s.skipNextSep)
    (hstack : ∀ c ∈ k.stack, IsComponent c) :
    Alike (After o tail) (turn o (directorySeparator :: path) s)
      (resultUnless (s.skipNextSep ∨ (k.text false).length + 1 ≠ o.maxOutSize) .tooLongPath >>= fun _ =>
        enter o component k) := by
  have hne : component ++ tail ≠ [] := fun he => hc.ne_nil (append_eq_nil_iff.mp he).1
  rw [turn, getD_cons_zero, if_pos rfl, hswallow, if_neg hne]
  exact (writeSeparator_open h).bind fun s' _ hs => component_enter hc htail hs.1 hs.2 hstack

/-- **The loop ends like the machine**, at the end of a path or at a separator, by induction on the turns
that are left. -/
theorem normalizeLoop_walk {fuel : Nat} (hfuel : path.length ≤ fuel) (hpath : Behind path)
    (hzero : nullTerminator ∉ path) (h : Shows o s k s.skipNextSep) (hstack : ∀ c ∈ k.stack, Proper o c) :
    Alike (fun s' r => Shows o s' r.1 r.2 ∧ s'.skipNextSep = r.2 ∧ ∀ c ∈ r.1.stack, Proper o c)
      (normalizeLoop o fuel path s) (walk o (components path) k s.skipNextSep) := by
  induction fuel generalizing path s k with
  | zero =>
    obtain rfl : path = [] := eq_nil_of_length_eq_zero (by omega)
    exact ⟨h, rfl, hstack⟩
  | succ fuel ih =>
    rcases hpath.cases with rfl | ⟨rest, rfl⟩
    · exact ⟨h, rfl, hstack⟩
    · rw [normalizeLoop, components_separator, ← components_swallow]
      cases hswallow : swallow rest with
      | nil =>
        -- only separators are left
        have hend : swallow (directorySeparator :: rest) = [] := by rw [swallow, if_pos rfl, hswallow]
        rw [turn, getD_cons_zero, if_pos rfl, if_pos hend]
        cases fuel <;> exact ⟨h, rfl, hstack⟩
      | cons c left =>
        have hzero' : nullTerminator ∉ c :: left := fun hm =>
          hzero (mem_cons_of_mem _ (swallow_subset rest _ (by rw [hswallow]; exact hm)))
        obtain ⟨component, tail, hsplit, hc, htail⟩ := split_component (swallow_cons_ne hswallow) hzero'
        have hlen : tail.length < fuel + 1 := by
          have h1 := length_swallow_le rest
          rw [hswallow, hsplit, length_append] at h1
          rw [length_cons] at hfuel
          omega
        have hswallow' : swallow (directorySeparator :: rest) = component ++ tail := by
          rw [swallow, if_pos rfl, hswallow, hsplit]
        have hturn := turn_separator hswallow' hc htail h fun c hc => (hstack c hc).toIsComponent
        rw [hsplit, components_append hc.ne_nil hc.no_separator htail, walk]
        rw [← bind_assoc]
        have hproper : ∀ r, (resultUnless (s.skipNextSep ∨ (k.text false).length + 1 ≠ o.maxOutSize)
                .tooLongPath >>= fun _ =>
              enter o component k) = .ok r → ∀ c ∈ r.1.stack, Proper o c := fun r hr =>
          enter_proper hc hstack (check_bind_eq_ok hr).2
        refine (hturn.and_right hproper).bind fun r k' hr => ?_
        obtain ⟨⟨htail', hshows, hskip⟩, hstack'⟩ := hr
        rw [htail', ← hskip]
        refine ih (by omega) htail (fun hm => hzero' ?_) (by rwa [hskip]) hstack'
        rw [hsplit]
        exact mem_append_right _ hm

/-- **The loop on a path that starts with no separator**, behind the one that was written in front. -/
theorem normalizeLoop_relative (hne : path ≠ []) (hsep : path.getD 0 nullTerminator ≠ directorySeparator)
    (hzero : nullTerminator ∉ path) (h : Shows o s k true) (hskip : s.skipNextSep = false)
    (hstack : ∀ c ∈ k.stack, Proper o c) :
    Alike (fun s' r => Shows o s' r.1 r.2 ∧ s'.skipNextSep = r.2 ∧ ∀ c ∈ r.1.stack, Proper o c)
      (normalizeLoop o path.length path s) (walk o (components path) k true) := by
  obtain ⟨c, rest, rfl⟩ := exists_cons_of_ne_nil hne
  rw [getD_cons_zero] at hsep
  obtain ⟨component, tail, hsplit, hc, htail⟩ := split_component hsep hzero
  rw [length_cons, normalizeLoop, turn, getD_cons_zero, if_neg hsep, hsplit,
    components_append hc.ne_nil hc.no_separator htail, walk, resultUnless_of (.inl rfl), value_bind]
  have henter := component_enter hc htail h hskip fun c hc => (hstack c hc).toIsComponent
  refine (henter.and_right fun r hr => enter_proper hc hstack hr).bind fun r k' hr => ?_
  obtain ⟨⟨htail', hshows, hskip'⟩, hstack'⟩ := hr
  have hlen := congrArg List.length hsplit
  have hpos : 0 < component.length := length_pos_iff.mpr hc.ne_nil
  rw [length_cons, length_append] at hlen
  rw [htail', ← hskip']
  refine normalizeLoop_walk (by omega) htail (fun hm => hzero ?_) (by rwa [hskip']) hstack'
  rw [hsplit]
  exact mem_append_right _ hm

/-! ## 7. What the machine keeps -/

theorem le_foldl_push (cs : List (List UInt8)) (r : Nat × List (List UInt8)) :
    r.1 ≤ (cs.foldl push r).1 := by
  induction cs generalizing r with
  | nil => exact Nat.le_refl _
  | cons c cs ih =>
    refine Nat.le_trans ?_ (ih (push r c))
    rw [push]
    split
    · exact Nat.le_refl _
    · split
      · split
        · exact Nat.le_succ _
        · exact Nat.le_refl _
      · exact Nat.le_refl _

theorem push_dot (r : Nat × List (List UInt8)) : push r [dot] = r := if_pos rfl

theorem push_dots_nil (ups : Nat) : push (ups, []) [dot, dot] = (ups + 1, []) := rfl

theorem push_dots_cons (ups : Nat) (top : List UInt8) (stack : List (List UInt8)) :
    push (ups, top :: stack) [dot, dot] = (ups, stack) := rfl

theorem push_proper {c : List UInt8} (h1 : c ≠ [dot]) (h2 : c ≠ [dot, dot]) (r : Nat × List (List UInt8)) :
    push r c = (r.1, c :: r.2) := by
  rw [push, if_neg h1, if_neg h2]

/-- **The machine keeps the stack of the components**; the first step above the root takes the second
separator away, and each other one needs a Windows path. -/
theorem walk_ok {cs : List (List UInt8)} {r : Kept × Bool} {ups : Nat} (hrun : walk o cs k opened = .ok r) :
    r.1.stack = (cs.foldl push (ups, k.stack)).2 ∧
      r.1.lead = (k.lead && decide ((cs.foldl push (ups, k.stack)).1 = ups)) ∧
      (o.isWindowsPath ∨ (cs.foldl push (ups, k.stack)).1 ≤ ups + if k.lead then 1 else 0) := by
  induction cs generalizing k opened ups with
  | nil =>
    obtain rfl := Except.ok.inj hrun
    exact ⟨rfl, by simp, .inr (Nat.le_add_right _ _)⟩
  | cons c cs ih =>
    obtain ⟨k', henter, hrest⟩ := bind_eq_ok (check_bind_eq_ok hrun).2
    rw [foldl_cons]
    obtain ⟨-, ⟨rfl, rfl⟩ | ⟨rfl, -, ⟨hnil, hroot, hk⟩ | ⟨top, htop, hlead⟩⟩ | ⟨h1, h2, rfl⟩⟩ :=
      enter_ok henter
    · rw [push_dot]
      exact ih hrest
    · -- a step above the root
      obtain ⟨hstack, hlead, hups⟩ := @ih k'.1 k'.2 (ups + 1) hrest
      have hle := le_foldl_push cs (ups + 1, [])
      rw [hk] at hstack hlead hups
      rw [hnil, push_dots_nil]
      refine ⟨hstack, ?_, ?_⟩
      · rw [hlead, Bool.false_and, decide_eq_false (by dsimp only at hle ⊢; omega), Bool.and_false]
      · rcases hroot with hroot | hroot
        · rw [if_pos hroot]
          exact hups.imp_right id
        · exact .inl hroot
    · rw [htop, push_dots_cons, ← hlead]
      exact ih hrest
    · rw [push_proper h1 h2]
      exact ih hrest

theorem walk_safe (cs : List (List UInt8)) (k : Kept) (opened : Bool) :
    Safe (fun _ => True) (walk o cs k opened) := by
  induction cs generalizing k opened with
  | nil => exact trivial
  | cons c cs ih =>
    suffices henter : Safe (fun _ => True) (enter o c k) from
      Safe.resultUnless fun _ => henter.bind fun r _ => ih r.1 r.2
    refine Safe.resultUnless fun _ => ?_
    split
    · exact trivial
    · split
      · split
        · exact Safe.resultUnless fun _ => trivial
        · exact trivial
      · exact Safe.resultUnless fun _ => trivial

/-- **With room and all characters allowed**, the machine only stops at a step above the root. -/
theorem walk_roomy (hall : o.allowAllCharacters = true) {cs : List (List UInt8)} {ups : Nat}
    (hroom : (k.text true).length + (cs.map (·.length + 1)).sum + 2 ≤ o.maxOutSize)
    (hups : o.isWindowsPath ∨ (cs.foldl push (ups, k.stack)).1 ≤ ups + if k.lead then 1 else 0) :
    ∃ r, walk o cs k opened = .ok r := by
  induction cs generalizing k opened ups with
  | nil => exact ⟨_, rfl⟩
  | cons c cs ih =>
    rw [map_cons, sum_cons] at hroom
    rw [foldl_cons] at hups
    have hopen : (k.text true).length = (k.text false).length + 1 := by
      rw [Kept.text_open, length_append, length_singleton]
    rw [walk, resultUnless_of (.inr (by omega)), value_bind, enter, resultUnless_of (.inl hall), value_bind]
    by_cases hcurrent : c = [dot]
    · rw [if_pos hcurrent]
      rw [hcurrent, push_dot] at hups
      exact @ih k true ups (by omega) hups
    · rw [if_neg hcurrent]
      by_cases hparent : c = [dot, dot]
      · rw [if_pos hparent]
        rw [hparent] at hups
        obtain ⟨lead, stack⟩ := k
        cases stack with
        | nil =>
          rw [push_dots_nil] at hups
          have hroot : lead ∨ o.isWindowsPath := by
            have hle := le_foldl_push cs (ups + 1, [])
            rcases hups with hups | hups
            · exact .inr hups
            · refine .inl (by_contra fun hlead => ?_)
              rw [if_neg hlead] at hups
              omega
          rw [resultUnless_of hroot, value_bind]
          refine @ih ⟨false, []⟩ false (ups + 1) ?_ ?_
          · change 1 + _ + 2 ≤ _
            omega
          · refine hups.imp_right fun h => Nat.le_trans h ?_
            split <;> omega
        | cons top stack =>
          have hlen : ((⟨lead, top :: stack⟩ : Kept).text true).length =
              ((⟨lead, stack⟩ : Kept).text true).length + top.length + 1 := by
            rw [Kept.text_open, length_append, Kept.text_push ⟨lead, stack⟩, length_append]
            rfl
          exact @ih ⟨lead, stack⟩ false ups (by omega) hups
      · rw [if_neg hparent, resultUnless_of (by omega), value_bind]
        rw [push_proper hcurrent hparent] at hups
        have hlen :
            ((⟨k.lead, c :: k.stack⟩ : Kept).text true).length = (k.text true).length + c.length + 1 := by
          rw [Kept.text_open, length_append, Kept.text_push, length_append]
          rfl
        exact @ih ⟨k.lead, c :: k.stack⟩ false ups (by omega) hups

/-! ## 8. What comes behind the loop -/

theorem not_invalid_separator (o : Options) : ¬o.invalid directorySeparator := by
  rw [Options.invalid, isInvalidCharacter, if_pos (by decide)]
  decide

theorem isNormalizedFrom_normal {l rest : List UInt8} (hsep : directorySeparator ∉ l)
    (hvalid : o.allowAllCharacters ∨ ∀ c ∈ l, ¬o.invalid c) :
    isNormalizedFrom o.invalid o.allowAllCharacters .normal (l ++ rest) =
      isNormalizedFrom o.invalid o.allowAllCharacters .normal rest := by
  induction l with
  | nil => rfl
  | cons c l ih =>
    rw [mem_cons, not_or] at hsep
    rw [cons_append, isNormalizedFrom,
      resultUnless_of (hvalid.imp_right fun h => h c mem_cons_self), value_bind,
      if_neg (Ne.symm hsep.1)]
    exact ih hsep.2 (hvalid.imp_right fun h d hd => h d (mem_cons_of_mem c hd))

/-- The parse of a component that is no reference. -/
theorem isNormalizedFrom_component {state : PathState}
    (hstate : state = .firstSeparator ∨ state = .separator)
    (hc : Proper o component) :
    isNormalizedFrom o.invalid o.allowAllCharacters state (component ++ rest) =
      isNormalizedFrom o.invalid o.allowAllCharacters .normal rest := by
  obtain ⟨⟨hne, hsep, -⟩, hdot, hdots, hvalid⟩ := hc
  obtain ⟨c, l, rfl⟩ := exists_cons_of_ne_nil hne
  have hfirst : isNormalizedFrom o.invalid o.allowAllCharacters state (c :: (l ++ rest)) =
      isNormalizedFrom o.invalid o.allowAllCharacters (if c = dot then .currentDir else .normal)
        (l ++ rest) := by
    have hcsep : ¬c = directorySeparator := fun e => hsep (by simp [e])
    have hcvalid := hvalid.imp_right fun h => h c mem_cons_self
    rcases hstate with rfl | rfl <;>
    rw [isNormalizedFrom, resultUnless_of hcvalid, value_bind, if_neg hcsep]
  have hlsep : directorySeparator ∉ l := fun h => hsep (mem_cons_of_mem c h)
  have hlvalid := hvalid.imp_right fun h d (hd : d ∈ l) => h d (mem_cons_of_mem c hd)
  rw [cons_append, hfirst]
  by_cases hc : c = dot
  · -- a dot, and more behind it
    rw [if_pos hc]
    obtain ⟨d, l, rfl⟩ := exists_cons_of_ne_nil (show l ≠ [] from fun e => hdot (by rw [e, hc]))
    have hdsep : ¬d = directorySeparator := fun e => hlsep (by simp [e])
    have hdvalid := hlvalid.imp_right fun h => h d mem_cons_self
    rw [cons_append, isNormalizedFrom, resultUnless_of hdvalid, value_bind, if_neg hdsep]
    have hlsep' : directorySeparator ∉ l := fun h => hlsep (mem_cons_of_mem d h)
    have hlvalid' := hlvalid.imp_right fun h e (he : e ∈ l) => h e (mem_cons_of_mem d he)
    by_cases hd : d = dot
    · rw [if_pos hd]
      obtain ⟨e, l, rfl⟩ := exists_cons_of_ne_nil (show l ≠ [] from fun e => hdots (by rw [e, hc, hd]))
      have hesep : ¬e = directorySeparator := fun h => hlsep' (by simp [h])
      have hevalid := hlvalid'.imp_right fun h => h e mem_cons_self
      rw [cons_append, isNormalizedFrom, resultUnless_of hevalid, value_bind, if_neg hesep]
      exact isNormalizedFrom_normal (fun h => hlsep' (mem_cons_of_mem e h))
        (hlvalid'.imp_right fun h x hx => h x (mem_cons_of_mem e hx))
    · rw [if_neg hd]
      exact isNormalizedFrom_normal hlsep' hlvalid'
  · rw [if_neg hc]
    exact isNormalizedFrom_normal hlsep hlvalid

theorem isNormalizedFrom_components {cs : List (List UInt8)} (hcs : ∀ c ∈ cs, Proper o c) :
    isNormalizedFrom o.invalid o.allowAllCharacters .normal (cs.flatMap (directorySeparator :: ·)) =
      .ok true := by
  induction cs with
  | nil => rfl
  | cons c cs ih =>
    rw [flatMap_cons, cons_append, isNormalizedFrom,
      resultUnless_of (.inr (not_invalid_separator o)), value_bind,
      if_pos rfl, isNormalizedFrom_component (.inr rfl) (hcs c mem_cons_self)]
    exact ih fun d hd => hcs d (mem_cons_of_mem c hd)

/-- **The output of a stack is normalized.** -/
theorem isNormalizedFrom_render {stack : List (List UInt8)} (hstack : ∀ c ∈ stack, Proper o c) :
    isNormalizedFrom o.invalid o.allowAllCharacters .start (render stack) = .ok true := by
  rw [render]
  split
  · rfl
  · rename_i hne
    have hreverse : ∀ c ∈ stack.reverse, Proper o c := fun c hc => hstack c (mem_reverse.mp hc)
    obtain ⟨c, cs, he⟩ := exists_cons_of_ne_nil (fun e => hne (reverse_eq_nil_iff.mp e))
    rw [he] at hreverse ⊢
    rw [flatMap_cons, cons_append, isNormalizedFrom, resultUnless_of rfl, value_bind,
      isNormalizedFrom_component (.inl rfl) (hreverse c mem_cons_self)]
    exact isNormalizedFrom_components fun d hd => hreverse d (mem_cons_of_mem c hd)

theorem isNormalizedFrom_double (rest : List UInt8) : isNormalizedFrom o.invalid o.allowAllCharacters .start
      (directorySeparator :: directorySeparator :: rest) = .ok false := by
  rw [isNormalizedFrom, resultUnless_of rfl, value_bind, isNormalizedFrom,
    resultUnless_of (.inr (not_invalid_separator o)), value_bind, if_pos rfl]
  rfl

/-- **The end of the output**: the text, or the root, with its terminator; then the parse. -/
theorem finish_eq {text : List UInt8} (hholds : Holds s.dst text)
    (hlen : (if s.skipNextSep then s.totalLen - 1 else s.totalLen) = text.length)
    (hskip : s.skipNextSep = true → 0 < s.totalLen) (hroom : text.length + 1 ≤ o.maxOutSize)
    (hmax : 2 ≤ o.maxOutSize) (hzero : nullTerminator ∉ text) :
    ∃ dst, cString o.maxOutSize dst = (if text = [] then [directorySeparator] else text) ∧
      finish o s = (isNormalizedFrom o.invalid o.allowAllCharacters .start
        (if text = [] then [directorySeparator] else text) >>= fun isNormalized =>
          Checked.assertThat (isNormalized = true) >>= fun _ =>
            .ok (dst, (if text = [] then [directorySeparator] else text).length)) := by
  -- the text that is terminated
  have hroot : ∃ dst, orRoot o s.dst text.length =
      .ok (dst, (if text = [] then [directorySeparator] else text).length) ∧
        Holds dst (if text = [] then [directorySeparator] else text) := by
    rw [orRoot]
    by_cases hnil : text = []
    · rw [if_pos hnil, if_pos ⟨by rw [hnil]; rfl, by omega⟩, store_of_lt (by omega), value_bind]
      refine ⟨_, rfl, fun k hk => ?_⟩
      obtain rfl : k = 0 := by rw [length_singleton] at hk; omega
      exact update_self 0 _ _
    · rw [if_neg hnil, if_neg fun h => hnil (eq_nil_of_length_eq_zero h.1)]
      exact ⟨_, rfl, hholds⟩
  have hzero' : ∀ c ∈ (if text = [] then [directorySeparator] else text), c ≠ nullTerminator := by
    split
    · intro c hc
      rw [mem_singleton.mp hc]
      decide
    · exact fun c hc e => hzero (e ▸ hc)
  have hroom' : (if text = [] then [directorySeparator] else text).length + 1 ≤ o.maxOutSize := by
    split
    · exact hmax
    · exact hroom
  obtain ⟨dst, hrun, hholds'⟩ := hroot
  generalize (if text = [] then [directorySeparator] else text) = out at *
  have hstring : cString o.maxOutSize (update dst out.length nullTerminator) = out :=
    cString_eq (hholds'.congr fun k hk => update_of_ne (by omega) _ _) (update_self _ _ _) (by omega) hzero'
  refine ⟨update dst out.length nullTerminator, hstring, ?_⟩
  rw [finish, assertThat_of hskip, value_bind, hlen, hrun, value_bind, resultUnless_of (by dsimp only; omega),
    value_bind, store_of_lt (by dsimp only; omega), value_bind, hstring]
  rfl

theorem Kept.no_terminator (hstack : ∀ c ∈ k.stack, Proper o c) : nullTerminator ∉ k.text false := by
  rw [text, if_neg Bool.false_ne_true, append_nil, mem_append, not_or]
  constructor
  · split
    · decide
    · exact not_mem_nil
  · intro h
    obtain ⟨c, hc, hmem⟩ := mem_flatMap.mp h
    rcases mem_cons.mp hmem with he | hmem
    · exact absurd he (by decide)
    · exact (hstack c (mem_reverse.mp hc)).no_terminator hmem

theorem Kept.text_or_root (k : Kept) : (if k.text false = [] then [directorySeparator] else k.text false) =
    if k.lead ∧ k.stack ≠ [] then directorySeparator :: render k.stack else render k.stack := by
  obtain ⟨lead, stack⟩ := k
  rw [text, if_neg Bool.false_ne_true, append_nil, render]
  cases stack with
  | nil => cases lead <;> rfl
  | cons c stack =>
    have hne : (c :: stack).reverse.flatMap (directorySeparator :: ·) ≠ [] := by
      rw [reverse_cons, flatMap_append, flatMap_singleton]
      exact fun h => absurd (append_eq_nil_iff.mp h).2 (cons_ne_nil _ _)
    rw [if_neg fun h => hne (append_eq_nil_iff.mp h).2, if_neg (cons_ne_nil c stack)]
    cases lead with
    | true => rw [if_pos rfl, if_pos ⟨rfl, cons_ne_nil c stack⟩]; rfl
    | false => rw [if_neg Bool.false_ne_true, if_neg fun h => Bool.false_ne_true h.1, nil_append]

/-- **The end of the run**: the output is the stack, unless there is a second separator in front of one. -/
theorem finish_shows {r : Kept × Bool} (h : Shows o s r.1 r.2) (hskip : s.skipNextSep = r.2)
    (hstack : ∀ c ∈ r.1.stack, Proper o c) (hmax : 2 ≤ o.maxOutSize) :
    (¬(r.1.lead ∧ r.1.stack ≠ []) → ∃ dst, finish o s = .ok (dst, (render r.1.stack).length) ∧
      cString o.maxOutSize dst = render r.1.stack) ∧
    (r.1.lead ∧ r.1.stack ≠ [] → finish o s = .error .assertion) := by
  obtain ⟨k, opened⟩ := r
  have htotal := h.totalLen
  have hroom := h.room
  have hholds : Holds s.dst (k.text false) := by
    cases opened with
    | false => exact h.holds
    | true =>
      have := h.holds
      rw [Kept.text_open] at this
      exact this.left
  have hopen : (k.text true).length = (k.text false).length + 1 := by
    rw [Kept.text_open, length_append, length_singleton]
  have hlen : (if s.skipNextSep then s.totalLen - 1 else s.totalLen) = (k.text false).length := by
    rw [hskip, htotal]
    cases opened with
    | false => rfl
    | true => rw [if_pos rfl, hopen, Nat.add_sub_cancel]
  have hpos : s.skipNextSep = true → 0 < s.totalLen := fun he => by
    rw [hskip] at he
    rw [htotal, he, hopen]
    omega
  have hfits : (k.text false).length + 1 ≤ o.maxOutSize := by
    rw [← hlen]
    split <;> omega
  obtain ⟨dst, hstring, hrun⟩ := finish_eq hholds hlen hpos hfits hmax (Kept.no_terminator hstack)
  rw [Kept.text_or_root] at hstring hrun
  constructor
  · intro hno
    rw [if_neg hno] at hstring hrun
    rw [hrun, isNormalizedFrom_render hstack, value_bind, assertThat_of rfl, value_bind]
    exact ⟨dst, rfl, hstring⟩
  · intro hdouble
    rw [if_pos hdouble] at hrun
    have hrender : ∃ rest, render k.stack = directorySeparator :: rest := by
      rw [render, if_neg hdouble.2]
      obtain ⟨c, cs, he⟩ := exists_cons_of_ne_nil (fun e => hdouble.2 (reverse_eq_nil_iff.mp e))
      rw [he]
      exact ⟨_, rfl⟩
    obtain ⟨rest, hrest⟩ := hrender
    rw [hrun, hrest, isNormalizedFrom_double]
    rfl

/-! ## 9. The replacement buffer -/

section Replacement

variable {prev out : UInt8} {src : List UInt8}

theorem two_more (h : rest.getD 0 nullTerminator = dot)
    (h' : isSeparator (rest.getD 1 nullTerminator)) : ∃ e rest', rest = dot :: e :: rest' := by
  match rest with
  | [] => exact absurd h (by decide)
  | [d] => cases h'
  | d :: e :: rest' =>
    rw [getD_cons_zero] at h
    exact ⟨e, rest', by rw [h]⟩

theorem one_more (h : rest.getD 0 nullTerminator = dot)
    (h' : rest.getD 1 nullTerminator = nullTerminator) (hzero : nullTerminator ∉ rest) : rest = [dot] := by
  match rest with
  | [] => exact absurd h (by decide)
  | [d] =>
    rw [getD_cons_zero] at h
    rw [h]
  | d :: e :: rest' =>
    rw [getD_cons_succ, getD_cons_zero] at h'
    exact absurd (by simp [h']) hzero

theorem length_rewriteFrom (hzero : nullTerminator ∉ src) :
    (rewriteFrom prev out src).length = src.length + 1 := by
  induction prev, out, src using rewriteFrom.induct with
  | case1 => rw [rewriteFrom]; rfl
  | case2 prev out c rest h ih =>
    obtain ⟨e, rest', rfl⟩ := two_more h.2.2.1 h.2.2.2
    rw [rewriteFrom, if_pos h]
    have := ih fun hm => hzero (by simpa using .inr (.inr (.inr hm)))
    simpa using this
  | case3 prev out c rest h h' =>
    obtain rfl := one_more h'.2.2.1 h'.2.2.2 fun hm => hzero (mem_cons_of_mem c hm)
    rw [rewriteFrom, if_neg h, if_pos h']
    rfl
  | case4 prev out c rest h h' ih =>
    rw [rewriteFrom, if_neg h, if_neg h', length_cons, ih fun hm => hzero (mem_cons_of_mem c hm),
      length_cons]

theorem rewriteFrom_no_terminator (hzero : nullTerminator ∉ src) (hout : out ≠ nullTerminator) :
    nullTerminator ∉ rewriteFrom prev out src := by
  have hrefs : nullTerminator ∉ [directorySeparator, dot, dot] := by decide
  induction prev, out, src using rewriteFrom.induct with
  | case1 =>
    rw [rewriteFrom, mem_singleton]
    exact Ne.symm hout
  | case2 prev out c rest h ih =>
    obtain ⟨e, rest', rfl⟩ := two_more h.2.2.1 h.2.2.2
    rw [rewriteFrom, if_pos h]
    have := ih (fun hm => hzero (by simpa using .inr (.inr (.inr hm)))) (by decide)
    simpa [nullTerminator, directorySeparator, dot] using this
  | case3 prev out c rest h h' =>
    rw [rewriteFrom, if_neg h, if_pos h']
    exact hrefs
  | case4 prev out c rest h h' ih =>
    rw [mem_cons, not_or] at hzero
    rw [rewriteFrom, if_neg h, if_neg h', mem_cons, not_or]
    exact ⟨Ne.symm hout, ih hzero.2 (Ne.symm hzero.1)⟩

theorem rewriteFrom_head (prev : UInt8) (src : List UInt8) :
    ∃ rest, rewriteFrom prev directorySeparator src = directorySeparator :: rest := by
  cases src with
  | nil => exact ⟨[], by rw [rewriteFrom]⟩
  | cons c rest =>
    rw [rewriteFrom]
    split
    · exact ⟨_, rfl⟩
    · split
      · exact ⟨_, rfl⟩
      · exact ⟨_, rfl⟩

/-- **The replacement is written**, and its terminator, inside of the buffer. -/
theorem replaceLoop_eq (size : Nat) (prev : UInt8) {text : List UInt8} {dst : Memory}
    (hzero : nullTerminator ∉ src)
    (hholds : Holds dst (text ++ [out])) (hsize : text.length + 1 + src.length < size) :
    ∃ dst', replaceLoop size prev src (text.length + 1) dst = .ok dst' ∧
      Holds dst' (text ++ rewriteFrom prev out src) ∧
      dst' (text.length + (src.length + 1)) = nullTerminator := by
  induction prev, out, src using rewriteFrom.induct generalizing text dst with
  | case1 =>
    have hlt : text.length + 1 < size := hsize
    rw [replaceLoop, rewriteFrom, storeReplacement_of_lt hlt]
    refine ⟨_, rfl, hholds.congr fun k hk => update_of_ne ?_ _ _, update_self _ _ _⟩
    rw [length_append, length_singleton] at hk
    omega
  | case2 prev out c rest h ih =>
    obtain ⟨e, rest', rfl⟩ := two_more h.2.2.1 h.2.2.2
    rw [length_cons, length_cons, length_cons] at hsize
    have h1 := hholds.left.push directorySeparator
    have h2 := h1.push dot
    have h3 := h2.push dot
    have h4 := h3.push directorySeparator
    simp only [length_append, length_singleton] at h2 h3 h4
    have hlen : (text ++ [directorySeparator] ++ [dot] ++ [dot]).length = text.length + 3 := by
      simp only [length_append, length_singleton]
    obtain ⟨dst', hrun, hholds', hend⟩ := ih (fun hm => hzero (by simpa using .inr (.inr (.inr hm)))) h4
      (by rw [hlen]; simp only [drop_succ_cons, drop_zero]; omega)
    refine ⟨dst', ?_, ?_, ?_⟩
    · rw [replaceLoop, if_pos h, Nat.add_sub_cancel, storeReplacement_of_lt (by omega), value_bind,
        storeReplacement_of_lt (by omega),
        value_bind, storeReplacement_of_lt (by omega), value_bind, storeReplacement_of_lt (by omega), value_bind]
      rw [hlen] at hrun
      exact hrun
    · rw [rewriteFrom, if_pos h]
      simpa using hholds'
    · rw [hlen] at hend
      rw [← hend]
      simp only [drop_succ_cons, drop_zero, length_cons]
      congr 1
      omega
  | case3 prev out c rest h h' =>
    obtain rfl := one_more h'.2.2.1 h'.2.2.2 fun hm => hzero (mem_cons_of_mem c hm)
    rw [length_cons, length_singleton] at hsize
    have h1 := hholds.left.push directorySeparator
    have h2 := h1.push dot
    have h3 := h2.push dot
    refine ⟨update (update (update (update dst text.length directorySeparator) (text.length + 1) dot)
      (text.length + 1 + 1) dot) (text.length + 1 + 2) nullTerminator, ?_, ?_, ?_⟩
    · rw [replaceLoop, if_neg h, if_pos h', Nat.add_sub_cancel, storeReplacement_of_lt (by omega), value_bind,
        storeReplacement_of_lt (by omega), value_bind, storeReplacement_of_lt (by omega), value_bind,
        storeReplacement_of_lt (by omega)]
    · rw [rewriteFrom, if_neg h, if_pos h']
      refine Holds.congr (by simpa using h3) fun k hk => update_of_ne ?_ _ _
      simp only [length_append, length_cons, length_nil] at hk
      omega
    · exact update_self _ _ _
  | case4 prev out c rest h h' ih =>
    rw [length_cons] at hsize
    have hpush := hholds.push c
    have hlen : (text ++ [out]).length = text.length + 1 := by
      rw [length_append, length_singleton]
    obtain ⟨dst', hrun, hholds', hend⟩ := ih (fun hm => hzero (mem_cons_of_mem c hm)) hpush
      (by rw [hlen]; omega)
    rw [hlen] at hrun hend
    refine ⟨dst', ?_, ?_, ?_⟩
    · rw [replaceLoop, if_neg h, if_neg h', storeReplacement_of_lt (by omega), value_bind]
      exact hrun
    · rw [rewriteFrom, if_neg h, if_neg h']
      rwa [append_assoc] at hholds'
    · rw [← hend, length_cons]
      congr 1
      omega

end Replacement

/-- **The path that the loop reads** is the one with forward separators. -/
theorem replaced_eq (hzero : nullTerminator ∉ path) (hlen : path.length ≤ entryNameLengthMax)
    (buffer : Memory) : replaced path buffer = .ok (rewritten path) := by
  rw [replaced, rewritten]
  by_cases hneeded : isParentDirectoryPathReplacementNeeded path
  · rw [if_pos hneeded, if_pos hneeded]
    cases path with
    | nil => cases hneeded
    | cons c rest =>
      have hzero' : nullTerminator ∉ rest := fun hm => hzero (mem_cons_of_mem c hm)
      rw [length_cons] at hlen
      have hstart : Holds (update buffer 0 directorySeparator) ([] ++ [directorySeparator]) :=
        fun k hk => by
        obtain rfl : k = 0 := by
          rw [nil_append, length_singleton] at hk
          omega
        exact update_self 0 _ _
      obtain ⟨dst, hrun, hholds, hend⟩ := replaceLoop_eq (entryNameLengthMax + 1) c hzero' hstart
        (by rw [length_nil]; omega)
      rw [length_nil, Nat.zero_add] at hrun hend
      have hstring : cString (entryNameLengthMax + 1) dst = rewriteFrom c directorySeparator rest := by
        refine cString_eq hholds ?_ ?_ fun d hd e => ?_
        · rw [length_rewriteFrom hzero']
          exact hend
        · rw [length_rewriteFrom hzero']
          omega
        · exact rewriteFrom_no_terminator hzero' (by decide) (e ▸ hd)
      rw [replaceParentDirectoryPath, storeReplacement_of_lt (Nat.zero_lt_succ _), value_bind,
        getD_cons_zero, drop_one, tail_cons, hrun, value_bind, hstring]
      rfl
  · rw [if_neg hneeded, if_neg hneeded]
    rfl

theorem rewritten_no_terminator (hzero : nullTerminator ∉ path) : nullTerminator ∉ rewritten path := by
  rw [rewritten]
  split
  · exact rewriteFrom_no_terminator (fun hm => hzero (mem_of_mem_drop hm)) (by decide)
  · exact hzero

/-! ## 10. The run -/

section Run

variable {path : List UInt8} {dst buffer : Memory}

/-- The separator in front of the path is not the first of the output that is read. -/
def Leads (path : List UInt8) : Prop :=
  path = [] ∨ path.getD 0 nullTerminator = alternateDirectorySeparator ∧
    isParentDirectoryPathReplacementNeeded path = true

instance : Decidable (Leads path) := inferInstanceAs (Decidable (_ ∨ _ ∧ _))

/-- What the loop ends with. -/
def Ended (o : Options) (s : Output) (r : Kept × Bool) : Prop :=
  Shows o s r.1 r.2 ∧ s.skipNextSep = r.2 ∧ ∀ c ∈ r.1.stack, Proper o c

/-- **The run up to the end of the output** ends like the machine on the components. -/
theorem normalize_walk (hzero : nullTerminator ∉ path)
    (hreplaced : replaced path buffer = .ok (rewritten path))
    (hmax : 2 ≤ o.maxOutSize) (dst : Memory)
    (hstart : path.getD 0 nullTerminator = directorySeparator ∨ o.isDriveRelativePath = true) :
    ∃ loop opened, normalize o path dst buffer = (loop >>= finish o) ∧
      Alike (Ended o) loop (walk o (components (rewritten path)) ⟨Leads path, []⟩ opened) := by
  have hzero' := rewritten_no_terminator hzero
  have hproper : ∀ c ∈ ([] : List (List UInt8)), Proper o c := fun c hc => absurd hc not_mem_nil
  -- behind a replacement, the path starts with a separator
  have hneeded : isParentDirectoryPathReplacementNeeded path → Behind (rewritten path) := fun h => by
    obtain ⟨rest, he⟩ := rewriteFrom_head (path.getD 0 nullTerminator) (path.drop 1)
    rw [rewritten, if_pos h, he]
    exact .inr rfl
  by_cases hhead : path.getD 0 nullTerminator = directorySeparator
  · have hleads : ¬Leads path := by
      intro h
      rcases h with rfl | ⟨h, -⟩
      · exact absurd hhead (by decide)
      · rw [hhead] at h
        exact absurd h (by decide)
    have hbehind : Behind (rewritten path) := by
      by_cases h : isParentDirectoryPathReplacementNeeded path
      · exact hneeded h
      · rw [rewritten, if_neg h]
        exact .inr hhead
    refine ⟨_, false, ?_, normalizeLoop_walk (Nat.le_refl _) hbehind hzero'
      (s := { dst := dst, totalLen := 0, skipNextSep := false }) (k := ⟨Leads path, []⟩) ?_ hproper⟩
    · rw [normalize, startOutput, if_neg (not_not.mpr hhead), hreplaced]
      rfl
    · rw [decide_eq_false hleads]
      exact ⟨fun k hk => absurd hk (Nat.not_lt_zero k), rfl, by dsimp only; omega⟩
  · have hdrive := hstart.resolve_left hhead
    have hrun : normalize o path dst buffer = (normalizeLoop o (rewritten path).length (rewritten path)
          { dst := update dst 0 directorySeparator, totalLen := 1, skipNextSep := false } >>=
            finish o) := by
      rw [normalize, startOutput, if_pos hhead, resultUnless_of hdrive, value_bind, store_of_lt (by omega),
        hreplaced]
      rfl
    have hholds : Holds (update dst 0 directorySeparator) [directorySeparator] := fun k hk => by
      obtain rfl : k = 0 := by
        rw [length_singleton] at hk
        omega
      exact update_self 0 _ _
    by_cases hleads : Leads path
    · -- what was written in front is the second separator, or the root
      have hbehind : Behind (rewritten path) := by
        rcases hleads with rfl | ⟨-, h⟩
        · exact .inl rfl
        · exact hneeded h
      refine ⟨_, false, hrun,
        normalizeLoop_walk (Nat.le_refl _) hbehind hzero' (k := ⟨Leads path, []⟩) ?_ hproper⟩
      rw [decide_eq_true hleads]
      exact ⟨hholds, rfl, hmax⟩
    · have hnot : ¬isParentDirectoryPathReplacementNeeded path := fun h => by
        have hsep := h
        rw [isParentDirectoryPathReplacementNeeded, Bool.and_eq_true, isSeparator, Bool.or_eq_true,
          decide_eq_true_iff, decide_eq_true_iff] at hsep
        exact hleads (.inr ⟨hsep.1.resolve_left hhead, h⟩)
      have hsame : rewritten path = path := by rw [rewritten, if_neg hnot]
      rw [hsame] at hrun ⊢
      refine ⟨_, true, hrun, normalizeLoop_relative (fun h => hleads (.inl h)) hhead hzero
        (k := ⟨Leads path, []⟩) ?_ rfl hproper⟩
      rw [decide_eq_false hleads]
      exact ⟨hholds, rfl, hmax⟩

/-- What the machine ends with, in terms of the stack of the path. -/
def Resolves (o : Options) (path : List UInt8) (r : Kept × Bool) : Prop :=
  r.1.stack = (resolve (rewritten path)).2 ∧
    r.1.lead = (decide (Leads path) && decide ((resolve (rewritten path)).1 = 0)) ∧
    (o.isWindowsPath ∨ (resolve (rewritten path)).1 ≤ if Leads path then 1 else 0)

theorem walk_resolves {r : Kept × Bool}
    (hrun : walk o (components (rewritten path)) ⟨Leads path, []⟩ opened = .ok r) : Resolves o path r := by
  obtain ⟨hstack, hlead, hups⟩ := @walk_ok o _ opened _ r 0 hrun
  refine ⟨hstack, hlead, hups.imp_right fun h => ?_⟩
  simpa [resolve] using h

theorem normalize_absolute (hhead : path.getD 0 nullTerminator ≠ directorySeparator)
    (hdrive : ¬o.isDriveRelativePath = true) :
    normalize o path dst buffer = .error (.result .invalidPathFormat) := by
  rw [normalize, startOutput, if_pos hhead, resultUnless_of_not hdrive]
  rfl

/-- **The second separator is the only way to fail.** -/
theorem normalizesRight_of (hzero : nullTerminator ∉ path) (hlen : path.length ≤ entryNameLengthMax)
    (hmax : 2 ≤ o.maxOutSize) (dst buffer : Memory)
    (hharmless : DoublesSeparator path o.isDriveRelativePath → Harmless path o.isWindowsPath) :
    NormalizesRight o path dst buffer := by
  rw [NormalizesRight]
  by_cases hstart : path.getD 0 nullTerminator = directorySeparator ∨ o.isDriveRelativePath = true
  swap
  · rw [not_or] at hstart
    rw [normalize_absolute hstart.1 hstart.2]
    trivial
  obtain ⟨loop, opened, hrun, halike⟩ := normalize_walk hzero (replaced_eq hzero hlen buffer) hmax dst
    hstart
  rw [hrun]
  have hloop : Safe (fun s => ∃ r, Ended o s r ∧ Resolves o path r) loop :=
    halike.ends (Safe.of_ok (walk_safe _ _ _) fun r hr => walk_resolves hr) fun s r hs hr => ⟨r, hs, hr⟩
  refine hloop.bind fun s hs => ?_
  obtain ⟨r, ⟨hshows, hskip, hproper⟩, hstack, hlead, hups⟩ := hs
  -- no separator is left in front of a stack, and the root was not left
  have hgood : ¬(r.1.lead ∧ r.1.stack ≠ []) ∧ (o.isWindowsPath ∨ (resolve (rewritten path)).1 = 0) := by
    rw [hlead, hstack, Bool.and_eq_true, decide_eq_true_iff, decide_eq_true_iff]
    by_cases hleads : Leads path
    swap
    · rw [if_neg hleads] at hups
      exact ⟨fun h => hleads h.1.1, hups.imp_right Nat.le_zero.mp⟩
    rw [if_pos hleads] at hups
    rcases hleads with rfl | hdouble
    · exact ⟨fun h => h.2 rfl, .inr rfl⟩
    have hdrive : o.isDriveRelativePath = true := hstart.resolve_left fun h => by
      rw [h] at hdouble
      exact absurd hdouble.1 (by decide)
    have hharm := hharmless ⟨hdrive, hdouble⟩
    rw [Harmless] at hharm
    split at hharm
    · rename_i hwindows
      exact ⟨fun h => hharm.elim (fun hpos => by omega) h.2, .inl hwindows⟩
    · rename_i hwindows
      have hle := hups.resolve_left hwindows
      rcases hharm with h | ⟨hzero, hnil⟩
      · omega
      · exact ⟨fun h => h.2 hnil, .inr hzero⟩
  obtain ⟨out, hfinish, hstring⟩ := (finish_shows hshows hskip hproper hmax).1 hgood.1
  rw [hfinish]
  rw [hstack] at hstring ⊢
  exact ⟨hgood.2, hstring, rfl⟩

/-- Options that refuse no character and have room for a path. -/
def roomy (path : List UInt8) (windows drive : Bool) : Options where
  maxOutSize := ((components (rewritten path)).map (·.length + 1)).sum + 4
  isWindowsPath := windows
  isDriveRelativePath := drive
  allowAllCharacters := true
  outside _ := false

/-- **The second separator fails** where it does harm. -/
theorem not_normalizesRight {windows drive : Bool} (hzero : nullTerminator ∉ path)
    (hlen : path.length ≤ entryNameLengthMax) (hdouble : DoublesSeparator path drive)
    (hharm : ¬Harmless path windows) (dst buffer : Memory) :
    ¬NormalizesRight (roomy path windows drive) path dst buffer := by
  intro hright
  have hleads : Leads path := .inr hdouble.2
  have hmax : 2 ≤ (roomy path windows drive).maxOutSize := Nat.le_add_left _ _
  obtain ⟨loop, opened, hrun, halike⟩ :=
    normalize_walk hzero (replaced_eq hzero hlen buffer) hmax dst (.inr hdouble.1)
  -- the path goes above the root once, or not at all and leaves a stack
  have hcases : (windows ∨ (resolve (rewritten path)).1 ≤ 1) ∧
      ((resolve (rewritten path)).1 = 0 ∧ (resolve (rewritten path)).2 ≠ [] ∨
        ¬windows ∧ (resolve (rewritten path)).1 ≠ 0) := by
    rw [Harmless] at hharm
    cases windows with
    | true =>
      rw [if_pos rfl, not_or] at hharm
      exact ⟨.inl rfl, .inl ⟨by omega, hharm.2⟩⟩
    | false =>
      rw [if_neg Bool.false_ne_true, not_or, not_and] at hharm
      refine ⟨.inr (by omega), ?_⟩
      by_cases h : (resolve (rewritten path)).1 = 0
      · exact .inl ⟨h, hharm.2 h⟩
      · exact .inr ⟨Bool.false_ne_true, h⟩
  obtain ⟨r, hwalk⟩ : ∃ r,
      walk (roomy path windows drive) (components (rewritten path)) ⟨Leads path, []⟩ opened = .ok r := by
    refine @walk_roomy _ _ opened rfl _ 0 ?_ ?_
    · rw [decide_eq_true hleads]
      change 2 + _ + 2 ≤ _ + 4
      omega
    · refine hcases.1.imp_right fun h => ?_
      rw [decide_eq_true hleads]
      exact h
  rw [hwalk] at halike
  obtain ⟨s, hs, hshows, hskip, hproper⟩ := halike.of_ok
  obtain ⟨hstack, hlead, -⟩ := walk_resolves hwalk
  have hfinish := finish_shows hshows hskip hproper hmax
  rw [NormalizesRight, hrun, hs, value_bind] at hright
  rcases hcases.2 with ⟨hroot, hne⟩ | ⟨hwindows, habove⟩
  · have hlead' : r.1.lead = true := by
      rw [hlead, decide_eq_true hleads, decide_eq_true hroot]
      rfl
    rw [hfinish.2 ⟨hlead', by rwa [hstack]⟩] at hright
    exact hright
  · obtain ⟨out, hout, -⟩ := hfinish.1 fun h => by
      rw [hlead, decide_eq_false habove, Bool.and_false] at h
      exact Bool.false_ne_true h.1
    rw [hout] at hright
    exact hright.1.elim hwindows habove

end Run

/-- **The normal form is computed safely**, whatever the buffers and whether or not all characters are
allowed, exactly where no second separator comes in front of the path, or it does no harm. -/
theorem normalize_iff {path : List UInt8} (hzero : nullTerminator ∉ path)
    (hlen : path.length ≤ entryNameLengthMax) (windows drive : Bool) :
    (∀ (o : Options) (dst buffer : Memory), 2 ≤ o.maxOutSize → o.isWindowsPath = windows →
      o.isDriveRelativePath = drive → NormalizesRight o path dst buffer) ↔
        (DoublesSeparator path drive → Harmless path windows) := by
  constructor
  · intro hall hdouble
    by_contra hharm
    exact not_normalizesRight hzero hlen hdouble hharm (fun _ => 0) (fun _ => 0)
      (hall _ _ _ (Nat.le_add_left _ _) rfl rfl)
  · intro hharmless o dst buffer hmax hwindows hdrive
    subst hwindows hdrive
    exact normalizesRight_of hzero hlen hmax dst buffer hharmless

/-- Options of a path that is relative to a drive, with a buffer of sixteen bytes. -/
def driveRelative : Options where
  maxOutSize := 16
  isWindowsPath := false
  isDriveRelativePath := true
  allowAllCharacters := false
  outside _ := false

/-- `/a/./../b//c` has the normal form `/b/c`. -/
theorem normalize_slashes : NormalizesRight driveRelative
    [0x2f, 0x61, 0x2f, 0x2e, 0x2f, 0x2e, 0x2e, 0x2f, 0x62, 0x2f, 0x2f, 0x63] (fun _ => 0) (fun _ => 0) :=
  (normalize_iff (by decide) (by decide) false true).mpr (fun h => absurd h.2.1 (by decide)) driveRelative
    _ _ (by decide) rfl rfl

/-- **A leading backslash is doubled**: for `\a\..\b` the output is `//b`, and the last assertion fails. -/
theorem backslash_doubled : normalize driveRelative [0x5c, 0x61, 0x5c, 0x2e, 0x2e, 0x5c, 0x62] (fun _ => 0)
    (fun _ => 0) = .error .assertion ∧
    ¬NormalizesRight driveRelative [0x5c, 0x61, 0x5c, 0x2e, 0x2e, 0x5c, 0x62] (fun _ => 0)
      (fun _ => 0) := by
  have hreplaced : replaced [0x5c, 0x61, 0x5c, 0x2e, 0x2e, 0x5c, 0x62] (fun _ => 0) =
      .ok [0x2f, 0x61, 0x2f, 0x2e, 0x2e, 0x2f, 0x62] := by
    rw [replaced_eq (by decide) (by decide), rewritten, if_pos (by decide)]
    simp [rewriteFrom, isSeparator, directorySeparator, alternateDirectorySeparator, dot]
  have hrun : normalize driveRelative [0x5c, 0x61, 0x5c, 0x2e, 0x2e, 0x5c, 0x62] (fun _ => 0) (fun _ => 0) =
      .error .assertion := by
    rw [normalize, hreplaced]
    rfl
  refine ⟨hrun, fun h => ?_⟩
  rw [NormalizesRight, hrun] at h
  exact h

end PathNormalizer

end Yuzu.FileSys
