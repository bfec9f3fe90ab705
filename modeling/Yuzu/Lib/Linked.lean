/-
  File:      Yuzu/Lib/Linked.lean
  Subject:   Lists linked through an array of successors.

  `Linked next p L` says that following the links from `p` visits exactly the positions of `L`, in
  order, and then ends. A list without repetitions that is linked is acyclic.

  `Ring next prev L` is the doubly linked case with a root, which is the position `none`: at every
  cut of `L` the position before and the position after it are linked to each other. Inserting at a
  cut and taking a position out each change two links of the neighbours.
-/
import Mathlib.Data.List.Nodup

namespace Yuzu

open List Option

variable {ι : Type}

/-- From `p`, the links visit the positions of the list. -/
def Linked (next : ι → Option ι) : Option ι → List ι → Prop
  | p, [] => p = none
  | p, i :: L => p = some i ∧ Linked next (next i) L

namespace Linked

variable {next next' : ι → Option ι} {p : Option ι} {i : ι} {L : List ι}

theorem congr : ∀ {L : List ι} {p : Option ι}, Linked next p L → (∀ i ∈ L, next' i = next i) →
    Linked next' p L
  | [], _, h, _ => h
  | i :: L, _, h, hn => by
    refine ⟨h.1, ?_⟩
    rw [hn i mem_cons_self]
    exact h.2.congr fun j hj => hn j (mem_cons_of_mem i hj)

theorem pop (h : Linked next (some i) L) : ∃ L', L = i :: L' ∧ Linked next (next i) L' := by
  cases L with
  | nil => exact nomatch h
  | cons j L' =>
    obtain ⟨hj, hL⟩ := h
    cases hj
    exact ⟨L', rfl, hL⟩

theorem push (h : Linked next p L) (hi : i ∉ L) (hp : next' i = p)
    (hn : ∀ j, j ≠ i → next' j = next j) : Linked next' (some i) (i :: L) := by
  refine ⟨rfl, ?_⟩
  rw [hp]
  exact h.congr fun j hj => hn j fun e => hi (e ▸ hj)

theorem unique : ∀ {L L' : List ι} {p : Option ι}, Linked next p L → Linked next p L' → L = L'
  | [], [], _, _, _ => rfl
  | [], _ :: _, _, h, h' => absurd (h.symm.trans h'.1) (some_ne_none _).symm
  | _ :: _, [], _, h, h' => absurd (h'.symm.trans h.1) (some_ne_none _).symm
  | i :: L, j :: L', _, h, h' => by
    obtain rfl : i = j := some_inj.mp (h.1.symm.trans h'.1)
    rw [h.2.unique h'.2]

theorem head?_eq (h : Linked next p L) : L.head? = p := by
  cases L with
  | nil => exact h.symm
  | cons i L => exact h.1.symm

theorem drop : ∀ {A : List ι} {p : Option ι}, Linked next p (A ++ i :: L) → Linked next (next i) L
  | [], _, h => h.2
  | _ :: A, _, h => drop (A := A) h.2

theorem append_last {z e : ι} (hd : (L ++ [z]).Nodup) (he : e ∉ L ++ [z])
    (hz : next' z = some e) (hend : next' e = none)
    (hn : ∀ j, j ≠ z → j ≠ e → next' j = next j) :
    ∀ {p : Option ι}, Linked next p (L ++ [z]) → Linked next' p (L ++ [z, e]) := by
  induction L with
  | nil =>
    intro p h
    refine ⟨h.1, ?_⟩
    rw [hz]
    refine ⟨rfl, ?_⟩
    rw [hend]
    rfl
  | cons j L ih =>
    intro p h
    obtain ⟨hj, hd⟩ := nodup_cons.mp hd
    rw [cons_append, mem_cons, not_or] at he
    refine ⟨h.1, ?_⟩
    rw [hn j (fun heq => hj (by simp [heq])) (Ne.symm he.1)]
    exact ih hd he.2 h.2

theorem remove {m z : ι} {B : List ι} (hd : (L ++ m :: z :: B).Nodup)
    (hm : next' m = next z) (hn : ∀ j, j ≠ m → j ≠ z → next' j = next j) :
    ∀ {p : Option ι}, Linked next p (L ++ m :: z :: B) → Linked next' p (L ++ m :: B) := by
  induction L with
  | nil =>
    intro p h
    obtain ⟨hmB, hd⟩ := nodup_cons.mp hd
    obtain ⟨hzB, -⟩ := nodup_cons.mp hd
    refine ⟨h.1, ?_⟩
    rw [hm]
    exact h.2.2.congr fun j hj =>
      hn j (fun heq => hmB (heq ▸ mem_cons_of_mem _ hj)) fun heq => hzB (heq ▸ hj)
  | cons j L ih =>
    intro p h
    obtain ⟨hj, hd⟩ := nodup_cons.mp hd
    refine ⟨h.1, ?_⟩
    rw [hn j (fun heq => hj (by simp [heq])) fun heq => hj (by simp [heq])]
    exact ih hd h.2

theorem eq_nil_iff (h : Linked next p L) : L = [] ↔ p = none := by
  cases L with
  | nil => exact iff_of_true rfl h
  | cons i L =>
    rw [h.1]
    exact iff_of_false (cons_ne_nil i L) (some_ne_none i)

end Linked

/-! ## Doubly linked lists with a root -/

/-- From the root `none` through the list and back: at every cut, the position before it leads to
    the position after it. -/
def Circuit (next : Option ι → Option ι) (L : List ι) : Prop :=
  ∀ A B, L = A ++ B → next A.getLast? = B.head?

namespace Circuit

variable {next next' : Option ι → Option ι} {m : ι} {L A B : List ι}

theorem next_none (h : Circuit next L) : next none = L.head? :=
  h [] L rfl

theorem next_some (h : Circuit next (A ++ m :: B)) : next (some m) = B.head? := by
  have := h (A ++ [m]) B (append_cons A m B)
  rwa [List.getLast?_append_of_ne_nil _ (cons_ne_nil m [])] at this

theorem congr (h : Circuit next L) (h0 : next' none = next none)
    (hn : ∀ i ∈ L, next' (some i) = next (some i)) : Circuit next' L := by
  intro A B hL
  rw [← h A B hL]
  cases ha : A.getLast? with
  | none => exact h0
  | some i => exact hn i (hL ▸ mem_append_left B (mem_of_getLast? ha))

theorem getLast?_ne {C : List ι} (hd : (A ++ C).Nodup) (hC : C ≠ []) : A.getLast? ≠ (A ++ C).getLast? := by
  rw [List.getLast?_append_of_ne_nil A hC, List.getLast?_eq_some_getLast hC]
  intro h
  exact (disjoint_of_nodup_append hd) (mem_of_getLast? h) (getLast_mem hC)

theorem getLast?_ne_some (hm : m ∉ A) : A.getLast? ≠ some m :=
  fun h => hm (mem_of_getLast? h)

theorem insert (h : Circuit next (A ++ B)) (hd : (A ++ B).Nodup) (hm : m ∉ A ++ B)
    (h1 : next' A.getLast? = some m) (h2 : next' (some m) = B.head?)
    (hn : ∀ p, p ≠ A.getLast? → p ≠ some m → next' p = next p) : Circuit next' (A ++ m :: B) := by
  intro A' B' hL
  rw [mem_append, not_or] at hm
  rcases append_eq_append_iff.mp hL with ⟨C, rfl, hC⟩ | ⟨C, rfl, rfl⟩
  · -- the cut is behind the place of the new position
    rcases cons_eq_append_iff.mp hC with ⟨rfl, rfl⟩ | ⟨C, rfl, rfl⟩
    · rw [append_nil]
      exact h1
    rw [List.getLast?_append_of_ne_nil _ (cons_ne_nil m C)]
    cases C with
    | nil => exact h2
    | cons c C =>
      have hcut := h (A ++ c :: C) B' (by rw [append_assoc])
      rw [List.getLast?_append_of_ne_nil _ (cons_ne_nil c C)] at hcut
      rw [List.getLast?_cons_cons, hn, hcut]
      · intro he
        rw [← append_assoc] at hd
        have := getLast?_ne hd.of_append_left (cons_ne_nil c C)
        rw [List.getLast?_append_of_ne_nil _ (cons_ne_nil c C), he] at this
        exact this rfl
      · exact getLast?_ne_some fun hc => hm.2 (mem_append_left B' hc)
  · -- it is in front of it
    cases C with
    | nil =>
      rw [append_nil] at h1
      exact h1
    | cons c C =>
      rw [append_assoc] at h
      have hcut := h A' (c :: C ++ B) rfl
      rw [hn, hcut]
      · rfl
      · exact getLast?_ne hd.of_append_left (cons_ne_nil c C)
      · exact getLast?_ne_some fun hc => hm.1 (mem_append_left _ hc)

theorem remove (h : Circuit next (A ++ m :: B)) (hd : (A ++ m :: B).Nodup) (h1 : next' A.getLast? = B.head?)
    (hn : ∀ p, p ≠ A.getLast? → p ≠ some m → next' p = next p) : Circuit next' (A ++ B) := by
  intro A' B' hL
  have hm : m ∉ A ++ B := (nodup_middle.mp hd).notMem
  have hd' : (A ++ B).Nodup := (nodup_middle.mp hd).of_cons
  rw [mem_append, not_or] at hm
  rcases append_eq_append_iff.mp hL with ⟨C, rfl, rfl⟩ | ⟨C, rfl, rfl⟩
  · cases C with
    | nil =>
      rw [append_nil]
      exact h1
    | cons c C =>
      have hcut := h (A ++ m :: c :: C) B' (by rw [append_assoc]; rfl)
      rw [List.getLast?_append_of_ne_nil _ (cons_ne_nil m _), List.getLast?_cons_cons] at hcut
      rw [List.getLast?_append_of_ne_nil _ (cons_ne_nil c C), hn, hcut]
      · intro he
        rw [← append_assoc] at hd'
        have := getLast?_ne hd'.of_append_left (cons_ne_nil c C)
        rw [List.getLast?_append_of_ne_nil _ (cons_ne_nil c C), he] at this
        exact this rfl
      · exact getLast?_ne_some fun hc => hm.2 (mem_append_left B' hc)
  · cases C with
    | nil =>
      rw [append_nil] at h1
      exact h1
    | cons c C =>
      rw [append_assoc] at h
      rw [hn, h A' (c :: C ++ m :: B) rfl]
      · rfl
      · exact getLast?_ne hd'.of_append_left (cons_ne_nil c C)
      · exact getLast?_ne_some fun hc => hm.1 (mem_append_left _ hc)

end Circuit

/-- A list that is linked both ways. -/
structure Ring (next prev : Option ι → Option ι) (L : List ι) : Prop where
  nodup : L.Nodup
  forward : Circuit next L
  backward : Circuit prev L.reverse

namespace Ring

variable {next prev next' prev' : Option ι → Option ι} {m : ι} {L A B : List ι}

theorem nil (hn : next none = none) (hp : prev none = none) : Ring next prev [] := by
  refine ⟨nodup_nil, fun A B h => ?_, fun A B h => ?_⟩ <;>
  · obtain ⟨rfl, rfl⟩ := append_eq_nil_iff.mp h.symm
    assumption

theorem congr (h : Ring next prev L) (hn0 : next' none = next none) (hp0 : prev' none = prev none)
    (hn : ∀ i ∈ L, next' (some i) = next (some i))
    (hp : ∀ i ∈ L, prev' (some i) = prev (some i)) : Ring next' prev' L :=
  ⟨h.nodup, h.forward.congr hn0 hn, h.backward.congr hp0 fun i hi => hp i (mem_reverse.mp hi)⟩

theorem next_none (h : Ring next prev L) : next none = L.head? :=
  h.forward.next_none

theorem prev_none (h : Ring next prev L) : prev none = L.getLast? := by
  rw [h.backward.next_none, List.head?_reverse]

theorem next_some (h : Ring next prev (A ++ m :: B)) : next (some m) = B.head? :=
  h.forward.next_some

theorem prev_some (h : Ring next prev (A ++ m :: B)) : prev (some m) = A.getLast? := by
  have hb := h.backward
  rw [reverse_append, reverse_cons, append_assoc, singleton_append] at hb
  rw [hb.next_some, List.head?_reverse]

/-- **A position is put in** at a cut: its own links and those of its neighbours are set. -/
theorem insert (h : Ring next prev (A ++ B)) (hm : m ∉ A ++ B)
    (hn1 : next' A.getLast? = some m) (hn2 : next' (some m) = B.head?)
    (hn : ∀ p, p ≠ A.getLast? → p ≠ some m → next' p = next p)
    (hp1 : prev' B.head? = some m) (hp2 : prev' (some m) = A.getLast?)
    (hp : ∀ p, p ≠ B.head? → p ≠ some m → prev' p = prev p) :
    Ring next' prev' (A ++ m :: B) := by
  refine ⟨nodup_middle.mpr (nodup_cons.mpr ⟨hm, h.nodup⟩), h.forward.insert h.nodup hm hn1 hn2 hn, ?_⟩
  have hb := h.backward
  have hd := nodup_reverse.mpr h.nodup
  rw [← mem_reverse] at hm
  rw [← List.getLast?_reverse] at hp1 hp
  rw [← List.head?_reverse] at hp2
  rw [reverse_append] at hb hd hm
  rw [reverse_append, reverse_cons, append_assoc, singleton_append]
  exact hb.insert hd hm hp1 hp2 hp

/-- **A position is taken out**: its neighbours are linked to each other. -/
theorem remove (h : Ring next prev (A ++ m :: B)) (hn1 : next' A.getLast? = B.head?)
    (hn : ∀ p, p ≠ A.getLast? → p ≠ some m → next' p = next p)
    (hp1 : prev' B.head? = A.getLast?)
    (hp : ∀ p, p ≠ B.head? → p ≠ some m → prev' p = prev p) :
    Ring next' prev' (A ++ B) := by
  refine ⟨(nodup_middle.mp h.nodup).of_cons, h.forward.remove h.nodup hn1 hn, ?_⟩
  have hb := h.backward
  have hd := nodup_reverse.mpr h.nodup
  rw [← List.getLast?_reverse] at hp
  rw [← List.getLast?_reverse, ← @List.head?_reverse ι A] at hp1
  rw [reverse_append, reverse_cons, append_assoc, singleton_append] at hb hd
  rw [reverse_append]
  exact hb.remove hd hp1 hp

end Ring

end Yuzu
