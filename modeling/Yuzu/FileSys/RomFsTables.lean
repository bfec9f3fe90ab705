/-
  File:      Yuzu/FileSys/RomFsTables.lean
  Subject:   The hash tables of a RomFS, and what is written into them.

  What one write of an entry changes is said once (`put_frame` and the lemmas after it); from it, the
  chain of every bucket is the entries that were written into it, the last one first (`Chained.puts`).
  Whether an entry is found then only depends on the bucket it was written into (`findsEvery_iff`).
-/
import Mathlib.Data.List.GetD
import Mathlib.Data.List.Pairwise
import Yuzu.Lib.Linked
import Yuzu.FileSys.RomFsBuild

namespace Yuzu.FileSys

open Common List

/-! ## 1. What is claimed -/

/-- An entry, as it is looked up. -/
structure RomFSEntry where
  offset : Nat
  parent : Nat
  name : List UInt8
  deriving DecidableEq

/-- The hash of an entry: over the bytes of its name as values from 0 to 255. -/
def RomFSEntry.hash (e : RomFSEntry) : BitVec 32 := romfsCalcPathHash false e.parent e.name 0 e.name.length

namespace EntryTable

/-- The links from a bucket visit the offsets of the list, and then end. -/
def Chain (t : EntryTable) (m : Memory) (slot : Nat) (L : List Nat) : Prop :=
  Linked (t.next m) (t.head m slot) L

/-- The entry stands at its offset. -/
structure Holds (t : EntryTable) (m : Memory) (e : RomFSEntry) : Prop where
  parent : getUnsigned m (t.table + e.offset) 4 = e.parent
  nameSize : getUnsigned m (t.table + e.offset + t.link + 4) 4 = e.name.length
  name : ∀ k < e.name.length, m (t.table + e.offset + t.entrySize + k) = e.name.getD k 0

/-- **Every entry is found**: it stands in the table, the chain of the bucket of its hash reaches it, all
chains are finite, and no other chain reaches it. -/
structure FindsEvery (t : EntryTable) (m : Memory) (entries : List RomFSEntry) : Prop where
  holds : ∀ e ∈ entries, t.Holds m e
  finite : ∀ slot < t.count, ∃ L, t.Chain m slot L
  reached : ∀ e ∈ entries, ∃ L, t.Chain m (e.hash.toNat % t.count) L ∧ e.offset ∈ L
  once : ∀ e ∈ entries, ∃! slot, slot < t.count ∧ ∃ L, t.Chain m slot L ∧ e.offset ∈ L

end EntryTable

/-- A turn of the drift: the bits that the sign of a character sets. -/
def driftStep (drift : BitVec 32) (c : UInt8) : BitVec 32 :=
  (drift >>> 5 ||| drift <<< 27) ^^^ if 0x80 ≤ c then 0xFFFFFF00 else 0

/-- What signed characters of a name move its hash by. -/
def signDrift (name : List UInt8) : BitVec 32 := name.foldl driftStep 0

/-- The entry's hash stays in its bucket when it is moved by the signs of the name's characters. -/
def RomFSEntry.Stays (e : RomFSEntry) (count : Nat) : Prop :=
  (e.hash ^^^ signDrift e.name).toNat % count = e.hash.toNat % count

instance (e : RomFSEntry) (count : Nat) : Decidable (e.Stays count) :=
  inferInstanceAs (Decidable (_ = _))

/-! ## 2. Bytes -/

variable {m m' : Memory} {n v p k : Nat}

theorem getUnsigned_numberBytes (v n : Nat) : getUnsigned (numberBytes v) 0 n = v % 256 ^ n := by
  induction n with
  | zero => rw [getUnsigned, Nat.pow_zero, Nat.mod_one]
  | succ n ih =>
    have hdigit : v % (256 ^ n * 256) = v % 256 ^ n + 256 ^ n * (v / 256 ^ n % 256) := Nat.mod_mul
    rw [getUnsigned, ih, Nat.zero_add, numberBytes, UInt8.toNat_ofNat', Nat.pow_succ 256 n, hdigit,
      Nat.mul_comm (256 ^ n) (_ % _)]

theorem getUnsigned_of_bytes (h : ∀ k < n, m (p + k) = numberBytes v k) : getUnsigned m p n = v % 256 ^ n := by
  rw [← getUnsigned_numberBytes]
  exact getUnsigned_congr fun k hk => by rw [h k hk, Nat.zero_add]

theorem structBytes_field (pre post : List (Nat × Nat)) (hk : k < n) :
    structBytes (pre ++ (n, v) :: post) ((pre.map Prod.fst).sum + k) = numberBytes v k := by
  induction pre with
  | nil => rw [nil_append, structBytes, map_nil, sum_nil, Nat.zero_add, if_pos hk]
  | cons f pre ih =>
    rw [cons_append, structBytes, map_cons, sum_cons, if_neg (by omega)]
    rw [show f.1 + (pre.map Prod.fst).sum + k - f.1 = (pre.map Prod.fst).sum + k by omega, ih]

theorem offsetAt_congr (h : ∀ k < 4, m (p + k) = m' (p + k)) : offsetAt m p = offsetAt m' p := by
  rw [offsetAt, offsetAt, getUnsigned_congr h]

theorem offsetAt_empty (h : ∀ k < 4, m (p + k) = 0xFF) : offsetAt m p = none := by
  have hbytes : getUnsigned m p 4 = getUnsigned (fun _ => 0xFF) 0 4 := getUnsigned_congr fun k hk => h k hk
  rw [offsetAt, hbytes, if_pos (by decide)]

theorem offsetAt_of_bytes (h : ∀ k < 4, m (p + k) = numberBytes v k) (hv : v < romfsEntryEmpty) :
    offsetAt m p = some v := by
  rw [offsetAt, getUnsigned_of_bytes h]
  rw [romfsEntryEmpty] at hv
  rw [Nat.mod_eq_of_lt (by omega), if_neg (by rw [romfsEntryEmpty]; omega)]

/-! ## 3. A write of an entry -/

/-- What is written for an entry: its fields between the parent and the link, and the name. -/
structure EntryWrite where
  slot : Nat
  offset : Nat
  parent : Nat
  middle : List (Nat × Nat)
  name : Memory
  nameSize : Nat

namespace EntryWrite

/-- The fields of the entry, with the link. -/
def fields (w : EntryWrite) (hash : Nat) : List (Nat × Nat) :=
  (4, w.parent) :: (w.middle ++ [(4, hash), (4, w.nameSize)])

/-- The end of the entry in its table. -/
def stop (w : EntryWrite) (entrySize : Nat) : Nat := w.offset + (entrySize + alignUp w.nameSize 4)

end EntryWrite

namespace EntryTable

/-- The entry is written. -/
def put (t : EntryTable) (m : Memory) (w : EntryWrite) : Memory :=
  t.putEntry m w.slot w.offset w.fields w.name w.nameSize

/-- The tables: `size` bytes of entries stand behind the hash table. -/
structure Layout (t : EntryTable) (size : Nat) : Prop where
  count_pos : 0 < t.count
  table_ge : t.hashTable + 4 * t.count ≤ t.table
  entrySize_eq : t.entrySize = t.link + 8
  size_lt : size < 2 ^ 32

/-- The entry that is written has its place in the table. -/
structure Fits (t : EntryTable) (size : Nat) (w : EntryWrite) : Prop where
  slot_lt : w.slot < t.count
  stop_le : w.stop t.entrySize ≤ size
  link : 4 + (w.middle.map Prod.fst).sum = t.link

variable {t : EntryTable} {size : Nat} {w : EntryWrite} {ws : List EntryWrite}

theorem le_alignUp_four (n : Nat) : n ≤ alignUp n 4 := le_alignUp (by decide)

/-- **The bytes that stay** when an entry is written: all but its word of the hash table and its place. -/
theorem put_frame (hhash : k < t.hashTable + 4 * w.slot ∨ t.hashTable + 4 * w.slot + 4 ≤ k)
    (hentry : k < t.table + w.offset ∨ t.table + w.stop t.entrySize ≤ k) : t.put m w k = m k := by
  have := le_alignUp_four w.nameSize
  rw [EntryWrite.stop] at hentry
  rw [put, putEntry]
  rw [memcpyAt_of_not_mem (by omega), memcpyAt_of_not_mem (by omega), memcpyAt_of_not_mem (by omega),
    memcpyAt_of_not_mem (by omega)]

theorem put_entry (hk : k < t.entrySize) : t.put m w (t.table + w.offset + k) =
      structBytes (w.fields (getUnsigned m (t.hashTable + 4 * w.slot) 4)) k := by
  rw [put, putEntry]
  rw [memcpyAt_of_not_mem (by omega), memcpyAt_of_not_mem (by omega), memcpyAt_of_mem hk]

theorem put_name (hk : k < w.nameSize) : t.put m w (t.table + w.offset + t.entrySize + k) = w.name k := by
  rw [put, putEntry]
  rw [memcpyAt_of_mem hk]

theorem put_hash (hlayout : t.Layout size) (hfits : t.Fits size w) (hk : k < 4) :
    t.put m w (t.hashTable + 4 * w.slot + k) = numberBytes w.offset k := by
  have h1 := hlayout.table_ge
  have h2 := hfits.slot_lt
  rw [put, putEntry]
  rw [memcpyAt_of_not_mem (by omega), memcpyAt_of_not_mem (by omega), memcpyAt_of_not_mem (by omega),
    memcpyAt_of_mem hk]

theorem Fits.offset_lt (hlayout : t.Layout size) (hfits : t.Fits size w) : w.offset < romfsEntryEmpty := by
  have h1 := hfits.stop_le
  have h2 := hlayout.size_lt
  have h3 := hlayout.entrySize_eq
  rw [EntryWrite.stop] at h1
  rw [romfsEntryEmpty]
  omega

theorem head_put (hlayout : t.Layout size) (hfits : t.Fits size w) {slot : Nat} (hslot : slot < t.count) :
    t.head (t.put m w) slot = if slot = w.slot then some w.offset else t.head m slot := by
  have h1 := hlayout.table_ge
  split
  · rename_i h
    rw [h, head]
    exact offsetAt_of_bytes (fun k hk => put_hash hlayout hfits hk) (hfits.offset_lt hlayout)
  · rw [head, head]
    exact offsetAt_congr fun k hk => put_frame (by omega) (by omega)

theorem next_put (hlayout : t.Layout size) (hfits : t.Fits size w) :
    t.next (t.put m w) w.offset = t.head m w.slot := by
  have hsize := hlayout.entrySize_eq
  have hbytes : ∀ k < 4, t.put m w (t.table + w.offset + t.link + k) =
      numberBytes (getUnsigned m (t.hashTable + 4 * w.slot) 4) k := by
    intro k hk
    rw [Nat.add_assoc _ t.link k, put_entry (by omega), ← hfits.link]
    exact structBytes_field ((4, w.parent) :: w.middle) _ hk
  have hlt : getUnsigned m (t.hashTable + 4 * w.slot) 4 < 256 ^ 4 := by
    rw [getUnsigned, getUnsigned, getUnsigned, getUnsigned, getUnsigned]
    have h := fun i => UInt8.toNat_lt (m (t.hashTable + 4 * w.slot + i))
    have h0 := h 0
    have h1 := h 1
    have h2 := h 2
    have h3 := h 3
    omega
  rw [next, head, offsetAt, offsetAt, getUnsigned_of_bytes hbytes, Nat.mod_eq_of_lt hlt]

theorem next_put_of_apart (hlayout : t.Layout size) (hfits : t.Fits size w) {offset : Nat}
    (hapart : offset + t.entrySize ≤ w.offset ∨ w.stop t.entrySize ≤ offset) :
    t.next (t.put m w) offset = t.next m offset := by
  have h1 := hlayout.table_ge
  have h2 := hfits.slot_lt
  have h3 := hlayout.entrySize_eq
  rw [next, next]
  exact offsetAt_congr fun k hk => put_frame (by omega) (by omega)

/-- The entry stands in the table. -/
def Stored (t : EntryTable) (m : Memory) (w : EntryWrite) : Prop :=
  (∃ hash, ∀ k < t.entrySize, m (t.table + w.offset + k) = structBytes (w.fields hash) k) ∧
    ∀ k < w.nameSize, m (t.table + w.offset + t.entrySize + k) = w.name k

theorem stored_put : t.Stored (t.put m w) w := ⟨⟨_, fun _ hk => put_entry hk⟩, fun _ hk => put_name hk⟩

theorem Stored.congr (h : t.Stored m w)
    (hm : ∀ k, t.table + w.offset ≤ k → k < t.table + w.stop t.entrySize → m' k = m k) : t.Stored m' w := by
  obtain ⟨⟨hash, hentry⟩, hname⟩ := h
  have := le_alignUp_four w.nameSize
  refine ⟨⟨hash, fun k hk => ?_⟩, fun k hk => ?_⟩
  · rw [hm _ (by omega) (by rw [EntryWrite.stop]; omega), hentry k hk]
  · rw [hm _ (by omega) (by rw [EntryWrite.stop]; omega), hname k hk]

/-! ## 4. The chains -/

/-- The entries that were written into a bucket, the last one first. -/
def written (ws : List EntryWrite) (slot : Nat) : List Nat :=
  ((ws.filter (·.slot = slot)).map (·.offset)).reverse

/-- **The chains are the entries that were written**, and those stand in the table. -/
structure Chained (t : EntryTable) (m : Memory) (ws : List EntryWrite) : Prop where
  chain : ∀ slot < t.count, t.Chain m slot (written ws slot)
  stored : ∀ w ∈ ws, t.Stored m w

/-- The entries lie behind each other. -/
def Ordered (t : EntryTable) (ws : List EntryWrite) : Prop :=
  ws.Pairwise fun w w' => w.stop t.entrySize ≤ w'.offset

theorem mem_written {slot offset : Nat} :
    offset ∈ written ws slot ↔ ∃ w ∈ ws, w.slot = slot ∧ w.offset = offset := by
  rw [written, mem_reverse, mem_map]
  constructor
  · intro ⟨w, hw, h⟩
    obtain ⟨hw, hslot⟩ := mem_filter.mp hw
    exact ⟨w, hw, of_decide_eq_true hslot, h⟩
  · intro ⟨w, hw, hslot, h⟩
    exact ⟨w, mem_filter.mpr ⟨hw, decide_eq_true hslot⟩, h⟩

theorem written_concat (ws : List EntryWrite) (w : EntryWrite) (slot : Nat) :
    written (ws ++ [w]) slot = if slot = w.slot then w.offset :: written ws slot else written ws slot := by
  rw [written, written, filter_append, map_append, reverse_append]
  by_cases h : w.slot = slot
  · rw [if_pos h.symm, filter_singleton, decide_eq_true h]
    rfl
  · rw [if_neg (Ne.symm h), filter_singleton, decide_eq_false h]
    rfl

/-- **A write keeps the chains**: the entry comes in front of its bucket. -/
theorem Chained.put (hlayout : t.Layout size) (hfits : t.Fits size w) (h : t.Chained m ws)
    (hbehind : ∀ w' ∈ ws, w'.stop t.entrySize ≤ w.offset) : t.Chained (t.put m w) (ws ++ [w]) where
  chain slot hslot := by
    have hkeep : ∀ slot, ∀ j ∈ written ws slot, t.next (t.put m w) j = t.next m j := by
      intro slot j hj
      obtain ⟨w', hw', -, rfl⟩ := mem_written.mp hj
      have := hbehind w' hw'
      rw [EntryWrite.stop] at this
      exact next_put_of_apart hlayout hfits (.inl (by omega))
    have hchain := h.chain slot hslot
    rw [Chain, head_put hlayout hfits hslot, written_concat]
    split
    · rename_i hw
      refine ⟨rfl, ?_⟩
      rw [next_put hlayout hfits, ← hw]
      exact hchain.congr (hkeep slot)
    · exact hchain.congr (hkeep slot)
  stored w' hw' := by
    have h1 := hlayout.table_ge
    have h2 := hfits.slot_lt
    rcases mem_append.mp hw' with hw' | hw'
    · have := hbehind w' hw'
      exact (h.stored w' hw').congr fun k hk hk' => put_frame (by omega) (by omega)
    · obtain rfl := mem_singleton.mp hw'
      exact stored_put

/-- **All writes**, by induction on what is left to write. -/
theorem Chained.puts (hlayout : t.Layout size) (hfits : ∀ w ∈ ws, t.Fits size w) {done : List EntryWrite}
    (hordered : t.Ordered (done ++ ws)) (h : t.Chained m done) :
    t.Chained (ws.foldl t.put m) (done ++ ws) := by
  induction ws generalizing m done with
  | nil => rwa [append_nil]
  | cons w ws ih =>
    have hput := h.put hlayout (hfits w mem_cons_self) fun w' hw' =>
      (pairwise_append.mp hordered).2.2 w' hw' w mem_cons_self
    have hrest := @ih (t.put m w) (fun w' hw' => hfits w' (mem_cons_of_mem w hw')) (done ++ [w])
      (by rwa [append_assoc]) hput
    rwa [append_assoc] at hrest

theorem puts_frame (hlayout : t.Layout size) (hfits : ∀ w ∈ ws, t.Fits size w)
    (hk : k < t.hashTable ∨ t.table + size ≤ k) : ws.foldl t.put m k = m k := by
  have h1 := hlayout.table_ge
  induction ws generalizing m with
  | nil => rfl
  | cons w ws ih =>
    have hw := hfits w mem_cons_self
    have h2 := hw.slot_lt
    have h3 := hw.stop_le
    rw [EntryWrite.stop] at h3
    rw [foldl_cons, ih fun w' hw' => hfits w' (mem_cons_of_mem w hw')]
    exact put_frame (by omega) (by rw [EntryWrite.stop]; omega)

theorem chained_nil (h : ∀ k, t.hashTable ≤ k → k < t.hashTable + 4 * t.count → m k = 0xFF) :
    t.Chained m [] where
  chain slot hslot := offsetAt_empty fun k hk => h _ (by omega) (by omega)
  stored w hw := absurd hw not_mem_nil

theorem Chained.congr (hlayout : t.Layout size) (hfits : ∀ w ∈ ws, t.Fits size w) (h : t.Chained m ws)
    (hm : ∀ k, t.hashTable ≤ k → k < t.table + size → m' k = m k) : t.Chained m' ws where
  chain slot hslot := by
    have h1 := hlayout.table_ge
    have h2 := hlayout.entrySize_eq
    have hhead : t.head m' slot = t.head m slot := offsetAt_congr fun k hk => hm _ (by omega) (by omega)
    rw [Chain, hhead]
    refine Linked.congr (h.chain slot hslot) fun j hj => ?_
    obtain ⟨w, hw, -, rfl⟩ := mem_written.mp hj
    have h3 := (hfits w hw).stop_le
    rw [EntryWrite.stop] at h3
    exact offsetAt_congr fun k hk => hm _ (by omega) (by omega)
  stored w hw := by
    have h1 := hlayout.table_ge
    have h3 := (hfits w hw).stop_le
    exact (h.stored w hw).congr fun k hk hk' => hm k (by omega) (by omega)

/-! ## 5. When every entry is found -/

/-- The entry that a write is for. -/
structure Writes (e : RomFSEntry) (w : EntryWrite) : Prop where
  offset : w.offset = e.offset
  parent : w.parent = e.parent
  parent_lt : e.parent < 2 ^ 32
  nameSize : w.nameSize = e.name.length
  name : ∀ k < e.name.length, w.name k = e.name.getD k 0

/-- An entry that stands in the table is found at its offset. -/
theorem Stored.holds {e : RomFSEntry} (hlayout : t.Layout size) (hfits : t.Fits size w) (hw : Writes e w)
    (h : t.Stored m w) : t.Holds m e where
  parent := by
    obtain ⟨⟨hash, hentry⟩, -⟩ := h
    have hsize := hlayout.entrySize_eq
    rw [← hw.offset, ← hw.parent, getUnsigned_of_bytes (v := w.parent) fun k hk => ?_,
      Nat.mod_eq_of_lt (by rw [hw.parent]; exact hw.parent_lt)]
    rw [hentry k (by omega), EntryWrite.fields, structBytes, if_pos hk]
  nameSize := by
    obtain ⟨⟨hash, hentry⟩, -⟩ := h
    have h1 := hlayout.entrySize_eq
    have h2 := hlayout.size_lt
    have h3 := hfits.stop_le
    have h4 := le_alignUp_four w.nameSize
    rw [EntryWrite.stop] at h3
    rw [← hw.offset, ← hw.nameSize, getUnsigned_of_bytes (v := w.nameSize) fun k hk => ?_,
      Nat.mod_eq_of_lt (by omega)]
    rw [show t.table + w.offset + t.link + 4 + k = t.table + w.offset + (t.link + 4 + k) by omega,
      hentry _ (by omega), ← hfits.link]
    have hpre : (((4, w.parent) :: (w.middle ++ [(4, hash)])).map Prod.fst).sum =
        4 + (w.middle.map Prod.fst).sum + 4 := by
      rw [map_cons, map_append, sum_cons, sum_append, Nat.add_assoc]
      rfl
    rw [← hpre, EntryWrite.fields, show (4, w.parent) :: (w.middle ++ [(4, hash), (4, w.nameSize)]) =
      ((4, w.parent) :: (w.middle ++ [(4, hash)])) ++ (4, w.nameSize) :: [] by
        rw [cons_append, append_assoc]; rfl]
    exact structBytes_field _ _ hk
  name k hk := by
    rw [← hw.offset, h.2 k (by rw [hw.nameSize]; exact hk), hw.name k hk]

theorem Ordered.offset_inj (hordered : t.Ordered ws) (hsize : 0 < t.entrySize) {w w' : EntryWrite}
    (hw : w ∈ ws) (hw' : w' ∈ ws) (h : w.offset = w'.offset) : w = w' := by
  by_contra hne
  have : Std.Symm fun w w' : EntryWrite => w.stop t.entrySize ≤ w'.offset ∨ w'.stop t.entrySize ≤ w.offset :=
    ⟨fun _ _ => Or.symm⟩
  have hpairs : ws.Pairwise fun w w' => w.stop t.entrySize ≤ w'.offset ∨ w'.stop t.entrySize ≤ w.offset :=
    List.Pairwise.imp Or.inl hordered
  have hapart := hpairs.forall hw hw' hne
  rw [EntryWrite.stop, EntryWrite.stop] at hapart
  omega

theorem Chained.reaches_iff (hordered : t.Ordered ws) (hsize : 0 < t.entrySize) (h : t.Chained m ws)
    (hw : w ∈ ws) {slot : Nat} (hslot : slot < t.count) :
    (∃ L, t.Chain m slot L ∧ w.offset ∈ L) ↔ w.slot = slot := by
  constructor
  · intro ⟨L, hL, hmem⟩
    rw [hL.unique (h.chain slot hslot)] at hmem
    obtain ⟨w', hw', hs, ho⟩ := mem_written.mp hmem
    rw [← hs, hordered.offset_inj hsize hw' hw ho]
  · intro hs
    exact ⟨_, h.chain slot hslot, mem_written.mpr ⟨w, hw, hs, rfl⟩⟩

/-- **Every entry is found just where it was written into the bucket of its hash.** -/
theorem findsEvery_iff {ι : Type} {l : List ι} {entry : ι → RomFSEntry} {write : ι → EntryWrite}
    (hlayout : t.Layout size) (hfits : ∀ i ∈ l, t.Fits size (write i))
    (hwrites : ∀ i ∈ l, Writes (entry i) (write i)) (hordered : t.Ordered (l.map write))
    (h : t.Chained m (l.map write)) :
    t.FindsEvery m (l.map entry) ↔ ∀ i ∈ l, (write i).slot = (entry i).hash.toNat % t.count := by
  have hsize : 0 < t.entrySize := by
    have := hlayout.entrySize_eq
    omega
  have hmod : ∀ e : RomFSEntry, e.hash.toNat % t.count < t.count := fun _ => Nat.mod_lt _ hlayout.count_pos
  have hreach : ∀ i ∈ l, ∀ slot < t.count,
      (∃ L, t.Chain m slot L ∧ (entry i).offset ∈ L) ↔ (write i).slot = slot := fun i hi slot hslot => by
    rw [← (hwrites i hi).offset]
    exact h.reaches_iff hordered hsize (mem_map.mpr ⟨i, hi, rfl⟩) hslot
  constructor
  · intro hfinds i hi
    exact (hreach i hi _ (hmod _)).mp (hfinds.reached (entry i) (mem_map.mpr ⟨i, hi, rfl⟩))
  · intro hslots
    refine ⟨fun e he => ?_, fun slot hslot => ⟨_, h.chain slot hslot⟩, fun e he => ?_, fun e he => ?_⟩
    · obtain ⟨i, hi, rfl⟩ := mem_map.mp he
      exact (h.stored (write i) (mem_map.mpr ⟨i, hi, rfl⟩)).holds hlayout (hfits i hi) (hwrites i hi)
    · obtain ⟨i, hi, rfl⟩ := mem_map.mp he
      exact (hreach i hi _ (hmod _)).mpr (hslots i hi)
    · obtain ⟨i, hi, rfl⟩ := mem_map.mp he
      have hlt := (hfits i hi).slot_lt
      exact ⟨(write i).slot, ⟨hlt, (hreach i hi _ hlt).mpr rfl⟩, fun slot hs =>
        ((hreach i hi slot hs.1).mp hs.2).symm⟩

end EntryTable

end Yuzu.FileSys
