import Aesd.CircularBuffer

namespace Aesd.BoundedFifo

open Aesd.Lib.BlockHeap Aesd.Lib.Sequence Aesd.CircularBuffer

/-- The buffer represents the queue `es`, oldest entry first: every slot from
`out_offs` on holds its entry, and the slots after the last one are zero. -/
structure Ring (buffer : AesdCircularBuffer) (es : List AesdBufferEntry) : Prop where
  inOffs_lt : buffer.inOffs < 10
  outOffs_lt : buffer.outOffs < 10
  length_le : es.length ≤ 10
  inOffs_eq : buffer.inOffs = (buffer.outOffs + es.length) % 10
  full_iff : buffer.full = true ↔ es.length = 10
  slot_eq : ∀ i < 10, buffer.slot ((buffer.outOffs + i) % 10) = es[i]?.getD unused

theorem slot_set (buffer : AesdCircularBuffer) (i j : Nat) (e : AesdBufferEntry) (hi : i < 10)
    (inOffs outOffs : Nat) (full : Bool) :
    AesdCircularBuffer.slot ⟨buffer.entry.setIfInBounds i e, inOffs, outOffs, full⟩ j =
      if i = j then e else buffer.slot j := by
  by_cases hj : i = j
  · subst j
    simp [AesdCircularBuffer.slot, hi]
  · simp [AesdCircularBuffer.slot, hj]

theorem ring_init : Ring aesdCircularBufferInit [] where
  inOffs_lt := by decide
  outOffs_lt := by decide
  length_le := by decide
  inOffs_eq := by decide
  full_iff := by decide
  slot_eq := by decide

theorem Ring.evict_iff {buffer : AesdCircularBuffer} {es : List AesdBufferEntry}
    (hr : Ring buffer es) :
    (decide (buffer.inOffs = buffer.outOffs) && buffer.full) = true ↔ es.length = 10 := by
  rw [Bool.and_eq_true, decide_eq_true_iff, hr.full_iff]
  refine ⟨fun h => h.2, fun h => ⟨?_, h⟩⟩
  have hin := hr.inOffs_eq
  have hout := hr.outOffs_lt
  omega

theorem Ring.add_room {buffer : AesdCircularBuffer} {es : List AesdBufferEntry}
    (hr : Ring buffer es) (hl : es.length < 10) (e : AesdBufferEntry) :
    (aesdCircularBufferAddEntry buffer e).1 = .null ∧
      Ring (aesdCircularBufferAddEntry buffer e).2 (es ++ [e]) := by
  have hev : (decide (buffer.inOffs = buffer.outOffs) && buffer.full) = false := by
    rw [Bool.eq_false_iff, Ne, hr.evict_iff]
    omega
  have hin := hr.inOffs_eq
  have hout := hr.outOffs_lt
  simp only [aesdCircularBufferAddEntry, hev, advancePtr, maxWriteOperationsSupported,
    Bool.false_eq_true, if_false]
  refine ⟨trivial, ?_, hout, by simp; omega, ?_, ?_, ?_⟩
  · exact Nat.mod_lt _ (by decide)
  · simp only [List.length_append, List.length_singleton]
    omega
  · simp only [List.length_append, List.length_singleton]
    split
    · simp only [true_iff]; omega
    · rw [hr.full_iff]; omega
  · intro i hi
    dsimp only
    rw [slot_set buffer _ _ e hr.inOffs_lt]
    by_cases he : i = es.length
    · rw [if_pos (by omega)]
      subst i
      simp
    · rw [if_neg (by omega), hr.slot_eq i hi]
      by_cases hlt : i < es.length
      · rw [List.getElem?_append_left hlt]
      · rw [List.getElem?_eq_none (by omega), List.getElem?_eq_none (by simp; omega)]

theorem Ring.add_full {buffer : AesdCircularBuffer} {e₀ : AesdBufferEntry}
    {es : List AesdBufferEntry} (hr : Ring buffer (e₀ :: es)) (hl : es.length = 9)
    (e : AesdBufferEntry) :
    (aesdCircularBufferAddEntry buffer e).1 = e₀.buffptr ∧
      Ring (aesdCircularBufferAddEntry buffer e).2 (es ++ [e]) := by
  have hev : (decide (buffer.inOffs = buffer.outOffs) && buffer.full) = true :=
    hr.evict_iff.mpr (by simp [hl])
  have hin := hr.inOffs_eq
  have hout := hr.outOffs_lt
  have hlen : (e₀ :: es).length = 10 := by simp [hl]
  rw [hlen] at hin
  simp only [aesdCircularBufferAddEntry, hev, advancePtr, maxWriteOperationsSupported, if_true]
  refine ⟨?_, ?_, ?_, by simp [hl], ?_, ?_, ?_⟩
  · have h0 := hr.slot_eq 0 (by decide)
    rw [Nat.add_zero, Nat.mod_eq_of_lt hout] at h0
    simp [h0]
  · exact Nat.mod_lt _ (by decide)
  · exact Nat.mod_lt _ (by decide)
  · simp only [List.length_append, List.length_singleton, hl]
    omega
  · simp only [List.length_append, List.length_singleton, hl]
    rw [if_pos (by omega)]
    simp
  · intro i hi
    dsimp only
    rw [slot_set buffer _ _ e hr.inOffs_lt]
    by_cases he : i = 9
    · rw [if_pos (by omega)]
      subst i
      simp [← hl]
    · have hs := hr.slot_eq (i + 1) (by omega)
      have hidx : ((buffer.outOffs + 1) % 10 + i) % 10 = (buffer.outOffs + (i + 1)) % 10 := by omega
      rw [if_neg (by omega), hidx, hs, List.getElem?_cons_succ, List.getElem?_append_left (by omega)]

theorem Ring.outOffs_ne {buffer : AesdCircularBuffer} {es : List AesdBufferEntry}
    (hr : Ring buffer es) (hl : es.length = 10) (e : AesdBufferEntry) :
    (aesdCircularBufferAddEntry buffer e).2.outOffs ≠ buffer.outOffs := by
  have hout := hr.outOffs_lt
  simp only [aesdCircularBufferAddEntry, hr.evict_iff.mpr hl, if_true, advancePtr,
    maxWriteOperationsSupported]
  omega

def evicted (es : List AesdBufferEntry) : Ptr :=
  if es.length = 10 then (es.head?.getD unused).buffptr else .null

/-- The circular buffer refines a bounded queue, one addition at a time. -/
theorem Ring.addEntry {buffer : AesdCircularBuffer} {es : List AesdBufferEntry}
    (hr : Ring buffer es) (e : AesdBufferEntry) :
    (aesdCircularBufferAddEntry buffer e).1 = evicted es ∧
      Ring (aesdCircularBufferAddEntry buffer e).2
        ((if es.length = 10 then es.tail else es) ++ [e]) := by
  by_cases hl : es.length = 10
  · cases es with
    | nil => simp at hl
    | cons e₀ es =>
      have h := hr.add_full (by simpa using hl) e
      simpa [evicted, hl] using h
  · have h := hr.add_room (Nat.lt_of_le_of_ne hr.length_le hl) e
    simpa [evicted, hl] using h

theorem Ring.count_eq {buffer : AesdCircularBuffer} {es : List AesdBufferEntry}
    (hr : Ring buffer es) : count buffer = es.length := by
  have hin := hr.inOffs_eq
  have hout := hr.outOffs_lt
  have hle := hr.length_le
  unfold count maxWriteOperationsSupported
  split
  · next hf => exact (hr.full_iff.mp hf).symm
  · next hf =>
    have hne : es.length ≠ 10 := fun h => hf (hr.full_iff.mpr h)
    omega

theorem Ring.contents_eq {buffer : AesdCircularBuffer} {es : List AesdBufferEntry}
    (hr : Ring buffer es) : contents buffer = es := by
  unfold contents
  rw [hr.count_eq]
  apply List.ext_getElem
  · simp
  · intro i h1 h2
    simp only [List.getElem_map, List.getElem_range]
    rw [hr.slot_eq i (Nat.lt_of_lt_of_le h2 hr.length_le), List.getElem?_eq_getElem h2]
    rfl

theorem Ring.unused_slot {buffer : AesdCircularBuffer} {es : List AesdBufferEntry}
    (hr : Ring buffer es) {j : Nat} (hj : j < 10)
    (hout : ∀ i < count buffer, j ≠ (buffer.outOffs + i) % 10) : buffer.slot j = unused := by
  rw [hr.count_eq] at hout
  have hlt := hr.outOffs_lt
  -- every slot is at some distance below ten from out_offs
  have hi : (j + 10 - buffer.outOffs) % 10 < 10 := Nat.mod_lt _ (by decide)
  have hs := hr.slot_eq _ hi
  have hidx : (buffer.outOffs + (j + 10 - buffer.outOffs) % 10) % 10 = j := by omega
  rw [hidx] at hs
  rw [hs, List.getElem?_eq_none]
  · rfl
  · by_contra hn
    exact hout _ (by omega) hidx.symm

def addEntries (buffer : AesdCircularBuffer) : List AesdBufferEntry → List Ptr × AesdCircularBuffer
  | [] => ([], buffer)
  | e :: es =>
    let r := aesdCircularBufferAddEntry buffer e
    let rest := addEntries r.2 es
    (r.1 :: rest.1, rest.2)

theorem addEntries_snoc (buffer : AesdCircularBuffer) (es : List AesdBufferEntry)
    (e : AesdBufferEntry) :
    addEntries buffer (es ++ [e]) =
      ((addEntries buffer es).1 ++ [(aesdCircularBufferAddEntry (addEntries buffer es).2 e).1],
        (aesdCircularBufferAddEntry (addEntries buffer es).2 e).2) := by
  induction es generalizing buffer with
  | nil => rfl
  | cons d es ih => simp [addEntries, ih]

/-- A run of additions keeps the last ten entries and hands back the pointers
of all the others, in order, after ten calls that return NULL. -/
theorem addEntries_ring (es : List AesdBufferEntry) :
    Ring (addEntries aesdCircularBufferInit es).2 (lastN 10 es) ∧
      (addEntries aesdCircularBufferInit es).1 =
        List.replicate (min es.length 10) .null ++ (es.take (es.length - 10)).map (·.buffptr) := by
  induction es using List.reverseRecOn with
  | nil => exact ⟨ring_init, rfl⟩
  | append_singleton es e ih =>
    obtain ⟨hr, hret⟩ := ih
    obtain ⟨hev, hr'⟩ := hr.addEntry e
    rw [addEntries_snoc]
    refine ⟨by rwa [lastN_snoc (by decide)], ?_⟩
    rw [hret, hev, evicted, length_lastN]
    by_cases hl : 10 ≤ es.length
    · have hmin : min 10 es.length = 10 := by omega
      have hmin' : min (es ++ [e]).length 10 = min es.length 10 := by simp; omega
      have hlt : es.length - 10 < es.length := by omega
      have hhead : (lastN 10 es).head? = some es[es.length - 10] := by
        rw [lastN, List.head?_drop, List.getElem?_eq_getElem hlt]
      have htake : (es ++ [e]).take ((es ++ [e]).length - 10) =
          es.take (es.length - 10) ++ [es[es.length - 10]] := by
        rw [List.length_append, List.length_singleton, List.take_append_of_le_length (by omega),
          show es.length + 1 - 10 = es.length - 10 + 1 by omega, List.take_succ_eq_append_getElem hlt]
      rw [if_pos hmin, hhead, hmin', htake]
      simp only [Option.getD_some, List.map_append, List.map_cons, List.map_nil, List.append_assoc]
    · have hmin : min 10 es.length ≠ 10 := by omega
      have h0 : es.length - 10 = 0 := by omega
      have h1 : (es ++ [e]).length - 10 = 0 := by simp; omega
      have h2 : min (es ++ [e]).length 10 = min es.length 10 + 1 := by simp; omega
      rw [if_neg hmin, h0, h1, h2]
      simp [List.replicate_succ']

/-- After any sequence of additions to a fresh buffer: the logical contents,
the two offsets, the full flag, the unused slots and every returned pointer. -/
theorem circular_buffer_refines_fifo (es : List AesdBufferEntry) :
    let run := addEntries aesdCircularBufferInit es
    let returned := run.1
    let buffer := run.2
    contents buffer = lastN 10 es ∧
      (buffer.inOffs < 10 ∧ buffer.outOffs < 10) ∧
      (buffer.full = true ↔ 10 ≤ es.length) ∧
      (buffer.full = true → buffer.inOffs = buffer.outOffs) ∧
      (∀ j < 10, (∀ i < count buffer, j ≠ (buffer.outOffs + i) % 10) → buffer.slot j = unused) ∧
      (∀ k (hk : k < es.length),
        returned[k]? = some (if k < 10 then .null else es[k - 10].buffptr)) ∧
      returned.length = es.length ∧
      (∀ p, p ≠ .null →
        returned.count p + ((contents buffer).map (·.buffptr)).count p =
          (es.map (·.buffptr)).count p) ∧
      ∀ p, p ≠ .null → (es.map (·.buffptr)).count p = 1 →
        (p ∈ (contents buffer).map (·.buffptr) ∧ returned.count p = 0) ∨
          (p ∉ (contents buffer).map (·.buffptr) ∧ returned.count p = 1) := by
  intro run returned buffer
  obtain ⟨hr, hret⟩ := addEntries_ring es
  have hlen := length_lastN 10 es
  have hcount : ∀ p, p ≠ .null → returned.count p +
      ((contents buffer).map (·.buffptr)).count p = (es.map (·.buffptr)).count p := by
    intro p hp
    rw [show returned = _ from hret, show contents buffer = _ from hr.contents_eq,
      List.count_append, List.count_replicate]
    have hne : (Ptr.null == p) = false := by simpa using Ne.symm hp
    rw [if_neg (by simp [hne]), Nat.zero_add, ← List.count_append, ← List.map_append,
      take_append_lastN]
  refine ⟨hr.contents_eq, ⟨hr.inOffs_lt, hr.outOffs_lt⟩, ?_, ?_, fun j hj => hr.unused_slot hj,
    ?_, ?_, hcount, ?_⟩
  · rw [hr.full_iff]
    omega
  · intro hf
    have hin : buffer.inOffs = (buffer.outOffs + (lastN 10 es).length) % 10 := hr.inOffs_eq
    have hout : buffer.outOffs < 10 := hr.outOffs_lt
    rw [hr.full_iff.mp hf] at hin
    omega
  · intro k hk
    rw [show returned = _ from hret]
    by_cases hk10 : k < 10
    · rw [if_pos hk10, List.getElem?_append_left (by simp; omega),
        List.getElem?_replicate_of_lt (by omega)]
    · rw [if_neg hk10, List.getElem?_append_right (by simp; omega)]
      have hidx : k - (List.replicate (min es.length 10) Ptr.null).length = k - 10 := by
        rw [List.length_replicate]; omega
      rw [hidx, List.getElem?_map, List.getElem?_take_of_lt (by omega),
        List.getElem?_eq_getElem (by omega)]
      rfl
  · rw [show returned = _ from hret]
    simp
    omega
  · intro p hp h1
    have h := hcount p hp
    rw [← List.count_pos_iff]
    omega

end Aesd.BoundedFifo
