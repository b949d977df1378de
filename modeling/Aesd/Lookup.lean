import Aesd.BoundedFifo

namespace Aesd.Lookup

open Aesd.Lib.BlockHeap Aesd.Lib.MachineInt Aesd.Lib.Sequence Aesd.CircularBuffer
open Aesd.BoundedFifo

def sizes (es : List AesdBufferEntry) : List Nat := es.map (·.size)

theorem findLoop_empty {buffer : AesdCircularBuffer} (hr : Ring buffer []) (pos : Nat) (k : Nat)
    (hk : k < 10) :
    findLoop buffer (k + 1) ((buffer.outOffs + (9 - k)) % 10) pos = some none := by
  have hin := hr.inOffs_eq
  have hout := hr.outOffs_lt
  have hslot : (buffer.slot ((buffer.outOffs + (9 - k)) % 10)).size = 0 := by
    rw [hr.slot_eq _ (by omega)]
    rfl
  simp only [List.length_nil, Nat.add_zero] at hin
  induction k with
  | zero =>
    have hadv : advancePtr ((buffer.outOffs + (9 - 0)) % 10) = buffer.inOffs := by
      unfold advancePtr maxWriteOperationsSupported
      omega
    simp only [findLoop, hslot, Nat.zero_le, if_true, hadv]
  | succ k ih =>
    have hadv : advancePtr ((buffer.outOffs + (9 - (k + 1))) % 10) =
        (buffer.outOffs + (9 - k)) % 10 := by
      unfold advancePtr maxWriteOperationsSupported
      omega
    have hne : (buffer.outOffs + (9 - k)) % 10 ≠ buffer.inOffs := by omega
    have hslot' : (buffer.slot ((buffer.outOffs + (9 - k)) % 10)).size = 0 := by
      rw [hr.slot_eq _ (by omega)]
      rfl
    rw [findLoop]
    simp only [hslot, Nat.zero_le, if_true, hadv, hne, if_false, Nat.sub_zero]
    exact ih (by omega) hslot'

theorem findLoop_turn {buffer : AesdCircularBuffer} {es : List AesdBufferEntry}
    (hr : Ring buffer es) {i : Nat} (hi : i < es.length) (pos : Nat) :
    findLoop buffer (10 - i) ((buffer.outOffs + i) % 10) pos =
      if es[i].size ≤ pos then
        if i + 1 = es.length then some none
        else findLoop buffer (10 - (i + 1)) ((buffer.outOffs + (i + 1)) % 10) (pos - es[i].size)
      else some (some ((buffer.outOffs + i) % 10, pos)) := by
  have hin := hr.inOffs_eq
  have hout := hr.outOffs_lt
  have hle := hr.length_le
  have hslot : buffer.slot ((buffer.outOffs + i) % 10) = es[i] := by
    rw [hr.slot_eq i (by omega), List.getElem?_eq_getElem hi]
    rfl
  have hadv : advancePtr ((buffer.outOffs + i) % 10) = (buffer.outOffs + (i + 1)) % 10 := by
    unfold advancePtr maxWriteOperationsSupported
    omega
  have hlast : (buffer.outOffs + (i + 1)) % 10 = buffer.inOffs ↔ i + 1 = es.length := by omega
  have hfuel : 10 - i = 10 - (i + 1) + 1 := by omega
  rw [hfuel, findLoop]
  simp only [hslot, hadv, hlast]

theorem findLoop_from {buffer : AesdCircularBuffer} {es : List AesdBufferEntry}
    (hr : Ring buffer es) (k i pos : Nat) (hi : i + k + 1 = es.length) :
    findLoop buffer (10 - i) ((buffer.outOffs + i) % 10) pos =
      some ((locate (sizes (es.drop i)) pos).map
        (fun p => ((buffer.outOffs + (i + p.1)) % 10, p.2))) := by
  induction k generalizing i pos with
  | zero =>
    have hlt : i < es.length := by omega
    rw [findLoop_turn hr hlt, sizes, List.drop_eq_getElem_cons hlt, List.map_cons, locate]
    by_cases hsize : es[i].size ≤ pos
    · -- the last entry: the next slot is in_offs
      rw [if_pos hsize, if_pos hsize, if_pos (by omega), List.drop_eq_nil_of_le (by omega)]
      rfl
    · rw [if_neg hsize, if_neg hsize]
      rfl
  | succ k ih =>
    have hlt : i < es.length := by omega
    rw [findLoop_turn hr hlt, sizes, List.drop_eq_getElem_cons hlt, List.map_cons, locate]
    by_cases hsize : es[i].size ≤ pos
    · rw [if_pos hsize, if_pos hsize, if_neg (by omega), ih (i + 1) _ (by omega), sizes,
        Option.map_map]
      congr 2
      funext p
      simp only [Function.comp_apply, Nat.add_assoc, Nat.add_comm 1 p.1]
    · rw [if_neg hsize, if_neg hsize]
      rfl

/-- The lookup ends within ten tests of its loop condition and agrees with
locating the position among the sizes of the logical entries. -/
theorem find_eq_locate {buffer : AesdCircularBuffer} {es : List AesdBufferEntry}
    (hr : Ring buffer es) (pos rtn : Nat) :
    aesdCircularBufferFindEntryOffsetForFpos 10 buffer pos rtn =
      some (match locate (sizes es) pos with
        | none => (none, rtn)
        | some (i, off) => (some ((buffer.outOffs + i) % 10), off)) := by
  have hout := hr.outOffs_lt
  have hloop : findLoop buffer 10 buffer.outOffs pos =
      some ((locate (sizes es) pos).map (fun p => ((buffer.outOffs + p.1) % 10, p.2))) := by
    cases es with
    | nil =>
      have h := findLoop_empty hr pos 9 (by decide)
      simp only [Nat.sub_self, Nat.add_zero, Nat.mod_eq_of_lt hout, Nat.reduceAdd] at h
      rw [h]
      rfl
    | cons e es =>
      have h := findLoop_from hr es.length 0 pos (by simp)
      simpa only [Nat.sub_zero, Nat.add_zero, Nat.mod_eq_of_lt hout, List.drop_zero,
        Nat.zero_add] using h
  rw [aesdCircularBufferFindEntryOffsetForFpos, hloop, Option.map_some]
  cases locate (sizes es) pos <;> rfl

theorem Ring.foreach_eq {buffer : AesdCircularBuffer} {es : List AesdBufferEntry}
    (hr : Ring buffer es) : foreach buffer = es ++ List.replicate (10 - es.length) unused := by
  have hle := hr.length_le
  apply List.ext_getElem
  · simp only [foreach, maxWriteOperationsSupported, List.length_map, List.length_range,
      List.length_append, List.length_replicate]
    omega
  · intro i h1 h2
    have hi : i < 10 := by simpa [foreach] using h1
    simp only [foreach, List.getElem_map, List.getElem_range]
    rw [hr.slot_eq i hi]
    by_cases hlt : i < es.length
    · rw [List.getElem_append_left hlt, List.getElem?_eq_getElem hlt]
      rfl
    · rw [List.getElem_append_right (by omega), List.getElem_replicate,
        List.getElem?_eq_none (by omega)]
      rfl

theorem foldl_addSize {es : List AesdBufferEntry} (hp : ∀ e ∈ es, e.buffptr ≠ .null) (n : Nat)
    (hs : n + (sizes es).sum < 2 ^ 63) :
    es.foldl addSize (n : Int) = ((n + (sizes es).sum : Nat) : Int) := by
  induction es generalizing n with
  | nil => simp [sizes]
  | cons e es ih =>
    simp only [sizes, List.map_cons, List.sum_cons] at hs ih ⊢
    have he : addSize n e = ((n + e.size : Nat) : Int) := by
      rw [addSize, if_pos (hp e (by simp)), loffT_of_lt (by omega) (by omega)]
      push_cast
      rfl
    rw [List.foldl_cons, he, ih (fun d hd => hp d (by simp [hd])) _ (by omega), Nat.add_assoc]

theorem foldl_addSize_unused (k : Nat) (z : Int) :
    (List.replicate k unused).foldl addSize z = z := by
  induction k with
  | zero => rfl
  | succ k ih => simpa [List.replicate_succ, addSize, unused] using ih

theorem size_eq_sum {buffer : AesdCircularBuffer} {es : List AesdBufferEntry}
    (hr : Ring buffer es) (hp : ∀ e ∈ es, e.buffptr ≠ .null) (hs : (sizes es).sum < 2 ^ 63) :
    aesdCircularBufferSize buffer = (((sizes es).sum : Nat) : Int) := by
  rw [aesdCircularBufferSize, Ring.foreach_eq hr, List.foldl_append, foldl_addSize_unused]
  simpa using foldl_addSize hp 0 (by simpa using hs)

end Aesd.Lookup
