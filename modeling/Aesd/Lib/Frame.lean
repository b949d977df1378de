import Aesd.Lib.BlockHeap
import Aesd.Lib.Transition

namespace Aesd.Lib.Frame

open Aesd.Lib.BlockHeap Aesd.Lib.Transition

/-- `h'` has the blocks of `h` and, apart from them, the blocks `F`. -/
structure Beside (F : Nat → Option (List Cell)) (h h' : Heap) : Prop where
  next : h'.next = h.next
  limit : h'.limit = h.limit
  apart : ∀ id, F id = none ∨ h.blocks id = none
  blocks : ∀ id, h'.blocks id = (h.blocks id).or (F id)

variable {F : Nat → Option (List Cell)} {h h' : Heap}

theorem Beside.here (hb : Beside F h h') {id : Nat} {cs : List Cell} (hc : h.blocks id = some cs) :
    h'.blocks id = some cs := by
  rw [hb.blocks, hc, Option.some_or]

theorem Beside.isSome (hb : Beside F h h') {id : Nat} (hc : (h.blocks id).isSome) :
    (h'.blocks id).isSome := by
  obtain ⟨cs, hcs⟩ := Option.isSome_iff_exists.mp hc
  rw [hb.here hcs, Option.isSome_some]

theorem Beside.absent (hb : Beside F h h') {id : Nat} (hc : (h.blocks id).isSome) : F id = none := by
  obtain hf | hn := hb.apart id
  · exact hf
  · rw [hn] at hc
    cases hc

theorem Beside.alone (hb : Beside F h h') (hn : ∀ id, h.blocks id = none) : h'.blocks = F := by
  funext id
  rw [hb.blocks, hn, Option.none_or]

theorem Beside.update (hb : Beside F h h') {k k' : Heap} (id : Nat) (new : Option (List Cell))
    (hF : F id = none) (hn : k'.next = k.next) (hl : k'.limit = k.limit)
    (hk : k.blocks = Function.update h.blocks id new)
    (hk' : k'.blocks = Function.update h'.blocks id new) : Beside F k k' where
  next := hn
  limit := hl
  apart j := by
    by_cases hj : j = id
    · rw [hj]
      exact .inl hF
    · rw [hk, Function.update_of_ne hj]
      exact hb.apart j
  blocks j := by
    by_cases hj : j = id
    · rw [hj, hk, hk', Function.update_self, Function.update_self, hF, Option.or_none]
    · rw [hk, hk', Function.update_of_ne hj, Function.update_of_ne hj]
      exact hb.blocks j

theorem Beside.fresh (hb : Beside F h h') : F h.next = none := by
  have hn := h'.fresh h.next (Nat.le_of_eq hb.next)
  rw [hb.blocks] at hn
  exact (Option.or_eq_none_iff.mp hn).2

theorem Beside.malloc (hb : Beside F h h') (n : Nat) (granted : Bool) :
    (h'.malloc n granted).1 = (h.malloc n granted).1 ∧
      Beside F (h.malloc n granted).2 (h'.malloc n granted).2 := by
  unfold Heap.malloc
  rw [hb.limit, hb.next]
  split
  · split
    · exact ⟨rfl, hb⟩
    · refine ⟨rfl, hb.update h.next _ hb.fresh ?_ hb.limit rfl ?_⟩
      · exact congrArg Nat.succ hb.next
      · exact congrArg (Function.update h'.blocks · _) hb.next
  · exact ⟨rfl, hb⟩

theorem Beside.cells (hb : Beside F h h') (p : Ptr) : Follows Eq (h.cells p) (h'.cells p) := by
  intro cs hcs
  cases p with
  | null => cases hcs
  | zeroSize => exact ⟨cs, hcs, rfl⟩
  | block id => exact ⟨cs, Heap.cells_block.mpr (hb.here (Heap.cells_block.mp hcs)), rfl⟩

theorem Beside.loadCells (hb : Beside F h h') (p : Ptr) (off n : Nat) :
    Follows Eq (h.loadCells p off n) (h'.loadCells p off n) := by
  refine (hb.cells p).bind ?_
  rintro cs _ rfl cs' hcs'
  exact ⟨cs', hcs', rfl⟩

theorem Beside.load (hb : Beside F h h') (p : Ptr) (off n : Nat) :
    Follows Eq (h.load p off n) (h'.load p off n) := by
  refine (hb.loadCells p off n).bind ?_
  rintro cs _ rfl bs hbs
  exact ⟨bs, hbs, rfl⟩

theorem Beside.loadByte (hb : Beside F h h') {p : Ptr} {off : Int}
    (hv : h.loadByte p off ≠ .error .invalidPointer) : h'.loadByte p off = h.loadByte p off := by
  by_cases hneg : off < 0
  · unfold Heap.loadByte
    rw [if_pos hneg, if_pos hneg]
  · cases hc : h.cells p with
    | error e =>
      have he : e = .invalidPointer := by
        cases p with
        | null =>
          cases hc
          rfl
        | zeroSize => cases hc
        | block id =>
          cases hid : h.blocks id <;> simp [Heap.cells, hid] at hc
          exact hc.symm
      refine absurd ?_ hv
      simp [Heap.loadByte, Heap.load, Heap.loadCells, hneg, hc, he, bind, Except.bind]
    | ok cs =>
      obtain ⟨_, hc', rfl⟩ := hb.cells p cs hc
      simp only [Heap.loadByte, Heap.load, Heap.loadCells, hc, hc']

theorem Beside.write (hb : Beside F h h') {id : Nat} (hs : (h.blocks id).isSome) (cs : List Cell) :
    Beside F (h.write id cs) (h'.write id cs) :=
  hb.update id (some cs) (hb.absent hs) hb.next hb.limit (by simp only [Heap.write, hs, if_true])
    (by simp only [Heap.write, hb.isSome hs, if_true])

theorem Beside.store (hb : Beside F h h') (p : Ptr) (off : Nat) (new : List Cell) :
    Follows (Beside F) (h.store p off new) (h'.store p off new) := by
  intro k hk
  obtain ⟨cs, hcs, hk⟩ := bind_ok hk
  obtain ⟨_, hcs', rfl⟩ := hb.cells p cs hcs
  unfold Heap.store
  rw [hcs']
  simp only [bind, Except.bind]
  split at hk
  · next hle =>
    rw [if_pos hle]
    cases p with
    | null => cases hcs
    | zeroSize =>
      cases hk
      exact ⟨h', rfl, hb⟩
    | block id =>
      cases hk
      have hs : (h.blocks id).isSome := by rw [Heap.cells_block.mp hcs, Option.isSome_some]
      exact ⟨_, rfl, hb.write hs _⟩
  · cases hk

theorem Beside.free (hb : Beside F h h') (p : Ptr) : Follows (Beside F) (h.free p) (h'.free p) := by
  cases p with
  | null | zeroSize => exact .ok hb
  | block id =>
    simp only [Heap.free]
    by_cases hs : (h.blocks id).isSome
    · rw [if_pos hs, if_pos (hb.isSome hs)]
      exact .ok (hb.update id none (hb.absent hs) hb.next hb.limit rfl rfl)
    · rw [if_neg hs]
      exact .error

theorem Beside.freeAll (hb : Beside F h h') (ps : List Ptr) :
    Follows (Beside F) (h.freeAll ps) (h'.freeAll ps) := by
  induction ps generalizing h h' with
  | nil => exact .ok hb
  | cons p ps ih => exact (hb.free p).bind fun _ _ hb' => ih hb'

end Aesd.Lib.Frame
