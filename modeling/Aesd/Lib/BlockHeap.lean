import Mathlib.Algebra.Order.BigOperators.Group.Finset
import Mathlib.Algebra.Order.Group.Nat
import Mathlib.Algebra.Ring.Int.Defs
import Mathlib.Algebra.Ring.Nat
import Mathlib.Data.List.Basic
import Mathlib.Logic.Function.Basic

namespace Aesd.Lib.BlockHeap

inductive Fault
  | invalidPointer
  | outOfBounds
  | uninitialised
  | badFree
  | overflow
  | deadlock
  | notLocked
  | diverges
  | disabled
  deriving DecidableEq, Repr

/-- A pointer to the start of an allocation. `zeroSize` is the shared
non-NULL pointer an allocator returns for a request of no bytes. -/
inductive Ptr
  | null
  | zeroSize
  | block (id : Nat)
  deriving DecidableEq, Repr

def Ptr.id? : Ptr → Option Nat
  | .block id => some id
  | _ => none

@[simp] theorem Ptr.id?_null : Ptr.null.id? = none := rfl
@[simp] theorem Ptr.id?_zeroSize : Ptr.zeroSize.id? = none := rfl
@[simp] theorem Ptr.id?_block (id : Nat) : (Ptr.block id).id? = some id := rfl

/-- A byte of memory; `none` is a byte the program has never stored. -/
abbrev Cell := Option UInt8

/-- Live blocks by identity. Identities are never used again, so a stale
pointer never becomes valid, and `limit` bounds what one request is granted. -/
@[ext] structure Heap where
  blocks : Nat → Option (List Cell)
  next : Nat
  limit : Nat
  fresh : ∀ id, next ≤ id → blocks id = none

def Heap.empty (limit : Nat) : Heap := ⟨fun _ => none, 0, limit, fun _ _ => rfl⟩

namespace Heap

theorem lt_next {h : Heap} {id : Nat} {cs : List Cell} (hb : h.blocks id = some cs) :
    id < h.next := by
  by_contra hn
  rw [h.fresh id (by omega)] at hb
  cases hb

def insert (h : Heap) (cs : List Cell) : Heap where
  blocks := Function.update h.blocks h.next (some cs)
  next := h.next + 1
  limit := h.limit
  fresh id hid := by
    rw [Function.update_of_ne (by omega)]
    exact h.fresh id (by omega)

def erase (h : Heap) (id : Nat) : Heap where
  blocks := Function.update h.blocks id none
  next := h.next
  limit := h.limit
  fresh j hj := by
    by_cases he : j = id
    · subst j; simp
    · rw [Function.update_of_ne he]
      exact h.fresh j hj

def write (h : Heap) (id : Nat) (cs : List Cell) : Heap where
  blocks := if (h.blocks id).isSome then Function.update h.blocks id (some cs) else h.blocks
  next := h.next
  limit := h.limit
  fresh j hj := by
    split
    · next hb =>
      have hne : j ≠ id := by
        intro he
        subst j
        simp [h.fresh id hj] at hb
      rw [Function.update_of_ne hne]
      exact h.fresh j hj
    · exact h.fresh j hj

def malloc (h : Heap) (n : Nat) (granted : Bool) : Ptr × Heap :=
  if granted = true ∧ n ≤ h.limit then
    if n = 0 then (.zeroSize, h) else (.block h.next, h.insert (List.replicate n none))
  else (.null, h)

def cells (h : Heap) : Ptr → Except Fault (List Cell)
  | .null => .error .invalidPointer
  | .zeroSize => .ok []
  | .block id =>
    match h.blocks id with
    | some cs => .ok cs
    | none => .error .invalidPointer

def loadCells (h : Heap) (p : Ptr) (off n : Nat) : Except Fault (List Cell) := do
  let cs ← h.cells p
  if off + n ≤ cs.length then .ok ((cs.drop off).take n) else .error .outOfBounds

def initialised (cs : List Cell) : Except Fault (List UInt8) :=
  if cs.all Option.isSome then .ok (cs.filterMap id) else .error .uninitialised

def load (h : Heap) (p : Ptr) (off n : Nat) : Except Fault (List UInt8) := do
  initialised (← h.loadCells p off n)

/-- One byte at a signed offset, as pointer arithmetic forms it. -/
def loadByte (h : Heap) (p : Ptr) (off : Int) : Except Fault UInt8 := do
  if off < 0 then .error .outOfBounds
  else
    match ← h.load p off.toNat 1 with
    | [b] => .ok b
    | _ => .error .outOfBounds

def store (h : Heap) (p : Ptr) (off : Nat) (new : List Cell) : Except Fault Heap := do
  let cs ← h.cells p
  if off + new.length ≤ cs.length then
    match p with
    | .block id => .ok (h.write id (cs.take off ++ new ++ cs.drop (off + new.length)))
    | _ => .ok h
  else .error .outOfBounds

def free (h : Heap) : Ptr → Except Fault Heap
  | .block id => if (h.blocks id).isSome then .ok (h.erase id) else .error .badFree
  | _ => .ok h

/-- `realloc` of a live block to a nonzero size, where a granted request moves
the block. A refused one leaves the old block as it was. -/
def realloc (h : Heap) (p : Ptr) (n : Nat) (granted : Bool) : Except Fault (Ptr × Heap) := do
  let cs ← h.cells p
  match h.malloc n granted with
  | (.block id, h') =>
    let h'' ← (h'.write id (cs.take n ++ List.replicate (n - cs.length) none)).free p
    .ok (.block id, h'')
  | (q, h') => .ok (q, h')

/-- `realloc` of a live block that is granted and leaves the block where it is. -/
def resize (h : Heap) (p : Ptr) (n : Nat) : Except Fault Heap := do
  let cs ← h.cells p
  match p with
  | .block id =>
    if n ≤ h.limit then .ok (h.write id (cs.take n ++ List.replicate (n - cs.length) none))
    else .error .disabled
  | _ => .error .disabled

def freeAll (h : Heap) (ps : List Ptr) : Except Fault Heap := ps.foldlM Heap.free h

/-- `p` is a usable allocation that starts with the stored bytes `bs`. -/
def Holds (h : Heap) (p : Ptr) (bs : List UInt8) : Prop :=
  ∃ cs, h.cells p = .ok cs ∧ bs.map some <+: cs

def HoldsIn (h : Heap) (p : Ptr) (n : Nat) (bs : List UInt8) : Prop :=
  ∃ cs, h.cells p = .ok cs ∧ cs.length = n ∧ bs.map some <+: cs

/-- The pointers `ps` are exactly the live blocks, each held once. NULL and
the zero-size pointer own nothing and may be repeated. -/
def Owns (h : Heap) (ps : List Ptr) : Prop :=
  (ps.filterMap Ptr.id?).Nodup ∧ ∀ id, (h.blocks id).isSome ↔ id ∈ ps.filterMap Ptr.id?

def capacity (h : Heap) (p : Ptr) : Nat :=
  match p.id? with
  | some id => ((h.blocks id).getD []).length
  | none => 0

def size (h : Heap) : Nat := ∑ id ∈ Finset.range h.next, h.capacity (.block id)

/-- What the blocks `ps` hold in `h`, they still hold in `h'`. -/
def Keeps (h h' : Heap) (ps : List Ptr) : Prop :=
  ∀ q ∈ ps, ∀ cs, h.cells q = .ok cs → h'.cells q = .ok cs

theorem cells_block {h : Heap} {id : Nat} {cs : List Cell} :
    h.cells (.block id) = .ok cs ↔ h.blocks id = some cs := by
  cases hb : h.blocks id <;> simp [cells, hb]

theorem malloc_cells {h : Heap} {n : Nat} {granted : Bool} {p : Ptr} {h' : Heap}
    (hm : h.malloc n granted = (p, h')) (hp : p ≠ .null) :
    h'.cells p = .ok (List.replicate n none) := by
  unfold malloc at hm
  split at hm
  · split at hm
    · next hn =>
      cases hm
      simp [cells, hn]
    · cases hm
      simp [cells, insert]
  · cases hm
    exact absurd rfl hp

theorem malloc_zeroSize_iff {h : Heap} {n : Nat} {granted : Bool} {p : Ptr} {h' : Heap}
    (hm : h.malloc n granted = (p, h')) (hp : p ≠ .null) : p = .zeroSize ↔ n = 0 := by
  unfold malloc at hm
  split at hm
  · split at hm
    · next hn =>
      cases hm
      exact iff_of_true rfl hn
    · next hn =>
      cases hm
      exact iff_of_false (by simp) hn
  · cases hm
    exact absurd rfl hp

theorem malloc_keeps (h : Heap) (n : Nat) (granted : Bool) (ps : List Ptr) :
    h.Keeps (h.malloc n granted).2 ps := by
  intro q _ cs hq
  unfold malloc
  split
  · split
    · exact hq
    · cases q with
      | block id =>
        have hb := cells_block.mp hq
        have hlt := lt_next hb
        rw [cells_block]
        simpa [insert, Function.update_of_ne (Nat.ne_of_lt hlt)] using hb
      | null | zeroSize => exact hq
  · exact hq

theorem malloc_cases (h : Heap) (n : Nat) (granted : Bool) :
    (h.malloc n granted = (.null, h) ∧ ¬ (granted = true ∧ n ≤ h.limit)) ∨
      (granted = true ∧ n ≤ h.limit ∧ ∃ p h', h.malloc n granted = (p, h') ∧ p ≠ .null) := by
  by_cases hg : granted = true ∧ n ≤ h.limit
  · right
    refine ⟨hg.1, hg.2, ?_⟩
    by_cases hn : n = 0
    · exact ⟨.zeroSize, h, by simp [malloc, hg, hn], by simp⟩
    · exact ⟨.block h.next, _, by simp [malloc, hg, hn]; rfl, by simp⟩
  · left
    exact ⟨by simp only [malloc, hg, if_false], hg⟩

@[simp] theorem malloc_limit (h : Heap) (n : Nat) (granted : Bool) :
    (h.malloc n granted).2.limit = h.limit := by
  unfold malloc
  split
  · split <;> rfl
  · rfl

theorem store_limit {h h' : Heap} {p : Ptr} {off : Nat} {new : List Cell}
    (hs : h.store p off new = .ok h') : h'.limit = h.limit := by
  unfold store at hs
  cases hc : h.cells p with
  | error e => simp [hc, bind, Except.bind] at hs
  | ok cs =>
    simp only [hc, bind, Except.bind] at hs
    split at hs
    · cases p <;> cases hs <;> rfl
    · cases hs

theorem free_limit {h h' : Heap} {p : Ptr} (hf : h.free p = .ok h') : h'.limit = h.limit := by
  cases p with
  | block id =>
    simp only [free] at hf
    split at hf <;> cases hf
    rfl
  | null | zeroSize => cases hf; rfl

theorem write_self {h : Heap} {id : Nat} (hb : (h.blocks id).isSome) (cs : List Cell) :
    (h.write id cs).blocks id = some cs := by
  simp only [write, hb, if_true, Function.update_self]

theorem write_other {h : Heap} {id j : Nat} (hj : j ≠ id) (cs : List Cell) :
    (h.write id cs).blocks j = h.blocks j := by
  simp only [write]
  split
  · exact Function.update_of_ne hj _ _
  · rfl

theorem write_isSome {h : Heap} {id : Nat} (hb : (h.blocks id).isSome) (cs : List Cell) (j : Nat) :
    ((h.write id cs).blocks j).isSome = (h.blocks j).isSome := by
  by_cases hj : j = id
  · rw [hj, write_self hb, hb, Option.isSome_some]
  · rw [write_other hj]

theorem store_cells {h : Heap} {p : Ptr} {off : Nat} {new cs : List Cell}
    (hp : h.cells p = .ok cs) (hb : off + new.length ≤ cs.length) :
    ∃ h', h.store p off new = .ok h' ∧
      h'.cells p = .ok (cs.take off ++ new ++ cs.drop (off + new.length)) ∧
      (∀ q, q ≠ p → h'.cells q = h.cells q) ∧
      ∀ id, (h'.blocks id).isSome = (h.blocks id).isSome := by
  cases p with
  | null => simp [cells] at hp
  | zeroSize =>
    have hcs : cs = [] := by simpa [cells] using hp.symm
    subst cs
    have hnew : new = [] := List.length_eq_zero_iff.mp (by
      have := hb
      simp only [List.length_nil] at this
      omega)
    subst new
    exact ⟨h, by simpa [store, hp, bind, Except.bind] using hb, by simp [cells], fun _ _ => rfl,
      fun _ => rfl⟩
  | block id =>
    have hlive : (h.blocks id).isSome := by rw [cells_block.mp hp, Option.isSome_some]
    refine ⟨h.write id (cs.take off ++ new ++ cs.drop (off + new.length)), ?_, ?_, ?_,
      write_isSome hlive _⟩
    · simp [store, hp, hb, bind, Except.bind]
    · exact cells_block.mpr (write_self hlive _)
    · intro q hq
      cases q with
      | block j =>
        have hj : j ≠ id := fun he => hq (by rw [he])
        simp only [cells, write_other hj]
      | null | zeroSize => rfl

theorem free_cells {h : Heap} {p : Ptr} {cs : List Cell} (hp : h.cells p = .ok cs) :
    ∃ h', h.free p = .ok h' ∧ (∀ q, q ≠ p → h'.cells q = h.cells q) ∧
      ∀ id, (h'.blocks id).isSome ↔ (h.blocks id).isSome ∧ p ≠ .block id := by
  cases p with
  | null => simp [cells] at hp
  | zeroSize => exact ⟨h, rfl, fun _ _ => rfl, by simp⟩
  | block id =>
    have hb := cells_block.mp hp
    refine ⟨h.erase id, by simp [free, hb], ?_, ?_⟩
    · intro q hq
      cases q with
      | block j =>
        have hj : j ≠ id := fun he => hq (by rw [he])
        simp [cells, erase, Function.update_of_ne hj]
      | null | zeroSize => rfl
    · intro j
      by_cases hj : j = id
      · subst j; simp [erase]
      · simp [erase, Function.update_of_ne hj, Ne.symm hj]

theorem Keeps.trans {h h' h'' : Heap} {ps : List Ptr} (hk : h.Keeps h' ps)
    (hk' : h'.Keeps h'' ps) : h.Keeps h'' ps :=
  fun q hq cs hc => hk' q hq cs (hk q hq cs hc)

theorem Keeps.subset {h h' : Heap} {ps qs : List Ptr} (hk : h.Keeps h' ps) (hs : qs ⊆ ps) :
    h.Keeps h' qs :=
  fun q hq => hk q (hs hq)

theorem Holds.keeps {h h' : Heap} {ps : List Ptr} {p : Ptr} {bs : List UInt8}
    (hh : h.Holds p bs) (hk : h.Keeps h' ps) (hp : p ∈ ps) : h'.Holds p bs := by
  obtain ⟨cs, hc, hpre⟩ := hh
  exact ⟨cs, hk p hp cs hc, hpre⟩

theorem Holds.ne_null {h : Heap} {p : Ptr} {bs : List UInt8} (hh : h.Holds p bs) : p ≠ .null := by
  rintro rfl
  obtain ⟨cs, hp, _⟩ := hh
  simp [cells] at hp

theorem initialised_map (bs : List UInt8) : initialised (bs.map some) = .ok bs := by
  simp [initialised, List.filterMap_map]

theorem Holds.loadCells {h : Heap} {p : Ptr} {bs : List UInt8} (hh : h.Holds p bs) {off n : Nat}
    (hn : off + n ≤ bs.length) : h.loadCells p off n = .ok (((bs.drop off).take n).map some) := by
  obtain ⟨cs, hp, rest, rfl⟩ := hh
  have hl : off + n ≤ (bs.map some ++ rest).length := by simp; omega
  simp only [Heap.loadCells, hp, bind, Except.bind, hl, if_true]
  rw [List.drop_append_of_le_length (by simp; omega), List.take_append_of_le_length (by simp; omega)]
  simp [List.map_take, List.map_drop]

theorem Holds.load {h : Heap} {p : Ptr} {bs : List UInt8} (hh : h.Holds p bs) {off n : Nat}
    (hn : off + n ≤ bs.length) : h.load p off n = .ok ((bs.drop off).take n) := by
  simp only [Heap.load, hh.loadCells hn, bind, Except.bind, initialised_map]

theorem Holds.loadByte {h : Heap} {p : Ptr} {bs : List UInt8} (hh : h.Holds p bs) {off : Nat}
    (hn : off < bs.length) : h.loadByte p (off : Int) = .ok bs[off] := by
  have hl : h.load p off 1 = _ := hh.load (by omega)
  have h1 : (bs.drop off).take 1 = [bs[off]] := by
    rw [List.drop_eq_getElem_cons hn, List.take_succ_cons, List.take_zero]
  have hneg : ¬ (off : Int) < 0 := by omega
  simp only [Heap.loadByte, hneg, if_false, Int.toNat_natCast, hl, bind, Except.bind, h1]

theorem Holds.store {h : Heap} {p : Ptr} {bs : List UInt8} {cs : List Cell} (new : List UInt8)
    (pad : List Cell) (hp : h.cells p = .ok cs) (hpre : bs.map some <+: cs)
    (hb : bs.length + (new.length + pad.length) ≤ cs.length) :
    ∃ h', h.store p bs.length (new.map some ++ pad) = .ok h' ∧ h'.Holds p (bs ++ new) ∧
      (∀ q, q ≠ p → h'.cells q = h.cells q) ∧
      ∀ id, (h'.blocks id).isSome = (h.blocks id).isSome := by
  obtain ⟨h', hs, hc, hq, hid⟩ := store_cells hp (show bs.length + (new.map some ++ pad).length ≤ _ by simpa using hb)
  refine ⟨h', hs, ⟨_, hc, ?_⟩, hq, hid⟩
  obtain ⟨rest, rfl⟩ := hpre
  have ht : (bs.map some ++ rest).take bs.length = bs.map some := by
    rw [List.take_append_of_le_length (by simp)]
    exact List.take_of_length_le (by simp)
  rw [ht, List.map_append, List.append_assoc, List.append_assoc]
  exact List.prefix_append_right_inj _ |>.mpr (by simp)

theorem Owns.of_ids {h : Heap} {ps qs : List Ptr} (ho : h.Owns ps)
    (hp : (ps.filterMap Ptr.id?).Perm (qs.filterMap Ptr.id?)) : h.Owns qs :=
  ⟨hp.nodup_iff.mp ho.1, fun id => (ho.2 id).trans hp.mem_iff⟩

theorem Owns.perm {h : Heap} {ps qs : List Ptr} (ho : h.Owns ps) (hp : ps.Perm qs) :
    h.Owns qs := ho.of_ids (hp.filterMap Ptr.id?)

theorem Owns.of_blocks {h h' : Heap} {ps : List Ptr} (ho : h.Owns ps)
    (hb : ∀ id, (h'.blocks id).isSome = (h.blocks id).isSome) : h'.Owns ps :=
  ⟨ho.1, fun id => by rw [hb id]; exact ho.2 id⟩

theorem Owns.cons_null {h : Heap} {ps : List Ptr} : h.Owns (.null :: ps) ↔ h.Owns ps := by
  rw [Owns, List.filterMap_cons_none Ptr.id?_null, Owns]

theorem Owns.head_ne {h : Heap} {p q : Ptr} {ps : List Ptr} (ho : h.Owns (p :: ps)) (hq : q ∈ ps)
    (hp : q = p) : p.id? = none := by
  subst hp
  cases hi : q.id? with
  | none => rfl
  | some id =>
    have hn := ho.1
    rw [List.filterMap_cons_some hi, List.nodup_cons] at hn
    exact absurd (List.mem_filterMap.mpr ⟨q, hq, hi⟩) hn.1

theorem cells_of_id?_none {h h' : Heap} {p : Ptr} (hp : p.id? = none) : h'.cells p = h.cells p := by
  cases p with
  | block id => simp at hp
  | null | zeroSize => rfl

theorem Owns.keeps {h h' : Heap} {p : Ptr} {ps : List Ptr} (ho : h.Owns (p :: ps))
    (hf : ∀ q, q ≠ p → h'.cells q = h.cells q) : h.Keeps h' ps := by
  intro q hq cs hc
  by_cases he : q = p
  · have hi := ho.head_ne hq he
    rwa [cells_of_id?_none (he ▸ hi)]
  · rwa [hf q he]

theorem Owns.malloc {h : Heap} {ps : List Ptr} (ho : h.Owns ps) (n : Nat) (granted : Bool) :
    (h.malloc n granted).2.Owns ((h.malloc n granted).1 :: ps) := by
  unfold Heap.malloc
  split
  · split
    · exact ho
    · have hfresh : h.next ∉ ps.filterMap Ptr.id? := by
        intro hm
        have hs := (ho.2 h.next).mpr hm
        simp [h.fresh h.next (Nat.le_refl _)] at hs
      refine ⟨?_, fun id => ?_⟩
      · rw [List.filterMap_cons_some (Ptr.id?_block _), List.nodup_cons]
        exact ⟨hfresh, ho.1⟩
      · rw [List.filterMap_cons_some (Ptr.id?_block _), List.mem_cons, ← ho.2 id]
        by_cases hid : id = h.next
        · subst id; simp [insert]
        · simp [insert, hid]
  · exact Owns.cons_null.mpr ho

theorem Owns.free {h : Heap} {p : Ptr} {ps : List Ptr} (ho : h.Owns (p :: ps)) :
    ∃ h', h.free p = .ok h' ∧ h'.Owns ps ∧ h.Keeps h' ps := by
  cases hi : p.id? with
  | none =>
    have hs : h.Owns ps := by
      simpa [Owns, List.filterMap_cons_none hi] using ho
    cases p with
    | block id => simp at hi
    | null | zeroSize => exact ⟨h, rfl, hs, fun _ _ _ hc => hc⟩
  | some id =>
    cases p with
    | null | zeroSize => simp at hi
    | block j =>
      obtain rfl : j = id := by simpa using hi
      obtain ⟨hn, hb⟩ := ho
      have hlive : (h.blocks j).isSome := (hb j).mpr (by simp)
      obtain ⟨cs, hcs⟩ := Option.isSome_iff_exists.mp hlive
      obtain ⟨h', hf, hq, hid⟩ := free_cells (cells_block.mpr hcs)
      rw [List.filterMap_cons_some hi, List.nodup_cons] at hn
      refine ⟨h', hf, ⟨hn.2, fun i => ?_⟩, Owns.keeps ⟨?_, hb⟩ hq⟩
      · rw [hid i, hb i, List.filterMap_cons_some hi, List.mem_cons]
        constructor
        · rintro ⟨he | hm, hne⟩
          · exact absurd (by rw [he]) hne
          · exact hm
        · intro hm
          exact ⟨.inr hm, fun he => hn.1 (by cases he; exact hm)⟩
      · rw [List.filterMap_cons_some hi, List.nodup_cons]
        exact hn

theorem Owns.freeAll {h : Heap} {ps : List Ptr} (ho : h.Owns ps) :
    ∃ h', h.freeAll ps = .ok h' ∧ ∀ id, h'.blocks id = none := by
  induction ps generalizing h with
  | nil =>
    refine ⟨h, rfl, fun id => ?_⟩
    have := ho.2 id
    simpa using this
  | cons p ps ih =>
    obtain ⟨h', hf, ho', _⟩ := ho.free
    obtain ⟨t, ht, hnone⟩ := ih ho'
    refine ⟨t, ?_, hnone⟩
    simp only [Heap.freeAll, List.foldlM_cons, hf, bind, Except.bind]
    exact ht

theorem Holds.le_capacity {h : Heap} {p : Ptr} {bs : List UInt8} (hh : h.Holds p bs) :
    bs.length ≤ h.capacity p := by
  obtain ⟨cs, hc, hpre⟩ := hh
  have hle := hpre.length_le
  rw [List.length_map] at hle
  cases p with
  | null => simp [cells] at hc
  | zeroSize =>
    obtain rfl : cs = [] := by simpa [cells] using hc.symm
    exact hle
  | block id => simpa [capacity, cells_block.mp hc] using hle

theorem sum_capacity (h : Heap) (ps : List Ptr) :
    (ps.map h.capacity).sum =
      ((ps.filterMap Ptr.id?).map fun id => h.capacity (.block id)).sum := by
  induction ps with
  | nil => rfl
  | cons p ps ih =>
    cases p with
    | null | zeroSize =>
      rw [List.filterMap_cons_none rfl, List.map_cons, List.sum_cons, ih]
      exact Nat.zero_add _
    | block id =>
      rw [List.filterMap_cons_some (Ptr.id?_block id), List.map_cons, List.sum_cons, ih,
        List.map_cons, List.sum_cons]

theorem Owns.capacity_le {h : Heap} {ps : List Ptr} (ho : h.Owns ps) :
    (ps.map h.capacity).sum ≤ h.size := by
  rw [sum_capacity, ← List.sum_toFinset _ ho.1]
  apply Finset.sum_le_sum_of_subset
  intro id hid
  rw [List.mem_toFinset, ← ho.2] at hid
  obtain ⟨cs, hb⟩ := Option.isSome_iff_exists.mp hid
  exact Finset.mem_range.mpr (lt_next hb)

theorem HoldsIn.holds {h : Heap} {p : Ptr} {n : Nat} {bs : List UInt8} (hh : h.HoldsIn p n bs) :
    h.Holds p bs := by
  obtain ⟨cs, hc, _, hpre⟩ := hh
  exact ⟨cs, hc, hpre⟩

theorem HoldsIn.shorten {h : Heap} {p : Ptr} {n : Nat} {bs cs : List UInt8}
    (hh : h.HoldsIn p n bs) (hpre : cs <+: bs) : h.HoldsIn p n cs := by
  obtain ⟨ds, hc, hn, hd⟩ := hh
  exact ⟨ds, hc, hn, (hpre.map some).trans hd⟩

theorem HoldsIn.length_le {h : Heap} {p : Ptr} {n : Nat} {bs : List UInt8}
    (hh : h.HoldsIn p n bs) : bs.length ≤ n := by
  obtain ⟨cs, _, hn, hpre⟩ := hh
  have hle := hpre.length_le
  rwa [List.length_map, hn] at hle

theorem HoldsIn.area {h : Heap} {p : Ptr} {n : Nat} {bs : List UInt8} (hh : h.HoldsIn p n bs)
    {off m : Nat} (hm : off + m ≤ n) : ∃ cs, h.loadCells p off m = .ok cs := by
  obtain ⟨cs, hc, hn, _⟩ := hh
  refine ⟨(cs.drop off).take m, ?_⟩
  have hle : off + m ≤ cs.length := by omega
  simp only [Heap.loadCells, hc, bind, Except.bind, hle, if_true]

theorem HoldsIn.store {h : Heap} {p : Ptr} {n off : Nat} {bs new : List UInt8}
    (hh : h.HoldsIn p n bs) (hoff : off ≤ bs.length) (hn : off + new.length ≤ n) :
    ∃ h', h.store p off (new.map some) = .ok h' ∧ h'.HoldsIn p n (bs.take off ++ new) ∧
      h'.limit = h.limit ∧ ∀ id, (h'.blocks id).isSome = (h.blocks id).isSome := by
  obtain ⟨cs, hc, hlen, hpre⟩ := hh
  obtain ⟨h', hs, hc', _, hid⟩ := store_cells hc
    (show off + (new.map some).length ≤ cs.length by rw [List.length_map]; omega)
  refine ⟨h', hs, ⟨_, hc', ?_, ?_⟩, store_limit hs, hid⟩
  · simp only [List.length_append, List.length_take, List.length_map, List.length_drop]
    omega
  · obtain ⟨rest, rfl⟩ := hpre
    have ht : (bs.map some ++ rest).take off = (bs.take off).map some := by
      rw [List.take_append_of_le_length (by simpa using hoff), List.map_take]
    rw [ht, List.map_append]
    exact List.prefix_append _ _

theorem realloc_refused {h : Heap} {p : Ptr} {n m : Nat} {bs : List UInt8}
    (hh : h.HoldsIn p m bs) {granted : Bool} (hr : ¬ (granted = true ∧ n ≤ h.limit)) :
    h.realloc p n granted = .ok (.null, h) := by
  obtain ⟨cs, hc, _, _⟩ := hh
  simp only [Heap.realloc, hc, bind, Except.bind, Heap.malloc, hr, if_false]

theorem resized_cells {cs : List Cell} {bs : List UInt8} (hpre : bs.map some <+: cs) (n : Nat) :
    (cs.take n ++ List.replicate (n - cs.length) none).length = n ∧
      (bs.take n).map some <+: cs.take n ++ List.replicate (n - cs.length) none := by
  constructor
  · rw [List.length_append, List.length_take, List.length_replicate]
    omega
  · have ht : (bs.take n).map some <+: cs.take n := by
      rw [List.map_take, List.prefix_take_iff]
      exact ⟨(List.take_prefix _ _).trans hpre, List.length_take_le _ _⟩
    exact ht.trans (List.prefix_append _ _)

/-- A granted `realloc` moves the bytes held to the new block, and the old one
is gone. -/
theorem realloc_granted {h : Heap} {p : Ptr} {n m : Nat} {bs : List UInt8}
    (ho : h.Owns [p]) (hh : h.HoldsIn p m bs) (h0 : 0 < n) (hl : n ≤ h.limit) :
    ∃ q h', h.realloc p n true = .ok (q, h') ∧ q ≠ .null ∧ h'.HoldsIn q n (bs.take n) ∧
      h'.Owns [q] ∧ h'.limit = h.limit := by
  obtain ⟨cs, hc, _, hpre⟩ := hh
  have hm : h.malloc n true = (.block h.next, h.insert (List.replicate n none)) := by
    have hn : ¬ n = 0 := by omega
    simp [Heap.malloc, hl, hn]
  have ho₁ := ho.malloc n true
  rw [hm] at ho₁
  let h₁ := h.insert (List.replicate n none)
  let new := cs.take n ++ List.replicate (n - cs.length) none
  have hlive : (h₁.blocks h.next).isSome := by simp [h₁, insert]
  have ho₂ : (h₁.write h.next new).Owns [p, .block h.next] :=
    (ho₁.of_blocks (write_isSome hlive new)).perm (.swap _ _ _)
  obtain ⟨h₃, hfree, ho₃, hkeep⟩ := ho₂.free
  obtain ⟨hlen, hnew⟩ := resized_cells hpre n
  refine ⟨.block h.next, h₃, ?_, by simp, ⟨new, ?_, hlen, hnew⟩, ho₃, ?_⟩
  · simp only [Heap.realloc, hc, bind, Except.bind, hm]
    rw [show (h.insert (List.replicate n none)).write h.next
      (cs.take n ++ List.replicate (n - cs.length) none) = h₁.write h.next new from rfl, hfree]
  · exact hkeep _ List.mem_cons_self _ (cells_block.mpr (write_self hlive new))
  · rw [free_limit hfree]
    rfl

theorem HoldsIn.block {h : Heap} {p : Ptr} {n : Nat} {bs : List UInt8} (hh : h.HoldsIn p n bs)
    (hn : 0 < n) : ∃ id cs, p = .block id ∧ h.blocks id = some cs ∧ cs.length = n ∧
      bs.map some <+: cs := by
  obtain ⟨cs, hc, hlen, hpre⟩ := hh
  cases p with
  | null => simp [cells] at hc
  | zeroSize =>
    have hcs : cs = [] := by simpa [cells] using hc.symm
    rw [hcs, List.length_nil] at hlen
    omega
  | block id => exact ⟨id, cs, rfl, cells_block.mp hc, hlen, hpre⟩

theorem resize_refused {h : Heap} {p : Ptr} {n m : Nat} {bs : List UInt8}
    (hh : h.HoldsIn p m bs) (hl : ¬ n ≤ h.limit) : h.resize p n = .error .disabled := by
  obtain ⟨cs, hc, _, _⟩ := hh
  simp only [Heap.resize, hc, bind, Except.bind, hl, if_false]
  cases p <;> rfl

theorem resize_granted {h : Heap} {p : Ptr} {n m : Nat} {bs : List UInt8}
    (ho : h.Owns [p]) (hh : h.HoldsIn p m bs) (hm : 0 < m) (hl : n ≤ h.limit) :
    ∃ h', h.resize p n = .ok h' ∧ h'.HoldsIn p n (bs.take n) ∧ h'.Owns [p] ∧
      h'.limit = h.limit := by
  obtain ⟨id, cs, rfl, hb, _, hpre⟩ := hh.block hm
  have hlive : (h.blocks id).isSome := by rw [hb, Option.isSome_some]
  let new := cs.take n ++ List.replicate (n - cs.length) none
  obtain ⟨hlen, hnew⟩ := resized_cells hpre n
  refine ⟨h.write id new, ?_, ⟨new, cells_block.mpr (write_self hlive new), hlen, hnew⟩,
    ho.of_blocks (write_isSome hlive new), rfl⟩
  simp only [Heap.resize, cells_block.mpr hb, bind, Except.bind, hl, if_true]
  rfl

theorem freeAll_snoc_ok {h t : Heap} {ps : List Ptr} {p : Ptr}
    (hf : h.freeAll (ps ++ [p]) = .ok t) :
    ∃ h', h.freeAll ps = .ok h' ∧ h'.free p = .ok t := by
  induction ps generalizing h with
  | nil =>
    refine ⟨h, rfl, ?_⟩
    cases hp : h.free p with
    | error e => simp [freeAll, hp, bind, Except.bind] at hf
    | ok h' => simpa [freeAll, hp, bind, Except.bind, pure, Except.pure] using hf
  | cons q ps ih =>
    cases hq : h.free q with
    | error e => simp [freeAll, hq, bind, Except.bind] at hf
    | ok h₁ =>
      have hf₁ : h₁.freeAll (ps ++ [p]) = .ok t := by
        simpa [freeAll, hq, bind, Except.bind] using hf
      obtain ⟨h', hps, hp⟩ := ih hf₁
      exact ⟨h', by simpa [freeAll, hq, bind, Except.bind] using hps, hp⟩

end Heap

end Aesd.Lib.BlockHeap
