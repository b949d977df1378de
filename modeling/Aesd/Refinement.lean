import Aesd.BoundedFifo
import Aesd.Driver
import Mathlib.Data.List.Forall2

namespace Aesd.Refinement

open Aesd.Lib.BlockHeap Aesd.Lib.MachineInt Aesd.Lib.Sequence
open Aesd.CircularBuffer Aesd.BoundedFifo Aesd.Driver Aesd.RecordLog

def Stored (h : Heap) (e : AesdBufferEntry) (bs : List UInt8) : Prop :=
  e.size = bs.length ∧ h.Holds e.buffptr bs

def Pending (h : Heap) (e : AesdBufferEntry) : Option (List UInt8) → Prop
  | none => e = unused
  | some bs => Stored h e bs ∧ bs.length ≤ kmallocLimit

def entryPtrs (dev : AesdDev) : List Ptr := (contents dev.circBuf).map (·.buffptr)

/-- The device represents the log, and the live kernel blocks are exactly
those of the ring entries and of the partial write. -/
structure Represents (k : Kernel) (l : Log) : Prop where
  ring : Ring k.dev.circBuf (contents k.dev.circBuf)
  entries : List.Forall₂ (Stored k.heap) (contents k.dev.circBuf) (lastN 10 l.records)
  pending : Pending k.heap k.dev.partialWrite l.pending
  owns : k.heap.Owns (k.dev.partialWrite.buffptr :: entryPtrs k.dev)
  limit : k.heap.limit = kmallocLimit

theorem represents_init : Represents aesdInitModule Log.empty := by
  have hc : contents aesdInitModule.dev.circBuf = [] := ring_init.contents_eq
  refine ⟨by rw [hc]; exact ring_init, by rw [hc]; exact .nil, rfl, ?_, rfl⟩
  rw [entryPtrs, hc]
  exact ⟨by decide, fun id => by simp [aesdInitModule, Heap.empty]⟩

theorem Stored.keeps {h h' : Heap} {e : AesdBufferEntry} {bs : List UInt8} {ps : List Ptr}
    (hs : Stored h e bs) (hk : h.Keeps h' ps) (hp : e.buffptr ∈ ps) : Stored h' e bs :=
  ⟨hs.1, hs.2.keeps hk hp⟩

theorem stored_keeps {h h' : Heap} {es : List AesdBufferEntry} {bss : List (List UInt8)}
    (hs : List.Forall₂ (Stored h) es bss) (hk : h.Keeps h' (es.map (·.buffptr))) :
    List.Forall₂ (Stored h') es bss := by
  induction hs with
  | nil => exact .nil
  | cons he _ ih =>
    exact .cons (he.keeps hk (by simp)) (ih (hk.subset (by simp)))

structure Grown (k : Kernel) (l : Log) (count : Nat) (k' : Kernel) (p : Ptr) (off : Nat) :
    Prop where
  dev : k'.dev = { k.dev with partialWrite := ⟨p, l.openBytes.length⟩ }
  off : off = l.openBytes.length
  cells : ∃ cs, k'.heap.cells p = .ok cs ∧ l.openBytes.map some <+: cs ∧
    cs.length = l.openBytes.length + count
  entries : List.Forall₂ (Stored k'.heap) (contents k.dev.circBuf) (lastN 10 l.records)
  owns : k'.heap.Owns (p :: entryPtrs k.dev)
  limit : k'.heap.limit = kmallocLimit
  room : l.openBytes.length + count ≤ kmallocLimit
  zeroSize : p = .zeroSize ↔ l.openBytes.length + count = 0

def Granted (l : Log) (count : Nat) (granted : Bool) : Prop :=
  granted = true ∧ l.openBytes.length + count ≤ kmallocLimit

theorem grow_fresh {k : Kernel} {l : Log} (hr : Represents k l) (hl : l.pending = none)
    (count : Nat) (granted : Bool) :
    (growPartialWrite k count granted = .ok none ∧ ¬ Granted l count granted) ∨
      (Granted l count granted ∧ ∃ k' p off,
        growPartialWrite k count granted = .ok (some (k', p, off)) ∧ Grown k l count k' p off) := by
  have hcur : l.openBytes = [] := by simp [Log.openBytes, hl]
  have hpw : k.dev.partialWrite = unused := by
    have h := hr.pending
    rwa [hl] at h
  have ho : k.heap.Owns (entryPtrs k.dev) := by
    have h := hr.owns
    rwa [hpw, unused, Heap.Owns.cons_null] at h
  unfold growPartialWrite Granted
  rw [hpw]
  simp only [unused, ne_eq, not_true_eq_false, if_false, hcur, List.length_nil, Nat.zero_add]
  obtain ⟨hm, hn⟩ | ⟨hg, hn, p, h', hm, hp⟩ := Heap.malloc_cases k.heap count granted
  · left
    rw [hr.limit] at hn
    exact ⟨by rw [hm], hn⟩
  · right
    rw [hr.limit] at hn
    have hk := Heap.malloc_keeps k.heap count granted (entryPtrs k.dev)
    have ho' := ho.malloc count granted
    have hlim := Heap.malloc_limit k.heap count granted
    rw [hm] at hk ho' hlim
    refine ⟨⟨hg, hn⟩, ⟨{ k.dev with partialWrite := ⟨p, 0⟩ }, h'⟩, p, 0, ?_, ?_⟩
    · rw [hm]
      cases p <;> first | exact absurd rfl hp | rfl
    · exact {
        dev := by simp [hcur]
        off := by simp [hcur]
        cells := ⟨_, Heap.malloc_cells hm hp, by simp [hcur], by simp [hcur]⟩
        entries := stored_keeps hr.entries hk
        owns := ho'
        limit := hlim.trans hr.limit
        room := by simpa [hcur] using hn
        zeroSize := by simpa [hcur] using Heap.malloc_zeroSize_iff hm hp }

theorem grow_pending {k : Kernel} {l : Log} (hr : Represents k l) {bs : List UInt8}
    (hl : l.pending = some bs) {count : Nat} (hc : count < 2 ^ 63) (granted : Bool) :
    (growPartialWrite k count granted = .ok none ∧ ¬ Granted l count granted) ∨
      (Granted l count granted ∧ ∃ k' p off,
        growPartialWrite k count granted = .ok (some (k', p, off)) ∧ Grown k l count k' p off) := by
  have hcur : l.openBytes = bs := by simp [Log.openBytes, hl]
  obtain ⟨⟨hsize, hholds⟩, hbs⟩ : Stored k.heap k.dev.partialWrite bs ∧ bs.length ≤ kmallocLimit := by
    have h := hr.pending
    rwa [hl] at h
  have hne := hholds.ne_null
  have hwrap : sizeT (count + bs.length) = bs.length + count := by
    rw [sizeT_of_lt (by unfold kmallocLimit at hbs; omega), Nat.add_comm]
  unfold growPartialWrite Granted
  simp only [ne_eq, hne, not_false_eq_true, if_true, hsize, hwrap, hcur]
  obtain ⟨hm, hn⟩ | ⟨hg, hn, p, h₁, hm, hp⟩ := Heap.malloc_cases k.heap (bs.length + count) granted
  · left
    rw [hr.limit] at hn
    exact ⟨by rw [hm], hn⟩
  · right
    rw [hr.limit] at hn
    let old := k.dev.partialWrite.buffptr
    have hk₁ := Heap.malloc_keeps k.heap (bs.length + count) granted (old :: entryPtrs k.dev)
    have ho₁ := hr.owns.malloc (bs.length + count) granted
    have hlim₁ := Heap.malloc_limit k.heap (bs.length + count) granted
    rw [hm] at hk₁ ho₁ hlim₁
    -- copy the bytes so far to the new block
    have hload := (hholds.keeps hk₁ (by simp [old])).loadCells (show 0 + bs.length ≤ bs.length by omega)
    rw [List.drop_zero, List.take_length] at hload
    have hcells₁ := Heap.malloc_cells hm hp
    obtain ⟨h₂, hstore, hcells₂, hother, hlive⟩ := Heap.store_cells hcells₁
      (show 0 + (bs.map some).length ≤ _ by simp)
    have hk₂ : h₁.Keeps h₂ (old :: entryPtrs k.dev) := ho₁.keeps hother
    -- free the old block
    have ho₂ : h₂.Owns (old :: p :: entryPtrs k.dev) := (ho₁.of_blocks hlive).perm (.swap _ _ _)
    obtain ⟨h₃, hfree, ho₃, hk₃⟩ := ho₂.free
    have hkeep : k.heap.Keeps h₃ (entryPtrs k.dev) :=
      ((hk₁.trans hk₂).subset (by simp)).trans (hk₃.subset (by simp))
    refine ⟨⟨hg, hn⟩, ⟨{ k.dev with partialWrite := ⟨p, bs.length⟩ }, h₃⟩, p, bs.length, ?_, ?_⟩
    · rw [hm]
      cases p with
      | null => exact absurd rfl hp
      | zeroSize | block id =>
        simp only [hload, bind, Except.bind, hstore]
        rw [hfree]
    · exact {
        dev := by simp [hcur]
        off := by simp [hcur]
        cells := ⟨_, hk₃ p (by simp) _ hcells₂, by simp [hcur], by simp [hcur]⟩
        entries := stored_keeps hr.entries hkeep
        owns := ho₃
        limit := by
          rw [Heap.free_limit hfree, Heap.store_limit hstore, hlim₁, hr.limit]
        room := by simpa [hcur] using hn
        zeroSize := by simpa [hcur] using Heap.malloc_zeroSize_iff hm hp }

theorem grow {k : Kernel} {l : Log} (hr : Represents k l) {count : Nat}
    (hc : count < 2 ^ 63) (granted : Bool) :
    (growPartialWrite k count granted = .ok none ∧ ¬ Granted l count granted) ∨
      (Granted l count granted ∧ ∃ k' p off,
        growPartialWrite k count granted = .ok (some (k', p, off)) ∧ Grown k l count k' p off) := by
  cases hl : l.pending with
  | none => exact grow_fresh hr hl count granted
  | some bs => exact grow_pending hr hl hc granted

def accepted (buf : List UInt8) (uncopied : Nat) : List UInt8 :=
  buf.take (buf.length - min uncopied buf.length)

theorem accepted_length (buf : List UInt8) (uncopied : Nat) :
    (accepted buf uncopied).length = buf.length - min uncopied buf.length := by
  rw [accepted, List.length_take]
  omega

theorem accept_bytes {k k' : Kernel} {l : Log} {p : Ptr} {off : Nat} {buf : List UInt8}
    (hr : Represents k l) (hg : Grown k l buf.length k' p off) (uncopied : Nat) :
    ∃ k'', acceptBytes k' p off buf uncopied = .ok ((accepted buf uncopied).length, k'') ∧
      Represents k'' ⟨l.records, some (l.openBytes ++ accepted buf uncopied)⟩ ∧
      k''.dev.partialWrite.buffptr = p ∧ k''.dev.lock = k.dev.lock ∧
      k''.dev.circBuf = k.dev.circBuf := by
  have hlen := accepted_length buf uncopied
  obtain ⟨cs, hcs, hpre, hcl⟩ := hg.cells
  have hroom := hg.room
  obtain ⟨h', hstore, hholds, hother, hlive⟩ := Heap.Holds.store
    (accepted buf uncopied) (List.replicate (min uncopied buf.length) none)
    hcs hpre (by simp only [hlen, List.length_replicate]; omega)
  have hwrap : sizeT (l.openBytes.length + (accepted buf uncopied).length) =
      (l.openBytes ++ accepted buf uncopied).length := by
    rw [List.length_append, sizeT_of_lt (by unfold kmallocLimit at hroom; omega)]
  have hk : k'.heap.Keeps h' (entryPtrs k.dev) := hg.owns.keeps hother
  refine ⟨⟨{ k'.dev with partialWrite :=
      ⟨p, (l.openBytes ++ accepted buf uncopied).length⟩ }, h'⟩, ?_, ?_, rfl,
    by simp only [hg.dev], by simp only [hg.dev]⟩
  · rw [acceptBytes, copyFromUser, hg.off, ← accepted]
    simp only [bind, Except.bind, hstore]
    rw [hg.dev, ← hlen]
    simp only [hwrap]
  · have hc : contents k'.dev.circBuf = contents k.dev.circBuf := by rw [hg.dev]
    refine ⟨?_, ?_, ⟨⟨rfl, hholds⟩, ?_⟩, ?_, ?_⟩
    · simpa only [hg.dev] using hr.ring
    · simpa only [hc] using stored_keeps hg.entries hk
    · rw [List.length_append, hlen]
      omega
    · rw [entryPtrs, hc]
      exact hg.owns.of_blocks hlive
    · exact (Heap.store_limit hstore).trans hg.limit

theorem loadByte_zeroSize (h : Heap) (i : Int) : h.loadByte .zeroSize i = .error .outOfBounds := by
  unfold Heap.loadByte
  split
  · rfl
  · have hempty : h.load .zeroSize i.toNat 1 = .error .outOfBounds := by
      simp [Heap.load, Heap.loadCells, Heap.cells, bind, Except.bind]
    rw [hempty]
    rfl

/-- The newline test reads the last byte of the open record. When the record is
empty it reads before its block, and goes wrong if there is no block. -/
theorem testByte_eq {k : Kernel} {records : List (List UInt8)} {bs acc : List UInt8}
    (hr : Represents k ⟨records, some (bs ++ acc)⟩) (stray : UInt8) :
    testByte k k.dev.partialWrite.buffptr bs.length acc.length stray =
      if k.dev.partialWrite.buffptr = .zeroSize then .error .outOfBounds
      else .ok ((bs ++ acc).getLast?.getD stray) := by
  obtain ⟨⟨_, hholds⟩, _⟩ : Stored k.heap k.dev.partialWrite (bs ++ acc) ∧ _ := hr.pending
  generalize k.dev.partialWrite.buffptr = p at hholds
  cases p with
  | null => exact absurd rfl hholds.ne_null
  | zeroSize => simp only [testByte, loadByte_zeroSize, if_true]
  | block id =>
    rw [if_neg (by simp)]
    unfold testByte testIndex
    by_cases hne : bs ++ acc = []
    · obtain ⟨rfl, rfl⟩ := List.append_eq_nil_iff.mp hne
      rfl
    · have hpos : 0 < (bs ++ acc).length := List.length_pos_iff.mpr hne
      have hidx : (bs.length : Int) + ((acc.length : Int) - 1) =
          (((bs ++ acc).length - 1 : Nat) : Int) := by
        rw [List.length_append] at hpos ⊢
        omega
      have hlt : (bs ++ acc).length - 1 < (bs ++ acc).length := by omega
      rw [hidx, hholds.loadByte hlt, List.getLast?_eq_getElem?, List.getElem?_eq_getElem hlt]
      rfl

/-- Unless `out_offs` moves, the records a reader sees are only added to. -/
def Extends (k k' : Kernel) (l l' : Log) : Prop :=
  k'.dev.circBuf.outOffs = k.dev.circBuf.outOffs → l.visible <+: l'.visible

/-- Committing moves the open record to the end of the log. The block of the
record it pushes out is freed, and no other. -/
theorem commit {k : Kernel} {records : List (List UInt8)} {bs : List UInt8}
    (hr : Represents k ⟨records, some bs⟩) :
    ∃ k', commitPartialWrite k = .ok k' ∧ Represents k' ⟨records ++ [bs], none⟩ ∧
      k'.dev.lock = k.dev.lock ∧ Extends k k' ⟨records, some bs⟩ ⟨records ++ [bs], none⟩ := by
  obtain ⟨hstored, hbs⟩ : Stored k.heap k.dev.partialWrite bs ∧ _ := hr.pending
  obtain ⟨hev, hring⟩ := hr.ring.addEntry k.dev.partialWrite
  have hmoves := fun hl => hr.ring.outOffs_ne hl k.dev.partialWrite
  have hlen := hr.entries.length_eq
  have hlast := lastN_snoc (show 0 < 10 by decide) records bs
  unfold commitPartialWrite
  generalize aesdCircularBufferAddEntry k.dev.circBuf k.dev.partialWrite = r at hev hring hmoves
  obtain ⟨q, circBuf⟩ := r
  dsimp only at hev hring hmoves ⊢
  have hcont := hring.contents_eq
  have howns := hr.owns
  have hentries := hr.entries
  rw [entryPtrs] at howns
  dsimp only at hentries
  by_cases hfull : (contents k.dev.circBuf).length = 10
  · rw [if_pos hfull] at hring hcont
    rw [if_pos (hlen ▸ hfull)] at hlast
    cases hes : contents k.dev.circBuf with
    | nil => simp [hes] at hfull
    | cons e es =>
      cases hrs : lastN 10 records with
      | nil => simp [hes, hrs] at hentries
      | cons b bss =>
        rw [hes, hrs, List.forall₂_cons] at hentries
        rw [hes] at hcont hev howns
        rw [hrs] at hlast
        have hq : q = e.buffptr := by
          rw [hev, evicted, if_pos (hes ▸ hfull)]
          rfl
        have hqn : q ≠ .null := hq ▸ hentries.1.2.ne_null
        -- the evicted block comes first, then the nine entries kept and the new one
        have ho : k.heap.Owns (q :: (es ++ [k.dev.partialWrite]).map (·.buffptr)) := by
          refine howns.perm ?_
          simp only [List.map_cons, List.map_append, List.map_nil, hq]
          exact (List.Perm.swap _ _ _).trans ((List.perm_append_singleton _ _).symm.cons _)
        obtain ⟨h', hfree, ho', hk⟩ := ho.free
        refine ⟨⟨{ k.dev with circBuf := circBuf, partialWrite := ⟨.null, 0⟩ }, h'⟩, ?_, ?_, rfl,
          fun he => absurd he (hmoves hfull)⟩
        · simp only [ne_eq, hqn, not_false_eq_true, if_true, bind, Except.bind, hfree]
        · refine ⟨by rw [hcont]; exact hes ▸ hring, ?_, rfl, ?_, ?_⟩
          · rw [hcont, hlast]
            refine stored_keeps ?_ hk
            exact List.rel_append hentries.2 (.cons hstored .nil)
          · rw [Heap.Owns.cons_null, entryPtrs, hcont]
            exact ho'
          · exact (Heap.free_limit hfree).trans hr.limit
  · rw [if_neg hfull] at hring hcont
    rw [if_neg (hlen ▸ hfull)] at hlast
    have hq : q = .null := by rw [hev, evicted, if_neg hfull]
    subst hq
    refine ⟨⟨{ k.dev with circBuf := circBuf, partialWrite := ⟨.null, 0⟩ }, k.heap⟩, ?_, ?_, rfl,
      fun _ => ⟨[bs], hlast.symm⟩⟩
    · simp only [ne_eq, not_true_eq_false, if_false, bind, Except.bind]
    · refine ⟨by rw [hcont]; exact hring, ?_, rfl, ?_, hr.limit⟩
      · rw [hcont, hlast]
        exact List.rel_append hentries (.cons hstored .nil)
      · rw [Heap.Owns.cons_null, entryPtrs, hcont, List.map_append]
        exact howns.perm (List.perm_append_singleton _ _).symm

theorem Represents.of_unlocked {k k' : Kernel} {l : Log} (hr : Represents k l)
    (hd : k'.dev = { k.dev with lock := k'.dev.lock }) (hh : k'.heap = k.heap) :
    Represents k' l := by
  have hc : k'.dev.circBuf = k.dev.circBuf := by rw [hd]
  have hp : k'.dev.partialWrite = k.dev.partialWrite := by rw [hd]
  refine ⟨by rw [hc]; exact hr.ring, by rw [hc, hh]; exact hr.entries,
    by rw [hp, hh]; exact hr.pending, ?_, by rw [hh]; exact hr.limit⟩
  rw [entryPtrs, hc, hp, hh]
  exact hr.owns

/-- The device between operations: it represents the log and its lock is free. -/
structure Idle (k : Kernel) (l : Log) : Prop extends Represents k l where
  unlocked : k.dev.lock = false

theorem idle_init : Idle aesdInitModule Log.empty := ⟨represents_init, rfl⟩

def locked (k : Kernel) : Kernel := { k with dev := { k.dev with lock := true } }

theorem lock_unlocked {k : Kernel} (hu : k.dev.lock = false) :
    mutexLockInterruptible k false = .ok (false, locked k) := by
  simp [mutexLockInterruptible, hu, locked]

theorem unlock_locked {k : Kernel} (hu : k.dev.lock = false) : mutexUnlock (locked k) = .ok k := by
  obtain ⟨⟨circBuf, partialWrite, lock⟩, heap⟩ := k
  cases hu
  rfl

theorem Represents.locked {k : Kernel} {l : Log} (hr : Represents k l) :
    Represents (locked k) l :=
  hr.of_unlocked rfl rfl

theorem Represents.unlock {k : Kernel} {l : Log} (hr : Represents k l)
    (hl : k.dev.lock = true) :
    ∃ k', mutexUnlock k = .ok k' ∧ Idle k' l ∧ k'.dev.circBuf = k.dev.circBuf := by
  refine ⟨{ k with dev := { k.dev with lock := false } }, by simp [mutexUnlock, hl], ⟨?_, rfl⟩, rfl⟩
  exact hr.of_unlocked rfl rfl

theorem write_tests {k : Kernel} {l : Log} (hi : Idle k l) {buf : List UInt8}
    (hc : buf.length < 2 ^ 63) (test : NewlineTest) (fPos : Int) (env : WriteEnv) :
    (env.interrupted = true ∧ aesdWriteWith test k buf fPos env = .ok (-eintr, k, fPos)) ∨
      (env.interrupted = false ∧ ¬ Granted l buf.length env.granted ∧
        aesdWriteWith test k buf fPos env = .ok (-enomem, k, fPos)) ∨
      (env.interrupted = false ∧ Granted l buf.length env.granted ∧ ∃ k₂,
        let bytes := accepted buf env.uncopied
        let kmemBuf := k₂.dev.partialWrite.buffptr
        Represents k₂ ⟨l.records, some (l.openBytes ++ bytes)⟩ ∧ k₂.dev.lock = true ∧
          (kmemBuf = .zeroSize ↔ l.openBytes ++ buf = []) ∧
          match test k₂ kmemBuf l.openBytes.length bytes.length env.stray with
          | .error e => aesdWriteWith test k buf fPos env = .error e
          | .ok byte => ∃ k', aesdWriteWith test k buf fPos env =
              .ok (bytes.length, k', loffT (fPos + bytes.length)) ∧
            Idle k' (l.acceptTested bytes byte) ∧ Extends k k' l (l.acceptTested bytes byte)) := by
  unfold aesdWriteWith
  cases hintr : env.interrupted with
  | true => left; exact ⟨rfl, rfl⟩
  | false =>
    right
    simp only [lock_unlocked hi.unlocked, bind, Except.bind, Bool.false_eq_true, if_false]
    obtain ⟨hgrow, hng⟩ | ⟨hg, k₁, p, off, hgrow, hgrown⟩ :=
      grow hi.toRepresents.locked hc env.granted
    · left
      simp only [hgrow, unlock_locked hi.unlocked]
      exact ⟨trivial, hng, trivial⟩
    · right
      obtain ⟨k₂, hacc, hr₂, rfl, hlock, hcirc⟩ :=
        accept_bytes hi.toRepresents.locked hgrown env.uncopied
      have hzero : k₂.dev.partialWrite.buffptr = .zeroSize ↔ l.openBytes ++ buf = [] := by
        rw [hgrown.zeroSize, ← List.length_append, List.length_eq_zero_iff]
      refine ⟨trivial, hg, k₂, hr₂, hlock, hzero, ?_⟩
      rw [hgrown.off] at hacc
      simp only [hgrow, hgrown.off, hacc]
      cases test k₂ k₂.dev.partialWrite.buffptr l.openBytes.length
          (accepted buf env.uncopied).length env.stray with
      | error e => rfl
      | ok byte =>
        simp only [Log.acceptTested]
        split
        · obtain ⟨k₃, hcommit, hr₃, hlock₃, hext⟩ := commit hr₂
          obtain ⟨k₄, hunlock, hidle, hcirc₄⟩ := hr₃.unlock (hlock₃.trans hlock)
          refine ⟨k₄, by simp only [hcommit, hunlock], hidle, ?_⟩
          rw [Extends, hcirc] at hext
          rw [Extends, hcirc₄]
          exact hext
        · obtain ⟨k₄, hunlock, hidle, _⟩ := hr₂.unlock hlock
          exact ⟨k₄, by simp only [hunlock], hidle, fun _ => List.prefix_refl _⟩

theorem empty_write_grows {k : Kernel} {l : Log} (hi : Idle k l) (hopen : l.openBytes = [])
    (uncopied : Nat) : ∃ k₁ k₂, growPartialWrite (locked k) 0 true = .ok (some (k₁, .zeroSize, 0)) ∧
      acceptBytes k₁ .zeroSize 0 [] uncopied = .ok (0, k₂) := by
  obtain ⟨_, hng⟩ | ⟨_, k₁, p, off, hgrow, hgrown⟩ :=
    grow hi.toRepresents.locked (show 0 < 2 ^ 63 by decide) true
  · exact absurd ⟨rfl, by rw [hopen]; exact Nat.zero_le _⟩ hng
  · have hzero : p = .zeroSize := hgrown.zeroSize.mpr (by rw [hopen]; rfl)
    have hoff : off = 0 := by rw [hgrown.off, hopen]; rfl
    subst hzero hoff
    have hgrown' : Grown (locked k) l ([] : List UInt8).length k₁ .zeroSize 0 := hgrown
    obtain ⟨k₂, hacc, _⟩ := accept_bytes hi.toRepresents.locked hgrown' uncopied
    rw [accepted_length, List.length_nil, Nat.zero_sub] at hacc
    exact ⟨k₁, k₂, hgrow, hacc⟩

/-- What a write can do. It goes wrong only when it asks for no byte and finds
none pending, and then it does, in its newline test. -/
theorem write_cases {k : Kernel} {l : Log} (hi : Idle k l) {buf : List UInt8}
    (hc : buf.length < 2 ^ 63) (fPos : Int) (env : WriteEnv) :
    (env.interrupted = true ∧ aesdWrite k buf fPos env = .ok (-eintr, k, fPos)) ∨
      (env.interrupted = false ∧ ¬ Granted l buf.length env.granted ∧
        aesdWrite k buf fPos env = .ok (-enomem, k, fPos)) ∨
      (env.interrupted = false ∧ Granted l buf.length env.granted ∧ l.openBytes ++ buf = [] ∧
        aesdWrite k buf fPos env = .error .outOfBounds) ∨
      (env.interrupted = false ∧ Granted l buf.length env.granted ∧ l.openBytes ++ buf ≠ [] ∧
        ∃ k', aesdWrite k buf fPos env = .ok ((accepted buf env.uncopied).length, k',
            loffT (fPos + (accepted buf env.uncopied).length)) ∧
          Idle k' (l.accept (accepted buf env.uncopied) env.stray) ∧
          Extends k k' l (l.accept (accepted buf env.uncopied) env.stray)) := by
  obtain h | h | ⟨hni, hg, k₂, hr₂, _, hzero, hrest⟩ := write_tests hi hc testByte fPos env
  · exact .inl h
  · exact .inr (.inl h)
  · rw [testByte_eq hr₂] at hrest
    by_cases hempty : l.openBytes ++ buf = []
    · rw [if_pos (hzero.mpr hempty)] at hrest
      exact .inr (.inr (.inl ⟨hni, hg, hempty, hrest⟩))
    · rw [if_neg (mt hzero.mp hempty)] at hrest
      exact .inr (.inr (.inr ⟨hni, hg, hempty, hrest⟩))

end Aesd.Refinement
