import Aesd.Ownership

namespace Aesd.FilePosition

open Aesd.Lib.BlockHeap Aesd.Lib.MachineInt Aesd.Lib.Sequence Aesd.Lib.Transition
open Aesd.CircularBuffer Aesd.BoundedFifo Aesd.Lookup Aesd.Driver Aesd.RecordLog
open Aesd.Refinement Aesd.Ownership

theorem find_some {buffer : AesdCircularBuffer} {es : List AesdBufferEntry} (hr : Ring buffer es)
    {pos rtn slot off : Nat}
    (hf : aesdCircularBufferFindEntryOffsetForFpos 10 buffer pos rtn = some (some slot, off)) :
    ∃ i, ∃ hi : i < es.length, slot = (buffer.outOffs + i) % 10 ∧ buffer.slot slot = es[i] ∧
      off < es[i].size ∧ ((sizes es).take i).sum + off = pos := by
  rw [find_eq_locate hr, Option.some.injEq] at hf
  cases hl : locate (sizes es) pos with
  | none => simp [hl] at hf
  | some p =>
    obtain ⟨i, o⟩ := p
    rw [hl, Prod.mk.injEq, Option.some.injEq] at hf
    obtain ⟨rfl, rfl⟩ := hf
    obtain ⟨hi, ho, hsum⟩ := locate_eq_some_iff.mp hl
    have hi' : i < es.length := by simpa [sizes] using hi
    refine ⟨i, hi', rfl, ?_, by simpa [sizes] using ho, hsum⟩
    rw [hr.slot_eq i (Nat.lt_of_lt_of_le hi' hr.length_le), List.getElem?_eq_getElem hi']
    rfl

theorem find_none_iff {buffer : AesdCircularBuffer} {es : List AesdBufferEntry}
    (hr : Ring buffer es) {pos rtn : Nat} {r : Option Nat × Nat}
    (hf : aesdCircularBufferFindEntryOffsetForFpos 10 buffer pos rtn = some r) :
    (r.1 = none ↔ (sizes es).sum ≤ pos) ∧ (r.1 = none → r.2 = rtn) := by
  rw [find_eq_locate hr, Option.some.injEq] at hf
  subst hf
  rw [← locate_eq_none_iff]
  cases locate (sizes es) pos <;> simp

theorem find_byte {h : Heap} {es : List AesdBufferEntry} {bss : List (List UInt8)}
    (hs : List.Forall₂ (Stored h) es bss) {i off pos : Nat} (hi : i < es.length)
    (ho : off < es[i].size) (hsum : ((sizes es).take i).sum + off = pos) :
    ∃ b, h.loadByte es[i].buffptr (off : Int) = .ok b ∧ bss.flatten[pos]? = some b := by
  have hi' : i < bss.length := by rwa [← hs.length_eq]
  have hst : Stored h es[i] bss[i] := hs.get hi hi'
  have ho' : off < bss[i].length := by rwa [← hst.1]
  have hsizes := sizes_eq hs
  have hl : locate (bss.map List.length) pos = some (i, off) := by
    apply locate_eq_some_iff.mpr
    refine ⟨by simpa using hi', by simpa using ho', ?_⟩
    rwa [← hsizes]
  refine ⟨bss[i][off], hst.2.loadByte ho', ?_⟩
  rw [getElem?_flatten_of_locate hl, List.getElem?_eq_getElem hi', Option.bind_some,
    List.getElem?_eq_getElem ho']

theorem read_eof_iff {k : Kernel} {bss : List (List UInt8)} (hu : k.dev.lock = false)
    (hr : Ring k.dev.circBuf (contents k.dev.circBuf))
    (hs : List.Forall₂ (Stored k.heap) (contents k.dev.circBuf) bss) {count pos : Nat}
    (hc : 0 < count) (hpos : pos < 2 ^ 63) :
    (∃ got k' p, aesdRead k count (pos : Int) ⟨false, 0⟩ = .ok (0, got, k', p)) ↔
      (sizes (contents k.dev.circBuf)).sum ≤ pos := by
  rw [sizes_eq hs, ← List.length_flatten, ← pieceAt_eq_none_iff bss pos count 0,
    read_stored hu hr hs count pos ⟨false, 0⟩ rfl, toSizeT_natCast (by omega)]
  cases hp : pieceAt bss pos count 0 with
  | none => simp
  | some got =>
    have hne := List.length_pos_iff.mpr (pieceAt_ne_nil hc hp)
    simp only [Except.ok.injEq, Prod.mk.injEq, reduceCtorEq, iff_false]
    rintro ⟨_, _, _, h0, _⟩
    omega

theorem llseek_eq {k : Kernel} (hu : k.dev.lock = false) (fixed : FixedSizeLlseek) (offset : Int)
    (whence : Nat) (fPos : Int) :
    aesdLlseek fixed k offset whence fPos false =
      .ok ((fixed fPos offset whence (aesdCircularBufferSize k.dev.circBuf)).1, k,
        (fixed fPos offset whence (aesdCircularBufferSize k.dev.circBuf)).2) := by
  simp only [aesdLlseek, lock_unlocked hu, unlock_locked hu, bind, Except.bind,
    Bool.false_eq_true, if_false]
  rfl

/-- The lookup is indexing into the concatenation of the logical entries, and
the size reported to `aesd_llseek` is where reading ends. -/
theorem lookup_indexes_contents (es : List AesdBufferEntry) (hp : ∀ e ∈ es, e.buffptr ≠ .null)
    (hsum : (sizes (lastN 10 es)).sum < 2 ^ 63) (pos rtn : Nat) :
    let buffer := (addEntries aesdCircularBufferInit es).2
    let entries := contents buffer
    let size := aesdCircularBufferSize buffer
    (∃ r, aesdCircularBufferFindEntryOffsetForFpos 10 buffer pos rtn = some r ∧
      (r.1 = none ↔ size ≤ pos) ∧ (r.1 = none → r.2 = rtn) ∧
      ∀ slot, r.1 = some slot → ∃ i, ∃ hi : i < entries.length,
        slot = (buffer.outOffs + i) % 10 ∧ buffer.slot slot = entries[i] ∧
        r.2 < entries[i].size ∧ ((sizes entries).take i).sum + r.2 = pos ∧
        ∀ h bss, List.Forall₂ (Stored h) entries bss →
          ∃ b, h.loadByte entries[i].buffptr (r.2 : Int) = .ok b ∧ bss.flatten[pos]? = some b) ∧
    ∀ k bss, k.dev.circBuf = buffer → k.dev.lock = false →
      List.Forall₂ (Stored k.heap) entries bss →
      (∀ fixed offset whence fPos, aesdLlseek fixed k offset whence fPos false =
        .ok ((fixed fPos offset whence size).1, k, (fixed fPos offset whence size).2)) ∧
      ∀ count p : Nat, 0 < count → p < 2 ^ 63 →
        ((∃ got k' q, aesdRead k count (p : Int) ⟨false, 0⟩ = .ok (0, got, k', q)) ↔ size ≤ p) := by
  intro buffer entries size
  obtain ⟨hr, _⟩ := addEntries_ring es
  have hentries : entries = lastN 10 es := hr.contents_eq
  rw [← hentries] at hr hsum
  have hsize : size = ((sizes entries).sum : Nat) :=
    size_eq_sum hr (fun e he => hp e (lastN_subset 10 es (hentries ▸ he))) hsum
  refine ⟨?_, ?_⟩
  · obtain ⟨r, hf⟩ : ∃ r, aesdCircularBufferFindEntryOffsetForFpos 10 buffer pos rtn = some r :=
      ⟨_, find_eq_locate hr pos rtn⟩
    obtain ⟨hnone, hrtn⟩ := find_none_iff hr hf
    refine ⟨r, hf, ?_, hrtn, ?_⟩
    · rw [hnone, hsize]
      omega
    · rintro slot hslot
      have hf' : aesdCircularBufferFindEntryOffsetForFpos 10 buffer pos rtn = some (some slot, r.2) := by
        rw [hf, ← hslot]
      obtain ⟨i, hi, h1, h2, h3, h4⟩ := find_some hr hf'
      exact ⟨i, hi, h1, h2, h3, h4, fun h bss hs => find_byte hs hi h3 h4⟩
  · intro k bss hk hu hs
    refine ⟨fun fixed offset whence fPos => ?_, fun count p hc hpos => ?_⟩
    · rw [llseek_eq hu, hk]
    · have hr' : Ring k.dev.circBuf (contents k.dev.circBuf) := by
        rw [hk]
        exact hr
      have hs' : List.Forall₂ (Stored k.heap) (contents k.dev.circBuf) bss := by
        rw [hk]
        exact hs
      have hsize' : size = ((sizes (contents buffer)).sum : Nat) := hsize
      rw [read_eof_iff hu hr' hs' hc hpos, hk, hsize']
      omega

/-- Three entries, one of them empty: position 4 is in the third. -/
theorem three_entries_indexed :
    let buffer := (addEntries aesdCircularBufferInit
      [⟨.block 0, 3⟩, ⟨.zeroSize, 0⟩, ⟨.block 1, 2⟩]).2
    ∃ r, aesdCircularBufferFindEntryOffsetForFpos 10 buffer 4 99 = some r ∧
      (r.1 = none ↔ aesdCircularBufferSize buffer ≤ 4) := by
  obtain ⟨⟨r, hf, hnone, _⟩, _⟩ := lookup_indexes_contents
    [⟨.block 0, 3⟩, ⟨.zeroSize, 0⟩, ⟨.block 1, 2⟩] (by decide) (by decide) 4 99
  exact ⟨r, hf, hnone⟩

theorem seekLoop_eq (buffer : AesdCircularBuffer) (rest : List AesdBufferEntry) (j index : Nat)
    (byteCount : Int) (hj : j < rest.length) :
    seekLoop buffer (index + j) rest index byteCount =
      (rest[j], (rest.take j).foldl addSize byteCount) := by
  induction rest generalizing j index byteCount with
  | nil => simp at hj
  | cons entry rest ih =>
    cases j with
    | zero => simp [seekLoop]
    | succ j =>
      have hne : ¬ index = index + (j + 1) := by omega
      have hidx : index + (j + 1) = index + 1 + j := by omega
      rw [seekLoop, if_neg hne, hidx, ih j (index + 1) _ (by simpa using hj)]
      rfl

/-- A pair is in range when it names a stored entry and an offset inside it. -/
def InRange (es : List AesdBufferEntry) (writeCmd writeCmdOffset : Nat) : Prop :=
  ∃ h : writeCmd < es.length, writeCmdOffset < es[writeCmd].size

/-- A pair in range moves the file position to where it points; any other is
refused and moves nothing. -/
theorem adjust_spec {k : Kernel} (hu : k.dev.lock = false) {es : List AesdBufferEntry}
    (hr : Ring k.dev.circBuf es) (hp : ∀ e ∈ es, e.buffptr ≠ .null)
    (hs : (sizes es).sum < 2 ^ 63) (writeCmd writeCmdOffset : Nat) (fPos : Int) :
    (InRange es writeCmd writeCmdOffset ∧
        aesdAdjustFileOffset k writeCmd writeCmdOffset fPos false =
          .ok (0, k, ((((sizes es).take writeCmd).sum + writeCmdOffset : Nat) : Int))) ∨
      (¬ InRange es writeCmd writeCmdOffset ∧
        aesdAdjustFileOffset k writeCmd writeCmdOffset fPos false = .ok (-einval, k, fPos)) := by
  have hle := hr.length_le
  have hcirc : (locked k).dev.circBuf = k.dev.circBuf := rfl
  unfold aesdAdjustFileOffset InRange
  by_cases hbig : maxWriteOperationsSupported ≤ writeCmd
  · right
    have hbig' : 10 ≤ writeCmd := hbig
    rw [if_pos hbig]
    exact ⟨fun ⟨h, _⟩ => by omega, rfl⟩
  · have hlt : writeCmd < (es ++ List.replicate (10 - es.length) unused).length := by
      have hbig' : ¬ 10 ≤ writeCmd := hbig
      simp only [List.length_append, List.length_replicate]
      omega
    have hloop := seekLoop_eq k.dev.circBuf _ writeCmd 0 0 hlt
    rw [Nat.zero_add] at hloop
    simp only [hbig, if_false, lock_unlocked hu, bind, Except.bind, Bool.false_eq_true, hcirc,
      Ring.foreach_eq hr, hloop, unlock_locked hu]
    by_cases hc : writeCmd < es.length
    · have hget : (es ++ List.replicate (10 - es.length) unused)[writeCmd] = es[writeCmd] :=
        List.getElem_append_left hc
      rw [hget]
      by_cases ho : writeCmdOffset < es[writeCmd].size
      · left
        have hno : ¬ (es[writeCmd].buffptr = .null ∨ es[writeCmd].size ≤ writeCmdOffset) := by
          rintro (h | h)
          · exact hp _ (List.getElem_mem hc) h
          · omega
        have hc' : writeCmd < (sizes es).length := by simpa [sizes] using hc
        have hsum := sum_take_add_getElem_le hc'
        simp only [sizes, List.getElem_map] at hsum hs
        have hfold : (es.take writeCmd).foldl addSize ((0 : Nat) : Int) = _ :=
          foldl_addSize (fun e he => hp e (List.mem_of_mem_take he)) 0
            (by simp only [sizes, List.map_take]; omega)
        simp only [sizes, List.map_take, Nat.zero_add, Int.natCast_zero] at hfold ⊢
        refine ⟨⟨hc, ho⟩, ?_⟩
        rw [if_neg hno, List.take_append_of_le_length (by omega), hfold, ← Int.natCast_add,
          loffT_of_lt (by omega) (by omega)]
      · right
        rw [if_pos (.inr (Nat.le_of_not_lt ho))]
        exact ⟨fun ⟨_, h⟩ => ho h, rfl⟩
    · right
      have hget : (es ++ List.replicate (10 - es.length) unused)[writeCmd] = unused := by
        rw [List.getElem_append_right (by omega), List.getElem_replicate]
      rw [hget, if_pos (.inl rfl)]
      exact ⟨fun ⟨h, _⟩ => hc h, rfl⟩

theorem sizes_sum_le {es : List AesdBufferEntry} {n : Nat} (h : ∀ e ∈ es, e.size ≤ n) :
    (sizes es).sum ≤ es.length * n := by
  induction es with
  | nil => exact Nat.zero_le _
  | cons e es ih =>
    have he := h e List.mem_cons_self
    have hes := ih fun d hd => h d (List.mem_cons_of_mem _ hd)
    simp only [sizes, List.map_cons, List.sum_cons, List.length_cons, Nat.succ_mul] at hes ⊢
    omega

theorem inRange_unique {es : List AesdBufferEntry} {c c' o o' : Nat} (h : InRange es c o)
    (h' : InRange es c' o') (he : ((sizes es).take c).sum + o = ((sizes es).take c').sum + o') :
    (c, o) = (c', o') := by
  have hl : ∀ {c o : Nat}, InRange es c o →
      locate (sizes es) (((sizes es).take c).sum + o) = some (c, o) := by
    rintro c o ⟨hc, ho⟩
    apply locate_eq_some_iff.mpr
    exact ⟨by simpa [sizes] using hc, by simpa [sizes] using ho, rfl⟩
  have h1 := hl h
  rw [he, hl h', Option.some.injEq] at h1
  exact h1.symm

/-- Seeking to a pair and looking up a position are inverse to each other. -/
theorem seek_inverts_lookup (ops : List DriverOp) {replies : List Reply} {d : Device}
    (hx : exec vfsStep Device.init ops = .ok (replies, d))
    (hsize : ∀ e ∈ contents d.kernel.dev.circBuf, e.size < 2 ^ 32) (fPos : Int) (rtn : Nat) :
    let k := d.kernel
    let buffer := k.dev.circBuf
    let entries := contents buffer
    (∀ writeCmd writeCmdOffset,
      (InRange entries writeCmd writeCmdOffset ∧ ∃ p : Nat,
          aesdAdjustFileOffset k writeCmd writeCmdOffset fPos false = .ok (0, k, (p : Int)) ∧
          (p : Int) < aesdCircularBufferSize buffer ∧
          aesdCircularBufferFindEntryOffsetForFpos 10 buffer p rtn =
            some (some ((buffer.outOffs + writeCmd) % 10), writeCmdOffset) ∧
          entries[writeCmd]? = some (buffer.slot ((buffer.outOffs + writeCmd) % 10))) ∨
        (¬ InRange entries writeCmd writeCmdOffset ∧
          aesdAdjustFileOffset k writeCmd writeCmdOffset fPos false = .ok (-einval, k, fPos))) ∧
      ∀ p : Nat, (p : Int) < aesdCircularBufferSize buffer →
        ∃! pair : Nat × Nat, pair.1 < 2 ^ 32 ∧ pair.2 < 2 ^ 32 ∧
          aesdAdjustFileOffset k pair.1 pair.2 fPos false = .ok (0, k, (p : Int)) := by
  intro k buffer entries
  have hi := run_simulates hx
  have hr : Ring buffer entries := hi.ring
  have hle := hr.length_le
  have hp : ∀ e ∈ entries, e.buffptr ≠ .null := entries_ne_null hi.entries
  have hs : (sizes entries).sum < 2 ^ 63 := by
    have h : (sizes entries).sum ≤ entries.length * 2 ^ 32 :=
      sizes_sum_le fun e he => Nat.le_of_lt (hsize e he)
    omega
  have hsz : aesdCircularBufferSize buffer = ((sizes entries).sum : Nat) := size_eq_sum hr hp hs
  refine ⟨fun c o => ?_, fun p hlt => ?_⟩
  · obtain ⟨hin, ha⟩ | ⟨hout, ha⟩ := adjust_spec hi.unlocked hr hp hs c o fPos
    · left
      refine ⟨hin, _, ha, ?_, ?_, ?_⟩
      · obtain ⟨hc, ho⟩ := hin
        have hc' : c < (sizes entries).length := by simpa [sizes] using hc
        have hsum := sum_take_add_getElem_le hc'
        rw [show (sizes entries)[c] = entries[c].size by simp [sizes]] at hsum
        rw [hsz]
        omega
      · obtain ⟨hc, ho⟩ := hin
        have hl : locate (sizes entries) (((sizes entries).take c).sum + o) = some (c, o) :=
          locate_eq_some_iff.mpr ⟨by simpa [sizes] using hc, by simpa [sizes] using ho, rfl⟩
        rw [find_eq_locate hr, hl]
      · obtain ⟨hc, _⟩ := hin
        rw [hr.slot_eq c (by omega), List.getElem?_eq_getElem hc]
        rfl
    · right
      exact ⟨hout, ha⟩
  · have hlt' : p < (sizes entries).sum := by omega
    obtain ⟨⟨c, o⟩, hl⟩ : ∃ q, locate (sizes entries) p = some q := by
      cases hl : locate (sizes entries) p with
      | none => exact absurd (locate_eq_none_iff.mp hl) (by omega)
      | some q => exact ⟨q, rfl⟩
    obtain ⟨hc, ho, hsum⟩ := locate_eq_some_iff.mp hl
    have hin : InRange entries c o := ⟨by simpa [sizes] using hc, by simpa [sizes] using ho⟩
    refine ⟨(c, o), ⟨?_, ?_, ?_⟩, ?_⟩
    · have := hin.1
      simp only
      omega
    · obtain ⟨hc, ho⟩ := hin
      exact Nat.lt_trans ho (hsize _ (List.getElem_mem hc))
    · obtain ⟨_, ha⟩ | ⟨hout, _⟩ := adjust_spec hi.unlocked hr hp hs c o fPos
      · rw [ha, hsum]
      · exact absurd hin hout
    · rintro ⟨c', o'⟩ ⟨_, _, ha'⟩
      obtain ⟨hin', ha⟩ | ⟨_, ha⟩ := adjust_spec hi.unlocked hr hp hs c' o' fPos
      · rw [ha, Except.ok.injEq, Prod.mk.injEq, Prod.mk.injEq, Int.natCast_inj] at ha'
        exact inRange_unique hin' hin (by rw [ha'.2.2, hsum])
      · rw [ha, Except.ok.injEq, Prod.mk.injEq] at ha'
        exact absurd ha'.1 (by decide)

def twoRecords : List DriverOp :=
  [.openFile 0, .write 0 [97, newline] ⟨false, true, 0, 0⟩,
    .write 0 [99, newline] ⟨false, true, 0, 0⟩]

/-- Position 2 is the start of the second record, and of nothing else. -/
theorem twoRecords_seek :
    ∃ replies d, exec vfsStep Device.init twoRecords = .ok (replies, d) ∧
      ∃! pair : Nat × Nat, pair.1 < 2 ^ 32 ∧ pair.2 < 2 ^ 32 ∧
        aesdAdjustFileOffset d.kernel pair.1 pair.2 7 false = .ok (0, d.kernel, (2 : Nat)) := by
  obtain ⟨replies, d, hx, hsize, hlt⟩ : ∃ replies d,
      exec vfsStep Device.init twoRecords = .ok (replies, d) ∧
      (∀ e ∈ contents d.kernel.dev.circBuf, e.size < 2 ^ 32) ∧
      ((2 : Nat) : Int) < aesdCircularBufferSize d.kernel.dev.circBuf :=
    ⟨_, _, rfl, by decide, by decide⟩
  exact ⟨replies, d, hx, (seek_inverts_lookup twoRecords hx hsize 7 0).2 2 hlt⟩

end Aesd.FilePosition
