import Aesd.Lookup
import Aesd.Refinement

namespace Aesd.Ownership

open Aesd.Lib.BlockHeap Aesd.Lib.MachineInt Aesd.Lib.Sequence Aesd.Lib.Transition
open Aesd.CircularBuffer Aesd.BoundedFifo Aesd.Lookup Aesd.Driver Aesd.RecordLog Aesd.Refinement

theorem Stored.ne_null {h : Heap} {e : AesdBufferEntry} {bs : List UInt8} (hs : Stored h e bs) :
    e.buffptr ≠ .null := hs.2.ne_null

theorem Stored.load {h : Heap} {e : AesdBufferEntry} {bs : List UInt8} (hs : Stored h e bs) :
    h.load e.buffptr 0 e.size = .ok bs := by
  rw [hs.1, hs.2.load (by omega), List.drop_zero, List.take_length]

theorem sizes_eq {h : Heap} {es : List AesdBufferEntry} {bss : List (List UInt8)}
    (hs : List.Forall₂ (Stored h) es bss) : sizes es = bss.map List.length := by
  induction hs with
  | nil => rfl
  | cons he _ ih => simp only [sizes, List.map_cons, he.1, List.cons.injEq, true_and]; exact ih

theorem stored_mem {h : Heap} {es : List AesdBufferEntry} {bss : List (List UInt8)}
    (hs : List.Forall₂ (Stored h) es bss) {e : AesdBufferEntry} (he : e ∈ es) :
    ∃ bs ∈ bss, Stored h e bs := by
  induction hs with
  | nil => cases he
  | cons hd _ ih =>
    obtain rfl | hm := List.mem_cons.mp he
    · exact ⟨_, List.mem_cons_self, hd⟩
    · obtain ⟨bs, hb, hst⟩ := ih hm
      exact ⟨bs, List.mem_cons_of_mem _ hb, hst⟩

theorem entries_ne_null {h : Heap} {es : List AesdBufferEntry} {bss : List (List UInt8)}
    (hs : List.Forall₂ (Stored h) es bss) : ∀ e ∈ es, e.buffptr ≠ .null := by
  intro e he
  obtain ⟨_, _, hst⟩ := stored_mem hs he
  exact Stored.ne_null hst

theorem read_stored {k : Kernel} {bss : List (List UInt8)} (hu : k.dev.lock = false)
    (hr : Ring k.dev.circBuf (contents k.dev.circBuf))
    (hs : List.Forall₂ (Stored k.heap) (contents k.dev.circBuf) bss) (count : Nat) (fPos : Int)
    (env : ReadEnv) (hni : env.interrupted = false) :
    aesdRead k count fPos env = .ok (match pieceAt bss (toSizeT fPos) count env.uncopied with
      | none => (0, [], k, fPos)
      | some got => (got.length, got, k, loffT (fPos + got.length))) := by
  have hring : Ring (locked k).dev.circBuf (contents k.dev.circBuf) := hr
  have hsizes := sizes_eq hs
  unfold aesdRead
  simp only [hni, lock_unlocked hu, bind, Except.bind, Bool.false_eq_true, if_false,
    maxWriteOperationsSupported, find_eq_locate hring, hsizes, pieceAt]
  cases hloc : locate (bss.map List.length) (toSizeT fPos) with
  | none => simp only [unlock_locked hu, Option.map_none]
  | some p =>
    obtain ⟨i, off⟩ := p
    obtain ⟨hlt, hoff, _⟩ := locate_eq_some_iff.mp hloc
    rw [List.length_map] at hlt
    rw [List.getElem_map] at hoff
    have hlt' : i < (contents k.dev.circBuf).length := by rwa [hs.length_eq]
    have hi10 : i < 10 := Nat.lt_of_lt_of_le hlt' hr.length_le
    have hslot : (locked k).dev.circBuf.slot (((locked k).dev.circBuf.outOffs + i) % 10) =
        (contents k.dev.circBuf)[i] := by
      rw [hring.slot_eq i hi10, List.getElem?_eq_getElem hlt']
      rfl
    have hst : Stored k.heap (contents k.dev.circBuf)[i] bss[i] := hs.get hlt' hlt
    let chunk := (bss[i].drop off).take count
    have hmin : min ((contents k.dev.circBuf)[i].size - off) count = chunk.length := by
      rw [hst.1, List.length_take, List.length_drop, Nat.min_comm]
    have hload : (locked k).heap.load (contents k.dev.circBuf)[i].buffptr off chunk.length =
        .ok chunk := by
      rw [show (locked k).heap = k.heap from rfl, hst.2.load (by
        rw [← hst.1, ← hmin]
        rw [← hst.1] at hoff
        omega)]
      simp only [chunk, List.length_take, ← List.take_take, List.take_length]
    have hlen : (chunk.take (chunk.length - min env.uncopied chunk.length)).length =
        chunk.length - min env.uncopied chunk.length := by
      rw [List.length_take]
      omega
    simp only [hslot, hmin, hload, unlock_locked hu, Option.map_some,
      List.getElem?_eq_getElem hlt, Option.getD_some]
    rw [hlen]

theorem read_spec {k : Kernel} {l : Log} (hi : Idle k l) (count : Nat) (fPos : Int)
    (env : ReadEnv) (hni : env.interrupted = false) :
    aesdRead k count fPos env = .ok (match l.readAt (toSizeT fPos) count env.uncopied with
      | none => (0, [], k, fPos)
      | some got => (got.length, got, k, loffT (fPos + got.length))) :=
  read_stored hi.unlocked hi.ring hi.entries count fPos env hni

theorem read_keeps {k : Kernel} {l : Log} (hi : Idle k l) (count : Nat) (fPos : Int)
    (env : ReadEnv) : ∃ r bs p, aesdRead k count fPos env = .ok (r, bs, k, p) := by
  cases hni : env.interrupted with
  | true => exact ⟨_, _, _, by simp only [aesdRead, hni, mutexLockInterruptible]; rfl⟩
  | false =>
    rw [read_spec hi count fPos env hni]
    cases l.readAt (toSizeT fPos) count env.uncopied <;> exact ⟨_, _, _, rfl⟩

theorem llseek_keeps {k : Kernel} (hu : k.dev.lock = false) (fixed : FixedSizeLlseek)
    (offset : Int) (whence : Nat) (fPos : Int) (interrupted : Bool) :
    ∃ r p, aesdLlseek fixed k offset whence fPos interrupted = .ok (r, k, p) := by
  cases interrupted with
  | true => exact ⟨_, _, rfl⟩
  | false =>
    let r := fixed fPos offset whence (aesdCircularBufferSize k.dev.circBuf)
    refine ⟨r.1, r.2, ?_⟩
    simp only [aesdLlseek, lock_unlocked hu, unlock_locked hu, bind, Except.bind,
      Bool.false_eq_true, if_false]
    rfl

theorem adjust_keeps {k : Kernel} (hu : k.dev.lock = false) (writeCmd writeCmdOffset : Nat)
    (fPos : Int) (interrupted : Bool) :
    ∃ r p, aesdAdjustFileOffset k writeCmd writeCmdOffset fPos interrupted = .ok (r, k, p) := by
  unfold aesdAdjustFileOffset
  split
  · exact ⟨_, _, rfl⟩
  · cases interrupted with
    | true => exact ⟨_, _, rfl⟩
    | false =>
      simp only [lock_unlocked hu, unlock_locked hu, bind, Except.bind, Bool.false_eq_true,
        if_false]
      split <;> exact ⟨_, _, rfl⟩

theorem ioctl_keeps {k : Kernel} (hu : k.dev.lock = false) (cmd : Nat) (arg : AesdSeekto)
    (fPos : Int) (env : IoctlEnv) :
    ∃ r p, aesdUnlockedIoctl k cmd arg fPos env = .ok (r, k, p) := by
  unfold aesdUnlockedIoctl
  split
  · split
    · exact ⟨_, _, rfl⟩
    · exact adjust_keeps hu _ _ _ _
  · exact ⟨_, _, rfl⟩

def logStep (l : Log) (op : DriverOp) (r : Reply) : Log :=
  match op with
  | .write _ buf env => if r.ret < 0 then l else l.accept (buf.take r.ret.toNat) env.stray
  | _ => l

theorem extends_refl (k : Kernel) (l : Log) : Extends k k l l := fun _ => List.prefix_refl _

theorem vfs_write {d d' : Device} {l : Log} (hi : Idle d.kernel l) {file : Nat} {buf : List UInt8}
    {env : WriteEnv} {r : Reply} (hs : vfsStep d (.write file buf env) = .ok (r, d')) :
    (r.ret < 0 ∧ d'.kernel = d.kernel) ∨
      (r.ret = (accepted buf env.uncopied).length ∧
        Idle d'.kernel (l.accept (accepted buf env.uncopied) env.stray) ∧
        Extends d.kernel d'.kernel l (l.accept (accepted buf env.uncopied) env.stray)) := by
  cases hf : d.files file with
  | none =>
    simp only [vfsStep, hf] at hs
    cases hs
    exact .inl ⟨by decide, rfl⟩
  | some fPos =>
    simp only [vfsStep, hf] at hs
    by_cases hc : 2 ^ 63 ≤ buf.length
    · rw [if_pos hc] at hs
      cases hs
      exact .inl ⟨by decide, rfl⟩
    · rw [if_neg hc] at hs
      obtain ⟨_, hw⟩ | ⟨_, _, hw⟩ | ⟨_, _, _, hw⟩ | ⟨_, _, _, k', hw, hi', hext⟩ :=
        write_cases hi (Nat.lt_of_not_le hc) fPos env
      all_goals rw [hw] at hs; cases hs
      · exact .inl ⟨show -eintr < 0 by decide, rfl⟩
      · exact .inl ⟨show -enomem < 0 by decide, rfl⟩
      · exact .inr ⟨rfl, hi', hext⟩

theorem vfs_write_returns {d : Device} {l : Log} (hi : Idle d.kernel l) {file : Nat}
    {buf : List UInt8} (hne : l.openBytes ++ buf ≠ []) (env : WriteEnv) :
    ∃ r d', vfsStep d (.write file buf env) = .ok (r, d') := by
  rw [vfsStep]
  cases d.files file with
  | none => exact ⟨_, _, rfl⟩
  | some fPos =>
    by_cases hc : 2 ^ 63 ≤ buf.length
    · exact ⟨_, _, if_pos hc⟩
    · simp only [hc, if_false]
      obtain ⟨_, hw⟩ | ⟨_, _, hw⟩ | ⟨_, _, hempty, _⟩ | ⟨_, _, _, k', hw, _⟩ :=
        write_cases hi (Nat.lt_of_not_le hc) fPos env
      · exact ⟨_, _, by rw [hw]; rfl⟩
      · exact ⟨_, _, by rw [hw]; rfl⟩
      · exact absurd hempty hne
      · exact ⟨_, _, by rw [hw]; rfl⟩

theorem vfs_keeps {d : Device} {l : Log} (hi : Idle d.kernel l) {op : DriverOp}
    (hop : ∀ file buf env, op ≠ .write file buf env) :
    ∃ r d', vfsStep d op = .ok (r, d') ∧ d'.kernel = d.kernel := by
  cases hf : d.files op.file with
  | none =>
    cases op with
    | write file buf env => exact absurd rfl (hop file buf env)
    | release file => exact ⟨_, _, rfl, rfl⟩
    | openFile file | read file | llseek file | ioctl file =>
      rw [DriverOp.file] at hf
      simp only [vfsStep, hf]
      exact ⟨_, _, rfl, rfl⟩
  | some fPos =>
    cases op with
    | write file buf env => exact absurd rfl (hop file buf env)
    | release file => exact ⟨_, _, rfl, rfl⟩
    | openFile file =>
      rw [DriverOp.file] at hf
      simp only [vfsStep, hf]
      exact ⟨_, _, rfl, rfl⟩
    | read file count env =>
      rw [DriverOp.file] at hf
      obtain ⟨r, bs, p, hr⟩ := read_keeps hi count fPos env
      simp only [vfsStep, hf, hr, bind, Except.bind]
      exact ⟨_, _, rfl, rfl⟩
    | llseek file fixed offset whence interrupted =>
      rw [DriverOp.file] at hf
      obtain ⟨r, p, hr⟩ := llseek_keeps hi.unlocked fixed offset whence fPos interrupted
      simp only [vfsStep, hf, hr, bind, Except.bind]
      exact ⟨_, _, rfl, rfl⟩
    | ioctl file cmd arg env =>
      rw [DriverOp.file] at hf
      obtain ⟨r, p, hr⟩ := ioctl_keeps hi.unlocked cmd arg fPos env
      simp only [vfsStep, hf, hr, bind, Except.bind]
      exact ⟨_, _, rfl, rfl⟩

theorem vfs_simulates {d d' : Device} {l : Log} (hi : Idle d.kernel l) {op : DriverOp} {r : Reply}
    (hs : vfsStep d op = .ok (r, d')) :
    Idle d'.kernel (logStep l op r) ∧ Extends d.kernel d'.kernel l (logStep l op r) := by
  by_cases hop : ∃ file buf env, op = .write file buf env
  · obtain ⟨file, buf, env, rfl⟩ := hop
    obtain ⟨hr, hk⟩ | ⟨hr, hi', hext⟩ := vfs_write hi hs
    · rw [logStep, if_pos hr, hk]
      exact ⟨hi, extends_refl _ _⟩
    · have htake : buf.take r.ret.toNat = accepted buf env.uncopied := by
        rw [hr, Int.toNat_natCast, accepted_length, accepted]
      rw [logStep, if_neg (by omega), htake]
      exact ⟨hi', hext⟩
  · have hne : ∀ file buf env, op ≠ .write file buf env := fun f b e h => hop ⟨f, b, e, h⟩
    obtain ⟨r', d₁, hs', hk⟩ := vfs_keeps hi hne
    obtain ⟨rfl, rfl⟩ : r' = r ∧ d₁ = d' := by simpa [hs'] using hs
    have hlog : logStep l op r' = l := by
      cases op with
      | write file buf env => exact absurd rfl (hne file buf env)
      | openFile file | release file | read file count env | ioctl file cmd arg env
      | llseek file fixed offset whence interrupted => rfl
    rw [hlog, hk]
    exact ⟨hi, extends_refl _ _⟩

inductive FilesStep (d d' : Device) (op : DriverOp) : Prop
  | same : d'.files = d.files → FilesStep d d' op
  | moved {p : Int} : d.files op.file ≠ none →
      d'.files = Function.update d.files op.file (some p) → FilesStep d d' op
  | opened {f : Nat} : op = .openFile f → d.files f = none →
      d'.files = Function.update d.files f (some 0) → FilesStep d d' op
  | released {f : Nat} : op = .release f →
      d'.files = Function.update d.files f none → FilesStep d d' op

theorem finish_files {d d' : Device} {op : DriverOp} {r : Reply}
    {x : Except Fault (Int × Kernel × Int)} (hf : d.files op.file ≠ none)
    (hs : (do .ok (d.finish op.file (← x))) = Except.ok (ε := Fault) (r, d')) :
    FilesStep d d' op := by
  cases x with
  | error e => cases hs
  | ok p =>
    cases hs
    exact .moved hf rfl

theorem vfsStep_files {d d' : Device} {op : DriverOp} {r : Reply}
    (hs : vfsStep d op = .ok (r, d')) : FilesStep d d' op := by
  cases op with
  | release f =>
    cases hs
    exact .released rfl rfl
  | openFile f =>
    cases hf : d.files f with
    | none =>
      simp only [vfsStep, hf] at hs
      cases hs
      exact .opened rfl hf rfl
    | some p =>
      simp only [vfsStep, hf] at hs
      cases hs
      exact .same rfl
  | write f buf env =>
    cases hf : d.files f with
    | none =>
      simp only [vfsStep, hf] at hs
      cases hs
      exact .same rfl
    | some p =>
      simp only [vfsStep, hf] at hs
      split at hs
      · cases hs
        exact .same rfl
      · exact finish_files (by simp [DriverOp.file, hf]) hs
  | read f count env =>
    cases hf : d.files f with
    | none =>
      simp only [vfsStep, hf] at hs
      cases hs
      exact .same rfl
    | some p =>
      simp only [vfsStep, hf] at hs
      cases hr : aesdRead d.kernel count p env with
      | error e =>
        rw [hr] at hs
        cases hs
      | ok x =>
        rw [hr] at hs
        cases hs
        exact .moved (by simp [DriverOp.file, hf]) rfl
  | llseek f fixed offset whence interrupted | ioctl f cmd arg env =>
    cases hf : d.files f with
    | none =>
      simp only [vfsStep, hf] at hs
      cases hs
      exact .same rfl
    | some p =>
      simp only [vfsStep, hf] at hs
      exact finish_files (by simp [DriverOp.file, hf]) hs

theorem FilesStep.same_open {d d' : Device} {op : DriverOp} (h : FilesStep d d' op)
    (ho : ∀ f, op ≠ .openFile f) (hr : ∀ f, op ≠ .release f) (fd : Nat) :
    d'.files fd = none ↔ d.files fd = none := by
  cases h with
  | same hf => rw [hf]
  | moved hfile hf =>
    rw [hf]
    by_cases hfd : fd = op.file
    · rw [hfd, Function.update_self]
      exact iff_of_false (Option.some_ne_none _) hfile
    · rw [Function.update_of_ne hfd]
  | opened hop _ _ => exact absurd hop (ho _)
  | released hop _ => exact absurd hop (hr _)

/-- After every run the device represents the log that the replies add up to. -/
theorem run_simulates {ops : List DriverOp} {replies : List Reply} {d : Device}
    (hx : exec vfsStep Device.init ops = .ok (replies, d)) :
    Idle d.kernel ((ops.zip replies).foldl (fun l p => logStep l p.1 p.2) Log.empty) :=
  exec_simulation (R := fun (d : Device) (l : Log) => Idle d.kernel l) (g := logStep)
    (fun _ _ _ _ _ hi hs => (vfs_simulates hi hs).1) idle_init hx

theorem freeEntry_eq (h : Heap) (e : AesdBufferEntry) : freeEntry h e = h.free e.buffptr := by
  unfold freeEntry
  split
  · rfl
  · next hn =>
    rw [not_not.mp hn]
    rfl

theorem foldlM_freeEntry (es : List AesdBufferEntry) (h : Heap) :
    es.foldlM freeEntry h = h.freeAll (es.map (·.buffptr)) := by
  rw [Heap.freeAll, List.foldlM_map]
  congr 1
  funext h e
  exact freeEntry_eq h e

/-- Unloading the module frees every live block once: a second release of one
would go wrong, and none is left. -/
theorem cleanup_frees {k : Kernel} {l : Log} (hi : Idle k l) :
    ∃ k', aesdCleanupModule k false = .ok k' ∧ ∀ id, k'.heap.blocks id = none := by
  let ptrs := (foreach k.dev.circBuf).map (·.buffptr) ++ [k.dev.partialWrite.buffptr]
  have howns : k.heap.Owns ptrs := by
    refine hi.owns.of_ids ?_
    have hnull : ∀ n, (List.replicate n Ptr.null).filterMap Ptr.id? = [] := by
      intro n
      induction n with
      | zero => rfl
      | succ n ih => rw [List.replicate_succ, List.filterMap_cons_none Ptr.id?_null, ih]
    simp only [ptrs, Ring.foreach_eq hi.ring, List.map_append, List.map_replicate, unused,
      List.filterMap_append, hnull, List.append_nil]
    rw [← List.filterMap_append]
    exact (List.perm_append_singleton _ _).symm.filterMap _
  obtain ⟨h', hfree, hnone⟩ := howns.freeAll
  obtain ⟨h₁, hring, hlast⟩ := Heap.freeAll_snoc_ok hfree
  refine ⟨{ k with heap := h' }, ?_, hnone⟩
  simp only [aesdCleanupModule, lock_unlocked hi.unlocked, bind, Except.bind, Bool.false_eq_true,
    if_false, locked, foldlM_freeEntry, hring, freeEntry_eq, hlast]
  exact unlock_locked (k := { k with heap := h' }) hi.unlocked

/-- The bytes an entry counts are inside its block and were stored there. -/
def Covered (h : Heap) (e : AesdBufferEntry) : Prop :=
  ∃ cs, h.cells e.buffptr = .ok cs ∧ e.size ≤ cs.length ∧ ∀ c ∈ cs.take e.size, c ≠ none

theorem Stored.covered {h : Heap} {e : AesdBufferEntry} {bs : List UInt8} (hs : Stored h e bs) :
    Covered h e := by
  obtain ⟨hsize, cs, hc, rest, rfl⟩ := hs
  refine ⟨_, hc, by simp [hsize], ?_⟩
  rw [hsize, List.take_append_of_le_length (by simp), List.take_of_length_le (by simp)]
  simp

theorem stored_covered {h : Heap} {es : List AesdBufferEntry} {bss : List (List UInt8)}
    (hs : List.Forall₂ (Stored h) es bss) : ∀ e ∈ es, Covered h e := by
  intro e he
  obtain ⟨_, _, hst⟩ := stored_mem hs he
  exact Stored.covered hst

/-- The driver with another newline test in its writes. -/
def vfsStepWith (test : NewlineTest) (d : Device) : DriverOp → Except Fault (Reply × Device)
  | .write file buf env =>
    match d.files file with
    | none => .ok (⟨-ebadf, []⟩, d)
    | some fPos =>
      if 2 ^ 63 ≤ buf.length then .ok (⟨-einval, []⟩, d)
      else do .ok (d.finish file (← aesdWriteWith test d.kernel buf fPos env))
  | op => vfsStep d op

theorem vfsStepWith_testByte : vfsStepWith testByte = vfsStep := by
  funext d op
  cases op <;> rfl

/-- A newline test that goes wrong is made on the block of the partial write. -/
def TestFails (test : NewlineTest) (e : Fault) : Prop :=
  ∃ (k : Kernel) (off retval : Nat) (stray : UInt8), k.dev.lock = true ∧
    k.dev.partialWrite.buffptr ≠ .null ∧ Covered k.heap k.dev.partialWrite ∧
    test k k.dev.partialWrite.buffptr off retval stray = .error e

theorem vfs_with (test : NewlineTest) {d : Device} {l : Log} (hi : Idle d.kernel l) (op : DriverOp) :
    Ensures (fun p => ∃ l, Idle p.2.kernel l) (TestFails test) (vfsStepWith test d op) := by
  by_cases hop : ∃ file buf env, op = .write file buf env
  · obtain ⟨file, buf, env, rfl⟩ := hop
    rw [vfsStepWith]
    cases d.files file with
    | none => exact ⟨l, hi⟩
    | some fPos =>
      by_cases hc : 2 ^ 63 ≤ buf.length
      · simp only [hc, if_true]
        exact ⟨l, hi⟩
      · simp only [hc, if_false]
        obtain ⟨_, hw⟩ | ⟨_, _, hw⟩ | ⟨_, _, k₂, hr₂, hl, _, hrest⟩ :=
          write_tests hi (Nat.lt_of_not_le hc) test fPos env
        · rw [hw]
          exact ⟨l, hi⟩
        · rw [hw]
          exact ⟨l, hi⟩
        · split at hrest
          · next e he =>
            rw [hrest]
            exact ⟨k₂, _, _, _, hl, Stored.ne_null hr₂.pending.1, Stored.covered hr₂.pending.1, he⟩
          · obtain ⟨k', hw, hi', _⟩ := hrest
            rw [hw]
            exact ⟨_, hi'⟩
  · have hne : ∀ file buf env, op ≠ .write file buf env := fun f b e h => hop ⟨f, b, e, h⟩
    obtain ⟨r, d', hs, hk⟩ := vfs_keeps hi hne
    have hwith : vfsStepWith test d op = vfsStep d op := by
      cases op with
      | write file buf env => exact absurd rfl (hne file buf env)
      | openFile | release | read | llseek | ioctl => rfl
    rw [hwith, hs]
    exact ⟨l, hk ▸ hi⟩

/-- Whichever way the newline tests of the writes go, no run of driver operations
frees a block twice or touches one that is not live, and a run that does not come
to its end has stopped in such a test, made on the block of the partial write.
Whenever the lock is free the live blocks are those of the partial write and of
the ring entries, all distinct, and unloading frees every one of them. -/
theorem kernel_blocks_owned (test : NewlineTest) (ops : List DriverOp) :
    (∃ e, exec (vfsStepWith test) Device.init ops = .error e ∧ TestFails test e) ∨
    ∃ replies d, exec (vfsStepWith test) Device.init ops = .ok (replies, d) ∧
      let k := d.kernel
      let owners := k.dev.partialWrite.buffptr :: (contents k.dev.circBuf).map (·.buffptr)
      k.dev.lock = false ∧
      (∀ id, (k.heap.blocks id).isSome ↔ .block id ∈ owners) ∧
      (owners.filterMap Ptr.id?).Nodup ∧
      (k.dev.partialWrite.buffptr ≠ .null → Covered k.heap k.dev.partialWrite) ∧
      (∀ e ∈ contents k.dev.circBuf, Covered k.heap e) ∧
      ∃ k', aesdCleanupModule k false = .ok k' ∧ ∀ id, k'.heap.blocks id = none := by
  have hrun := Ensures.exec (f := vfsStepWith test) (I := fun d => ∃ l, Idle d.kernel l)
    (fun d op hd => vfs_with test hd.choose_spec op)
    (show ∃ l, Idle Device.init.kernel l from ⟨_, idle_init⟩) ops
  cases hx : exec (vfsStepWith test) Device.init ops with
  | error e =>
    rw [hx] at hrun
    exact .inl ⟨e, rfl, hrun⟩
  | ok p =>
    obtain ⟨replies, d⟩ := p
    rw [hx] at hrun
    obtain ⟨l, hi⟩ := hrun
    refine .inr ⟨replies, d, rfl, hi.unlocked, fun id => ?_, hi.owns.1, fun hne => ?_,
      stored_covered hi.entries, cleanup_frees hi⟩
    · rw [hi.owns.2 id, List.mem_filterMap]
      constructor
      · rintro ⟨p, hp, hid⟩
        cases p with
        | block j =>
          obtain rfl : j = id := by simpa using hid
          exact hp
        | null | zeroSize => simp at hid
      · exact fun hp => ⟨_, hp, Ptr.id?_block id⟩
    · have hp := hi.pending
      cases hl : l.pending with
      | none =>
        rw [hl] at hp
        exact absurd (by rw [show d.kernel.dev.partialWrite = unused from hp]; rfl) hne
      | some bs =>
        rw [hl] at hp
        exact Stored.covered hp.1

/-- Eleven records of one byte each, and a twelfth that stays open. -/
def evictingWrites : List DriverOp :=
  .openFile 0 :: List.replicate 11 (.write 0 [newline] ⟨false, true, 0, 0⟩) ++
    [.write 0 [97, 98] ⟨false, true, 1, 0⟩]

theorem evictingWrites_owned : ∃ replies d,
    exec vfsStep Device.init evictingWrites = .ok (replies, d) ∧
      d.kernel.heap.blocks 0 = none ∧ (contents d.kernel.dev.circBuf).length = 10 ∧
      d.kernel.dev.partialWrite = ⟨.block 11, 1⟩ ∧
      (∀ id, (d.kernel.heap.blocks id).isSome ↔
        .block id ∈ d.kernel.dev.partialWrite.buffptr ::
          (contents d.kernel.dev.circBuf).map (·.buffptr)) ∧
      ∃ k', aesdCleanupModule d.kernel false = .ok k' ∧ ∀ id, k'.heap.blocks id = none := by
  obtain ⟨replies, d, hx, hb, hn, hp⟩ : ∃ replies d,
      exec (vfsStepWith testByte) Device.init evictingWrites = .ok (replies, d) ∧
        d.kernel.heap.blocks 0 = none ∧ (contents d.kernel.dev.circBuf).length = 10 ∧
        d.kernel.dev.partialWrite = ⟨.block 11, 1⟩ := ⟨_, _, rfl, rfl, rfl, rfl⟩
  obtain ⟨e, he, _⟩ | ⟨replies', d', hx', _, howned, _, _, _, hclean⟩ :=
    kernel_blocks_owned testByte evictingWrites
  · rw [hx] at he
    cases he
  · obtain ⟨rfl, rfl⟩ : replies = replies' ∧ d = d' := by simpa [hx] using hx'
    rw [vfsStepWith_testByte] at hx
    exact ⟨replies, d, hx, hb, hn, hp, howned, hclean⟩

end Aesd.Ownership
