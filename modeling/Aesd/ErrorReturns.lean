import Aesd.FilePosition
import Aesd.WriteLog

namespace Aesd.ErrorReturns

open Aesd.Lib.BlockHeap Aesd.Lib.MachineInt Aesd.Lib.Sequence Aesd.Lib.Transition
open Aesd.CircularBuffer Aesd.BoundedFifo Aesd.Lookup Aesd.Driver Aesd.RecordLog
open Aesd.Refinement Aesd.Ownership Aesd.WriteLog Aesd.FilePosition

/-- The device with its lock held by another operation, or free. -/
def withLock (k : Kernel) (held : Bool) : Kernel := { k with dev := { k.dev with lock := held } }

theorem withLock_free {k : Kernel} (hu : k.dev.lock = false) : withLock k false = k := by
  obtain ⟨⟨circBuf, partialWrite, lock⟩, heap⟩ := k
  cases hu
  rfl

abbrev Outcome := Except Fault (Int × Kernel × Int)

/-- If the operation returns, the lock is as it was, and an error has changed
nothing. -/
structure Sound (k : Kernel) (fPos : Int) (x : Outcome) : Prop where
  balanced : ∀ r k' fPos', x = .ok (r, k', fPos') → k'.dev.lock = k.dev.lock
  atomic : ∀ r k' fPos', x = .ok (r, k', fPos') → r < 0 → k' = k ∧ fPos' = fPos

/-- The operation also returns when it finds the lock free. Taking the lock twice,
or giving it up without having it, is a fault. -/
structure Returns (k : Kernel) (fPos : Int) (x : Outcome) : Prop extends Sound k fPos x where
  returns : k.dev.lock = false → ∃ r, x = .ok r

def ReadsOnly (k : Kernel) (x : Outcome) : Prop := ∀ r k' fPos', x = .ok (r, k', fPos') → k' = k

/-- What a read does apart from the bytes it delivers. -/
def readOutcome (k : Kernel) (count : Nat) (fPos : Int) (env : ReadEnv) : Outcome :=
  (aesdRead k count fPos env).map fun p => (p.1, p.2.2)

/-- `fixed_size_llseek` leaves `f_pos` alone when it returns an error. -/
def KeepsOnError (fixed : FixedSizeLlseek) : Prop :=
  ∀ fPos offset whence size, (fixed fPos offset whence size).1 < 0 →
    (fixed fPos offset whence size).2 = fPos

variable {k : Kernel} {fPos : Int} {x : Outcome}

theorem readsOnly_of_ok {r fPos' : Int} (hx : x = .ok (r, k, fPos')) : ReadsOnly k x := by
  subst hx
  rintro r' k' p h
  cases h
  rfl

theorem returns_of_ok {r fPos' : Int} (hx : x = .ok (r, k, fPos')) (hr : r < 0 → fPos' = fPos) :
    Returns k fPos x := by
  subst hx
  refine ⟨⟨?_, ?_⟩, fun _ => ⟨_, rfl⟩⟩
  · rintro r' k' p h
    cases h
    rfl
  · rintro r' k' p h hneg
    cases h
    exact ⟨rfl, hr hneg⟩

theorem returns_of_held (hk : k.dev.lock = true)
    (hx : x = .ok (-eintr, k, fPos) ∨ x = .error .deadlock) : Returns k fPos x ∧ ReadsOnly k x := by
  obtain hx | hx := hx
  · exact ⟨returns_of_ok hx fun _ => rfl, readsOnly_of_ok hx⟩
  · subst hx
    refine ⟨⟨⟨?_, ?_⟩, fun hu => ?_⟩, ?_⟩
    rotate_left 2
    · rw [hk] at hu
      cases hu
    all_goals
      intro r k' p h
      cases h

theorem write_returns {l : Log} (hi : Idle k l) {buf : List UInt8} (hc : buf.length < 2 ^ 63)
    (fPos : Int) (env : WriteEnv) :
    Sound k fPos (aesdWrite k buf fPos env) ∧
      (0 < k.dev.partialWrite.size + buf.length → Returns k fPos (aesdWrite k buf fPos env)) := by
  rw [pending_size hi.pending, ← List.length_append, List.length_pos_iff]
  obtain ⟨_, hw⟩ | ⟨_, _, hw⟩ | ⟨_, _, hempty, hw⟩ | ⟨_, _, _, k', hw, hi', _⟩ :=
    write_cases hi hc fPos env
  · have h := returns_of_ok hw fun _ => rfl
    exact ⟨h.toSound, fun _ => h⟩
  · have h := returns_of_ok hw fun _ => rfl
    exact ⟨h.toSound, fun _ => h⟩
  · rw [hw]
    exact ⟨⟨by simp, by simp⟩, fun hne => absurd hempty hne⟩
  · have hsound : Sound k fPos (aesdWrite k buf fPos env) := by
      constructor
      · intro r k'' p h
        rw [hw] at h
        cases h
        rw [hi'.unlocked, hi.unlocked]
      · intro r k'' p h hneg
        rw [hw] at h
        cases h
        omega
    exact ⟨hsound, fun _ => ⟨hsound, fun _ => ⟨_, hw⟩⟩⟩

theorem read_readsOnly {l : Log} (hi : Idle k l) (count : Nat) (fPos : Int) (env : ReadEnv) :
    ReadsOnly k (readOutcome k count fPos env) := by
  obtain ⟨r, bs, p, hr⟩ := read_keeps hi count fPos env
  exact readsOnly_of_ok (show _ = Except.ok (r, k, p) by rw [readOutcome, hr]; rfl)

theorem read_returns {l : Log} (hi : Idle k l) (count : Nat) (fPos : Int) (env : ReadEnv) :
    Returns k fPos (readOutcome k count fPos env) := by
  cases hni : env.interrupted with
  | true =>
    have hr : readOutcome k count fPos env = .ok (-eintr, k, fPos) := by
      simp only [readOutcome, aesdRead, hni, mutexLockInterruptible]
      rfl
    exact returns_of_ok hr fun _ => rfl
  | false =>
    rw [readOutcome, read_spec hi count fPos env hni]
    cases l.readAt (toSizeT fPos) count env.uncopied with
    | none => exact returns_of_ok rfl fun _ => rfl
    | some got => exact returns_of_ok rfl fun hneg => absurd hneg (Int.not_lt.mpr (Int.natCast_nonneg _))

theorem llseek_returns (hu : k.dev.lock = false) {fixed : FixedSizeLlseek} (hf : KeepsOnError fixed)
    (offset : Int) (whence : Nat) (fPos : Int) (interrupted : Bool) :
    Returns k fPos (aesdLlseek fixed k offset whence fPos interrupted) := by
  cases interrupted with
  | true => exact returns_of_ok rfl fun _ => rfl
  | false => exact returns_of_ok (llseek_eq hu fixed offset whence fPos) (hf _ _ _ _)

theorem adjust_returns (hu : k.dev.lock = false) (writeCmd writeCmdOffset : Nat) (fPos : Int)
    (interrupted : Bool) :
    Returns k fPos (aesdAdjustFileOffset k writeCmd writeCmdOffset fPos interrupted) := by
  unfold aesdAdjustFileOffset
  split
  · exact returns_of_ok rfl fun _ => rfl
  · cases interrupted with
    | true => exact returns_of_ok rfl fun _ => rfl
    | false =>
      simp only [lock_unlocked hu, unlock_locked hu, bind, Except.bind, Bool.false_eq_true,
        if_false]
      split
      · exact returns_of_ok rfl fun _ => rfl
      · exact returns_of_ok rfl fun h => absurd h (by decide)

theorem ioctl_returns (hu : k.dev.lock = false) (cmd : Nat) (arg : AesdSeekto) (fPos : Int)
    (env : IoctlEnv) : Returns k fPos (aesdUnlockedIoctl k cmd arg fPos env) := by
  unfold aesdUnlockedIoctl
  split
  · split
    · exact returns_of_ok rfl fun _ => rfl
    · exact adjust_returns hu _ _ _ _
  · exact returns_of_ok rfl fun _ => rfl

section Held

variable (hk : k.dev.lock = true)

include hk

theorem lock_held (interrupted : Bool) :
    mutexLockInterruptible k interrupted =
      if interrupted then .ok (true, k) else .error .deadlock := by
  cases interrupted <;> simp [mutexLockInterruptible, hk]

theorem write_held (buf : List UInt8) (fPos : Int) (env : WriteEnv) :
    Returns k fPos (aesdWrite k buf fPos env) := by
  refine (returns_of_held hk ?_).1
  rw [aesdWrite, aesdWriteWith, lock_held hk]
  cases env.interrupted
  · exact .inr rfl
  · exact .inl rfl

theorem read_held (count : Nat) (fPos : Int) (env : ReadEnv) :
    Returns k fPos (readOutcome k count fPos env) ∧ ReadsOnly k (readOutcome k count fPos env) := by
  apply returns_of_held hk
  rw [readOutcome, aesdRead, lock_held hk]
  cases env.interrupted
  · exact .inr rfl
  · exact .inl rfl

theorem llseek_held (fixed : FixedSizeLlseek) (offset : Int) (whence : Nat) (fPos : Int)
    (interrupted : Bool) :
    Returns k fPos (aesdLlseek fixed k offset whence fPos interrupted) ∧
      ReadsOnly k (aesdLlseek fixed k offset whence fPos interrupted) := by
  apply returns_of_held hk
  rw [aesdLlseek, lock_held hk]
  cases interrupted
  · exact .inr rfl
  · exact .inl rfl

theorem ioctl_held (cmd : Nat) (arg : AesdSeekto) (fPos : Int) (env : IoctlEnv) :
    Returns k fPos (aesdUnlockedIoctl k cmd arg fPos env) ∧
      ReadsOnly k (aesdUnlockedIoctl k cmd arg fPos env) := by
  have hearly : ∀ r, Returns k fPos (.ok (r, k, fPos)) ∧ ReadsOnly k (.ok (r, k, fPos)) :=
    fun r => ⟨returns_of_ok rfl fun _ => rfl, readsOnly_of_ok rfl⟩
  unfold aesdUnlockedIoctl
  split
  · split
    · exact hearly _
    · unfold aesdAdjustFileOffset
      split
      · exact hearly _
      · apply returns_of_held hk
        rw [lock_held hk]
        cases env.interrupted
        · exact .inr rfl
        · exact .inl rfl
  · exact hearly _

end Held

theorem reachable_idle {ops : List DriverOp} {replies : List Reply} {d : Device}
    (hx : exec vfsStep Device.init ops = .ok (replies, d)) : ∃ l, Idle d.kernel l :=
  ⟨_, run_simulates hx⟩

/-- Whatever an operation meets, whether or not another one has the lock: an
error leaves the device, its memory and the file position as they were, no
operation but a write changes the device at all, and the lock is taken and given
up in pairs. All of them return, but for a write of no bytes with none pending. -/
theorem failing_operations_atomic {ops : List DriverOp} {replies : List Reply} {d : Device}
    (hx : exec vfsStep Device.init ops = .ok (replies, d)) (held : Bool) (fPos : Int) :
    let k := withLock d.kernel held
    (∀ buf env, buf.length < 2 ^ 63 → Sound k fPos (aesdWrite k buf fPos env) ∧
        (0 < k.dev.partialWrite.size + buf.length → Returns k fPos (aesdWrite k buf fPos env))) ∧
      (∀ count env, Returns k fPos (readOutcome k count fPos env) ∧
        ReadsOnly k (readOutcome k count fPos env)) ∧
      (∀ fixed offset whence interrupted,
        (KeepsOnError fixed →
          Returns k fPos (aesdLlseek fixed k offset whence fPos interrupted)) ∧
        ReadsOnly k (aesdLlseek fixed k offset whence fPos interrupted)) ∧
      ∀ cmd arg env, Returns k fPos (aesdUnlockedIoctl k cmd arg fPos env) ∧
        ReadsOnly k (aesdUnlockedIoctl k cmd arg fPos env) := by
  intro k
  obtain ⟨l, hi⟩ := reachable_idle hx
  cases held with
  | true =>
    have hk : k.dev.lock = true := rfl
    exact ⟨fun buf env _ => ⟨(write_held hk buf fPos env).toSound, fun _ => write_held hk buf fPos env⟩,
      fun count env => read_held hk count fPos env,
      fun fixed offset whence b => ⟨fun _ => (llseek_held hk fixed offset whence fPos b).1,
        (llseek_held hk fixed offset whence fPos b).2⟩,
      fun cmd arg env => ioctl_held hk cmd arg fPos env⟩
  | false =>
    have hk : k = d.kernel := withLock_free hi.unlocked
    rw [hk]
    refine ⟨fun buf env hc => write_returns hi hc fPos env,
      fun count env => ⟨read_returns hi count fPos env, read_readsOnly hi count fPos env⟩,
      fun fixed offset whence b =>
        ⟨fun hf => llseek_returns hi.unlocked hf offset whence fPos b, ?_⟩,
      fun cmd arg env => ⟨ioctl_returns hi.unlocked cmd arg fPos env, ?_⟩⟩
    · obtain ⟨r, p, h⟩ := llseek_keeps hi.unlocked fixed offset whence fPos b
      exact readsOnly_of_ok h
    · obtain ⟨r, p, h⟩ := ioctl_keeps hi.unlocked cmd arg fPos env
      exact readsOnly_of_ok h

def openRecord : List DriverOp := [.openFile 0, .write 0 [97] ⟨false, true, 0, 0⟩]

/-- The rest of the record finds no memory: the byte pending stays pending. -/
theorem openRecord_write_sound :
    ∃ replies d, exec vfsStep Device.init openRecord = .ok (replies, d) ∧
      d.kernel.dev.partialWrite = ⟨.block 0, 1⟩ ∧
      Returns d.kernel 1 (aesdWrite d.kernel [98, newline] 1 ⟨false, false, 0, 0⟩) := by
  obtain ⟨replies, d, hx, hp⟩ : ∃ replies d,
      exec vfsStep Device.init openRecord = .ok (replies, d) ∧
        d.kernel.dev.partialWrite = ⟨.block 0, 1⟩ := ⟨_, _, rfl, rfl⟩
  have h := (failing_operations_atomic hx d.kernel.dev.lock 1).1 [98, newline]
    ⟨false, false, 0, 0⟩ (by decide)
  have hpos : 0 < d.kernel.dev.partialWrite.size + [98, newline].length := by
    rw [hp]
    decide
  exact ⟨replies, d, hx, hp, h.2 hpos⟩

/-- What `aesd_read` asks `copy_to_user` for; 0 at the end of the file, where
it asks for nothing. -/
def bytesToCopy (k : Kernel) (count : Nat) (fPos : Int) : Nat :=
  match aesdCircularBufferFindEntryOffsetForFpos maxWriteOperationsSupported k.dev.circBuf
      (toSizeT fPos) 0 with
  | some (some index, entryOffset) => min ((k.dev.circBuf.slot index).size - entryOffset) count
  | _ => 0

/-- A read ends the file only at its end, and a copy that moves no byte at all
is an error that changes nothing. -/
def ReadReports (k : Kernel) (count : Nat) (fPos : Int) (uncopied : Nat) : Prop :=
  ∃ r bytes k' fPos', aesdRead k count fPos ⟨false, uncopied⟩ = .ok (r, bytes, k', fPos') ∧
    (r = 0 → aesdCircularBufferSize k.dev.circBuf ≤ fPos) ∧
    (0 < bytesToCopy k count fPos → bytesToCopy k count fPos ≤ uncopied →
      r < 0 ∧ k' = k ∧ fPos' = fPos)

/-- A write that has the lock never returns 0, and a copy that moves no byte at
all is an error that changes nothing. -/
def WriteReports (k : Kernel) (buf : List UInt8) (fPos : Int) (env : WriteEnv) : Prop :=
  ∃ r k' fPos', aesdWrite k buf fPos env = .ok (r, k', fPos') ∧ r ≠ 0 ∧
    (buf.length ≤ env.uncopied → r < 0 ∧ k' = k ∧ fPos' = fPos)

def restOfEntry (ns : List Nat) (pos : Nat) : Nat :=
  match locate ns pos with
  | some (i, off) => ns[i]?.getD 0 - off
  | none => 0

theorem restOfEntry_pos {ns : List Nat} {pos : Nat} (h : 0 < restOfEntry ns pos) :
    pos < ns.sum := by
  by_contra hn
  rw [restOfEntry, locate_eq_none_iff.mpr (Nat.le_of_not_lt hn)] at h
  exact absurd h (Nat.lt_irrefl 0)

theorem length_pieceAt (bss : List (List UInt8)) (pos count uncopied : Nat) :
    ((pieceAt bss pos count uncopied).getD []).length =
      min (restOfEntry (bss.map List.length) pos) count -
        min uncopied (min (restOfEntry (bss.map List.length) pos) count) := by
  rw [pieceAt, restOfEntry]
  cases hloc : locate (bss.map List.length) pos with
  | none => simp
  | some p =>
    obtain ⟨i, off⟩ := p
    obtain ⟨hi, _⟩ := locate_eq_some_iff.mp hloc
    rw [List.length_map] at hi
    simp only [Option.map_some, Option.getD_some, List.getElem?_map, List.getElem?_eq_getElem hi,
      List.length_take, List.length_drop]
    omega

theorem bytesToCopy_eq {k : Kernel} (hr : Ring k.dev.circBuf (contents k.dev.circBuf))
    (count : Nat) (fPos : Int) : bytesToCopy k count fPos =
      min (restOfEntry (sizes (contents k.dev.circBuf)) (toSizeT fPos)) count := by
  rw [bytesToCopy, maxWriteOperationsSupported, find_eq_locate hr, restOfEntry]
  cases hloc : locate (sizes (contents k.dev.circBuf)) (toSizeT fPos) with
  | none => simp
  | some p =>
    obtain ⟨i, off⟩ := p
    obtain ⟨hi, _⟩ := locate_eq_some_iff.mp hloc
    have hi' : i < (contents k.dev.circBuf).length := by simpa [sizes] using hi
    have hslot := hr.slot_eq i (Nat.lt_of_lt_of_le hi' hr.length_le)
    rw [List.getElem?_eq_getElem hi', Option.getD_some] at hslot
    simp only [hslot, sizes, List.getElem?_map, List.getElem?_eq_getElem hi', Option.map_some,
      Option.getD_some]

theorem read_counts {l : Log} (hi : Idle k l) (count : Nat) (fPos : Int) (uncopied : Nat) :
    ∃ bytes fPos', aesdRead k count fPos ⟨false, uncopied⟩ =
      .ok ((bytesToCopy k count fPos - min uncopied (bytesToCopy k count fPos) : Nat), bytes, k,
        fPos') := by
  have hsizes : sizes (contents k.dev.circBuf) = l.visible.map List.length := sizes_eq hi.entries
  have hlen := length_pieceAt l.visible (toSizeT fPos) count uncopied
  rw [← hsizes, ← bytesToCopy_eq hi.ring] at hlen
  rw [read_spec hi count fPos ⟨false, uncopied⟩ rfl, Log.readAt, ← hlen]
  cases pieceAt l.visible (toSizeT fPos) count uncopied with
  | none => exact ⟨_, _, rfl⟩
  | some got => exact ⟨_, _, rfl⟩

theorem sizes_le_capacity {h : Heap} {es : List AesdBufferEntry} {bss : List (List UInt8)}
    (hs : List.Forall₂ (Stored h) es bss) :
    (sizes es).sum ≤ ((es.map (·.buffptr)).map h.capacity).sum := by
  induction hs with
  | nil => exact Nat.le_refl _
  | cons he _ ih =>
    have hle := he.2.le_capacity
    rw [← he.1] at hle
    simp only [sizes, List.map_cons, List.sum_cons] at ih ⊢
    omega

theorem sizes_le_size {k : Kernel} {l : Log} (hi : Idle k l) :
    (sizes (contents k.dev.circBuf)).sum ≤ k.heap.size := by
  have hle := hi.owns.capacity_le
  rw [List.map_cons, List.sum_cons] at hle
  exact (sizes_le_capacity hi.entries).trans (Nat.le_of_add_left_le hle)

theorem read_reports_iff {l : Log} (hi : Idle k l) (hmem : k.heap.size < 2 ^ 63)
    (h0 : -2 ^ 63 ≤ fPos) (h1 : fPos < 2 ^ 63) (count uncopied : Nat) :
    ReadReports k count fPos uncopied ↔ aesdCircularBufferSize k.dev.circBuf ≤ fPos ∨
      uncopied < min (restOfEntry (sizes (contents k.dev.circBuf)) (toSizeT fPos)) count := by
  have hfits := Nat.lt_of_le_of_lt (sizes_le_size hi) hmem
  have hsize := size_eq_sum hi.ring (entries_ne_null hi.entries) hfits
  have hasked := bytesToCopy_eq hi.ring count fPos
  -- whatever is asked for is asked for before the end of the file
  have hpos : 0 < bytesToCopy k count fPos → fPos < aesdCircularBufferSize k.dev.circBuf := by
    intro hb
    rw [hasked, Nat.lt_min] at hb
    have hlt := restOfEntry_pos hb.1
    rw [hsize]
    unfold toSizeT at hlt
    omega
  obtain ⟨bytes, p, hr⟩ := read_counts hi count fPos uncopied
  rw [← hasked]
  constructor
  · rintro ⟨r, bytes', k', p', hr', heof, hfault⟩
    rw [hr, Except.ok.injEq, Prod.mk.injEq] at hr'
    obtain ⟨rfl, _⟩ := hr'
    by_cases hu : uncopied < bytesToCopy k count fPos
    · exact .inr hu
    · exact .inl (heof (by omega))
  · intro hcond
    refine ⟨_, _, _, _, hr, ?_, ?_⟩
    · intro hz
      obtain h | h := hcond
      · exact h
      · omega
    · intro hb hle
      have hlt := hpos hb
      omega

theorem write_reports_iff {l : Log} (hi : Idle k l) (fPos : Int) {buf : List UInt8}
    (hne : buf ≠ []) (hc : buf.length < 2 ^ 63) {env : WriteEnv} (hni : env.interrupted = false) :
    WriteReports k buf fPos env ↔ env.uncopied < buf.length ∨ env.granted = false ∨
      kmallocLimit < k.dev.partialWrite.size + buf.length := by
  have hlen := List.length_pos_iff.mpr hne
  rw [pending_size hi.pending]
  obtain ⟨h, _⟩ | ⟨_, hng, hw⟩ | ⟨_, _, hempty, _⟩ | ⟨_, hg, _, k', hw, _⟩ :=
    write_cases hi hc fPos env
  · rw [hni] at h
    cases h
  · refine iff_of_true ⟨_, _, _, hw, by decide, fun _ => ⟨by decide, rfl, rfl⟩⟩ (.inr ?_)
    by_cases hgr : env.granted = true
    · exact .inr (Nat.lt_of_not_le fun hle => hng ⟨hgr, hle⟩)
    · exact .inl (Bool.eq_false_iff.mpr hgr)
  · exact absurd (List.append_eq_nil_iff.mp hempty).2 hne
  · have hacc := accepted_length buf env.uncopied
    constructor
    · rintro ⟨r, k'', p, hw', hnz, hfault⟩
      rw [hw, Except.ok.injEq, Prod.mk.injEq] at hw'
      obtain ⟨rfl, _⟩ := hw'
      left
      by_contra hle
      omega
    · intro hcond
      have hu : env.uncopied < buf.length := by
        obtain h | h | h := hcond
        · exact h
        · rw [hg.1] at h
          cases h
        · exact absurd hg.2 (Nat.not_le.mpr h)
      exact ⟨_, _, _, hw, by omega, fun hle => by omega⟩

/-- With the lock obtained, a read reports a fault exactly when it is at the end
of the file or its copy moves a byte, and a write when it finds no memory or its
copy moves a byte. The `ioctl` path reports every fault. -/
theorem faults_reported_iff {ops : List DriverOp} {replies : List Reply} {d : Device}
    (hx : exec vfsStep Device.init ops = .ok (replies, d)) (hmem : d.kernel.heap.size < 2 ^ 63)
    {fPos : Int} (h0 : -2 ^ 63 ≤ fPos) (h1 : fPos < 2 ^ 63) :
    let k := d.kernel
    let ns := sizes (contents k.dev.circBuf)
    (∀ count uncopied, ReadReports k count fPos uncopied ↔
      aesdCircularBufferSize k.dev.circBuf ≤ fPos ∨
        uncopied < min (restOfEntry ns (toSizeT fPos)) count) ∧
      (∀ buf env, buf ≠ [] → buf.length < 2 ^ 63 → env.interrupted = false →
        (WriteReports k buf fPos env ↔ env.uncopied < buf.length ∨ env.granted = false ∨
          kmallocLimit < k.dev.partialWrite.size + buf.length)) ∧
      ∀ arg interrupted, aesdUnlockedIoctl k aesdcharIocseekto arg fPos ⟨true, interrupted⟩ =
        .ok (-efault, k, fPos) := by
  obtain ⟨l, hi⟩ := reachable_idle hx
  exact ⟨read_reports_iff hi hmem h0 h1,
    fun buf env hne hc hni => write_reports_iff hi fPos hne hc hni, fun _ _ => rfl⟩

def oneRecord : List DriverOp := [.openFile 0, .write 0 [97, newline] ⟨false, true, 0, 0⟩]

theorem oneRecord_faults :
    ∃ replies d, exec vfsStep Device.init oneRecord = .ok (replies, d) ∧
      (ReadReports d.kernel 5 1 0 ↔ (2 : Int) ≤ 1 ∨ 0 < 1) ∧
      (WriteReports d.kernel [98] 2 ⟨false, true, 1, 0⟩ ↔ 1 < 1 ∨ true = false ∨ kmallocLimit < 1) := by
  obtain ⟨replies, d, hx, hmem, hsize, hrest, hpw⟩ : ∃ replies d,
      exec vfsStep Device.init oneRecord = .ok (replies, d) ∧ d.kernel.heap.size < 2 ^ 63 ∧
        aesdCircularBufferSize d.kernel.dev.circBuf = 2 ∧
        restOfEntry (sizes (contents d.kernel.dev.circBuf)) (toSizeT 1) = 1 ∧
        d.kernel.dev.partialWrite.size = 0 := ⟨_, _, rfl, by decide, by decide, by decide, rfl⟩
  have hread : ReadReports d.kernel 5 1 0 ↔ _ :=
    (faults_reported_iff hx hmem (by decide) (by decide)).1 5 0
  have hwrite : WriteReports d.kernel [98] 2 ⟨false, true, 1, 0⟩ ↔ _ :=
    (faults_reported_iff hx hmem (by decide) (by decide)).2.1 [98] _ (by decide) (by decide) rfl
  rw [hsize, hrest] at hread
  rw [hpw] at hwrite
  exact ⟨replies, d, hx, hread, hwrite⟩

/-- A record of two bytes is in the ring. A read of its first byte that faults
returns 0 as at the end of the file, and a write that faults returns 0 and leaves
a block pending. -/
theorem faulting_copies_return_zero :
    ∃ replies d, exec vfsStep Device.init oneRecord = .ok (replies, d) ∧
      (∃ bytes fPos, aesdRead d.kernel 1 0 ⟨false, 1⟩ = .ok (0, bytes, d.kernel, fPos)) ∧
      aesdCircularBufferSize d.kernel.dev.circBuf = 2 ∧ ¬ ReadReports d.kernel 1 0 1 ∧
      (∃ k fPos, aesdWrite d.kernel [98] 0 ⟨false, true, 1, 0⟩ = .ok (0, k, fPos) ∧
        d.kernel.dev.partialWrite = ⟨.null, 0⟩ ∧ k.dev.partialWrite = ⟨.block 1, 0⟩) ∧
      ¬ WriteReports d.kernel [98] 0 ⟨false, true, 1, 0⟩ := by
  obtain ⟨replies, d, hx, hsize, hasked, hpw, k, p, hw, hpw'⟩ : ∃ replies d,
      exec vfsStep Device.init oneRecord = .ok (replies, d) ∧
        aesdCircularBufferSize d.kernel.dev.circBuf = 2 ∧ bytesToCopy d.kernel 1 0 = 1 ∧
        d.kernel.dev.partialWrite = ⟨.null, 0⟩ ∧
        ∃ k p, aesdWrite d.kernel [98] 0 ⟨false, true, 1, 0⟩ = .ok (0, k, p) ∧
          k.dev.partialWrite = ⟨.block 1, 0⟩ :=
    ⟨_, _, rfl, by decide, by decide, rfl, _, _, rfl, rfl⟩
  obtain ⟨l, hi⟩ := reachable_idle hx
  obtain ⟨bytes, q, hr⟩ := read_counts hi 1 0 1
  rw [hasked] at hr
  refine ⟨replies, d, hx, ⟨bytes, q, hr⟩, hsize, ?_, ⟨k, p, hw, hpw, hpw'⟩, ?_⟩
  · rintro ⟨r, bytes', k', p', hr', heof, _⟩
    rw [hr, Except.ok.injEq, Prod.mk.injEq] at hr'
    obtain ⟨rfl, _⟩ := hr'
    rw [hsize] at heof
    exact absurd (heof rfl) (by decide)
  · rintro ⟨r, k', p', hw', hnz, _⟩
    rw [hw, Except.ok.injEq, Prod.mk.injEq] at hw'
    exact hnz hw'.1.symm

end Aesd.ErrorReturns
