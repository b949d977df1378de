import Aesd.FilePosition

namespace Aesd.LogDevice

open Aesd.Lib.BlockHeap Aesd.Lib.MachineInt Aesd.Lib.Sequence Aesd.Lib.Transition
open Aesd.CircularBuffer Aesd.BoundedFifo Aesd.Lookup Aesd.Driver Aesd.RecordLog Aesd.Refinement
open Aesd.Ownership Aesd.FilePosition

/-- The device as its users know it: a log of records, and a position in every
open file. -/
structure State where
  log : Log
  files : Nat → Option Int

def State.init : State := ⟨Log.empty, fun _ => none⟩

def logSize (l : Log) : Int := loffT l.visible.flatten.length

def seekTo (l : Log) (writeCmd writeCmdOffset : Nat) : Option Nat :=
  match l.visible[writeCmd]? with
  | none => none
  | some record =>
    if writeCmdOffset < record.length then
      some ((l.visible.take writeCmd).flatten.length + writeCmdOffset)
    else none

def write (l : Log) (buf : List UInt8) (fPos : Int) (env : WriteEnv) : Int × Log × Int :=
  if env.interrupted then (-eintr, l, fPos)
  else if env.granted = true ∧ l.openBytes.length + buf.length ≤ kmallocLimit then
    let bytes := accepted buf env.uncopied
    (bytes.length, l.accept bytes env.stray, loffT (fPos + bytes.length))
  else (-enomem, l, fPos)

/-- The write asks for no byte and finds none pending: its newline test has no
byte to read at all. -/
def WriteOopses (l : Log) (buf : List UInt8) (env : WriteEnv) : Prop :=
  env.interrupted = false ∧ env.granted = true ∧ l.openBytes ++ buf = []

def read (l : Log) (count : Nat) (fPos : Int) (env : ReadEnv) : Int × List UInt8 × Int :=
  if env.interrupted then (-eintr, [], fPos)
  else
    match l.readAt (toSizeT fPos) count env.uncopied with
    | none => (0, [], fPos)
    | some got => (got.length, got, loffT (fPos + got.length))

def llseek (l : Log) (fixedSizeLlseek : FixedSizeLlseek) (offset : Int) (whence : Nat) (fPos : Int)
    (interrupted : Bool) : Int × Int :=
  if interrupted then (-eintr, fPos) else fixedSizeLlseek fPos offset whence (logSize l)

def ioctl (l : Log) (cmd : Nat) (arg : AesdSeekto) (fPos : Int) (env : IoctlEnv) : Int × Int :=
  if cmd ≠ aesdcharIocseekto then (-einval, fPos)
  else if env.faults then (-efault, fPos)
  else if maxWriteOperationsSupported ≤ arg.writeCmd then (-einval, fPos)
  else if env.interrupted then (-eintr, fPos)
  else
    match seekTo l arg.writeCmd arg.writeCmdOffset with
    | none => (-einval, fPos)
    | some pos => (0, loffT pos)

def State.move (q : State) (file : Nat) (fPos : Int) : State :=
  { q with files := Function.update q.files file (some fPos) }

def step (q : State) (op : DriverOp) : Reply × State :=
  match op, q.files op.file with
  | .openFile file, none => (⟨0, []⟩, q.move file 0)
  | .openFile _, some _ => (⟨-ebadf, []⟩, q)
  | .release file, _ => (⟨0, []⟩, { q with files := Function.update q.files file none })
  | _, none => (⟨-ebadf, []⟩, q)
  | .write file buf env, some fPos =>
    if 2 ^ 63 ≤ buf.length then (⟨-einval, []⟩, q)
    else
      let (ret, log, fPos) := write q.log buf fPos env
      (⟨ret, []⟩, { q with log := log }.move file fPos)
  | .read file count env, some fPos =>
    let (ret, bytes, fPos) := read q.log count fPos env
    (⟨ret, bytes⟩, q.move file fPos)
  | .llseek file fixedSizeLlseek offset whence interrupted, some fPos =>
    let (ret, fPos) := llseek q.log fixedSizeLlseek offset whence fPos interrupted
    (⟨ret, []⟩, q.move file fPos)
  | .ioctl file cmd arg env, some fPos =>
    let (ret, fPos) := ioctl q.log cmd arg fPos env
    (⟨ret, []⟩, q.move file fPos)

def Oopses (q : State) : DriverOp → Prop
  | .write file buf env => q.files file ≠ none ∧ WriteOopses q.log buf env
  | _ => False

theorem step_log {q : State} {op : DriverOp} (h : ∀ file buf env, op ≠ .write file buf env) :
    (step q op).2.log = q.log := by
  unfold step
  cases q.files op.file with
  | none => cases op <;> rfl
  | some fPos =>
    cases op with
    | write file buf env => exact absurd rfl (h file buf env)
    | openFile file | release file | read file count env | ioctl file cmd arg env
    | llseek file fixedSizeLlseek offset whence interrupted => rfl

theorem read_cases (l : Log) (count : Nat) (fPos : Int) (env : ReadEnv) :
    (read l count fPos env).2.1 = [] ∨
      ∃ got, l.readAt (toSizeT fPos) count env.uncopied = some got ∧
        read l count fPos env = ((got.length : Int), got, loffT (fPos + got.length)) := by
  unfold LogDevice.read
  split
  · exact .inl rfl
  · cases hp : l.readAt (toSizeT fPos) count env.uncopied with
    | none => exact .inl rfl
    | some got => exact .inr ⟨got, rfl, rfl⟩

theorem foldl_addSize_loffT {es : List AesdBufferEntry} (hp : ∀ e ∈ es, e.buffptr ≠ .null)
    (z : Int) : es.foldl addSize (loffT z) = loffT (z + ((sizes es).sum : Nat)) := by
  induction es generalizing z with
  | nil => simp [sizes]
  | cons e es ih =>
    have he : addSize (loffT z) e = loffT (z + e.size) := by
      rw [addSize, if_pos (hp e List.mem_cons_self), loffT, loffT, loffT, Int.bmod_add_bmod]
    have hsum : (sizes (e :: es)).sum = e.size + (sizes es).sum := by simp [sizes]
    rw [List.foldl_cons, he, ih fun d hd => hp d (List.mem_cons_of_mem _ hd), hsum,
      Int.natCast_add, Int.add_assoc]

theorem foldl_addSize_zero {es : List AesdBufferEntry} (hp : ∀ e ∈ es, e.buffptr ≠ .null) :
    es.foldl addSize 0 = loffT ((sizes es).sum : Nat) := by
  have h := foldl_addSize_loffT hp 0
  rwa [Int.zero_add] at h

variable {k : Kernel} {l : Log}

theorem size_eq_logSize (hi : Idle k l) : aesdCircularBufferSize k.dev.circBuf = logSize l := by
  have hsizes : sizes (contents k.dev.circBuf) = l.visible.map List.length := sizes_eq hi.entries
  rw [aesdCircularBufferSize, Ring.foreach_eq hi.ring, List.foldl_append, foldl_addSize_unused,
    foldl_addSize_zero (entries_ne_null hi.entries), hsizes, ← List.length_flatten, logSize]

theorem seekLoop_contents {buffer : AesdCircularBuffer} {es : List AesdBufferEntry}
    (hr : Ring buffer es) (hp : ∀ e ∈ es, e.buffptr ≠ .null) {c : Nat} (hc : c < 10) :
    seekLoop buffer c (foreach buffer) 0 0 =
      (es[c]?.getD unused, loffT (((sizes es).take c).sum : Nat)) := by
  have hle := hr.length_le
  have hlt : c < (es ++ List.replicate (10 - es.length) unused).length := by
    rw [List.length_append, List.length_replicate]
    omega
  have hloop := seekLoop_eq buffer _ c 0 0 hlt
  have hbefore : ∀ e ∈ es.take c, e.buffptr ≠ .null := fun e he => hp e (List.mem_of_mem_take he)
  have hsum : ((es ++ List.replicate (10 - es.length) unused).take c).foldl addSize 0 =
      loffT (((sizes es).take c).sum : Nat) := by
    rw [List.take_append, List.foldl_append, List.take_replicate, foldl_addSize_unused,
      foldl_addSize_zero hbefore, sizes, sizes, List.map_take]
  rw [Nat.zero_add] at hloop
  rw [Ring.foreach_eq hr, hloop, hsum]
  by_cases h : c < es.length
  · rw [List.getElem_append_left h, List.getElem?_eq_getElem h, Option.getD_some]
  · rw [List.getElem_append_right (by omega), List.getElem_replicate,
      List.getElem?_eq_none (by omega), Option.getD_none]

/-- The seek of the driver in terms of the log, whatever the sizes are. -/
theorem adjust_seekTo (hi : Idle k l) {c : Nat} (hc : c < 10) (o : Nat) (fPos : Int) :
    aesdAdjustFileOffset k c o fPos false = .ok (match seekTo l c o with
      | none => (-einval, k, fPos)
      | some pos => (0, k, loffT pos)) := by
  have hsizes : sizes (contents k.dev.circBuf) = l.visible.map List.length := sizes_eq hi.entries
  have hloop := seekLoop_contents hi.ring (entries_ne_null hi.entries) hc
  have hcirc : (locked k).dev.circBuf = k.dev.circBuf := rfl
  have hbig : ¬ maxWriteOperationsSupported ≤ c := Nat.not_le.mpr hc
  unfold aesdAdjustFileOffset seekTo
  simp only [hbig, if_false, lock_unlocked hi.unlocked, bind, Except.bind, Bool.false_eq_true, hcirc,
    hloop, unlock_locked hi.unlocked]
  have hlen : (contents k.dev.circBuf).length = l.visible.length := hi.entries.length_eq
  by_cases h : c < l.visible.length
  · have h' : c < (contents k.dev.circBuf).length := hlen ▸ h
    have hst : Stored k.heap (contents k.dev.circBuf)[c] l.visible[c] := hi.entries.get h' h
    simp only [List.getElem?_eq_getElem h, List.getElem?_eq_getElem h', Option.getD_some, hst.1]
    by_cases ho : o < l.visible[c].length
    · have hno : ¬ ((contents k.dev.circBuf)[c].buffptr = .null ∨ l.visible[c].length ≤ o) := by
        rintro (he | he)
        · exact Stored.ne_null hst he
        · omega
      rw [if_neg hno, if_pos ho, hsizes, ← List.map_take, ← List.length_flatten]
      simp only [loffT, Int.bmod_add_bmod, Int.natCast_add]
    · rw [if_pos (.inr (Nat.le_of_not_lt ho)), if_neg ho]
  · have h' : ¬ c < (contents k.dev.circBuf).length := hlen ▸ h
    simp only [List.getElem?_eq_none (Nat.le_of_not_lt h),
      List.getElem?_eq_none (Nat.le_of_not_lt h'), Option.getD_none, unused, true_or, if_true]

theorem ioctl_eq (hi : Idle k l) (cmd : Nat) (arg : AesdSeekto) (fPos : Int) (env : IoctlEnv) :
    aesdUnlockedIoctl k cmd arg fPos env =
      .ok ((ioctl l cmd arg fPos env).1, k, (ioctl l cmd arg fPos env).2) := by
  unfold aesdUnlockedIoctl ioctl
  by_cases hcmd : cmd = aesdcharIocseekto
  · rw [if_pos hcmd, if_neg (not_not.mpr hcmd)]
    cases env.faults with
    | true => rfl
    | false =>
      simp only [Bool.false_eq_true, if_false]
      by_cases hbig : maxWriteOperationsSupported ≤ arg.writeCmd
      · rw [aesdAdjustFileOffset, if_pos hbig, if_pos hbig]
      · rw [if_neg hbig]
        cases env.interrupted with
        | true =>
          rw [aesdAdjustFileOffset, if_neg hbig]
          rfl
        | false =>
          simp only [adjust_seekTo hi (Nat.lt_of_not_le hbig), Bool.false_eq_true, if_false]
          cases seekTo l arg.writeCmd arg.writeCmdOffset <;> simp only
  · rw [if_neg hcmd, if_pos hcmd]

theorem read_eq (hi : Idle k l) (count : Nat) (fPos : Int) (env : ReadEnv) :
    aesdRead k count fPos env = .ok ((read l count fPos env).1, (read l count fPos env).2.1, k,
      (read l count fPos env).2.2) := by
  unfold LogDevice.read
  cases hni : env.interrupted with
  | true =>
    rw [aesdRead, hni]
    rfl
  | false =>
    rw [read_spec hi count fPos env hni]
    simp only [Bool.false_eq_true, if_false]
    cases l.readAt (toSizeT fPos) count env.uncopied <;> rfl

theorem llseek_answers (hi : Idle k l) (fixedSizeLlseek : FixedSizeLlseek) (offset : Int)
    (whence : Nat) (fPos : Int) (interrupted : Bool) :
    aesdLlseek fixedSizeLlseek k offset whence fPos interrupted =
      .ok ((llseek l fixedSizeLlseek offset whence fPos interrupted).1, k,
        (llseek l fixedSizeLlseek offset whence fPos interrupted).2) := by
  cases interrupted with
  | true => rfl
  | false => rw [llseek_eq hi.unlocked, size_eq_logSize hi, llseek, if_neg Bool.false_ne_true]

theorem write_eq (hi : Idle k l) {buf : List UInt8} (hc : buf.length < 2 ^ 63) (fPos : Int)
    (env : WriteEnv) :
    (WriteOopses l buf env ∧ aesdWrite k buf fPos env = .error .outOfBounds) ∨
      (¬ WriteOopses l buf env ∧ ∃ k', aesdWrite k buf fPos env =
          .ok ((write l buf fPos env).1, k', (write l buf fPos env).2.2) ∧
        Idle k' (write l buf fPos env).2.1) := by
  unfold LogDevice.write WriteOopses
  obtain ⟨hintr, hw⟩ | ⟨hni, hng, hw⟩ | ⟨hni, hg, hempty, hw⟩ | ⟨hni, hg, hne, k', hw, hi', _⟩ :=
    write_cases hi hc fPos env
  · right
    refine ⟨by simp [hintr], k, ?_⟩
    simpa only [hw, hintr, if_true, true_and] using hi
  · right
    have hng' : ¬ (env.granted = true ∧ l.openBytes.length + buf.length ≤ kmallocLimit) := hng
    refine ⟨fun ⟨_, hg, hempty⟩ => hng ⟨hg, ?_⟩, k, ?_⟩
    · rw [← List.length_append, hempty]
      exact Nat.zero_le _
    · simp only [hni, Bool.false_eq_true, if_false, if_neg hng']
      exact ⟨hw, hi⟩
  · exact .inl ⟨⟨hni, hg.1, hempty⟩, hw⟩
  · right
    have hg' : env.granted = true ∧ l.openBytes.length + buf.length ≤ kmallocLimit := hg
    refine ⟨fun h => hne h.2.2, k', ?_⟩
    simp only [hni, Bool.false_eq_true, if_false, if_pos hg']
    exact ⟨hw, hi'⟩

/-- The driver stands for a state of the log device. -/
structure Implements (d : Device) (q : State) : Prop where
  idle : Idle d.kernel q.log
  files : d.files = q.files

theorem vfs_cases {d : Device} {q : State} (h : Implements d q) (op : DriverOp) :
    (Oopses q op ∧ vfsStep d op = .error .outOfBounds) ∨
      (¬ Oopses q op ∧ ∃ d', vfsStep d op = .ok ((step q op).1, d') ∧
        Implements d' (step q op).2) := by
  obtain ⟨hi, hf⟩ := h
  unfold step
  cases hq : q.files op.file with
  | none =>
    right
    rw [← hf] at hq
    cases op with
    | openFile file =>
      have hq' : d.files file = none := hq
      refine ⟨id, { d with files := Function.update d.files file (some 0) }, ?_, hi, ?_⟩
      · simp only [vfsStep, hq']
      · exact congrArg (Function.update · file (some 0)) hf
    | release file => exact ⟨id, _, rfl, hi, congrArg (Function.update · file none) hf⟩
    | read file | llseek file | ioctl file =>
      have hq' : d.files file = none := hq
      exact ⟨id, d, by simp only [vfsStep, hq'], hi, hf⟩
    | write file =>
      have hq' : d.files file = none := hq
      exact ⟨fun h => h.1 (hf ▸ hq'), d, by simp only [vfsStep, hq'], hi, hf⟩
  | some fPos =>
    rw [← hf] at hq
    cases op with
    | openFile file =>
      have hq' : d.files file = some fPos := hq
      exact .inr ⟨id, d, by simp only [vfsStep, hq'], hi, hf⟩
    | release file => exact .inr ⟨id, _, rfl, hi, congrArg (Function.update · file none) hf⟩
    | write file buf env =>
      have hq' : d.files file = some fPos := hq
      have hopen : q.files file ≠ none := by
        rw [← hf, hq']
        simp
      by_cases hc : 2 ^ 63 ≤ buf.length
      · right
        refine ⟨fun h => ?_, d, by simp only [vfsStep, hq', hc, if_true],
          by simpa only [hc, if_true] using hi, by simpa only [hc, if_true] using hf⟩
        rw [(List.append_eq_nil_iff.mp h.2.2.2).2] at hc
        simp at hc
      · obtain ⟨ho, hw⟩ | ⟨hno, k', hw, hi'⟩ := write_eq hi (Nat.lt_of_not_le hc) fPos env
        · exact .inl ⟨⟨hopen, ho⟩, by simp only [vfsStep, hq', hc, hw, if_false]; rfl⟩
        · refine .inr ⟨fun h => hno h.2, ?_⟩
          simp only [vfsStep, hq', hc, hw, if_false, bind, Except.bind, Device.finish]
          exact ⟨_, rfl, hi', congrArg (Function.update · file _) hf⟩
    | read file count env =>
      have hq' : d.files file = some fPos := hq
      simp only [vfsStep, hq', read_eq hi, bind, Except.bind]
      exact .inr ⟨id, _, rfl, hi, congrArg (Function.update · file _) hf⟩
    | llseek file fixedSizeLlseek offset whence interrupted =>
      have hq' : d.files file = some fPos := hq
      simp only [vfsStep, hq', llseek_answers hi, bind, Except.bind, Device.finish]
      exact .inr ⟨id, _, rfl, hi, congrArg (Function.update · file _) hf⟩
    | ioctl file cmd arg env =>
      have hq' : d.files file = some fPos := hq
      simp only [vfsStep, hq', ioctl_eq hi, bind, Except.bind, Device.finish]
      exact .inr ⟨id, _, rfl, hi, congrArg (Function.update · file _) hf⟩

theorem vfs_implements {d : Device} {q : State} (h : Implements d q) {op : DriverOp}
    (ho : ¬ Oopses q op) :
    ∃ d', vfsStep d op = .ok ((step q op).1, d') ∧ Implements d' (step q op).2 := by
  obtain ⟨hoops, _⟩ | ⟨_, hd⟩ := vfs_cases h op
  · exact absurd hoops ho
  · exact hd

theorem vfs_oops {d : Device} {q : State} (h : Implements d q) {op : DriverOp} (ho : Oopses q op) :
    vfsStep d op = .error .outOfBounds := by
  obtain ⟨_, he⟩ | ⟨hno, _⟩ := vfs_cases h op
  · exact he
  · exact absurd ho hno

theorem vfs_answers {d d' : Device} {q : State} (h : Implements d q) {op : DriverOp} {r : Reply}
    (hs : vfsStep d op = .ok (r, d')) :
    ¬ Oopses q op ∧ r = (step q op).1 ∧ Implements d' (step q op).2 := by
  obtain ⟨_, he⟩ | ⟨hno, d₁, hs₁, hd₁⟩ := vfs_cases h op
  · rw [hs] at he
    cases he
  · rw [hs, Except.ok.injEq, Prod.mk.injEq] at hs₁
    obtain ⟨rfl, rfl⟩ := hs₁
    exact ⟨hno, rfl, hd₁⟩

theorem run_implements {d : Device} {q : State} (h : Implements d q) (ops : List DriverOp) :
    (Answerable step Oopses q ops ∧ ∃ d', exec vfsStep d ops = .ok ((answers step q ops).1, d') ∧
      Implements d' (answers step q ops).2) ∨
      (¬ Answerable step Oopses q ops ∧ exec vfsStep d ops = .error .outOfBounds) :=
  exec_answers (f := vfsStep) (R := Implements) (fun _ _ _ h ho => vfs_implements h ho)
    (fun _ _ _ h ho => vfs_oops h ho) h ops

theorem run_answers {d d' : Device} {q : State} (h : Implements d q) {ops : List DriverOp}
    {replies : List Reply} (hx : exec vfsStep d ops = .ok (replies, d')) :
    replies = (answers step q ops).1 ∧ Implements d' (answers step q ops).2 := by
  obtain ⟨_, d₁, hx₁, h₁⟩ | ⟨_, he⟩ := run_implements h ops
  · rw [hx, Except.ok.injEq, Prod.mk.injEq] at hx₁
    obtain ⟨rfl, rfl⟩ := hx₁
    exact ⟨rfl, h₁⟩
  · rw [hx] at he
    cases he

theorem implements_init : Implements Device.init State.init := ⟨idle_init, rfl⟩

/-- Whatever calls are made, in whatever order and whatever they meet, every
call answers as the log device does, up to the first write of no bytes that finds
none pending. That one does not return: it reads where there is no memory. -/
theorem driver_implements_log (ops : List DriverOp) :
    (Answerable step Oopses State.init ops ∧
      ∃ d, exec vfsStep Device.init ops = .ok ((answers step State.init ops).1, d) ∧
        Implements d (answers step State.init ops).2) ∨
      (¬ Answerable step Oopses State.init ops ∧
        exec vfsStep Device.init ops = .error .outOfBounds) :=
  run_implements implements_init ops

end Aesd.LogDevice
