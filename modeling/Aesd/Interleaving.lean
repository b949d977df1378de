import Aesd.LogDevice
import Aesd.Lib.Monitor

namespace Aesd.Interleaving

open Aesd.Lib.BlockHeap Aesd.Lib.MachineInt Aesd.Lib.Transition Aesd.CircularBuffer Aesd.Driver
open Aesd.RecordLog (newline)

/-- The statement that a call which has the lock executes next, with the locals
it has by then. The `unlock` of each way out comes with what the call returns. -/
inductive Point
  | kmalloc
  | copyPrior (kmemBuf : Ptr)
  | freePrior (kmemBuf : Ptr)
  | expand (kmemBuf : Ptr)
  | start (kmemBuf : Ptr)
  | copyFromUser (kmemBuf : Ptr) (off : Nat)
  | addCount (kmemBuf : Ptr) (off retval : Nat)
  | testNewline (kmemBuf : Ptr) (off retval : Nat)
  | addEntry (retval : Nat)
  | freeEntry (addEntryRetval : Ptr) (retval : Nat)
  | clear (retval : Nat)
  | find
  | copyToUser (index entryOffset : Nat)
  | size
  | llseek (size : Int)
  | seek
  | adjust (entry : AesdBufferEntry) (byteCount : Int)
  | unlock (reply : Reply) (fPos : Int)
  deriving DecidableEq, Repr

def writeNext (buf : List UInt8) (env : WriteEnv) (fPos : Int) (k : Kernel) :
    Point → Except Fault (Point × Kernel)
  | .kmalloc =>
    let old := k.dev.partialWrite
    let count := if old.buffptr ≠ .null then sizeT (buf.length + old.size) else buf.length
    match k.heap.malloc count env.granted with
    | (.null, _) => .ok (.unlock ⟨-enomem, []⟩ fPos, k)
    | (kmemBuf, heap) =>
      .ok (if old.buffptr ≠ .null then .copyPrior kmemBuf else .start kmemBuf,
        { k with heap := heap })
  | .copyPrior kmemBuf => do
    let prior ← k.heap.loadCells k.dev.partialWrite.buffptr 0 k.dev.partialWrite.size
    .ok (.freePrior kmemBuf, { k with heap := ← k.heap.store kmemBuf 0 prior })
  | .freePrior kmemBuf => do
    .ok (.expand kmemBuf, { k with heap := ← k.heap.free k.dev.partialWrite.buffptr })
  | .expand kmemBuf =>
    let size := k.dev.partialWrite.size
    .ok (.copyFromUser kmemBuf size, { k with dev := { k.dev with partialWrite := ⟨kmemBuf, size⟩ } })
  | .start kmemBuf =>
    .ok (.copyFromUser kmemBuf 0, { k with dev := { k.dev with partialWrite := ⟨kmemBuf, 0⟩ } })
  | .copyFromUser kmemBuf off => do
    let (left, heap) ← copyFromUser k.heap kmemBuf off buf env.uncopied
    .ok (.addCount kmemBuf off (buf.length - left), { k with heap := heap })
  | .addCount kmemBuf off retval =>
    let size := sizeT (k.dev.partialWrite.size + retval)
    .ok (.testNewline kmemBuf off retval,
      { k with dev := { k.dev with partialWrite := ⟨k.dev.partialWrite.buffptr, size⟩ } })
  | .testNewline kmemBuf off retval => do
    let byte ← testByte k kmemBuf off retval env.stray
    .ok (if byte = newline then .addEntry retval
      else .unlock ⟨retval, []⟩ (loffT (fPos + retval)), k)
  | .addEntry retval =>
    let (addEntryRetval, circBuf) := aesdCircularBufferAddEntry k.dev.circBuf k.dev.partialWrite
    .ok (.freeEntry addEntryRetval retval, { k with dev := { k.dev with circBuf := circBuf } })
  | .freeEntry addEntryRetval retval => do
    let heap ← if addEntryRetval ≠ .null then k.heap.free addEntryRetval else .ok k.heap
    .ok (.clear retval, { k with heap := heap })
  | .clear retval =>
    .ok (.unlock ⟨retval, []⟩ (loffT (fPos + retval)),
      { k with dev := { k.dev with partialWrite := ⟨.null, 0⟩ } })
  | _ => .error .disabled

def readNext (count : Nat) (env : ReadEnv) (fPos : Int) (k : Kernel) :
    Point → Except Fault (Point × Kernel)
  | .find =>
    match aesdCircularBufferFindEntryOffsetForFpos maxWriteOperationsSupported k.dev.circBuf
        (toSizeT fPos) 0 with
    | none => .error .diverges
    | some (none, _) => .ok (.unlock ⟨0, []⟩ fPos, k)
    | some (some index, entryOffset) => .ok (.copyToUser index entryOffset, k)
  | .copyToUser index entryOffset => do
    let entry := k.dev.circBuf.slot index
    let bytesToCopy := min (entry.size - entryOffset) count
    let bytes ← k.heap.load entry.buffptr entryOffset bytesToCopy
    let retval := bytesToCopy - min env.uncopied bytesToCopy
    .ok (.unlock ⟨retval, bytes.take retval⟩ (loffT (fPos + retval)), k)
  | _ => .error .disabled

def llseekNext (fixedSizeLlseek : FixedSizeLlseek) (offset : Int) (whence : Nat) (fPos : Int)
    (k : Kernel) : Point → Except Fault (Point × Kernel)
  | .size => .ok (.llseek (aesdCircularBufferSize k.dev.circBuf), k)
  | .llseek size =>
    let (retval, fPos) := fixedSizeLlseek fPos offset whence size
    .ok (.unlock ⟨retval, []⟩ fPos, k)
  | _ => .error .disabled

def adjustNext (arg : AesdSeekto) (fPos : Int) (k : Kernel) : Point → Except Fault (Point × Kernel)
  | .seek =>
    let (entry, byteCount) := seekLoop k.dev.circBuf arg.writeCmd (foreach k.dev.circBuf) 0 0
    .ok (.adjust entry byteCount, k)
  | .adjust entry byteCount =>
    if entry.buffptr = .null ∨ entry.size ≤ arg.writeCmdOffset then
      .ok (.unlock ⟨-einval, []⟩ fPos, k)
    else .ok (.unlock ⟨0, []⟩ (loffT (byteCount + arg.writeCmdOffset)), k)
  | _ => .error .disabled

def next (op : DriverOp) (fPos : Int) (k : Kernel) (pt : Point) : Except Fault (Point × Kernel) :=
  match op with
  | .write _ buf env => writeNext buf env fPos k pt
  | .read _ count env => readNext count env fPos k pt
  | .llseek _ fixedSizeLlseek offset whence _ => llseekNext fixedSizeLlseek offset whence fPos k pt
  | .ioctl _ _ arg _ => adjustNext arg fPos k pt
  | .openFile _ | .release _ => .error .disabled

def firstPoint : DriverOp → Point
  | .write _ _ _ => .kmalloc
  | .read _ _ _ => .find
  | .llseek _ _ _ _ _ => .size
  | .ioctl _ _ _ _ | .openFile _ | .release _ => .seek

def interrupted : DriverOp → Bool
  | .write _ _ env => env.interrupted
  | .read _ _ env => env.interrupted
  | .llseek _ _ _ _ interrupted => interrupted
  | .ioctl _ _ _ env => env.interrupted
  | .openFile _ | .release _ => false

/-- What becomes of a call before it asks for the lock: it goes on to the lock
with the file position, or it is answered. The position is `none` when the file
is not open. -/
def entry (op : DriverOp) (fPos : Option Int) : Int ⊕ Reply × Option Int :=
  match op, fPos with
  | .openFile _, none => .inr (⟨0, []⟩, some 0)
  | .release _, _ => .inr (⟨0, []⟩, none)
  | .openFile _, some fPos => .inr (⟨-ebadf, []⟩, some fPos)
  | _, none => .inr (⟨-ebadf, []⟩, none)
  | .write _ buf _, some fPos =>
    if 2 ^ 63 ≤ buf.length then .inr (⟨-einval, []⟩, some fPos) else .inl fPos
  | .read _ _ _, some fPos | .llseek _ _ _ _ _, some fPos => .inl fPos
  | .ioctl _ cmd arg env, some fPos =>
    if cmd = aesdcharIocseekto then
      if env.faults then .inr (⟨-efault, []⟩, some fPos)
      else if maxWriteOperationsSupported ≤ arg.writeCmd then .inr (⟨-einval, []⟩, some fPos)
      else .inl fPos
    else .inr (⟨-einval, []⟩, some fPos)

inductive FileState
  | idle (fPos : Option Int)
  | called (op : DriverOp) (fPos : Option Int)
  | waiting (op : DriverOp) (fPos : Int)
  | running (op : DriverOp) (fPos : Int) (pt : Point)
  | answered (op : DriverOp) (reply : Reply) (fPos : Option Int)

structure Machine where
  kernel : Kernel
  files : Nat → FileState

def Machine.init : Machine := ⟨aesdInitModule, fun _ => .idle none⟩

/-- `effect` is the moment from which nothing more of the call is seen by others:
it has given the lock up, or ends without it. -/
inductive Event
  | called (op : DriverOp)
  | locked (op : DriverOp)
  | moved (op : DriverOp)
  | effect (op : DriverOp) (reply : Reply)
  | waits (op : DriverOp)
  | returned (op : DriverOp) (reply : Reply)

inductive Label
  | call (op : DriverOp)
  | move (file : Nat)

def Machine.set (m : Machine) (file : Nat) (s : FileState) : Machine :=
  { m with files := Function.update m.files file s }

@[simp] theorem Machine.set_self (m : Machine) (file : Nat) (s : FileState) :
    (m.set file s).files file = s := Function.update_self ..

theorem Machine.set_ne (m : Machine) {file other : Nat} (h : other ≠ file) (s : FileState) :
    (m.set file s).files other = m.files other := Function.update_of_ne h ..

def Machine.move (m : Machine) (file : Nat) : Except Fault (Event × Machine) :=
  match m.files file with
  | .idle _ => .error .disabled
  | .called op fPos =>
    match entry op fPos with
    | .inl fPos => .ok (.waits op, m.set file (.waiting op fPos))
    | .inr (reply, fPos) => .ok (.effect op reply, m.set file (.answered op reply fPos))
  | .waiting op fPos => do
    let (interrupted, k) ← mutexLockInterruptible m.kernel (interrupted op)
    if interrupted then
      .ok (.effect op ⟨-eintr, []⟩, m.set file (.answered op ⟨-eintr, []⟩ (some fPos)))
    else .ok (.locked op, { m with kernel := k }.set file (.running op fPos (firstPoint op)))
  | .running op _ (.unlock reply fPos) => do
    let k ← mutexUnlock m.kernel
    .ok (.effect op reply, { m with kernel := k }.set file (.answered op reply (some fPos)))
  | .running op fPos pt => do
    let (pt, k) ← next op fPos m.kernel pt
    .ok (.moved op, { m with kernel := k }.set file (.running op fPos pt))
  | .answered op reply fPos => .ok (.returned op reply, m.set file (.idle fPos))

def Label.file : Label → Nat
  | .call op => op.file
  | .move file => file

def Machine.step (m : Machine) : Label → Except Fault (Event × Machine)
  | .call op =>
    match m.files op.file with
    | .idle fPos => .ok (.called op, m.set op.file (.called op fPos))
    | _ => .error .disabled
  | .move file => m.move file

end Aesd.Interleaving
