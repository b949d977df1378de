import Aesd.CircularBuffer
import Aesd.Lib.Transition
import Aesd.RecordLog

namespace Aesd.Driver

open Aesd.Lib.BlockHeap Aesd.Lib.MachineInt Aesd.Lib.Transition Aesd.CircularBuffer
open Aesd.RecordLog (newline)

def eintr : Int := 4
def enomem : Int := 12
def ebadf : Int := 9
def efault : Int := 14
def einval : Int := 22

structure AesdDev where
  circBuf : AesdCircularBuffer
  partialWrite : AesdBufferEntry
  lock : Bool
  deriving DecidableEq, Repr

structure Kernel where
  dev : AesdDev
  heap : Heap

/-- True when a signal interrupts the wait, as the nonzero result is. -/
def mutexLockInterruptible (k : Kernel) (interrupted : Bool) : Except Fault (Bool × Kernel) :=
  if interrupted then .ok (true, k)
  else if k.dev.lock then .error .deadlock
  else .ok (false, { k with dev := { k.dev with lock := true } })

def mutexUnlock (k : Kernel) : Except Fault Kernel :=
  if k.dev.lock then .ok { k with dev := { k.dev with lock := false } } else .error .notLocked

/-- What the services called by `aesd_write` answer: the lock, `kmalloc`, the
bytes `copy_from_user` fails to copy (never more than asked for), and the byte
found when the newline test reads the one before the block. -/
structure WriteEnv where
  interrupted : Bool
  granted : Bool
  uncopied : Nat
  stray : UInt8
  deriving DecidableEq, Repr

/-- The number of bytes not copied. The kernel fills the rest of the target
with zeros, which are not user data. -/
def copyFromUser (heap : Heap) (dst : Ptr) (off : Nat) (buf : List UInt8) (uncopied : Nat) :
    Except Fault (Nat × Heap) := do
  let left := min uncopied buf.length
  let heap ← heap.store dst off
    ((buf.take (buf.length - left)).map some ++ List.replicate left none)
  .ok (left, heap)

/-- Make room in the partial write for `count` more bytes: the device with the
new block, and `kmem_buf` as that block and an offset. `none` if `kmalloc` fails. -/
def growPartialWrite (k : Kernel) (count : Nat) (granted : Bool) :
    Except Fault (Option (Kernel × Ptr × Nat)) := do
  let old := k.dev.partialWrite
  if old.buffptr ≠ .null then
    match k.heap.malloc (sizeT (count + old.size)) granted with
    | (.null, _) => .ok none
    | (kmemBuf, heap) =>
      let prior ← heap.loadCells old.buffptr 0 old.size
      let heap ← heap.store kmemBuf 0 prior
      let heap ← heap.free old.buffptr
      .ok (some (⟨{ k.dev with partialWrite := ⟨kmemBuf, old.size⟩ }, heap⟩, kmemBuf, old.size))
  else
    match k.heap.malloc count granted with
    | (.null, _) => .ok none
    | (kmemBuf, heap) =>
      .ok (some (⟨{ k.dev with partialWrite := ⟨kmemBuf, 0⟩ }, heap⟩, kmemBuf, 0))

def acceptBytes (k : Kernel) (kmemBuf : Ptr) (off : Nat) (buf : List UInt8) (uncopied : Nat) :
    Except Fault (Nat × Kernel) := do
  let (left, heap) ← copyFromUser k.heap kmemBuf off buf uncopied
  let retval := buf.length - left
  let size := sizeT (k.dev.partialWrite.size + retval)
  .ok (retval, ⟨{ k.dev with partialWrite := ⟨k.dev.partialWrite.buffptr, size⟩ }, heap⟩)

def testIndex (off retval : Nat) : Int := off + ((retval : Int) - 1)

abbrev NewlineTest := Kernel → Ptr → Nat → Nat → UInt8 → Except Fault UInt8

/-- Before a block lies whatever lies there. Before the zero-size pointer, which
is an address the kernel never maps, lies nothing that can be read. -/
def testByte : NewlineTest := fun k kmemBuf off retval stray =>
  match kmemBuf, k.heap.loadByte kmemBuf (testIndex off retval) with
  | .block _, .error .outOfBounds => .ok stray
  | _, r => r

def commitPartialWrite (k : Kernel) : Except Fault Kernel := do
  let (addEntryRetval, circBuf) := aesdCircularBufferAddEntry k.dev.circBuf k.dev.partialWrite
  let heap ← if addEntryRetval ≠ .null then k.heap.free addEntryRetval else .ok k.heap
  .ok ⟨{ k.dev with circBuf := circBuf, partialWrite := ⟨.null, 0⟩ }, heap⟩

def aesdWriteWith (test : NewlineTest) (k : Kernel) (buf : List UInt8) (fPos : Int)
    (env : WriteEnv) : Except Fault (Int × Kernel × Int) := do
  let (interrupted, k) ← mutexLockInterruptible k env.interrupted
  if interrupted then .ok (-eintr, k, fPos)
  else
    match ← growPartialWrite k buf.length env.granted with
    | none => .ok (-enomem, ← mutexUnlock k, fPos)
    | some (k, kmemBuf, off) =>
      let (retval, k) ← acceptBytes k kmemBuf off buf env.uncopied
      let byte ← test k kmemBuf off retval env.stray
      let k ← if byte = newline then commitPartialWrite k else .ok k
      .ok (retval, ← mutexUnlock k, loffT (fPos + retval))

def aesdWrite : Kernel → List UInt8 → Int → WriteEnv → Except Fault (Int × Kernel × Int) :=
  aesdWriteWith testByte

structure ReadEnv where
  interrupted : Bool
  uncopied : Nat
  deriving DecidableEq, Repr

def aesdRead (k : Kernel) (count : Nat) (fPos : Int) (env : ReadEnv) :
    Except Fault (Int × List UInt8 × Kernel × Int) := do
  let (interrupted, k) ← mutexLockInterruptible k env.interrupted
  if interrupted then .ok (-eintr, [], k, fPos)
  else
    match aesdCircularBufferFindEntryOffsetForFpos maxWriteOperationsSupported k.dev.circBuf
        (toSizeT fPos) 0 with
    | none => .error .diverges
    | some (none, _) => .ok (0, [], ← mutexUnlock k, fPos)
    | some (some index, entryOffset) =>
      let entry := k.dev.circBuf.slot index
      let bytesToCopy := min (entry.size - entryOffset) count
      let bytes ← k.heap.load entry.buffptr entryOffset bytesToCopy
      let retval := bytesToCopy - min env.uncopied bytesToCopy
      .ok (retval, bytes.take retval, ← mutexUnlock k, loffT (fPos + retval))

/-- `fixed_size_llseek` of the kernel: from `f_pos`, the offset, `whence` and
the size to its return value and the new `f_pos`. -/
abbrev FixedSizeLlseek := Int → Int → Nat → Int → Int × Int

def aesdLlseek (fixedSizeLlseek : FixedSizeLlseek) (k : Kernel) (offset : Int) (whence : Nat)
    (fPos : Int) (interrupted : Bool) : Except Fault (Int × Kernel × Int) := do
  let (interrupted, k) ← mutexLockInterruptible k interrupted
  if interrupted then .ok (-eintr, k, fPos)
  else
    let (retval, fPos) := fixedSizeLlseek fPos offset whence (aesdCircularBufferSize k.dev.circBuf)
    .ok (retval, ← mutexUnlock k, fPos)

def seekLoop (buffer : AesdCircularBuffer) (writeCmd : Nat) :
    List AesdBufferEntry → Nat → Int → AesdBufferEntry × Int
  | [], index, byteCount =>
    (buffer.slot ((buffer.outOffs + index) % maxWriteOperationsSupported), byteCount)
  | entry :: rest, index, byteCount =>
    if index = writeCmd then (entry, byteCount)
    else seekLoop buffer writeCmd rest (index + 1) (addSize byteCount entry)

def aesdAdjustFileOffset (k : Kernel) (writeCmd writeCmdOffset : Nat) (fPos : Int)
    (interrupted : Bool) : Except Fault (Int × Kernel × Int) := do
  if maxWriteOperationsSupported ≤ writeCmd then .ok (-einval, k, fPos)
  else
    let (interrupted, k) ← mutexLockInterruptible k interrupted
    if interrupted then .ok (-eintr, k, fPos)
    else
      let (entry, byteCount) := seekLoop k.dev.circBuf writeCmd (foreach k.dev.circBuf) 0 0
      if entry.buffptr = .null ∨ entry.size ≤ writeCmdOffset then
        .ok (-einval, ← mutexUnlock k, fPos)
      else .ok (0, ← mutexUnlock k, loffT (byteCount + writeCmdOffset))

def aesdcharIocseekto : Nat := 3 * 2 ^ 30 + 8 * 2 ^ 16 + 0x16 * 2 ^ 8 + 1

structure IoctlEnv where
  faults : Bool
  interrupted : Bool
  deriving DecidableEq, Repr

structure AesdSeekto where
  writeCmd : Nat
  writeCmdOffset : Nat
  deriving DecidableEq, Repr

def aesdUnlockedIoctl (k : Kernel) (cmd : Nat) (arg : AesdSeekto) (fPos : Int) (env : IoctlEnv) :
    Except Fault (Int × Kernel × Int) :=
  if cmd = aesdcharIocseekto then
    if env.faults then .ok (-efault, k, fPos)
    else aesdAdjustFileOffset k arg.writeCmd arg.writeCmdOffset fPos env.interrupted
  else .ok (-einval, k, fPos)

/-- No allocation reaches 2^63 bytes, so sizes fit `ssize_t`. -/
def kmallocLimit : Nat := 2 ^ 63 - 1

def aesdInitModule : Kernel :=
  ⟨⟨aesdCircularBufferInit, ⟨.null, 0⟩, false⟩, Heap.empty kmallocLimit⟩

def freeEntry (heap : Heap) (entry : AesdBufferEntry) : Except Fault Heap :=
  if entry.buffptr ≠ .null then heap.free entry.buffptr else .ok heap

def aesdCleanupModule (k : Kernel) (interrupted : Bool) : Except Fault Kernel := do
  let (interrupted, k) ← mutexLockInterruptible k interrupted
  if interrupted then .ok k
  else
    let heap ← (foreach k.dev.circBuf).foldlM freeEntry k.heap
    let heap ← freeEntry heap k.dev.partialWrite
    mutexUnlock { k with heap := heap }

structure Device where
  kernel : Kernel
  files : Nat → Option Int

inductive DriverOp
  | openFile (file : Nat)
  | release (file : Nat)
  | write (file : Nat) (buf : List UInt8) (env : WriteEnv)
  | read (file count : Nat) (env : ReadEnv)
  | llseek (file : Nat) (fixedSizeLlseek : FixedSizeLlseek) (offset : Int) (whence : Nat)
      (interrupted : Bool)
  | ioctl (file cmd : Nat) (arg : AesdSeekto) (env : IoctlEnv)

def DriverOp.file : DriverOp → Nat
  | .openFile f | .release f | .write f _ _ | .read f _ _ | .llseek f _ _ _ _ | .ioctl f _ _ _ => f

structure Reply where
  ret : Int
  bytes : List UInt8
  deriving DecidableEq, Repr

def Device.finish (file : Nat) (r : Int × Kernel × Int) (d : Device) : Reply × Device :=
  (⟨r.1, []⟩, ⟨r.2.1, Function.update d.files file (some r.2.2)⟩)

/-- One driver operation as the file system layer makes it: on an open file
only, and with a byte count that fits the return type. -/
def vfsStep (d : Device) : DriverOp → Except Fault (Reply × Device)
  | .openFile file =>
    match d.files file with
    | some _ => .ok (⟨-ebadf, []⟩, d)
    | none => .ok (⟨0, []⟩, { d with files := Function.update d.files file (some 0) })
  | .release file => .ok (⟨0, []⟩, { d with files := Function.update d.files file none })
  | .write file buf env =>
    match d.files file with
    | none => .ok (⟨-ebadf, []⟩, d)
    | some fPos =>
      if 2 ^ 63 ≤ buf.length then .ok (⟨-einval, []⟩, d)
      else do .ok (d.finish file (← aesdWrite d.kernel buf fPos env))
  | .read file count env =>
    match d.files file with
    | none => .ok (⟨-ebadf, []⟩, d)
    | some fPos => do
      let (retval, bytes, k, fPos) ← aesdRead d.kernel count fPos env
      .ok (⟨retval, bytes⟩, ⟨k, Function.update d.files file (some fPos)⟩)
  | .llseek file fixedSizeLlseek offset whence interrupted =>
    match d.files file with
    | none => .ok (⟨-ebadf, []⟩, d)
    | some fPos => do
      .ok (d.finish file
        (← aesdLlseek fixedSizeLlseek d.kernel offset whence fPos interrupted))
  | .ioctl file cmd arg env =>
    match d.files file with
    | none => .ok (⟨-ebadf, []⟩, d)
    | some fPos => do .ok (d.finish file (← aesdUnlockedIoctl d.kernel cmd arg fPos env))

def Device.init : Device := ⟨aesdInitModule, fun _ => none⟩

end Aesd.Driver
