import Aesd.Lib.BlockHeap
import Aesd.Lib.MachineInt
import Aesd.Lib.Sequence

namespace Aesd.CircularBuffer

open Aesd.Lib.BlockHeap Aesd.Lib.MachineInt

abbrev maxWriteOperationsSupported : Nat := 10

structure AesdBufferEntry where
  buffptr : Ptr
  size : Nat
  deriving DecidableEq, Repr

structure AesdCircularBuffer where
  entry : Vector AesdBufferEntry maxWriteOperationsSupported
  inOffs : Nat
  outOffs : Nat
  full : Bool
  deriving DecidableEq, Repr

def unused : AesdBufferEntry := ⟨.null, 0⟩

/-- `buffer->entry[i]`. Every index the code forms is below 10, so the value
outside the array is never read. -/
def AesdCircularBuffer.slot (buffer : AesdCircularBuffer) (i : Nat) : AesdBufferEntry :=
  buffer.entry[i]?.getD unused

def advancePtr (x : Nat) : Nat := (x + 1) % maxWriteOperationsSupported

def aesdCircularBufferInit : AesdCircularBuffer :=
  ⟨Vector.replicate maxWriteOperationsSupported unused, 0, 0, false⟩

def aesdCircularBufferAddEntry (buffer : AesdCircularBuffer) (addEntry : AesdBufferEntry) :
    Ptr × AesdCircularBuffer :=
  let evict := decide (buffer.inOffs = buffer.outOffs) && buffer.full
  let retVal := if evict then (buffer.slot buffer.outOffs).buffptr else .null
  let outOffs := if evict then advancePtr buffer.outOffs else buffer.outOffs
  let entry := buffer.entry.setIfInBounds buffer.inOffs addEntry
  let inOffs := advancePtr buffer.inOffs
  (retVal, ⟨entry, inOffs, outOffs, if inOffs = outOffs then true else buffer.full⟩)

/-- The while loop of the lookup. One unit of fuel is one test of the loop
condition; `none` means that the fuel ran out before the loop ended. -/
def findLoop (buffer : AesdCircularBuffer) : Nat → Nat → Nat → Option (Option (Nat × Nat))
  | 0, _, _ => none
  | fuel + 1, outOffs, charOffset =>
    let size := (buffer.slot outOffs).size
    if size ≤ charOffset then
      let outOffs := advancePtr outOffs
      if outOffs = buffer.inOffs then some none
      else findLoop buffer fuel outOffs (charOffset - size)
    else some (some (outOffs, charOffset))

/-- The index of the entry returned (`none` for NULL) and the final value of
`*entry_offset_byte_rtn`, which holds `rtn` before the call. -/
def aesdCircularBufferFindEntryOffsetForFpos (fuel : Nat) (buffer : AesdCircularBuffer)
    (charOffset rtn : Nat) : Option (Option Nat × Nat) :=
  (findLoop buffer fuel buffer.outOffs charOffset).map fun
    | none => (none, rtn)
    | some (i, off) => (some i, off)

def foreach (buffer : AesdCircularBuffer) : List AesdBufferEntry :=
  (List.range maxWriteOperationsSupported).map fun index =>
    buffer.slot ((buffer.outOffs + index) % maxWriteOperationsSupported)

def addSize (retval : Int) (entry : AesdBufferEntry) : Int :=
  if entry.buffptr ≠ .null then loffT (retval + entry.size) else retval

def aesdCircularBufferSize (buffer : AesdCircularBuffer) : Int :=
  (foreach buffer).foldl addSize 0

def count (buffer : AesdCircularBuffer) : Nat :=
  if buffer.full then maxWriteOperationsSupported
  else (((buffer.inOffs : Int) - buffer.outOffs) % maxWriteOperationsSupported).toNat

def contents (buffer : AesdCircularBuffer) : List AesdBufferEntry :=
  (List.range (count buffer)).map fun i =>
    buffer.slot ((buffer.outOffs + i) % maxWriteOperationsSupported)

end Aesd.CircularBuffer
