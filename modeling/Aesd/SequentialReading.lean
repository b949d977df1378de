import Aesd.ErrorReturns

namespace Aesd.SequentialReading

open Aesd.Lib.BlockHeap Aesd.Lib.MachineInt Aesd.Lib.Sequence Aesd.Lib.Transition
open Aesd.CircularBuffer Aesd.Lookup Aesd.Driver Aesd.RecordLog Aesd.Refinement Aesd.Ownership
open Aesd.WriteLog Aesd.ErrorReturns

def delivered (f : Nat) (op : DriverOp) (r : Reply) : List UInt8 :=
  if op.file = f then r.bytes else []

def received (f : Nat) (ops : List DriverOp) (replies : List Reply) : List UInt8 :=
  (ops.zip replies).flatMap fun p => delivered f p.1 p.2

@[simp] theorem received_cons (f : Nat) (op : DriverOp) (ops : List DriverOp) (r : Reply)
    (rs : List Reply) : received f (op :: ops) (r :: rs) = delivered f op r ++ received f ops rs :=
  rfl

variable {d d' : Device} {k : Kernel} {l : Log} {f q : Nat} {op : DriverOp} {r : Reply}

theorem position_lt {all bytes : List UInt8} (hfits : all.length < 2 ^ 63) (hq : q < 2 ^ 63)
    (hpre : bytes <+: all.drop q) : q + bytes.length < 2 ^ 63 := by
  have hle := hpre.length_le
  rw [List.length_drop] at hle
  omega

end Aesd.SequentialReading
