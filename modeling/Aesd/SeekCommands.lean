import Aesd.ReceiveBuffer

namespace Aesd.SeekCommands

open Aesd.Lib.BlockHeap Aesd.Lib.Transition Aesd.CString Aesd.ServerThread Aesd.Connection
open Aesd.Rules Aesd.Framing Aesd.ReceiveBuffer
open Aesd.RecordLog (newline)

def coordinates (msg : List UInt8) : Option (Nat × Nat) :=
  match seekOf msg with
  | (some writeCmd, some writeCmdOffset) => some (writeCmd, writeCmdOffset)
  | _ => none

/-- What a message is to make the server write: nothing, or its line and a
newline. -/
def expected (msg : List UInt8) : List (List UInt8) :=
  if (coordinates msg).isSome then [] else [lineOf msg, [newline]]

def Call.writes (call : Call) : Option (List UInt8) :=
  match call.req with
  | .write _ bytes => some bytes
  | _ => none

def writes (calls : List Call) : List (List UInt8) := calls.filterMap Call.writes

/-- The calls made for a message write what they are to write, all of it when
the reply is sent, and the reply is sent from the coordinates of the message, or
else from the start. -/
def Meets (msg : List UInt8) (calls : List Call) (t : Thread) : Prop :=
  writes calls <+: expected msg ∧
    ∀ p, t.pc = .send p → writes calls = expected msg ∧
      (t.writeCmd, t.writeCmdOffset) = (coordinates msg).getD (0, 0)

theorem coordinates_eq_some {msg : List UInt8} {writeCmd writeCmdOffset : Nat} :
    coordinates msg = some (writeCmd, writeCmdOffset) ↔
      seekOf msg = (some writeCmd, some writeCmdOffset) := by
  rw [coordinates]
  obtain ⟨x, y⟩ := seekOf msg
  cases x <;> cases y <;> simp

variable {msg : List UInt8} {calls : List Call} {call : Call} {u u' : Session} {a : Answer}

end Aesd.SeekCommands
