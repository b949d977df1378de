import Aesd.Aesdsocket
import Aesd.TimestampThread

namespace Aesd.DataFile

open Aesd.Lib.BlockHeap Aesd.ServerThread Aesd.TimestampThread

def enotty : Int := 25

/-- `/var/tmp/aesdsocketdata`, and the positions of the files that are open on it. -/
structure Disk where
  file : Option (List UInt8)
  files : Nat → Option Nat

def Disk.content (d : Disk) : List UInt8 := d.file.getD []

inductive Env
  | plain (fails : Bool)
  | kept
  | opened (fd : Option Nat)
  | received (bs : Option (List UInt8))
  | sought
  | moved (fails : Bool) (short : Nat)
  deriving DecidableEq, Repr

/-- The calls on the file. It is opened with `O_CREAT | O_APPEND | O_RDWR`; a
write or a read may be short, but a read that is not at the end brings a byte. -/
def serveFile (d : Disk) : Request → Env → Except Fault (Answer × Disk)
  | .openFile, .opened none => .ok (.failed, d)
  | .openFile, .opened (some fd) =>
    match d.files fd with
    | some _ => .error .disabled
    | none => .ok (.fd fd, ⟨some d.content, Function.update d.files fd (some 0)⟩)
  | .write fd bytes, .moved fails short =>
    if fails ∨ d.files fd = none then .ok (.failed, d)
    -- nothing to append does not even move to the end
    else if bytes = [] then .ok (.count 0, d)
    else
      let n := bytes.length - min short bytes.length
      let file := d.content ++ bytes.take n
      .ok (.count n, ⟨some file, Function.update d.files fd (some file.length)⟩)
  -- a regular file does not know the command
  | .ioctl _ _ _, .sought => .ok (.ret (-enotty), d)
  | .read fd count, .moved fails short =>
    match d.files fd with
    | none => .ok (.failed, d)
    | some pos =>
      if fails then .ok (.failed, d)
      else
        let rest := (d.content.drop pos).take count
        let bytes := rest.take (max 1 (rest.length - short))
        .ok (.bytes bytes, ⟨d.file, Function.update d.files fd (some (pos + bytes.length))⟩)
  | .close fd, .plain fails =>
    .ok (if fails then .failed else .done, ⟨d.file, Function.update d.files fd none⟩)
  | _, _ => .error .disabled

structure Shared where
  disk : Disk
  fileMutex : Option Nat

def serve (s : Shared) (i : Nat) : Request → Env → Except Fault (Answer × Shared)
  | .sigmask, .plain fails | .alloc, .plain fails => .ok (if fails then .failed else .done, s)
  | .free, .plain false | .syslog, .plain false => .ok (.done, s)
  | .alloc, .kept => .ok (.kept, s)
  | .recv, .received none => .ok (.failed, s)
  | .recv, .received (some bs) => .ok (.bytes bs, s)
  | .lock, .plain true => .ok (.failed, s)
  | .lock, .plain false =>
    match s.fileMutex with
    | none => .ok (.done, { s with fileMutex := some i })
    | some _ => .error .disabled
  | .unlock, .plain true => .ok (.failed, s)
  | .unlock, .plain false =>
    if s.fileMutex = some i then .ok (.done, { s with fileMutex := none }) else .error .notLocked
  | .send _, .moved true _ => .ok (.failed, s)
  | .send bytes, .moved false short =>
    .ok (.count (bytes.length - min short bytes.length), s)
  | req, env => do
    let (a, d) ← serveFile s.disk req env
    .ok (a, { s with disk := d })

/-- The program without `USE_AESD_CHAR_DEVICE`: thread 0 is the timestamp thread,
and the others serve the connections in the order of their arrival. -/
structure Server where
  shared : Shared
  ticker : Ticker
  threads : List Thread

/-- `main` has unlinked the file of an earlier run. -/
def Server.init : Server := ⟨⟨⟨none, fun _ => none⟩, none⟩, Ticker.init, []⟩

inductive Event
  | created (i : Nat)
  | call (i : Nat) (req : Request) (a : Answer)
  | clock (tm : Option Tm)
  | slept
  deriving DecidableEq, Repr

inductive Label
  | accept (writeCmd writeCmdOffset : Nat)
  | thread (i : Nat) (env : Env)
  | tick (env : Env)
  | clock (tm : Option Tm)
  | sleep
  deriving DecidableEq, Repr

def Server.step (s : Server) : Label → Except Fault (Event × Server)
  | .accept writeCmd writeCmdOffset => .ok (.created (s.threads.length + 1),
      { s with threads := s.threads ++ [Thread.init writeCmd writeCmdOffset] })
  | .thread i env =>
    match s.threads[i]? with
    | none => .error .disabled
    | some t => do
      let req ← t.request
      let (a, shared) ← serve s.shared (i + 1) req env
      let t ← t.resume a
      .ok (.call (i + 1) req a, { s with shared := shared, threads := s.threads.set i t })
  | .tick env => do
    let req ← s.ticker.request
    let (a, shared) ← serve s.shared 0 req env
    let t ← s.ticker.resume a
    .ok (.call 0 req a, { s with shared := shared, ticker := t })
  | .clock tm => do .ok (.clock tm, { s with ticker := ← s.ticker.clocked tm })
  | .sleep => do .ok (.slept, { s with ticker := ← s.ticker.slept })

end Aesd.DataFile
