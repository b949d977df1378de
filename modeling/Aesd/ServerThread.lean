import Aesd.CString

namespace Aesd.ServerThread

open Aesd.Lib.BlockHeap Aesd.CString
open Aesd.RecordLog (newline)

def sockReadBufSize : Nat := 1000

inductive Request
  | sigmask
  | alloc
  | recv
  | lock
  | unlock
  | openFile
  | write (fd : Nat) (bytes : List UInt8)
  | ioctl (fd writeCmd writeCmdOffset : Nat)
  | read (fd count : Nat)
  | close (fd : Nat)
  | send (bytes : List UInt8)
  | free
  | syslog
  deriving DecidableEq, Repr

/-- `failed` is -1, a nonzero error number or NULL, as the call has it, and
`kept` is a `realloc` that does not move the block. -/
inductive Answer
  | done
  | failed
  | kept
  | fd (n : Nat)
  | count (n : Nat)
  | ret (r : Int)
  | bytes (bs : List UInt8)
  deriving DecidableEq, Repr

inductive WritePc
  | openFile
  | line (fd : Nat)
  | newline (fd : Nat)
  | close (fd : Nat)
  deriving DecidableEq, Repr

inductive SendPc
  | openFile
  | ioctl (fd : Nat)
  | read (fd : Nat)
  | sock (fd bytesRead : Nat)
  | close (fd : Nat)
  deriving DecidableEq, Repr

inductive Flow (π : Type)
  | goto (pc : π)
  | returned (r : Int)
  deriving DecidableEq, Repr

def WritePc.next : WritePc → Answer → Except Fault (Flow WritePc)
  | .openFile, .failed => .ok (.returned (-1))
  | .openFile, .fd fd => .ok (.goto (.line fd))
  | .line _, .failed => .ok (.returned (-1))
  | .line fd, .count _ => .ok (.goto (.newline fd))
  | .newline _, .failed => .ok (.returned (-1))
  | .newline fd, .count _ => .ok (.goto (.close fd))
  | .close _, .failed => .ok (.returned (-1))
  | .close _, .done => .ok (.returned 0)
  | _, _ => .error .disabled

def SendPc.next : SendPc → Answer → Except Fault (Flow SendPc)
  | .openFile, .failed => .ok (.returned (-1))
  | .openFile, .fd fd => .ok (.goto (.ioctl fd))
  | .ioctl fd, .ret _ => .ok (.goto (.read fd))
  | .read _, .failed => .ok (.returned (-1))
  | .read fd, .bytes bs =>
    if sockReadBufSize < bs.length then .error .disabled
    else if bs.length = 0 then .ok (.goto (.close fd)) else .ok (.goto (.sock fd bs.length))
  | .sock _ _, .failed => .ok (.returned (-1))
  | .sock fd bytesRead, .count n =>
    if n = bytesRead then .ok (.goto (.read fd)) else .ok (.returned (-1))
  | .close _, .failed => .ok (.returned (-1))
  | .close _, .done => .ok (.returned 0)
  | _, _ => .error .disabled

theorem WritePc.next_goto {w w' : WritePc} {a : Answer} (h : w.next a = .ok (.goto w')) :
    (∃ fd, w = .openFile ∧ a = .fd fd ∧ w' = .line fd) ∨
      (∃ fd n, w = .line fd ∧ a = .count n ∧ w' = .newline fd) ∨
      ∃ fd n, w = .newline fd ∧ a = .count n ∧ w' = .close fd := by
  cases w <;> cases a <;> cases h
  · exact .inl ⟨_, rfl, rfl, rfl⟩
  · exact .inr (.inl ⟨_, _, rfl, rfl, rfl⟩)
  · exact .inr (.inr ⟨_, _, rfl, rfl, rfl⟩)

theorem WritePc.next_returned {w : WritePc} {a : Answer} {r : Int}
    (h : w.next a = .ok (.returned r)) :
    (a = .failed ∧ r = -1) ∨ ∃ fd, w = .close fd ∧ a = .done ∧ r = 0 := by
  cases w <;> cases a <;> cases h
  · exact .inl ⟨rfl, rfl⟩
  · exact .inl ⟨rfl, rfl⟩
  · exact .inl ⟨rfl, rfl⟩
  · exact .inr ⟨_, rfl, rfl, rfl⟩
  · exact .inl ⟨rfl, rfl⟩

theorem SendPc.next_goto {p p' : SendPc} {a : Answer} (h : p.next a = .ok (.goto p')) :
    (∃ fd, p = .openFile ∧ a = .fd fd ∧ p' = .ioctl fd) ∨
      (∃ fd r, p = .ioctl fd ∧ a = .ret r ∧ p' = .read fd) ∨
      (∃ fd, p = .read fd ∧ a = .bytes [] ∧ p' = .close fd) ∨
      (∃ fd bs, p = .read fd ∧ a = .bytes bs ∧ 0 < bs.length ∧ bs.length ≤ sockReadBufSize ∧
        p' = .sock fd bs.length) ∨
      ∃ fd n, p = .sock fd n ∧ a = .count n ∧ p' = .read fd := by
  cases p with
  | openFile =>
    cases a <;> cases h
    exact .inl ⟨_, rfl, rfl, rfl⟩
  | close fd => cases a <;> cases h
  | ioctl fd =>
    cases a <;> cases h
    exact .inr (.inl ⟨_, _, rfl, rfl, rfl⟩)
  | read fd =>
    cases a with
    | bytes bs =>
      simp only [SendPc.next] at h
      by_cases hbig : sockReadBufSize < bs.length
      · simp [hbig] at h
      · rw [if_neg hbig] at h
        by_cases h0 : bs.length = 0
        · rw [if_pos h0, Except.ok.injEq, Flow.goto.injEq] at h
          exact .inr (.inr (.inl ⟨fd, rfl, by rw [List.length_eq_zero_iff.mp h0], h.symm⟩))
        · rw [if_neg h0, Except.ok.injEq, Flow.goto.injEq] at h
          exact .inr (.inr (.inr (.inl ⟨fd, bs, rfl, rfl, by omega, by omega, h.symm⟩)))
    | done | failed | kept | fd n | count n | ret r => cases h
  | sock fd n =>
    cases a with
    | count m =>
      simp only [SendPc.next] at h
      by_cases hm : m = n
      · simp only [hm, if_true, Except.ok.injEq, Flow.goto.injEq] at h
        exact .inr (.inr (.inr (.inr ⟨fd, n, rfl, by rw [hm], h.symm⟩)))
      · simp [hm] at h
    | done | failed | kept | fd n | bytes bs | ret r => cases h

theorem SendPc.next_returned {p : SendPc} {a : Answer} {r : Int}
    (h : p.next a = .ok (.returned r)) :
    (a = .failed ∧ r = -1) ∨ (∃ fd, p = .close fd ∧ a = .done ∧ r = 0) ∨
      ∃ fd n m, p = .sock fd n ∧ a = .count m ∧ m ≠ n ∧ r = -1 := by
  cases p with
  | openFile =>
    cases a <;> cases h
    exact .inl ⟨rfl, rfl⟩
  | ioctl fd => cases a <;> cases h
  | read fd =>
    cases a with
    | failed =>
      cases h
      exact .inl ⟨rfl, rfl⟩
    | bytes bs =>
      simp only [SendPc.next] at h
      split at h
      · cases h
      · split at h <;> cases h
    | done | kept | fd n | count n | ret r => cases h
  | sock fd n =>
    cases a with
    | failed =>
      cases h
      exact .inl ⟨rfl, rfl⟩
    | count m =>
      simp only [SendPc.next] at h
      split at h
      · cases h
      · next hne =>
        cases h
        exact .inr (.inr ⟨fd, n, m, rfl, rfl, hne, rfl⟩)
    | done | kept | fd n | bytes bs | ret r => cases h
  | close fd =>
    cases a <;> cases h
    · exact .inr (.inl ⟨fd, rfl, rfl, rfl⟩)
    · exact .inl ⟨rfl, rfl⟩

/-- The call a server thread is in. `unlockExit` is the unlock on the way out
after a helper function has failed, `free` and `syslog` are the calls that follow
the end of the connection. -/
inductive Pc
  | sigmask
  | malloc
  | recv
  | grow
  | lock
  | write (size : Nat) (w : WritePc)
  | send (p : SendPc)
  | unlockExit
  | unlock
  | reset
  | free
  | syslog
  | exited
  deriving DecidableEq, Repr

/-- The locals of `server_thread`, its memory, and `client_done` of its record.
`bufCurr` is a block and an offset, `newlinePtr` an offset from `bufStart`. -/
structure Thread where
  pc : Pc
  heap : Heap
  bufStart : Ptr
  bufCurr : Ptr × Nat
  curBufSize : Nat
  newlinePtr : Nat
  writeCmd : Nat
  writeCmdOffset : Nat
  clientDone : Bool

/-- The size of the buffer is counted in an `int`, and the allocator is taken
to refuse before it can overflow. -/
@[irreducible] def reallocLimit : Nat := 2 ^ 31 - 1001

theorem sockReadBufSize_le : sockReadBufSize ≤ reallocLimit := by
  unfold sockReadBufSize reallocLimit
  omega

def intAdd (a b : Nat) : Except Fault Nat :=
  if a + b < 2 ^ 31 then .ok (a + b) else .error .overflow

/-- The two seek coordinates are not initialised: they hold any values. -/
def Thread.init (writeCmd writeCmdOffset : Nat) : Thread :=
  ⟨.sigmask, Heap.empty reallocLimit, .null, (.null, 0), 0, 0, writeCmd, writeCmdOffset, false⟩

def Thread.request (t : Thread) : Except Fault Request :=
  match t.pc with
  | .sigmask => .ok .sigmask
  | .malloc | .grow | .reset => .ok .alloc
  | .recv => do
    -- the whole area handed over has to be inside the buffer
    let _ ← t.heap.loadCells t.bufCurr.1 t.bufCurr.2 sockReadBufSize
    .ok .recv
  | .lock => .ok .lock
  | .write _ .openFile | .send .openFile => .ok .openFile
  | .write size (.line fd) => do .ok (.write fd (← t.heap.load t.bufStart 0 size))
  | .write _ (.newline fd) => do .ok (.write fd (← t.heap.load t.bufStart 0 1))
  | .write _ (.close fd) | .send (.close fd) => .ok (.close fd)
  | .send (.ioctl fd) => .ok (.ioctl fd t.writeCmd t.writeCmdOffset)
  | .send (.read fd) => do
    let _ ← t.heap.loadCells t.bufStart 0 sockReadBufSize
    .ok (.read fd sockReadBufSize)
  | .send (.sock _ bytesRead) => do .ok (.send (← t.heap.load t.bufStart 0 bytesRead))
  | .unlockExit | .unlock => .ok .unlock
  | .free => .ok .free
  | .syslog => .ok .syslog
  | .exited => .error .disabled

def Thread.loop (t : Thread) : Thread := { t with pc := if t.clientDone then .exited else .recv }

def Thread.freeAndExit (t : Thread) : Except Fault Thread := do
  let heap ← t.heap.free t.bufStart
  .ok { t with heap := heap, pc := .exited }

def Thread.malloced (t : Thread) (granted : Bool) : Except Fault Thread :=
  match t.heap.malloc sockReadBufSize granted, granted with
  | (.null, _), true => .error .disabled
  | (.null, _), false => .ok { t with pc := .exited }
  | (p, heap), _ => .ok (Thread.loop
      { t with heap := heap, bufStart := p, bufCurr := (p, 0), curBufSize := sockReadBufSize })

/-- `realloc` to `cur_buf_size` has returned. On failure the result NULL
replaces the pointer to the old block. -/
def Thread.realloced (t : Thread) (granted : Bool) : Except Fault Thread := do
  let (p, heap) ← t.heap.realloc t.bufStart t.curBufSize granted
  match p, granted with
  | .null, true => .error .disabled
  | .null, false => .ok { t with heap := heap, bufStart := .null, pc := .exited }
  | p, _ => .ok (Thread.loop
      { t with heap := heap, bufStart := p, bufCurr := (p, t.curBufSize - sockReadBufSize) })

def Thread.resized (t : Thread) : Except Fault Thread := do
  let heap ← t.heap.resize t.bufStart t.curBufSize
  .ok (Thread.loop
    { t with heap := heap, bufCurr := (t.bufStart, t.curBufSize - sockReadBufSize) })

/-- `recv` has delivered bytes, or none at the end of the connection: then
`client_done` is seen from now on, while the thread still runs. -/
def Thread.received (t : Thread) (bs : List UInt8) : Except Fault Thread := do
  let heap ← t.heap.store t.bufCurr.1 t.bufCurr.2 (bs.map some)
  if bs.length = 0 then .ok { t with heap := heap, clientDone := true, pc := .free }
  else if bs.length = sockReadBufSize then
    let curBufSize ← intAdd t.curBufSize sockReadBufSize
    .ok { t with heap := heap, curBufSize := curBufSize, pc := .grow }
  else
    let heap ← heap.store t.bufCurr.1 (t.bufCurr.2 + bs.length) [some nul]
    let newlinePtr ← strchrnul newline (← heap.cells t.bufStart)
    .ok { t with heap := heap, newlinePtr := newlinePtr, pc := .lock }

def Thread.dispatch (t : Thread) : Except Fault Thread := do
  let cells ← t.heap.cells t.bufStart
  if ← strncmpEqual (iocseektoCmdStr.take iocseektoCmdStrlen) cells then
    let (writeCmd, writeCmdOffset) := sscanfIocseekto (← cString cells)
    .ok { t with
      writeCmd := writeCmd.getD t.writeCmd
      writeCmdOffset := writeCmdOffset.getD t.writeCmdOffset
      pc := .send .openFile }
  else .ok { t with writeCmd := 0, writeCmdOffset := 0, pc := .write t.newlinePtr .openFile }

def Thread.resumeWrite (t : Thread) (size : Nat) (w : WritePc) (a : Answer) :
    Except Fault Thread := do
  match ← w.next a with
  | .goto (.newline fd) =>
    let heap ← t.heap.store t.bufStart 0 [some newline]
    .ok { t with heap := heap, pc := .write size (.newline fd) }
  | .goto w => .ok { t with pc := .write size w }
  | .returned r => .ok { t with pc := if r = 0 then .send .openFile else .unlockExit }

def Thread.resumeSend (t : Thread) (p : SendPc) (a : Answer) : Except Fault Thread := do
  match ← p.next a with
  | .goto (.sock fd bytesRead) =>
    match a with
    | .bytes bs =>
      let heap ← t.heap.store t.bufStart 0 (bs.map some)
      .ok { t with heap := heap, pc := .send (.sock fd bytesRead) }
    | _ => .error .disabled
  | .goto p => .ok { t with pc := .send p }
  | .returned r => .ok { t with pc := if r = 0 then .unlock else .unlockExit }

def Thread.freed (t : Thread) : Except Fault Thread := do
  let heap ← t.heap.free t.bufStart
  .ok { t with heap := heap, pc := .syslog }

def Thread.resume (t : Thread) (a : Answer) : Except Fault Thread :=
  match t.pc, a with
  | .sigmask, .done => .ok { t with pc := .malloc }
  | .sigmask, .failed => .ok { t with pc := .exited }
  | .malloc, .done => t.malloced true
  | .malloc, .failed => t.malloced false
  | .recv, .failed => t.freeAndExit
  | .recv, .bytes bs => if sockReadBufSize < bs.length then .error .disabled else t.received bs
  | .grow, .done | .reset, .done => t.realloced true
  | .grow, .kept | .reset, .kept => t.resized
  | .grow, .failed | .reset, .failed => t.realloced false
  | .lock, .done => t.dispatch
  | .lock, .failed => t.freeAndExit
  | .write size w, a => t.resumeWrite size w a
  | .send p, a => t.resumeSend p a
  | .unlockExit, .done | .unlockExit, .failed => t.freeAndExit
  | .unlock, .done => .ok { t with curBufSize := sockReadBufSize, pc := .reset }
  | .unlock, .failed => t.freeAndExit
  | .free, .done => t.freed
  | .syslog, .done => .ok { t with pc := .exited }
  | _, _ => .error .disabled

/-- The bytes passed to `write_data_to_file`, when the thread is entering it. -/
def Thread.enters (t : Thread) : Except Fault (Option (List UInt8)) :=
  match t.pc with
  | .write size .openFile => do .ok (some (← t.heap.load t.bufStart 0 size))
  | _ => .ok none

end Aesd.ServerThread
