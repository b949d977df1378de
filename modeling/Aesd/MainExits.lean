import Aesd.Lib.BlockHeap
import Aesd.Lib.Transition
import Mathlib.Data.List.Perm.Basic

namespace Aesd.MainExits

open Aesd.Lib.BlockHeap Aesd.Lib.Transition

structure Record where
  data : Ptr
  connFd : Nat
  deriving DecidableEq

/-- What the process has: its open descriptors, the memory of `main`, the list
that `getaddrinfo` returns, and the variables of `main`. Once it is daemonized its
descriptors 0, 1 and 2 are `/dev/null`. -/
structure Main where
  descriptors : List Nat
  daemonized : Bool
  heap : Heap
  serverAddr : Bool
  sockFd : Nat
  connFd : Nat
  pServerThreadData : Ptr
  pTimestampThreadData : Ptr
  threadList : List Record

def Main.init (inherited : List Nat) (limit : Nat) : Main :=
  ⟨inherited, false, Heap.empty limit, false, 0, 0, .null, .null, []⟩

/-- The descriptors that are not for sockets: those it has inherited, but for the
first three of a daemon. -/
def Main.others (s : Main) (inherited : List Nat) : List Nat :=
  if s.daemonized then [0, 1, 2].filter (fun fd => fd ≠ s.sockFd) ++ inherited.filter (fun fd => 2 < fd)
  else inherited

def Main.listening (s : Main) : Bool := !(s.daemonized && s.sockFd ≤ 2)

inductive Stop
  | fault (f : Fault)
  | exit (status : Nat) (s : Main)

def exitSuccess : Nat := 0
def exitFailure : Nat := 1

abbrev Step := Except Stop Main

/-- The kernel never gives out a descriptor that is open. -/
def Main.opened (s : Main) (fd : Nat) : Step :=
  if fd ∈ s.descriptors then .error (.fault .disabled)
  else .ok { s with descriptors := fd :: s.descriptors }

def Main.close (s : Main) (fd : Nat) : Main := { s with descriptors := s.descriptors.erase fd }

def Main.free (s : Main) (p : Ptr) : Step :=
  match s.heap.free p with
  | .error f => .error (.fault f)
  | .ok heap => .ok { s with heap := heap }

def exit (status : Nat) (s : Main) : Step := .error (.exit status s)

/-- What comes of a process in `daemon(0, 0)`: it fails, in the process that has
called it or in the child of its `fork`; or the parent ends in it, and the child
goes on. -/
inductive Daemon
  | failed
  | parent
  | child
  deriving DecidableEq

structure StartEnv where
  sigint : Bool
  sigterm : Bool
  socket : Option Nat
  getaddrinfo : Bool
  setsockopt : Bool
  bind : Bool
  listen : Bool
  daemonize : Bool
  daemon : Daemon
  mutexInit : Bool
  malloc : Bool
  pthreadCreate : Bool

def setupSignals (s : Main) (env : StartEnv) : Step :=
  if env.sigint then exit exitFailure s
  else if env.sigterm then exit exitFailure s
  else .ok s

def socketInit (s : Main) (env : StartEnv) : Step :=
  match env.socket with
  | none => exit exitFailure s
  | some fd => do
    let s ← s.opened fd
    if env.getaddrinfo then exit exitFailure (s.close fd)
    else
      let s := { s with serverAddr := true }
      if env.setsockopt then exit exitFailure s
      else
        let s := { s with serverAddr := false }
        if env.bind then exit exitFailure (s.close fd)
        else if env.listen then exit exitFailure (s.close fd)
        else .ok { s with sockFd := fd }

def closeSockFd (s : Main) : Step := exit exitFailure (s.close s.sockFd)

def closeConnFd (s : Main) : Step := closeSockFd (s.close s.connFd)

def freeThreadData (s : Main) : Step := do closeConnFd (← s.free s.pServerThreadData)

def sizeofServerThreadData : Nat := 80
def sizeofTimestampThreadData : Nat := 16

def startTimestampThread (s : Main) (env : StartEnv) : Step :=
  match s.heap.malloc sizeofTimestampThreadData (!env.malloc) with
  | (.null, heap) => closeSockFd { s with heap := heap }
  | (p, heap) =>
    let s := { s with heap := heap, pTimestampThreadData := p }
    if env.pthreadCreate then freeThreadData s else .ok s

/-- The option `-d`. What is open as 0, 1 or 2 is replaced in the child, be it
the socket. -/
def becomeDaemon (s : Main) (env : StartEnv) : Step :=
  if env.daemonize then
    match env.daemon with
    | .failed => closeSockFd s
    | .parent => exit exitSuccess s
    | .child => .ok { s with
        daemonized := true
        descriptors := [0, 1, 2] ++ s.descriptors.filter fun fd => 2 < fd }
  else .ok s

def startUp (useAesdCharDevice : Bool) (env : StartEnv) (s : Main) : Step := do
  let s ← setupSignals s env
  let s ← socketInit s env
  let s ← becomeDaemon s env
  if env.mutexInit then closeSockFd s
  else if useAesdCharDevice then .ok s
  else startTimestampThread s env

inductive Accept
  | accepted (fd : Nat)
  | interrupted
  | failed
  deriving DecidableEq

/-- What one pass of the loop meets: what `accept` brings, what fails, and the
threads whose `client_done` is found set. -/
structure PassEnv where
  accept : Accept
  getnameinfo : Bool
  malloc : Bool
  pthreadCreate : Bool
  clientDone : Ptr → Bool
  pthreadJoin : Bool

/-- What `accept` brings: an error when `sock_fd` is no socket. -/
def Main.accept (s : Main) (env : PassEnv) : Accept :=
  if s.listening then env.accept else .failed

def waitForClientConnection (s : Main) (env : PassEnv) : Step :=
  match s.accept env with
  | .interrupted => exit exitSuccess (s.close s.sockFd)
  | .failed => exit exitFailure (s.close s.sockFd)
  | .accepted fd => do
    let s ← s.opened fd
    if env.getnameinfo then exit exitFailure ((s.close fd).close s.sockFd)
    else .ok { s with connFd := fd }

def reap (s : Main) (env : PassEnv) : Step :=
  match s.threadList.find? fun r => env.clientDone r.data with
  | none => .ok { s with pServerThreadData := .null }
  | some r =>
    let s := { s with pServerThreadData := r.data, threadList := s.threadList.erase r }
    if env.pthreadJoin then freeThreadData s
    else (s.close r.connFd).free r.data

def pass (s : Main) (env : PassEnv) : Step := do
  let s ← waitForClientConnection s env
  match s.heap.malloc sizeofServerThreadData (!env.malloc) with
  | (.null, heap) => closeConnFd { s with heap := heap, pServerThreadData := .null }
  | (p, heap) =>
    let s := { s with heap := heap, pServerThreadData := p }
    if env.pthreadCreate then freeThreadData s
    else reap { s with threadList := ⟨p, s.connFd⟩ :: s.threadList } env

def main (useAesdCharDevice : Bool) (inherited : List Nat) (limit : Nat) (env : StartEnv)
    (passes : List PassEnv) : Step := do
  passes.foldlM pass (← startUp useAesdCharDevice env (Main.init inherited limit))

/-- Between two passes `main` has what it inherited, its socket, and for every
record of the list the block and the connection. -/
structure Serving (daemonize : Bool) (inherited : List Nat) (s : Main) : Prop where
  daemonized : s.daemonized = daemonize
  descriptors : s.descriptors.Perm
    (s.sockFd :: (s.threadList.map Record.connFd ++ s.others inherited))
  nodup : s.descriptors.Nodup
  memory : s.heap.Owns (s.pTimestampThreadData :: s.threadList.map Record.data)
  serverAddr : s.serverAddr = false

structure PassExit (daemonize : Bool) (inherited : List Nat) (env : PassEnv) (code : Nat)
    (s : Main) : Prop where
  status : code = exitSuccess ↔ s.accept env = .interrupted
  daemonized : s.daemonized = daemonize
  untouched : ∀ fd ∈ s.others inherited, fd ∈ s.descriptors
  socket : s.sockFd ∉ s.descriptors
  connections : ∀ r ∈ s.threadList, r.connFd ∈ s.descriptors ∨
    (env.pthreadJoin = true ∧ r.connFd = s.connFd)
  memory : s.heap.Owns (s.pTimestampThreadData :: s.threadList.map Record.data)

/-- A run ends in an exit, or has met an answer the kernel never gives. -/
def Ends (E : Nat → Main → Prop) : Stop → Prop
  | .fault f => f = .disabled
  | .exit status s => E status s

variable {inherited : List Nat} {s : Main}

variable {limit : Nat} {useAesdCharDevice : Bool} {env : StartEnv}

variable {daemonize : Bool}

theorem Serving.mem (hs : Serving daemonize inherited s) (fd : Nat) :
    fd ∈ s.descriptors ↔
      fd = s.sockFd ∨ (∃ r ∈ s.threadList, r.connFd = fd) ∨ fd ∈ s.others inherited := by
  rw [hs.descriptors.mem_iff, List.mem_cons, List.mem_append, List.mem_map]

theorem Serving.sock_fresh (hs : Serving daemonize inherited s) :
    s.sockFd ∉ s.threadList.map Record.connFd ++ s.others inherited :=
  (List.nodup_cons.mp (hs.descriptors.nodup_iff.mp hs.nodup)).1

theorem Serving.leave (hs : Serving daemonize inherited s) {env : PassEnv} {code : Nat} {t : Main}
    (hd : t.descriptors = s.descriptors.erase s.sockFd) (hsock : t.sockFd = s.sockFd)
    (hdaemon : t.daemonized = s.daemonized) (hl : t.threadList = s.threadList)
    (hm : t.heap.Owns (t.pTimestampThreadData :: t.threadList.map Record.data))
    (hstatus : code = exitSuccess ↔ s.accept env = .interrupted) :
    PassExit daemonize inherited env code t where
  status := by
    rw [hstatus, Main.accept, Main.accept, Main.listening, Main.listening, hsock, hdaemon]
  daemonized := hdaemon.trans hs.daemonized
  untouched fd hfd := by
    rw [Main.others, hdaemon, hsock] at hfd
    have hne : fd ≠ s.sockFd := by
      rintro rfl
      exact hs.sock_fresh (List.mem_append_right _ hfd)
    rw [hd, List.mem_erase_of_ne hne, hs.mem]
    exact .inr (.inr hfd)
  socket := by
    rw [hd, hsock]
    exact hs.nodup.not_mem_erase
  connections r hr := by
    rw [hl] at hr
    have hne : r.connFd ≠ s.sockFd := by
      intro h
      exact hs.sock_fresh (List.mem_append_left _ (h ▸ List.mem_map_of_mem hr))
    rw [hd, List.mem_erase_of_ne hne, hs.mem]
    exact .inl (.inr (.inl ⟨r, hr, rfl⟩))
  memory := hm

end Aesd.MainExits
