import Aesd.Driver
import Aesd.Failures
import Mathlib.Data.List.Forall2

namespace Aesd.Aesdsocket

open Aesd.Lib.BlockHeap Aesd.Lib.Transition Aesd.Driver Aesd.ServerThread Aesd.Connection
open Aesd.Failures

inductive Env
  | plain (fails : Bool)
  | kept
  | opened (fd : Option Nat)
  | received (bs : Option (List UInt8))
  | wrote (env : WriteEnv)
  | fetched (env : ReadEnv)
  | sought (env : IoctlEnv)
  | sent (fails : Bool) (short : Nat)
  deriving DecidableEq, Repr

structure Shared where
  device : Device
  fileMutex : Option Nat

def serveDriver (d : Device) : Request → Env → Except Fault (Answer × Device)
  | .openFile, .opened none => .ok (.failed, d)
  | .openFile, .opened (some fd) => do
    let (r, d) ← vfsStep d (.openFile fd)
    if r.ret < 0 then .error .disabled else .ok (.fd fd, d)
  | .write fd bytes, .wrote env => do
    let (r, d) ← vfsStep d (.write fd bytes env)
    .ok (if r.ret < 0 then .failed else .count r.ret.toNat, d)
  | .ioctl fd writeCmd writeCmdOffset, .sought env => do
    let (r, d) ← vfsStep d (.ioctl fd aesdcharIocseekto ⟨writeCmd, writeCmdOffset⟩ env)
    .ok (.ret r.ret, d)
  | .read fd count, .fetched env => do
    let (r, d) ← vfsStep d (.read fd count env)
    .ok (if r.ret < 0 then .failed else .bytes r.bytes, d)
  | .close fd, .plain fails => do
    let (_, d) ← vfsStep d (.release fd)
    .ok (if fails then .failed else .done, d)
  | _, _ => .error .disabled

/-- One call of thread `i`. Locking waits until the mutex is free. -/
def serve (s : Shared) (i : Nat) : Request → Env → Except Fault (Answer × Shared)
  | .sigmask, .plain fails | .alloc, .plain fails => .ok (if fails then .failed else .done, s)
  | .free, .plain false | .syslog, .plain false => .ok (.done, s)
  | .alloc, .kept => .ok (.kept, s)
  | .recv, .received none => .ok (.failed, s)
  | .recv, .received (some bs) => .ok (.bytes bs, s)
  | .lock, .plain true => .ok (.failed, s)
  | .lock, .plain false =>
    match s.fileMutex with
    | none => .ok (.done, { s with fileMutex := some i })
    | some _ => .error .disabled
  | .unlock, .plain true => .ok (.failed, s)
  | .unlock, .plain false =>
    if s.fileMutex = some i then .ok (.done, { s with fileMutex := none }) else .error .notLocked
  | .send _, .sent true _ => .ok (.failed, s)
  | .send bytes, .sent false short => .ok (.count (bytes.length - min short bytes.length), s)
  | req, env => do
    let (a, d) ← serveDriver s.device req env
    .ok (a, { s with device := d })

structure Process (P : Type) where
  init : Nat → Nat → P
  request : P → Except Fault Request
  resume : P → Answer → Except Fault P
  clientDone : P → Bool
  terminated : P → Bool

def threadProcess : Process Thread where
  init := Thread.init
  request := Thread.request
  resume := Thread.resume
  clientDone t := t.clientDone
  terminated t := t.pc = .exited

inductive MainPc
  | accept
  | insert (i : Nat)
  | scan (rest : List Nat)
  | check (found : Option Nat)
  | join (i : Nat)
  | close (i : Nat)
  | free (i : Nat)
  deriving DecidableEq, Repr

/-- Threads and their records are numbered in the order of creation.
`threadList` is `thread_list_head`, first element first. -/
structure Server (P : Type) where
  shared : Shared
  threads : List P
  main : MainPc
  threadList : List Nat

inductive Event
  | call (thread : Nat) (req : Request) (a : Answer)
  | created (i : Nat)
  | inserted (i : Nat)
  | examined (i : Nat) (done : Bool)
  | scanned
  | passed
  | removed (i : Nat)
  | joined (i : Nat)
  | closed (i : Nat)
  | freed (i : Nat)
  deriving DecidableEq, Repr

def Event.failing : Event → Bool
  | .call _ req a => fails req a
  | _ => false

/-- Who moves, and what the move meets. A new thread starts with whatever its
uninitialised variables hold. -/
inductive Label
  | main (writeCmd writeCmdOffset : Nat)
  | thread (i : Nat) (env : Env)
  deriving DecidableEq, Repr

variable {P : Type}

def Server.clientDone (proc : Process P) (s : Server P) (i : Nat) : Bool :=
  (s.threads[i]?.map proc.clientDone).getD false

def Server.terminated (proc : Process P) (s : Server P) (i : Nat) : Bool :=
  (s.threads[i]?.map proc.terminated).getD false

def Server.running (proc : Process P) (s : Server P) : Nat :=
  ((List.range s.threads.length).filter fun i => !s.terminated proc i).length

/-- One step of the loop: accepting creates a thread, and the scan looks at one
record at a time while the threads run on. -/
def Server.mainStep (proc : Process P) (s : Server P) (writeCmd writeCmdOffset : Nat) :
    Except Fault (Event × Server P) :=
  match s.main with
  | .accept => .ok (.created s.threads.length, { s with
      threads := s.threads ++ [proc.init writeCmd writeCmdOffset]
      main := .insert s.threads.length })
  | .insert i => .ok (.inserted i, { s with
      threadList := i :: s.threadList
      main := .scan (i :: s.threadList) })
  | .scan [] => .ok (.scanned, { s with main := .check none })
  | .scan (i :: rest) => .ok (.examined i (s.clientDone proc i), { s with
      main := if s.clientDone proc i then .check (some i) else .scan rest })
  | .check none => .ok (.passed, { s with main := .accept })
  | .check (some i) =>
    if s.clientDone proc i then
      .ok (.removed i, { s with threadList := s.threadList.erase i, main := .join i })
    else .ok (.passed, { s with main := .accept })
  | .join i =>
    if s.terminated proc i then .ok (.joined i, { s with main := .close i }) else .error .disabled
  | .close i => .ok (.closed i, { s with main := .free i })
  | .free i => .ok (.freed i, { s with main := .accept })

def Server.step (proc : Process P) (s : Server P) : Label → Except Fault (Event × Server P)
  | .main writeCmd writeCmdOffset => s.mainStep proc writeCmd writeCmdOffset
  | .thread i env =>
    match s.threads[i]? with
    | none => .error .disabled
    | some t => do
      let req ← proc.request t
      let (a, shared) ← serve s.shared i req env
      let t ← proc.resume t a
      .ok (.call i req a, { s with shared := shared, threads := s.threads.set i t })

theorem thread_step {proc : Process P} {s s' : Server P} {i : Nat} {env : Env} {e : Event}
    (h : s.step proc (.thread i env) = .ok (e, s')) :
    ∃ t req a shared t', s.threads[i]? = some t ∧ proc.request t = .ok req ∧
      serve s.shared i req env = .ok (a, shared) ∧ proc.resume t a = .ok t' ∧
      e = .call i req a ∧ s' = { s with shared := shared, threads := s.threads.set i t' } := by
  rw [Server.step] at h
  cases ht : s.threads[i]? with
  | none => simp [ht] at h
  | some t =>
    cases hreq : proc.request t with
    | error f => simp [ht, hreq, bind, Except.bind] at h
    | ok req =>
      cases hserve : serve s.shared i req env with
      | error f => simp [ht, hreq, hserve, bind, Except.bind] at h
      | ok p =>
        obtain ⟨a, shared⟩ := p
        cases hres : proc.resume t a with
        | error f => simp [ht, hreq, hserve, hres, bind, Except.bind] at h
        | ok t' =>
          simp only [ht, hreq, hserve, hres, bind, Except.bind, Except.ok.injEq,
            Prod.mk.injEq] at h
          exact ⟨t, req, a, shared, t', rfl, hreq, hserve, hres, h.1.symm, h.2.symm⟩

theorem main_step {proc : Process P} {s s' : Server P} {c o : Nat} {e : Event}
    (h : s.mainStep proc c o = .ok (e, s')) :
    s'.shared = s.shared ∧ (s'.threads = s.threads ∨ s'.threads = s.threads ++ [proc.init c o]) ∧
      ∀ i req a, e ≠ .call i req a := by
  unfold Server.mainStep at h
  cases hm : s.main with
  | accept =>
    simp only [hm, Except.ok.injEq, Prod.mk.injEq] at h
    obtain ⟨rfl, rfl⟩ := h
    exact ⟨rfl, .inr rfl, by simp⟩
  | insert i | close i | free i =>
    simp only [hm, Except.ok.injEq, Prod.mk.injEq] at h
    obtain ⟨rfl, rfl⟩ := h
    exact ⟨rfl, .inl rfl, by simp⟩
  | scan rest =>
    cases rest <;>
    · simp only [hm, Except.ok.injEq, Prod.mk.injEq] at h
      obtain ⟨rfl, rfl⟩ := h
      exact ⟨rfl, .inl rfl, by simp⟩
  | check found =>
    cases found with
    | none =>
      simp only [hm, Except.ok.injEq, Prod.mk.injEq] at h
      obtain ⟨rfl, rfl⟩ := h
      exact ⟨rfl, .inl rfl, by simp⟩
    | some i =>
      simp only [hm] at h
      split at h <;>
      · simp only [Except.ok.injEq, Prod.mk.injEq] at h
        obtain ⟨rfl, rfl⟩ := h
        exact ⟨rfl, .inl rfl, by simp⟩
  | join i =>
    simp only [hm] at h
    split at h
    · simp only [Except.ok.injEq, Prod.mk.injEq] at h
      obtain ⟨rfl, rfl⟩ := h
      exact ⟨rfl, .inl rfl, by simp⟩
    · cases h

def Server.init : Server P := ⟨⟨Device.init, none⟩, [], .accept, []⟩

def sessionProcess : Process Session where
  init := Session.init
  request := Session.request
  resume := Session.resume
  clientDone s := s.stage.done
  terminated s := match s.stage with | .exited _ _ => true | _ => false

structure Agrees (s : Server Thread) (q : Server Session) : Prop where
  shared : s.shared = q.shared
  main : s.main = q.main
  threadList : s.threadList = q.threadList
  threads : List.Forall₂ Simulates s.threads q.threads

theorem agrees_init : Agrees Server.init Server.init := ⟨rfl, rfl, rfl, .nil⟩

theorem Simulates.terminated {t : Thread} {s : Session} (h : Simulates t s) :
    threadProcess.terminated t = sessionProcess.terminated s := by
  have hm := h.memory
  simp only [threadProcess, sessionProcess]
  cases hs : s.stage with
  | unlocking b | closing b =>
    rw [hs] at hm
    cases b <;> simp [hm.1]
  | starting | allocating | receiving acc | growing acc | locking msg | writing line w
  | sending p chunk | resetting | exited done leaked =>
    rw [hs] at hm
    simp [hm.1]

theorem forall₂_getElem? {α β : Type} {R : α → β → Prop} {xs : List α} {ys : List β}
    (h : List.Forall₂ R xs ys) (i : Nat) :
    (xs[i]? = none ∧ ys[i]? = none) ∨ ∃ x y, xs[i]? = some x ∧ ys[i]? = some y ∧ R x y := by
  induction h generalizing i with
  | nil => exact .inl ⟨rfl, rfl⟩
  | cons hxy _ ih =>
    cases i with
    | zero => exact .inr ⟨_, _, rfl, rfl, hxy⟩
    | succ i => exact ih i

theorem forall₂_set {α β : Type} {R : α → β → Prop} {xs : List α} {ys : List β}
    (h : List.Forall₂ R xs ys) {x : α} {y : β} (hxy : R x y) (i : Nat) :
    List.Forall₂ R (xs.set i x) (ys.set i y) := by
  induction h generalizing i with
  | nil => exact .nil
  | cons hd htl ih =>
    cases i with
    | zero => exact .cons hxy htl
    | succ i => exact .cons hd (ih i)

theorem Agrees.clientDone {s : Server Thread} {q : Server Session} (h : Agrees s q) (i : Nat) :
    s.clientDone threadProcess i = q.clientDone sessionProcess i := by
  unfold Server.clientDone
  obtain ⟨hs, hq⟩ | ⟨t, u, hs, hq, htu⟩ := forall₂_getElem? h.threads i
  · rw [hs, hq]
    rfl
  · rw [hs, hq]
    exact htu.clientDone

theorem Agrees.terminated {s : Server Thread} {q : Server Session} (h : Agrees s q) (i : Nat) :
    s.terminated threadProcess i = q.terminated sessionProcess i := by
  unfold Server.terminated
  obtain ⟨hs, hq⟩ | ⟨t, u, hs, hq, htu⟩ := forall₂_getElem? h.threads i
  · rw [hs, hq]
    rfl
  · rw [hs, hq]
    exact Simulates.terminated htu

theorem Agrees.running {s : Server Thread} {q : Server Session} (h : Agrees s q) :
    s.running threadProcess = q.running sessionProcess := by
  unfold Server.running
  rw [h.threads.length_eq]
  congr 2
  funext i
  rw [h.terminated]

theorem agrees_main {s : Server Thread} {q : Server Session} (h : Agrees s q)
    (writeCmd writeCmdOffset : Nat) :
    Refines Agrees (s.mainStep threadProcess writeCmd writeCmdOffset)
      (q.mainStep sessionProcess writeCmd writeCmdOffset) := by
  have hlen : s.threads.length = q.threads.length := h.threads.length_eq
  have hm := h.main
  unfold Server.mainStep
  cases hq : q.main with
  | accept =>
    rw [hq] at hm
    simp only [hm, hlen]
    refine ⟨_, rfl, h.shared, rfl, h.threadList, ?_⟩
    exact List.rel_append h.threads (.cons (simulates_init _ _) .nil)
  | insert i =>
    rw [hq] at hm
    simp only [hm, h.threadList]
    exact ⟨_, rfl, h.shared, rfl, rfl, h.threads⟩
  | scan rest =>
    rw [hq] at hm
    cases rest with
    | nil =>
      simp only [hm]
      exact ⟨_, rfl, h.shared, rfl, h.threadList, h.threads⟩
    | cons i rest =>
      simp only [hm, h.clientDone]
      exact ⟨_, rfl, h.shared, rfl, h.threadList, h.threads⟩
  | check found =>
    rw [hq] at hm
    cases found with
    | none =>
      simp only [hm]
      exact ⟨_, rfl, h.shared, rfl, h.threadList, h.threads⟩
    | some i =>
      simp only [hm, h.clientDone, h.threadList]
      by_cases hd : q.clientDone sessionProcess i = true
      · simp only [hd, if_true]
        exact ⟨_, rfl, h.shared, rfl, rfl, h.threads⟩
      · simp only [hd, Bool.false_eq_true, if_false]
        exact ⟨_, rfl, h.shared, rfl, rfl, h.threads⟩
  | join i =>
    rw [hq] at hm
    simp only [hm, h.terminated]
    by_cases hd : q.terminated sessionProcess i = true
    · simp only [hd, if_true]
      exact ⟨_, rfl, h.shared, rfl, h.threadList, h.threads⟩
    · simp only [hd, Bool.false_eq_true, if_false, Refines]
  | close i | free i =>
    rw [hq] at hm
    simp only [hm]
    exact ⟨_, rfl, h.shared, rfl, h.threadList, h.threads⟩

theorem agrees_step {s : Server Thread} {q : Server Session} (h : Agrees s q) (a : Label) :
    Refines Agrees (s.step threadProcess a) (q.step sessionProcess a) := by
  cases a with
  | main writeCmd writeCmdOffset => exact agrees_main h writeCmd writeCmdOffset
  | thread i env =>
    obtain ⟨hs, hq⟩ | ⟨t, u, hs, hq, htu⟩ := forall₂_getElem? h.threads i
    · simp only [Server.step, hs, hq, Refines]
    · have hreq : threadProcess.request t = sessionProcess.request u := htu.request
      simp only [Server.step, hs, hq, hreq, h.shared, bind, Except.bind]
      cases sessionProcess.request u with
      | error e => rfl
      | ok req =>
        dsimp only
        cases serve q.shared i req env with
        | error e => rfl
        | ok p =>
          have hres := htu.resume p.1
          simp only [threadProcess, sessionProcess]
          cases hu : u.resume p.1 with
          | error e =>
            rw [hu] at hres
            simp only [hres, Refines]
          | ok u' =>
            rw [hu] at hres
            obtain ⟨t', ht, htu'⟩ := hres
            simp only [ht]
            exact ⟨_, rfl, rfl, h.main, h.threadList, forall₂_set h.threads htu' i⟩

theorem run_agrees {labels : List Label} {events : List Event} {s : Server Thread}
    (hx : exec (Server.step threadProcess) Server.init labels = .ok (events, s)) :
    ∃ q, exec (Server.step sessionProcess) Server.init labels = .ok (events, q) ∧ Agrees s q := by
  exact (exec_refines (fun _ _ a h => agrees_step h a) agrees_init labels).of_ok hx

theorem run_of_sessions {labels : List Label} {events : List Event} {q : Server Session}
    (hx : exec (Server.step sessionProcess) Server.init labels = .ok (events, q)) :
    ∃ s, exec (Server.step threadProcess) Server.init labels = .ok (events, s) ∧ Agrees s q := by
  have h := exec_refines (fun _ _ a h => agrees_step h a) agrees_init labels
  rw [hx] at h
  exact h

end Aesd.Aesdsocket
