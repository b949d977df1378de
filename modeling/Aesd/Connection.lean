import Aesd.ServerThread

namespace Aesd.Connection

open Aesd.Lib.BlockHeap Aesd.CString Aesd.ServerThread
open Aesd.RecordLog (newline)

/-- What a server thread is doing, in terms of the bytes of messages: what it
has received of the next one, which line it writes, which chunk it sends. -/
inductive Stage
  | starting
  | allocating
  | receiving (acc : List UInt8)
  | growing (acc : List UInt8)
  | locking (msg : List UInt8)
  | writing (line : List UInt8) (w : WritePc)
  | sending (p : SendPc) (chunk : List UInt8)
  | unlocking (failed : Bool)
  | resetting
  | closing (freed : Bool)
  | exited (done leaked : Bool)
  deriving DecidableEq, Repr

/-- One connection without its memory. -/
structure Session where
  stage : Stage
  writeCmd : Nat
  writeCmdOffset : Nat
  deriving DecidableEq, Repr

def Session.init (writeCmd writeCmdOffset : Nat) : Session := ⟨.starting, writeCmd, writeCmdOffset⟩

def Session.request (s : Session) : Except Fault Request :=
  match s.stage with
  | .starting => .ok .sigmask
  | .allocating | .growing _ | .resetting => .ok .alloc
  | .receiving _ => .ok .recv
  | .locking _ => .ok .lock
  | .writing _ .openFile | .sending .openFile _ => .ok .openFile
  | .writing line (.line fd) => .ok (.write fd line)
  | .writing _ (.newline fd) => .ok (.write fd [newline])
  | .writing _ (.close fd) | .sending (.close fd) _ => .ok (.close fd)
  | .sending (.ioctl fd) _ => .ok (.ioctl fd s.writeCmd s.writeCmdOffset)
  | .sending (.read fd) _ => .ok (.read fd sockReadBufSize)
  | .sending (.sock _ _) chunk => .ok (.send chunk)
  | .unlocking _ => .ok .unlock
  | .closing false => .ok .free
  | .closing true => .ok .syslog
  | .exited _ _ => .error .disabled

def Session.goto (s : Session) (stage : Stage) : Session := { s with stage := stage }

def Session.received (s : Session) (acc bs : List UInt8) : Session :=
  if bs.length = 0 then s.goto (.closing false)
  else if bs.length = sockReadBufSize then s.goto (.growing (acc ++ bs))
  else s.goto (.locking (acc ++ bs))

def Session.grown (s : Session) (acc : List UInt8) : Except Fault Session :=
  if acc.length + sockReadBufSize ≤ reallocLimit then .ok (s.goto (.receiving acc))
  else .error .disabled

def Session.dispatch (s : Session) (msg : List UInt8) : Session :=
  if isCommand msg then
    ⟨.sending .openFile [], (seekOf msg).1.getD s.writeCmd, (seekOf msg).2.getD s.writeCmdOffset⟩
  else ⟨.writing (lineOf msg) .openFile, 0, 0⟩

def Session.resumeWrite (s : Session) (line : List UInt8) (w : WritePc) (a : Answer) :
    Except Fault Session := do
  match ← w.next a with
  | .goto w => .ok (s.goto (.writing line w))
  | .returned r => .ok (s.goto (if r = 0 then .sending .openFile [] else .unlocking true))

def Session.resumeSend (s : Session) (p : SendPc) (chunk : List UInt8) (a : Answer) :
    Except Fault Session := do
  match ← p.next a with
  | .goto p => .ok (s.goto (.sending p (match a with | .bytes bs => bs | _ => chunk)))
  | .returned r => .ok (s.goto (if r = 0 then .unlocking false else .unlocking true))

def Session.resume (s : Session) (a : Answer) : Except Fault Session :=
  match s.stage, a with
  | .starting, .done => .ok (s.goto .allocating)
  | .starting, .failed => .ok (s.goto (.exited false false))
  | .allocating, .done => .ok (s.goto (.receiving []))
  | .allocating, .failed => .ok (s.goto (.exited false false))
  | .receiving _, .failed => .ok (s.goto (.exited false false))
  | .receiving acc, .bytes bs =>
    if sockReadBufSize < bs.length then .error .disabled else .ok (s.received acc bs)
  | .growing acc, .done | .growing acc, .kept => s.grown acc
  | .growing _, .failed => .ok (s.goto (.exited false true))
  | .locking msg, .done => .ok (s.dispatch msg)
  | .locking _, .failed => .ok (s.goto (.exited false false))
  | .writing line w, a => s.resumeWrite line w a
  | .sending p chunk, a => s.resumeSend p chunk a
  | .unlocking true, .done | .unlocking true, .failed => .ok (s.goto (.exited false false))
  | .unlocking false, .done => .ok (s.goto .resetting)
  | .unlocking false, .failed => .ok (s.goto (.exited false false))
  | .resetting, .done | .resetting, .kept => .ok (s.goto (.receiving []))
  | .resetting, .failed => .ok (s.goto (.exited false true))
  | .closing false, .done => .ok (s.goto (.closing true))
  | .closing true, .done => .ok (s.goto (.exited true false))
  | _, _ => .error .disabled

def Session.enters (s : Session) : Option (List UInt8) :=
  match s.stage with
  | .writing line .openFile => some line
  | _ => none

structure Buffer (heap : Heap) (p : Ptr) (n : Nat) (bs : List UInt8) : Prop where
  holds : heap.HoldsIn p n bs
  owns : heap.Owns [p]
  limit : heap.limit = reallocLimit
  size_le : n ≤ reallocLimit

def Handling (heap : Heap) (p : Ptr) (bs : List UInt8) : Prop :=
  ∃ n, sockReadBufSize ≤ n ∧ Buffer heap p n bs

def Matches (t : Thread) : Stage → Prop
  | .starting => t.pc = .sigmask ∧ t.heap = Heap.empty reallocLimit
  | .allocating => t.pc = .malloc ∧ t.heap = Heap.empty reallocLimit
  | .receiving acc => t.pc = .recv ∧ t.curBufSize = acc.length + sockReadBufSize ∧
      t.bufCurr = (t.bufStart, acc.length) ∧
      Buffer t.heap t.bufStart (acc.length + sockReadBufSize) acc
  | .growing acc => t.pc = .grow ∧ t.curBufSize = acc.length + sockReadBufSize ∧
      sockReadBufSize ≤ acc.length ∧ Buffer t.heap t.bufStart acc.length acc
  | .locking msg => t.pc = .lock ∧ t.newlinePtr = (lineOf msg).length ∧
      Handling t.heap t.bufStart (msg ++ [nul])
  | .writing line w => t.pc = .write line.length w ∧ Handling t.heap t.bufStart
      (match w with | .openFile | .line _ => line | .newline _ | .close _ => [newline])
  | .sending p chunk => t.pc = .send p ∧
      match p with
      | .sock _ bytesRead => chunk.length = bytesRead ∧ Handling t.heap t.bufStart chunk
      | _ => Handling t.heap t.bufStart []
  | .unlocking failed => t.pc = (if failed then .unlockExit else .unlock) ∧
      Handling t.heap t.bufStart []
  | .resetting => t.pc = .reset ∧ t.curBufSize = sockReadBufSize ∧ Handling t.heap t.bufStart []
  | .closing freed => t.pc = (if freed then .syslog else .free) ∧
      (if freed then ∀ id, t.heap.blocks id = none else t.heap.Owns [t.bufStart])
  | .exited _ leaked => t.pc = .exited ∧ (leaked = false ↔ ∀ id, t.heap.blocks id = none)

/-- `client_done`, which is set before the thread has terminated. -/
def Stage.done : Stage → Bool
  | .closing _ => true
  | .exited done _ => done
  | _ => false

structure Simulates (t : Thread) (s : Session) : Prop where
  writeCmd : t.writeCmd = s.writeCmd
  writeCmdOffset : t.writeCmdOffset = s.writeCmdOffset
  clientDone : t.clientDone = s.stage.done
  memory : Matches t s.stage

theorem simulates_init (writeCmd writeCmdOffset : Nat) :
    Simulates (Thread.init writeCmd writeCmdOffset) (Session.init writeCmd writeCmdOffset) :=
  ⟨rfl, rfl, rfl, rfl, rfl⟩

variable {heap : Heap} {p : Ptr} {bs : List UInt8}

theorem Handling.load (hb : Handling heap p bs) : heap.load p 0 bs.length = .ok bs := by
  obtain ⟨n, _, hb⟩ := hb
  rw [hb.holds.holds.load (by omega), List.drop_zero, List.take_length]

theorem Handling.area (hb : Handling heap p bs) :
    ∃ cs, heap.loadCells p 0 sockReadBufSize = .ok cs := by
  obtain ⟨n, hn, hb⟩ := hb
  exact hb.holds.area (by omega)

theorem Simulates.request {t : Thread} {s : Session} (h : Simulates t s) :
    t.request = s.request := by
  have hm := h.memory
  unfold Thread.request Session.request
  cases hs : s.stage with
  | starting | allocating =>
    rw [hs] at hm
    simp only [hm.1]
  | receiving acc =>
    rw [hs] at hm
    obtain ⟨hpc, _, hcurr, hb⟩ := hm
    obtain ⟨cs, hcs⟩ := hb.holds.area (Nat.le_refl _)
    simp only [hpc, hcurr, hcs, bind, Except.bind]
  | growing acc | locking msg | resetting | exited done leaked =>
    rw [hs] at hm
    simp only [hm.1]
  | unlocking b | closing b =>
    rw [hs] at hm
    cases b <;> simp only [hm.1] <;> rfl
  | writing line w =>
    rw [hs] at hm
    obtain ⟨hpc, hb⟩ := hm
    cases w with
    | openFile | close fd => simp only [hpc]
    | line fd => simp only [hpc, hb.load, bind, Except.bind]
    | newline fd =>
      have hl := hb.load
      simp only [List.length_singleton] at hl
      simp only [hpc, hl, bind, Except.bind]
  | sending p chunk =>
    rw [hs] at hm
    obtain ⟨hpc, hb⟩ := hm
    cases p with
    | openFile | close fd => simp only [hpc]
    | ioctl fd => simp only [hpc, h.writeCmd, h.writeCmdOffset]
    | read fd =>
      obtain ⟨cs, hcs⟩ := Handling.area hb
      simp only [hpc, hcs, bind, Except.bind]
    | sock fd bytesRead =>
      obtain ⟨rfl, hb⟩ := hb
      simp only [hpc, hb.load, bind, Except.bind]

theorem freeAndExit_simulates {t : Thread} {s : Session} (hc : t.writeCmd = s.writeCmd)
    (hco : t.writeCmdOffset = s.writeCmdOffset) (ho : t.heap.Owns [t.bufStart]) :
    ∃ t', t.freeAndExit = .ok t' ∧ Simulates t' (s.goto (.exited t.clientDone false)) := by
  obtain ⟨heap, hfree, ho', _⟩ := ho.free
  refine ⟨{ t with heap := heap, pc := .exited }, ?_, hc, hco, rfl, rfl,
    iff_of_true rfl fun id => ?_⟩
  · simp only [Thread.freeAndExit, hfree, bind, Except.bind]
  · have h := ho'.2 id
    simpa using h

theorem Buffer.not_freed {n : Nat} (hb : Buffer heap p n bs) (hn : 0 < n) :
    ¬ ∀ id, heap.blocks id = none := by
  intro hnone
  obtain ⟨id, cs, _, hlive, _⟩ := hb.holds.block hn
  rw [hnone id] at hlive
  cases hlive

theorem Simulates.receiving {t : Thread} {s : Session} (h : Simulates t s) (acc : List UInt8)
    (hb : Buffer heap p (acc.length + sockReadBufSize) acc) (hd : s.stage.done = false) :
    Simulates (Thread.loop { t with
        heap := heap, bufStart := p, bufCurr := (p, acc.length)
        curBufSize := acc.length + sockReadBufSize })
      (s.goto (.receiving acc)) := by
  have hd' : t.clientDone = false := h.clientDone.trans hd
  refine ⟨h.writeCmd, h.writeCmdOffset, hd', ?_, rfl, rfl, hb⟩
  simp [Thread.loop, hd']

theorem Simulates.malloced {t : Thread} {s : Session} (h : Simulates t s)
    (hh : t.heap = Heap.empty reallocLimit) (hd : s.stage.done = false) (granted : Bool) :
    ∃ t', t.malloced granted = .ok t' ∧ Simulates t'
      (s.goto (if granted then .receiving [] else .exited false false)) := by
  cases granted with
  | false =>
    refine ⟨{ t with pc := .exited }, by simp [Thread.malloced, Heap.malloc], h.writeCmd,
      h.writeCmdOffset, h.clientDone.trans hd, rfl, iff_of_true rfl fun id => ?_⟩
    simp [hh, Heap.empty]
  | true =>
    have hle : sockReadBufSize ≤ t.heap.limit := by
      rw [hh]
      exact sockReadBufSize_le
    have hm : t.heap.malloc sockReadBufSize true = (.block t.heap.next,
        t.heap.insert (List.replicate sockReadBufSize none)) := by
      have hn : ¬ sockReadBufSize = 0 := by decide
      simp only [Heap.malloc, hle, hn, and_self, if_true, if_false]
    have ho := Heap.Owns.malloc (show t.heap.Owns [] by
      rw [hh]; exact ⟨List.nodup_nil, fun id => by simp [Heap.empty]⟩) sockReadBufSize true
    have hc := Heap.malloc_cells hm (by simp)
    rw [hm] at ho
    have hnil : ([] : List UInt8).length + sockReadBufSize = sockReadBufSize := Nat.zero_add _
    refine ⟨_, by simp only [Thread.malloced, hm]; rfl, ?_⟩
    refine h.receiving [] ⟨⟨_, hc, by rw [List.length_replicate, hnil], by simp⟩, ho, ?_, ?_⟩ hd
    · rw [hh]
      rfl
    · rw [hnil]
      exact sockReadBufSize_le

theorem Simulates.realloced {t : Thread} {s : Session} (h : Simulates t s) {n : Nat}
    {acc bs : List UInt8} (hb : Buffer t.heap t.bufStart n bs)
    (hsize : t.curBufSize = acc.length + sockReadBufSize)
    (hacc : bs.take (acc.length + sockReadBufSize) = acc) (hd : s.stage.done = false)
    (hle : acc.length + sockReadBufSize ≤ reallocLimit) :
    ∃ t', t.realloced true = .ok t' ∧ Simulates t' (s.goto (.receiving acc)) := by
  obtain ⟨q, heap, hr, hq, hq', ho, hl⟩ := Heap.realloc_granted hb.owns hb.holds
    (show 0 < acc.length + sockReadBufSize by unfold sockReadBufSize; omega) (hb.limit ▸ hle)
  rw [hacc] at hq'
  refine ⟨_, ?_, h.receiving acc ⟨hq', ho, hl.trans hb.limit, hle⟩ hd⟩
  simp only [Thread.realloced, hsize, hr, bind, Except.bind, Nat.add_sub_cancel]
  cases q with
  | null => exact absurd rfl hq
  | zeroSize | block id => rfl

theorem Simulates.resized {t : Thread} {s : Session} (h : Simulates t s) {n : Nat}
    {acc bs : List UInt8} (hb : Buffer t.heap t.bufStart n bs) (hn : 0 < n)
    (hsize : t.curBufSize = acc.length + sockReadBufSize)
    (hacc : bs.take (acc.length + sockReadBufSize) = acc) (hd : s.stage.done = false)
    (hle : acc.length + sockReadBufSize ≤ reallocLimit) :
    ∃ t', t.resized = .ok t' ∧ Simulates t' (s.goto (.receiving acc)) := by
  obtain ⟨heap, hr, hq, ho, hl⟩ := Heap.resize_granted hb.owns hb.holds hn (hb.limit ▸ hle)
  rw [hacc] at hq
  have hs := h.receiving acc ⟨hq, ho, hl.trans hb.limit, hle⟩ hd
  rw [← hsize] at hs
  refine ⟨_, ?_, hs⟩
  simp only [Thread.resized, hsize, hr, bind, Except.bind, Nat.add_sub_cancel]

theorem Simulates.realloc_failed {t : Thread} {s : Session} (h : Simulates t s) {n : Nat}
    {bs : List UInt8} (hb : Buffer t.heap t.bufStart n bs) (hn : 0 < n)
    (hd : s.stage.done = false) :
    ∃ t', t.realloced false = .ok t' ∧ Simulates t' (s.goto (.exited false true)) := by
  have hr : t.heap.realloc t.bufStart t.curBufSize false = .ok (.null, t.heap) :=
    Heap.realloc_refused hb.holds (by simp)
  refine ⟨{ t with bufStart := .null, pc := .exited }, ?_, h.writeCmd, h.writeCmdOffset,
    h.clientDone.trans hd, rfl, iff_of_false (by simp) (hb.not_freed hn)⟩
  simp only [Thread.realloced, hr, bind, Except.bind]

theorem realloced_over {t : Thread} {n : Nat} {bs : List UInt8}
    (hb : Buffer t.heap t.bufStart n bs) (hle : ¬ t.curBufSize ≤ reallocLimit) :
    t.realloced true = .error .disabled := by
  have hr : t.heap.realloc t.bufStart t.curBufSize true = .ok (.null, t.heap) :=
    Heap.realloc_refused hb.holds (by rw [hb.limit]; exact fun hx => hle hx.2)
  simp only [Thread.realloced, hr, bind, Except.bind]

theorem resized_over {t : Thread} {n : Nat} {bs : List UInt8}
    (hb : Buffer t.heap t.bufStart n bs) (hle : ¬ t.curBufSize ≤ reallocLimit) :
    t.resized = .error .disabled := by
  have hr : t.heap.resize t.bufStart t.curBufSize = .error .disabled :=
    Heap.resize_refused hb.holds (by rwa [hb.limit])
  simp only [Thread.resized, hr, bind, Except.bind]

theorem Simulates.received {t : Thread} {s : Session} (h : Simulates t s) {acc bs : List UInt8}
    (hs : s.stage = .receiving acc) (hbs : bs.length ≤ sockReadBufSize) :
    ∃ t', t.received bs = .ok t' ∧ Simulates t' (s.received acc bs) := by
  have hm := h.memory
  have hd := h.clientDone
  rw [hs] at hm hd
  obtain ⟨hpc, hsize, hcurr, hb⟩ := hm
  have hle := hb.size_le
  obtain ⟨heap, hstore, hh, hlim, hlive⟩ := hb.holds.store (Nat.le_refl acc.length)
    (show acc.length + bs.length ≤ acc.length + sockReadBufSize by omega)
  rw [List.take_length] at hh
  have ho := hb.owns.of_blocks hlive
  unfold Thread.received Session.received
  simp only [hcurr, hstore, bind, Except.bind]
  by_cases h0 : bs.length = 0
  · simp only [h0, if_true]
    exact ⟨_, rfl, h.writeCmd, h.writeCmdOffset, rfl, rfl, ho⟩
  · simp only [h0, if_false]
    by_cases hfull : bs.length = sockReadBufSize
    · have hlt : acc.length + sockReadBufSize + sockReadBufSize < 2 ^ 31 := by
        unfold sockReadBufSize reallocLimit at *
        omega
      have hadd : intAdd t.curBufSize sockReadBufSize =
          .ok ((acc ++ bs).length + sockReadBufSize) := by
        rw [intAdd, hsize, if_pos hlt, List.length_append, hfull]
      simp only [hfull, if_true, hadd]
      have hlen : (acc ++ bs).length = acc.length + sockReadBufSize := by
        rw [List.length_append, hfull]
      refine ⟨_, rfl, h.writeCmd, h.writeCmdOffset, hd, rfl, rfl, by omega, ?_⟩
      exact ⟨by rw [hlen]; exact hh, ho, hlim.trans hb.limit, by omega⟩
    · -- the terminating NUL goes right after the bytes received
      have hroom : (acc ++ bs).length + [nul].length ≤ acc.length + sockReadBufSize := by
        simp only [List.length_append, List.length_singleton]
        omega
      obtain ⟨heap', hstore', hh', hlim', hlive'⟩ := hh.store (Nat.le_refl _) hroom
      rw [List.take_length] at hh'
      obtain ⟨cells, hcells, hn, rest, hrest⟩ := hh'
      have hcells' : cells = (acc ++ bs).map some ++ some nul :: rest := by
        rw [← hrest, List.map_append, List.append_assoc]
        rfl
      have hstr := strchrnul_terminated newline (acc ++ bs) rest
      rw [← hcells'] at hstr
      simp only [hfull, if_false, ← List.length_append]
      rw [show [some nul] = ([nul].map some) from rfl]
      simp only [hstore', hcells, hstr]
      refine ⟨_, rfl, h.writeCmd, h.writeCmdOffset, hd, rfl, rfl, acc.length + sockReadBufSize,
        by omega, ?_⟩
      exact ⟨⟨cells, hcells, hn, rest, hrest⟩, ho.of_blocks hlive',
        hlim'.trans (hlim.trans hb.limit), hle⟩

theorem Handling.shorten {cs : List UInt8} (hb : Handling heap p bs) (hpre : cs <+: bs) :
    Handling heap p cs := by
  obtain ⟨n, hn, hb⟩ := hb
  exact ⟨n, hn, hb.holds.shorten hpre, hb.owns, hb.limit, hb.size_le⟩

theorem Handling.store {new : List UInt8} (hb : Handling heap p bs)
    (hn : new.length ≤ sockReadBufSize) :
    ∃ heap', heap.store p 0 (new.map some) = .ok heap' ∧ Handling heap' p new := by
  obtain ⟨n, hle, hb⟩ := hb
  obtain ⟨heap', hs, hh, hlim, hlive⟩ := hb.holds.store (Nat.zero_le _)
    (show 0 + new.length ≤ n by omega)
  rw [List.take_zero, List.nil_append] at hh
  exact ⟨heap', hs, n, hle, hh, hb.owns.of_blocks hlive, hlim.trans hb.limit, hb.size_le⟩

theorem Simulates.dispatch {t : Thread} {s : Session} (h : Simulates t s) {msg : List UInt8}
    (hs : s.stage = .locking msg) : ∃ t', t.dispatch = .ok t' ∧ Simulates t' (s.dispatch msg) := by
  have hm := h.memory
  have hd := h.clientDone
  rw [hs] at hm hd
  obtain ⟨_, hnl, hb⟩ := hm
  obtain ⟨n, hle, ⟨cells, hc, hlen, rest, hrest⟩, hb'⟩ := id hb
  have hcells : cells = msg.map some ++ some nul :: rest := by
    rw [← hrest, List.map_append, List.append_assoc]
    rfl
  have hcmp := strncmpEqual_terminated (s := iocseektoCmdStr.take iocseektoCmdStrlen) (by decide)
    msg rest
  rw [← hcells] at hcmp
  have hstr := cString_terminated msg rest
  rw [← hcells] at hstr
  unfold Thread.dispatch Session.dispatch
  simp only [hc, bind, Except.bind, hcmp, hstr]
  rw [← isCommand, ← seekOf]
  by_cases hcmd : isCommand msg = true
  · simp only [hcmd, if_true]
    refine ⟨_, rfl, ?_, ?_, hd, rfl, hb.shorten List.nil_prefix⟩
    · simp only [h.writeCmd]
    · simp only [h.writeCmdOffset]
  · simp only [hcmd, Bool.false_eq_true, if_false]
    refine ⟨_, rfl, rfl, rfl, hd, by simp only [hnl], ?_⟩
    exact hb.shorten ((lineOf_isPrefix msg).trans (List.prefix_append _ _))

theorem Simulates.resumeWrite {t : Thread} {s : Session} (h : Simulates t s) {line : List UInt8}
    {w : WritePc} (hs : s.stage = .writing line w) (a : Answer) :
    match s.resumeWrite line w a with
    | .ok s' => ∃ t', t.resumeWrite line.length w a = .ok t' ∧ Simulates t' s'
    | .error e => t.resumeWrite line.length w a = .error e := by
  have hm := h.memory
  have hd := h.clientDone
  rw [hs] at hm hd
  obtain ⟨hpc, hb⟩ := hm
  unfold Thread.resumeWrite Session.resumeWrite
  cases hw : w.next a with
  | error e => rfl
  | ok flow =>
    cases flow with
    | returned r =>
      simp only [bind, Except.bind]
      by_cases hr : r = 0
      · simp only [hr, if_true]
        exact ⟨_, rfl, h.writeCmd, h.writeCmdOffset, hd, rfl, hb.shorten List.nil_prefix⟩
      · simp only [hr, if_false]
        exact ⟨_, rfl, h.writeCmd, h.writeCmdOffset, hd, rfl, hb.shorten List.nil_prefix⟩
    | goto w' =>
      simp only [bind, Except.bind]
      obtain ⟨fd, rfl, _, rfl⟩ | ⟨fd, n, rfl, _, rfl⟩ | ⟨fd, n, rfl, _, rfl⟩ := WritePc.next_goto hw
      · exact ⟨_, rfl, h.writeCmd, h.writeCmdOffset, hd, rfl, hb⟩
      · obtain ⟨heap, hstore, hb'⟩ := hb.store (show [newline].length ≤ sockReadBufSize by decide)
        rw [List.map_singleton] at hstore
        refine ⟨{ t with heap := heap, pc := .write line.length (.newline fd) }, ?_, h.writeCmd,
          h.writeCmdOffset, hd, rfl, hb'⟩
        simp only [hstore]
      · exact ⟨_, rfl, h.writeCmd, h.writeCmdOffset, hd, rfl, hb⟩

theorem sending_handling {t : Thread} {p : SendPc} {chunk : List UInt8}
    (hm : Matches t (.sending p chunk)) : Handling t.heap t.bufStart [] := by
  obtain ⟨_, hb⟩ := hm
  cases p with
  | sock fd n => exact hb.2.shorten List.nil_prefix
  | openFile | ioctl fd | read fd | close fd => exact hb

theorem Simulates.resumeSend {t : Thread} {s : Session} (h : Simulates t s) {p : SendPc}
    {chunk : List UInt8} (hs : s.stage = .sending p chunk) (a : Answer) :
    match s.resumeSend p chunk a with
    | .ok s' => ∃ t', t.resumeSend p a = .ok t' ∧ Simulates t' s'
    | .error e => t.resumeSend p a = .error e := by
  have hm := h.memory
  have hd := h.clientDone
  rw [hs] at hm hd
  have hb := sending_handling hm
  unfold Thread.resumeSend Session.resumeSend
  cases hp : p.next a with
  | error e => rfl
  | ok flow =>
    cases flow with
    | returned r =>
      simp only [bind, Except.bind]
      by_cases hr : r = 0
      · simp only [hr, if_true]
        exact ⟨_, rfl, h.writeCmd, h.writeCmdOffset, hd, rfl, hb⟩
      · simp only [hr, if_false]
        exact ⟨_, rfl, h.writeCmd, h.writeCmdOffset, hd, rfl, hb⟩
    | goto p' =>
      simp only [bind, Except.bind]
      obtain ⟨fd, rfl, rfl, rfl⟩ | ⟨fd, r, rfl, rfl, rfl⟩ | ⟨fd, rfl, rfl, rfl⟩ |
        ⟨fd, bs, rfl, rfl, _, hlen, rfl⟩ | ⟨fd, n, rfl, rfl, rfl⟩ := SendPc.next_goto hp
      · exact ⟨_, rfl, h.writeCmd, h.writeCmdOffset, hd, rfl, hb⟩
      · exact ⟨_, rfl, h.writeCmd, h.writeCmdOffset, hd, rfl, hb⟩
      · exact ⟨_, rfl, h.writeCmd, h.writeCmdOffset, hd, rfl, hb⟩
      · obtain ⟨heap, hstore, hb'⟩ := hb.store hlen
        refine ⟨{ t with heap := heap, pc := .send (.sock fd bs.length) }, ?_, h.writeCmd,
          h.writeCmdOffset, hd, rfl, rfl, hb'⟩
        simp only [hstore]
      · exact ⟨_, rfl, h.writeCmd, h.writeCmdOffset, hd, rfl, hb⟩

theorem grown_simulates {s : Session} {acc : List UInt8} {r : Except Fault Thread}
    (hok : acc.length + sockReadBufSize ≤ reallocLimit →
      ∃ t', r = .ok t' ∧ Simulates t' (s.goto (.receiving acc)))
    (hover : ¬ acc.length + sockReadBufSize ≤ reallocLimit → r = .error .disabled) :
    match s.grown acc with
    | .ok s' => ∃ t', r = .ok t' ∧ Simulates t' s'
    | .error e => r = .error e := by
  by_cases hle : acc.length + sockReadBufSize ≤ reallocLimit
  · rw [Session.grown, if_pos hle]
    exact hok hle
  · rw [Session.grown, if_neg hle]
    exact hover hle

/-- Whatever the answer to its call, the thread goes where its session goes. In
particular it never goes wrong: the only error is an answer that makes no sense. -/
theorem Simulates.resume {t : Thread} {s : Session} (h : Simulates t s) (a : Answer) :
    match s.resume a with
    | .ok s' => ∃ t', t.resume a = .ok t' ∧ Simulates t' s'
    | .error e => t.resume a = .error e := by
  have hm := h.memory
  have hd := h.clientDone
  unfold Thread.resume Session.resume
  cases hs : s.stage with
  | starting =>
    rw [hs] at hm hd
    obtain ⟨hpc, hh⟩ := hm
    simp only [hpc]
    cases a with
    | done => exact ⟨_, rfl, h.writeCmd, h.writeCmdOffset, hd, rfl, hh⟩
    | failed =>
      refine ⟨_, rfl, h.writeCmd, h.writeCmdOffset, hd, rfl, iff_of_true rfl fun id => ?_⟩
      simp [hh, Heap.empty]
    | kept | fd n | count n | ret r | bytes bs => rfl
  | allocating =>
    rw [hs] at hm
    obtain ⟨hpc, hh⟩ := hm
    simp only [hpc]
    cases a with
    | done => exact h.malloced hh (by rw [hs]; rfl) true
    | failed => exact h.malloced hh (by rw [hs]; rfl) false
    | kept | fd n | count n | ret r | bytes bs => rfl
  | receiving acc =>
    rw [hs] at hm hd
    obtain ⟨hpc, hsize, hcurr, hb⟩ := id hm
    simp only [hpc]
    cases a with
    | failed =>
      have hf := freeAndExit_simulates h.writeCmd h.writeCmdOffset hb.owns
      rwa [hd] at hf
    | bytes bs =>
      by_cases hbig : sockReadBufSize < bs.length
      · simp only [hbig, if_true]
      · simp only [hbig, if_false]
        exact h.received hs (by omega)
    | done | kept | fd n | count n | ret r => rfl
  | growing acc =>
    rw [hs] at hm
    obtain ⟨hpc, hsize, hge, hb⟩ := hm
    have hn : 0 < acc.length := by
      unfold sockReadBufSize at hge
      omega
    have hd : s.stage.done = false := by rw [hs]; rfl
    have hacc : acc.take (acc.length + sockReadBufSize) = acc :=
      List.take_of_length_le (Nat.le_add_right _ _)
    simp only [hpc]
    cases a with
    | done =>
      exact grown_simulates (fun hle => h.realloced hb hsize hacc hd hle)
        fun hle => realloced_over hb (by rwa [hsize])
    | kept =>
      exact grown_simulates (fun hle => h.resized hb hn hsize hacc hd hle)
        fun hle => resized_over hb (by rwa [hsize])
    | failed => exact h.realloc_failed hb hn (by rw [hs]; rfl)
    | fd n | count n | ret r | bytes bs => rfl
  | locking msg =>
    rw [hs] at hm hd
    obtain ⟨hpc, _, n, _, hb⟩ := id hm
    simp only [hpc]
    cases a with
    | done => exact h.dispatch hs
    | failed =>
      have hf := freeAndExit_simulates h.writeCmd h.writeCmdOffset hb.owns
      rwa [hd] at hf
    | kept | fd n | count n | ret r | bytes bs => rfl
  | writing line w =>
    have hw := h.resumeWrite hs a
    rw [hs] at hm
    simp only [hm.1]
    exact hw
  | sending p chunk =>
    have hp := h.resumeSend hs a
    rw [hs] at hm
    simp only [hm.1]
    exact hp
  | unlocking failed =>
    rw [hs] at hm hd
    obtain ⟨hpc, hb⟩ := id hm
    have hb' := hb
    obtain ⟨n, _, hown⟩ := hb'
    have hf := freeAndExit_simulates h.writeCmd h.writeCmdOffset hown.owns
    rw [hd] at hf
    cases failed with
    | true =>
      rw [if_pos rfl] at hpc
      simp only [hpc]
      cases a with
      | done | failed => exact hf
      | kept | fd n | count n | ret r | bytes bs => rfl
    | false =>
      rw [if_neg (by simp)] at hpc
      simp only [hpc]
      cases a with
      | done => exact ⟨_, rfl, h.writeCmd, h.writeCmdOffset, hd, rfl, rfl, hb⟩
      | failed => exact hf
      | kept | fd n | count n | ret r | bytes bs => rfl
  | resetting =>
    rw [hs] at hm
    obtain ⟨hpc, hsize, n, hn, hb⟩ := hm
    have hn' : 0 < n := by
      unfold sockReadBufSize at hn
      omega
    have hnil : t.curBufSize = ([] : List UInt8).length + sockReadBufSize := by
      rw [hsize, List.length_nil, Nat.zero_add]
    have hle : ([] : List UInt8).length + sockReadBufSize ≤ reallocLimit := by
      rw [List.length_nil, Nat.zero_add]
      exact sockReadBufSize_le
    simp only [hpc]
    cases a with
    | done => exact h.realloced hb hnil List.take_nil (by rw [hs]; rfl) hle
    | kept => exact h.resized hb hn' hnil List.take_nil (by rw [hs]; rfl) hle
    | failed => exact h.realloc_failed hb hn' (by rw [hs]; rfl)
    | fd n | count n | ret r | bytes bs => rfl
  | closing freed =>
    rw [hs] at hm hd
    obtain ⟨hpc, hb⟩ := hm
    cases freed with
    | false =>
      obtain ⟨heap, hfree, ho, _⟩ := Heap.Owns.free (show t.heap.Owns [t.bufStart] from hb)
      rw [if_neg (by simp)] at hpc
      simp only [hpc]
      cases a with
      | done =>
        refine ⟨{ t with heap := heap, pc := .syslog }, ?_, h.writeCmd, h.writeCmdOffset, hd, rfl,
          fun id => ?_⟩
        · simp only [Thread.freed, hfree, bind, Except.bind]
        · simpa using ho.2 id
      | failed | kept | fd n | count n | ret r | bytes bs => rfl
    | true =>
      rw [if_pos rfl] at hpc
      simp only [hpc]
      cases a with
      | done => exact ⟨_, rfl, h.writeCmd, h.writeCmdOffset, hd, rfl, iff_of_true rfl hb⟩
      | failed | kept | fd n | count n | ret r | bytes bs => rfl
  | exited done leaked =>
    rw [hs] at hm
    simp only [hm.1]

theorem Simulates.enters {t : Thread} {s : Session} (h : Simulates t s) :
    t.enters = .ok s.enters := by
  have hm := h.memory
  unfold Thread.enters Session.enters
  cases hs : s.stage with
  | writing line w =>
    rw [hs] at hm
    obtain ⟨hpc, hb⟩ := hm
    cases w with
    | openFile => simp only [hpc, hb.load, bind, Except.bind]
    | line fd | newline fd | close fd => simp only [hpc]
  | unlocking b | closing b =>
    rw [hs] at hm
    cases b <;> simp only [hm.1] <;> rfl
  | starting | allocating | receiving acc | growing acc | locking msg | sending p chunk
  | resetting | exited done leaked =>
    rw [hs] at hm
    simp only [hm.1]

end Aesd.Connection
