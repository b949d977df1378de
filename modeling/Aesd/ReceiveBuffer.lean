import Aesd.Framing

namespace Aesd.ReceiveBuffer

open Aesd.Lib.BlockHeap Aesd.Lib.Sequence Aesd.Lib.Transition Aesd.CString Aesd.ServerThread
open Aesd.Connection Aesd.Rules Aesd.Framing
open Aesd.RecordLog (newline)

variable {u u' : Session} {a : Answer} {call : Call} {calls : List Call}
variable {segs : List (List UInt8)}

theorem WritePc.next_error {w : WritePc} {e : Fault} (h : w.next a = .error e) : e = .disabled := by
  cases w <;> cases a <;> cases h <;> rfl

theorem SendPc.next_error {p : SendPc} {e : Fault} (h : p.next a = .error e) : e = .disabled := by
  unfold SendPc.next at h
  split at h
  any_goals cases h
  · split at h
    · cases h
      rfl
    · split at h <;> cases h
  · split at h <;> cases h
  · rfl

theorem resumeWrite_error {line : List UInt8} {w : WritePc} {e : Fault}
    (h : u.resumeWrite line w a = .error e) : e = .disabled := by
  unfold Session.resumeWrite at h
  cases hw : w.next a with
  | error e' =>
    simp only [hw, bind, Except.bind, Except.error.injEq] at h
    exact h ▸ WritePc.next_error hw
  | ok flow => cases flow <;> simp [hw, bind, Except.bind] at h

theorem resumeSend_error {p : SendPc} {chunk : List UInt8} {e : Fault}
    (h : u.resumeSend p chunk a = .error e) : e = .disabled := by
  unfold Session.resumeSend at h
  cases hp : p.next a with
  | error e' =>
    simp only [hp, bind, Except.bind, Except.error.injEq] at h
    exact h ▸ SendPc.next_error hp
  | ok flow => cases flow <;> simp [hp, bind, Except.bind] at h

theorem grown_error {acc : List UInt8} {e : Fault} (h : u.grown acc = .error e) : e = .disabled := by
  unfold Session.grown at h
  split at h <;> cases h
  rfl

theorem resume_error {e : Fault} (h : u.resume a = .error e) : e = .disabled := by
  unfold Session.resume at h
  split at h
  any_goals cases h
  · split at h <;> cases h
    rfl
  · exact grown_error h
  · exact grown_error h
  · exact resumeWrite_error h
  · exact resumeSend_error h
  · rfl

theorem sessionStep_error {s : Session} {a : Answer} {e : Fault} (h : sessionStep s a = .error e) :
    e = .disabled := by
  unfold sessionStep at h
  cases hreq : s.request with
  | error e' =>
    simp only [hreq, bind, Except.bind, Except.error.injEq] at h
    unfold Session.request at hreq
    split at hreq <;> cases hreq
    exact h.symm
  | ok req =>
    cases hres : s.resume a with
    | error e' =>
      simp only [hreq, hres, bind, Except.bind, Except.error.injEq] at h
      exact h ▸ resume_error hres
    | ok s' => simp [hreq, hres, bind, Except.bind] at h

/-- A server thread never goes wrong: it does not touch a block that is not
there, nor anything outside one, and its size counter does not overflow. -/
theorem thread_error {c o : Nat} {answers : List Answer} {e : Fault}
    (hx : exec threadStep (Thread.init c o) answers = .error e) : e = .disabled :=
  exec_error (P := fun e => e = .disabled) (fun _ _ _ h => sessionStep_error h)
    ((thread_run c o answers).of_error hx)

def Heard (segs : List (List UInt8)) : Stage → Prop
  | .starting | .allocating => segs = []
  | .receiving acc | .growing acc => acc = unfinished segs
  | .locking msg => (messages segs).getLast? = some msg ∧ unfinished segs = []
  | .writing _ _ | .sending _ _ | .unlocking _ | .resetting => unfinished segs = []
  | .closing _ | .exited _ _ => True

theorem heard_received {acc bs : List UInt8} (hacc : acc = unfinished segs) :
    Heard (segs ++ [bs]) (u.received acc bs).stage := by
  subst hacc
  rw [Session.received]
  by_cases h0 : bs.length = 0
  · rw [if_pos h0]
    trivial
  · rw [if_neg h0]
    by_cases hfull : bs.length = sockReadBufSize
    · rw [if_pos hfull]
      have hs : short bs = false := by simp [short, hfull]
      simp [Session.goto, Heard, unfinished_snoc, hs]
    · rw [if_neg hfull]
      have hs : short bs = true := by simp [short, hfull]
      simp [Session.goto, Heard, unfinished_snoc, messages_snoc, hs]

theorem heard_silent {stage : Stage} (hd : call.delivers = none) (hh : Heard segs stage) :
    Heard (segs ++ call.delivers.toList) stage := by
  rw [hd, Option.toList_none, List.append_nil]
  exact hh

theorem delivers_failed {req : Request} {line : Option (List UInt8)} :
    (Call.mk req line .failed).delivers = none := by
  cases req <;> rfl

theorem heard_step (hh : Heard segs u.stage) (hs : sessionStep u a = .ok (call, u')) :
    Heard (segs ++ call.delivers.toList) u'.stage := by
  obtain ⟨hreq, hres, _, rfl⟩ := sessionStep_ok hs
  obtain ⟨req, line, a⟩ := call
  cases turn_of_resume hreq hres with
  | allocated hst ha =>
    apply heard_silent rfl
    obtain hst | hst := hst <;> rw [hst] at hh
    · subst hh
      exact rfl
    · exact Eq.symm hh
  | received hst hle =>
    rw [hst] at hh
    exact heard_received hh
  | locked hst =>
    rw [hst] at hh
    apply heard_silent rfl
    rw [Session.dispatch]
    split
    · exact hh.2
    · exact hh.2
  | freed | logged => exact heard_silent rfl trivial
  | lost => exact heard_silent delivers_failed trivial
  | aborted hst hreq' =>
    apply heard_silent delivers_failed
    obtain ⟨_, _, hstage⟩ | ⟨_, _, hstage⟩ := stage_of_inHelper hst <;>
    · rw [hstage] at hh
      exact hh
  | released hst => exact heard_silent rfl trivial
  | masked hst | grown hst hle ha' | opened hst | wroteLine hst | wroteNewline hst | written hst
  | reopened hst | sought hst | fetched hst h0 hle | ended hst | sent hst | replied hst
  | unlocked hst | sentShort hst hne =>
    rw [hst] at hh
    exact heard_silent rfl hh

theorem run_heard {c o : Nat} {answers : List Answer}
    (hx : exec sessionStep (Session.init c o) answers = .ok (calls, u)) :
    Heard (received calls) u.stage := by
  have hinit : Heard (received []) (Session.init c o).stage := rfl
  refine exec_history (I := fun _ calls u => Heard (received calls) u.stage) hinit ?_ hx
  intro _ calls u a call u' _ hh hs
  rw [received_snoc]
  exact heard_step hh hs

/-- At a `recv`: the area handed over is the last thousand bytes of the buffer,
which holds what has arrived of the message before it. -/
structure ReadyToReceive (t : Thread) (arrived : List UInt8) : Prop where
  bufCurr : t.bufCurr = (t.bufStart, t.curBufSize - sockReadBufSize)
  size : t.curBufSize = arrived.length + sockReadBufSize
  bounded : t.curBufSize + sockReadBufSize < 2 ^ 31
  holds : t.heap.HoldsIn t.bufStart t.curBufSize arrived

/-- With the message complete: its bytes and a NUL are at the start of the
buffer, and `newline_ptr` is at its first newline or NUL. -/
structure Complete (t : Thread) (msg : List UInt8) : Prop where
  holds : t.heap.Holds t.bufStart (msg ++ [nul])
  newlinePtr_le : t.newlinePtr ≤ msg.length
  points : (msg ++ [nul])[t.newlinePtr]? = some newline ∨ (msg ++ [nul])[t.newlinePtr]? = some nul
  first : newline ∉ msg.take t.newlinePtr ∧ nul ∉ msg.take t.newlinePtr

theorem lineOf_end (msg : List UInt8) :
    (msg ++ [nul])[(lineOf msg).length]? = some newline ∨
      (msg ++ [nul])[(lineOf msg).length]? = some nul := by
  induction msg with
  | nil => exact .inr rfl
  | cons b msg ih =>
    by_cases hb : b = newline ∨ b = nul
    · have hl : lineOf (b :: msg) = [] := by
        obtain rfl | rfl := hb <;> simp [lineOf]
      rw [hl]
      obtain rfl | rfl := hb
      · exact .inl rfl
      · exact .inr rfl
    · have hl : lineOf (b :: msg) = b :: lineOf msg := by
        rw [not_or] at hb
        simp [lineOf, hb]
      rw [hl]
      exact ih

variable {t : Thread}

theorem Simulates.readyToReceive {acc : List UInt8} (h : Simulates t u)
    (hst : u.stage = .receiving acc) : ReadyToReceive t acc := by
  have hm := h.memory
  rw [hst] at hm
  obtain ⟨_, hsize, hcurr, hb⟩ := hm
  have hle := hb.size_le
  refine ⟨?_, hsize, ?_, ?_⟩
  · rw [hcurr, hsize, Nat.add_sub_cancel]
  · rw [hsize]
    unfold reallocLimit sockReadBufSize at *
    omega
  · rw [hsize]
    exact hb.holds

theorem Simulates.complete {msg : List UInt8} (h : Simulates t u) (hst : u.stage = .locking msg) :
    Complete t msg := by
  have hm := h.memory
  rw [hst] at hm
  obtain ⟨_, hnl, n, _, hb⟩ := hm
  have hpre := lineOf_isPrefix msg
  have htake : msg.take (lineOf msg).length = lineOf msg := (List.prefix_iff_eq_take.mp hpre).symm
  refine ⟨hb.holds.holds, ?_, ?_, ?_⟩
  · rw [hnl]
    exact hpre.length_le
  · rw [hnl]
    exact lineOf_end msg
  · rw [hnl, htake]
    exact ⟨newline_notMem_lineOf msg, nul_notMem_lineOf msg⟩

def pcOf : Stage → Pc
  | .starting => .sigmask
  | .allocating => .malloc
  | .receiving _ => .recv
  | .growing _ => .grow
  | .locking _ => .lock
  | .writing line w => .write line.length w
  | .sending p _ => .send p
  | .unlocking true => .unlockExit
  | .unlocking false => .unlock
  | .resetting => .reset
  | .closing false => .free
  | .closing true => .syslog
  | .exited _ _ => .exited

theorem Simulates.pc_eq (h : Simulates t u) : t.pc = pcOf u.stage := by
  have hm := h.memory
  cases hst : u.stage with
  | unlocking b | closing b =>
    rw [hst] at hm
    cases b <;> exact hm.1
  | starting | allocating | receiving acc | growing acc | locking msg | writing line w
  | sending p chunk | resetting | exited done leaked =>
    rw [hst] at hm
    exact hm.1

theorem stage_of_pc (stage : Stage) :
    match pcOf stage with
    | .recv => ∃ acc, stage = .receiving acc
    | .lock => ∃ msg, stage = .locking msg
    | .exited => ∃ done leaked, stage = .exited done leaked
    | _ => True := by
  cases stage with
  | receiving acc => exact ⟨acc, rfl⟩
  | locking msg => exact ⟨msg, rfl⟩
  | exited done leaked => exact ⟨done, leaked, rfl⟩
  | unlocking b | closing b => cases b <;> trivial
  | starting | allocating | growing acc | writing line w | sending p chunk | resetting => trivial

/-- Over any run of a connection, whatever its calls answer: no access is out of
bounds, every `recv` has a thousand bytes of the buffer after what has arrived of
the message, and a complete message is all that is before the NUL. -/
theorem receive_buffer_in_bounds (c o : Nat) (answers : List Answer) :
    (∀ e, exec threadStep (Thread.init c o) answers = .error e → e = .disabled) ∧
      ∀ calls t, exec threadStep (Thread.init c o) answers = .ok (calls, t) →
        (t.pc = .recv → ReadyToReceive t (unfinished (received calls))) ∧
        (t.pc = .lock → ∃ msg, (messages (received calls)).getLast? = some msg ∧
          Complete t msg) := by
  refine ⟨fun e hx => thread_error hx, fun calls t hx => ?_⟩
  obtain ⟨u, hu, hsim⟩ := (thread_run c o answers).of_ok hx
  have hheard := run_heard hu
  have hstage := stage_of_pc u.stage
  rw [← Simulates.pc_eq hsim] at hstage
  refine ⟨fun hpc => ?_, fun hpc => ?_⟩
  · rw [hpc] at hstage
    obtain ⟨acc, hst⟩ := hstage
    rw [hst] at hheard
    have h := Simulates.readyToReceive hsim hst
    rwa [show acc = unfinished (received calls) from hheard] at h
  · rw [hpc] at hstage
    obtain ⟨msg, hst⟩ := hstage
    rw [hst] at hheard
    exact ⟨msg, hheard.1, Simulates.complete hsim hst⟩

/-- A message that fills the buffer before its newline. -/
def grownMessage (full : List UInt8) : List Answer :=
  [.done, .done, .bytes full, .done, .bytes [newline]]

theorem grownMessage_run {full : List UInt8} (hfull : full.length = sockReadBufSize) :
    ∃ calls, exec sessionStep (Session.init 0 0) (grownMessage full) =
        .ok (calls, ⟨.locking (full ++ [newline]), 0, 0⟩) ∧
      received calls = [full, [newline]] := by
  have hroom : sockReadBufSize + sockReadBufSize ≤ reallocLimit := by
    unfold sockReadBufSize reallocLimit
    omega
  have hpos : sockReadBufSize ≠ 0 := by decide
  have hone : 1 ≠ sockReadBufSize := by decide
  have hbig : ¬ sockReadBufSize < 1 := by decide
  refine ⟨[⟨.sigmask, none, .done⟩, ⟨.alloc, none, .done⟩, ⟨.recv, none, .bytes full⟩,
    ⟨.alloc, none, .done⟩, ⟨.recv, none, .bytes [newline]⟩], ?_, rfl⟩
  simp [grownMessage, exec, sessionStep, Session.init, Session.request, Session.resume,
    Session.enters, Session.received, Session.grown, Session.goto, hfull, hroom, hpos, hone, hbig,
    bind, Except.bind]

theorem grownMessage_in_bounds : ∃ full calls t, full.length = sockReadBufSize ∧
    exec threadStep (Thread.init 0 0) (grownMessage full) = .ok (calls, t) ∧ t.pc = .lock ∧
      Complete t (full ++ [newline]) := by
  obtain ⟨full, hfull⟩ : ∃ full : List UInt8, full.length = sockReadBufSize :=
    ⟨List.replicate sockReadBufSize 97, List.length_replicate⟩
  obtain ⟨calls, hx, hcalls⟩ := grownMessage_run hfull
  have href := thread_run 0 0 (grownMessage full)
  rw [hx] at href
  obtain ⟨t, ht, hsim⟩ := href
  have hpc : t.pc = .lock := hsim.memory.1
  obtain ⟨msg, hmsg, hc⟩ := ((receive_buffer_in_bounds 0 0 (grownMessage full)).2 calls t ht).2 hpc
  have hlong : short full = false := by simp [short, hfull]
  have hend : short [newline] = true := rfl
  have hlast : messages [full, [newline]] = [full ++ [newline]] := by
    have h := messages_snoc [full] [newline]
    have h' := messages_snoc [] full
    have h'' := unfinished_snoc [] full
    simp only [List.nil_append, hlong, hend, if_true, Bool.false_eq_true, if_false] at h h' h''
    rw [List.singleton_append] at h
    rw [h, h', h'']
    rfl
  rw [hcalls, hlast] at hmsg
  obtain rfl := Option.some.inj hmsg
  exact ⟨full, calls, t, hfull, ht, hpc, hc⟩

def allocs (calls : List Call) : List Call := calls.filter fun call => call.req = .alloc

/-- The calls of `realloc`. The first allocation of a connection is its `malloc`. -/
def reallocs (calls : List Call) : List Call := (allocs calls).drop 1

theorem allocs_snoc (calls : List Call) (call : Call) :
    allocs (calls ++ [call]) = allocs calls ++ if call.req = .alloc then [call] else [] := by
  rw [allocs, List.filter_append, allocs, List.filter_singleton]
  simp

structure Clean (calls : List Call) : Prop where
  started : allocs calls ≠ []
  granted : ∀ call ∈ reallocs calls, call.answer ≠ .failed

def Allocated (calls : List Call) : Stage → Prop
  | .starting | .allocating => allocs calls = []
  | .exited _ leaked => leaked = true ↔ ∃ call ∈ reallocs calls, call.answer = .failed
  | _ => Clean calls

theorem reallocs_snoc (hne : allocs calls ≠ []) (call : Call) :
    reallocs (calls ++ [call]) = reallocs calls ++ if call.req = .alloc then [call] else [] := by
  rw [reallocs, allocs_snoc, reallocs, List.drop_append_of_le_length]
  exact List.length_pos_iff.mpr hne

theorem Clean.snoc (hc : Clean calls) (hcall : call.req = .alloc → call.answer ≠ .failed) :
    Clean (calls ++ [call]) := by
  refine ⟨?_, ?_⟩
  · rw [allocs_snoc]
    exact List.append_ne_nil_of_left_ne_nil hc.started _
  · rw [reallocs_snoc hc.started]
    intro k hk
    obtain hk | hk := List.mem_append.mp hk
    · exact hc.granted k hk
    · split at hk
      · next hreq =>
        rw [List.mem_singleton.mp hk]
        exact hcall hreq
      · cases hk

theorem Clean.exited (hc : Clean calls) (done : Bool) : Allocated calls (.exited done false) :=
  iff_of_false (by simp) fun ⟨call, hm, hf⟩ => hc.granted call hm hf

theorem allocated_of_nil (h : reallocs calls = []) (done : Bool) :
    Allocated calls (.exited done false) := by
  refine iff_of_false (by simp) ?_
  rw [h]
  simp

theorem allocated_lost {req : Request} {line : Option (List UInt8)} (ha : Allocated calls u.stage)
    (hh : inHelper u.stage = false) (hd : u.stage.done = false) (hreq : u.request = .ok req) :
    Allocated (calls ++ [⟨req, line, .failed⟩]) (.exited false (leaks u.stage)) := by
  unfold Session.request at hreq
  have hlost : Clean calls → req = .alloc →
      Allocated (calls ++ [⟨req, line, .failed⟩]) (.exited false true) := by
    rintro hc rfl
    refine iff_of_true rfl ⟨⟨.alloc, line, .failed⟩, ?_, rfl⟩
    rw [reallocs_snoc hc.started]
    simp
  have hkept : Clean calls → req ≠ .alloc →
      Allocated (calls ++ [⟨req, line, .failed⟩]) (.exited false false) :=
    fun hc hne => Clean.exited (hc.snoc fun h => absurd h hne) false
  cases hst : u.stage with
  | starting =>
    rw [hst] at ha hreq
    cases hreq
    apply allocated_of_nil
    rw [reallocs, allocs_snoc, ha]
    rfl
  | allocating =>
    rw [hst] at ha hreq
    cases hreq
    apply allocated_of_nil
    rw [reallocs, allocs_snoc, ha]
    rfl
  | growing acc | resetting =>
    rw [hst] at ha hreq
    cases hreq
    exact hlost ha rfl
  | receiving acc | locking msg | unlocking failed =>
    rw [hst] at ha hreq
    cases hreq
    exact hkept ha (by simp)
  | writing line w | sending p chunk =>
    rw [hst] at hh
    cases hh
  | closing freed =>
    rw [hst] at hd
    cases hd
  | exited done leaked =>
    rw [hst] at hreq
    cases hreq

theorem allocated_step (ha : Allocated calls u.stage) (hs : sessionStep u a = .ok (call, u')) :
    Allocated (calls ++ [call]) u'.stage := by
  obtain ⟨hreq, hres, _, rfl⟩ := sessionStep_ok hs
  obtain ⟨req, line, a⟩ := call
  cases turn_of_resume hreq hres with
  | masked hst =>
    rw [hst] at ha
    simpa [Session.goto, Allocated, allocs_snoc] using ha
  | allocated hst hans =>
    obtain hst | hst := hst <;> rw [hst] at ha
    · refine ⟨by simp [allocs_snoc], ?_⟩
      rw [reallocs, allocs_snoc, ha]
      simp
    · refine Clean.snoc ha fun _ => ?_
      obtain rfl | rfl := hans <;> simp
  | grown hst hle hans =>
    rw [hst] at ha
    refine Clean.snoc ha fun _ => ?_
    obtain rfl | rfl := hans <;> simp
  | @received acc bs hst hle =>
    rw [hst] at ha
    have hc : Clean (calls ++ [⟨.recv, line, .bytes bs⟩]) := Clean.snoc ha (by simp)
    rw [Session.received]
    split
    · exact hc
    · split
      · exact hc
      · exact hc
  | locked hst =>
    rw [hst] at ha
    have hc : Clean (calls ++ [⟨.lock, line, .done⟩]) := Clean.snoc ha (by simp)
    rw [Session.dispatch]
    split
    · exact hc
    · exact hc
  | freed hst =>
    rw [hst] at ha
    exact Clean.snoc ha (by simp)
  | logged hst =>
    rw [hst] at ha
    exact Clean.exited (Clean.snoc ha (by simp)) true
  | lost hst hd hreq' => exact allocated_lost ha hst hd hreq'
  | aborted hst hreq' =>
    unfold Session.request at hreq'
    obtain ⟨line, w, hstage⟩ | ⟨p, chunk, hstage⟩ := stage_of_inHelper hst
    · rw [hstage] at ha hreq'
      apply Clean.snoc ha
      cases w <;> cases hreq' <;> simp
    · rw [hstage] at ha hreq'
      apply Clean.snoc ha
      cases p <;> cases hreq' <;> simp
  | released hst =>
    rw [hst] at ha
    exact Clean.exited (Clean.snoc ha (by simp)) false
  | opened hst | wroteLine hst | wroteNewline hst | written hst | reopened hst | sought hst
  | fetched hst h0 hle | ended hst | sent hst | replied hst | unlocked hst | sentShort hst hne =>
    rw [hst] at ha
    exact Clean.snoc ha (by simp)

theorem run_allocated {c o : Nat} {answers : List Answer}
    (hx : exec sessionStep (Session.init c o) answers = .ok (calls, u)) :
    Allocated calls u.stage := by
  have hinit : Allocated [] (Session.init c o).stage := rfl
  exact exec_history (I := fun _ calls u => Allocated calls u.stage) hinit
    (fun _ _ _ _ _ _ _ ha hs => allocated_step ha hs) hx

/-- No run of a connection frees or uses a block that is not there. When it ends
it has released its buffer exactly if none of its calls of `realloc` has failed. -/
theorem buffer_released_iff (c o : Nat) (answers : List Answer) :
    (∀ e, exec threadStep (Thread.init c o) answers = .error e → e = .disabled) ∧
      ∀ calls t, exec threadStep (Thread.init c o) answers = .ok (calls, t) → t.pc = .exited →
        ((∀ id, t.heap.blocks id = none) ↔ ∀ call ∈ reallocs calls, call.answer ≠ .failed) := by
  refine ⟨fun e hx => thread_error hx, fun calls t hx hpc => ?_⟩
  obtain ⟨u, hu, hsim⟩ := (thread_run c o answers).of_ok hx
  have ha := run_allocated hu
  have hm := hsim.memory
  have hstage := stage_of_pc u.stage
  rw [← Simulates.pc_eq hsim, hpc] at hstage
  obtain ⟨done, leaked, hst⟩ := hstage
  rw [hst] at ha hm
  have hlost : leaked = true ↔ ∃ call ∈ reallocs calls, call.answer = .failed := ha
  rw [← hm.2, ← Bool.not_eq_true, hlost]
  simp

/-- A line is stored and sent back, and then the buffer cannot be made smaller. -/
def resetFails : List Answer :=
  [.done, .done, .bytes [97, newline], .done, .fd 3, .count 1, .count 1, .done, .fd 3, .ret 0,
    .bytes [97, newline], .count 2, .bytes [], .done, .done, .failed]

/-- The buffer that a failed `realloc` leaves allocated is never freed. -/
theorem failed_realloc_leaks :
    ∃ calls t, exec threadStep (Thread.init 0 0) resetFails = .ok (calls, t) ∧ t.pc = .exited ∧
      ¬ ∀ id, t.heap.blocks id = none := by
  have hx : ∃ calls, exec sessionStep (Session.init 0 0) resetFails =
      .ok (calls, ⟨.exited false true, 0, 0⟩) := ⟨_, rfl⟩
  obtain ⟨calls, hx⟩ := hx
  have href := thread_run 0 0 resetFails
  rw [hx] at href
  obtain ⟨t, ht, hsim⟩ := href
  have hm := hsim.memory
  exact ⟨calls, t, ht, hm.1, fun hnone => absurd (hm.2.mpr hnone) (by simp)⟩

end Aesd.ReceiveBuffer
