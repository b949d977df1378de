import Aesd.Eviction
import Aesd.Pieces
import Aesd.Serialisability

namespace Aesd.DeviceSections

open Aesd.Lib.BlockHeap Aesd.Lib.MachineInt Aesd.Lib.Sequence Aesd.Lib.Transition Aesd.Lib.Monitor
open Aesd.CircularBuffer Aesd.Driver Aesd.RecordLog Aesd.Refinement Aesd.Ownership Aesd.LogDevice
open Aesd.ServerThread Aesd.Connection Aesd.Rules Aesd.Aesdsocket Aesd.Transactions
open Aesd.FileThreads Aesd.Sections Aesd.Pieces

def content (l : Log) : List UInt8 := l.records.flatten ++ l.openBytes

def Grows (l : Log) (bs : List UInt8) (l' : Log) : Prop :=
  content l' = content l ++ bs ∧ l.records <+: l'.records

variable {d d' : Device} {l l' : Log} {fd : Nat} {env : Env} {a : Answer}

theorem content_accept (l : Log) (bs : List UInt8) (stray : UInt8) :
    content (l.accept bs stray) = content l ++ bs := by
  rw [Log.accept_eq]
  split
  · simp [content, Log.openBytes]
  · simp [content, Log.openBytes]

theorem grows_accept (l : Log) (bs : List UInt8) (stray : UInt8) :
    Grows l bs (l.accept bs stray) := by
  refine ⟨content_accept l bs stray, ?_⟩
  rw [Log.accept_eq]
  split
  · exact List.prefix_append _ _
  · exact List.prefix_refl _

theorem Grows.trans {l'' : Log} {bs bs' : List UInt8} (h : Grows l bs l') (h' : Grows l' bs' l'') :
    Grows l (bs ++ bs') l'' :=
  ⟨by rw [h'.1, h.1, List.append_assoc], h.2.trans h'.2⟩

theorem vfs_step (hi : Idle d.kernel l) {op : DriverOp} {r : Reply}
    (hv : vfsStep d op = .ok (r, d')) :
    r = (LogDevice.step ⟨l, d.files⟩ op).1 ∧
      Idle d'.kernel (LogDevice.step ⟨l, d.files⟩ op).2.log ∧
      d'.files = (LogDevice.step ⟨l, d.files⟩ op).2.files := by
  obtain ⟨_, hr, hd'⟩ := vfs_answers (show Implements d ⟨l, d.files⟩ from ⟨hi, rfl⟩) hv
  exact ⟨hr, hd'.idle, hd'.files⟩

theorem serve_openFile' (hi : Idle d.kernel l) (h : serveDriver d .openFile env = .ok (a, d')) :
    Idle d'.kernel l ∧ ∀ fd, a = .fd fd → d'.files fd = some 0 := by
  obtain ⟨_, rfl, rfl⟩ | ⟨fd, rfl, _, rfl⟩ := openFile_cases h
  · exact ⟨hi, fun fd hfd => by cases hfd⟩
  · refine ⟨hi, fun fd' hfd => ?_⟩
    cases hfd
    exact Function.update_self ..

theorem serve_accept (hi : Idle d.kernel l) {bytes : List UInt8}
    (h : serveDriver d (.write fd bytes) env = .ok (a, d')) :
    ∃ l', Idle d'.kernel l' ∧
      (taken bytes a = [] ∧ l' = l ∨ ∃ n stray, a = .count n ∧ l' = l.accept (bytes.take n) stray) := by
  cases env with
  | wrote env =>
    obtain ⟨⟨_, d₁⟩, hv, h⟩ := bind_ok h
    obtain ⟨rfl, hi₁, _⟩ := vfs_step hi hv
    simp only [Except.ok.injEq, Prod.mk.injEq] at h
    obtain ⟨rfl, rfl⟩ := h
    refine ⟨_, hi₁, ?_⟩
    unfold LogDevice.step
    cases hf : d.files fd with
    | none =>
      simp only [DriverOp.file, hf]
      exact .inl ⟨rfl, trivial⟩
    | some p =>
      simp only [DriverOp.file, hf]
      by_cases hc : 2 ^ 63 ≤ bytes.length
      · rw [if_pos hc]
        exact .inl ⟨rfl, rfl⟩
      · rw [if_neg hc]
        unfold LogDevice.write State.move
        cases env.interrupted with
        | true => exact .inl ⟨rfl, rfl⟩
        | false =>
          by_cases hg : env.granted = true ∧ l.openBytes.length + bytes.length ≤ kmallocLimit
          · have hpos : ¬ ((accepted bytes env.uncopied).length : Int) < 0 := by omega
            have htake : bytes.take (accepted bytes env.uncopied).length =
                accepted bytes env.uncopied := by
              rw [accepted_length, accepted]
            simp only [Bool.false_eq_true, if_false, if_pos hg, hpos, taken, Int.toNat_natCast,
              htake]
            exact .inr ⟨_, env.stray, rfl, by rw [htake]⟩
          · simp only [Bool.false_eq_true, if_false, if_neg hg]
            exact .inl ⟨rfl, trivial⟩
  | plain _ | kept | opened _ | received _ | fetched _ | sought _ | sent _ _ => cases h

theorem serve_write' (hi : Idle d.kernel l) {bytes : List UInt8}
    (h : serveDriver d (.write fd bytes) env = .ok (a, d')) :
    ∃ l', Idle d'.kernel l' ∧ Grows l (taken bytes a) l' := by
  obtain ⟨l', hi', ⟨hnil, rfl⟩ | ⟨n, stray, rfl, rfl⟩⟩ := serve_accept hi h
  · rw [hnil]
    exact ⟨_, hi', (List.append_nil _).symm, List.prefix_refl _⟩
  · exact ⟨_, hi', grows_accept l _ stray⟩

theorem seekTo_le {c o p : Nat} (h : seekTo l c o = some p) : p ≤ l.visible.flatten.length := by
  have hs := seekStart_le l.visible (c, o)
  unfold seekTo at h
  unfold seekStart at hs
  cases hc : l.visible[c]? with
  | none =>
    rw [hc] at h
    cases h
  | some record =>
    rw [hc] at h hs
    by_cases ho : o < record.length
    · simp only [ho, if_true, Option.some.injEq] at h hs
      rwa [← h]
    · simp [ho] at h

/-- Where a seek from the start of the file has led: to the byte that it names,
if the driver has answered so. -/
def seekLeads (l : Log) (c o : Nat) : Answer → Nat
  | .ret r => if r < 0 then 0 else (seekTo l c o).getD 0
  | _ => 0

theorem seekLeads_le (l : Log) (c o : Nat) (a : Answer) :
    seekLeads l c o a ≤ l.visible.flatten.length := by
  unfold seekLeads
  split
  · split
    · exact Nat.zero_le _
    · cases hs : seekTo l c o with
      | none => exact Nat.zero_le _
      | some p => exact seekTo_le hs
  · exact Nat.zero_le _

theorem ioctl_leads (l : Log) (c o : Nat) (env : IoctlEnv)
    (hfits : l.visible.flatten.length < 2 ^ 63) :
    (LogDevice.ioctl l aesdcharIocseekto ⟨c, o⟩ 0 env).2 =
      seekLeads l c o (.ret (LogDevice.ioctl l aesdcharIocseekto ⟨c, o⟩ 0 env).1) := by
  unfold LogDevice.ioctl
  rw [if_neg (not_not.mpr rfl)]
  cases env.faults with
  | true => rfl
  | false =>
    simp only [Bool.false_eq_true, if_false]
    by_cases hbig : maxWriteOperationsSupported ≤ c
    · rw [if_pos hbig]
      rfl
    · rw [if_neg hbig]
      cases env.interrupted with
      | true => rfl
      | false =>
        simp only [Bool.false_eq_true, if_false]
        cases hs : seekTo l c o with
        | none => rfl
        | some p =>
          have hle := seekTo_le hs
          have hp : loffT (p : Int) = p := loffT_of_lt (by omega) (by omega)
          simp only [hp, seekLeads, hs]
          rfl

theorem serve_ioctl' (hi : Idle d.kernel l) {c o : Nat}
    (h : serveDriver d (.ioctl fd c o) env = .ok (a, d')) :
    Idle d'.kernel l ∧ (l.visible.flatten.length < 2 ^ 63 → d.files fd = some 0 →
      d'.files fd = some (seekLeads l c o a : Int)) := by
  cases env with
  | sought env =>
    obtain ⟨⟨_, d₁⟩, hv, h⟩ := bind_ok h
    obtain ⟨rfl, hi₁, hf₁⟩ := vfs_step hi hv
    simp only [Except.ok.injEq, Prod.mk.injEq] at h
    obtain ⟨rfl, rfl⟩ := h
    rw [step_log (by simp)] at hi₁
    refine ⟨hi₁, fun hfits hf => ?_⟩
    have hleads := ioctl_leads l c o env hfits
    rw [hf₁]
    unfold LogDevice.step
    simp only [DriverOp.file, hf]
    rw [← hleads]
    exact Function.update_self ..
  | plain _ | kept | opened _ | received _ | wrote _ | fetched _ | sent _ _ => cases h

theorem serve_read' (hi : Idle d.kernel l)
    (h : serveDriver d (.read fd sockReadBufSize) env = .ok (a, d')) :
    Idle d'.kernel l ∧ (l.visible.flatten.length < 2 ^ 63 → ∀ (p : Nat) bs,
      d.files fd = some (p : Int) → p ≤ l.visible.flatten.length → a = .bytes bs →
      bs <+: l.visible.flatten.drop p ∧ d'.files fd = some ((p + bs.length : Nat) : Int)) := by
  cases env with
  | fetched env =>
    obtain ⟨⟨_, d₁⟩, hv, h⟩ := bind_ok h
    obtain ⟨rfl, hi₁, hf₁⟩ := vfs_step hi hv
    simp only [Except.ok.injEq, Prod.mk.injEq] at h
    obtain ⟨ha, rfl⟩ := h
    rw [step_log (by simp)] at hi₁
    refine ⟨hi₁, fun hfits p bs hf hp hbs => ?_⟩
    have hstep := Eviction.step_read (q := ⟨l, d.files⟩) hf (by omega) hfits sockReadBufSize env
    obtain ⟨hpre, _, hpos⟩ := hstep
    split at ha
    · rw [hbs] at ha
      cases ha
    · rw [hbs, Answer.bytes.injEq] at ha
      rw [ha] at hpre hpos
      rw [hf₁]
      exact ⟨hpre, hpos⟩
  | plain _ | kept | opened _ | received _ | wrote _ | sought _ | sent _ _ => cases h

theorem serve_close' (hi : Idle d.kernel l) (h : serveDriver d (.close fd) env = .ok (a, d')) :
    Idle d'.kernel l := by
  cases env with
  | plain fails =>
    cases h
    exact hi
  | kept | opened _ | received _ | wrote _ | fetched _ | sought _ | sent _ _ => cases h

/-- `/dev/aesdchar`, which shows its last ten records. -/
def aesdchar : Datafile Device Env Log where
  serve := serveDriver
  stands d l := Idle d.kernel l
  position d fd := (d.files fd).bind Int.toNat?
  shows l := l.visible.flatten
  readable l := l.visible.flatten.length < 2 ^ 63
  grows := Grows
  seeks := seekLeads
  grows_nil l := ⟨(List.append_nil _).symm, List.prefix_refl _⟩
  grows_append := Grows.trans
  openFile hi h := by
    obtain ⟨hi', hf⟩ := serve_openFile' hi h
    exact ⟨hi', fun fd hfd => by rw [hf fd hfd]; rfl⟩
  write hi h := serve_write' hi h
  ioctl hi h := by
    obtain ⟨hi', hf⟩ := serve_ioctl' hi h
    refine ⟨hi', fun hr hp => ?_⟩
    obtain ⟨z, hz, hp⟩ := Option.bind_eq_some_iff.mp hp
    have hp' := hf hr (by rw [hz, Int.mem_toNat?.mp hp]; rfl)
    exact ⟨seekLeads_le .., by rw [hp']; rfl⟩
  read hi h := by
    obtain ⟨hi', hf⟩ := serve_read' hi h
    refine ⟨hi', fun hr p bs hp hle ha => ?_⟩
    obtain ⟨z, hz, hp⟩ := Option.bind_eq_some_iff.mp hp
    obtain ⟨hpre, hp'⟩ := hf hr p bs (by rw [hz, Int.mem_toNat?.mp hp]) hle ha
    exact ⟨hpre, by rw [hp']; rfl⟩
  close hi h := serve_close' hi h

def actOf : Event → Option (Nat × Act)
  | .created i => some (i, .born)
  | .call i req a => some (i, .call req a)
  | _ => none

def actsIn (events : List Event) : List (Nat × Act) := events.filterMap actOf

abbrev Sessions := Server Session

def taskOf (u : Option Session) : Task := u.elim .absent .connection

def system (q : Sessions) : System Nat Task Device :=
  ⟨q.shared.fileMutex, q.shared.device, fun i => taskOf q.threads[i]?⟩

variable {q q' : Sessions} {i : Nat}

theorem system_set {u : Session} (hu : q.threads[i]? = some u) (shared : Shared) (u' : Session) :
    system { q with shared := shared, threads := q.threads.set i u' } =
      ⟨shared.fileMutex, shared.device, Function.update (system q).tasks i (.connection u')⟩ := by
  have hlt := (List.getElem?_eq_some_iff.mp hu).1
  unfold system
  congr 1
  funext j
  by_cases hj : j = i
  · rw [hj, Function.update_self, List.getElem?_set_self hlt]
    rfl
  · rw [Function.update_of_ne hj, List.getElem?_set_ne (Ne.symm hj)]

def ServedBy (F : Datafile Device Env Log) (env : Env) (req : Request) (a : Answer) : Prop :=
  ∀ d d', serveDriver d req env = .ok (a, d') → F.serve d req env = .ok (a, d')

theorem servedBy_aesdchar (env : Env) (req : Request) (a : Answer) : ServedBy aesdchar env req a :=
  fun _ _ h => h

variable {F : Datafile Device Env Log}

theorem thread_moves (ho : Owned (system q)) {e : Event}
    (h : q.step sessionProcess (.thread i env) = .ok (e, q'))
    (hF : ∀ req a, e = .call i req a → ServedBy F env req a) :
    Owned (system q') ∧ ∃ act, actOf e = some (i, act) ∧
      Move (threads F) (system q) i act (system q') := by
  obtain ⟨u, req, a, shared, u', hu, hreq, hserve, hres, rfl, rfl⟩ := thread_step h
  have htask : (system q).tasks i = .connection u := congrArg taskOf hu
  have hreq' : ((system q).tasks i).request = .ok req := by
    rw [htask]
    exact hreq
  have hres' : ((system q).tasks i).resume a = .ok (.connection u') := by
    rw [htask, Task.resume, show u.resume a = .ok u' from hres]
    rfl
  have hout : Outcome F (system q) i req a shared.fileMutex shared.device := by
    obtain ⟨hd, d, hs, rfl⟩ | ⟨rfl, rfl, hm, rfl⟩ | ⟨rfl, rfl, hm, rfl⟩ | ⟨hd, rfl, hfail⟩ :=
      serve_cases hserve
    · exact .file hd (hF _ _ rfl _ _ hs)
    · exact .lock rfl rfl hm
    · exact .unlock rfl rfl hm
    · exact .rest hd hfail
  rw [system_set hu]
  obtain ⟨ho', hm⟩ := call_moves ho hreq' hres' hout
  exact ⟨ho', _, rfl, hm⟩

theorem main_creates {c o : Nat} {e : Event} (h : q.mainStep sessionProcess c o = .ok (e, q')) :
    (e = .created q.threads.length ∧ q'.threads = q.threads ++ [Session.init c o]) ∨
      (actOf e = none ∧ q'.threads = q.threads) := by
  unfold Server.mainStep at h
  cases hm : q.main with
  | accept =>
    rw [hm] at h
    cases h
    exact .inl ⟨rfl, rfl⟩
  | insert i | close i | free i =>
    rw [hm] at h
    cases h
    exact .inr ⟨rfl, rfl⟩
  | scan rest =>
    rw [hm] at h
    cases rest <;> cases h <;> exact .inr ⟨rfl, rfl⟩
  | check found =>
    rw [hm] at h
    cases found with
    | none =>
      cases h
      exact .inr ⟨rfl, rfl⟩
    | some i =>
      simp only at h
      split at h <;> cases h <;> exact .inr ⟨rfl, rfl⟩
  | join i =>
    rw [hm] at h
    simp only at h
    split at h <;> cases h
    exact .inr ⟨rfl, rfl⟩

theorem main_moves (ho : Owned (system q)) {c o : Nat} {e : Event}
    (h : q.mainStep sessionProcess c o = .ok (e, q')) :
    Owned (system q') ∧ (actOf e = none ∧ system q' = system q ∨
      ∃ i act, actOf e = some (i, act) ∧ Move (threads F) (system q) i act (system q')) := by
  obtain ⟨hshared, _⟩ := main_step h
  obtain ⟨rfl, hthreads⟩ | ⟨he, hthreads⟩ := main_creates h
  · have hsys : system q' = ⟨(system q).owner, (system q).shared,
        Function.update (system q).tasks q.threads.length (.connection (Session.init c o))⟩ := by
      unfold system
      rw [hshared, hthreads]
      congr 1
      funext j
      rw [List.getElem?_append]
      by_cases hj : j = q.threads.length
      · rw [hj, Function.update_self, if_neg (Nat.lt_irrefl _), Nat.sub_self]
        rfl
      · rw [Function.update_of_ne hj]
        by_cases hlt : j < q.threads.length
        · rw [if_pos hlt]
        · have hlen : [Session.init c o].length ≤ j - q.threads.length := by
            rw [List.length_singleton]
            omega
          have hnone : q.threads[j]? = none := List.getElem?_eq_none (Nat.le_of_not_lt hlt)
          simp only [if_neg hlt, List.getElem?_eq_none hlen, hnone]
    have htask : (system q).tasks q.threads.length = .absent :=
      congrArg taskOf (List.getElem?_eq_none (Nat.le_refl _))
    have hborn : Alone ((system q).tasks q.threads.length) .born (.connection (Session.init c o)) := by
      rw [htask]
      exact .accept c o
    obtain ⟨ho', hm⟩ := alone_moves (F := F) ho (by rw [htask]; rfl) (by rw [htask]; exact id)
      rfl hborn
    rw [hsys]
    exact ⟨ho', .inr ⟨_, _, rfl, hm⟩⟩
  · have hsys : system q' = system q := by
      unfold system
      rw [hshared, hthreads]
    rw [hsys]
    exact ⟨ho, .inl ⟨he, rfl⟩⟩

/-- The runs of the server are runs of its threads under one mutex. -/
theorem run_moves {labels : List Label} {events : List Event}
    (hx : exec (Server.step sessionProcess) Server.init labels = .ok (events, q))
    (hF : ∀ i env req a, .thread i env ∈ labels → .call i req a ∈ events → ServedBy F env req a) :
    Owned (system q) ∧ Run (threads F) (system Server.init) (actsIn events) (system q) := by
  refine exec_history (I := fun labels events q =>
    (∀ i env req a, .thread i env ∈ labels → .call i req a ∈ events → ServedBy F env req a) →
      Owned (system q) ∧ Run (threads F) (system Server.init) (actsIn events) (system q))
    (fun _ => ⟨owned_init _, .nil⟩) ?_ hx hF
  intro labels events q label e q' _ ih hstep hF
  obtain ⟨ho, hrun⟩ := ih fun i env req a hl he =>
    hF i env req a (List.mem_append_left _ hl) (List.mem_append_left _ he)
  have hacts : actsIn (events ++ [e]) = actsIn events ++ (actOf e).toList := by
    rw [actsIn, List.filterMap_append]
    cases he : actOf e <;> simp [actsIn, he]
  rw [hacts]
  cases label with
  | main c o =>
    obtain ⟨ho', ⟨he, hsys⟩ | ⟨i, act, he, hm⟩⟩ := main_moves (F := F) ho hstep
    · rw [he, hsys]
      simpa using ⟨hsys ▸ ho', hrun⟩
    · rw [he]
      exact ⟨ho', hrun.snoc hm⟩
  | thread i env =>
    obtain ⟨ho', act, he, hm⟩ := thread_moves ho hstep fun req a hcall =>
      hF i env req a (by simp) (by simp [hcall])
    rw [he]
    exact ⟨ho', hrun.snoc hm⟩

/-- Whatever fails, and in whatever order the threads move: what they do with the
mutex taken is done in pieces one after the other, one for each time the mutex
was taken; the log is what the pieces have added to it; what a piece has sent is
read from where its seek has led, and nothing else is sent. -/
theorem server_sections {labels : List Label} {events : List Event} {s : Server Thread}
    (hx : exec (Server.step threadProcess) Server.init labels = .ok (events, s)) :
    ∃ ps l, Idle s.shared.device.kernel l ∧ Chain aesdchar Log.empty ps l ∧
      (content l = ps.flatMap fun p => kept p.acts) ∧
      insideActs (actsIn events) = ps.flatMap Piece.labelled ∧ (∀ p ∈ ps, Opened p.acts) ∧
      (∀ i, purposesOf i ps = (noted (actsOf i (actsIn events))).2) ∧
      ∀ i, sentOf i ps = sent (actsOf i (actsIn events)) := by
  obtain ⟨q, hq, hagree⟩ := run_agrees hx
  obtain ⟨_, hrun⟩ := run_moves hq fun _ env req a _ _ => servedBy_aesdchar env req a
  have hstands : aesdchar.stands (system Server.init).shared Log.empty := idle_init
  obtain ⟨ps, l, hl, hchain, hinside, hopened, hpurposes, _⟩ := run_pieces hstands hrun
  have hcontent : content l = ps.flatMap fun p => kept p.acts :=
    hchain.content content fun _ _ _ (hg : Grows _ _ _) => hg.1
  refine ⟨ps, l, ?_, hchain, hcontent, hinside, hopened, hpurposes, sentOf_eq hinside⟩
  rw [hagree.shared]
  exact hl

/-- The newline of the first client is lost, the line of the second one goes on
where its own had stopped, and the second client is sent both. -/
def newlineLost : List Label :=
  [.main 0 0, .main 0 0, .main 0 0, .main 0 0, .main 0 0, .main 0 0,
    .thread 0 (.plain false), .thread 1 (.plain false), .thread 0 (.plain false),
    .thread 1 (.plain false), .thread 0 (.received (some [97, RecordLog.newline])),
    .thread 0 (.plain false), .thread 1 (.received (some [98, RecordLog.newline])),
    .thread 0 (.opened (some 3)), .thread 0 (.wrote ⟨false, true, 0, 0⟩),
    .thread 0 (.wrote ⟨true, true, 0, 0⟩), .thread 0 (.plain false), .thread 1 (.plain false),
    .thread 1 (.opened (some 4)), .thread 1 (.wrote ⟨false, true, 0, 0⟩),
    .thread 1 (.wrote ⟨false, true, 0, 0⟩), .thread 1 (.plain false), .thread 1 (.opened (some 4)),
    .thread 1 (.sought ⟨false, false⟩), .thread 1 (.fetched ⟨false, 0⟩), .thread 1 (.sent false 0)]

theorem newlineLost_sections : ∃ events, ∃ s : Server Thread,
    exec (Server.step threadProcess) Server.init newlineLost = .ok (events, s) ∧
      ∃ ps l, Idle s.shared.device.kernel l ∧ (content l = ps.flatMap fun p => kept p.acts) ∧
        insideActs (actsIn events) = ps.flatMap Piece.labelled ∧
        purposesOf 0 ps = [.message [97, RecordLog.newline]] ∧
        purposesOf 1 ps = [.message [98, RecordLog.newline]] ∧
        sentOf 0 ps = [] ∧ sentOf 1 ps = [97, 98, RecordLog.newline] := by
  obtain ⟨events, q, hq, h0, h1, hs0, hs1⟩ : ∃ events, ∃ q : Sessions,
      exec (Server.step sessionProcess) Server.init newlineLost = .ok (events, q) ∧
        (noted (actsOf 0 (actsIn events))).2 = [.message [97, RecordLog.newline]] ∧
        (noted (actsOf 1 (actsIn events))).2 = [.message [98, RecordLog.newline]] ∧
        sent (actsOf 0 (actsIn events)) = [] ∧
        sent (actsOf 1 (actsIn events)) = [97, 98, RecordLog.newline] :=
    ⟨_, _, rfl, by decide, by decide, by decide, by decide⟩
  obtain ⟨s, hs, _⟩ := run_of_sessions hq
  obtain ⟨ps, l, hl, _, hcontent, hinside, _, hp, hsent⟩ := server_sections hs
  exact ⟨events, s, hs, ps, l, hl, hcontent, hinside, (hp 0).trans h0, (hp 1).trans h1,
    (hsent 0).trans hs0, (hsent 1).trans hs1⟩

end Aesd.DeviceSections
