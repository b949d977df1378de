import Aesd.DeviceSections
import Aesd.WriteLog

namespace Aesd.ServerProgress

open Aesd.Lib.BlockHeap Aesd.Lib.MachineInt Aesd.Lib.Sequence Aesd.Lib.Transition
open Aesd.Driver Aesd.RecordLog Aesd.Refinement Aesd.LogDevice Aesd.ServerThread Aesd.Connection
open Aesd.Rules Aesd.Aesdsocket Aesd.Transactions Aesd.FileThreads Aesd.Sections Aesd.DeviceSections
open Aesd.CircularBuffer (contents)
open Aesd.Lookup (sizes)
open Aesd.Ownership (sizes_eq)
open Aesd.WriteLog (pending_size)

def room (l : Log) : Nat := l.visible.flatten.length + l.openBytes.length

/-- The bytes of the records in the ring, and those pending. -/
def held (k : Kernel) : Nat := (sizes (contents k.dev.circBuf)).sum + k.dev.partialWrite.size

def rest (l : Log) (d : Device) (fd : Nat) : Nat :=
  (d.files fd).elim 0 fun fPos => l.visible.flatten.length - toSizeT fPos

def toWrite : Stage → Nat
  | .writing line .openFile | .writing line (.line _) => line.length + 1
  | .writing _ (.newline _) => 1
  | _ => 0

/-- The calls, from the next one on, after which a thread has asked to give up
the mutex. -/
def left (l : Log) (d : Device) : Stage → Nat
  | .writing line .openFile => 2 * (room l + line.length) + 11
  | .writing line (.line _) => 2 * (room l + line.length) + 10
  | .writing _ (.newline _) => 2 * room l + 9
  | .writing _ (.close _) => 2 * room l + 6
  | .sending .openFile _ => 2 * room l + 5
  | .sending (.ioctl _) _ => 2 * room l + 4
  | .sending (.read fd) _ => 2 * rest l d fd + 3
  | .sending (.sock fd _) _ => 2 * rest l d fd + 4
  | .sending (.close _) _ => 2
  | .unlocking _ => 1
  | _ => 0

variable {d d' : Device} {l : Log} {fd : Nat} {env : Env} {a : Answer}

theorem rest_le (l : Log) (d : Device) (fd : Nat) : rest l d fd ≤ room l := by
  unfold rest room
  cases d.files fd with
  | none => exact Nat.zero_le _
  | some fPos => exact (Nat.sub_le _ _).trans (Nat.le_add_right _ _)

theorem room_eq (hi : Idle d.kernel l) : room l = held d.kernel := by
  rw [room, held, sizes_eq hi.entries, pending_size hi.pending, List.length_flatten]
  rfl

theorem room_accept (l : Log) (bs : List UInt8) (stray : UInt8) :
    room (l.accept bs stray) ≤ room l + bs.length := by
  rw [Log.accept_eq]
  split
  · have h := length_flatten_lastN_snoc (show 0 < 10 by omega) l.records (l.openBytes ++ bs)
    rw [List.length_append] at h
    simp only [room, Log.visible, Log.openBytes, Option.getD_none, List.length_nil] at h ⊢
    omega
  · simp only [room, Log.visible, Log.openBytes, Option.getD_some, List.length_append]
    omega

theorem left_pos {stage : Stage} (h : holding stage = true) : 0 < left l d stage := by
  cases stage with
  | writing line p => cases p <;> simp [left]
  | sending p chunk => cases p <;> simp [left]
  | unlocking failed => simp [left]
  | starting | allocating | receiving acc | growing acc | locking msg | resetting
  | closing freed | exited done leaked => cases h

theorem left_inHelper {stage : Stage} (h : inHelper stage = true) : 1 < left l d stage := by
  obtain ⟨line, p, rfl⟩ | ⟨p, chunk, rfl⟩ := stage_of_inHelper h <;> cases p <;> simp [left]

theorem write_room (hi : Idle d.kernel l) {bytes : List UInt8}
    (h : serveDriver d (.write fd bytes) env = .ok (a, d')) :
    ∃ l', Idle d'.kernel l' ∧ room l' ≤ room l + bytes.length := by
  cases env with
  | wrote env =>
    obtain ⟨⟨_, d₁⟩, hv, h⟩ := bind_ok h
    obtain ⟨rfl, hi₁, _⟩ := vfs_step hi hv
    simp only [Except.ok.injEq, Prod.mk.injEq] at h
    obtain ⟨_, rfl⟩ := h
    refine ⟨_, hi₁, ?_⟩
    have hstay : room l ≤ room l + bytes.length := Nat.le_add_right _ _
    unfold LogDevice.step
    cases hf : d.files fd with
    | none =>
      simp only [DriverOp.file, hf]
      exact hstay
    | some p =>
      simp only [DriverOp.file, hf]
      split
      · exact hstay
      · unfold LogDevice.write State.move
        split
        · exact hstay
        · split
          · have hle := accepted_length bytes env.uncopied
            have hroom := room_accept l (accepted bytes env.uncopied) env.stray
            dsimp only
            omega
          · exact hstay
  | plain _ | kept | opened _ | received _ | fetched _ | sought _ | sent _ _ => cases h

theorem read_rest (hi : Idle d.kernel l) (hfits : l.visible.flatten.length < 2 ^ 63)
    (h : serveDriver d (.read fd sockReadBufSize) env = .ok (a, d')) :
    Idle d'.kernel l ∧ ∀ bs, a = .bytes bs → 0 < bs.length → rest l d' fd < rest l d fd := by
  have hi' := (serve_read' hi h).1
  refine ⟨hi', fun bs ha hpos => ?_⟩
  cases env with
  | fetched env =>
    obtain ⟨⟨_, d₁⟩, hv, h⟩ := bind_ok h
    obtain ⟨rfl, _, hf₁⟩ := vfs_step hi hv
    simp only [Except.ok.injEq, Prod.mk.injEq] at h
    obtain ⟨hans, rfl⟩ := h
    have hbytes : (LogDevice.step ⟨l, d.files⟩ (.read fd sockReadBufSize env)).1.bytes = bs := by
      split at hans
      · rw [ha] at hans
        cases hans
      · rw [ha, Answer.bytes.injEq] at hans
        exact hans
    cases hf : d.files fd with
    | none =>
      simp only [LogDevice.step, DriverOp.file, hf] at hbytes
      rw [← hbytes] at hpos
      exact absurd hpos (Nat.lt_irrefl 0)
    | some z =>
      have hstep : LogDevice.step ⟨l, d.files⟩ (.read fd sockReadBufSize env) =
          (⟨(LogDevice.read l sockReadBufSize z env).1, (LogDevice.read l sockReadBufSize z env).2.1⟩,
            State.move ⟨l, d.files⟩ fd (LogDevice.read l sockReadBufSize z env).2.2) := by
        simp only [LogDevice.step, DriverOp.file, hf]
      rw [hstep] at hbytes hf₁
      have hfd : d₁.files fd = some (LogDevice.read l sockReadBufSize z env).2.2 := by
        rw [hf₁]
        exact Function.update_self ..
      obtain hnil | ⟨got, hgot, hread⟩ := read_cases l sockReadBufSize z env
      · rw [← hbytes, hnil] at hpos
        exact absurd hpos (Nat.lt_irrefl 0)
      · rw [hread] at hfd hbytes
        obtain rfl : got = bs := hbytes
        have hlen := (pieceAt_isPrefix hgot).length_le
        rw [List.length_drop] at hlen
        have hnew : toSizeT (loffT (z + got.length)) = toSizeT z + got.length := by
          rw [toSizeT_loffT, toSizeT_add (by omega)]
        simp only [rest, hf, hfd, Option.elim_some, hnew]
        omega
  | plain _ | kept | opened _ | received _ | wrote _ | sought _ | sent _ _ => cases h

variable {u u' : Session} {req : Request}

def Fits (l : Log) (stage : Stage) : Prop := room l + toWrite stage < 2 ^ 63

theorem helper_room (hi : Idle d.kernel l) (hh : inHelper u.stage = true)
    (hreq : u.request = .ok req) (hd : isDriver req = true)
    (hserve : serveDriver d req env = .ok (a, d')) :
    ∃ l', Idle d'.kernel l' ∧ room l' ≤ room l + toWrite u.stage := by
  unfold Session.request at hreq
  obtain ⟨line, p, hst⟩ | ⟨p, chunk, hst⟩ := stage_of_inHelper hh
  · rw [hst] at hreq ⊢
    cases p with
    | openFile =>
      cases hreq
      exact ⟨l, (serve_openFile' hi hserve).1, Nat.le_add_right _ _⟩
    | line fd =>
      cases hreq
      obtain ⟨l', hi', hroom⟩ := write_room hi hserve
      exact ⟨l', hi', Nat.le_succ_of_le hroom⟩
    | newline fd =>
      cases hreq
      exact write_room hi hserve
    | close fd =>
      cases hreq
      exact ⟨l, serve_close' hi hserve, Nat.le_add_right _ _⟩
  · rw [hst] at hreq ⊢
    cases p with
    | openFile =>
      cases hreq
      exact ⟨l, (serve_openFile' hi hserve).1, Nat.le_add_right _ _⟩
    | ioctl fd =>
      cases hreq
      exact ⟨l, (serve_ioctl' hi hserve).1, Nat.le_add_right _ _⟩
    | read fd =>
      cases hreq
      exact ⟨l, (serve_read' hi hserve).1, Nat.le_add_right _ _⟩
    | sock fd n =>
      cases hreq
      cases hd
    | close fd =>
      cases hreq
      exact ⟨l, serve_close' hi hserve, Nat.le_add_right _ _⟩

theorem driver_left (hi : Idle d.kernel l) (hfits : Fits l u.stage) (hreq : u.request = .ok req)
    (hd : isDriver req = true) (hserve : serveDriver d req env = .ok (a, d'))
    (hres : u.resume a = .ok u') :
    ∃ l', Idle d'.kernel l' ∧ Fits l' u'.stage ∧ left l' d' u'.stage < left l d u.stage := by
  unfold Fits at hfits ⊢
  cases turn_of_resume hreq hres with
  | masked hst | grown hst | received hst | locked hst | sent hst | sentShort hst | unlocked hst
  | released hst | allocated hst | freed hst | logged hst => cases hd
  | opened hst =>
    rw [hst] at hfits ⊢
    exact ⟨l, (serve_openFile' hi hserve).1, hfits, Nat.lt_succ_self _⟩
  | wroteLine hst =>
    obtain ⟨l', hi', hroom⟩ := write_room hi hserve
    rw [hst] at hfits ⊢
    simp only [toWrite, left, Session.goto] at hfits ⊢
    exact ⟨l', hi', by omega, by omega⟩
  | wroteNewline hst =>
    obtain ⟨l', hi', hroom⟩ := write_room hi hserve
    rw [hst] at hfits ⊢
    simp only [toWrite, left, Session.goto, List.length_singleton] at hfits hroom ⊢
    exact ⟨l', hi', by omega, by omega⟩
  | written hst =>
    rw [hst] at hfits ⊢
    exact ⟨l, serve_close' hi hserve, hfits, Nat.lt_succ_self _⟩
  | reopened hst =>
    rw [hst] at hfits ⊢
    exact ⟨l, (serve_openFile' hi hserve).1, hfits, Nat.lt_succ_self _⟩
  | @sought chunk fd r hst =>
    have hle := rest_le l d' fd
    rw [hst] at hfits ⊢
    refine ⟨l, (serve_ioctl' hi hserve).1, hfits, ?_⟩
    simp only [left, Session.goto]
    omega
  | fetched hst h0 hle =>
    rw [hst] at hfits ⊢
    simp only [toWrite, Nat.add_zero] at hfits
    obtain ⟨hi', hrest⟩ := read_rest hi (by unfold room at hfits; omega) hserve
    have hlt := hrest _ rfl h0
    refine ⟨l, hi', hfits, ?_⟩
    simp only [left, Session.goto]
    omega
  | ended hst =>
    rw [hst] at hfits ⊢
    refine ⟨l, (serve_read' hi hserve).1, hfits, ?_⟩
    simp only [left, Session.goto]
    omega
  | replied hst =>
    rw [hst] at hfits ⊢
    exact ⟨l, serve_close' hi hserve, hfits, Nat.lt_succ_self _⟩
  | lost hh =>
    have hin := (holding_request hreq).trans (isInward_of_isDriver hd)
    obtain ⟨_, rfl⟩ := unlocking_of_holding hin hh hreq
    cases hd
  | aborted hh _ =>
    obtain ⟨l', hi', hroom⟩ := helper_room hi hh hreq hd hserve
    exact ⟨l', hi', Nat.lt_of_le_of_lt hroom hfits, left_inHelper hh⟩

theorem other_left (hfits : Fits l u.stage) (hreq : u.request = .ok req)
    (hin : holding u.stage = true) (hd : isDriver req = false) (hu : req ≠ .unlock)
    (hres : u.resume a = .ok u') : Fits l u'.stage ∧ left l d u'.stage < left l d u.stage := by
  unfold Fits at hfits ⊢
  cases turn_of_resume hreq hres with
  | masked hst | grown hst | received hst | locked hst | freed hst | logged hst =>
    rw [hst] at hin
    cases hin
  | allocated hst => obtain hst | hst := hst <;> rw [hst] at hin <;> cases hin
  | opened hst | wroteLine hst | wroteNewline hst | written hst | reopened hst | sought hst
  | fetched hst | ended hst | replied hst => cases hd
  | unlocked hst | released hst => exact absurd rfl hu
  | sent hst =>
    rw [hst] at hfits ⊢
    exact ⟨hfits, Nat.lt_succ_self _⟩
  | sentShort hst =>
    rw [hst] at hfits ⊢
    refine ⟨hfits, ?_⟩
    simp only [left, Session.goto]
    omega
  | lost hh =>
    exact absurd (unlocking_of_holding hin hh hreq).2 hu
  | aborted hh _ => exact ⟨Nat.lt_of_le_of_lt (Nat.le_add_right _ _) hfits, left_inHelper hh⟩

/-- Thread `i` has the mutex, and its unlock is after at most `n` calls of its own. -/
def Away (i : Nat) (q : Sessions) (n : Nat) : Prop :=
  Owned (system q) ∧ ∃ u l, q.threads[i]? = some u ∧ holding u.stage = true ∧
    Idle q.shared.device.kernel l ∧ Fits l u.stage ∧ left l q.shared.device u.stage ≤ n + 1

def isMove (i : Nat) : Label → Bool
  | .thread j _ => j = i
  | .main _ _ => false

variable {q q' : Sessions} {i n : Nat} {e : Event}

theorem others_keep {j : Nat} {req : Request} {s' : Shared} (ho : Owned (system q)) (hij : j ≠ i)
    (hm : q.shared.fileMutex = some i) (hu : q.threads[j]? = some u) (hreq : u.request = .ok req)
    (hserve : serve q.shared j req env = .ok (a, s')) : s' = q.shared := by
  obtain ⟨hd, _⟩ | ⟨_, _, hfree, _⟩ | ⟨_, _, hown, _⟩ | ⟨_, hs, _⟩ := serve_cases hserve
  · have hin := (holding_request hreq).trans (isInward_of_isDriver hd)
    have htask : (system q).tasks j = .connection u := congrArg taskOf hu
    have hown : q.shared.fileMutex = some j := ho.mine j (by rw [htask]; exact hin)
    rw [hm] at hown
    exact absurd (Option.some.inj hown).symm hij
  · rw [hm] at hfree
    cases hfree
  · rw [hm] at hown
    exact absurd (Option.some.inj hown).symm hij
  · exact hs

theorem away_step {label : Label} (hp : Away i q n)
    (hs : q.step sessionProcess label = .ok (e, q')) :
    (∃ a, e = .call i .unlock a) ∨
      ∃ n', Away i q' n' ∧ n' + (if isMove i label then 1 else 0) ≤ n := by
  obtain ⟨ho, u, l, hu, hin, hi, hfits, hleft⟩ := hp
  have htask : (system q).tasks i = .connection u := congrArg taskOf hu
  have hown : q.shared.fileMutex = some i := ho.mine i (by rw [htask]; exact hin)
  cases label with
  | main c o =>
    obtain ⟨ho', _⟩ := main_moves (F := aesdchar) ho hs
    obtain ⟨hshared, hthreads, _⟩ := main_step hs
    have hu' : q'.threads[i]? = some u := by
      obtain ht | ht := hthreads
      · rwa [ht]
      · rwa [ht, List.getElem?_append_left (List.getElem?_eq_some_iff.mp hu).1]
    exact .inr ⟨n, ⟨ho', u, l, hu', hin, by rwa [hshared], hfits, by rwa [hshared]⟩, Nat.le_refl n⟩
  | thread j env =>
    obtain ⟨ho', _⟩ := thread_moves ho hs fun req a _ => servedBy_aesdchar env req a
    obtain ⟨v, req, a, shared, v', hv, hreq, hserve, hres, rfl, rfl⟩ := thread_step hs
    by_cases hij : j = i
    · subst hij
      obtain rfl : u = v := Option.some.inj (hu.symm.trans hv)
      have hlt := (List.getElem?_eq_some_iff.mp hu).1
      have hself : (q.threads.set j v')[j]? = some v' := List.getElem?_set_self hlt
      by_cases hun : req = .unlock
      · exact .inl ⟨a, by rw [hun]⟩
      · right
        have hin' : holding v'.stage = true := (turn_holding hreq hres).1.mpr (.inr ⟨hun, hin⟩)
        have hcount : ∀ l', left l' shared.device v'.stage < left l q.shared.device u.stage →
            left l' shared.device v'.stage ≤ n - 1 + 1 ∧
              n - 1 + (if isMove j (.thread j env) then 1 else 0) ≤ n := by
          intro l' hlt'
          have hpos := left_pos (l := l') (d := shared.device) hin'
          simp only [isMove, decide_true, if_true]
          omega
        obtain ⟨hd, d, hsd, rfl⟩ | ⟨rfl, _⟩ | ⟨rfl, _⟩ | ⟨hd, rfl, _⟩ := serve_cases hserve
        · obtain ⟨l', hi', hfits', hlt'⟩ := driver_left hi hfits hreq hd hsd hres
          obtain ⟨hle, hn⟩ := hcount l' hlt'
          exact ⟨n - 1, ⟨ho', v', l', hself, hin', hi', hfits', hle⟩, hn⟩
        · rw [holding_request hreq] at hin
          cases hin
        · exact absurd rfl hun
        · obtain ⟨hfits', hlt'⟩ := other_left hfits hreq hin hd hun hres
          obtain ⟨hle, hn⟩ := hcount l hlt'
          exact ⟨n - 1, ⟨ho', v', l, hself, hin', hi, hfits', hle⟩, hn⟩
    · have hsh := others_keep ho hij hown hv hreq hserve
      have hu' : (q.threads.set j v')[i]? = some u := by
        rw [List.getElem?_set_ne hij]
        exact hu
      refine .inr ⟨n, ⟨ho', u, l, hu', hin, ?_, hfits, ?_⟩, ?_⟩
      · rw [hsh]
        exact hi
      · rw [hsh]
        exact hleft
      · simp [isMove, hij]

theorem away_run {labels : List Label} {events : List Event} (hp : Away i q n)
    (hx : exec (Server.step sessionProcess) q labels = .ok (events, q')) :
    (∃ a, Event.call i .unlock a ∈ events) ∨
      ∃ n', Away i q' n' ∧ n' + labels.countP (isMove i) ≤ n := by
  obtain ⟨e, he, a, rfl⟩ | h := exec_ranked (P := fun q n => Away i q n)
    (G := fun e => ∃ a, e = Event.call i .unlock a) (fun _ _ _ _ _ hp hs => away_step hp hs) hp hx
  · exact .inl ⟨a, he⟩
  · exact .inr h

/-- What a call can meet with the mutex held: any answer of its own kind. The
descriptor that `open` returns is a new one, and the client lets the `write` to
its socket return. -/
def Meets (d : Device) : Request → Env → Prop
  | .openFile, .opened fd => ∀ n, fd = some n → d.files n = none
  | .write _ _, .wrote _ | .ioctl _ _ _, .sought _ | .read _ _, .fetched _ | .close _, .plain _
  | .send _, .sent _ _ | .unlock, .plain _ => True
  | _, _ => False

/-- Nothing is written while nothing is pending: the driver has no byte for its
newline test. -/
def Lone (d : Device) (req : Request) : Prop :=
  ∃ fd, req = .write fd [] ∧ d.kernel.dev.partialWrite.size = 0

/-- Whatever thread `i` meets at its next call, the call returns and the thread
goes on, unless the driver goes wrong in it over a lone newline. -/
def CanMove {P : Type} (proc : Process P) (s : Server P) (i : Nat) : Prop :=
  ∃ t req, s.threads[i]? = some t ∧ proc.request t = .ok req ∧
    (∃ env, Meets s.shared.device req env) ∧ ∀ env, Meets s.shared.device req env →
      (∃ e s', s.step proc (.thread i env) = .ok (e, s')) ∨
        (Lone s.shared.device req ∧ s.step proc (.thread i env) = .error .outOfBounds)

inductive Sensible : Request → Answer → Prop
  | failed {req : Request} : (∀ fd c o, req ≠ .ioctl fd c o) → Sensible req .failed
  | opened (fd : Nat) : Sensible .openFile (.fd fd)
  | wrote (fd n : Nat) (bytes : List UInt8) : Sensible (.write fd bytes) (.count n)
  | sought (fd c o : Nat) (r : Int) : Sensible (.ioctl fd c o) (.ret r)
  | fetched {fd n : Nat} {bs : List UInt8} : bs.length ≤ n → Sensible (.read fd n) (.bytes bs)
  | closed (fd : Nat) : Sensible (.close fd) .done
  | sent (bytes : List UInt8) (n : Nat) : Sensible (.send bytes) (.count n)
  | unlocked : Sensible .unlock .done

theorem resume_sensible (hin : holding u.stage = true) (hreq : u.request = .ok req)
    (ha : Sensible req a) : ∃ u', u.resume a = .ok u' := by
  unfold Session.request at hreq
  unfold Session.resume
  cases hst : u.stage with
  | writing line p =>
    rw [hst] at hreq
    cases p <;> cases hreq <;> cases ha <;> exact ⟨_, rfl⟩
  | sending p chunk =>
    rw [hst] at hreq
    cases p with
    | read fd =>
      cases hreq
      cases ha with
      | failed => exact ⟨_, rfl⟩
      | @fetched _ _ bs hle =>
        have hle' : ¬ sockReadBufSize < bs.length := Nat.not_lt.mpr hle
        simp only [Session.resumeSend, SendPc.next, hle', if_false, bind, Except.bind]
        by_cases h0 : bs.length = 0
        · simp only [h0, if_true]
          exact ⟨_, rfl⟩
        · simp only [h0, if_false]
          exact ⟨_, rfl⟩
    | sock fd n =>
      cases hreq
      cases ha with
      | failed => exact ⟨_, rfl⟩
      | sent _ m =>
        simp only [Session.resumeSend, SendPc.next, bind, Except.bind]
        by_cases hm : m = n
        · simp only [hm, if_true]
          exact ⟨_, rfl⟩
        · simp only [hm, if_false]
          exact ⟨_, rfl⟩
    | openFile | close fd =>
      cases hreq
      cases ha <;> exact ⟨_, rfl⟩
    | ioctl fd =>
      cases hreq
      cases ha with
      | failed hno => exact absurd rfl (hno _ _ _)
      | sought => exact ⟨_, rfl⟩
  | unlocking failed =>
    rw [hst] at hreq
    cases hreq
    cases failed <;> cases ha <;> exact ⟨_, rfl⟩
  | starting | allocating | receiving acc | growing acc | locking msg | resetting
  | closing freed | exited done leaked =>
    rw [hst] at hin
    cases hin

theorem read_bytes_le (l : Log) (files : Nat → Option Int) (count : Nat) (env : ReadEnv) :
    (LogDevice.step ⟨l, files⟩ (.read fd count env)).1.bytes.length ≤ count := by
  unfold LogDevice.step
  cases hf : files fd with
  | none =>
    simp only [DriverOp.file, hf]
    exact Nat.zero_le _
  | some z =>
    simp only [DriverOp.file, hf]
    obtain hnil | ⟨got, hgot, hread⟩ := read_cases l count z env
    · rw [hnil]
      exact Nat.zero_le _
    · rw [hread]
      exact pieceAt_length_le hgot

theorem driver_meets (hi : Idle d.kernel l) (hd : isDriver req = true) (hm : Meets d req env) :
    (∃ a d', serveDriver d req env = .ok (a, d') ∧ Sensible req a) ∨
      (Lone d req ∧ serveDriver d req env = .error .outOfBounds) := by
  have himp : Implements d ⟨l, d.files⟩ := ⟨hi, rfl⟩
  cases req with
  | openFile =>
    cases env with
    | opened fd =>
      left
      cases fd with
      | none => exact ⟨_, _, rfl, .failed (by simp)⟩
      | some fd =>
        have hfree : d.files fd = none := hm fd rfl
        refine ⟨.fd fd, { d with files := Function.update d.files fd (some 0) }, ?_, .opened fd⟩
        simp only [serveDriver, vfsStep, hfree, bind, Except.bind]
        rfl
    | plain _ | kept | received _ | wrote _ | fetched _ | sought _ | sent _ _ => exact hm.elim
  | write fd bytes =>
    cases env with
    | wrote env =>
      simp only [serveDriver, bind, Except.bind]
      obtain ⟨⟨_, hoops⟩, he⟩ | ⟨_, d', hd', _⟩ := vfs_cases himp (.write fd bytes env)
      · right
        obtain ⟨hopen, rfl⟩ := List.append_eq_nil_iff.mp hoops.2.2
        have hsize : d.kernel.dev.partialWrite.size = 0 := by
          rw [pending_size hi.pending]
          exact congrArg List.length hopen
        rw [he]
        exact ⟨⟨fd, rfl, hsize⟩, rfl⟩
      · left
        rw [hd']
        refine ⟨_, _, rfl, ?_⟩
        split
        · exact .failed (by simp)
        · exact .wrote ..
    | plain _ | kept | opened _ | received _ | fetched _ | sought _ | sent _ _ => exact hm.elim
  | ioctl fd c o =>
    cases env with
    | sought env =>
      left
      have hno : ¬ Oopses ⟨l, d.files⟩ (.ioctl fd aesdcharIocseekto ⟨c, o⟩ env) := id
      obtain ⟨d', hd', _⟩ := vfs_implements himp hno
      simp only [serveDriver, hd', bind, Except.bind]
      exact ⟨_, _, rfl, .sought ..⟩
    | plain _ | kept | opened _ | received _ | wrote _ | fetched _ | sent _ _ => exact hm.elim
  | read fd count =>
    cases env with
    | fetched env =>
      left
      have hno : ¬ Oopses ⟨l, d.files⟩ (.read fd count env) := id
      obtain ⟨d', hd', _⟩ := vfs_implements himp hno
      simp only [serveDriver, hd', bind, Except.bind]
      refine ⟨_, _, rfl, ?_⟩
      split
      · exact .failed (by simp)
      · exact .fetched (read_bytes_le l d.files count env)
    | plain _ | kept | opened _ | received _ | wrote _ | sought _ | sent _ _ => exact hm.elim
  | close fd =>
    cases env with
    | plain fails =>
      left
      have hno : ¬ Oopses ⟨l, d.files⟩ (.release fd) := id
      obtain ⟨d', hd', _⟩ := vfs_implements himp hno
      simp only [serveDriver, hd', bind, Except.bind]
      refine ⟨_, _, rfl, ?_⟩
      cases fails with
      | true => exact .failed (by simp)
      | false => exact .closed fd
    | kept | opened _ | received _ | wrote _ | fetched _ | sought _ | sent _ _ => exact hm.elim
  | sigmask | alloc | recv | lock | unlock | send bytes | free | syslog => cases hd

theorem request_of_holding (hin : holding u.stage = true) :
    ∃ req, u.request = .ok req ∧ isInward req = true := by
  obtain ⟨req, hreq⟩ : ∃ req, u.request = .ok req := by
    unfold Session.request
    cases hst : u.stage with
    | writing line p | sending p chunk => cases p <;> exact ⟨_, rfl⟩
    | unlocking failed => exact ⟨_, rfl⟩
    | starting | allocating | receiving acc | growing acc | locking msg | resetting
    | closing freed | exited done leaked =>
      rw [hst] at hin
      cases hin
  exact ⟨req, hreq, (holding_request hreq).symm.trans hin⟩

theorem exists_meets (d : Device) (hin : isInward req = true) : ∃ env, Meets d req env := by
  cases req with
  | openFile => exact ⟨.opened none, fun n h => by cases h⟩
  | write fd bytes => exact ⟨.wrote ⟨false, false, 0, 0⟩, trivial⟩
  | ioctl fd c o => exact ⟨.sought ⟨false, false⟩, trivial⟩
  | read fd count => exact ⟨.fetched ⟨false, 0⟩, trivial⟩
  | close fd | unlock => exact ⟨.plain false, trivial⟩
  | send bytes => exact ⟨.sent false 0, trivial⟩
  | sigmask | alloc | recv | lock | free | syslog => cases hin

theorem serve_meets {s : Shared} (hi : Idle s.device.kernel l) (hown : s.fileMutex = some i)
    (hin : isInward req = true) (hm : Meets s.device req env) :
    (∃ a s', serve s i req env = .ok (a, s') ∧ Sensible req a) ∨
      (Lone s.device req ∧ serve s i req env = .error .outOfBounds) := by
  cases hd : isDriver req with
  | true =>
    obtain ⟨a, d', hs, ha⟩ | ⟨hlone, hs⟩ := driver_meets hi hd hm
    · exact .inl ⟨a, _, by rw [serve_driver hd, hs]; rfl, ha⟩
    · exact .inr ⟨hlone, by rw [serve_driver hd, hs]; rfl⟩
  | false =>
    left
    cases req with
    | send bytes =>
      cases env with
      | sent fails short =>
        cases fails with
        | true => exact ⟨.failed, _, rfl, .failed (by simp)⟩
        | false => exact ⟨_, _, rfl, .sent ..⟩
      | plain _ | kept | opened _ | received _ | wrote _ | fetched _ | sought _ => exact hm.elim
    | unlock =>
      cases env with
      | plain fails =>
        cases fails with
        | true => exact ⟨.failed, _, rfl, .failed (by simp)⟩
        | false =>
          have hserve : serve s i .unlock (.plain false) = .ok (.done, { s with fileMutex := none }) := by
            simp only [serve, hown, if_true]
          exact ⟨_, _, hserve, .unlocked⟩
      | kept | opened _ | received _ | wrote _ | fetched _ | sought _ | sent _ _ => exact hm.elim
    | openFile | write fd bytes | ioctl fd c o | read fd count | close fd => cases hd
    | sigmask | alloc | recv | lock | free | syslog => cases hin

/-- The thread that has the mutex can always make its next call. -/
theorem away_moves (hp : Away i q n) : CanMove sessionProcess q i := by
  obtain ⟨ho, u, l, hu, hin, hi, _, _⟩ := hp
  have htask : (system q).tasks i = .connection u := congrArg taskOf hu
  have hown : q.shared.fileMutex = some i := ho.mine i (by rw [htask]; exact hin)
  obtain ⟨req, hreq, hinward⟩ := request_of_holding hin
  have hreq' : sessionProcess.request u = .ok req := hreq
  refine ⟨u, req, hu, hreq, exists_meets _ hinward, fun env hm => ?_⟩
  obtain ⟨a, shared, hserve, ha⟩ | ⟨hlone, hserve⟩ := serve_meets hi hown hinward hm
  · obtain ⟨u', hu'⟩ := resume_sensible hin hreq ha
    have hres : sessionProcess.resume u a = .ok u' := hu'
    refine .inl ⟨.call i req a, { q with shared := shared, threads := q.threads.set i u' }, ?_⟩
    simp only [Server.step, hu, hreq', hserve, hres, bind, Except.bind]
  · refine .inr ⟨hlone, ?_⟩
    simp only [Server.step, hu, hreq', hserve, bind, Except.bind]

theorem CanMove.agrees {s : Server Thread} (ha : Agrees s q) (h : CanMove sessionProcess q i) :
    CanMove threadProcess s i := by
  obtain ⟨u, req, hu, hreq, hmeets, hall⟩ := h
  obtain ⟨ht, hu'⟩ | ⟨t, u', ht, hu', hsim⟩ := forall₂_getElem? ha.threads i
  · rw [hu] at hu'
    cases hu'
  · obtain rfl : u = u' := Option.some.inj (hu.symm.trans hu')
    have hreq' : threadProcess.request t = .ok req := hsim.request.trans hreq
    rw [← ha.shared] at hmeets hall
    refine ⟨t, req, ht, hreq', hmeets, fun env hm => ?_⟩
    have href := agrees_step ha (.thread i env)
    obtain ⟨e, q', hs⟩ | ⟨hlone, hs⟩ := hall env hm
    · rw [hs] at href
      obtain ⟨s', hs', _⟩ := href
      exact .inl ⟨e, s', hs'⟩
    · rw [hs] at href
      exact .inr ⟨hlone, href⟩

theorem gone_not_holding {stage : Stage} (hg : Gone stage) : holding stage = false := by
  cases stage with
  | exited done leaked => rfl
  | starting | allocating | receiving acc | growing acc | locking msg | writing line p
  | sending p chunk | unlocking failed | resetting | closing freed => exact hg.elim

def Explained (events : List Event) (q : Sessions) : Prop :=
  ∀ i u, q.threads[i]? = some u → q.shared.fileMutex = some i → Gone u.stage →
    Event.call i .unlock .failed ∈ events

theorem explained_step {events : List Event} {label : Label} (ho : Owned (system q))
    (hex : Explained events q) (hs : q.step sessionProcess label = .ok (e, q')) :
    Explained (events ++ [e]) q' := by
  intro i u hu hm hg
  cases label with
  | main c o =>
    obtain ⟨hshared, hthreads, _⟩ := main_step hs
    rw [hshared] at hm
    have hlt : i < q.threads.length := by
      by_contra hge
      have habsent : (system q).tasks i = .absent :=
        congrArg taskOf (List.getElem?_eq_none (Nat.le_of_not_lt hge))
      obtain h | h := ho.held i hm <;> rw [habsent] at h <;> cases h
    have hu' : q.threads[i]? = some u := by
      obtain ht | ht := hthreads <;> rw [ht] at hu
      · exact hu
      · rwa [List.getElem?_append_left hlt] at hu
    exact List.mem_append_left _ (hex i u hu' hm hg)
  | thread j env =>
    obtain ⟨v, req, a, shared, v', hv, hreq, hserve, hres, rfl, rfl⟩ := thread_step hs
    by_cases hij : j = i
    · subst hij
      have hlt := (List.getElem?_eq_some_iff.mp hv).1
      have hself : (q.threads.set j v')[j]? = some u := hu
      rw [List.getElem?_set_self hlt, Option.some.injEq] at hself
      subst hself
      obtain ⟨hafter, _⟩ := turn_holding hreq hres
      have hnot : ¬ holding v'.stage = true := by
        rw [gone_not_holding hg]
        simp
      have htask : (system q).tasks j = .connection v := congrArg taskOf hv
      have halive : ¬ Gone v.stage := fun h => by
        have hreq' : v.request = .ok req := hreq
        rw [gone_request h] at hreq'
        cases hreq'
      obtain ⟨hd, _⟩ | ⟨rfl, rfl, _⟩ | ⟨rfl, rfl, _, rfl⟩ | ⟨_, rfl, hfail⟩ := serve_cases hserve
      · have hne : req ≠ .unlock := by
          rintro rfl
          cases hd
        have hin := (holding_request hreq).trans (isInward_of_isDriver hd)
        exact absurd (hafter.mpr (.inr ⟨hne, hin⟩)) hnot
      · exact absurd (hafter.mpr (.inl ⟨rfl, rfl⟩)) hnot
      · cases hm
      · have hin : holding v.stage = true := by
          obtain h | h := ho.held j hm <;> rw [htask] at h
          · exact h
          · exact absurd h halive
        have hun : req = .unlock := by
          by_contra hne
          exact hnot (hafter.mpr (.inr ⟨hne, hin⟩))
        rw [hun, hfail (.inr hun)]
        exact List.mem_append_right _ (List.mem_singleton.mpr rfl)
    · have hu' : q.threads[i]? = some u := by
        have hset : (q.threads.set j v')[i]? = some u := hu
        rwa [List.getElem?_set_ne hij] at hset
      have hm' : q.shared.fileMutex = some i := by
        obtain ⟨_, d, _, rfl⟩ | ⟨_, _, _, rfl⟩ | ⟨_, _, _, rfl⟩ | ⟨_, rfl, _⟩ := serve_cases hserve
        · exact hm
        · exact absurd (Option.some.inj hm) hij
        · cases hm
        · exact hm
      exact List.mem_append_left _ (hex i u hu' hm' hg)

theorem run_explained {labels : List Label} {events : List Event}
    (hx : exec (Server.step sessionProcess) Server.init labels = .ok (events, q)) :
    Explained events q := by
  refine exec_history (I := fun _ events q => Explained events q) ?_ ?_ hx
  · intro i u hu
    simp [Server.init] at hu
  · intro labels events q label e q' hx hex hs
    exact explained_step (run_moves hx fun _ env req a _ _ => servedBy_aesdchar env req a).1 hex hs

theorem toWrite_le {t : Thread} (h : Simulates t u) : toWrite u.stage ≤ reallocLimit + 1 := by
  have hm := h.memory
  cases hst : u.stage with
  | writing line p =>
    rw [hst] at hm
    cases p with
    | openFile | line fd =>
      obtain ⟨_, n, _, hb⟩ := hm
      have hle : line.length ≤ n := hb.holds.length_le
      have hsize := hb.size_le
      simp only [toWrite]
      omega
    | newline fd => exact Nat.succ_le_succ (Nat.zero_le _)
    | close fd => exact Nat.zero_le _
  | starting | allocating | receiving acc | growing acc | locking msg | sending p chunk
  | unlocking failed | resetting | closing freed | exited done leaked => exact Nat.zero_le _

theorem left_le (l : Log) (d : Device) (stage : Stage) :
    left l d stage ≤ 2 * (room l + (toWrite stage - 1)) + 11 := by
  have hrest := rest_le l d
  cases stage with
  | writing line p => cases p <;> simp only [left, toWrite] <;> omega
  | sending p chunk =>
    cases p with
    | read fd | sock fd n =>
      have h := hrest fd
      simp only [left, toWrite]
      omega
    | openFile | ioctl fd | close fd =>
      simp only [left, toWrite]
      omega
  | starting | allocating | receiving acc | growing acc | locking msg | unlocking failed
  | resetting | closing freed | exited done leaked =>
    simp only [left]
    omega

/-- The mutex is never lost but by an unlock that fails, or by a lone newline
that the driver goes wrong over: until it asks to give up the mutex a thread can
always make its next call, whatever the other threads do, and it asks to after a
number of its own calls that depends on what the device holds. -/
theorem mutex_comes_back {labels : List Label} {events : List Event} {s : Server Thread} {i : Nat}
    (hx : exec (Server.step threadProcess) Server.init labels = .ok (events, s))
    (hm : s.shared.fileMutex = some i) :
    Event.call i .unlock .failed ∈ events ∨
      (held s.shared.device.kernel + reallocLimit + 1 < 2 ^ 63 →
        ∀ labels' events' s', exec (Server.step threadProcess) s labels' = .ok (events', s') →
          (∃ a, Event.call i .unlock a ∈ events') ∨ (CanMove threadProcess s' i ∧
            labels'.countP (isMove i) < 2 * (held s.shared.device.kernel + reallocLimit) + 11)) := by
  obtain ⟨q, hq, hagree⟩ := run_agrees hx
  obtain ⟨ho, hrun⟩ := run_moves hq fun _ env req a _ _ => servedBy_aesdchar env req a
  have hstands : aesdchar.stands (system Server.init).shared Log.empty := idle_init
  obtain ⟨ps, l, hl, _⟩ := Pieces.run_pieces hstands hrun
  have hown : q.shared.fileMutex = some i := by rwa [← hagree.shared]
  obtain ⟨ht, hu⟩ | ⟨t, u, ht, hu, hsim⟩ := forall₂_getElem? hagree.threads i
  · have habsent : (system q).tasks i = .absent := congrArg taskOf hu
    obtain h | h := ho.held i hown <;> rw [habsent] at h <;> cases h
  · have htask : (system q).tasks i = .connection u := congrArg taskOf hu
    obtain h | h := ho.held i hown <;> rw [htask] at h
    · right
      intro hfits labels' events' s' hx'
      have hroom : room l = held s.shared.device.kernel := by
        rw [hagree.shared]
        exact room_eq hl
      rw [← hroom] at hfits ⊢
      have hline := toWrite_le hsim
      have hleft := left_le l q.shared.device u.stage
      have hpos := left_pos (l := l) (d := q.shared.device) h
      obtain ⟨q', hq', hagree'⟩ := (exec_refines (fun _ _ a h => agrees_step h a) hagree labels').of_ok hx'
      have hbound : Fits l u.stage := Nat.lt_of_le_of_lt (Nat.add_le_add_left hline _) hfits
      have haway : Away i q (left l q.shared.device u.stage - 1) :=
        ⟨ho, u, l, hu, h, hl, hbound, by omega⟩
      obtain hun | ⟨n', haway', hle⟩ := away_run haway hq'
      · exact .inl hun
      · exact .inr ⟨(away_moves haway').agrees hagree', by omega⟩
    · exact .inl (run_explained hq i u hu hown h)

/-- The first thread has the mutex and waits for its line to be written; the
second one waits for the mutex. -/
def halfWay : List Label :=
  [.main 0 0, .main 0 0, .main 0 0, .main 0 0, .main 0 0, .main 0 0,
    .thread 0 (.plain false), .thread 1 (.plain false), .thread 0 (.plain false),
    .thread 1 (.plain false), .thread 0 (.received (some [97, newline])), .thread 0 (.plain false),
    .thread 1 (.received (some [98, newline])), .thread 0 (.opened (some 3))]

theorem halfWay_comes_back : ∃ events, ∃ s : Server Thread,
    exec (Server.step threadProcess) Server.init halfWay = .ok (events, s) ∧
      s.shared.fileMutex = some 0 ∧
      ∀ labels' events' s', exec (Server.step threadProcess) s labels' = .ok (events', s') →
        (∃ a, Event.call 0 .unlock a ∈ events') ∨ (CanMove threadProcess s' 0 ∧
          labels'.countP (isMove 0) < 2 * reallocLimit + 11) := by
  obtain ⟨events, q, hq, hm, hheld, hno⟩ : ∃ events, ∃ q : Sessions,
      exec (Server.step sessionProcess) Server.init halfWay = .ok (events, q) ∧
        q.shared.fileMutex = some 0 ∧ held q.shared.device.kernel = 0 ∧
        Event.call 0 .unlock .failed ∉ events :=
    ⟨_, _, rfl, rfl, rfl, by decide⟩
  obtain ⟨s, hs, hag⟩ := run_of_sessions hq
  have hown : s.shared.fileMutex = some 0 := by rwa [hag.shared]
  obtain hfail | hback := mutex_comes_back hs hown
  · exact absurd hfail hno
  · rw [hag.shared, hheld, Nat.zero_add] at hback
    refine ⟨events, s, hs, hown, hback ?_⟩
    unfold reallocLimit
    omega

end Aesd.ServerProgress
