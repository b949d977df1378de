import Aesd.FilePosition
import Aesd.RecordCalls

namespace Aesd.Transactions

open Aesd.Lib.BlockHeap Aesd.Lib.MachineInt Aesd.Lib.Sequence Aesd.Lib.Transition Aesd.CString
open Aesd.BoundedFifo Aesd.Lookup Aesd.Driver Aesd.RecordLog Aesd.Refinement Aesd.Ownership
open Aesd.FilePosition Aesd.ServerThread Aesd.Connection Aesd.Rules Aesd.Aesdsocket
open Aesd.RecordCalls

def seekTarget (msg : List UInt8) : Nat × Nat :=
  if isCommand msg then ((seekOf msg).1.getD 0, (seekOf msg).2.getD 0) else (0, 0)

/-- The position that coordinates stand for, or the start if they are out of range. -/
def seekStart (visible : List (List UInt8)) (target : Nat × Nat) : Nat :=
  match visible[target.1]? with
  | none => 0
  | some record =>
    if target.2 < record.length then (visible.take target.1).flatten.length + target.2 else 0

/-- What the server is for, one message at a time: a message that is no command
becomes a record, and the reply is the last ten records from where it asks. -/
def handle (records : List (List UInt8)) (msg : List UInt8) : List (List UInt8) × List UInt8 :=
  let records := if isCommand msg then records else records ++ [lineOf msg ++ [newline]]
  let visible := lastN 10 records
  (records, visible.flatten.drop (seekStart visible (seekTarget msg)))

/-- A seek command with both its numbers, or a line that is not empty. -/
def Good (msg : List UInt8) : Prop :=
  if isCommand msg then (seekOf msg).1.isSome ∧ (seekOf msg).2.isSome else lineOf msg ≠ []

instance (msg : List UInt8) : Decidable (Good msg) := by
  unfold Good
  infer_instance

theorem handle_command (records : List (List UInt8)) {msg : List UInt8}
    (hc : isCommand msg = true) : (handle records msg).1 = records := by
  simp [handle, hc]

theorem handle_line (records : List (List UInt8)) {msg : List UInt8}
    (hc : isCommand msg = false) :
    (handle records msg).1 = records ++ [lineOf msg ++ [newline]] := by
  simp [handle, hc]

theorem handle_reply (records : List (List UInt8)) (msg : List UInt8) :
    (handle records msg).2 = (lastN 10 (handle records msg).1).flatten.drop
      (seekStart (lastN 10 (handle records msg).1) (seekTarget msg)) := rfl

def Small (records : List (List UInt8)) : Prop := ∀ r ∈ records, r.length ≤ reallocLimit + 1

theorem reallocLimit_lt : reallocLimit < 2 ^ 31 := by
  unfold reallocLimit
  omega

theorem Small.handle {records : List (List UInt8)} (hs : Small records) {msg : List UInt8}
    (hm : msg.length ≤ reallocLimit) : Small (handle records msg).1 := by
  cases hc : isCommand msg with
  | true => rwa [handle_command records hc]
  | false =>
    rw [handle_line records hc]
    intro r hr
    obtain hr | hr := List.mem_append.mp hr
    · exact hs r hr
    · have hline := (lineOf_isPrefix msg).length_le
      rw [List.mem_singleton.mp hr, List.length_append, List.length_singleton]
      omega

theorem Small.visible_lt {records : List (List UInt8)} (hs : Small records) :
    (lastN 10 records).flatten.length < 2 ^ 63 := by
  have hlt := reallocLimit_lt
  have hsum : ∀ rs : List (List UInt8), Small rs →
      rs.flatten.length ≤ rs.length * (reallocLimit + 1) := by
    intro rs hrs
    induction rs with
    | nil => simp
    | cons r rs ih =>
      have hr := hrs r List.mem_cons_self
      have hrest := ih fun s hs => hrs s (List.mem_cons_of_mem _ hs)
      rw [List.flatten_cons, List.length_append, List.length_cons, Nat.succ_mul]
      omega
  have h := hsum (lastN 10 records) fun r hr => hs r (lastN_subset 10 records hr)
  have hle : (lastN 10 records).length * (reallocLimit + 1) ≤ 10 * (reallocLimit + 1) := by
    apply Nat.mul_le_mul_right
    rw [length_lastN]
    exact Nat.min_le_left _ _
  omega

/-- Nothing fails, is interrupted or copies short. -/
def clean : Env → Bool
  | .plain fails => !fails
  | .kept => true
  | .opened fd => fd.isSome
  | .received bs => bs.isSome
  | .wrote env => !env.interrupted && env.granted && env.uncopied == 0
  | .fetched env => !env.interrupted && env.uncopied == 0
  | .sought env => !env.faults && !env.interrupted
  | .sent fails short => !fails && short == 0

variable {d d' : Device} {l : Log} {fd : Nat} {env : Env} {a : Answer}

theorem openFile_cases (h : serveDriver d .openFile env = .ok (a, d')) :
    (env = .opened none ∧ a = .failed ∧ d' = d) ∨
      ∃ fd, a = .fd fd ∧ d.files fd = none ∧
        d' = { d with files := Function.update d.files fd (some 0) } := by
  cases env with
  | opened fd =>
    cases fd with
    | none =>
      cases h
      exact .inl ⟨rfl, rfl, rfl⟩
    | some fd =>
      cases hf : d.files fd with
      | some p => simp [serveDriver, vfsStep, hf, ebadf, bind, Except.bind] at h
      | none =>
        simp only [serveDriver, vfsStep, hf, bind, Except.bind, Int.lt_irrefl, if_false,
          Except.ok.injEq, Prod.mk.injEq] at h
        exact .inr ⟨fd, h.1.symm, hf, h.2.symm⟩
  | plain _ | kept | received _ | wrote _ | fetched _ | sought _ | sent _ _ => cases h

theorem serve_openFile (h : serveDriver d .openFile env = .ok (a, d')) (hc : clean env = true) :
    ∃ fd, a = .fd fd ∧ d'.kernel = d.kernel ∧ d'.files fd = some 0 := by
  obtain ⟨rfl, _⟩ | ⟨fd, ha, _, rfl⟩ := openFile_cases h
  · cases hc
  · exact ⟨fd, ha, rfl, Function.update_self _ _ _⟩

theorem serve_close (h : serveDriver d (.close fd) env = .ok (a, d')) (hc : clean env = true) :
    a = .done ∧ d'.kernel = d.kernel := by
  cases env with
  | plain fails =>
    obtain rfl : fails = false := by simpa [clean] using hc
    simp only [serveDriver, vfsStep, bind, Except.bind, Bool.false_eq_true, if_false,
      Except.ok.injEq, Prod.mk.injEq] at h
    obtain ⟨rfl, rfl⟩ := h
    exact ⟨rfl, rfl⟩
  | kept | opened _ | received _ | wrote _ | fetched _ | sought _ | sent _ _ => cases h

theorem serve_line (hi : Idle d.kernel l) {bytes : List UInt8} {p : Int}
    (hf : d.files fd = some p) (hroom : l.openBytes.length + bytes.length ≤ kmallocLimit)
    (h : serveDriver d (.write fd bytes) env = .ok (a, d')) (hc : clean env = true) :
    ∃ n stray, a = .count n ∧ Idle d'.kernel (l.accept bytes stray) ∧ ∃ p, d'.files fd = some p := by
  cases env with
  | wrote env =>
    obtain ⟨⟨hni, hg⟩, hu⟩ : (env.interrupted = false ∧ env.granted = true) ∧ env.uncopied = 0 := by
      simpa [clean] using hc
    have hnot : ¬ Refused env (l.openBytes.length + bytes.length) := by
      simp [Refused, hni, hg, hroom]
    have hacc : accepted bytes env.uncopied = bytes := by
      rw [accepted, hu, Nat.zero_min, Nat.sub_zero, List.take_length]
    have ha : afterWrite l bytes env = some (l.accept bytes env.stray) := by
      rw [afterWrite, if_neg hnot, hacc]
    obtain ⟨hnone, _⟩ | ⟨l', n, q, hl', rfl, hi', hf'⟩ := serve_write hi hf h
    · rw [ha] at hnone
      cases hnone
    · rw [ha, Option.some.injEq] at hl'
      exact ⟨n, env.stray, rfl, hl' ▸ hi', q, hf'⟩
  | plain _ | kept | opened _ | received _ | fetched _ | sought _ | sent _ _ => cases h

theorem seekStart_le (visible : List (List UInt8)) (target : Nat × Nat) :
    seekStart visible target ≤ visible.flatten.length := by
  unfold seekStart
  cases hr : visible[target.1]? with
  | none => exact Nat.zero_le _
  | some record =>
    dsimp only
    split
    · obtain ⟨hlt, rfl⟩ := List.getElem?_eq_some_iff.mp hr
      have hlt' : target.1 < (visible.map List.length).length := by rwa [List.length_map]
      have hsum := sum_take_add_getElem_le hlt'
      rw [List.getElem_map, ← List.map_take, ← List.length_flatten, ← List.length_flatten] at hsum
      omega
    · exact Nat.zero_le _

theorem seekStart_inRange {h : Heap} {es : List CircularBuffer.AesdBufferEntry}
    {visible : List (List UInt8)} (hs : List.Forall₂ (Stored h) es visible) (c o : Nat) :
    (InRange es c o → seekStart visible (c, o) = ((sizes es).take c).sum + o) ∧
      (¬ InRange es c o → seekStart visible (c, o) = 0) := by
  have hlen := hs.length_eq
  unfold seekStart InRange
  dsimp only
  by_cases hc : c < es.length
  · have hc' : c < visible.length := hlen ▸ hc
    have hst : Stored h es[c] visible[c] := hs.get hc hc'
    rw [List.getElem?_eq_getElem hc']
    dsimp only
    rw [← hst.1]
    constructor
    · rintro ⟨_, ho⟩
      rw [if_pos ho, sizes_eq hs, List.length_flatten, List.map_take]
    · intro hno
      exact if_neg fun ho => hno ⟨hc, ho⟩
  · rw [List.getElem?_eq_none (by omega)]
    exact ⟨fun ⟨h, _⟩ => absurd h hc, fun _ => rfl⟩

theorem serve_ioctl (hi : Idle d.kernel l) (hv : l.visible.flatten.length < 2 ^ 63)
    (hf : d.files fd = some 0) {c o : Nat}
    (h : serveDriver d (.ioctl fd c o) env = .ok (a, d')) (hc : clean env = true) :
    ∃ r, a = .ret r ∧ d'.kernel = d.kernel ∧
      d'.files fd = some ((seekStart l.visible (c, o) : Nat) : Int) := by
  cases env with
  | sought env =>
    obtain ⟨hnf, hni⟩ : env.faults = false ∧ env.interrupted = false := by
      simpa [clean] using hc
    have hsizes := sizes_eq hi.entries
    have hsum : (sizes (CircularBuffer.contents d.kernel.dev.circBuf)).sum < 2 ^ 63 := by
      rw [hsizes, ← List.length_flatten]
      exact hv
    obtain ⟨hin, hout⟩ := seekStart_inRange hi.entries c o
    have hadj := adjust_spec hi.unlocked hi.ring (entries_ne_null hi.entries) hsum c o 0
    simp only [serveDriver, vfsStep, hf, aesdUnlockedIoctl, hnf, hni, Bool.false_eq_true,
      if_false, if_true, bind, Except.bind] at h
    obtain ⟨hr, hadj⟩ | ⟨hr, hadj⟩ := hadj
    · simp only [hadj, Device.finish, Except.ok.injEq, Prod.mk.injEq] at h
      obtain ⟨rfl, rfl⟩ := h
      refine ⟨_, rfl, rfl, (Function.update_self _ _ _).trans ?_⟩
      rw [Log.visible, hin hr]
    · simp only [hadj, Device.finish, Except.ok.injEq, Prod.mk.injEq] at h
      obtain ⟨rfl, rfl⟩ := h
      refine ⟨_, rfl, rfl, (Function.update_self _ _ _).trans ?_⟩
      rw [Log.visible, hout hr]
      rfl
  | plain _ | kept | opened _ | received _ | wrote _ | fetched _ | sent _ _ => cases h

theorem serve_read (hi : Idle d.kernel l) (hv : l.visible.flatten.length < 2 ^ 63) {pos : Nat}
    (hf : d.files fd = some (pos : Int)) (hpos : pos ≤ l.visible.flatten.length)
    (h : serveDriver d (.read fd sockReadBufSize) env = .ok (a, d')) (hc : clean env = true) :
    ∃ got, a = .bytes got ∧ d'.kernel = d.kernel ∧
      d'.files fd = some ((pos + got.length : Nat) : Int) ∧
      pos + got.length ≤ l.visible.flatten.length ∧
      got ++ l.visible.flatten.drop (pos + got.length) = l.visible.flatten.drop pos ∧
      (got = [] → l.visible.flatten.drop pos = []) := by
  cases env with
  | fetched env =>
    obtain ⟨hni, hu⟩ : env.interrupted = false ∧ env.uncopied = 0 := by simpa [clean] using hc
    have hread := read_spec hi sockReadBufSize (pos : Int) env hni
    rw [hu, toSizeT_natCast (by omega), Log.readAt] at hread
    cases hp : pieceAt l.visible pos sockReadBufSize 0 with
    | none =>
      have hend := (pieceAt_eq_none_iff _ _ _ _).mp hp
      rw [hp] at hread
      simp only [serveDriver, vfsStep, hf, hread, bind, Except.bind, Int.lt_irrefl, if_false,
        Except.ok.injEq, Prod.mk.injEq] at h
      obtain ⟨rfl, rfl⟩ := h
      exact ⟨[], rfl, rfl, Function.update_self _ _ _, hpos, rfl,
        fun _ => List.drop_of_length_le hend⟩
    | some got =>
      have happ := pieceAt_append hp
      have hne := pieceAt_ne_nil (by decide) hp
      have hle : pos + got.length ≤ l.visible.flatten.length := by
        have hlen := congrArg List.length happ
        rw [List.length_append, List.length_drop, List.length_drop] at hlen
        have hgot := List.length_pos_iff.mpr hne
        omega
      rw [hp] at hread
      have hneg : ¬ ((got.length : Int) < 0) := by omega
      simp only [serveDriver, vfsStep, hf, hread, bind, Except.bind, hneg, if_false,
        Except.ok.injEq, Prod.mk.injEq] at h
      obtain ⟨rfl, rfl⟩ := h
      refine ⟨got, rfl, rfl, (Function.update_self _ _ _).trans ?_, hle, happ,
        fun he => absurd he hne⟩
      rw [loffT_of_lt (by omega) (by omega), Int.natCast_add]
  | plain _ | kept | opened _ | received _ | wrote _ | sought _ | sent _ _ => cases h

def isDriver : Request → Bool
  | .openFile | .write _ _ | .ioctl _ _ _ | .read _ _ | .close _ => true
  | _ => false

theorem serve_driver {s : Shared} {i : Nat} {req : Request} (hd : isDriver req = true) :
    serve s i req env =
      (serveDriver s.device req env).map fun p => (p.1, { s with device := p.2 }) := by
  cases req with
  | openFile | write fd bytes | ioctl fd c o | read fd n | close fd => cases env <;> rfl
  | sigmask | alloc | recv | lock | unlock | send bytes | free | syslog => cases hd

theorem serve_device {s s' : Shared} {i : Nat} {req : Request} (hd : isDriver req = true)
    (h : serve s i req env = .ok (a, s')) :
    ∃ d, serveDriver s.device req env = .ok (a, d) ∧ s' = { s with device := d } := by
  rw [serve_driver hd] at h
  cases hsd : serveDriver s.device req env with
  | error e =>
    rw [hsd] at h
    cases h
  | ok p =>
    obtain ⟨a', d⟩ := p
    rw [hsd] at h
    cases h
    exact ⟨d, rfl, rfl⟩

theorem serve_cases {s s' : Shared} {i : Nat} {req : Request}
    (h : serve s i req env = .ok (a, s')) :
    (isDriver req = true ∧ ∃ d, serveDriver s.device req env = .ok (a, d) ∧
        s' = { s with device := d }) ∨
      (req = .lock ∧ a = .done ∧ s.fileMutex = none ∧ s' = { s with fileMutex := some i }) ∨
      (req = .unlock ∧ a = .done ∧ s.fileMutex = some i ∧ s' = { s with fileMutex := none }) ∨
      (isDriver req = false ∧ s' = s ∧ (req = .lock ∨ req = .unlock → a = .failed)) := by
  cases req with
  | openFile | write fd bytes | ioctl fd c o | read fd n | close fd =>
    exact .inl ⟨rfl, serve_device rfl h⟩
  | lock =>
    cases env with
    | plain fails =>
      cases fails with
      | true =>
        cases h
        exact .inr (.inr (.inr ⟨rfl, rfl, fun _ => rfl⟩))
      | false =>
        cases hm : s.fileMutex with
        | none =>
          simp only [serve, hm, Except.ok.injEq, Prod.mk.injEq] at h
          exact .inr (.inl ⟨rfl, h.1.symm, rfl, h.2.symm⟩)
        | some k => simp [serve, hm] at h
    | kept | opened _ | received _ | wrote _ | fetched _ | sought _ | sent _ _ => cases h
  | unlock =>
    cases env with
    | plain fails =>
      cases fails with
      | true =>
        cases h
        exact .inr (.inr (.inr ⟨rfl, rfl, fun _ => rfl⟩))
      | false =>
        by_cases hm : s.fileMutex = some i
        · simp only [serve, hm, if_true, Except.ok.injEq, Prod.mk.injEq] at h
          exact .inr (.inr (.inl ⟨rfl, h.1.symm, hm, h.2.symm⟩))
        · simp [serve, hm] at h
    | kept | opened _ | received _ | wrote _ | fetched _ | sought _ | sent _ _ => cases h
  | sigmask | alloc =>
    cases env <;> cases h <;> exact .inr (.inr (.inr ⟨rfl, rfl, by simp⟩))
  | free | syslog =>
    cases env with
    | plain fails =>
      cases fails with
      | true => cases h
      | false =>
        cases h
        exact .inr (.inr (.inr ⟨rfl, rfl, by simp⟩))
    | kept | opened _ | received _ | wrote _ | fetched _ | sought _ | sent _ _ => cases h
  | recv =>
    cases env with
    | received bs => cases bs <;> cases h <;> exact .inr (.inr (.inr ⟨rfl, rfl, by simp⟩))
    | plain _ | kept | opened _ | wrote _ | fetched _ | sought _ | sent _ _ => cases h
  | send bytes =>
    cases env with
    | sent fails short =>
      cases fails <;> cases h <;> exact .inr (.inr (.inr ⟨rfl, rfl, by simp⟩))
    | plain _ | kept | opened _ | received _ | wrote _ | fetched _ | sought _ => cases h

theorem serve_rest {s s' : Shared} {i : Nat} {req : Request}
    (h : serve s i req env = .ok (a, s')) (hd : isDriver req = false) (hl : req ≠ .lock)
    (hu : req ≠ .unlock) : s' = s := by
  obtain ⟨hd', _⟩ | ⟨hl', _⟩ | ⟨hu', _⟩ | ⟨_, hs, _⟩ := serve_cases h
  · rw [hd] at hd'
    cases hd'
  · exact absurd hl' hl
  · exact absurd hu' hu
  · exact hs

/-- How far the reply has got: what was sent, and what is left from the
position of the file on. -/
def Reading (records : List (List UInt8)) (reply sent : List UInt8) (fd : Nat) (d : Device) : Prop :=
  ∃ pos : Nat, d.files fd = some (pos : Int) ∧ pos ≤ (lastN 10 records).flatten.length ∧
    sent ++ (lastN 10 records).flatten.drop pos = reply

/-- A session that holds the mutex for `msg`, on a device that had stored the
records `before`. -/
def InTransaction (before : List (List UInt8)) (msg sent : List UInt8) (u : Session)
    (d : Device) : Prop :=
  let after := (handle before msg).1
  let reply := (handle before msg).2
  match u.stage with
  | .writing line w => isCommand msg = false ∧ line = lineOf msg ∧
      (u.writeCmd, u.writeCmdOffset) = seekTarget msg ∧ sent = [] ∧
      match w with
      | .openFile => Idle d.kernel ⟨before, none⟩
      | .line fd => Idle d.kernel ⟨before, none⟩ ∧ ∃ p, d.files fd = some p
      | .newline fd => Idle d.kernel ⟨before, some line⟩ ∧ ∃ p, d.files fd = some p
      | .close _ => Idle d.kernel ⟨after, none⟩
  | .sending p chunk => (u.writeCmd, u.writeCmdOffset) = seekTarget msg ∧
      Idle d.kernel ⟨after, none⟩ ∧
      match p with
      | .openFile => sent = []
      | .ioctl fd => sent = [] ∧ d.files fd = some 0
      | .read fd => Reading after reply sent fd d
      | .sock fd n => chunk.length = n ∧ Reading after reply (sent ++ chunk) fd d
      | .close _ => sent = reply
  | .unlocking failed => failed = false ∧ Idle d.kernel ⟨after, none⟩ ∧ sent = reply
  | _ => False

variable {before : List (List UInt8)} {msg sent : List UInt8} {u u' : Session} {req : Request}

theorem accept_line {line : List UInt8} (hne : line ≠ []) (hnl : newline ∉ line) (stray : UInt8) :
    (Log.mk before none).accept line stray = ⟨before, some line⟩ := by
  have hlast : line.getLast?.getD stray ≠ newline := by
    rw [List.getLast?_eq_some_getLast hne, Option.getD_some]
    exact fun h => hnl (h ▸ List.getLast_mem hne)
  rw [Log.accept_eq]
  exact if_neg hlast

theorem accept_newline (line : List UInt8) (stray : UInt8) :
    (Log.mk before (some line)).accept [newline] stray = ⟨before ++ [line ++ [newline]], none⟩ := by
  rw [Log.accept_eq]
  apply if_pos
  simp

theorem room_line {n : Nat} (h : n ≤ reallocLimit) : n + 1 ≤ kmallocLimit := by
  have hlt := reallocLimit_lt
  unfold kmallocLimit
  omega

theorem InTransaction.write_step (hi : InTransaction before msg sent u d) (hg : Good msg)
    (hm : msg.length ≤ reallocLimit) {line : List UInt8} {w : WritePc}
    (hst : u.stage = .writing line w) (hserve : serveDriver d (request line w) env = .ok (a, d'))
    (hc : clean env = true) (hres : u.resumeWrite line w a = .ok u') :
    InTransaction before msg sent u' d' := by
  unfold InTransaction at hi
  rw [hst] at hi
  obtain ⟨hcmd, rfl, htarget, rfl, hw⟩ := hi
  have hlen : (lineOf msg).length + 1 ≤ kmallocLimit :=
    room_line ((lineOf_isPrefix msg).length_le.trans hm)
  have hne : lineOf msg ≠ [] := by simpa [Good, hcmd] using hg
  unfold Session.resumeWrite at hres
  cases w with
  | openFile =>
    obtain ⟨fd, rfl, hk, hf⟩ := serve_openFile hserve hc
    simp only [WritePc.next, bind, Except.bind, Except.ok.injEq] at hres
    subst hres
    refine ⟨hcmd, rfl, htarget, rfl, ?_, _, hf⟩
    rw [hk]
    exact hw
  | line fd =>
    obtain ⟨hidle, p, hf⟩ := hw
    have hroom : (Log.mk before none).openBytes.length + (lineOf msg).length ≤ kmallocLimit := by
      simp only [Log.openBytes, Option.getD_none, List.length_nil]
      omega
    obtain ⟨n, stray, rfl, hidle', hf'⟩ := serve_line hidle hf hroom hserve hc
    rw [accept_line hne (newline_notMem_lineOf msg)] at hidle'
    simp only [WritePc.next, bind, Except.bind, Except.ok.injEq] at hres
    subst hres
    exact ⟨hcmd, rfl, htarget, rfl, hidle', hf'⟩
  | newline fd =>
    obtain ⟨hidle, p, hf⟩ := hw
    have hroom : (Log.mk before (some (lineOf msg))).openBytes.length + [newline].length ≤
      kmallocLimit := hlen
    obtain ⟨n, stray, rfl, hidle', hf'⟩ := serve_line hidle hf hroom hserve hc
    rw [accept_newline, ← handle_line before hcmd] at hidle'
    simp only [WritePc.next, bind, Except.bind, Except.ok.injEq] at hres
    subst hres
    exact ⟨hcmd, rfl, htarget, rfl, hidle'⟩
  | close fd =>
    obtain ⟨rfl, hk⟩ := serve_close hserve hc
    simp only [WritePc.next, bind, Except.bind, if_true, Except.ok.injEq] at hres
    subst hres
    refine ⟨htarget, ?_, rfl⟩
    rw [hk]
    exact hw

theorem InTransaction.send_step (hi : InTransaction before msg sent u d)
    (hs : Small (handle before msg).1) {p : SendPc} {chunk : List UInt8}
    (hst : u.stage = .sending p chunk) (hreq : u.request = .ok req) (hd : isDriver req = true)
    (hserve : serveDriver d req env = .ok (a, d')) (hc : clean env = true)
    (hres : u.resumeSend p chunk a = .ok u') : InTransaction before msg sent u' d' := by
  unfold InTransaction at hi
  rw [hst] at hi
  obtain ⟨htarget, hidle, hp⟩ := hi
  have hv : (Log.mk (handle before msg).1 none).visible.flatten.length < 2 ^ 63 := hs.visible_lt
  have hturn := turn_of_send hst hreq hres
  unfold Session.request at hreq
  unfold Session.resumeSend at hres
  cases p with
  | openFile =>
    simp only [hst, Except.ok.injEq] at hreq
    subst hreq
    obtain ⟨fd, rfl, hk, hf⟩ := serve_openFile hserve hc
    simp only [SendPc.next, bind, Except.bind, Except.ok.injEq] at hres
    subst hres
    exact ⟨htarget, hk ▸ hidle, hp, hf⟩
  | ioctl fd =>
    obtain ⟨rfl, hf⟩ := hp
    simp only [hst, Except.ok.injEq] at hreq
    subst hreq
    obtain ⟨r, rfl, hk, hf'⟩ := serve_ioctl hidle hv hf hserve hc
    simp only [SendPc.next, bind, Except.bind, Except.ok.injEq] at hres
    subst hres
    rw [htarget] at hf'
    refine ⟨htarget, hk ▸ hidle, _, hf', seekStart_le _ _, ?_⟩
    rw [List.nil_append, handle_reply]
    rfl
  | read fd =>
    obtain ⟨pos, hf, hpos, hrest⟩ := hp
    simp only [hst, Except.ok.injEq] at hreq
    subst hreq
    obtain ⟨got, rfl, hk, hf', hle, happ, hend⟩ := serve_read hidle hv hf hpos hserve hc
    cases hturn with
    | ended =>
      have hdone : (lastN 10 (handle before msg).1).flatten.drop pos = [] := hend rfl
      rw [hdone, List.append_nil] at hrest
      exact ⟨htarget, hk ▸ hidle, hrest⟩
    | fetched =>
      refine ⟨htarget, hk ▸ hidle, rfl, _, hf', hle, ?_⟩
      rw [List.append_assoc]
      exact (congrArg (sent ++ ·) happ).trans hrest
  | sock fd n =>
    simp only [hst, Except.ok.injEq] at hreq
    subst hreq
    cases hd
  | close fd =>
    simp only [hst, Except.ok.injEq] at hreq
    subst hreq
    obtain ⟨rfl, hk⟩ := serve_close hserve hc
    simp only [SendPc.next, bind, Except.bind, if_true, Except.ok.injEq] at hres
    subst hres
    exact ⟨rfl, hk ▸ hidle, hp⟩

theorem InTransaction.request (hi : InTransaction before msg sent u d)
    (hreq : u.request = .ok req) :
    isDriver req = true ∨ (∃ bytes, req = .send bytes) ∨ req = .unlock := by
  unfold InTransaction at hi
  unfold Session.request at hreq
  cases hst : u.stage with
  | writing line w =>
    left
    cases w <;> simp only [hst, Except.ok.injEq] at hreq <;> subst hreq <;> rfl
  | sending p chunk =>
    cases p with
    | sock fd n =>
      simp only [hst, Except.ok.injEq] at hreq
      exact .inr (.inl ⟨chunk, hreq.symm⟩)
    | openFile | ioctl fd | read fd | close fd =>
      left
      simp only [hst, Except.ok.injEq] at hreq
      subst hreq
      rfl
  | unlocking failed =>
    simp only [hst, Except.ok.injEq] at hreq
    exact .inr (.inr hreq.symm)
  | starting | allocating | receiving acc | growing acc | locking msg | resetting
  | closing freed | exited done leaked =>
    rw [hst] at hi
    exact hi.elim

theorem InTransaction.sock_step (hi : InTransaction before msg sent u d) {bytes : List UInt8}
    (hreq : u.request = .ok (.send bytes)) (hres : u.resume (.count bytes.length) = .ok u') :
    InTransaction before msg (sent ++ bytes) u' d := by
  unfold InTransaction at hi
  cases turn_of_resume hreq hres with
  | sent hst =>
    rw [hst] at hi
    obtain ⟨htarget, hidle, _, hread⟩ := hi
    exact ⟨htarget, hidle, hread⟩
  | sentShort hst hne =>
    rw [hst] at hi
    obtain ⟨_, _, hlen, _⟩ := hi
    exact absurd hlen hne

theorem InTransaction.unlock_step (hi : InTransaction before msg sent u d)
    (hreq : u.request = .ok .unlock) (hres : u.resume .done = .ok u') :
    u'.stage = .resetting ∧ Idle d.kernel ⟨(handle before msg).1, none⟩ ∧
      sent = (handle before msg).2 := by
  unfold InTransaction at hi
  cases turn_of_resume hreq hres with
  | unlocked hst =>
    rw [hst] at hi
    obtain ⟨_, hidle, hsent⟩ := hi
    exact ⟨rfl, hidle, hsent⟩
  | released hst =>
    rw [hst] at hi
    cases hi.1

theorem InTransaction.driver_step (hi : InTransaction before msg sent u d) (hg : Good msg)
    (hm : msg.length ≤ reallocLimit) (hs : Small before) (hreq : u.request = .ok req)
    (hd : isDriver req = true) (hserve : serveDriver d req env = .ok (a, d'))
    (hc : clean env = true) (hres : u.resume a = .ok u') :
    InTransaction before msg sent u' d' := by
  unfold Session.resume at hres
  cases hst : u.stage with
  | writing line w =>
    simp only [hst] at hres
    refine hi.write_step hg hm hst ?_ hc hres
    have hr := session_request line w u.writeCmd u.writeCmdOffset
    rw [← hst] at hr
    rw [← Except.ok.inj (hr.symm.trans hreq)] at hserve
    exact hserve
  | sending p chunk =>
    simp only [hst] at hres
    exact hi.send_step (hs.handle hm) hst hreq hd hserve hc hres
  | unlocking failed =>
    simp only [Session.request, hst, Except.ok.injEq] at hreq
    subst hreq
    cases hd
  | starting | allocating | receiving acc | growing acc | locking msg | resetting
  | closing freed | exited done leaked =>
    unfold InTransaction at hi
    rw [hst] at hi
    exact hi.elim

theorem inTransaction_dispatch (hg : Good msg) (hi : Idle d.kernel ⟨before, none⟩) :
    InTransaction before msg [] (u.dispatch msg) d := by
  unfold Session.dispatch
  unfold Good at hg
  cases hc : isCommand msg with
  | true =>
    rw [hc, if_pos rfl] at hg
    obtain ⟨c, hsc⟩ := Option.isSome_iff_exists.mp hg.1
    obtain ⟨o, hso⟩ := Option.isSome_iff_exists.mp hg.2
    rw [if_pos rfl]
    refine ⟨?_, ?_, rfl⟩
    · simp [seekTarget, hc, hsc, hso]
    · rwa [handle_command before hc]
  | false =>
    rw [if_neg (by simp)]
    exact ⟨hc, rfl, by simp [seekTarget, hc], rfl, hi⟩

end Aesd.Transactions
