import Aesd.FileThreads

namespace Aesd.Sections

open Aesd.Lib.BlockHeap Aesd.Lib.Transition Aesd.Lib.Monitor Aesd.CString Aesd.ServerThread
open Aesd.Connection Aesd.Rules
open Aesd.TimestampThread Aesd.FileThreads
open Aesd.Transactions (isDriver)
open Aesd.RecordLog (newline)

variable {δ η κ : Type}

/-- What a thread takes the mutex for. -/
inductive Purpose
  | message (msg : List UInt8)
  | stamp (text : List UInt8)
  deriving DecidableEq, Repr

def kept (acts : List Act) : List UInt8 :=
  acts.flatMap fun
    | .call (.write _ bytes) a => taken bytes a
    | _ => []

def sent (acts : List Act) : List UInt8 :=
  acts.flatMap fun
    | .call (.send bytes) a => taken bytes a
    | _ => []

structure Aim where
  writeCmd : Nat
  writeCmdOffset : Nat
  answer : Answer
  deriving DecidableEq, Repr

def aimed (aim : Option Aim) : Act → Option Aim
  | .call (.ioctl _ c o) a => some ⟨c, o, a⟩
  | _ => aim

def aim (acts : List Act) : Option Aim := acts.foldl aimed none

theorem aim_snoc (acts : List Act) (act : Act) : aim (acts ++ [act]) = aimed (aim acts) act := by
  rw [aim, List.foldl_append]
  rfl

/-- Where a reply begins: where the seek has led, and without one at the start. -/
def begins (F : Datafile δ η κ) (k : κ) (aim : Option Aim) : Nat :=
  aim.elim 0 fun s => F.seeks k s.writeCmd s.writeCmdOffset s.answer

theorem kept_snoc (acts : List Act) (act : Act) : kept (acts ++ [act]) = kept acts ++ kept [act] := by
  simp [kept]

theorem sent_append (acts acts' : List Act) : sent (acts ++ acts') = sent acts ++ sent acts' := by
  simp [sent]

@[simp] theorem kept_failed (req : Request) : kept [.call req .failed] = [] := by
  cases req <;> rfl

@[simp] theorem sent_failed (req : Request) : sent [.call req .failed] = [] := by
  cases req <;> rfl

def Served (F : Datafile δ η κ) (d : δ) (req : Request) (a : Answer) (d' : δ) : Prop :=
  (isDriver req = true ∧ ∃ env, F.serve d req env = .ok (a, d')) ∨ (isDriver req = false ∧ d' = d)

/-- What a purpose may add to the file: nothing for a command, else the
beginning of its line and then perhaps the newline, and the beginning of a
timestamp. -/
def Fragment : Purpose → List UInt8 → Prop
  | .message msg, bytes =>
    if isCommand msg then bytes = []
    else ∃ n m, bytes = (lineOf msg).take n ++ [newline].take m
  | .stamp text, bytes => ∃ n, bytes = text.take n

/-- The coordinates that a message asks for: those it has, and after a line the
start of the file. -/
def Coordinates (msg : List UInt8) (c o : Nat) : Prop :=
  if isCommand msg then
    (∀ n, (seekOf msg).1 = some n → c = n) ∧ ∀ n, (seekOf msg).2 = some n → o = n
  else c = 0 ∧ o = 0

def Aims : Purpose → Option Aim → Prop
  | _, none => True
  | .message msg, some s => Coordinates msg s.writeCmd s.writeCmdOffset
  | .stamp _, some _ => False

/-- What may be sent: the beginning of what the content shows from the seek on. -/
def Replies (F : Datafile δ η κ) (k : κ) (aim : Option Aim) (bytes : List UInt8) : Prop :=
  F.readable k → bytes <+: (F.shows k).drop (begins F k aim)

/-- What a thread may have done to the file, and may have sent, with the mutex
taken for `w`. -/
structure Fits (F : Datafile δ η κ) (k : κ) (w : Purpose) (acts : List Act) : Prop where
  bounded : ∀ msg, w = .message msg → msg.length ≤ reallocLimit
  fragment : Fragment w (kept acts)
  aims : Aims w (aim acts)
  replies : Replies F k (aim acts) (sent acts)

/-- What a connection outside the mutex has received of its next message, which
is never more than the largest buffer has room for. -/
def Gathered (w : Purpose) : Stage → Prop
  | .starting | .allocating | .resetting => w = .message []
  | .receiving acc => w = .message acc ∧ acc.length + sockReadBufSize ≤ reallocLimit
  | .growing acc | .locking acc => w = .message acc ∧ acc.length ≤ reallocLimit
  | _ => True

def Waits (w : Purpose) : Task → Prop
  | .absent => w = .message []
  | .connection u => Gathered w u.stage
  | .ticker t => t.pc = .lock → w = .stamp t.timestr

def Sends (F : Datafile δ η κ) (k : κ) (aim : Option Aim) (d : δ) (fd : Nat)
    (bytes : List UInt8) : Prop :=
  F.readable k → bytes <+: (F.shows k).drop (begins F k aim) ∧
    F.position d fd = some (begins F k aim + bytes.length) ∧
      begins F k aim + bytes.length ≤ (F.shows k).length

/-- How far a connection has got with the mutex taken for `msg`, when `added` are
the bytes it has written, `replied` those it has sent, and `aim` is its seek. -/
def Handles (F : Datafile δ η κ) (k : κ) (msg added replied : List UInt8) (aim : Option Aim)
    (d : δ) : Stage → Prop
  | .writing line p => isCommand msg = false ∧ line = lineOf msg ∧ replied = [] ∧
      match p with
      | .openFile | .line _ => added = []
      | .newline _ => ∃ n, added = line.take n
      | .close _ => Fragment (.message msg) added
  | .sending p chunk => Fragment (.message msg) added ∧
      match p with
      | .openFile => replied = []
      | .ioctl fd => replied = [] ∧ F.position d fd = some 0
      | .read fd => Sends F k aim d fd replied
      | .sock fd n => chunk.length = n ∧ Sends F k aim d fd (replied ++ chunk)
      | .close _ => Replies F k aim replied
  | _ => Fragment (.message msg) added ∧ Replies F k aim replied

structure Aiming (msg : List UInt8) (aim : Option Aim) (u : Session) : Prop where
  coordinates : Coordinates msg u.writeCmd u.writeCmdOffset
  aim : ∀ s, aim = some s → s.writeCmd = u.writeCmd ∧ s.writeCmdOffset = u.writeCmdOffset

def Stamps (added : List UInt8) (t : Ticker) : Prop :=
  match t.pc with
  | .openFile | .write _ => added = []
  | _ => ∃ n, added = t.timestr.take n

def Phase (F : Datafile δ η κ) (k : κ) (w : Purpose) (acts : List Act) (d : δ) : Task → Prop
  | .absent => False
  | .connection u => ∃ msg, w = .message msg ∧ msg.length ≤ reallocLimit ∧
      Aiming msg (aim acts) u ∧ Handles F k msg (kept acts) (sent acts) (aim acts) d u.stage
  | .ticker t => w = .stamp t.timestr ∧ sent acts = [] ∧ aim acts = none ∧ Stamps (kept acts) t

/-- A section under way: since the content was `k₀`, it has grown by what the
thread has written. -/
def UnderWay (F : Datafile δ η κ) (k₀ : κ) (w : Purpose) (acts : List Act) (t : Task) (d : δ) : Prop :=
  ∃ k, F.stands d k ∧ F.grows k₀ (kept acts) k ∧ Phase F k w acts d t

variable {F : Datafile δ η κ} {k k₀ : κ} {w : Purpose} {acts : List Act} {d d' : δ} {t t' : Task}
  {act : Act} {msg added replied : List UInt8} {seek : Option Aim}

theorem replies_nil (F : Datafile δ η κ) (k : κ) (seek : Option Aim) : Replies F k seek [] :=
  fun _ => List.nil_prefix

theorem fragment_line (hc : isCommand msg = false) (n m : Nat) :
    Fragment (.message msg) ((lineOf msg).take n ++ [newline].take m) := by
  rw [Fragment, hc]
  exact ⟨n, m, rfl⟩

theorem Sends.replies {fd : Nat} (h : Sends F k seek d fd replied) : Replies F k seek replied :=
  fun hr => (h hr).1

theorem Replies.shorten {bytes : List UInt8} (h : Replies F k seek bytes)
    (hp : replied <+: bytes) : Replies F k seek replied :=
  fun hr => hp.trans (h hr)

theorem Handles.piece {stage : Stage} (h : Handles F k msg added replied seek d stage) :
    Fragment (.message msg) added ∧ Replies F k seek replied := by
  cases stage with
  | writing line p =>
    obtain ⟨hc, rfl, rfl, hp⟩ := h
    refine ⟨?_, replies_nil F k seek⟩
    cases p with
    | openFile | line fd =>
      obtain rfl : added = [] := hp
      exact fragment_line hc 0 0
    | newline fd =>
      obtain ⟨n, rfl⟩ := hp
      simpa using fragment_line hc n 0
    | close fd => exact hp
  | sending p chunk =>
    obtain ⟨hf, hp⟩ := h
    refine ⟨hf, ?_⟩
    cases p with
    | openFile =>
      obtain rfl : replied = [] := hp
      exact replies_nil F k seek
    | ioctl fd =>
      obtain ⟨rfl, _⟩ := hp
      exact replies_nil F k seek
    | read fd => exact Sends.replies hp
    | sock fd n => exact (Sends.replies hp.2).shorten (List.prefix_append _ _)
    | close fd => exact hp
  | starting | allocating | receiving acc | growing acc | locking msg | unlocking failed | resetting
  | closing freed | exited done leaked => exact h

theorem Aiming.aims {u : Session} (h : Aiming msg seek u) : Aims (.message msg) seek := by
  cases seek with
  | none => trivial
  | some s =>
    obtain ⟨hc, ho⟩ := h.aim s rfl
    rw [Aims, hc, ho]
    exact h.coordinates

theorem Phase.fits (h : Phase F k w acts d t) : Fits F k w acts := by
  cases t with
  | absent => exact h.elim
  | connection u =>
    obtain ⟨msg, rfl, hlen, ha, hh⟩ := h
    obtain ⟨hf, hr⟩ := hh.piece
    exact ⟨fun _ hmsg => Purpose.message.inj hmsg ▸ hlen, hf, ha.aims, hr⟩
  | ticker t =>
    obtain ⟨rfl, hsent, haim, hp⟩ := h
    refine ⟨fun _ hmsg => (by cases hmsg), ?_, by rw [haim]; trivial, hsent ▸ replies_nil F k _⟩
    unfold Stamps at hp
    cases hpc : t.pc with
    | openFile | write fd =>
      rw [hpc] at hp
      exact ⟨0, hp⟩
    | clock | lock | close fd | unlockExit | unlock | sleep | exited =>
      rw [hpc] at hp
      exact hp

theorem Sends.read {fd : Nat} {env : η} {a : Answer} {bs : List UInt8}
    (h : Sends F k seek d fd replied) (hd : F.stands d k)
    (hs : F.serve d (.read fd sockReadBufSize) env = .ok (a, d')) (ha : a = .bytes bs) :
    Sends F k seek d' fd (replied ++ bs) := by
  intro hr
  obtain ⟨hpre, hpos, hle⟩ := h hr
  obtain ⟨hbs, hpos'⟩ := (F.read hd hs).2 hr _ bs hpos hle ha
  have hlen := hbs.length_le
  rw [List.length_drop] at hlen
  rw [← List.drop_drop] at hbs
  refine ⟨?_, ?_, ?_⟩
  · obtain ⟨rest, hrest⟩ := hpre
    rw [← hrest, List.drop_left] at hbs
    rw [← hrest]
    exact (List.prefix_append_right_inj _).mpr hbs
  · rw [hpos', List.length_append, Nat.add_assoc]
  · rw [List.length_append]
    omega

theorem Served.file {req : Request} {a : Answer} (h : Served F d req a d')
    (hd : isDriver req = true) : ∃ env, F.serve d req env = .ok (a, d') := by
  obtain ⟨_, he⟩ | ⟨hn, _⟩ := h
  · exact he
  · rw [hd] at hn
    cases hn

theorem Served.other {req : Request} {a : Answer} (h : Served F d req a d')
    (hd : isDriver req = false) : d' = d := by
  obtain ⟨hy, _⟩ | ⟨_, he⟩ := h
  · rw [hd] at hy
    cases hy
  · exact he

theorem Handles.served {u : Session} {req : Request} {a : Answer}
    (h : Handles F k msg added replied seek d u.stage) (hd : F.stands d k)
    (hh : inHelper u.stage = true) (hreq : u.request = .ok req) (hs : Served F d req a d') :
    ∃ k', F.stands d' k' ∧ F.grows k (kept [.call req a]) k' ∧
      (replied = [] ∨ k' = k ∧ aimed seek (.call req a) = seek) := by
  unfold Session.request at hreq
  obtain ⟨line, p, hst⟩ | ⟨p, chunk, hst⟩ := stage_of_inHelper hh
  · rw [hst] at h hreq
    obtain ⟨_, _, hnil, _⟩ := h
    cases p with
    | openFile =>
      cases hreq
      obtain ⟨env, hs⟩ := hs.file rfl
      exact ⟨k, (F.openFile hd hs).1, F.grows_nil k, .inl hnil⟩
    | line fd | newline fd =>
      cases hreq
      obtain ⟨env, hs⟩ := hs.file rfl
      obtain ⟨k', hd', hg⟩ := F.write hd hs
      exact ⟨k', hd', by simpa [kept] using hg, .inl hnil⟩
    | close fd =>
      cases hreq
      obtain ⟨env, hs⟩ := hs.file rfl
      exact ⟨k, F.close hd hs, F.grows_nil k, .inl hnil⟩
  · rw [hst] at h hreq
    obtain ⟨_, hp⟩ := h
    cases p with
    | openFile =>
      cases hreq
      obtain ⟨env, hs⟩ := hs.file rfl
      exact ⟨k, (F.openFile hd hs).1, F.grows_nil k, .inr ⟨rfl, rfl⟩⟩
    | ioctl fd =>
      cases hreq
      obtain ⟨hnil, _⟩ := hp
      obtain ⟨env, hs⟩ := hs.file rfl
      exact ⟨k, (F.ioctl hd hs).1, F.grows_nil k, .inl hnil⟩
    | read fd =>
      cases hreq
      obtain ⟨env, hs⟩ := hs.file rfl
      exact ⟨k, (F.read hd hs).1, F.grows_nil k, .inr ⟨rfl, rfl⟩⟩
    | sock fd n =>
      cases hreq
      obtain rfl := hs.other rfl
      exact ⟨k, hd, F.grows_nil k, .inr ⟨rfl, rfl⟩⟩
    | close fd =>
      cases hreq
      obtain ⟨env, hs⟩ := hs.file rfl
      exact ⟨k, F.close hd hs, F.grows_nil k, .inr ⟨rfl, rfl⟩⟩

theorem coordinates_dispatch (u : Session) (msg : List UInt8) :
    Coordinates msg (u.dispatch msg).writeCmd (u.dispatch msg).writeCmdOffset := by
  unfold Coordinates Session.dispatch
  cases isCommand msg with
  | true => exact ⟨fun n hn => by simp [hn], fun n hn => by simp [hn]⟩
  | false => exact ⟨rfl, rfl⟩

theorem aiming_step {u u' : Session} {req : Request} {a : Answer} (h : Aiming msg seek u)
    (hin : holding u.stage = true) (hreq : u.request = .ok req) (hres : u.resume a = .ok u') :
    Aiming msg (aimed seek (.call req a)) u' := by
  have hto : ∀ stage, u' = u.goto stage → Aiming msg (aimed seek (.call req a)) u' := by
    rintro stage rfl
    refine ⟨h.coordinates, fun s hs => ?_⟩
    unfold Session.request at hreq
    unfold aimed at hs
    split at hs
    · next heq =>
      cases heq
      cases hs
      split at hreq <;> cases hreq
      exact ⟨rfl, rfl⟩
    · exact h.aim s hs
  cases turn_of_resume hreq hres with
  | locked hst =>
    rw [hst] at hin
    cases hin
  | received hst =>
    rw [hst] at hin
    cases hin
  | masked | allocated | grown | opened | wroteLine | wroteNewline | written | reopened | sought
  | fetched | ended | sent | replied | unlocked | freed | logged | lost | aborted | sentShort
  | released => exact hto _ rfl

theorem handles_step {u u' : Session} {req : Request} {a : Answer}
    (h : Handles F k msg added replied seek d u.stage) (hd : F.stands d k)
    (hin : holding u.stage = true) (hreq : u.request = .ok req)
    (hno : req = .unlock → a ≠ .done) (hs : Served F d req a d') (hres : u.resume a = .ok u') :
    ∃ k', F.stands d' k' ∧ F.grows k (kept [.call req a]) k' ∧
      Handles F k' msg (added ++ kept [.call req a]) (replied ++ sent [.call req a])
        (aimed seek (.call req a)) d' u'.stage := by
  cases turn_of_resume hreq hres with
  | masked hst | grown hst | received hst | locked hst | freed hst | logged hst =>
    rw [hst] at hin
    cases hin
  | allocated hst =>
    obtain hst | hst := hst <;> rw [hst] at hin <;> cases hin
  | unlocked hst => exact absurd rfl (hno rfl)
  | opened hst =>
    rw [hst] at h
    obtain ⟨hc, hline, hnil, hadd⟩ := h
    obtain ⟨env, hs⟩ := hs.file rfl
    exact ⟨k, (F.openFile hd hs).1, F.grows_nil k, hc, hline, by simpa [sent] using hnil,
      by simpa [kept] using hadd⟩
  | @wroteLine line fd n hst =>
    rw [hst] at h
    obtain ⟨hc, hline, hnil, rfl⟩ := h
    obtain ⟨env, hs⟩ := hs.file rfl
    obtain ⟨k', hd', hg⟩ := F.write hd hs
    exact ⟨k', hd', by simpa [kept] using hg, hc, hline, by simpa [sent] using hnil, n,
      by simp [kept, taken]⟩
  | @wroteNewline line fd m hst =>
    rw [hst] at h
    obtain ⟨hc, rfl, hnil, n, rfl⟩ := h
    obtain ⟨env, hs⟩ := hs.file rfl
    obtain ⟨k', hd', hg⟩ := F.write hd hs
    refine ⟨k', hd', by simpa [kept] using hg, hc, rfl, by simpa [sent] using hnil, ?_⟩
    simpa [kept, taken] using fragment_line hc n m
  | written hst =>
    rw [hst] at h
    obtain ⟨_, _, hnil, hf⟩ := h
    obtain ⟨env, hs⟩ := hs.file rfl
    exact ⟨k, F.close hd hs, F.grows_nil k, by simpa [kept] using hf, by simpa [sent] using hnil⟩
  | reopened hst =>
    rw [hst] at h
    obtain ⟨hf, hnil⟩ := h
    obtain ⟨env, hs⟩ := hs.file rfl
    obtain ⟨hd', hpos⟩ := F.openFile hd hs
    exact ⟨k, hd', F.grows_nil k, by simpa [kept] using hf, by simpa [sent] using hnil, hpos _ rfl⟩
  | sought hst =>
    rw [hst] at h
    obtain ⟨hf, rfl, hpos⟩ := h
    obtain ⟨env, hs⟩ := hs.file rfl
    obtain ⟨hd', hseek⟩ := F.ioctl hd hs
    refine ⟨k, hd', F.grows_nil k, by simpa [kept] using hf, fun hr => ?_⟩
    obtain ⟨hle, hpos'⟩ := hseek hr hpos
    exact ⟨List.nil_prefix, hpos', hle⟩
  | fetched hst =>
    rw [hst] at h
    obtain ⟨hf, hsends⟩ := h
    obtain ⟨env, hs⟩ := hs.file rfl
    refine ⟨k, (F.read hd hs).1, F.grows_nil k, by simpa [kept] using hf, rfl, ?_⟩
    simpa [sent, aimed] using Sends.read hsends hd hs rfl
  | ended hst =>
    rw [hst] at h
    obtain ⟨hf, hsends⟩ := h
    obtain ⟨env, hs⟩ := hs.file rfl
    exact ⟨k, (F.read hd hs).1, F.grows_nil k, by simpa [kept] using hf,
      by simpa [sent, aimed] using Sends.replies hsends⟩
  | sent hst =>
    rw [hst] at h
    obtain ⟨hf, hlen, hsends⟩ := h
    obtain rfl := hs.other rfl
    refine ⟨k, hd, F.grows_nil k, by simpa [kept] using hf, ?_⟩
    simpa [Sections.sent, aimed, taken, ← hlen] using hsends
  | replied hst =>
    rw [hst] at h
    obtain ⟨hf, hrep⟩ := h
    obtain ⟨env, hs⟩ := hs.file rfl
    exact ⟨k, F.close hd hs, F.grows_nil k, by simpa [kept] using hf,
      by simpa [sent, aimed] using hrep⟩
  | sentShort hst hne =>
    rw [hst] at h
    obtain ⟨hf, _, hsends⟩ := h
    obtain rfl := hs.other rfl
    refine ⟨k, hd, F.grows_nil k, by simpa [kept] using hf, (Sends.replies hsends).shorten ?_⟩
    simpa [sent, taken] using List.take_prefix _ _
  | lost hh =>
    obtain ⟨⟨failed, hst⟩, rfl⟩ := unlocking_of_holding hin hh hreq
    rw [hst] at h
    obtain ⟨hf, hrep⟩ := h
    obtain rfl := hs.other rfl
    exact ⟨k, hd, F.grows_nil k, by simpa using hf, by simpa [aimed] using hrep⟩
  | aborted hh _ =>
    obtain ⟨hf, hrep⟩ := h.piece
    obtain ⟨k', hd', hg, hk⟩ := h.served hd hh hreq hs
    rw [kept_failed, sent_failed, List.append_nil, List.append_nil]
    rw [kept_failed] at hg
    obtain rfl | ⟨rfl, haim⟩ := hk
    · exact ⟨k', hd', hg, hf, replies_nil F k' _⟩
    · rw [haim]
      exact ⟨k', hd', hg, hf, hrep⟩
  | released hst =>
    rw [hst] at h
    obtain ⟨hf, hrep⟩ := h
    obtain rfl := hs.other rfl
    exact ⟨k, hd, F.grows_nil k, by simpa [kept] using hf, by simpa [sent, aimed] using hrep⟩

theorem stamps_step {t t' : Ticker} {req : Request} {a : Answer} (h : Stamps added t)
    (hd : F.stands d k) (hin : ticking t.pc = true) (hreq : t.request = .ok req)
    (hno : req = .unlock → a ≠ .done) (hs : Served F d req a d') (hres : t.resume a = .ok t') :
    ∃ k', F.stands d' k' ∧ F.grows k (kept [.call req a]) k' ∧
      Stamps (added ++ kept [.call req a]) t' ∧ t'.timestr = t.timestr ∧
      sent [.call req a] = [] ∧ ∀ seek, aimed seek (.call req a) = seek := by
  unfold Stamps at h
  cases tick_of_resume hreq hres with
  | locked hpc | notLocked hpc =>
    rw [hpc] at hin
    cases hin
  | unlocked hpc => exact absurd rfl (hno rfl)
  | opened hpc =>
    rw [hpc] at h
    obtain rfl : added = [] := h
    obtain ⟨env, hs⟩ := hs.file rfl
    exact ⟨k, (F.openFile hd hs).1, F.grows_nil k, rfl, rfl, rfl, fun _ => rfl⟩
  | notOpened hpc =>
    rw [hpc] at h
    obtain rfl : added = [] := h
    obtain ⟨env, hs⟩ := hs.file rfl
    exact ⟨k, (F.openFile hd hs).1, F.grows_nil k, ⟨0, rfl⟩, rfl, rfl, fun _ => rfl⟩
  | @wrote fd n hpc =>
    rw [hpc] at h
    obtain rfl : added = [] := h
    obtain ⟨env, hs⟩ := hs.file rfl
    obtain ⟨k', hd', hg⟩ := F.write hd hs
    exact ⟨k', hd', by simpa [kept] using hg, ⟨n, by simp [kept, taken]⟩, rfl, rfl, fun _ => rfl⟩
  | notWritten hpc =>
    rw [hpc] at h
    obtain rfl : added = [] := h
    obtain ⟨env, hs⟩ := hs.file rfl
    obtain ⟨k', hd', hg⟩ := F.write hd hs
    exact ⟨k', hd', by simpa [kept] using hg, ⟨0, rfl⟩, rfl, rfl, fun _ => rfl⟩
  | closed hpc | notClosed hpc =>
    rw [hpc] at h
    obtain ⟨n, hn⟩ := h
    obtain ⟨env, hs⟩ := hs.file rfl
    exact ⟨k, F.close hd hs, F.grows_nil k, ⟨n, by simpa [kept] using hn⟩, rfl, rfl, fun _ => rfl⟩
  | notUnlocked hpc | released hpc =>
    rw [hpc] at h
    obtain ⟨n, hn⟩ := h
    obtain rfl := hs.other rfl
    exact ⟨k, hd, F.grows_nil k, ⟨n, by simpa [kept] using hn⟩, rfl, rfl, fun _ => rfl⟩

theorem inside_call (hm : Inside F t d act t' d') : ∃ req a, act = .call req a ∧
    t.inSection = true ∧ t.request = .ok req ∧ (req = .unlock → a ≠ .done) ∧
    Served F d req a d' ∧ t.resume a = .ok t' := by
  cases hm with
  | file hin hreq hf hserve hres =>
    refine ⟨_, _, rfl, hin, hreq, ?_, .inl ⟨hf, _, hserve⟩, hres⟩
    rintro rfl
    cases hf
  | other hin hreq hf hno hres => exact ⟨_, _, rfl, hin, hreq, hno, .inr ⟨hf, rfl⟩, hres⟩

theorem underWay_inside (h : UnderWay F k₀ w acts t d) (hm : Inside F t d act t' d') :
    UnderWay F k₀ w (acts ++ [act]) t' d' := by
  obtain ⟨k, hd, hg, hp⟩ := h
  obtain ⟨req, a, rfl, hin, hreq, hno, hs, hres⟩ := inside_call hm
  cases t with
  | absent => cases hin
  | connection u =>
    obtain ⟨msg, rfl, hlen, ha, hh⟩ := hp
    obtain ⟨u', hu, rfl⟩ := map_ok hres
    obtain ⟨k', hd', hg', hh'⟩ := handles_step hh hd hin hreq hno hs hu
    refine ⟨k', hd', ?_, msg, rfl, hlen, ?_, ?_⟩
    · rw [kept_snoc]
      exact F.grows_append hg hg'
    · rw [aim_snoc]
      exact aiming_step ha hin hreq hu
    · rw [kept_snoc, sent_append, aim_snoc]
      exact hh'
  | ticker u =>
    obtain ⟨rfl, hnil, haim, hh⟩ := hp
    obtain ⟨u', hu, rfl⟩ := map_ok hres
    obtain ⟨k', hd', hg', hh', htext, hsent, hseek⟩ := stamps_step hh hd hin hreq hno hs hu
    refine ⟨k', hd', ?_, by rw [htext], ?_, ?_, ?_⟩
    · rw [kept_snoc]
      exact F.grows_append hg hg'
    · rw [sent_append, hnil, hsent, List.append_nil]
    · rw [aim_snoc, hseek, haim]
    · rw [kept_snoc]
      exact hh'

theorem underWay_enter (hw : Waits w t) (hd : F.stands d k₀) (hreq : t.request = .ok .lock)
    (hres : t.resume .done = .ok t') : UnderWay F k₀ w [.call .lock .done] t' d := by
  refine ⟨k₀, hd, F.grows_nil k₀, ?_⟩
  cases t with
  | absent => cases hreq
  | connection u =>
    obtain ⟨u', hu, rfl⟩ := map_ok hres
    have hreq' : u.request = .ok .lock := hreq
    cases turn_of_resume hreq' hu with
    | @locked msg hst =>
      have hw' : Gathered w u.stage := hw
      rw [hst] at hw'
      obtain ⟨hmsg, hlen⟩ := hw'
      refine ⟨msg, hmsg, hlen, ⟨coordinates_dispatch u msg, fun s hs => by cases hs⟩, ?_⟩
      cases hc : isCommand msg with
      | true =>
        simp only [Session.dispatch, hc, if_true]
        refine ⟨?_, rfl⟩
        rw [Fragment, hc]
        rfl
      | false =>
        simp only [Session.dispatch, hc, Bool.false_eq_true, if_false]
        exact ⟨hc, rfl, rfl, rfl⟩
  | ticker u =>
    obtain ⟨u', hu, rfl⟩ := map_ok hres
    have hreq' : u.request = .ok .lock := hreq
    cases tick_of_resume hreq' hu with
    | locked hpc => exact ⟨hw hpc, rfl, rfl, rfl⟩

theorem entered_underWay {i : Nat} (hw : Waits w t) (hd : F.stands d k₀)
    (h : Entered (threads F) i t d acts t' d') : UnderWay F k₀ w acts t' d' := by
  induction h with
  | enter hm =>
    obtain ⟨rfl, rfl, hreq, hres⟩ := hm
    exact underWay_enter hw hd hreq hres
  | inside _ hm ih => exact underWay_inside ih hm

end Aesd.Sections
