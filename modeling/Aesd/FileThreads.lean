import Aesd.Lib.Monitor
import Aesd.TimestampThread
import Aesd.Transactions

namespace Aesd.FileThreads

open Aesd.Lib.BlockHeap Aesd.Lib.Transition Aesd.Lib.Monitor Aesd.ServerThread Aesd.Connection
open Aesd.Rules
open Aesd.TimestampThread
open Aesd.Transactions (isDriver)

def taken (bytes : List UInt8) : Answer → List UInt8
  | .count n => bytes.take n
  | _ => []

/-- What the threads rely on of the file `DATAFILE_NAME`, whichever it is: a
device `δ` that stands for a content `κ`, whose calls meet `η`. What is written
joins the content, reading through a descriptor gives a piece of what a readable
content shows, and the answer to a seek tells where it has led. -/
structure Datafile (δ η κ : Type) where
  serve : δ → Request → η → Except Fault (Answer × δ)
  stands : δ → κ → Prop
  position : δ → Nat → Option Nat
  shows : κ → List UInt8
  readable : κ → Prop
  grows : κ → List UInt8 → κ → Prop
  seeks : κ → Nat → Nat → Answer → Nat
  grows_nil : ∀ k, grows k [] k
  grows_append : ∀ {k k' k'' bs bs'}, grows k bs k' → grows k' bs' k'' → grows k (bs ++ bs') k''
  openFile : ∀ {d d' k env a}, stands d k → serve d .openFile env = .ok (a, d') →
    stands d' k ∧ ∀ fd, a = .fd fd → position d' fd = some 0
  write : ∀ {d d' k fd bytes env a}, stands d k → serve d (.write fd bytes) env = .ok (a, d') →
    ∃ k', stands d' k' ∧ grows k (taken bytes a) k'
  ioctl : ∀ {d d' k fd c o env a}, stands d k → serve d (.ioctl fd c o) env = .ok (a, d') →
    stands d' k ∧ (readable k → position d fd = some 0 →
      seeks k c o a ≤ (shows k).length ∧ position d' fd = some (seeks k c o a))
  read : ∀ {d d' k fd env a}, stands d k → serve d (.read fd sockReadBufSize) env = .ok (a, d') →
    stands d' k ∧ (readable k → ∀ p bs, position d fd = some p → p ≤ (shows k).length →
      a = .bytes bs → bs <+: (shows k).drop p ∧ position d' fd = some (p + bs.length))
  close : ∀ {d d' k fd env a}, stands d k → serve d (.close fd) env = .ok (a, d') → stands d' k

inductive Task
  | absent
  | connection (u : Session)
  | ticker (t : Ticker)
  deriving DecidableEq, Repr

def Task.request : Task → Except Fault Request
  | .absent => .error .disabled
  | .connection u => u.request
  | .ticker t => t.request

def Task.resume : Task → Answer → Except Fault Task
  | .absent, _ => .error .disabled
  | .connection u, a => (u.resume a).map .connection
  | .ticker t, a => (t.resume a).map .ticker

def holding : Stage → Bool
  | .writing _ _ | .sending _ _ | .unlocking _ => true
  | _ => false

def ticking : TickPc → Bool
  | .openFile | .write _ | .close _ | .unlockExit | .unlock => true
  | _ => false

def Task.inSection : Task → Bool
  | .absent => false
  | .connection u => holding u.stage
  | .ticker t => ticking t.pc

inductive Act
  | born
  | call (req : Request) (a : Answer)
  | clock (tm : Option Tm)
  | slept
  deriving DecidableEq, Repr

inductive Alone : Task → Act → Task → Prop
  | accept (writeCmd writeCmdOffset : Nat) :
      Alone .absent .born (.connection (Session.init writeCmd writeCmdOffset))
  | started : Alone .absent .born (.ticker Ticker.init)
  | own {t t' : Task} {req : Request} {a : Answer} : t.inSection = false → t.request = .ok req →
      (req = .lock → a ≠ .done) → t.resume a = .ok t' → Alone t (.call req a) t'
  | clock {t t' : Ticker} {tm : Option Tm} : t.clocked tm = .ok t' →
      Alone (.ticker t) (.clock tm) (.ticker t')
  | slept {t t' : Ticker} : t.slept = .ok t' → Alone (.ticker t) .slept (.ticker t')

variable {δ η κ : Type}

/-- With the mutex held. An unlock that fails leaves it held. -/
inductive Inside (F : Datafile δ η κ) (t : Task) (d : δ) : Act → Task → δ → Prop
  | file {t' : Task} {req : Request} {env : η} {a : Answer} {d' : δ} : t.inSection = true →
      t.request = .ok req → isDriver req = true → F.serve d req env = .ok (a, d') →
      t.resume a = .ok t' → Inside F t d (.call req a) t' d'
  | other {t' : Task} {req : Request} {a : Answer} : t.inSection = true → t.request = .ok req →
      isDriver req = false → (req = .unlock → a ≠ .done) → t.resume a = .ok t' →
      Inside F t d (.call req a) t' d

def threads (F : Datafile δ η κ) : Discipline Nat Task δ Act where
  alone _ := Alone
  enter _ t d act t' d' := d' = d ∧ act = .call .lock .done ∧ t.request = .ok .lock ∧
    t.resume .done = .ok t'
  inside _ := Inside F
  leave _ t d act t' d' := d' = d ∧ act = .call .unlock .done ∧ t.inSection = true ∧
    t.request = .ok .unlock ∧ t.resume .done = .ok t'

variable {F : Datafile δ η κ} {d' : δ} {t t' : Task} {act : Act}

def Gone : Stage → Prop
  | .exited _ _ => True
  | _ => False

def Task.Gone : Task → Prop
  | .absent => False
  | .connection u => FileThreads.Gone u.stage
  | .ticker t => t.pc = .exited

variable {u u' : Session} {req : Request} {a : Answer}

theorem gone_request (h : Gone u.stage) : u.request = .error .disabled := by
  unfold Session.request
  cases hst : u.stage with
  | exited done leaked => rfl
  | starting | allocating | receiving acc | growing acc | locking msg | writing line p
  | sending p chunk | unlocking failed | resetting | closing freed =>
    rw [hst] at h
    exact h.elim

theorem unlocking_of_holding (hin : holding u.stage = true) (hh : inHelper u.stage = false)
    (hreq : u.request = .ok req) : (∃ failed, u.stage = .unlocking failed) ∧ req = .unlock := by
  unfold Session.request at hreq
  cases hst : u.stage with
  | unlocking failed =>
    rw [hst] at hreq
    cases hreq
    exact ⟨⟨failed, rfl⟩, rfl⟩
  | writing line p | sending p chunk =>
    rw [hst] at hh
    cases hh
  | starting | allocating | receiving acc | growing acc | locking msg | resetting
  | closing freed | exited done leaked =>
    rw [hst] at hin
    cases hin

def isInward : Request → Bool
  | .unlock | .send _ => true
  | req => isDriver req

theorem holding_request (hreq : u.request = .ok req) : holding u.stage = isInward req := by
  unfold Session.request at hreq
  cases hst : u.stage with
  | writing line p | sending p chunk =>
    rw [hst] at hreq
    cases p <;> cases hreq <;> rfl
  | closing freed =>
    rw [hst] at hreq
    cases freed <;> cases hreq <;> rfl
  | starting | allocating | receiving acc | growing acc | locking msg | unlocking failed
  | resetting | exited done leaked =>
    rw [hst] at hreq
    cases hreq <;> rfl

theorem turn_holding (hreq : u.request = .ok req) (hres : u.resume a = .ok u') :
    (holding u'.stage = true ↔ req = .lock ∧ a = .done ∨ req ≠ .unlock ∧ holding u.stage = true) ∧
      (req = .unlock → a = .failed → Gone u'.stage) := by
  cases turn_of_resume hreq hres with
  | masked hst | grown hst | opened hst | wroteLine hst | wroteNewline hst | written hst | reopened hst
  | sought hst | fetched hst | ended hst | sent hst | replied hst | unlocked hst | freed hst
  | logged hst | sentShort hst => simp [hst, holding, Session.goto]
  | allocated hst => obtain hst | hst := hst <;> simp [hst, holding, Session.goto]
  | received hst =>
    unfold Session.received
    split
    · simp [hst, holding, Session.goto]
    · split <;> simp [hst, holding, Session.goto]
  | locked hst =>
    unfold Session.dispatch
    split <;> simp [hst, holding]
  | lost hh hd _ =>
    unfold Session.request at hreq
    cases hst : u.stage with
    | writing line p | sending p chunk =>
      rw [hst] at hh
      cases hh
    | closing freed =>
      rw [hst] at hd
      cases hd
    | exited done leaked =>
      rw [hst] at hreq
      cases hreq
    | starting | allocating | receiving acc | growing acc | locking msg | unlocking failed
    | resetting =>
      rw [hst] at hreq
      cases hreq
      simp [holding, Session.goto, Gone]
  | aborted hh _ =>
    unfold Session.request at hreq
    obtain ⟨line, p, hst⟩ | ⟨p, chunk, hst⟩ := stage_of_inHelper hh <;> rw [hst] at hreq <;>
      cases p <;> cases hreq <;> simp [hst, holding, Session.goto]
  | released hst => simp [hst, holding, Session.goto, Gone]

theorem ticking_request {t : Ticker} (hreq : t.request = .ok req) : ticking t.pc = isInward req := by
  unfold Ticker.request at hreq
  cases hpc : t.pc with
  | clock | lock | openFile | write fd | close fd | unlockExit | unlock | sleep | exited =>
    rw [hpc] at hreq
    cases hreq <;> rfl

theorem ticking_turn {t t' : Ticker} (hreq : t.request = .ok req) (hres : t.resume a = .ok t') :
    (ticking t'.pc = true ↔ req = .lock ∧ a = .done ∨ req ≠ .unlock ∧ ticking t.pc = true) ∧
      (req = .unlock → a = .failed → t'.pc = .exited) := by
  cases tick_of_resume hreq hres with
  | locked hpc | notLocked hpc | opened hpc | notOpened hpc | wrote hpc | notWritten hpc
  | closed hpc | notClosed hpc | unlocked hpc | notUnlocked hpc | released hpc =>
    simp [hpc, ticking, Ticker.goto]

theorem inSection_request (hreq : t.request = .ok req) : t.inSection = isInward req := by
  cases t with
  | absent => cases hreq
  | connection u => exact holding_request hreq
  | ticker u => exact ticking_request hreq

theorem isInward_of_isDriver (hd : isDriver req = true) : isInward req = true := by
  cases req with
  | openFile | write fd bytes | ioctl fd c o | read fd n | close fd => rfl
  | sigmask | alloc | recv | lock | unlock | send bytes | free | syslog => cases hd

theorem task_turn (hreq : t.request = .ok req) (hres : t.resume a = .ok t') :
    (t'.inSection = true ↔ req = .lock ∧ a = .done ∨ req ≠ .unlock ∧ t.inSection = true) ∧
      (req = .unlock → a = .failed → t'.Gone) := by
  cases t with
  | absent => cases hreq
  | connection u =>
    obtain ⟨u', hu, rfl⟩ := map_ok hres
    exact turn_holding hreq hu
  | ticker u =>
    obtain ⟨u', hu, rfl⟩ := map_ok hres
    exact ticking_turn hreq hu

theorem Task.Gone.request (h : t.Gone) : t.request ≠ .ok req := by
  intro hreq
  cases t with
  | absent => exact h
  | connection u =>
    have hreq' : u.request = .ok req := hreq
    rw [gone_request h] at hreq'
    cases hreq'
  | ticker u =>
    have hpc : u.pc = .exited := h
    have hreq' : u.request = .ok req := hreq
    rw [Ticker.request, hpc] at hreq'
    cases hreq'

/-- The mutex belongs to the thread in its section. A thread whose unlock has
failed is gone and has it still. -/
structure Owned (s : System Nat Task δ) : Prop where
  mine : ∀ i, (s.tasks i).inSection = true → s.owner = some i
  held : ∀ i, s.owner = some i → (s.tasks i).inSection = true ∨ (s.tasks i).Gone

theorem owned_init (d : δ) : Owned (⟨none, d, fun _ => .absent⟩ : System Nat Task δ) :=
  ⟨fun _ h => (by cases h), fun _ h => (by cases h)⟩

inductive Outcome (F : Datafile δ η κ) (s : System Nat Task δ) (i : Nat) (req : Request)
    (a : Answer) : Option Nat → δ → Prop
  | file {env : η} {d' : δ} : isDriver req = true → F.serve s.shared req env = .ok (a, d') →
      Outcome F s i req a s.owner d'
  | lock : req = .lock → a = .done → s.owner = none → Outcome F s i req a (some i) s.shared
  | unlock : req = .unlock → a = .done → s.owner = some i → Outcome F s i req a none s.shared
  | rest : isDriver req = false → (req = .lock ∨ req = .unlock → a = .failed) →
      Outcome F s i req a s.owner s.shared

variable {s : System Nat Task δ} {i : Nat} {o : Option Nat}

theorem Owned.update (ho : Owned s)
    (hself : (t'.inSection = true → o = some i) ∧ (o = some i → t'.inSection = true ∨ t'.Gone))
    (hothers : ∀ j, j ≠ i → (s.owner = some j ↔ o = some j)) :
    Owned ⟨o, d', Function.update s.tasks i t'⟩ := by
  refine ⟨fun j hj => ?_, fun j hj => ?_⟩
  · by_cases hji : j = i
    · subst hji
      simp only [Function.update_self] at hj
      exact hself.1 hj
    · simp only [Function.update_of_ne hji] at hj
      exact (hothers j hji).mp (ho.mine j hj)
  · by_cases hji : j = i
    · subst hji
      simp only [Function.update_self]
      exact hself.2 hj
    · simp only [Function.update_of_ne hji]
      exact ho.held j ((hothers j hji).mpr hj)

theorem Owned.free (ho : Owned s) (hin : (s.tasks i).inSection = false) (hg : ¬ (s.tasks i).Gone) :
    s.owner ≠ some i := by
  intro hm
  obtain h | h := ho.held i hm
  · rw [hin] at h
    cases h
  · exact hg h

theorem alone_moves (ho : Owned s) (hin : (s.tasks i).inSection = false)
    (hg : ¬ (s.tasks i).Gone) (hin' : t'.inSection = false) (h : Alone (s.tasks i) act t') :
    Owned ⟨s.owner, s.shared, Function.update s.tasks i t'⟩ ∧
      Move (threads F) s i act ⟨s.owner, s.shared, Function.update s.tasks i t'⟩ := by
  have hnot := ho.free hin hg
  refine ⟨ho.update ⟨fun h => ?_, fun h => absurd h hnot⟩ fun _ _ => Iff.rfl, .alone hnot h⟩
  rw [hin'] at h
  cases h

/-- A call of a thread is a move that the mutex allows. -/
theorem call_moves (ho : Owned s) (hreq : (s.tasks i).request = .ok req)
    (hres : (s.tasks i).resume a = .ok t') (hout : Outcome F s i req a o d') :
    Owned ⟨o, d', Function.update s.tasks i t'⟩ ∧
      Move (threads F) s i (.call req a) ⟨o, d', Function.update s.tasks i t'⟩ := by
  obtain ⟨hafter, hgone⟩ := task_turn hreq hres
  have hinward := inSection_request hreq
  cases hout with
  | file hd hs =>
    have hin := hinward.trans (isInward_of_isDriver hd)
    have hown := ho.mine i hin
    have hne : req ≠ .unlock := by
      rintro rfl
      cases hd
    have hin' := hafter.mpr (.inr ⟨hne, hin⟩)
    refine ⟨ho.update ⟨fun _ => hown, fun _ => .inl hin'⟩ fun _ _ => Iff.rfl, ?_⟩
    rw [hown]
    exact .inside hown (Inside.file hin hreq hd hs hres)
  | lock hl ha hfree =>
    subst hl ha
    have hin' := hafter.mpr (.inl ⟨rfl, rfl⟩)
    refine ⟨ho.update ⟨fun _ => rfl, fun _ => .inl hin'⟩ fun j hj => ?_, .enter hfree ?_⟩
    · rw [hfree]
      simp [Ne.symm hj]
    · exact ⟨rfl, rfl, hreq, hres⟩
  | unlock hu ha hown =>
    subst hu ha
    have hin' : ¬ t'.inSection = true := fun h => by
      obtain ⟨h, _⟩ | ⟨h, _⟩ := hafter.mp h
      · cases h
      · exact h rfl
    refine ⟨ho.update ⟨fun h => absurd h hin', fun h => (by cases h)⟩ fun j hj => ?_, .leave hown ?_⟩
    · rw [hown]
      simp [Ne.symm hj]
    · exact ⟨rfl, rfl, hinward, hreq, hres⟩
  | rest hd hfail =>
    have hnolock : req = .lock → a ≠ .done := fun hr => by
      rw [hfail (.inl hr)]
      simp
    have hnounlock : req = .unlock → a ≠ .done := fun hr => by
      rw [hfail (.inr hr)]
      simp
    cases hin : (s.tasks i).inSection with
    | true =>
      have hown := ho.mine i hin
      refine ⟨ho.update ⟨fun _ => hown, fun _ => ?_⟩ fun _ _ => Iff.rfl, ?_⟩
      · by_cases hr : req = .unlock
        · exact .inr (hgone hr (hfail (.inr hr)))
        · exact .inl (hafter.mpr (.inr ⟨hr, hin⟩))
      · rw [hown]
        exact .inside hown (Inside.other hin hreq hd hnounlock hres)
    | false =>
      have hin' : t'.inSection = false := by
        cases hc : t'.inSection with
        | false => rfl
        | true =>
          obtain ⟨hr, ha⟩ | ⟨_, h⟩ := hafter.mp hc
          · exact absurd ha (hnolock hr)
          · rw [hin] at h
            cases h
      exact alone_moves ho hin (fun hg => hg.request hreq) hin' (Alone.own hin hreq hnolock hres)

end Aesd.FileThreads
