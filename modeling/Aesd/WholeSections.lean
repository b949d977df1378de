import Aesd.Sections

namespace Aesd.WholeSections

open Aesd.Lib.BlockHeap Aesd.Lib.Transition Aesd.Lib.Monitor Aesd.CString Aesd.ServerThread
open Aesd.Connection Aesd.Rules
open Aesd.TimestampThread Aesd.FileThreads Aesd.Sections
open Aesd.RecordLog (newline)

variable {δ η κ : Type}

def whole : Purpose → List UInt8
  | .message msg => if isCommand msg then [] else lineOf msg ++ [newline]
  | .stamp text => text

/-- The file could be opened, and has taken every byte of a write. -/
def wrote : Act → Bool
  | .call .openFile .failed | .call (.write _ _) .failed => false
  | .call (.write _ bytes) (.count n) => bytes.length ≤ n
  | _ => true

/-- What a connection has added to the file by now, if nothing of it was lost. -/
def Reached (msg added : List UInt8) : Stage → Prop
  | .writing line p => isCommand msg = false ∧ line = lineOf msg ∧
      match p with
      | .openFile | .line _ => added = []
      | .newline _ => added = line
      | .close _ => added = line ++ [newline]
  | _ => added = whole (.message msg)

def Stamped (added : List UInt8) (t : Ticker) : Prop :=
  match t.pc with
  | .openFile | .write _ => added = []
  | _ => added = t.timestr

def TaskReached (w : Purpose) (added : List UInt8) : Task → Prop
  | .absent => False
  | .connection u => ∃ msg, w = .message msg ∧ Reached msg added u.stage
  | .ticker t => w = .stamp t.timestr ∧ Stamped added t

variable {F : Datafile δ η κ} {w : Purpose} {acts : List Act} {d d' : δ} {t t' : Task}
  {act : Act} {msg added : List UInt8} {req : Request} {a : Answer}

theorem Reached.all {stage : Stage} (h : Reached msg added stage)
    (hst : ∀ line p, stage = .writing line p → ∃ fd, p = .close fd) :
    added = whole (.message msg) := by
  cases stage with
  | writing line p =>
    obtain ⟨fd, rfl⟩ := hst line p rfl
    obtain ⟨hc, rfl, hadd⟩ := h
    rw [whole, hc]
    exact hadd
  | starting | allocating | receiving acc | growing acc | locking msg | sending p chunk
  | unlocking failed | resetting | closing freed | exited done leaked => exact h

theorem reached_step {u u' : Session} (h : Reached msg added u.stage)
    (hin : holding u.stage = true) (hreq : u.request = .ok req) (hno : req = .unlock → a ≠ .done)
    (hw : wrote (.call req a) = true) (hres : u.resume a = .ok u') :
    Reached msg (added ++ kept [.call req a]) u'.stage := by
  cases turn_of_resume hreq hres with
  | masked hst | grown hst | received hst | locked hst | freed hst | logged hst =>
    rw [hst] at hin
    cases hin
  | allocated hst => obtain hst | hst := hst <;> rw [hst] at hin <;> cases hin
  | unlocked hst => exact absurd rfl (hno rfl)
  | opened hst =>
    rw [hst] at h
    obtain ⟨hc, hline, hadd⟩ := h
    exact ⟨hc, hline, by simpa [kept] using hadd⟩
  | wroteLine hst =>
    rw [hst] at h
    obtain ⟨hc, hline, rfl⟩ := h
    have hall : _ ≤ _ := of_decide_eq_true hw
    exact ⟨hc, hline, by simpa [kept, taken] using hall⟩
  | wroteNewline hst =>
    rw [hst] at h
    obtain ⟨hc, hline, rfl⟩ := h
    have hall : _ ≤ _ := of_decide_eq_true hw
    refine ⟨hc, hline, ?_⟩
    simp only [kept, taken, List.flatMap_singleton, List.take_of_length_le hall]
  | written hst =>
    rw [hst] at h
    have hadd := h.all fun _ _ hp => ⟨_, (Stage.writing.inj hp).2.symm⟩
    simpa [Reached, kept, Session.goto] using hadd
  | reopened hst | sought hst | fetched hst | ended hst | sent hst | replied hst | sentShort hst
  | released hst =>
    rw [hst] at h
    simpa [Reached, kept, Session.goto] using h
  | lost hh =>
    obtain ⟨⟨failed, hst⟩, _⟩ := unlocking_of_holding hin hh hreq
    rw [hst] at h
    rw [kept_failed, List.append_nil]
    exact h
  | aborted hh _ =>
    rw [kept_failed, List.append_nil]
    refine h.all fun line p hst => ?_
    unfold Session.request at hreq
    rw [hst] at hreq
    cases p with
    | close fd => exact ⟨fd, rfl⟩
    | openFile | line fd | newline fd =>
      cases hreq
      cases hw

theorem stamped_step {t t' : Ticker} (h : Stamped added t) (hin : ticking t.pc = true)
    (hreq : t.request = .ok req) (hno : req = .unlock → a ≠ .done)
    (hw : wrote (.call req a) = true) (hres : t.resume a = .ok t') :
    Stamped (added ++ kept [.call req a]) t' ∧ t'.timestr = t.timestr := by
  unfold Stamped at h
  cases tick_of_resume hreq hres with
  | locked hpc | notLocked hpc =>
    rw [hpc] at hin
    cases hin
  | unlocked hpc => exact absurd rfl (hno rfl)
  | notOpened hpc | notWritten hpc => cases hw
  | opened hpc | closed hpc | notClosed hpc | notUnlocked hpc | released hpc =>
    rw [hpc] at h
    exact ⟨by simpa [kept, Stamped, Ticker.goto] using h, rfl⟩
  | wrote hpc =>
    rw [hpc] at h
    obtain rfl : added = [] := h
    have hall : t.timestr.length ≤ _ := of_decide_eq_true hw
    refine ⟨?_, rfl⟩
    simp only [Stamped, Ticker.goto, kept, taken, List.flatMap_singleton, List.nil_append]
    exact List.take_of_length_le hall

theorem reached_inside (h : TaskReached w (kept acts) t) (hm : Inside F t d act t' d')
    (hw : wrote act = true) : TaskReached w (kept (acts ++ [act])) t' := by
  obtain ⟨req, a, rfl, hin, hreq, hno, _, hres⟩ := inside_call hm
  rw [kept_snoc]
  cases t with
  | absent => cases hin
  | connection u =>
    obtain ⟨msg, rfl, hh⟩ := h
    obtain ⟨u', hu, rfl⟩ := map_ok hres
    exact ⟨msg, rfl, reached_step hh hin hreq hno hw hu⟩
  | ticker u =>
    obtain ⟨rfl, hh⟩ := h
    obtain ⟨u', hu, rfl⟩ := map_ok hres
    obtain ⟨hh', htext⟩ := stamped_step hh hin hreq hno hw hu
    exact ⟨by rw [htext], hh'⟩

theorem reached_enter (hw : Waits w t) (hreq : t.request = .ok .lock)
    (hres : t.resume .done = .ok t') : TaskReached w [] t' := by
  cases t with
  | absent => cases hreq
  | connection u =>
    obtain ⟨u', hu, rfl⟩ := map_ok hres
    have hreq' : u.request = .ok .lock := hreq
    cases turn_of_resume hreq' hu with
    | @locked msg hst =>
      have hw' : Gathered w u.stage := hw
      rw [hst] at hw'
      refine ⟨msg, hw'.1, ?_⟩
      cases hc : isCommand msg with
      | true => simp [Session.dispatch, Reached, whole, hc]
      | false => simp [Session.dispatch, Reached, hc]
  | ticker u =>
    obtain ⟨u', hu, rfl⟩ := map_ok hres
    have hreq' : u.request = .ok .lock := hreq
    cases tick_of_resume hreq' hu with
    | locked hpc => exact ⟨hw hpc, rfl⟩

theorem entered_reached {i : Nat} (hw : Waits w t) (h : Entered (threads F) i t d acts t' d')
    (hall : ∀ act ∈ acts, wrote act = true) : TaskReached w (kept acts) t' := by
  induction h with
  | enter hm =>
    obtain ⟨_, rfl, hreq, hres⟩ := hm
    exact reached_enter hw hreq hres
  | inside _ hm ih =>
    have hbefore := ih fun act hact => hall act (List.mem_append_left _ hact)
    exact reached_inside hbefore hm (hall _ (List.mem_append_right _ (List.mem_singleton.mpr rfl)))

theorem section_whole {i : Nat} (hw : Waits w t) (h : Section (threads F) i t d acts t' d')
    (hall : ∀ act ∈ acts, wrote act = true) : kept acts = whole w := by
  cases h with
  | @leave acts act t _ d _ he hl =>
    obtain ⟨rfl, rfl, hin, hreq, hres⟩ := hl
    have hr := entered_reached hw he fun act hact => hall act (List.mem_append_left _ hact)
    rw [kept_snoc]
    refine (List.append_nil _).trans ?_
    cases t with
    | absent => cases hin
    | connection u =>
      obtain ⟨msg, rfl, hh⟩ := hr
      obtain ⟨u', hu, rfl⟩ := map_ok hres
      have hreq' : u.request = .ok .unlock := hreq
      refine hh.all fun line p hst => ?_
      cases turn_of_resume hreq' hu with
      | unlocked hst' | released hst' =>
        rw [hst] at hst'
        cases hst'
    | ticker u =>
      obtain ⟨rfl, hh⟩ := hr
      obtain ⟨u', hu, rfl⟩ := map_ok hres
      have hreq' : u.request = .ok .unlock := hreq
      unfold Stamped at hh
      cases tick_of_resume hreq' hu with
      | unlocked hpc | released hpc =>
        rw [hpc] at hh
        exact hh

end Aesd.WholeSections
