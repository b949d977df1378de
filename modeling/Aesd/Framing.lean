import Aesd.Failures
import Aesd.Lib.Transition
import Mathlib.Algebra.BigOperators.Ring.List

namespace Aesd.Framing

open Aesd.Lib.BlockHeap Aesd.Lib.Sequence Aesd.Lib.Transition Aesd.CString Aesd.ServerThread
open Aesd.Connection Aesd.Rules Aesd.Failures
open Aesd.RecordLog (newline)

def lineWritten (msg : List UInt8) : Option (List UInt8) :=
  if isCommand msg then none else some (lineOf msg)

/-- A line that a client may send. -/
structure Sendable (line : List UInt8) : Prop where
  nonempty : line ≠ []
  no_newline : newline ∉ line
  no_nul : nul ∉ line
  no_command : isCommand line = false

def stream (lines : List (List UInt8)) : List UInt8 := lines.flatMap (· ++ [newline])

theorem stream_cons (line : List UInt8) (lines : List (List UInt8)) :
    stream (line :: lines) = line ++ newline :: stream lines := by
  rw [stream, List.flatMap_cons, List.append_assoc]
  rfl

def weight (bs : List UInt8) : Nat := bs.countP (· ≠ newline)

theorem weight_append (bs bs' : List UInt8) : weight (bs ++ bs') = weight bs + weight bs' :=
  List.countP_append

theorem weight_line {line : List UInt8} (h : newline ∉ line) : weight line = line.length := by
  apply List.countP_eq_length.mpr
  intro b hb
  simp only [ne_eq, decide_eq_true_eq]
  rintro rfl
  exact h hb

theorem weight_stream {lines : List (List UInt8)} (h : ∀ line ∈ lines, newline ∉ line) :
    weight (stream lines) = lines.flatten.length := by
  induction lines with
  | nil => rfl
  | cons line lines ih =>
    have hn : weight (newline :: stream lines) = weight (stream lines) := by
      simp [weight]
    rw [stream_cons, weight_append, hn, weight_line (h _ List.mem_cons_self),
      ih fun l hl => h l (List.mem_cons_of_mem _ hl), List.flatten_cons, List.length_append]

theorem weight_written (msgs : List (List UInt8)) :
    (msgs.filterMap lineWritten).flatten.length ≤ weight msgs.flatten := by
  induction msgs with
  | nil => exact Nat.zero_le _
  | cons msg msgs ih =>
    have hline : (lineOf msg).length ≤ weight msg := by
      rw [← weight_line (newline_notMem_lineOf msg)]
      exact (lineOf_isPrefix msg).sublist.countP_le
    rw [List.flatten_cons, weight_append, List.filterMap_cons]
    unfold lineWritten
    split
    · exact ih.trans (Nat.le_add_left _ _)
    · next line hl =>
      split at hl
      · cases hl
      · rw [Option.some.injEq] at hl
        subst hl
        rw [List.flatten_cons, List.length_append]
        exact Nat.add_le_add hline ih

theorem lineOf_line {line : List UInt8} (h : Sendable line) (rest : List UInt8) :
    lineOf (line ++ newline :: rest) = line := by
  unfold lineOf
  rw [List.takeWhile_append_of_pos]
  · simp
  · intro b hb
    simp only [ne_eq, Bool.and_eq_true, decide_eq_true_eq]
    exact ⟨fun he => h.no_newline (he ▸ hb), fun he => h.no_nul (he ▸ hb)⟩

/-- No line that a client may send becomes a command by what follows it. -/
theorem not_isCommand {line : List UInt8} (h : Sendable line) {msg rest : List UInt8}
    (hp : msg <+: line ++ newline :: rest) : isCommand msg = false := by
  cases hc : isCommand msg with
  | false => rfl
  | true =>
    have hcmd := (List.isPrefixOf_iff_prefix.mp hc).trans hp
    have hend : newline ∉ iocseektoCmdStr.take iocseektoCmdStrlen := by decide
    have hline : line ++ [newline] <+: line ++ newline :: rest := ⟨rest, by simp⟩
    obtain hl | hl := List.prefix_or_prefix_of_prefix hcmd hline
    · obtain he | hl := List.prefix_concat_iff.mp hl
      · exact absurd (he ▸ List.mem_append_right _ (List.mem_singleton_self _)) hend
      · have hno := h.no_command
        rw [isCommand, List.isPrefixOf_iff_prefix.mpr hl] at hno
        cases hno
    · exact absurd (hl.subset (List.mem_append_right _ (List.mem_singleton_self _))) hend

theorem eq_lineOf_append {msg : List UInt8} (hn : nul ∉ msg) :
    msg = lineOf msg ∨ ∃ rest, msg = lineOf msg ++ newline :: rest := by
  have hsplit : lineOf msg ++ msg.dropWhile (fun b => b ≠ newline && b ≠ nul) = msg :=
    List.takeWhile_append_dropWhile
  cases hd : msg.dropWhile fun b => b ≠ newline && b ≠ nul with
  | nil =>
    rw [hd, List.append_nil] at hsplit
    exact .inl hsplit.symm
  | cons b rest =>
    right
    have hb := List.head?_dropWhile_not (fun b => b ≠ newline && b ≠ nul) msg
    rw [hd] at hb hsplit
    have hmem : b ∈ msg := by
      rw [← hsplit]
      exact List.mem_append_right _ List.mem_cons_self
    have hbn : b ≠ nul := fun h => hn (h ▸ hmem)
    have hnl : b = newline := by simpa [hbn] using hb
    exact ⟨rest, by rw [← hnl, hsplit]⟩

theorem nul_notMem_stream {lines : List (List UInt8)} (h : ∀ line ∈ lines, Sendable line) :
    nul ∉ stream lines := by
  intro hm
  obtain ⟨line, hl, hm⟩ := List.mem_flatMap.mp hm
  obtain hm | hm := List.mem_append.mp hm
  · exact (h line hl).no_nul hm
  · rw [List.mem_singleton] at hm
    revert hm
    decide

theorem lineWritten_newline (bs : List UInt8) : lineWritten (newline :: bs) = some [] := by
  have hcmd : isCommand (newline :: bs) = false := rfl
  rw [lineWritten, hcmd]
  simp [lineOf]

theorem swallowed {lines msgs : List (List UInt8)} {taken rest : List UInt8}
    (hl : ∀ line ∈ lines, Sendable line) (hs : taken ++ (msgs.flatten ++ rest) = stream lines)
    (hc : msgs.filterMap lineWritten = lines) : taken = [] := by
  cases taken with
  | nil => rfl
  | cons b taken =>
    cases lines with
    | nil => cases hs
    | cons line lines =>
      have hnl : ∀ l ∈ line :: lines, newline ∉ l := fun l h => (hl l h).no_newline
      have hle := weight_written msgs
      rw [hc, ← weight_stream hnl, ← hs, weight_append, weight_append] at hle
      obtain ⟨c, cs, rfl⟩ := List.exists_cons_of_ne_nil (hl line List.mem_cons_self).nonempty
      rw [stream_cons, List.cons_append, List.cons_append, List.cons.injEq] at hs
      have hb : b ≠ newline := by
        rw [hs.1]
        rintro rfl
        exact hnl _ List.mem_cons_self List.mem_cons_self
      have hpos : 0 < weight (b :: taken) := by
        rw [weight, List.countP_pos_iff]
        exact ⟨b, List.mem_cons_self, by simpa using hb⟩
      omega

/-- Messages that make the server write the lines are the lines, each with its
newline. Induction over the lines: every message starts where a line does. -/
theorem messages_eq {lines msgs : List (List UInt8)} {rest : List UInt8}
    (hl : ∀ line ∈ lines, Sendable line) (hm : ∀ msg ∈ msgs, msg ≠ [])
    (hs : msgs.flatten ++ rest = stream lines) (hrest : rest ≠ [newline])
    (hc : msgs.filterMap lineWritten = lines) : msgs = lines.map (· ++ [newline]) := by
  induction lines generalizing msgs with
  | nil =>
    have hnil : msgs.flatten = [] := (List.append_eq_nil_iff.mp hs).1
    cases msgs with
    | nil => rfl
    | cons msg msgs =>
      rw [List.flatten_cons] at hnil
      exact absurd (List.append_eq_nil_iff.mp hnil).1 (hm msg List.mem_cons_self)
  | cons line lines ih =>
    have hsend := hl line List.mem_cons_self
    cases msgs with
    | nil => cases hc
    | cons msg msgs =>
      rw [List.flatten_cons, List.append_assoc, stream_cons] at hs
      have hcmd : isCommand msg = false := not_isCommand hsend ⟨_, hs⟩
      have hw : lineWritten msg = some (lineOf msg) := by simp [lineWritten, hcmd]
      rw [List.filterMap_cons, hw, List.cons.injEq] at hc
      obtain ⟨hline, hc⟩ := hc
      have hnul : nul ∉ msg := by
        intro h
        apply nul_notMem_stream hl
        rw [stream_cons, ← hs]
        exact List.mem_append_left _ h
      obtain hmsg | ⟨taken, hmsg⟩ := eq_lineOf_append hnul
      · -- the newline is left to the next message, which would write an empty line
        rw [hline] at hmsg
        subst hmsg
        rw [List.append_cancel_left_eq] at hs
        exfalso
        cases msgs with
        | nil =>
          rw [← hc] at hs
          exact hrest hs
        | cons msg' msgs =>
          obtain ⟨b, bs, rfl⟩ := List.exists_cons_of_ne_nil (hm msg' (by simp))
          rw [List.flatten_cons, List.cons_append, List.cons_append, List.cons.injEq] at hs
          obtain ⟨rfl, _⟩ := hs
          have hempty : [] ∈ lines := by
            rw [← hc, List.filterMap_cons, lineWritten_newline]
            exact List.mem_cons_self
          exact (hl [] (List.mem_cons_of_mem _ hempty)).nonempty rfl
      · rw [hline] at hmsg
        rw [hmsg, List.append_assoc, List.append_cancel_left_eq, List.cons_append,
          List.cons.injEq] at hs
        have hlines : ∀ l ∈ lines, Sendable l := fun l h => hl l (List.mem_cons_of_mem _ h)
        have htaken := swallowed hlines hs.2 hc
        subst htaken
        rw [List.map_cons, hmsg, ih hlines (fun m h => hm m (List.mem_cons_of_mem _ h)) hs.2 hc]

/-- One call of a server thread: what it asks for, the line it passes when it
is entering `write_data_to_file`, and the answer. -/
structure Call where
  req : Request
  line : Option (List UInt8)
  answer : Answer

def threadStep (t : Thread) (a : Answer) : Except Fault (Call × Thread) := do
  let req ← t.request
  let line ← t.enters
  let t ← t.resume a
  .ok (⟨req, line, a⟩, t)

def sessionStep (s : Session) (a : Answer) : Except Fault (Call × Session) := do
  let req ← s.request
  let t ← s.resume a
  .ok (⟨req, s.enters, a⟩, t)

theorem threadStep_refines {t : Thread} {s : Session} (h : Simulates t s) (a : Answer) :
    Refines Simulates (threadStep t a) (sessionStep s a) := by
  have hres := h.resume a
  simp only [threadStep, sessionStep, h.request, h.enters, bind, Except.bind]
  cases s.request with
  | error e => rfl
  | ok req =>
    dsimp only
    cases hs : s.resume a with
    | error e =>
      rw [hs] at hres
      simp only [hres, Refines]
    | ok s' =>
      rw [hs] at hres
      obtain ⟨t', ht, hsim⟩ := hres
      simp only [ht]
      exact ⟨t', rfl, hsim⟩

theorem thread_run (c o : Nat) (answers : List Answer) :
    Refines Simulates (exec threadStep (Thread.init c o) answers)
      (exec sessionStep (Session.init c o) answers) :=
  exec_refines (fun _ _ a h => threadStep_refines h a) (simulates_init c o) answers

theorem sessionStep_ok {s s' : Session} {a : Answer} {call : Call}
    (h : sessionStep s a = .ok (call, s')) :
    s.request = .ok call.req ∧ s.resume a = .ok s' ∧ call.line = s.enters ∧ call.answer = a := by
  unfold sessionStep at h
  cases hreq : s.request with
  | error e => simp [hreq, bind, Except.bind] at h
  | ok req =>
    cases hres : s.resume a with
    | error e => simp [hreq, hres, bind, Except.bind] at h
    | ok u =>
      simp only [hreq, hres, bind, Except.bind, Except.ok.injEq, Prod.mk.injEq] at h
      obtain ⟨rfl, rfl⟩ := h
      exact ⟨rfl, rfl, rfl, rfl⟩

def Call.delivers (call : Call) : Option (List UInt8) :=
  match call.req, call.answer with
  | .recv, .bytes bs => some bs
  | _, _ => none

def received (calls : List Call) : List (List UInt8) := calls.filterMap Call.delivers

def written (calls : List Call) : List (List UInt8) := calls.filterMap Call.line

def Call.succeeds (call : Call) : Prop := fails call.req call.answer = false

def short (bs : List UInt8) : Bool := bs.length ≠ sockReadBufSize

/-- The messages the results of `recv` amount to. -/
def messages (segs : List (List UInt8)) : List (List UInt8) := (cut short segs).1.map List.flatten

def unfinished (segs : List (List UInt8)) : List UInt8 := (cut short segs).2.flatten

theorem messages_snoc (segs : List (List UInt8)) (seg : List UInt8) :
    messages (segs ++ [seg]) =
      if short seg then messages segs ++ [unfinished segs ++ seg] else messages segs := by
  unfold messages unfinished
  rw [cut_snoc]
  split <;> simp

theorem unfinished_snoc (segs : List (List UInt8)) (seg : List UInt8) :
    unfinished (segs ++ [seg]) = if short seg then [] else unfinished segs ++ seg := by
  unfold unfinished
  rw [cut_snoc]
  split <;> simp

def linesOf (segs : List (List UInt8)) : List (List UInt8) := (messages segs).filterMap lineWritten

theorem linesOf_full {segs : List (List UInt8)} {seg : List UInt8}
    (h : seg.length = sockReadBufSize) : linesOf (segs ++ [seg]) = linesOf segs := by
  rw [linesOf, messages_snoc, if_neg (by simp [short, h])]
  rfl

theorem linesOf_short {segs : List (List UInt8)} {seg : List UInt8}
    (h : seg.length ≠ sockReadBufSize) :
    linesOf (segs ++ [seg]) = linesOf segs ++ (lineWritten (unfinished segs ++ seg)).toList := by
  rw [linesOf, messages_snoc, if_pos (by simp [short, h]), List.filterMap_append]
  cases hl : lineWritten (unfinished segs ++ seg) <;> simp [linesOf, hl]

/-- What a session holds, and has passed on as lines, of the results received. -/
def Framed (segs lines : List (List UInt8)) : Stage → Prop
  | .starting | .allocating => segs = [] ∧ lines = []
  | .receiving acc | .growing acc =>
    [] ∉ segs ∧ lines = linesOf segs ∧ acc = unfinished segs
  | .locking msg =>
    [] ∉ segs ∧ lines ++ (lineWritten msg).toList = linesOf segs ∧ unfinished segs = []
  | .writing line .openFile => [] ∉ segs ∧ lines ++ [line] = linesOf segs ∧ unfinished segs = []
  | .writing _ _ | .sending _ _ | .unlocking _ | .resetting =>
    [] ∉ segs ∧ lines = linesOf segs ∧ unfinished segs = []
  | .closing _ | .exited _ _ => ∃ before, segs = before ++ [[]] ∧ lines = linesOf before

theorem delivers_of_ne {call : Call} (h : call.req ≠ .recv) : call.delivers = none := by
  unfold Call.delivers
  split
  · next he _ => exact absurd he h
  · rfl

theorem framed_silent {segs lines : List (List UInt8)} {call : Call} {stage : Stage}
    (hreq : call.req ≠ .recv) (hline : call.line = none) (hf : Framed segs lines stage) :
    Framed (segs ++ call.delivers.toList) (lines ++ call.line.toList) stage := by
  rw [delivers_of_ne hreq, hline, Option.toList_none, List.append_nil, List.append_nil]
  exact hf

theorem framed_received {segs lines : List (List UInt8)} {u : Session} {acc bs : List UInt8}
    (hf : [] ∉ segs ∧ lines = linesOf segs ∧ acc = unfinished segs) :
    Framed (segs ++ [bs]) lines (u.received acc bs).stage := by
  obtain ⟨hne, rfl, rfl⟩ := hf
  unfold Session.received
  by_cases h0 : bs.length = 0
  · rw [if_pos h0, List.length_eq_zero_iff.mp h0]
    exact ⟨segs, rfl, rfl⟩
  · have hne' : [] ∉ segs ++ [bs] := by
      rw [List.mem_append, List.mem_singleton, not_or]
      exact ⟨hne, fun h => h0 (h ▸ rfl)⟩
    rw [if_neg h0]
    by_cases hfull : bs.length = sockReadBufSize
    · rw [if_pos hfull]
      refine ⟨hne', (linesOf_full hfull).symm, ?_⟩
      rw [unfinished_snoc, if_neg (by simp [short, hfull])]
    · rw [if_neg hfull]
      refine ⟨hne', (linesOf_short hfull).symm, ?_⟩
      rw [unfinished_snoc, if_pos (by simp [short, hfull])]

theorem framed_dispatch {segs lines : List (List UInt8)} {u : Session} {msg : List UInt8}
    (hf : [] ∉ segs ∧ lines ++ (lineWritten msg).toList = linesOf segs ∧ unfinished segs = []) :
    Framed segs lines (u.dispatch msg).stage := by
  obtain ⟨hne, hlines, hun⟩ := hf
  unfold Session.dispatch
  unfold lineWritten at hlines
  by_cases hc : isCommand msg = true
  · rw [if_pos hc] at hlines ⊢
    rw [Option.toList_none, List.append_nil] at hlines
    exact ⟨hne, hlines, hun⟩
  · rw [if_neg hc] at hlines ⊢
    exact ⟨hne, hlines, hun⟩

theorem framed_step {segs lines : List (List UInt8)} {u u' : Session} {a : Answer} {call : Call}
    (hh : Healthy u) (hf : Framed segs lines u.stage) (hs : sessionStep u a = .ok (call, u'))
    (ha : call.succeeds) :
    Framed (segs ++ call.delivers.toList) (lines ++ call.line.toList) u'.stage := by
  obtain ⟨hreq, hres, hline, rfl⟩ := sessionStep_ok hs
  have hh' : Healthy u' := healthy_resume hh hreq ha hres
  obtain ⟨req, line, a⟩ := call
  unfold Session.enters at hline
  cases turn_of_resume hreq hres with
  | allocated hst ha' =>
    obtain hst | hst := hst <;> rw [hst] at hf hline
    · obtain ⟨rfl, rfl⟩ := hf
      exact framed_silent (by simp) hline ⟨List.not_mem_nil, rfl, rfl⟩
    · obtain ⟨hne, hlines, hun⟩ := hf
      exact framed_silent (by simp) hline ⟨hne, hlines, hun.symm⟩
  | received hst hle =>
    rw [hst] at hf hline
    obtain rfl : line = none := hline
    rw [Option.toList_none, List.append_nil]
    exact framed_received hf
  | locked hst =>
    rw [hst] at hf hline
    exact framed_silent (by simp) hline (framed_dispatch hf)
  | @opened written fd hst =>
    rw [hst] at hf hline
    obtain rfl : line = some written := hline
    rw [delivers_of_ne (by simp), Option.toList_none, List.append_nil]
    exact hf
  | lost hst hd hreq' => cases ha
  | aborted hst hreq' => cases hh'
  | sentShort hst hne => cases hh'
  | released hst =>
    rw [Healthy, hst] at hh
    cases hh
  | masked hst | grown hst hle ha' | wroteLine hst | wroteNewline hst | written hst | reopened hst
  | sought hst | fetched hst h0 hle | ended hst | sent hst | replied hst | unlocked hst
  | freed hst | logged hst =>
    rw [hst] at hf hline
    exact framed_silent (by simp) hline hf

theorem received_snoc (calls : List Call) (call : Call) :
    received (calls ++ [call]) = received calls ++ call.delivers.toList := by
  rw [received, List.filterMap_append]
  cases hd : call.delivers <;> simp [received, hd]

theorem written_snoc (calls : List Call) (call : Call) :
    written (calls ++ [call]) = written calls ++ call.line.toList := by
  rw [written, List.filterMap_append]
  cases hl : call.line <;> simp [written, hl]

theorem run_framed {c o : Nat} {answers : List Answer} {calls : List Call} {u : Session}
    (hx : exec sessionStep (Session.init c o) answers = .ok (calls, u))
    (ha : ∀ call ∈ calls, call.succeeds) :
    Healthy u ∧ Framed (received calls) (written calls) u.stage := by
  have hinit : Healthy (Session.init c o) ∧ Framed [] [] (Session.init c o).stage :=
    ⟨trivial, rfl, rfl⟩
  have hinv := exec_history (I := fun _ calls u => (∀ call ∈ calls, call.succeeds) →
    Healthy u ∧ Framed (received calls) (written calls) u.stage) (fun _ => hinit) ?_ hx
  · exact hinv ha
  · intro _ calls u a call u' _ hi hs hok
    obtain ⟨hh, hf⟩ := hi fun k hk => hok k (List.mem_append_left _ hk)
    have hcall : call.succeeds := hok call (by simp)
    obtain ⟨hreq, hres, _, hans⟩ := sessionStep_ok hs
    rw [received_snoc, written_snoc]
    refine ⟨healthy_resume hh hreq ?_ hres, framed_step hh hf hs hcall⟩
    rw [← hans]
    exact hcall

/-- Once `recv` has reported the end of the connection, the lines passed on are
those of the messages that the results before it amount to. -/
theorem written_eq {segs : List (List UInt8)} {c o : Nat} {answers : List Answer}
    {calls : List Call} {u : Session}
    (hx : exec sessionStep (Session.init c o) answers = .ok (calls, u))
    (ha : ∀ call ∈ calls, call.succeeds) (hr : received calls = segs ++ [[]]) :
    written calls = linesOf segs := by
  obtain ⟨_, hf⟩ := run_framed hx ha
  have hend : [] ∈ received calls := by simp [hr]
  have hpast : ∀ {P : Prop}, [] ∉ received calls ∧ P → written calls = linesOf segs :=
    fun h => absurd hend h.1
  cases hst : u.stage with
  | closing _ | exited _ _ =>
    rw [hst] at hf
    obtain ⟨before, hb, hw⟩ := hf
    rw [hr, List.append_cancel_right_eq] at hb
    rw [hw, hb]
  | starting | allocating =>
    rw [hst] at hf
    rw [hf.1] at hend
    cases hend
  | writing line w =>
    rw [hst] at hf
    cases w <;> exact hpast hf
  | receiving acc | growing acc | locking msg | sending p chunk | unlocking failed | resetting =>
    rw [hst] at hf
    exact hpast hf

theorem messages_flatten (segs : List (List UInt8)) :
    (messages segs).flatten ++ unfinished segs = segs.flatten := by
  have h := congrArg List.flatten (cut_flatten short segs)
  rwa [List.flatten_append, List.flatten_flatten] at h

theorem not_dvd_message {segs : List (List UInt8)}
    (h : ∀ seg ∈ segs, 1 ≤ seg.length ∧ seg.length ≤ sockReadBufSize) :
    ∀ msg ∈ messages segs, ¬ sockReadBufSize ∣ msg.length := by
  intro msg hm hd
  obtain ⟨g, hg, rfl⟩ := List.mem_map.mp hm
  obtain ⟨before, seg, rfl, hlast, hfull⟩ := cut_closed hg
  have hseg : seg ∈ segs := by
    rw [← cut_flatten short segs]
    exact List.mem_append_left _ (List.mem_flatten.mpr ⟨_, hg, by simp⟩)
  obtain ⟨hpos, hle⟩ := h seg hseg
  have hne : seg.length ≠ sockReadBufSize := by simpa [short] using hlast
  have hblocks : sockReadBufSize ∣ before.flatten.length := by
    rw [List.length_flatten]
    apply List.dvd_sum
    intro n hn
    obtain ⟨full, hf, rfl⟩ := List.mem_map.mp hn
    have hlen : full.length = sockReadBufSize := by simpa [short] using hfull full hf
    rw [hlen]
  rw [List.flatten_append, List.length_append, List.flatten_singleton,
    Nat.dvd_add_right hblocks] at hd
  exact hne (Nat.le_antisymm hle (Nat.le_of_dvd hpos hd))

theorem messages_ne_nil {segs : List (List UInt8)}
    (h : ∀ seg ∈ segs, 1 ≤ seg.length ∧ seg.length ≤ sockReadBufSize) :
    ∀ msg ∈ messages segs, msg ≠ [] := by
  rintro msg hm rfl
  exact not_dvd_message h [] hm (Nat.dvd_zero _)

theorem unfinished_ne (segs : List (List UInt8)) : unfinished segs ≠ [newline] := by
  intro he
  have hfull := cut_open short segs
  rw [unfinished] at he
  cases hc : (cut short segs).2 with
  | nil =>
    rw [hc] at he
    cases he
  | cons seg rest =>
    rw [hc] at he hfull
    have hseg : seg.length = sockReadBufSize := by
      simpa [short] using hfull seg List.mem_cons_self
    have hlen := congrArg List.length he
    rw [List.flatten_cons, List.length_append, hseg, List.length_singleton] at hlen
    unfold sockReadBufSize at hlen
    omega

/-- The lines written are those sent exactly when the messages are. -/
theorem linesOf_eq_iff {lines segs : List (List UInt8)} (hl : ∀ line ∈ lines, Sendable line)
    (hsegs : ∀ seg ∈ segs, 1 ≤ seg.length ∧ seg.length ≤ sockReadBufSize)
    (hs : segs.flatten = stream lines) :
    linesOf segs = lines ↔ messages segs = lines.map (· ++ [newline]) := by
  constructor
  · intro h
    exact messages_eq hl (messages_ne_nil hsegs) ((messages_flatten segs).trans hs)
      (unfinished_ne segs) h
  · intro h
    have hw : ∀ line ∈ lines, lineWritten (line ++ [newline]) = some line := by
      intro line hline
      have hno := not_isCommand (hl line hline) (List.prefix_refl (line ++ [newline]))
      rw [lineWritten, hno, lineOf_line (hl line hline)]
      rfl
    rw [linesOf, h, List.filterMap_map]
    clear h hs hsegs
    induction lines with
    | nil => rfl
    | cons line lines ih =>
      rw [List.filterMap_cons, Function.comp_apply, hw line List.mem_cons_self,
        ih (fun l h => hl l (List.mem_cons_of_mem _ h))
          (fun l h => hw l (List.mem_cons_of_mem _ h))]

theorem session_handles (msg : List UInt8) (c o : Nat) :
    ∃ answers calls c' o', exec sessionStep ⟨.locking msg, c, o⟩ answers =
        .ok (calls, ⟨.receiving [], c', o'⟩) ∧
      received calls = [] ∧ ∀ call ∈ calls, call.succeeds := by
  have hsend : ∀ c o, ∃ calls, exec sessionStep ⟨.sending .openFile [], c, o⟩
        [.fd 0, .ret 0, .bytes [], .done, .done, .done] = .ok (calls, ⟨.receiving [], c, o⟩) ∧
      received calls = [] ∧ ∀ call ∈ calls, call.succeeds := by
    intro c o
    refine ⟨_, rfl, rfl, ?_⟩
    simp [Call.succeeds, fails]
  have hlock : sessionStep ⟨.locking msg, c, o⟩ .done =
      .ok (⟨.lock, none, .done⟩, (Session.mk (.locking msg) c o).dispatch msg) := rfl
  unfold Session.dispatch at hlock
  by_cases hc : isCommand msg = true
  · rw [if_pos hc] at hlock
    obtain ⟨calls, hx, hr, hok⟩ := hsend ((seekOf msg).1.getD c) ((seekOf msg).2.getD o)
    refine ⟨_, _, _, _, exec_cons hlock hx, hr, ?_⟩
    simpa [Call.succeeds, fails] using hok
  · rw [if_neg hc] at hlock
    obtain ⟨calls, hx, hr, hok⟩ := hsend 0 0
    have hwrite : exec sessionStep ⟨.writing (lineOf msg) .openFile, 0, 0⟩
        [.fd 0, .count 0, .count 0, .done] =
          .ok ([⟨.openFile, some (lineOf msg), .fd 0⟩, ⟨.write 0 (lineOf msg), none, .count 0⟩,
            ⟨.write 0 [newline], none, .count 0⟩, ⟨.close 0, none, .done⟩],
            ⟨.sending .openFile [], 0, 0⟩) := rfl
    refine ⟨_, _, _, _, exec_cons hlock (exec_append hwrite hx), hr, ?_⟩
    simpa [Call.succeeds, fails] using hok

/-- Whatever `recv` delivers, a session with room for it can go on to the end
of the connection without a call that fails. -/
theorem session_serves {segs : List (List UInt8)}
    (hsegs : ∀ seg ∈ segs, 1 ≤ seg.length ∧ seg.length ≤ sockReadBufSize) {acc : List UInt8}
    (hroom : acc.length + segs.flatten.length + sockReadBufSize ≤ reallocLimit) (c o : Nat) :
    ∃ answers calls u, exec sessionStep ⟨.receiving acc, c, o⟩ answers = .ok (calls, u) ∧
      received calls = segs ++ [[]] ∧ ∀ call ∈ calls, call.succeeds := by
  induction segs generalizing acc c o with
  | nil =>
    refine ⟨[.bytes []], _, _, rfl, rfl, ?_⟩
    simp [Call.succeeds, fails]
  | cons seg segs ih =>
    obtain ⟨h1, hle⟩ := hsegs seg List.mem_cons_self
    have hrest := fun s hs => hsegs s (List.mem_cons_of_mem seg hs)
    rw [List.flatten_cons, List.length_append] at hroom
    have hbig : ¬ sockReadBufSize < seg.length := Nat.not_lt.mpr hle
    have h0 : seg.length ≠ 0 := by omega
    have hrecv : sessionStep ⟨.receiving acc, c, o⟩ (.bytes seg) =
        .ok (⟨.recv, none, .bytes seg⟩, (Session.mk (.receiving acc) c o).received acc seg) := by
      simp [sessionStep, Session.request, Session.resume, Session.enters, hbig, bind, Except.bind]
    unfold Session.received at hrecv
    rw [if_neg h0] at hrecv
    by_cases hfull : seg.length = sockReadBufSize
    · rw [if_pos hfull] at hrecv
      have hgrow : sessionStep ⟨.growing (acc ++ seg), c, o⟩ .done =
          .ok (⟨.alloc, none, .done⟩, ⟨.receiving (acc ++ seg), c, o⟩) := by
        have hlim : acc.length + (seg.length + sockReadBufSize) ≤ reallocLimit := by omega
        simp [sessionStep, Session.request, Session.resume, Session.enters, Session.grown,
          Session.goto, hlim, bind, Except.bind, Nat.add_assoc]
      have hroom' : (acc ++ seg).length + segs.flatten.length + sockReadBufSize ≤ reallocLimit := by
        rw [List.length_append]
        omega
      obtain ⟨answers, calls, u, hx, hr, hok⟩ := ih hrest hroom' c o
      refine ⟨_, _, u, exec_cons hrecv (exec_cons hgrow hx), ?_, ?_⟩
      · rw [List.cons_append, ← hr]
        rfl
      · simpa [Call.succeeds, fails] using hok
    · rw [if_neg hfull] at hrecv
      obtain ⟨answers, calls, c', o', hx, hr, hok⟩ := session_handles (acc ++ seg) c o
      have hroom' : ([] : List UInt8).length + segs.flatten.length + sockReadBufSize ≤
          reallocLimit := by
        rw [List.length_nil]
        omega
      obtain ⟨answers', calls', u, hx', hr', hok'⟩ := ih hrest hroom' c' o'
      refine ⟨_, _, u, exec_cons hrecv (exec_append hx hx'), ?_, ?_⟩
      · rw [List.cons_append, ← hr']
        have happ : received (calls ++ calls') = received calls ++ received calls' :=
          List.filterMap_append
        rw [received, List.filterMap_cons]
        change seg :: received (calls ++ calls') = _
        rw [happ, hr, List.nil_append]
      · intro call hmem
        rw [List.mem_cons, List.mem_append] at hmem
        obtain rfl | hmem | hmem := hmem
        · rfl
        · exact hok call hmem
        · exact hok' call hmem

theorem thread_serves {segs : List (List UInt8)}
    (hsegs : ∀ seg ∈ segs, 1 ≤ seg.length ∧ seg.length ≤ sockReadBufSize)
    (hroom : segs.flatten.length + sockReadBufSize ≤ reallocLimit) (c o : Nat) :
    ∃ answers calls t, exec threadStep (Thread.init c o) answers = .ok (calls, t) ∧
      (∀ call ∈ calls, call.succeeds) ∧ received calls = segs ++ [[]] := by
  have hstart : exec sessionStep (Session.init c o) [.done, .done] =
      .ok ([⟨.sigmask, none, .done⟩, ⟨.alloc, none, .done⟩], ⟨.receiving [], c, o⟩) := rfl
  obtain ⟨answers, calls, u, hx, hr, hok⟩ :=
    session_serves hsegs (show ([] : List UInt8).length + _ + _ ≤ _ by simpa using hroom) c o
  have href := thread_run c o ([.done, .done] ++ answers)
  rw [exec_append hstart hx] at href
  obtain ⟨t, ht, _⟩ := href
  refine ⟨_, _, t, ht, ?_, hr⟩
  simpa [Call.succeeds, fails] using hok

theorem thread_written {segs : List (List UInt8)} {c o : Nat} {answers : List Answer}
    {calls : List Call} {t : Thread}
    (hx : exec threadStep (Thread.init c o) answers = .ok (calls, t))
    (ha : ∀ call ∈ calls, call.succeeds) (hr : received calls = segs ++ [[]]) :
    written calls = linesOf segs := by
  obtain ⟨u, hu, _⟩ := (thread_run c o answers).of_ok hx
  exact written_eq hu ha hr

/-- However it arrives, a line that fills whole buffers with its newline is not
written as it was sent. -/
theorem full_line_not_written {lines segs : List (List UInt8)}
    (hl : ∀ line ∈ lines, Sendable line)
    (hsegs : ∀ seg ∈ segs, 1 ≤ seg.length ∧ seg.length ≤ sockReadBufSize)
    (hs : segs.flatten = stream lines) {line : List UInt8} (hline : line ∈ lines)
    (hd : sockReadBufSize ∣ line.length + 1) {c o : Nat} {answers : List Answer}
    {calls : List Call} {t : Thread}
    (hx : exec threadStep (Thread.init c o) answers = .ok (calls, t))
    (ha : ∀ call ∈ calls, call.succeeds) (hr : received calls = segs ++ [[]]) :
    written calls ≠ lines := by
  rw [thread_written hx ha hr]
  intro h
  have hmsg : line ++ [newline] ∈ messages segs := by
    rw [(linesOf_eq_iff hl hsegs hs).mp h]
    exact List.mem_map_of_mem hline
  apply not_dvd_message hsegs _ hmsg
  rwa [List.length_append, List.length_singleton]

/-- The lines are written as they were sent exactly when each one arrives, with
its newline, as full buffers and one shorter result after them. -/
theorem lines_written_iff {lines segs : List (List UInt8)} (hl : ∀ line ∈ lines, Sendable line)
    (hsegs : ∀ seg ∈ segs, 1 ≤ seg.length ∧ seg.length ≤ sockReadBufSize)
    (hs : segs.flatten = stream lines) (c o : Nat) :
    (∀ answers calls t, exec threadStep (Thread.init c o) answers = .ok (calls, t) →
      (∀ call ∈ calls, call.succeeds) → received calls = segs ++ [[]] →
      (written calls = lines ↔
        (cut short segs).1.map List.flatten = lines.map (· ++ [newline]))) ∧
    (segs.flatten.length + sockReadBufSize ≤ reallocLimit →
      ∃ answers calls t, exec threadStep (Thread.init c o) answers = .ok (calls, t) ∧
        (∀ call ∈ calls, call.succeeds) ∧ received calls = segs ++ [[]]) := by
  refine ⟨fun answers calls t hx ha hr => ?_, fun hroom => thread_serves hsegs hroom c o⟩
  rw [thread_written hx ha hr]
  exact linesOf_eq_iff hl hsegs hs

theorem ab_sendable : Sendable [97, 98] := ⟨by decide, by decide, by decide, by decide⟩

theorem cd_sendable : Sendable [99, 100] := ⟨by decide, by decide, by decide, by decide⟩

theorem room_of_le {n : Nat} (h : n ≤ 1000) : n + sockReadBufSize ≤ reallocLimit := by
  unfold sockReadBufSize reallocLimit
  omega

/-- A line that arrives in one piece. -/
theorem oneLine_written : ∃ answers calls t,
    exec threadStep (Thread.init 0 0) answers = .ok (calls, t) ∧
      received calls = [[97, 98, newline], []] ∧ written calls = [[97, 98]] := by
  have hl : ∀ line ∈ [[97, 98]], Sendable line := by simpa using ab_sendable
  have hsegs : ∀ seg ∈ [[97, 98, newline]], 1 ≤ seg.length ∧ seg.length ≤ sockReadBufSize := by
    decide
  obtain ⟨hiff, hrun⟩ := lines_written_iff hl hsegs rfl 0 0
  obtain ⟨answers, calls, t, hx, ha, hr⟩ := hrun (room_of_le (by decide))
  exact ⟨answers, calls, t, hx, hr, (hiff answers calls t hx ha hr).mpr (by decide)⟩

/-- Two lines that arrive in one result: the second is dropped. -/
theorem twoLines_dropped :
    (∀ line ∈ [[97, 98], [99, 100]], Sendable line) ∧
      [97, 98, newline, 99, 100, newline] = stream [[97, 98], [99, 100]] ∧
      ∃ answers calls t, exec threadStep (Thread.init 0 0) answers = .ok (calls, t) ∧
        (∀ call ∈ calls, call.succeeds) ∧
        received calls = [[97, 98, newline, 99, 100, newline], []] ∧
        written calls = [[97, 98]] := by
  refine ⟨by simpa using ⟨ab_sendable, cd_sendable⟩, rfl, ?_⟩
  have hsegs : ∀ seg ∈ [[97, 98, newline, 99, 100, newline]],
      1 ≤ seg.length ∧ seg.length ≤ sockReadBufSize := by decide
  obtain ⟨answers, calls, t, hx, ha, hr⟩ := thread_serves hsegs (room_of_le (by decide)) 0 0
  have hw := thread_written hx ha hr
  exact ⟨answers, calls, t, hx, ha, hr, hw.trans (by decide)⟩

end Aesd.Framing
