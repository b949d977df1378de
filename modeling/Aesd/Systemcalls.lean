import Aesd.Lib.BlockHeap
import Aesd.Lib.ProcessTable
import Aesd.Lib.Transition

namespace Aesd.Systemcalls

open Aesd.Lib.BlockHeap (Fault)
open Aesd.Lib.ProcessTable Aesd.Lib.Transition

def exitFailure : Fin 256 := 1

def outputFlags : Nat := 0x40 ||| 0x200 ||| 2

def outputMode : Nat := 0x100 ||| 0x80 ||| 0x20 ||| 4

/-- The calls of the forked child. The path of `execv` is NULL when the command
has no words. -/
inductive Call
  | openFile (path : String) (flags mode : Nat)
  | dup2 (fd newFd : Nat)
  | close (fd : Nat)
  | execv (path : Option String) (argv : List String)
  deriving DecidableEq

/-- What happens to the forked child. After `execv` has done its work the
program can exit, and a signal can kill the child at any time. -/
inductive Answer
  | failed
  | done (n : Nat)
  | exits (status : Fin 256)
  | killed (signal : Signal) (core : Bool)
  deriving DecidableEq

inductive ChildPc
  | openFile (outputfile : String)
  | dup2 (newStdout : Nat)
  | close (newStdout : Nat)
  | execv
  | program
  | ended (fate : Fate)
  deriving DecidableEq

def ChildPc.call (command : List String) : ChildPc → Option Call
  | .openFile outputfile => some (.openFile outputfile outputFlags outputMode)
  | .dup2 newStdout => some (.dup2 newStdout 1)
  | .close newStdout => some (.close newStdout)
  | .execv => some (.execv command.head? command)
  | .program | .ended _ => none

def ChildPc.next : ChildPc → Answer → Option ChildPc
  | .ended _, _ => none
  | _, .killed signal core => some (.ended (.killed signal core))
  | .openFile _, .failed | .dup2 _, .failed | .execv, .failed =>
    some (.ended (.exited exitFailure))
  | .openFile _, .done fd => some (.dup2 fd)
  | .dup2 newStdout, .done _ => some (.close newStdout)
  | .close _, .failed | .close _, .done _ => some .execv
  | .execv, .done _ => some .program
  | .program, .exits status => some (.ended (.exited status))
  | _, _ => none

inductive ParentPc
  | fork
  | wait
  | returned (result : Bool)
  deriving DecidableEq

/-- A process in a call of `do_exec` or `do_exec_redirect`, with all its children
and what the one it forks there does. -/
structure Caller where
  command : List String
  children : Children Nat
  childPid : Option Nat
  child : ChildPc
  parent : ParentPc

def doExec (command : List String) (children : Children Nat) : Caller :=
  ⟨command, children, none, .execv, .fork⟩

def doExecRedirect (outputfile : String) (command : List String) (children : Children Nat) :
    Caller :=
  ⟨command, children, none, .openFile outputfile, .fork⟩

def succeeded (wstatus : Nat) : Bool := !(wifexited wstatus && wexitstatus wstatus ≠ 0)

inductive Label
  | fork (pid : Option Nat)
  | child (a : Answer)
  | other (pid : Nat) (fate : Fate)
  | wait (pid : Option Nat)

inductive Event
  | forked (pid : Option Nat)
  | called (call : Option Call) (a : Answer)
  | ended (pid : Nat) (fate : Fate)
  | waited (pid : Option Nat)
  deriving DecidableEq

def Caller.forkStep (s : Caller) : Option Nat → Except Fault (Event × Caller)
  | none => .ok (.forked none, { s with parent := .returned false })
  | some pid =>
    match fork s.children pid with
    | none => .error .disabled
    | some children =>
      .ok (.forked (some pid), { s with
        children := children
        childPid := some pid
        parent := .wait })

def Caller.childStep (s : Caller) (pid : Nat) (a : Answer) : Except Fault (Event × Caller) :=
  match s.child.next a with
  | none => .error .disabled
  | some (.ended fate) =>
    match terminate s.children pid fate with
    | none => .error .disabled
    | some children =>
      .ok (.ended pid fate, { s with children := children, child := .ended fate })
  | some pc => .ok (.called (s.child.call s.command) a, { s with child := pc })

def Caller.otherStep (s : Caller) (pid : Nat) (fate : Fate) : Except Fault (Event × Caller) :=
  if s.childPid = some pid then .error .disabled
  else
    match terminate s.children pid fate with
    | none => .error .disabled
    | some children => .ok (.ended pid fate, { s with children := children })

def Caller.waitStep (s : Caller) : Option Nat → Except Fault (Event × Caller)
  | none => .ok (.waited none, { s with parent := .returned false })
  | some pid =>
    match wait s.children pid with
    | none => .error .disabled
    | some (wstatus, children) =>
      .ok (.waited (some pid), { s with
        children := children
        parent := .returned (succeeded wstatus) })

def Caller.step (s : Caller) : Label → Except Fault (Event × Caller)
  | .fork pid => if s.parent = .fork then s.forkStep pid else .error .disabled
  | .child a =>
    match s.childPid with
    | none => .error .disabled
    | some pid => s.childStep pid a
  | .other pid fate => s.otherStep pid fate
  | .wait pid => if s.parent = .wait then s.waitStep pid else .error .disabled

theorem succeeded_iff (fate : Fate) : succeeded fate.word = true ↔
    fate = .exited 0 ∨ ∃ signal core, fate = .killed signal core := by
  cases fate with
  | exited status =>
    have h : succeeded (Fate.exited status).word = decide (status = 0) := by
      rw [succeeded, wifexited_exited, wexitstatus_exited, Bool.true_and, Bool.not_eq_eq_eq_not]
      by_cases h0 : status = 0
      · simp [h0]
      · simp [h0, Fin.val_ne_zero_iff.mpr h0]
    rw [h, decide_eq_true_iff]
    simp
  | killed signal core =>
    rw [succeeded, wifexited_killed, Bool.false_and]
    simp

/-- What the table of children says about the forked one. -/
def ChildPc.entry : ChildPc → Child
  | .ended fate => .zombie fate
  | _ => .running

/-- While the parent waits, its child is in the table as its own steps left it,
and no other child has been reaped. -/
structure Waiting (children : Children Nat) (s : Caller) (own : Nat) : Prop where
  entry : s.children own = some s.child.entry
  others : SameExcept own children s.children

def Accounted (children : Children Nat) (s : Caller) : Prop :=
  match s.parent with
  | .fork => s.childPid = none ∧ s.child.entry = .running ∧
      ∀ own, SameExcept own children s.children
  | .wait => ∃ own, s.childPid = some own ∧ Waiting children s own
  | .returned _ => True

variable {children : Children Nat} {s s' : Caller} {e : Event} {own : Nat}

theorem childStep_cases {a : Answer} (h : s.childStep own a = .ok (e, s')) :
    (∃ pc, s.child.next a = some pc ∧ pc.entry = .running ∧ s' = { s with child := pc }) ∨
      ∃ fate t, s.child.next a = some (.ended fate) ∧ terminate s.children own fate = some t ∧
        s' = { s with children := t, child := .ended fate } := by
  unfold Caller.childStep at h
  cases hn : s.child.next a with
  | none => simp [hn] at h
  | some pc =>
    cases pc with
    | ended fate =>
      cases ht : terminate s.children own fate with
      | none => simp [hn, ht] at h
      | some t =>
        simp only [hn, ht, Except.ok.injEq, Prod.mk.injEq] at h
        exact .inr ⟨fate, t, rfl, ht, h.2.symm⟩
    | openFile outputfile | dup2 newStdout | close newStdout | execv | program =>
      simp only [hn, Except.ok.injEq, Prod.mk.injEq] at h
      exact .inl ⟨_, rfl, rfl, h.2.symm⟩

theorem otherStep_cases {pid : Nat} {fate : Fate} (h : s.otherStep pid fate = .ok (e, s')) :
    s.childPid ≠ some pid ∧
      ∃ t, terminate s.children pid fate = some t ∧ s' = { s with children := t } := by
  unfold Caller.otherStep at h
  split at h
  · cases h
  · next hne =>
    cases ht : terminate s.children pid fate with
    | none => simp [ht] at h
    | some t =>
      simp only [ht, Except.ok.injEq, Prod.mk.injEq] at h
      exact ⟨hne, t, rfl, h.2.symm⟩

theorem waitStep_cases {pid : Nat} (h : s.waitStep (some pid) = .ok (e, s')) :
    ∃ wstatus t, wait s.children pid = some (wstatus, t) ∧
      s' = { s with children := t, parent := .returned (succeeded wstatus) } := by
  unfold Caller.waitStep at h
  cases hw : wait s.children pid with
  | none => simp [hw] at h
  | some p =>
    simp only [hw, Except.ok.injEq, Prod.mk.injEq] at h
    exact ⟨p.1, p.2, rfl, h.2.symm⟩

theorem entry_of_next {pc pc' : ChildPc} {a : Answer} (h : pc.next a = some pc') :
    pc.entry = .running := by
  cases pc with
  | ended fate => cases h
  | openFile outputfile | dup2 newStdout | close newStdout | execv | program => rfl

theorem waiting_child {a : Answer} (hs : Waiting children s own)
    (h : s.childStep own a = .ok (e, s')) : Waiting children s' own := by
  obtain ⟨pc, hn, hpc, rfl⟩ | ⟨fate, t, hn, ht, rfl⟩ := childStep_cases h
  · refine ⟨?_, hs.others⟩
    rw [hs.entry, entry_of_next hn, hpc]
  · refine ⟨?_, hs.others.terminate ht⟩
    obtain ⟨_, rfl⟩ := terminate_eq_some ht
    exact Function.update_self _ _ _

theorem waiting_other {pid : Nat} {fate : Fate} {t : Children Nat} (hs : Waiting children s own)
    (hne : own ≠ pid) (ht : terminate s.children pid fate = some t) :
    Waiting children { s with children := t } own := by
  refine ⟨?_, hs.others.terminate ht⟩
  obtain ⟨_, rfl⟩ := terminate_eq_some ht
  exact (Function.update_of_ne hne _ _).trans hs.entry

theorem accounted_fork {pid : Option Nat} (hs : Accounted children s) (hp : s.parent = .fork)
    (h : s.forkStep pid = .ok (e, s')) : Accounted children s' := by
  rw [Accounted, hp] at hs
  obtain ⟨_, hchild, hsame⟩ := hs
  unfold Caller.forkStep at h
  cases pid with
  | none =>
    cases h
    exact trivial
  | some pid =>
    cases hf : fork s.children pid with
    | none => simp [hf] at h
    | some t =>
      simp only [hf, Except.ok.injEq, Prod.mk.injEq] at h
      obtain ⟨_, rfl⟩ := h
      obtain ⟨_, rfl⟩ := fork_eq_some hf
      refine ⟨pid, rfl, ?_, (hsame pid).update _⟩
      rw [hchild]
      exact Function.update_self _ _ _

theorem accounted_child {a : Answer} (hs : Accounted children s) (hc : s.childPid = some own)
    (h : s.childStep own a = .ok (e, s')) : Accounted children s' := by
  have hsame : s'.parent = s.parent ∧ s'.childPid = s.childPid := by
    obtain ⟨_, _, _, rfl⟩ | ⟨_, _, _, _, rfl⟩ := childStep_cases h <;> exact ⟨rfl, rfl⟩
  unfold Accounted at hs ⊢
  rw [hsame.1, hsame.2]
  cases hp : s.parent with
  | fork =>
    rw [hp] at hs
    rw [hs.1] at hc
    cases hc
  | wait =>
    rw [hp] at hs
    obtain ⟨own', hown, hw⟩ := hs
    obtain rfl : own' = own := Option.some.inj (hown.symm.trans hc)
    exact ⟨own', hown, waiting_child hw h⟩
  | returned result => exact trivial

theorem accounted_other {pid : Nat} {fate : Fate} (hs : Accounted children s)
    (h : s.otherStep pid fate = .ok (e, s')) : Accounted children s' := by
  obtain ⟨hne, t, ht, rfl⟩ := otherStep_cases h
  unfold Accounted at hs ⊢
  dsimp only
  cases hp : s.parent with
  | fork =>
    rw [hp] at hs
    exact ⟨hs.1, hs.2.1, fun own => (hs.2.2 own).terminate ht⟩
  | wait =>
    rw [hp] at hs
    obtain ⟨own, hown, hw⟩ := hs
    have hown_ne : own ≠ pid := by
      rintro rfl
      exact hne hown
    have hw' := waiting_other hw hown_ne ht
    exact ⟨own, hown, hw'.entry, hw'.others⟩
  | returned result => exact trivial

theorem accounted_wait {pid : Option Nat} (h : s.waitStep pid = .ok (e, s')) :
    Accounted children s' := by
  cases pid with
  | none =>
    cases h
    exact trivial
  | some pid =>
    obtain ⟨_, _, _, rfl⟩ := waitStep_cases h
    exact trivial

theorem accounted_step {l : Label} (hs : Accounted children s) (h : s.step l = .ok (e, s')) :
    Accounted children s' := by
  cases l with
  | fork pid =>
    simp only [Caller.step] at h
    split at h
    · next hp => exact accounted_fork hs hp h
    · cases h
  | child a =>
    simp only [Caller.step] at h
    cases hc : s.childPid with
    | none => simp [hc] at h
    | some own =>
      simp only [hc] at h
      exact accounted_child hs hc h
  | other pid fate => exact accounted_other hs h
  | wait pid =>
    simp only [Caller.step] at h
    split at h
    · exact accounted_wait h
    · cases h

structure Fresh (children : Children Nat) (s : Caller) : Prop where
  children_eq : s.children = children
  childPid_eq : s.childPid = none
  running : s.child.entry = .running
  parent_eq : s.parent = .fork

theorem fresh_doExec (command : List String) (children : Children Nat) :
    Fresh children (doExec command children) := ⟨rfl, rfl, rfl, rfl⟩

theorem fresh_doExecRedirect (outputfile : String) (command : List String)
    (children : Children Nat) : Fresh children (doExecRedirect outputfile command children) :=
  ⟨rfl, rfl, rfl, rfl⟩

theorem Fresh.accounted (h : Fresh children s) : Accounted children s := by
  rw [Accounted, h.parent_eq]
  refine ⟨h.childPid_eq, h.running, fun own other _ => ?_⟩
  rw [h.children_eq]

theorem run_accounted {labels : List Label} {events : List Event} (h : Fresh children s)
    (hx : exec Caller.step s labels = .ok (events, s')) : Accounted children s' :=
  exec_history (I := fun _ _ s => Accounted children s) h.accounted
    (fun _ _ _ _ _ _ _ hi hf => accounted_step hi hf) hx

/-- The function reports how its own child has ended, and has reaped that child
and no other. -/
structure Reports (children : Children Nat) (s s' : Caller) (own : Nat) (result : Bool) : Prop where
  result_iff : result = true ↔ s.child = .ended (.exited 0)
  reaped : s'.children own = none
  others : SameExcept own children s'.children

theorem waiting_reports {pick : Nat} {wstatus : Nat} {t : Children Nat}
    (hs : Waiting children s own) (hw : wait s.children pick = some (wstatus, t)) :
    Reports children s { s with children := t, parent := .returned (succeeded wstatus) } own
        (succeeded wstatus) ↔
      pick = own ∧ ∀ signal core, s.child ≠ .ended (.killed signal core) := by
  have hin : (s.children own).isSome := by rw [hs.entry, Option.isSome_some]
  have hreaps := hs.others.wait_iff hin hw
  have hresult : pick = own → ((succeeded wstatus = true ↔ s.child = .ended (.exited 0)) ↔
      ∀ signal core, s.child ≠ .ended (.killed signal core)) := by
    rintro rfl
    obtain ⟨fate, hfate, rfl, _⟩ := wait_eq_some hw
    have hend : s.child = .ended fate := by
      rw [hs.entry, Option.some.injEq] at hfate
      cases hc : s.child with
      | ended fate' =>
        rw [hc] at hfate
        cases hfate
        rfl
      | openFile outputfile | dup2 newStdout | close newStdout | execv | program =>
        rw [hc] at hfate
        cases hfate
    rw [succeeded_iff, hend]
    simp only [ChildPc.ended.injEq, ne_eq]
    constructor
    · rintro h signal core rfl
      cases h.mp (.inr ⟨signal, core, rfl⟩)
    · intro h
      constructor
      · rintro (h0 | ⟨signal, core, hk⟩)
        · exact h0
        · exact absurd hk (h signal core)
      · exact .inl
  constructor
  · rintro ⟨hres, hreap, hothers⟩
    have hpick := hreaps.mp ⟨hreap, hothers⟩
    exact ⟨hpick, (hresult hpick).mp hres⟩
  · rintro ⟨hpick, hkilled⟩
    obtain ⟨hreap, hothers⟩ := hreaps.mpr hpick
    exact ⟨(hresult hpick).mpr hkilled, hreap, hothers⟩

theorem waiting_of_step {labels : List Label} {events : List Event} {s₀ : Caller} {pick : Nat}
    (h₀ : Fresh children s₀) (hx : exec Caller.step s₀ labels = .ok (events, s))
    (hw : s.step (.wait (some pick)) = .ok (e, s')) :
    ∃ own wstatus t, s.childPid = some own ∧ Waiting children s own ∧
      wait s.children pick = some (wstatus, t) ∧
      s' = { s with children := t, parent := .returned (succeeded wstatus) } := by
  have hs := run_accounted h₀ hx
  simp only [Caller.step] at hw
  split at hw
  · next hp =>
    rw [Accounted, hp] at hs
    obtain ⟨own, hown, hwait⟩ := hs
    obtain ⟨wstatus, t, ht, rfl⟩ := waitStep_cases hw
    exact ⟨own, wstatus, t, hown, hwait, ht, rfl⟩
  · cases hw

/-- When `wait` has returned, the function reports its own child if and only if
that is the child `wait` picked, and no signal killed it. -/
theorem own_child_reported_iff (outputfile : String) {command : List String} {s₀ : Caller}
    {labels : List Label} {events : List Event} {pick : Nat}
    (h₀ : s₀ = doExec command children ∨ s₀ = doExecRedirect outputfile command children)
    (hx : exec Caller.step s₀ labels = .ok (events, s))
    (hw : s.step (.wait (some pick)) = .ok (e, s')) :
    ∃ own result, s.childPid = some own ∧ s'.parent = .returned result ∧
      (Reports children s s' own result ↔
        pick = own ∧ ∀ signal core, s.child ≠ .ended (.killed signal core)) := by
  have hfresh : Fresh children s₀ := by
    obtain rfl | rfl := h₀
    · exact fresh_doExec command children
    · exact fresh_doExecRedirect outputfile command children
  obtain ⟨own, wstatus, t, hown, hwait, ht, rfl⟩ := waiting_of_step hfresh hx hw
  exact ⟨own, succeeded wstatus, hown, rfl, waiting_reports hwait ht⟩

/-- Without other children there is no other child to pick. -/
theorem lone_child_reported_iff (outputfile : String) {command : List String} {s₀ : Caller}
    {labels : List Label} {events : List Event} {pick : Nat}
    (h₀ : s₀ = doExec command (fun _ => none) ∨
      s₀ = doExecRedirect outputfile command fun _ => none)
    (hx : exec Caller.step s₀ labels = .ok (events, s))
    (hw : s.step (.wait (some pick)) = .ok (e, s')) :
    ∃ result, s.childPid = some pick ∧ s'.parent = .returned result ∧
      (Reports (fun _ => none) s s' pick result ↔
        ∀ signal core, s.child ≠ .ended (.killed signal core)) := by
  have hfresh : Fresh (fun _ => none) s₀ := by
    obtain rfl | rfl := h₀
    · exact fresh_doExec command _
    · exact fresh_doExecRedirect outputfile command _
  obtain ⟨own, wstatus, t, hown, hwait, ht, rfl⟩ := waiting_of_step hfresh hx hw
  obtain ⟨fate, hfate, _⟩ := wait_eq_some ht
  have hpick : pick = own := by
    by_contra hne
    have hsome := hwait.others pick hne
    rw [hfate] at hsome
    cases hsome
  subst hpick
  refine ⟨succeeded wstatus, hown, rfl, (waiting_reports hwait ht).trans ?_⟩
  exact and_iff_right rfl

/-- A process with one other child, which has ended with status 0. -/
def otherEnded : Children Nat := Function.update (fun _ => none) 5 (some (.zombie (.exited 0)))

/-- The command ends with status 0 and is picked before the other child. -/
theorem ownPicked_reported : ∃ events s e s', ∃ result,
    exec Caller.step (doExec ["/bin/true"] otherEnded)
      [.fork (some 7), .child (.done 0), .child (.exits 0)] = .ok (events, s) ∧
    s.step (.wait (some 7)) = .ok (e, s') ∧ s'.parent = .returned result ∧
    Reports otherEnded s s' 7 result := by
  obtain ⟨events, s, e, s', hx, hw, hown, hchild⟩ : ∃ events s e s',
      exec Caller.step (doExec ["/bin/true"] otherEnded)
        [.fork (some 7), .child (.done 0), .child (.exits 0)] = .ok (events, s) ∧
      s.step (.wait (some 7)) = .ok (e, s') ∧ s.childPid = some 7 ∧
      s.child = .ended (.exited 0) := ⟨_, _, _, _, rfl, rfl, rfl, rfl⟩
  obtain ⟨own, result, hown', hret, hiff⟩ :=
    own_child_reported_iff "" (.inl rfl) hx hw
  obtain rfl : own = 7 := Option.some.inj (hown'.symm.trans hown)
  refine ⟨events, s, e, s', result, hx, hw, hret, hiff.mpr ⟨rfl, ?_⟩⟩
  intro signal core
  rw [hchild]
  simp

/-- The command ends with status 1, and the call returns true: once because
`wait` picks another child, once because a signal kills the command. -/
theorem failed_command_reported_true :
    (∃ events s e s', exec Caller.step (doExec ["/bin/false"] otherEnded)
        [.fork (some 7), .child (.done 0), .child (.exits 1)] = .ok (events, s) ∧
      s.step (.wait (some 5)) = .ok (e, s') ∧ s'.parent = .returned true ∧
      s.child = .ended (.exited 1) ∧ s'.children 5 = none ∧
      s'.children 7 = some (.zombie (.exited 1))) ∧
    ∃ events s e s', exec Caller.step (doExecRedirect "out" ["/bin/cat"] fun _ => none)
        [.fork (some 7), .child (.done 3), .child (.done 1), .child (.done 0), .child (.done 0),
          .child (.killed ⟨11, by decide⟩ false)] = .ok (events, s) ∧
      s.step (.wait (some 7)) = .ok (e, s') ∧ s'.parent = .returned true ∧
      s.child = .ended (.killed ⟨11, by decide⟩ false) :=
  ⟨⟨_, _, _, _, rfl, rfl, rfl, rfl, rfl, rfl⟩, _, _, _, _, rfl, rfl, rfl, rfl⟩

end Aesd.Systemcalls
