import Aesd.Linearizability

namespace Aesd.LockProgress

open Aesd.Lib.BlockHeap Aesd.Lib.Transition Aesd.Driver Aesd.Interleaving Aesd.Statements
open Aesd.LogDevice Aesd.Linearizability
open Aesd.Refinement (lock_unlocked)

/-- The moves a call needs to give the lock up, from its next statement on. -/
def left : Point → Nat
  | .kmalloc => 11
  | .copyPrior _ => 10
  | .freePrior _ => 9
  | .expand _ | .start _ => 8
  | .copyFromUser _ _ => 7
  | .addCount _ _ _ => 6
  | .testNewline _ _ _ => 5
  | .addEntry _ => 4
  | .freeEntry _ _ | .find | .size | .seek => 3
  | .clear _ | .copyToUser _ _ | .llseek _ | .adjust _ _ => 2
  | .unlock _ _ => 1

theorem left_pos (pt : Point) : 0 < left pt := by
  cases pt <;> simp [left]

theorem left_le (pt : Point) : left pt ≤ 11 := by
  cases pt <;> simp [left]

variable {op : DriverOp} {fPos : Int} {k k' : Kernel} {pt pt' : Point}

theorem writeNext_left {buf : List UInt8} {env : WriteEnv}
    (hn : writeNext buf env fPos k pt = .ok (pt', k')) : left pt' < left pt := by
  cases pt with
  | kmalloc =>
    simp only [writeNext] at hn
    split at hn
    · cases hn
      simp [left]
    · cases hn
      split <;> simp [left]
  | copyPrior kmemBuf =>
    obtain ⟨_, _, hn⟩ := bind_ok hn
    obtain ⟨_, _, hn⟩ := bind_ok hn
    cases hn
    simp [left]
  | freePrior kmemBuf | copyFromUser kmemBuf off =>
    obtain ⟨_, _, hn⟩ := bind_ok hn
    cases hn
    simp [left]
  | testNewline kmemBuf off retval =>
    obtain ⟨_, _, hn⟩ := bind_ok hn
    cases hn
    split <;> simp [left]
  | freeEntry addEntryRetval retval =>
    simp only [writeNext] at hn
    split at hn
    · obtain ⟨_, _, hn⟩ := bind_ok hn
      cases hn
      simp [left]
    · cases hn
      simp [left]
  | expand kmemBuf | start kmemBuf | addCount kmemBuf off retval | addEntry retval | clear retval =>
    cases hn
    simp [left]
  | find | copyToUser index entryOffset | size | llseek size | seek | adjust entry byteCount
  | unlock reply p => cases hn

theorem next_left (hn : Interleaving.next op fPos k pt = .ok (pt', k')) : left pt' < left pt := by
  cases op with
  | write f buf env => exact writeNext_left hn
  | read f count env =>
    have hn' : readNext count env fPos k pt = .ok (pt', k') := hn
    cases pt with
    | find =>
      simp only [readNext] at hn'
      split at hn' <;> cases hn' <;> simp [left]
    | copyToUser index entryOffset =>
      obtain ⟨_, _, hn'⟩ := bind_ok hn'
      cases hn'
      simp [left]
    | kmalloc | copyPrior _ | freePrior _ | expand _ | start _ | copyFromUser _ _ | addCount _ _ _
    | testNewline _ _ _ | addEntry _ | freeEntry _ _ | clear _ | size | llseek _ | seek
    | adjust _ _ | unlock _ _ => cases hn'
  | llseek f fixedSizeLlseek offset whence interrupted =>
    cases pt <;> cases hn <;> simp [left]
  | ioctl f cmd arg env =>
    have hn' : adjustNext arg fPos k pt = .ok (pt', k') := hn
    cases pt with
    | adjust entry byteCount =>
      simp only [adjustNext] at hn'
      split at hn' <;> cases hn' <;> simp [left]
    | seek =>
      cases hn'
      simp [left]
    | kmalloc | copyPrior _ | freePrior _ | expand _ | start _ | copyFromUser _ _ | addCount _ _ _
    | testNewline _ _ _ | addEntry _ | freeEntry _ _ | clear _ | size | llseek _ | find
    | copyToUser _ _ | unlock _ _ => cases hn'
  | openFile f | release f => cases hn

variable {m m' : Machine} {f : Nat} {e : Event}

theorem move_running (hf : m.files f = .running op fPos pt) (hm : m.move f = .ok (e, m')) :
    (∃ reply, e = .effect op reply) ∨
      ∃ pt', m'.files f = .running op fPos pt' ∧ left pt' < left pt := by
  have hmove := move_cases hm
  rw [hf] at hmove
  obtain ⟨st, ha, _⟩ | ⟨st, k, he | hi | hl, rfl⟩ := hmove
  · cases ha
  · cases he
  · cases hi with
    | statement hn => exact .inr ⟨_, Machine.set_self _ _ _, next_left hn⟩
  · cases hl with
    | unlock _ => exact .inl ⟨_, rfl⟩

theorem step_other {label : Label} (hf : m.files f = .running op fPos pt) (hl : label.file ≠ f)
    (hm : m.step label = .ok (e, m')) : m'.files f = .running op fPos pt := by
  cases label with
  | call op' =>
    unfold Machine.step at hm
    cases ho : m.files op'.file with
    | idle p =>
      simp only [ho, Except.ok.injEq, Prod.mk.injEq] at hm
      obtain ⟨_, rfl⟩ := hm
      have hne : f ≠ op'.file := Ne.symm hl
      exact (Machine.set_ne _ hne _).trans hf
    | called _ _ | waiting _ _ | running _ _ _ | answered _ _ _ => simp [ho] at hm
  | move g =>
    have hne : f ≠ g := Ne.symm hl
    obtain ⟨st, _, rfl⟩ | ⟨st, k, _, rfl⟩ := move_cases hm
    · exact (Machine.set_ne _ hne _).trans hf
    · exact (Machine.set_ne { m with kernel := k } hne _).trans hf

def isMove (f : Nat) : Label → Bool
  | .move g => g = f
  | .call _ => false

/-- A call that has the lock takes effect within as many of its own moves as it
has statements left, whatever the other calls do meanwhile. -/
theorem takes_effect (hf : m.files f = .running op fPos pt) {labels : List Label}
    {events : List Event} (hx : exec Machine.step m labels = .ok (events, m'))
    (hc : left pt ≤ labels.countP (isMove f)) : ∃ reply, Event.effect op reply ∈ events := by
  have hpos := left_pos pt
  have h := exec_reaches (f := Machine.step) (P := fun m n => ∃ pt, m.files f = .running op fPos pt ∧
      left pt ≤ n + 1) (G := fun e => ∃ reply, e = .effect op reply)
    ?_ ⟨pt, hf, by omega⟩ hx (show left pt - 1 < labels.countP (isMove f) by omega)
  · obtain ⟨e, he, reply, rfl⟩ := h
    exact ⟨reply, he⟩
  · rintro m n label e m' ⟨pt, hf, hn⟩ hm
    have hpos := left_pos pt
    by_cases hl : label.file = f
    · cases label with
      | call op' =>
        simp only [Label.file] at hl
        simp [Machine.step, hl, hf] at hm
      | move g =>
        obtain rfl : g = f := hl
        obtain h | ⟨pt', hf', hlt⟩ := move_running hf hm
        · exact .inl h
        · have hpos' := left_pos pt'
          exact .inr ⟨n - 1, ⟨pt', hf', by omega⟩, by simp only [isMove, decide_true, if_true]; omega⟩
    · refine .inr ⟨n, ⟨pt, step_other hf hl hm, hn⟩, ?_⟩
      have hmine : isMove f label = false := by
        cases label with
        | call op' => rfl
        | move g => exact decide_eq_false hl
      simp [hmine]

/-- The call is an empty write that found nothing pending, and has come to its
newline test: there is no byte for it to compare. -/
def Dead (m : Machine) (f : Nat) : Prop :=
  ∃ env fPos, m.files f = .running (.write f [] env) fPos (.testNewline .zeroSize 0 0)

theorem owner_moves {q : State} {events : List Event} (hq : Linearized events m q)
    (hf : inSection (m.files f) = true) : Dead m f ∨ ∃ e m', m.move f = .ok (e, m') := by
  have hl : m.kernel.dev.lock = true := by
    by_contra h
    have hfree := (hq.free (Bool.eq_false_iff.mpr h)).2 f
    rw [hf] at hfree
    cases hfree
  obtain ⟨g, op, fPos, pt, k, hg, rfl, hni, hentry, hi, hr, hothers⟩ := hq.taken hl
  obtain rfl : f = op.file := by
    by_contra hne
    rw [hothers f hne] at hf
    cases hf
  obtain ⟨r, hfin, hnone⟩ := call_finishes hi hentry hni
  obtain ⟨reply, p', k₁, rfl, hk⟩ | ⟨rfl, rfl⟩ | ⟨pt', k₁, hn⟩ := (hr _ hfin).goes_on
  · exact .inr ⟨_, _, by simp only [Machine.move, hg, hk, bind, Except.bind]; rfl⟩
  · left
    cases op with
    | write file buf env =>
      obtain ⟨_, rfl⟩ := List.append_eq_nil_iff.mp (hnone rfl).2.2.2
      exact ⟨env, fPos, hg⟩
    | openFile | release | read | ioctl | llseek => exact (hnone rfl).elim
  · right
    have hpt : ∀ reply p, pt ≠ .unlock reply p := by
      rintro reply p rfl
      rw [next_unlock] at hn
      cases hn
    refine ⟨.moved op, { m with kernel := k₁ }.set op.file (.running op fPos pt'), ?_⟩
    unfold Machine.move
    rw [hg]
    cases pt with
    | unlock reply p => exact absurd rfl (hpt reply p)
    | _ => simp only [hn, bind, Except.bind]

theorem dead_step {label : Label} (hd : Dead m f) (hm : m.step label = .ok (e, m')) :
    label.file ≠ f ∧ Dead m' f := by
  obtain ⟨env, fPos, hf⟩ := hd
  suffices hne : label.file ≠ f from ⟨hne, env, fPos, step_other hf hne hm⟩
  rintro rfl
  cases label with
  | call op =>
    simp only [Label.file] at hf
    simp [Machine.step, hf] at hm
  | move g =>
    simp only [Label.file] at hf
    obtain ⟨e', he⟩ := next_oops (.write g [] env) fPos m.kernel 0 0
    simp [Machine.step, Machine.move, hf, he, bind, Except.bind] at hm

theorem dead_run (hd : Dead m f) {labels : List Label} {events : List Event}
    (hx : exec Machine.step m labels = .ok (events, m')) :
    (∀ label ∈ labels, label.file ≠ f) ∧ Dead m' f := by
  induction labels generalizing m events with
  | nil =>
    cases hx
    exact ⟨by simp, hd⟩
  | cons label labels ih =>
    obtain ⟨e, m₁, es, rfl, hm, hx'⟩ := exec_cons_ok hx
    obtain ⟨hne, hd₁⟩ := dead_step hd hm
    obtain ⟨hrest, hd'⟩ := ih hd₁ hx'
    exact ⟨List.forall_mem_cons.mpr ⟨hne, hrest⟩, hd'⟩

/-- The lock of a dead call is never free. -/
theorem dead_locked {labels : List Label} {events : List Event}
    (hx : exec Machine.step Machine.init labels = .ok (events, m)) (hd : Dead m f) :
    m.kernel.dev.lock = true := by
  obtain ⟨q, hq⟩ := run_linearized hx
  obtain ⟨env, fPos, hf⟩ := hd
  by_contra h
  have hout := (hq.free (Bool.eq_false_iff.mpr h)).2 f
  rw [hf] at hout
  cases hout

def Blocked : FileState → Prop
  | .waiting op _ => interrupted op = false
  | _ => False

/-- In no order of the statements does a call wait for ever, as long as no empty
write finds nothing pending: a call in progress can make its next move, or it
waits for the lock that another call has, which can make its own, and gives the
lock up after eleven of them. Such a write gets as far as its newline test and no
further: it is dead, and the lock is taken for good. -/
theorem no_call_stuck {labels : List Label} {events : List Event} {m : Machine}
    (hx : exec Machine.step Machine.init labels = .ok (events, m)) (f : Nat) :
    ((∃ fPos, m.files f = .idle fPos) ∨ (∃ e m', m.move f = .ok (e, m')) ∨ Dead m f ∨
      (Blocked (m.files f) ∧ ∃ g op fPos pt, m.files g = .running op fPos pt ∧
        (Dead m g ∨ ∃ e m', m.move g = .ok (e, m')))) ∧
      ∀ labels' events' m', exec Machine.step m labels' = .ok (events', m') →
        (∀ op fPos pt, m.files f = .running op fPos pt → 11 ≤ labels'.countP (isMove f) →
          ∃ reply, Event.effect op reply ∈ events') ∧
        (Dead m f → (∀ label ∈ labels', label.file ≠ f) ∧ Dead m' f ∧
          m'.kernel.dev.lock = true) := by
  obtain ⟨q, hq⟩ := run_linearized hx
  refine ⟨?_, fun labels' events' m' hx' => ⟨fun op fPos pt hf hc =>
    takes_effect hf hx' (Nat.le_trans (left_le pt) hc), fun hd => ?_⟩⟩
  rotate_left
  · obtain ⟨hne, hd'⟩ := dead_run hd hx'
    exact ⟨hne, hd', dead_locked (exec_append hx hx') hd'⟩
  cases hf : m.files f with
  | idle fPos => exact .inl ⟨fPos, rfl⟩
  | called op fPos =>
    refine .inr (.inl ?_)
    cases he : entry op fPos with
    | inl p => exact ⟨_, _, by simp only [Machine.move, hf, he]; rfl⟩
    | inr r => exact ⟨_, _, by simp only [Machine.move, hf, he]; rfl⟩
  | running op fPos pt =>
    obtain hd | hmoves := owner_moves hq (show inSection (m.files f) = true by rw [hf]; rfl)
    · exact .inr (.inr (.inl hd))
    · exact .inr (.inl hmoves)
  | answered op reply fPos => exact .inr (.inl ⟨_, _, by simp only [Machine.move, hf]; rfl⟩)
  | waiting op fPos =>
    right
    cases hi : interrupted op with
    | true =>
      left
      exact ⟨_, _, by
        simp only [Machine.move, hf, hi, mutexLockInterruptible, if_true, bind, Except.bind]; rfl⟩
    | false =>
      cases hl : m.kernel.dev.lock with
      | false =>
        left
        exact ⟨_, _, by simp only [Machine.move, hf, hi, lock_unlocked hl, bind, Except.bind]; rfl⟩
      | true =>
        right
        right
        obtain ⟨g, op', fPos', pt, _, hg, _⟩ := hq.taken hl
        exact ⟨hi, g, op', fPos', pt, hg, owner_moves hq (by rw [hg]; rfl)⟩

/-- The reader of the overlapping calls while the writer has the lock. -/
theorem overlappingCalls_waits : ∃ events m,
    exec Machine.step Machine.init (overlappingCalls.take 13) = .ok (events, m) ∧
      ((∃ fPos, m.files 1 = .idle fPos) ∨ (∃ e m', m.move 1 = .ok (e, m')) ∨ Dead m 1 ∨
        (Blocked (m.files 1) ∧ ∃ g op fPos pt, m.files g = .running op fPos pt ∧
          (Dead m g ∨ ∃ e m', m.move g = .ok (e, m')))) := by
  obtain ⟨events, m, hx⟩ : ∃ events m,
    exec Machine.step Machine.init (overlappingCalls.take 13) = .ok (events, m) := ⟨_, _, rfl⟩
  exact ⟨events, m, hx, (no_call_stuck hx 1).1⟩

/-- A writer asks for nothing while nothing is pending, and a reader comes after it. -/
def emptyWrite : List Label :=
  [.call (.openFile 0), .move 0, .move 0, .call (.openFile 1), .move 1, .move 1,
    .call (.write 0 [] ⟨false, true, 0, 0⟩), .move 0, .move 0, .move 0, .move 0, .move 0, .move 0,
    .call (.read 1 5 ⟨false, 0⟩), .move 1]

example : ∃ events m,
    exec Machine.step Machine.init emptyWrite = .ok (events, m) ∧ Dead m 0 ∧
      Blocked (m.files 1) ∧ m.move 0 = .error .outOfBounds ∧ m.move 1 = .error .deadlock :=
  ⟨_, _, rfl, ⟨_, _, rfl⟩, rfl, rfl, rfl⟩

end Aesd.LockProgress
