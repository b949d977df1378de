import Aesd.Statements

namespace Aesd.Linearizability

open Function
open Aesd.Lib.BlockHeap Aesd.Lib.Transition Aesd.Lib.Monitor Aesd.Driver Aesd.LogDevice
open Aesd.Interleaving Aesd.Statements
open Aesd.Refinement (Idle idle_init locked lock_unlocked)
open Aesd.RecordLog (newline)

inductive Alone (f : Nat) : FileState → Event → FileState → Prop
  | call {op : DriverOp} {fPos : Option Int} : op.file = f →
      Alone f (.idle fPos) (.called op) (.called op fPos)
  | wait {op : DriverOp} {fPos : Option Int} {p : Int} : entry op fPos = .inl p →
      Alone f (.called op fPos) (.waits op) (.waiting op p)
  | refuse {op : DriverOp} {fPos p : Option Int} {reply : Reply} :
      entry op fPos = .inr (reply, p) →
      Alone f (.called op fPos) (.effect op reply) (.answered op reply p)
  | interrupt {op : DriverOp} {fPos : Int} : interrupted op = true →
      Alone f (.waiting op fPos) (.effect op ⟨-eintr, []⟩) (.answered op ⟨-eintr, []⟩ (some fPos))
  | back {op : DriverOp} {fPos : Option Int} {reply : Reply} :
      Alone f (.answered op reply fPos) (.returned op reply) (.idle fPos)

inductive Enter : FileState → Kernel → Event → FileState → Kernel → Prop
  | lock {op : DriverOp} {fPos : Int} {k : Kernel} : interrupted op = false →
      k.dev.lock = false →
      Enter (.waiting op fPos) k (.locked op) (.running op fPos (firstPoint op)) (locked k)

inductive Inside : FileState → Kernel → Event → FileState → Kernel → Prop
  | statement {op : DriverOp} {fPos : Int} {pt pt' : Point} {k k' : Kernel} :
      next op fPos k pt = .ok (pt', k') →
      Inside (.running op fPos pt) k (.moved op) (.running op fPos pt') k'

inductive Leave : FileState → Kernel → Event → FileState → Kernel → Prop
  | unlock {op : DriverOp} {fPos p : Int} {reply : Reply} {k k' : Kernel} :
      mutexUnlock k = .ok k' →
      Leave (.running op fPos (.unlock reply p)) k (.effect op reply) (.answered op reply (some p)) k'

/-- The calls are tasks that share the kernel under the lock of the device. -/
def calls : Discipline Nat FileState Kernel Event where
  alone := Alone
  enter _ := Enter
  inside _ := Inside
  leave _ := Leave

def inSection : FileState → Bool
  | .running _ _ _ => true
  | _ => false

structure Tracks (m : Machine) (s : System Nat FileState Kernel) : Prop where
  shared : s.shared = m.kernel
  tasks : s.tasks = m.files
  lock : m.kernel.dev.lock = s.owner.isSome
  owner : ∀ f, inSection (m.files f) = true ↔ s.owner = some f

def start : System Nat FileState Kernel := ⟨none, aesdInitModule, fun _ => .idle none⟩

theorem tracks_init : Tracks Machine.init start where
  shared := rfl
  tasks := rfl
  lock := rfl
  owner f := by simp [Machine.init, inSection, start]

variable {m m' : Machine} {s : System Nat FileState Kernel} {f : Nat} {e : Event}

theorem mutexUnlock_ok {k k' : Kernel} (h : mutexUnlock k = .ok k') : k'.dev.lock = false := by
  unfold mutexUnlock at h
  split at h
  · cases h
    rfl
  · cases h

theorem move_cases (hm : m.move f = .ok (e, m')) :
    (∃ st, Alone f (m.files f) e st ∧ m' = m.set f st) ∨
      ∃ st k, (Enter (m.files f) m.kernel e st k ∨ Inside (m.files f) m.kernel e st k ∨
        Leave (m.files f) m.kernel e st k) ∧ m' = { m with kernel := k }.set f st := by
  unfold Machine.move at hm
  cases hf : m.files f with
  | idle fPos =>
    rw [hf] at hm
    cases hm
  | called op fPos =>
    rw [hf] at hm
    cases he : entry op fPos with
    | inl p =>
      simp only [he, Except.ok.injEq, Prod.mk.injEq] at hm
      obtain ⟨rfl, rfl⟩ := hm
      exact .inl ⟨_, .wait he, rfl⟩
    | inr r =>
      obtain ⟨reply, p⟩ := r
      simp only [he, Except.ok.injEq, Prod.mk.injEq] at hm
      obtain ⟨rfl, rfl⟩ := hm
      exact .inl ⟨_, .refuse he, rfl⟩
  | waiting op fPos =>
    rw [hf] at hm
    obtain ⟨⟨b, k⟩, hlock, hm⟩ := bind_ok hm
    cases hi : interrupted op with
    | true =>
      rw [hi] at hlock
      cases hlock
      cases hm
      exact .inl ⟨_, .interrupt hi, rfl⟩
    | false =>
      rw [hi] at hlock
      cases hu : m.kernel.dev.lock with
      | true => simp [mutexLockInterruptible, hu] at hlock
      | false =>
        rw [lock_unlocked hu] at hlock
        cases hlock
        cases hm
        exact .inr ⟨_, _, .inl (.lock hi hu), rfl⟩
  | running op fPos pt =>
    rw [hf] at hm
    by_cases hpt : ∃ reply p, pt = .unlock reply p
    · obtain ⟨reply, p, rfl⟩ := hpt
      obtain ⟨k, hk, hm⟩ := bind_ok hm
      cases hm
      exact .inr ⟨_, _, .inr (.inr (.unlock hk)), rfl⟩
    · have hm' : (next op fPos m.kernel pt >>= fun p =>
          .ok (Event.moved op, { m with kernel := p.2 }.set f (.running op fPos p.1))) =
          .ok (e, m') := by
        cases pt with
        | unlock reply p => exact absurd ⟨reply, p, rfl⟩ hpt
        | _ => exact hm
      obtain ⟨⟨pt', k⟩, hk, hm'⟩ := bind_ok hm'
      cases hm'
      exact .inr ⟨_, _, .inr (.inl (.statement hk)), rfl⟩
  | answered op reply fPos =>
    rw [hf] at hm
    cases hm
    exact .inl ⟨_, .back, rfl⟩

theorem Alone.outside {st st' : FileState} (h : Alone f st e st') :
    inSection st = false ∧ inSection st' = false := by
  cases h <;> exact ⟨rfl, rfl⟩

theorem owner_after {k : Kernel} {o o' : Option Nat} {st : FileState}
    (h : ∀ g, inSection (m.files g) = true ↔ o = some g)
    (hself : inSection st = true ↔ o' = some f) (hothers : ∀ g, g ≠ f → (o = some g ↔ o' = some g))
    (g : Nat) : inSection (({ m with kernel := k }.set f st).files g) = true ↔ o' = some g := by
  by_cases hg : g = f
  · rw [hg, Machine.set_self]
    exact hself
  · rw [Machine.set_ne _ hg]
    exact (h g).trans (hothers g hg)

theorem Tracks.alone (h : Tracks m s) {st : FileState} (ha : Alone f (m.files f) e st) :
    ∃ s', Move calls s f e s' ∧ Tracks (m.set f st) s' := by
  obtain ⟨hn, hn'⟩ := ha.outside
  have hne : ¬ s.owner = some f := by
    rw [← h.owner f, hn]
    exact Bool.false_ne_true
  refine ⟨_, .alone hne (by rw [h.tasks]; exact ha), h.shared, by rw [h.tasks]; rfl, h.lock, ?_⟩
  exact owner_after h.owner (by simpa [hn'] using hne) fun _ _ => Iff.rfl

theorem Tracks.enter (h : Tracks m s) {k : Kernel} {st : FileState}
    (he : Enter (m.files f) m.kernel e st k) :
    ∃ s', Move calls s f e s' ∧ Tracks ({ m with kernel := k }.set f st) s' := by
  have hfacts : inSection st = true ∧ m.kernel.dev.lock = false ∧ k.dev.lock = true := by
    generalize m.files f = before at he
    cases he with
    | lock _ hu => exact ⟨rfl, hu, rfl⟩
  obtain ⟨hn', hu, hk⟩ := hfacts
  have ho : s.owner = none := by
    have hl := h.lock
    rw [hu] at hl
    simpa using hl.symm
  refine ⟨⟨some f, k, update s.tasks f st⟩, .enter ho ?_, rfl, by rw [h.tasks]; rfl, hk,
    owner_after h.owner (by simp [hn']) fun g hg => by simp [ho, Ne.symm hg]⟩
  rw [h.tasks, h.shared]
  exact he

theorem Tracks.inside (h : Tracks m s) {k : Kernel} {st : FileState}
    (hi : Inside (m.files f) m.kernel e st k) :
    ∃ s', Move calls s f e s' ∧ Tracks ({ m with kernel := k }.set f st) s' := by
  have hfacts : inSection (m.files f) = true ∧ inSection st = true ∧
      k.dev.lock = m.kernel.dev.lock := by
    generalize m.files f = before at hi
    cases hi with
    | statement hn => exact ⟨rfl, rfl, next_lock hn⟩
  obtain ⟨hn, hn', hk⟩ := hfacts
  have ho : s.owner = some f := (h.owner f).mp hn
  refine ⟨⟨some f, k, update s.tasks f st⟩, .inside ho ?_, rfl, by rw [h.tasks]; rfl, ?_,
    owner_after h.owner (by simp [hn']) fun _ _ => by rw [ho]⟩
  · rw [h.tasks, h.shared]
    exact hi
  · exact hk.trans (h.lock.trans (by rw [ho]))

theorem Tracks.leave (h : Tracks m s) {k : Kernel} {st : FileState}
    (hl : Leave (m.files f) m.kernel e st k) :
    ∃ s', Move calls s f e s' ∧ Tracks ({ m with kernel := k }.set f st) s' := by
  have hfacts : inSection (m.files f) = true ∧ inSection st = false ∧ k.dev.lock = false := by
    generalize m.files f = before at hl
    cases hl with
    | unlock hk => exact ⟨rfl, rfl, mutexUnlock_ok hk⟩
  obtain ⟨hn, hn', hk⟩ := hfacts
  have ho : s.owner = some f := (h.owner f).mp hn
  refine ⟨⟨none, k, update s.tasks f st⟩, .leave ho ?_, rfl, by rw [h.tasks]; rfl, hk,
    owner_after h.owner (by simp [hn']) fun g hg => by simp [ho, Ne.symm hg]⟩
  rw [h.tasks, h.shared]
  exact hl

theorem step_tracks (h : Tracks m s) {label : Label} (hm : m.step label = .ok (e, m')) :
    ∃ s', Move calls s label.file e s' ∧ Tracks m' s' := by
  cases label with
  | call op =>
    unfold Machine.step at hm
    cases hf : m.files op.file with
    | idle fPos =>
      simp only [hf, Except.ok.injEq, Prod.mk.injEq] at hm
      obtain ⟨rfl, rfl⟩ := hm
      have ha : Alone op.file (m.files op.file) (.called op) (.called op fPos) := hf ▸ .call rfl
      exact h.alone ha
    | called op' fPos | waiting op' fPos | running op' fPos pt | answered op' reply fPos =>
      simp [hf] at hm
  | move f =>
    obtain ⟨st, ha, rfl⟩ | ⟨st, k, he | hi | hl, rfl⟩ := move_cases hm
    · exact h.alone ha
    · exact h.enter he
    · exact h.inside hi
    · exact h.leave hl

/-- Every run of the machine is a run of the calls under the lock. -/
theorem run_tracks {labels : List Label} {events : List Event}
    (hx : exec Machine.step Machine.init labels = .ok (events, m)) :
    ∃ es s, es.map Prod.snd = events ∧ Run calls start es s ∧ Tracks m s := by
  refine exec_history (I := fun _ events m =>
    ∃ es s, es.map Prod.snd = events ∧ Run calls start es s ∧ Tracks m s) ?_ ?_ hx
  · exact ⟨[], start, rfl, .nil, tracks_init⟩
  · rintro labels events m label e m' _ ⟨es, s, rfl, hr, ht⟩ hm
    obtain ⟨s', hmove, ht'⟩ := step_tracks ht hm
    exact ⟨es ++ [(_, e)], s', by simp, hr.snoc hmove, ht'⟩

def effects (events : List Event) : List (DriverOp × Reply) :=
  events.filterMap fun
    | .effect op reply => some (op, reply)
    | _ => none

@[simp] theorem effects_append (events events' : List Event) :
    effects (events ++ events') = effects events ++ effects events' := List.filterMap_append ..

def isEffect : Event → Bool
  | .effect _ _ => true
  | _ => false

theorem effects_filter (events : List Event) : effects (events.filter isEffect) = effects events := by
  induction events with
  | nil => rfl
  | cons e events ih =>
    cases e with
    | effect op reply =>
      rw [List.filter_cons_of_pos rfl]
      exact congrArg ((op, reply) :: ·) ih
    | called op | locked op | moved op | waits op | returned op reply =>
      rw [List.filter_cons_of_neg (by simp [isEffect])]
      exact ih

theorem outward_isEffect : Outward calls isEffect := by
  constructor
  · rintro i p q e p' q' ⟨⟩
    rfl
  · rintro i p q e p' q' ⟨⟩
    rfl

theorem entered_call {p p' : FileState} {k k' : Kernel} {es : List Event}
    (h : Entered calls f p k es p' k') :
    ∃ op fPos pt, p = .waiting op fPos ∧ interrupted op = false ∧ k.dev.lock = false ∧
      p' = .running op fPos pt ∧
      ∀ r, Finishes op fPos (firstPoint op) (locked k) r → Finishes op fPos pt k' r := by
  induction h with
  | enter he =>
    cases he with
    | lock hi hu => exact ⟨_, _, _, rfl, hi, hu, rfl, fun r hr => hr⟩
  | inside _ hi ih =>
    obtain ⟨op, fPos, pt, hp, hni, hu, rfl, hr⟩ := ih
    cases hi with
    | statement hn => exact ⟨op, fPos, _, hp, hni, hu, rfl, fun r h => (hr r h).of_next hn⟩

theorem entered_effects {p p' : FileState} {k k' : Kernel} {es : List Event}
    (h : Entered calls f p k es p' k') : effects es = [] := by
  have hes : es.filter isEffect = [] := by
    apply List.filter_eq_nil_iff.mpr
    intro e he
    rw [outward_isEffect.entered h e he]
    exact Bool.false_ne_true
  rw [← effects_filter, hes]
  rfl

theorem section_call {p p' : FileState} {k k' : Kernel} {es : List Event}
    (h : Section calls f p k es p' k') :
    ∃ op fPos reply q, p = .waiting op fPos ∧ interrupted op = false ∧ k.dev.lock = false ∧
      p' = .answered op reply (some q) ∧ effects es = [(op, reply)] ∧
      ∀ r, Finishes op fPos (firstPoint op) (locked k) r → r = some (reply, k', q) := by
  cases h with
  | leave he hl =>
    obtain ⟨op, fPos, pt, rfl, hni, hu, rfl, hr⟩ := entered_call he
    cases hl with
    | unlock hk =>
      refine ⟨op, fPos, _, _, rfl, hni, hu, rfl, ?_, fun r h => ?_⟩
      · rw [effects_append, entered_effects he]
        rfl
      · obtain ⟨k₁, hk₁, rfl⟩ := (hr r h).of_unlock
        rw [hk, Except.ok.injEq] at hk₁
        rw [hk₁]

def At (f : Nat) (p : Option Int) : FileState → Prop
  | .idle q => p = q
  | .called op q => op.file = f ∧ p = q
  | .waiting op q => op.file = f ∧ entry op p = .inl q
  | .running _ _ _ => False
  | .answered _ _ q => p = q

/-- After turns one after the other the kernel and the files are where the log
device is after the calls that have taken effect. -/
structure Replayed (events : List Event) (ts : Nat → FileState) (k : Kernel) (q : State) :
    Prop where
  replay : answers LogDevice.step State.init ((effects events).map Prod.fst) =
    ((effects events).map Prod.snd, q)
  idle : Idle k q.log
  files : ∀ f, At f (q.files f) (ts f)

variable {events : List Event} {ts : Nat → FileState} {k : Kernel} {q : State}

theorem Replayed.silent (h : Replayed events ts k q) {es : List Event} {st : FileState}
    (he : effects es = []) (hf : At f (q.files f) st) :
    Replayed (events ++ es) (update ts f st) k q where
  replay := by rw [effects_append, he, List.append_nil, h.replay]
  idle := h.idle
  files g := by
    by_cases hg : g = f
    · rw [hg, update_self]
      exact hf
    · rw [update_of_ne hg]
      exact h.files g

theorem Replayed.effect (h : Replayed events ts k q) {es : List Event} {op : DriverOp}
    {reply : Reply} {p : Option Int} {d' : Device} {k' : Kernel} (he : effects es = [(op, reply)])
    (hd : d' = ⟨k', update q.files f p⟩)
    (hv : vfsStep ⟨k, q.files⟩ op = .ok (reply, d')) :
    ∃ q', Replayed (events ++ es) (update ts f (.answered op reply p)) k' q' := by
  have himpl : Implements ⟨k, q.files⟩ q := ⟨h.idle, rfl⟩
  obtain ⟨_, hreply, himp⟩ := vfs_answers himpl hv
  subst hd
  have hfiles : (LogDevice.step q op).2.files = update q.files f p := himp.files.symm
  refine ⟨(LogDevice.step q op).2, ?_, himp.idle, fun g => ?_⟩
  · rw [effects_append, he, List.map_append, List.map_append, answers_append, h.replay]
    simp only [List.map_cons, List.map_nil, answers, ← hreply]
  · by_cases hg : g = f
    · rw [hfiles, hg, update_self, update_self]
      rfl
    · rw [hfiles, update_of_ne hg, update_of_ne hg]
      exact h.files g

theorem Replayed.alone (h : Replayed events ts k q) {st : FileState} (ha : Alone f (ts f) e st) :
    ∃ q', Replayed (events ++ [e]) (update ts f st) k q' := by
  have hf := h.files f
  generalize ts f = before at ha hf
  cases ha with
  | call hop => exact ⟨q, h.silent rfl ⟨hop, hf⟩⟩
  | wait he =>
    rw [← hf.2] at he
    exact ⟨q, h.silent rfl ⟨hf.1, he⟩⟩
  | refuse he =>
    obtain ⟨rfl, hp⟩ := hf
    rw [← hp] at he
    exact h.effect rfl rfl (vfs_refused (d := ⟨k, q.files⟩) he)
  | interrupt hi =>
    obtain ⟨rfl, he⟩ := hf
    exact h.effect rfl rfl (vfs_interrupted (d := ⟨k, q.files⟩) he hi)
  | back => exact ⟨q, h.silent rfl hf⟩

theorem Replayed.whole (h : Replayed events ts k q) {es : List Event} {st : FileState}
    {k' : Kernel} (hs : Section calls f (ts f) k es st k') :
    ∃ q', Replayed (events ++ es) (update ts f st) k' q' := by
  obtain ⟨op, fPos, reply, p, hts, hni, hu, rfl, he, hr⟩ := section_call hs
  have hf := h.files f
  rw [hts] at hf
  obtain ⟨rfl, hentry⟩ := hf
  have himpl : Implements ⟨k, q.files⟩ q := ⟨h.idle, rfl⟩
  obtain ⟨ho, _⟩ | ⟨_, d', hv, _⟩ := vfs_cases himpl op
  · have hstuck := hr _ (call_oops h.idle ho)
    cases hstuck
  obtain ⟨k₁, p₁, hfin, hd⟩ := vfs_finishes (d := ⟨k, q.files⟩) hu hentry hni hv
  have heq := hr _ hfin
  simp only [Option.some.injEq, Prod.mk.injEq] at heq
  obtain ⟨hreply, rfl, rfl⟩ := heq
  rw [hreply] at hv
  exact h.effect he hd hv

theorem serial_replayed {turns : List (Turn Nat Event)} {ts : Nat → FileState} {k : Kernel}
    (h : Serial calls start.tasks start.shared turns ts k) :
    ∃ q, Replayed ((eventsOf turns).map Prod.snd) ts k q := by
  induction h with
  | nil => exact ⟨State.init, rfl, idle_init, fun _ => rfl⟩
  | @alone turns ts k i e st _ ha ih =>
    obtain ⟨q, hq⟩ := ih
    have hes : (eventsOf (turns ++ [Turn.alone i e])).map Prod.snd =
        (eventsOf turns).map Prod.snd ++ [e] := by
      simp [Turn.events]
    rw [hes]
    exact hq.alone ha
  | @whole turns ts k k' i es st _ hs ih =>
    obtain ⟨q, hq⟩ := ih
    have hes : (eventsOf (turns ++ [Turn.whole i es])).map Prod.snd =
        (eventsOf turns).map Prod.snd ++ es := by
      simp [Turn.events, Function.comp_def]
    rw [hes]
    exact hq.whole hs

def position : FileState → Option Int
  | .idle fPos | .called _ fPos | .answered _ _ fPos => fPos
  | .waiting _ fPos | .running _ fPos _ => some fPos

theorem position_at {f : Nat} {p : Option Int} {s : FileState} (h : At f p s) : position s = p := by
  cases s with
  | idle fPos | answered op reply fPos => exact h.symm
  | called op fPos => exact h.2.symm
  | waiting op fPos => exact (entry_inl h.2).1.symm
  | running op fPos pt => exact h.elim

/-- The state of a run: the log device after the calls that have taken effect,
and the call in its section, if there is one, at some statement. -/
structure Linearized (events : List Event) (m : Machine) (q : State) : Prop where
  replay : answers LogDevice.step State.init ((effects events).map Prod.fst) =
    ((effects events).map Prod.snd, q)
  files : ∀ f, position (m.files f) = q.files f
  others : ∀ f, inSection (m.files f) = false → At f (q.files f) (m.files f)
  free : m.kernel.dev.lock = false → Idle m.kernel q.log ∧ ∀ f, inSection (m.files f) = false
  taken : m.kernel.dev.lock = true → ∃ f op fPos pt k, m.files f = .running op fPos pt ∧
    op.file = f ∧ interrupted op = false ∧ entry op (q.files f) = .inl fPos ∧ Idle k q.log ∧
    (∀ r, Finishes op fPos (firstPoint op) (locked k) r → Finishes op fPos pt m.kernel r) ∧
    ∀ g, g ≠ f → inSection (m.files g) = false

theorem linearized_free {ts : Nat → FileState} {k : Kernel} {q : State}
    (hq : Replayed events ts k q) (ht : Tracks m s) (ho : s.owner = none) (hts : s.tasks = ts)
    (hk : s.shared = k) : Linearized events m q := by
  have hfiles : m.files = ts := ht.tasks.symm.trans hts
  have hkernel : m.kernel = k := ht.shared.symm.trans hk
  have hout : ∀ f, inSection (m.files f) = false := by
    intro f
    have hf := ht.owner f
    rw [ho] at hf
    simpa using hf
  have hl : m.kernel.dev.lock = false := by rw [ht.lock, ho]; rfl
  refine ⟨hq.replay, fun f => ?_, fun f _ => ?_, fun _ => ⟨hkernel ▸ hq.idle, hout⟩, fun h => ?_⟩
  · rw [hfiles]
    exact position_at (hq.files f)
  · rw [hfiles]
    exact hq.files f
  · rw [hl] at h
    cases h

theorem linearized_taken {ts : Nat → FileState} {k : Kernel} {q : State} {p : FileState}
    {es : List Event} (hq : Replayed events ts k q) (ht : Tracks m s) (ho : s.owner = some f)
    (he : Entered calls f (ts f) k es p s.shared) (hts : s.tasks = update ts f p) :
    Linearized events m q := by
  obtain ⟨op, fPos, pt, hwait, hni, hu, rfl, hr⟩ := entered_call he
  have hfiles : m.files = update ts f (.running op fPos pt) := ht.tasks.symm.trans hts
  have hf := hq.files f
  rw [hwait] at hf
  obtain ⟨hop, hentry⟩ := hf
  have hself : m.files f = .running op fPos pt := by rw [hfiles, update_self]
  have hne : ∀ g, g ≠ f → m.files g = ts g := fun g hg => by rw [hfiles, update_of_ne hg]
  have hout : ∀ g, g ≠ f → inSection (m.files g) = false := by
    intro g hg
    have hg' := ht.owner g
    rw [ho] at hg'
    simpa [Ne.symm hg] using hg'
  have hl : m.kernel.dev.lock = true := by rw [ht.lock, ho]; rfl
  have hkernel : s.shared = m.kernel := ht.shared
  refine ⟨hq.replay, fun g => ?_, fun g hg => ?_, fun h => ?_, fun _ => ?_⟩
  · by_cases hg : g = f
    · rw [hg, hself]
      exact (entry_inl hentry).1.symm
    · rw [hne g hg]
      exact position_at (hq.files g)
  · have hgf : g ≠ f := by
      rintro rfl
      rw [hself] at hg
      cases hg
    rw [hne g hgf]
    exact hq.files g
  · rw [hl] at h
    cases h
  · rw [hkernel] at hr
    exact ⟨f, op, fPos, pt, k, hself, hop, hni, hentry, hq.idle, hr, hout⟩

theorem effects_of_filter {es es' : List (Nat × Event)}
    (h : es.filter (fun p => isEffect p.2) = es'.filter fun p => isEffect p.2) :
    effects (es.map Prod.snd) = effects (es'.map Prod.snd) := by
  rw [← effects_filter, ← effects_filter (es'.map Prod.snd), List.filter_map, List.filter_map]
  exact congrArg (fun x => effects (x.map Prod.snd)) h

theorem run_linearized {labels : List Label} {events : List Event} {m : Machine}
    (hx : exec Machine.step Machine.init labels = .ok (events, m)) :
    ∃ q, Linearized events m q := by
  obtain ⟨es, s, rfl, hrun, ht⟩ := run_tracks hx
  obtain ⟨turns, ts, k, pending, hser, hpend, hsame⟩ := run_serialises hrun
  obtain ⟨q, hq⟩ := serial_replayed hser
  have heff := effects_of_filter (hsame.shown isEffect outward_isEffect)
  rw [List.map_append, effects_append] at heff
  have hreplay : effects (pending.map Prod.snd) = [] → Replayed (es.map Prod.snd) ts k q := by
    intro hnil
    rw [hnil, List.append_nil] at heff
    exact ⟨heff ▸ hq.replay, hq.idle, hq.files⟩
  unfold Pending at hpend
  cases ho : s.owner with
  | none =>
    simp only [ho] at hpend
    obtain ⟨rfl, hts, hk⟩ := hpend
    exact ⟨q, linearized_free (hreplay rfl) ht ho hts hk⟩
  | some f =>
    simp only [ho] at hpend
    obtain ⟨es', p, rfl, hent, hts⟩ := hpend
    have hnil : effects ((es'.map fun e => (f, e)).map Prod.snd) = [] := by
      rw [List.map_map]
      simpa [Function.comp_def] using entered_effects hent
    exact ⟨q, linearized_taken (hreplay hnil) ht ho hent hts⟩

def Event.op : Event → DriverOp
  | .called op | .locked op | .moved op | .effect op _ | .waits op | .returned op _ => op

def boundary : Event → Bool
  | .called _ | .effect _ _ | .returned _ _ => true
  | _ => false

def callsOn (f : Nat) (events : List Event) : List Event :=
  events.filter fun e => boundary e && (Event.op e).file = f

def wholeCall (c : DriverOp × Reply) : List Event := [.called c.1, .effect c.1 c.2, .returned c.1 c.2]

def begun : FileState → List Event
  | .idle _ => []
  | .called op _ | .waiting op _ | .running op _ _ => [.called op]
  | .answered op reply _ => [.called op, .effect op reply]

def Own (f : Nat) : FileState → Prop
  | .idle _ => True
  | .called op _ | .waiting op _ | .running op _ _ | .answered op _ _ => op.file = f

/-- The calls on a file follow each other, and the last one may be in progress. -/
def InOrder (f : Nat) (events : List Event) (st : FileState) : Prop :=
  Own f st ∧ ∃ done : List (DriverOp × Reply),
    callsOn f events = done.flatMap wholeCall ++ begun st

theorem callsOn_silent {events : List Event} (h : boundary e = false) :
    callsOn f (events ++ [e]) = callsOn f events := by
  simp [callsOn, h]

theorem callsOn_boundary {events : List Event} (h : boundary e = true)
    (hf : (Event.op e).file = f) : callsOn f (events ++ [e]) = callsOn f events ++ [e] := by
  simp [callsOn, h, hf]

theorem callsOn_other {events : List Event} (hf : (Event.op e).file ≠ f) :
    callsOn f (events ++ [e]) = callsOn f events := by
  simp [callsOn, hf]

theorem InOrder.alone {events : List Event} {st st' : FileState} (h : InOrder f events st)
    (ha : Alone f st e st') : (Event.op e).file = f ∧ InOrder f (events ++ [e]) st' := by
  obtain ⟨hown, done, hd⟩ := h
  cases ha with
  | call hop =>
    refine ⟨hop, hop, done, ?_⟩
    rw [callsOn_boundary (e := .called _) rfl hop, hd, begun, List.append_nil]
    rfl
  | wait he => exact ⟨hown, hown, done, (callsOn_silent rfl).trans hd⟩
  | refuse he | interrupt hi =>
    refine ⟨hown, hown, done, ?_⟩
    rw [callsOn_boundary (e := .effect _ _) rfl hown, hd, List.append_assoc]
    rfl
  | @back op fPos reply =>
    refine ⟨hown, trivial, done ++ [(op, reply)], ?_⟩
    rw [callsOn_boundary (e := .returned _ _) rfl hown, hd, List.append_assoc, List.flatMap_append]
    simp [begun, wholeCall]

theorem run_inOrder {es : List (Nat × Event)} {s : System Nat FileState Kernel}
    (h : Run calls start es s) (f : Nat) : InOrder f (es.map Prod.snd) (s.tasks f) := by
  induction h generalizing f with
  | nil => exact ⟨trivial, [], rfl⟩
  | @snoc es t u i e _ hm ih =>
    have hi := ih i
    -- one task has moved, and it made an event of its own calls
    suffices hmove : ∃ st, u.tasks = update t.tasks i st ∧ (Event.op e).file = i ∧
        InOrder i (es.map Prod.snd ++ [e]) st by
      obtain ⟨st, hu, hop, hst⟩ := hmove
      rw [List.map_append, hu]
      by_cases hf : f = i
      · rw [hf, update_self]
        exact hst
      · obtain ⟨hown, done, hd⟩ := ih f
        rw [update_of_ne hf]
        have hne : (Event.op e).file ≠ f := fun h => hf (h.symm.trans hop)
        exact ⟨hown, done, (callsOn_other hne).trans hd⟩
    generalize hst : t.tasks i = before at hi hm
    cases hm with
    | alone _ ha =>
      rw [hst] at ha
      obtain ⟨hop, hnew⟩ := hi.alone ha
      exact ⟨_, rfl, hop, hnew⟩
    | enter _ he =>
      rw [hst] at he
      obtain ⟨hown, done, hd⟩ := hi
      cases he with
      | lock _ _ => exact ⟨_, rfl, hown, hown, done, (callsOn_silent rfl).trans hd⟩
    | inside _ he =>
      rw [hst] at he
      obtain ⟨hown, done, hd⟩ := hi
      cases he with
      | statement _ => exact ⟨_, rfl, hown, hown, done, (callsOn_silent rfl).trans hd⟩
    | leave _ he =>
      rw [hst] at he
      obtain ⟨hown, done, hd⟩ := hi
      cases he with
      | unlock _ =>
        refine ⟨_, rfl, hown, hown, done, ?_⟩
        rw [callsOn_boundary (e := .effect _ _) rfl hown, hd, List.append_assoc]
        rfl

theorem begun_isPrefix (st : FileState) : ∃ c, begun st <+: wholeCall c := by
  cases st with
  | idle fPos => exact ⟨(.openFile 0, ⟨0, []⟩), List.nil_prefix⟩
  | called op fPos | waiting op fPos | running op fPos pt => exact ⟨(op, ⟨0, []⟩), _, rfl⟩
  | answered op reply fPos => exact ⟨(op, reply), _, rfl⟩

/-- Calls made through any files, whose statements are executed in any order, take
effect one at a time: each at a moment between its begin and its return, with
the answer that the log device gives at that moment. Whenever the lock is free
the memory is that of the log device. -/
theorem driver_linearizable {labels : List Label} {events : List Event} {m : Machine}
    (hx : exec Machine.step Machine.init labels = .ok (events, m)) :
    let history := effects events
    ∃ q, answers LogDevice.step State.init (history.map Prod.fst) = (history.map Prod.snd, q) ∧
      (∀ f, position (m.files f) = q.files f) ∧
      (m.kernel.dev.lock = false → Idle m.kernel q.log) ∧
      ∀ f, ∃ done : List (DriverOp × Reply), ∃ c rest,
        callsOn f events = done.flatMap wholeCall ++ rest ∧ rest <+: wholeCall c := by
  obtain ⟨q, hq⟩ := run_linearized hx
  obtain ⟨es, s, rfl, hrun, _⟩ := run_tracks hx
  refine ⟨q, hq.replay, hq.files, fun h => (hq.free h).1, fun f => ?_⟩
  obtain ⟨_, done, hd⟩ := run_inOrder hrun f
  obtain ⟨c, hc⟩ := begun_isPrefix (s.tasks f)
  exact ⟨done, c, _, hd, hc⟩

/-- A write and a read that overlap: the reader waits while the writer has the lock. -/
def overlappingCalls : List Label :=
  [.call (.openFile 0), .move 0, .move 0, .call (.openFile 1), .move 1, .move 1,
    .call (.write 0 [97, newline] ⟨false, true, 0, 0⟩), .call (.read 1 5 ⟨false, 0⟩), .move 0,
    .move 1, .move 0, .move 0, .move 0, .move 0, .move 0, .move 0, .move 0, .move 0, .move 0,
    .move 0, .move 1, .move 1, .move 1, .move 1, .move 0, .move 1]

theorem overlappingCalls_linearizable : ∃ events m,
    exec Machine.step Machine.init overlappingCalls = .ok (events, m) ∧
      ∃ q, answers LogDevice.step State.init ((effects events).map Prod.fst) =
        ((effects events).map Prod.snd, q) := by
  obtain ⟨events, m, hx⟩ : ∃ events m,
    exec Machine.step Machine.init overlappingCalls = .ok (events, m) := ⟨_, _, rfl⟩
  obtain ⟨q, hq, _⟩ := driver_linearizable hx
  exact ⟨events, m, hx, q, hq⟩

end Aesd.Linearizability
