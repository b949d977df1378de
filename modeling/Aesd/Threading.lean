import Aesd.Lib.BlockHeap
import Aesd.Lib.Transition

namespace Aesd.Threading

open Aesd.Lib.BlockHeap Aesd.Lib.Transition

structure ThreadData where
  mutex : Nat
  waitToObtainMs : Int
  waitToReleaseMs : Int
  threadCompleteSuccess : Bool
  deriving DecidableEq, Repr

inductive Pc
  | waitToObtain
  | lock
  | waitToRelease
  | unlock
  | returned
  deriving DecidableEq, Repr

structure Thread where
  data : ThreadData
  pc : Pc
  deriving DecidableEq, Repr

inductive Request
  | usleep (usec : Nat)
  | lock (mutex : Nat)
  | unlock (mutex : Nat)
  deriving DecidableEq, Repr

/-- Milliseconds as an argument of `usleep`: a product of type `int`, which must
not overflow, converted to `useconds_t`. -/
def usec (ms : Int) : Except Fault Nat :=
  if -2 ^ 31 ≤ ms * 1000 ∧ ms * 1000 < 2 ^ 31 then .ok (ms * 1000 % 2 ^ 32).toNat
  else .error .overflow

def Thread.request (t : Thread) : Except Fault Request :=
  match t.pc with
  | .waitToObtain => do .ok (.usleep (← usec t.data.waitToObtainMs))
  | .lock => .ok (.lock t.data.mutex)
  | .waitToRelease => do .ok (.usleep (← usec t.data.waitToReleaseMs))
  | .unlock => .ok (.unlock t.data.mutex)
  | .returned => .error .disabled

def Thread.finish (t : Thread) (success : Bool) : Thread :=
  ⟨{ t.data with threadCompleteSuccess := success }, .returned⟩

def Thread.resume (t : Thread) (failed : Bool) : Thread :=
  if failed then t.finish false
  else
    match t.pc with
    | .waitToObtain => { t with pc := .lock }
    | .lock => { t with pc := .waitToRelease }
    | .waitToRelease => { t with pc := .unlock }
    | .unlock | .returned => t.finish true

/-- The mutexes with the threads that have them, the threads in the order in
which they were started, and the blocks that nothing points to any more. -/
structure Process where
  owner : Nat → Option Nat
  threads : List Thread
  lost : Nat

def Process.init : Process := ⟨fun _ => none, [], 0⟩

def startThreadObtainingMutex (s : Process) (mutex : Nat) (waitToObtainMs waitToReleaseMs : Int)
    (granted created : Bool) : Bool × Process :=
  if !granted then (false, s)
  else
    let data : ThreadData := ⟨mutex, waitToObtainMs, waitToReleaseMs, false⟩
    if !created then (false, { s with lost := s.lost + 1 })
    else (true, { s with threads := s.threads ++ [⟨data, .waitToObtain⟩] })

def serve (owner : Nat → Option Nat) (i : Nat) (failed : Bool) :
    Request → Except Fault (Nat → Option Nat)
  | .usleep _ => .ok owner
  | .lock mutex =>
    if failed then .ok owner
    else if owner mutex = none then .ok (Function.update owner mutex (some i))
    else .error .disabled
  | .unlock mutex =>
    if failed then .ok owner
    else if owner mutex = some i then .ok (Function.update owner mutex none)
    else .error .notLocked

inductive Event
  | started (success : Bool)
  | call (i : Nat) (req : Request) (failed : Bool)
  deriving DecidableEq, Repr

inductive Label
  | start (mutex : Nat) (waitToObtainMs waitToReleaseMs : Int) (granted created : Bool)
  | thread (i : Nat) (failed : Bool)

def Process.step (s : Process) : Label → Except Fault (Event × Process)
  | .start mutex waitToObtainMs waitToReleaseMs granted created =>
    let (success, s) :=
      startThreadObtainingMutex s mutex waitToObtainMs waitToReleaseMs granted created
    .ok (.started success, s)
  | .thread i failed =>
    match s.threads[i]? with
    | none => .error .disabled
    | some t => do
      let req ← t.request
      let owner ← serve s.owner i failed req
      .ok (.call i req failed, { s with owner := owner, threads := s.threads.set i (t.resume failed) })

def Event.callOf (i : Nat) : Event → Option (Request × Bool)
  | .call j req failed => if j = i then some (req, failed) else none
  | .started _ => none

def callsOf (i : Nat) (events : List Event) : List (Request × Bool) :=
  events.filterMap (Event.callOf i)

theorem callsOf_snoc (i : Nat) (events : List Event) (e : Event) :
    callsOf i (events ++ [e]) = callsOf i events ++ (e.callOf i).toList := by
  rw [callsOf, List.filterMap_append]
  cases h : e.callOf i <;> simp [h, callsOf]

/-- What the calls of a thread have come to. -/
inductive Ran (mutex : Nat) : List (Request × Bool) → Pc → Bool → Prop
  | started : Ran mutex [] .waitToObtain false
  | waited (a : Nat) : Ran mutex [(.usleep a, false)] .lock false
  | locked (a : Nat) : Ran mutex [(.usleep a, false), (.lock mutex, false)] .waitToRelease false
  | held (a b : Nat) :
      Ran mutex [(.usleep a, false), (.lock mutex, false), (.usleep b, false)] .unlock false
  | completed (a b : Nat) :
      Ran mutex [(.usleep a, false), (.lock mutex, false), (.usleep b, false), (.unlock mutex, false)]
        .returned true
  | failed {calls : List (Request × Bool)} {pc : Pc} (req : Request) : Ran mutex calls pc false →
      Ran mutex (calls ++ [(req, true)]) .returned false

theorem Ran.resume {t : Thread} {calls : List (Request × Bool)} {req : Request} {failed : Bool}
    (hr : Ran t.data.mutex calls t.pc t.data.threadCompleteSuccess) (hreq : t.request = .ok req) :
    Ran (t.resume failed).data.mutex (calls ++ [(req, failed)]) (t.resume failed).pc
      (t.resume failed).data.threadCompleteSuccess := by
  obtain ⟨⟨mutex, o, r, success⟩, pc⟩ := t
  dsimp only at hr
  cases failed with
  | true =>
    have hfalse : success = false := by
      cases hr with
      | completed => cases hreq
      | started | waited | locked | held | failed => rfl
    subst hfalse
    exact .failed req hr
  | false =>
    cases hr with
    | started =>
      obtain ⟨a, _, hreq⟩ := bind_ok hreq
      cases hreq
      exact .waited a
    | waited a =>
      cases hreq
      exact .locked a
    | locked a =>
      obtain ⟨b, _, hreq⟩ := bind_ok hreq
      cases hreq
      exact .held a b
    | held a b =>
      cases hreq
      exact .completed a b
    | completed | failed => cases hreq

theorem Ran.success {mutex : Nat} {calls : List (Request × Bool)} {pc : Pc} {success : Bool}
    (hr : Ran mutex calls pc success) (h : success = true) :
    ∃ a b, calls = [(.usleep a, false), (.lock mutex, false), (.usleep b, false),
      (.unlock mutex, false)] := by
  cases hr with
  | completed a b => exact ⟨a, b, rfl⟩
  | started | waited | locked | held | failed => cases h

theorem Ran.full {mutex a b : Nat} {calls : List (Request × Bool)} {pc : Pc} {success : Bool}
    (hr : Ran mutex calls pc success) (h : calls = [(.usleep a, false), (.lock mutex, false),
      (.usleep b, false), (.unlock mutex, false)]) : success = true := by
  cases hr with
  | completed => rfl
  | started | waited | locked | held => simp at h
  | failed req _ =>
    have hlast := congrArg List.getLast? h
    simp at hlast

theorem serve_ok {owner owner' : Nat → Option Nat} {i : Nat} {failed : Bool} {req : Request}
    (h : serve owner i failed req = .ok owner') :
    owner' = owner ∧ (failed = true ∨ ∃ a, req = .usleep a) ∨
      failed = false ∧
        ((∃ m, req = .lock m ∧ owner m = none ∧ owner' = Function.update owner m (some i)) ∨
          ∃ m, req = .unlock m ∧ owner m = some i ∧ owner' = Function.update owner m none) := by
  cases req with
  | usleep a =>
    cases h
    exact .inl ⟨rfl, .inr ⟨a, rfl⟩⟩
  | lock m =>
    simp only [serve] at h
    split at h
    · next hf =>
      cases h
      exact .inl ⟨rfl, .inl hf⟩
    · next hf =>
      split at h
      · next hn =>
        cases h
        exact .inr ⟨by simpa using hf, .inl ⟨m, rfl, hn, rfl⟩⟩
      · cases h
  | unlock m =>
    simp only [serve] at h
    split at h
    · next hf =>
      cases h
      exact .inl ⟨rfl, .inl hf⟩
    · next hf =>
      split at h
      · next hn =>
        cases h
        exact .inr ⟨by simpa using hf, .inr ⟨m, rfl, hn, rfl⟩⟩
      · cases h

theorem step_cases {s s' : Process} {label : Label} {e : Event} (h : s.step label = .ok (e, s')) :
    (∃ success new, e = .started success ∧ s'.owner = s.owner ∧ s'.threads = s.threads ++ new ∧
      ∀ t ∈ new, t.pc = .waitToObtain ∧ t.data.threadCompleteSuccess = false) ∨
      ∃ i failed t req owner, s.threads[i]? = some t ∧ t.request = .ok req ∧
        serve s.owner i failed req = .ok owner ∧ e = .call i req failed ∧
        s' = { s with owner := owner, threads := s.threads.set i (t.resume failed) } := by
  cases label with
  | start mutex o r granted created =>
    left
    simp only [Process.step, startThreadObtainingMutex, Except.ok.injEq, Prod.mk.injEq] at h
    obtain ⟨rfl, rfl⟩ := h
    cases granted with
    | false => exact ⟨_, [], rfl, rfl, (List.append_nil _).symm, fun t ht => by cases ht⟩
    | true =>
      cases created with
      | false => exact ⟨_, [], rfl, rfl, (List.append_nil _).symm, fun t ht => by cases ht⟩
      | true =>
        refine ⟨_, [⟨⟨mutex, o, r, false⟩, .waitToObtain⟩], rfl, rfl, rfl, fun t ht => ?_⟩
        rw [List.mem_singleton.mp ht]
        exact ⟨rfl, rfl⟩
  | thread i failed =>
    right
    simp only [Process.step] at h
    cases ht : s.threads[i]? with
    | none =>
      rw [ht] at h
      cases h
    | some t =>
      rw [ht] at h
      obtain ⟨req, hreq, h⟩ := bind_ok h
      obtain ⟨owner, howner, h⟩ := bind_ok h
      cases h
      exact ⟨i, failed, t, req, owner, ht, hreq, howner, rfl, rfl⟩

/-- Between the lock and the unlock. -/
def Thread.Inside (t : Thread) : Prop := t.pc = .waitToRelease ∨ t.pc = .unlock

structure Consistent (events : List Event) (s : Process) : Prop where
  ran : ∀ i t, s.threads[i]? = some t →
    Ran t.data.mutex (callsOf i events) t.pc t.data.threadCompleteSuccess
  later : ∀ i, s.threads.length ≤ i → callsOf i events = []
  inside : ∀ i t, s.threads[i]? = some t → t.Inside → s.owner t.data.mutex = some i
  owner : ∀ m i, s.owner m = some i → ∃ t, s.threads[i]? = some t ∧ t.data.mutex = m ∧
    (t.Inside ∨ t.pc = .returned ∧ t.data.threadCompleteSuccess = false)

theorem consistent_init : Consistent [] Process.init where
  ran i t ht := by simp [Process.init] at ht
  later _ _ := rfl
  inside i t ht := by simp [Process.init] at ht
  owner m i hm := by cases hm

theorem resume_mutex (t : Thread) (failed : Bool) : (t.resume failed).data.mutex = t.data.mutex := by
  obtain ⟨data, pc⟩ := t
  cases failed with
  | true => rfl
  | false => cases pc <;> rfl

theorem resume_inside {t : Thread} {req : Request} (failed : Bool) (hreq : t.request = .ok req) :
    ((t.resume failed).Inside ↔
      failed = false ∧ (t.Inside ∧ (∀ m, req ≠ .unlock m) ∨ ∃ m, req = .lock m)) ∧
    (t.Inside → failed = true → (t.resume failed).pc = .returned ∧
      (t.resume failed).data.threadCompleteSuccess = false) := by
  obtain ⟨data, pc⟩ := t
  cases failed with
  | true => exact ⟨by simp [Thread.Inside, Thread.resume, Thread.finish], fun _ _ => ⟨rfl, rfl⟩⟩
  | false =>
    refine ⟨?_, fun _ h => by cases h⟩
    cases pc with
    | waitToObtain | waitToRelease =>
      obtain ⟨a, _, hreq⟩ := bind_ok hreq
      cases hreq
      simp [Thread.Inside, Thread.resume]
    | lock | unlock =>
      cases hreq
      simp [Thread.Inside, Thread.resume, Thread.finish]
    | returned => cases hreq

theorem request_mutex {t : Thread} {m : Nat} :
    (t.request = .ok (.lock m) → m = t.data.mutex ∧ t.pc = .lock) ∧
      (t.request = .ok (.unlock m) → m = t.data.mutex ∧ t.pc = .unlock) := by
  obtain ⟨data, pc⟩ := t
  cases pc with
  | waitToObtain | waitToRelease =>
    constructor <;>
    · intro h
      obtain ⟨a, _, h⟩ := bind_ok h
      cases h
  | lock => exact ⟨fun h => (by cases h; exact ⟨rfl, rfl⟩), fun h => (by cases h)⟩
  | unlock => exact ⟨fun h => (by cases h), fun h => (by cases h; exact ⟨rfl, rfl⟩)⟩
  | returned => exact ⟨fun h => (by cases h), fun h => (by cases h)⟩

section Call

variable {events : List Event} {s : Process} {i : Nat} {failed : Bool} {t : Thread} {req : Request}
  {owner : Nat → Option Nat}

theorem call_inside (hc : Consistent events s) (ht : s.threads[i]? = some t)
    (hreq : t.request = .ok req) (hserve : serve s.owner i failed req = .ok owner) {j : Nat}
    {t' : Thread} (ht' : (s.threads.set i (t.resume failed))[j]? = some t') (hin : t'.Inside) :
    owner t'.data.mutex = some j := by
  obtain ⟨hinside, _⟩ := resume_inside failed hreq
  by_cases hj : j = i
  · subst hj
    rw [List.getElem?_set_self (List.getElem?_eq_some_iff.mp ht).1, Option.some.injEq] at ht'
    subst ht'
    rw [resume_mutex]
    obtain ⟨hf, hwhy⟩ := hinside.mp hin
    obtain ⟨rfl, hsame⟩ | ⟨_, ⟨m, rfl, hfree, rfl⟩ | ⟨m, rfl, _, rfl⟩⟩ := serve_ok hserve
    · obtain hf' | ⟨a, rfl⟩ := hsame
      · rw [hf] at hf'
        cases hf'
      · obtain ⟨hbefore, _⟩ | ⟨m, hm⟩ := hwhy
        · exact hc.inside j t ht hbefore
        · cases hm
    · rw [(request_mutex.1 hreq).1]
      exact Function.update_self ..
    · obtain ⟨_, hno⟩ | ⟨m', hm⟩ := hwhy
      · exact absurd rfl (hno m)
      · cases hm
  · rw [List.getElem?_set_ne (Ne.symm hj)] at ht'
    have hown := hc.inside j t' ht' hin
    obtain ⟨rfl, _⟩ | ⟨_, ⟨m, _, hfree, rfl⟩ | ⟨m, _, hmine, rfl⟩⟩ := serve_ok hserve
    · exact hown
    · have hne : t'.data.mutex ≠ m := by
        rintro rfl
        rw [hfree] at hown
        cases hown
      rw [Function.update_of_ne hne]
      exact hown
    · have hne : t'.data.mutex ≠ m := by
        rintro rfl
        rw [hmine] at hown
        exact hj (Option.some.inj hown).symm
      rw [Function.update_of_ne hne]
      exact hown

theorem call_owner (hc : Consistent events s) (ht : s.threads[i]? = some t)
    (hreq : t.request = .ok req) (hserve : serve s.owner i failed req = .ok owner) {m j : Nat}
    (hm : owner m = some j) :
    ∃ t', (s.threads.set i (t.resume failed))[j]? = some t' ∧ t'.data.mutex = m ∧
      (t'.Inside ∨ t'.pc = .returned ∧ t'.data.threadCompleteSuccess = false) := by
  obtain ⟨hinside, hfails⟩ := resume_inside failed hreq
  have hself : (s.threads.set i (t.resume failed))[i]? = some (t.resume failed) :=
    List.getElem?_set_self (List.getElem?_eq_some_iff.mp ht).1
  have hkeep : s.owner m = some j → (j = i → t.data.mutex = m → t.Inside →
      (t.resume failed).Inside ∨ (t.resume failed).pc = .returned ∧
        (t.resume failed).data.threadCompleteSuccess = false) →
      ∃ t', (s.threads.set i (t.resume failed))[j]? = some t' ∧ t'.data.mutex = m ∧
        (t'.Inside ∨ t'.pc = .returned ∧ t'.data.threadCompleteSuccess = false) := by
    intro hm hown
    obtain ⟨t', ht', hmutex, hwhere⟩ := hc.owner m j hm
    by_cases hj : j = i
    · subst hj
      obtain rfl : t = t' := Option.some.inj (ht.symm.trans ht')
      obtain hin | ⟨hret, _⟩ := hwhere
      · exact ⟨_, hself, (resume_mutex t failed).trans hmutex, hown rfl hmutex hin⟩
      · rw [Thread.request, hret] at hreq
        cases hreq
    · exact ⟨t', by rw [List.getElem?_set_ne (Ne.symm hj)]; exact ht', hmutex, hwhere⟩
  obtain ⟨rfl, hsame⟩ | ⟨hf, ⟨m', rfl, _, rfl⟩ | ⟨m', rfl, _, rfl⟩⟩ := serve_ok hserve
  · refine hkeep hm fun _ _ hin => ?_
    cases failed with
    | true => exact .inr (hfails hin rfl)
    | false =>
      obtain hf | ⟨a, rfl⟩ := hsame
      · cases hf
      · exact .inl (hinside.mpr ⟨rfl, .inl ⟨hin, fun m h => by cases h⟩⟩)
  · obtain ⟨hmutex, hpc⟩ := request_mutex.1 hreq
    by_cases hm' : m = m'
    · rw [hm', Function.update_self, Option.some.injEq] at hm
      subst hm
      exact ⟨_, hself, by rw [resume_mutex, hm', hmutex], .inl (hinside.mpr ⟨hf, .inr ⟨m', rfl⟩⟩)⟩
    · rw [Function.update_of_ne hm'] at hm
      refine hkeep hm fun _ _ hin => ?_
      rw [Thread.Inside, hpc] at hin
      simp at hin
  · obtain ⟨hmutex, _⟩ := request_mutex.2 hreq
    by_cases hm' : m = m'
    · rw [hm', Function.update_self] at hm
      cases hm
    · rw [Function.update_of_ne hm'] at hm
      exact hkeep hm fun _ hmine _ => absurd (hmine.symm.trans hmutex.symm) hm'

end Call

theorem consistent_start {events : List Event} {s s' : Process} {success : Bool} {new : List Thread}
    (hc : Consistent events s) (howner : s'.owner = s.owner) (hthreads : s'.threads = s.threads ++ new)
    (hnew : ∀ t ∈ new, t.pc = .waitToObtain ∧ t.data.threadCompleteSuccess = false) :
    Consistent (events ++ [.started success]) s' := by
  have hcalls : ∀ j, callsOf j (events ++ [.started success]) = callsOf j events := by
    intro j
    rw [callsOf_snoc]
    exact List.append_nil _
  have hcases : ∀ (j : Nat) (t : Thread), s'.threads[j]? = some t → s.threads[j]? = some t ∨
      (s.threads.length ≤ j ∧ t.pc = .waitToObtain ∧ t.data.threadCompleteSuccess = false) := by
    intro j t ht
    rw [hthreads] at ht
    by_cases hj : j < s.threads.length
    · rw [List.getElem?_append_left hj] at ht
      exact .inl ht
    · rw [List.getElem?_append_right (Nat.le_of_not_lt hj)] at ht
      exact .inr ⟨Nat.le_of_not_lt hj, hnew t (List.mem_of_getElem? ht)⟩
  exact {
    ran := fun j t ht => by
      rw [hcalls]
      obtain ht | ⟨hj, hpc, hflag⟩ := hcases j t ht
      · exact hc.ran j t ht
      · rw [hc.later j hj, hpc, hflag]
        exact .started
    later := fun j hj => by
      rw [hcalls]
      rw [hthreads, List.length_append] at hj
      exact hc.later j (by omega)
    inside := fun j t ht hin => by
      rw [howner]
      obtain ht | ⟨_, hpc, _⟩ := hcases j t ht
      · exact hc.inside j t ht hin
      · rw [Thread.Inside, hpc] at hin
        simp at hin
    owner := fun m j hm => by
      rw [howner] at hm
      obtain ⟨t, ht, h⟩ := hc.owner m j hm
      refine ⟨t, ?_, h⟩
      rw [hthreads, List.getElem?_append_left (List.getElem?_eq_some_iff.mp ht).1]
      exact ht }

theorem consistent_call {events : List Event} {s : Process} {i : Nat} {failed : Bool} {t : Thread}
    {req : Request} {owner : Nat → Option Nat} (hc : Consistent events s)
    (ht : s.threads[i]? = some t) (hreq : t.request = .ok req)
    (hserve : serve s.owner i failed req = .ok owner) :
    Consistent (events ++ [.call i req failed])
      { s with owner := owner, threads := s.threads.set i (t.resume failed) } := by
  have hi := (List.getElem?_eq_some_iff.mp ht).1
  have hcall : callsOf i (events ++ [.call i req failed]) = callsOf i events ++ [(req, failed)] := by
    rw [callsOf_snoc]
    simp [Event.callOf]
  have hother : ∀ j, j ≠ i → callsOf j (events ++ [.call i req failed]) = callsOf j events := by
    intro j hj
    rw [callsOf_snoc]
    simp [Event.callOf, hj.symm]
  exact {
    ran := fun j t' ht' => by
      by_cases hj : j = i
      · subst hj
        rw [List.getElem?_set_self hi, Option.some.injEq] at ht'
        subst ht'
        rw [hcall]
        exact (hc.ran j t ht).resume hreq
      · rw [List.getElem?_set_ne (Ne.symm hj)] at ht'
        rw [hother j hj]
        exact hc.ran j t' ht'
    later := fun j hj => by
      rw [List.length_set] at hj
      rw [hother j (by omega)]
      exact hc.later j hj
    inside := fun j t' ht' hin => call_inside hc ht hreq hserve ht' hin
    owner := fun m j hm => call_owner hc ht hreq hserve hm }

theorem consistent_step {events : List Event} {s s' : Process} {label : Label} {e : Event}
    (hc : Consistent events s) (hs : s.step label = .ok (e, s')) :
    Consistent (events ++ [e]) s' := by
  obtain ⟨success, new, rfl, howner, hthreads, hnew⟩ |
    ⟨i, failed, t, req, owner, ht, hreq, hserve, rfl, rfl⟩ := step_cases hs
  · exact consistent_start hc howner hthreads hnew
  · exact consistent_call hc ht hreq hserve

theorem run_consistent {labels : List Label} {events : List Event} {s : Process}
    (hx : exec Process.step Process.init labels = .ok (events, s)) : Consistent events s :=
  exec_history (I := fun _ events s => Consistent events s) consistent_init
    (fun _ _ _ _ _ _ _ hc hs => consistent_step hc hs) hx

/-- A mutex that a thread has taken with it stays so. -/
def Lost (m i : Nat) (s : Process) : Prop :=
  s.owner m = some i ∧ ∃ t, s.threads[i]? = some t ∧ t.pc = .returned

theorem lost_step {m i : Nat} {s s' : Process} {label : Label} {e : Event} (hl : Lost m i s)
    (hs : s.step label = .ok (e, s')) : Lost m i s' ∧ ∀ j, e ≠ .call j (.lock m) false := by
  obtain ⟨hm, t, ht, hret⟩ := hl
  obtain ⟨success, new, rfl, howner, hthreads, _⟩ |
    ⟨j, failed, u, req, owner, hu, hreq, hserve, rfl, rfl⟩ := step_cases hs
  · refine ⟨⟨by rw [howner]; exact hm, t, ?_, hret⟩, fun j h => by cases h⟩
    rw [hthreads, List.getElem?_append_left (List.getElem?_eq_some_iff.mp ht).1]
    exact ht
  · have hj : j ≠ i := by
      rintro rfl
      obtain rfl : t = u := Option.some.inj (ht.symm.trans hu)
      rw [Thread.request, hret] at hreq
      cases hreq
    have ht' : (s.threads.set j (u.resume failed))[i]? = some t := by
      rw [List.getElem?_set_ne hj]
      exact ht
    obtain ⟨rfl, hsame⟩ | ⟨_, ⟨m', rfl, hfree, rfl⟩ | ⟨m', rfl, hmine, rfl⟩⟩ := serve_ok hserve
    · refine ⟨⟨hm, t, ht', hret⟩, fun k hk => ?_⟩
      cases hk
      obtain h | ⟨a, h⟩ := hsame <;> cases h
    · have hne : m ≠ m' := by
        rintro rfl
        rw [hfree] at hm
        cases hm
      refine ⟨⟨(Function.update_of_ne hne ..).trans hm, t, ht', hret⟩, fun k hk => ?_⟩
      cases hk
      exact hne rfl
    · have hne : m ≠ m' := by
        rintro rfl
        rw [hmine] at hm
        exact hj (Option.some.inj hm)
      refine ⟨⟨(Function.update_of_ne hne ..).trans hm, t, ht', hret⟩, fun k hk => ?_⟩
      cases hk

theorem run_lost {m i : Nat} {s s' : Process} {labels : List Label} {events : List Event}
    (hl : Lost m i s) (hx : exec Process.step s labels = .ok (events, s')) :
    Lost m i s' ∧ ∀ j, .call j (.lock m) false ∉ events := by
  refine exec_history
    (I := fun _ events s' => Lost m i s' ∧ ∀ j, Event.call j (.lock m) false ∉ events)
    ⟨hl, fun j h => by cases h⟩ ?_ hx
  rintro _ events _ _ e _ _ ⟨hl, hno⟩ hs
  obtain ⟨hl', hne⟩ := lost_step hl hs
  refine ⟨hl', fun j h => ?_⟩
  obtain h | h := List.mem_append.mp h
  · exact hno j h
  · exact hne j (List.mem_singleton.mp h).symm

/-- Only one thread at a time is between the lock and the unlock of a mutex, and
a thread reports success exactly if its four calls have succeeded. A mutex that
is taken is with a thread there, or with one that has failed there and returned:
then no thread ever gets it again. -/
theorem mutex_held_or_lost {labels : List Label} {events : List Event} {s : Process}
    (hx : exec Process.step Process.init labels = .ok (events, s)) :
    (∀ (i j : Nat) (t u : Thread), s.threads[i]? = some t → s.threads[j]? = some u → t.Inside → u.Inside →
      t.data.mutex = u.data.mutex → i = j) ∧
    (∀ (i : Nat) (t : Thread), s.threads[i]? = some t → (t.data.threadCompleteSuccess = true ↔
      ∃ a b, callsOf i events = [(.usleep a, false), (.lock t.data.mutex, false),
        (.usleep b, false), (.unlock t.data.mutex, false)])) ∧
    ∀ m i, s.owner m = some i → ∃ t : Thread, s.threads[i]? = some t ∧ t.data.mutex = m ∧
      (t.Inside ∨ t.pc = .returned ∧ t.data.threadCompleteSuccess = false ∧
        ∀ labels' events' s', exec Process.step s labels' = .ok (events', s') →
          s'.owner m = some i ∧ ∀ j, .call j (.lock m) false ∉ events') := by
  have hc := run_consistent hx
  refine ⟨fun i j t u ht hu hin hin' hsame => ?_, fun i t ht => ⟨fun h => ?_, ?_⟩, fun m i hm => ?_⟩
  · have hi := hc.inside i t ht hin
    rw [hsame, hc.inside j u hu hin'] at hi
    exact (Option.some.inj hi).symm
  · exact (hc.ran i t ht).success h
  · rintro ⟨a, b, hcalls⟩
    exact (hc.ran i t ht).full hcalls
  · obtain ⟨t, ht, hmutex, hin | ⟨hret, hflag⟩⟩ := hc.owner m i hm
    · exact ⟨t, ht, hmutex, .inl hin⟩
    · refine ⟨t, ht, hmutex, .inr ⟨hret, hflag, fun labels' events' s' hx' => ?_⟩⟩
      obtain ⟨hl, hno⟩ := run_lost ⟨hm, t, ht, hret⟩ hx'
      exact ⟨hl.1, hno⟩

/-- The first thread is woken while it has the mutex; the second one waits for
it in vain. -/
def wokenInside : List Label :=
  [.start 7 10 10 true true, .start 7 10 10 true true, .thread 0 false, .thread 1 false,
    .thread 0 false, .thread 0 true]

theorem wokenInside_lost : ∃ events s,
    exec Process.step Process.init wokenInside = .ok (events, s) ∧ s.owner 7 = some 0 ∧
      ∀ labels' events' s', exec Process.step s labels' = .ok (events', s') →
        ∀ j, .call j (.lock 7) false ∉ events' := by
  obtain ⟨events, s, hx, hm, t, ht, hret⟩ : ∃ events s,
      exec Process.step Process.init wokenInside = .ok (events, s) ∧ s.owner 7 = some 0 ∧
        ∃ t, s.threads[0]? = some t ∧ t.pc = .returned := ⟨_, _, rfl, rfl, _, rfl, rfl⟩
  obtain ⟨t', ht', _, hin | ⟨_, _, hlost⟩⟩ := (mutex_held_or_lost hx).2.2 7 0 hm
  · rw [ht, Option.some.injEq] at ht'
    rw [← ht', Thread.Inside, hret] at hin
    simp at hin
  · exact ⟨events, s, hx, hm, fun labels' events' s' hx' => (hlost labels' events' s' hx').2⟩

end Aesd.Threading
