import Aesd.Transactions

namespace Aesd.Serialisability

open Aesd.Lib.BlockHeap Aesd.Lib.Sequence Aesd.Lib.Transition Aesd.CString Aesd.Driver
open Aesd.RecordLog Aesd.Refinement Aesd.Ownership Aesd.ServerThread Aesd.Connection Aesd.Rules
open Aesd.Aesdsocket Aesd.RecordCalls Aesd.Transactions

abbrev Sessions := Server Session

/-- What a thread does with the mutex taken: the message it took it for, its
driver calls, the bytes it sends, and whether it has given the mutex up. -/
structure Transaction where
  thread : Nat
  msg : List UInt8
  calls : List (Request × Answer)
  sent : List UInt8
  closed : Bool
  deriving DecidableEq, Repr

def amend (i : Nat) (f : Transaction → Transaction) : List Transaction → List Transaction
  | [] => []
  | tx :: txs => if tx.thread = i ∧ tx.closed = false then f tx :: txs else tx :: amend i f txs

/-- The bytes each thread has received since it last took the mutex, and the
transactions in the order of taking it, newest first. -/
structure History where
  arrived : Nat → List UInt8
  transactions : List Transaction

def History.call (h : History) (i : Nat) (req : Request) (a : Answer) : History :=
  match req, a with
  | .recv, .bytes bs => { h with arrived := Function.update h.arrived i (h.arrived i ++ bs) }
  | .lock, .done =>
    ⟨Function.update h.arrived i [], ⟨i, h.arrived i, [], [], false⟩ :: h.transactions⟩
  | .unlock, .done =>
    { h with transactions := amend i (fun tx => { tx with closed := true }) h.transactions }
  | .send bytes, .count n => { h with
      transactions := amend i (fun tx => { tx with sent := tx.sent ++ bytes.take n })
        h.transactions }
  | req, a =>
    if isDriver req then { h with
      transactions := amend i (fun tx => { tx with calls := tx.calls ++ [(req, a)] })
        h.transactions }
    else h

def History.step (h : History) : Event → History
  | .call i req a => h.call i req a
  | _ => h

def history (events : List Event) : History := events.foldl History.step ⟨fun _ => [], []⟩

theorem history_snoc (events : List Event) (e : Event) :
    history (events ++ [e]) = (history events).step e := by
  rw [history, List.foldl_append]
  rfl

def driverCalls (events : List Event) : List (Nat × Request × Answer) :=
  events.filterMap fun
    | .call i req a => if isDriver req then some (i, req, a) else none
    | _ => none

theorem driverCalls_call (events : List Event) (i : Nat) (req : Request) (a : Answer) :
    driverCalls (events ++ [.call i req a]) =
      driverCalls events ++ if isDriver req then [(i, req, a)] else [] := by
  rw [driverCalls, List.filterMap_append]
  cases hd : isDriver req <;> simp [driverCalls, hd]

def Transaction.labelled (tx : Transaction) : List (Nat × Request × Answer) :=
  tx.calls.map fun p => (tx.thread, p)

def callsOf (txs : List Transaction) : List (Nat × Request × Answer) :=
  txs.reverse.flatMap Transaction.labelled

theorem callsOf_cons (tx : Transaction) (txs : List Transaction) :
    callsOf (tx :: txs) = callsOf txs ++ tx.labelled := by
  simp [callsOf]

def recordsAfter (msgs : List (List UInt8)) : List (List UInt8) :=
  msgs.foldl (fun records msg => (handle records msg).1) []

def recordsOf (txs : List Transaction) : List (List UInt8) :=
  recordsAfter (txs.reverse.map Transaction.msg)

theorem recordsOf_cons (tx : Transaction) (txs : List Transaction) :
    recordsOf (tx :: txs) = (handle (recordsOf txs) tx.msg).1 := by
  simp [recordsOf, recordsAfter, List.foldl_append]

/-- Each transaction is over, and has sent the reply to its message. -/
def Replied : List Transaction → Prop
  | [] => True
  | tx :: txs => tx.closed = true ∧ tx.sent = (handle (recordsOf txs) tx.msg).2 ∧ Replied txs

def Outside (arrived : List UInt8) : Stage → Prop
  | .starting | .allocating | .resetting => arrived = []
  | .receiving acc => arrived = acc ∧ acc.length + sockReadBufSize ≤ reallocLimit
  | .growing acc => arrived = acc
  | .locking msg => arrived = msg ∧ msg.length ≤ reallocLimit
  | .closing _ | .exited _ _ => True
  | _ => False

def Holder (h : History) (q : Sessions) : Prop :=
  match q.shared.fileMutex with
  | none => Idle q.shared.device.kernel ⟨recordsOf h.transactions, none⟩ ∧ Replied h.transactions
  | some i => ∃ tx txs u, h.transactions = tx :: txs ∧ tx.thread = i ∧ tx.closed = false ∧
      Replied txs ∧ q.threads[i]? = some u ∧ h.arrived i = [] ∧
      InTransaction (recordsOf txs) tx.msg tx.sent u q.shared.device

/-- The server is at a point of a serial run of its transactions. -/
structure Serial (events : List Event) (q : Sessions) : Prop where
  fresh : ∀ i, q.threads.length ≤ i → (history events).arrived i = []
  outside : ∀ i u, q.threads[i]? = some u → q.shared.fileMutex ≠ some i →
    Outside ((history events).arrived i) u.stage
  size_le : ∀ tx ∈ (history events).transactions, tx.msg.length ≤ reallocLimit
  calls : driverCalls events = callsOf (history events).transactions
  holder : Holder (history events) q

theorem serial_init : Serial [] Server.init where
  fresh _ _ := rfl
  outside i u hu := by simp [Server.init] at hu
  size_le := by simp [history]
  calls := rfl
  holder := ⟨idle_init, trivial⟩

theorem small_recordsOf {txs : List Transaction}
    (h : ∀ tx ∈ txs, tx.msg.length ≤ reallocLimit) : Small (recordsOf txs) := by
  induction txs with
  | nil =>
    intro r hr
    cases hr
  | cons tx txs ih =>
    rw [recordsOf_cons]
    exact (ih fun t ht => h t (List.mem_cons_of_mem _ ht)).handle (h tx List.mem_cons_self)

theorem not_call (events : List Event) {e : Event} (he : ∀ i req a, e ≠ .call i req a) :
    history (events ++ [e]) = history events ∧ driverCalls (events ++ [e]) = driverCalls events := by
  rw [history_snoc, driverCalls, List.filterMap_append]
  cases e with
  | call i req a => exact absurd rfl (he i req a)
  | created i | inserted i | examined i done | scanned | passed | removed i | joined i | closed i
  | freed i => exact ⟨rfl, List.append_nil _⟩

theorem serial_main {events : List Event} {q q' : Sessions} (hs : Serial events q) {c o : Nat}
    {e : Event} (h : q.mainStep sessionProcess c o = .ok (e, q')) : Serial (events ++ [e]) q' := by
  obtain ⟨hshared, hthreads, he⟩ := main_step h
  obtain ⟨hh, hcalls⟩ := not_call events he
  have hkeep : ∀ (i : Nat) (u : Session), q.threads[i]? = some u → q'.threads[i]? = some u := by
    intro i u hu
    obtain ht | ht := hthreads
    · rwa [ht]
    · have hlt := (List.getElem?_eq_some_iff.mp hu).1
      rwa [ht, List.getElem?_append_left hlt]
  refine ⟨fun i hi => ?_, fun i u hu hn => ?_, by rw [hh]; exact hs.size_le, ?_, ?_⟩
  · rw [hh]
    apply hs.fresh i
    obtain ht | ht := hthreads <;> rw [ht] at hi
    · exact hi
    · rw [List.length_append] at hi
      omega
  · rw [hh]
    rw [hshared] at hn
    obtain ht | ht := hthreads <;> rw [ht] at hu
    · exact hs.outside i u hu hn
    · by_cases hlt : i < q.threads.length
      · rw [List.getElem?_append_left hlt] at hu
        exact hs.outside i u hu hn
      · rw [List.getElem?_append_right (by omega)] at hu
        rw [hs.fresh i (by omega)]
        rw [List.mem_singleton.mp (List.mem_of_getElem? hu)]
        rfl
  · rw [hcalls, hh]
    exact hs.calls
  · have hhold := hs.holder
    unfold Holder at hhold ⊢
    rw [hh, hshared]
    cases hm : q.shared.fileMutex with
    | none => rwa [hm] at hhold
    | some i =>
      rw [hm] at hhold
      obtain ⟨tx, txs, u, h1, h2, h3, h4, hu, h5, h6⟩ := hhold
      exact ⟨tx, txs, u, h1, h2, h3, h4, hkeep i u hu, h5, h6⟩

theorem serial_local {events : List Event} {q : Sessions} (hs : Serial events q) {i : Nat}
    {u u' : Session} (hu : q.threads[i]? = some u) (hn : q.shared.fileMutex ≠ some i)
    {req : Request} {a : Answer} (hd : isDriver req = false)
    (htx : ((history events).call i req a).transactions = (history events).transactions)
    (harr : ∀ j, j ≠ i → ((history events).call i req a).arrived j = (history events).arrived j)
    (hout : Outside (((history events).call i req a).arrived i) u'.stage) :
    Serial (events ++ [.call i req a]) { q with threads := q.threads.set i u' } := by
  have hlt := (List.getElem?_eq_some_iff.mp hu).1
  have hh : history (events ++ [.call i req a]) = (history events).call i req a := history_snoc _ _
  refine ⟨fun j hj => ?_, fun j v hv hnj => ?_, ?_, ?_, ?_⟩
  · rw [List.length_set] at hj
    rw [hh, harr j (by omega)]
    exact hs.fresh j hj
  · rw [hh]
    by_cases hij : j = i
    · subst hij
      rw [List.getElem?_set_self hlt, Option.some.injEq] at hv
      subst hv
      exact hout
    · rw [List.getElem?_set_ne (Ne.symm hij)] at hv
      rw [harr j hij]
      exact hs.outside j v hv hnj
  · rw [hh, htx]
    exact hs.size_le
  · rw [hh, htx, driverCalls_call, hd]
    simpa using hs.calls
  · have hhold := hs.holder
    unfold Holder at hhold ⊢
    rw [hh, htx]
    cases hm : q.shared.fileMutex with
    | none => rwa [hm] at hhold
    | some k =>
      rw [hm] at hhold hn
      have hik : k ≠ i := fun h => hn (by rw [h])
      obtain ⟨tx, txs, v, h1, h2, h3, h4, hv, h5, h6⟩ := hhold
      refine ⟨tx, txs, v, h1, h2, h3, h4, ?_, ?_, h6⟩
      · rwa [List.getElem?_set_ne (Ne.symm hik)]
      · rwa [harr k hik]

theorem serial_lock {events : List Event} {q : Sessions} (hs : Serial events q) {i : Nat}
    {u : Session} {msg : List UInt8} (hu : q.threads[i]? = some u) (hst : u.stage = .locking msg)
    (hm : q.shared.fileMutex = none) (hg : Good msg) :
    Serial (events ++ [.call i .lock .done])
      { q with shared := { q.shared with fileMutex := some i }
               threads := q.threads.set i (u.dispatch msg) } := by
  have hlt := (List.getElem?_eq_some_iff.mp hu).1
  have hout := hs.outside i u hu (by rw [hm]; simp)
  rw [hst] at hout
  obtain ⟨hmsg, hlen⟩ := hout
  have hh : history (events ++ [.call i .lock .done]) =
      ⟨Function.update (history events).arrived i [],
        ⟨i, msg, [], [], false⟩ :: (history events).transactions⟩ := by
    rw [history_snoc, ← hmsg]
    rfl
  have hhold := hs.holder
  rw [Holder, hm] at hhold
  obtain ⟨hidle, hreplied⟩ := hhold
  refine ⟨fun j hj => ?_, fun j v hv hnj => ?_, ?_, ?_, ?_⟩
  · rw [List.length_set] at hj
    rw [hh]
    exact (Function.update_of_ne (by omega) _ _).trans (hs.fresh j hj)
  · have hji : j ≠ i := fun h => hnj (by rw [h])
    rw [List.getElem?_set_ne (Ne.symm hji)] at hv
    rw [hh, show (History.mk _ _).arrived j = _ from Function.update_of_ne hji _ _]
    exact hs.outside j v hv (by rw [hm]; simp)
  · rw [hh]
    intro tx ht
    obtain rfl | ht := List.mem_cons.mp ht
    · exact hlen
    · exact hs.size_le tx ht
  · rw [hh, driverCalls_call, callsOf_cons, ← hs.calls]
    rfl
  · rw [hh]
    exact ⟨_, _, u.dispatch msg, rfl, rfl, rfl, hreplied, List.getElem?_set_self hlt,
      Function.update_self _ _ _, inTransaction_dispatch hg hidle⟩

theorem amend_head {i : Nat} {tx : Transaction} (ht : tx.thread = i) (hc : tx.closed = false)
    (f : Transaction → Transaction) (txs : List Transaction) :
    amend i f (tx :: txs) = f tx :: txs := if_pos ⟨ht, hc⟩

theorem serial_holder {events : List Event} {q : Sessions} (hs : Serial events q) {i : Nat}
    {tx tx' : Transaction} {txs : List Transaction} {u' : Session} {d' : Device} {req : Request}
    {a : Answer} (hm : q.shared.fileMutex = some i)
    (htx : (history events).transactions = tx :: txs) (harr : (history events).arrived i = [])
    (hh : (history events).call i req a = ⟨(history events).arrived, tx' :: txs⟩)
    (hlt : i < q.threads.length) (hmsg : tx'.msg = tx.msg) (hthread : tx'.thread = i)
    (hclosed : tx'.closed = false) (hreplied : Replied txs)
    (hcalls : tx'.labelled = tx.labelled ++ if isDriver req then [(i, req, a)] else [])
    (hin : InTransaction (recordsOf txs) tx'.msg tx'.sent u' d') :
    Serial (events ++ [.call i req a])
      { q with shared := { q.shared with device := d' }, threads := q.threads.set i u' } := by
  have hh' : history (events ++ [.call i req a]) = ⟨(history events).arrived, tx' :: txs⟩ :=
    (history_snoc _ _).trans hh
  refine ⟨fun j hj => ?_, fun j v hv hnj => ?_, ?_, ?_, ?_⟩
  · rw [List.length_set] at hj
    rw [hh']
    exact hs.fresh j hj
  · have hji : j ≠ i := by
      rintro rfl
      exact hnj hm
    rw [List.getElem?_set_ne (Ne.symm hji)] at hv
    rw [hh']
    exact hs.outside j v hv hnj
  · rw [hh']
    intro t ht
    have hsize := hs.size_le
    rw [htx] at hsize
    obtain rfl | ht := List.mem_cons.mp ht
    · rw [hmsg]
      exact hsize tx List.mem_cons_self
    · exact hsize t (List.mem_cons_of_mem _ ht)
  · rw [hh', driverCalls_call, hs.calls, htx, callsOf_cons, callsOf_cons, hcalls,
      List.append_assoc]
  · unfold Holder
    rw [hh']
    simp only [hm]
    exact ⟨tx', txs, u', rfl, hthread, hclosed, hreplied, List.getElem?_set_self hlt, harr, hin⟩

theorem serial_unlock {events : List Event} {q : Sessions} (hs : Serial events q) {i : Nat}
    {tx : Transaction} {txs : List Transaction} {u' : Session} (hm : q.shared.fileMutex = some i)
    (htx : (history events).transactions = tx :: txs) (hthread : tx.thread = i)
    (hclosed : tx.closed = false) (hreplied : Replied txs) (hlt : i < q.threads.length)
    (harr : (history events).arrived i = []) (hst : u'.stage = .resetting)
    (hidle : Idle q.shared.device.kernel ⟨(handle (recordsOf txs) tx.msg).1, none⟩)
    (hsent : tx.sent = (handle (recordsOf txs) tx.msg).2) :
    Serial (events ++ [.call i .unlock .done])
      { q with shared := { q.shared with fileMutex := none }, threads := q.threads.set i u' } := by
  have hh : history (events ++ [.call i .unlock .done]) =
      ⟨(history events).arrived, { tx with closed := true } :: txs⟩ := by
    rw [history_snoc]
    simp only [History.step, History.call, htx, amend_head hthread hclosed]
  refine ⟨fun j hj => ?_, fun j v hv hnj => ?_, ?_, ?_, ?_⟩
  · rw [List.length_set] at hj
    rw [hh]
    exact hs.fresh j hj
  · rw [hh]
    by_cases hji : j = i
    · subst hji
      rw [List.getElem?_set_self hlt, Option.some.injEq] at hv
      subst hv
      rw [hst]
      exact harr
    · rw [List.getElem?_set_ne (Ne.symm hji)] at hv
      exact hs.outside j v hv (by rw [hm]; simpa using Ne.symm hji)
  · rw [hh]
    intro t ht
    have hsize := hs.size_le
    rw [htx] at hsize
    obtain rfl | ht := List.mem_cons.mp ht
    · exact hsize tx List.mem_cons_self
    · exact hsize t (List.mem_cons_of_mem _ ht)
  · rw [hh, driverCalls_call, hs.calls, htx, callsOf_cons, callsOf_cons]
    exact List.append_nil _
  · unfold Holder
    rw [hh]
    refine ⟨?_, rfl, hsent, hreplied⟩
    rwa [recordsOf_cons]

section Serve

variable {s s' : Shared} {i : Nat} {req : Request} {env : Env} {a : Answer}

theorem clean_succeeds (h : serve s i req env = .ok (a, s')) (hd : isDriver req = false)
    (hc : clean env = true) : a ≠ .failed := by
  rintro rfl
  have hplain : env ≠ .plain true := by
    rintro rfl
    cases hc
  cases req with
  | sigmask | alloc | free | syslog =>
    cases env with
    | plain fails =>
      cases fails with
      | true => exact hplain rfl
      | false => cases h
    | kept | opened _ | received _ | wrote _ | fetched _ | sought _ | sent _ _ => cases h
  | recv =>
    cases env with
    | received bs =>
      cases bs with
      | none => cases hc
      | some bs => cases h
    | plain _ | kept | opened _ | wrote _ | fetched _ | sought _ | sent _ _ => cases h
  | lock =>
    cases env with
    | plain fails =>
      cases fails with
      | true => exact hplain rfl
      | false => cases hm : s.fileMutex <;> simp [serve, hm] at h
    | kept | opened _ | received _ | wrote _ | fetched _ | sought _ | sent _ _ => cases h
  | unlock =>
    cases env with
    | plain fails =>
      cases fails with
      | true => exact hplain rfl
      | false => by_cases hm : s.fileMutex = some i <;> simp [serve, hm] at h
    | kept | opened _ | received _ | wrote _ | fetched _ | sought _ | sent _ _ => cases h
  | send bytes =>
    cases env with
    | sent fails short =>
      cases fails with
      | true => cases hc
      | false => cases h
    | plain _ | kept | opened _ | received _ | wrote _ | fetched _ | sought _ => cases h
  | openFile | write fd bytes | ioctl fd c o | read fd n | close fd => cases hd

theorem serve_lock (h : serve s i .lock env = .ok (a, s')) (hc : clean env = true) :
    s.fileMutex = none ∧ s' = { s with fileMutex := some i } := by
  obtain ⟨hd, _⟩ | ⟨_, _, hm, hs⟩ | ⟨hu, _⟩ | ⟨_, _, ha⟩ := serve_cases h
  · cases hd
  · exact ⟨hm, hs⟩
  · cases hu
  · exact absurd (ha (.inl rfl)) (clean_succeeds h rfl hc)

theorem serve_unlock (h : serve s i .unlock env = .ok (a, s')) (hc : clean env = true) :
    a = .done ∧ s' = { s with fileMutex := none } := by
  obtain ⟨hd, _⟩ | ⟨hl, _⟩ | ⟨_, ha, _, hs⟩ | ⟨_, _, ha⟩ := serve_cases h
  · cases hd
  · cases hl
  · exact ⟨ha, hs⟩
  · exact absurd (ha (.inr rfl)) (clean_succeeds h rfl hc)

theorem serve_send {bytes : List UInt8} (h : serve s i (.send bytes) env = .ok (a, s'))
    (hc : clean env = true) : a = .count bytes.length ∧ s' = s := by
  cases env with
  | sent fails short =>
    obtain ⟨rfl, rfl⟩ : fails = false ∧ short = 0 := by simpa [clean] using hc
    simp only [serve, Nat.zero_min, Nat.sub_zero, Except.ok.injEq, Prod.mk.injEq] at h
    exact ⟨h.1.symm, h.2.symm⟩
  | plain _ | kept | opened _ | received _ | wrote _ | fetched _ | sought _ => cases h

end Serve

theorem outside_request {arrived : List UInt8} {u : Session} {req : Request}
    (hout : Outside arrived u.stage) (hreq : u.request = .ok req) : isDriver req = false := by
  unfold Session.request at hreq
  cases hst : u.stage with
  | writing line w | sending p chunk | unlocking failed =>
    rw [hst] at hout
    exact hout.elim
  | exited done leaked =>
    simp only [hst] at hreq
    cases hreq
  | closing freed =>
    rw [hst] at hreq
    cases freed <;> cases hreq <;> rfl
  | starting | allocating | receiving acc | growing acc | locking msg | resetting =>
    simp only [hst, Except.ok.injEq] at hreq
    subst hreq
    rfl

theorem serial_outside {events : List Event} {q : Sessions} (hs : Serial events q) {i : Nat}
    {u u' : Session} {req : Request} {env : Env} {a : Answer} {shared : Shared}
    (hu : q.threads[i]? = some u) (hn : q.shared.fileMutex ≠ some i)
    (hreq : u.request = .ok req) (hserve : serve q.shared i req env = .ok (a, shared))
    (hc : clean env = true) (hres : u.resume a = .ok u')
    (hg : ∀ tx ∈ ((history events).call i req a).transactions, Good tx.msg) :
    Serial (events ++ [.call i req a])
      { q with shared := shared, threads := q.threads.set i u' } := by
  have hout := hs.outside i u hu hn
  cases turn_of_resume hreq hres with
  | masked hst =>
    rw [hst] at hout
    obtain rfl := serve_rest hserve rfl (by simp) (by simp)
    exact serial_local hs hu hn rfl rfl (fun _ _ => rfl) hout
  | allocated hst ha =>
    have hnil : (history events).arrived i = [] := by
      obtain hst | hst := hst <;> rwa [hst] at hout
    obtain rfl := serve_rest hserve rfl (by simp) (by simp)
    refine serial_local hs hu hn rfl rfl (fun _ _ => rfl) ⟨hnil, ?_⟩
    rw [List.length_nil, Nat.zero_add]
    exact sockReadBufSize_le
  | grown hst hle ha =>
    rw [hst] at hout
    obtain rfl := serve_rest hserve rfl (by simp) (by simp)
    exact serial_local hs hu hn rfl rfl (fun _ _ => rfl) ⟨hout, hle⟩
  | @received acc bs hst hle =>
    rw [hst] at hout
    obtain ⟨harr, hroom⟩ := hout
    obtain rfl := serve_rest hserve rfl (by simp) (by simp)
    have hother : ∀ j, j ≠ i →
        ((history events).call i .recv (.bytes bs)).arrived j = (history events).arrived j :=
      fun j hj => Function.update_of_ne hj _ _
    have hown : ((history events).call i .recv (.bytes bs)).arrived i = acc ++ bs :=
      (Function.update_self _ _ _).trans (by rw [harr])
    refine serial_local hs hu hn rfl rfl hother ?_
    rw [hown]
    unfold Session.received
    split
    · exact trivial
    · split
      · exact rfl
      · refine ⟨rfl, ?_⟩
        rw [List.length_append]
        omega
  | locked hst =>
    rw [hst] at hout
    obtain ⟨hm, rfl⟩ := serve_lock hserve hc
    have hmsg : Good _ := hout.1 ▸ hg _ List.mem_cons_self
    exact serial_lock hs hu hst hm hmsg
  | freed | logged =>
    obtain rfl := serve_rest hserve rfl (by simp) (by simp)
    exact serial_local hs hu hn rfl rfl (fun _ _ => rfl) trivial
  | lost => exact absurd rfl (clean_succeeds hserve (outside_request hout hreq) hc)
  | aborted => exact absurd rfl (clean_succeeds hserve (outside_request hout hreq) hc)
  | opened hst | wroteLine hst | wroteNewline hst | written hst | reopened hst | sought hst
  | fetched hst h0 hle | ended hst | sent hst | sentShort hst hne | replied hst | unlocked hst
  | released hst =>
    rw [hst] at hout
    exact hout.elim

theorem serial_inside {events : List Event} {q : Sessions} (hs : Serial events q) {i : Nat}
    {u u' : Session} {req : Request} {env : Env} {a : Answer} {shared : Shared}
    (hu : q.threads[i]? = some u) (hm : q.shared.fileMutex = some i)
    (hreq : u.request = .ok req) (hserve : serve q.shared i req env = .ok (a, shared))
    (hc : clean env = true) (hres : u.resume a = .ok u')
    (hg : ∀ tx ∈ (history events).transactions, Good tx.msg) :
    Serial (events ++ [.call i req a])
      { q with shared := shared, threads := q.threads.set i u' } := by
  have hlt := (List.getElem?_eq_some_iff.mp hu).1
  have hhold := hs.holder
  have hsize := hs.size_le
  rw [Holder, hm] at hhold
  obtain ⟨tx, txs, v, htx, hthread, hclosed, hreplied, hv, harr, hin⟩ := hhold
  obtain rfl : u = v := Option.some.inj (hu.symm.trans hv)
  rw [htx] at hsize hg
  obtain hd | ⟨bytes, rfl⟩ | rfl := hin.request hreq
  · obtain ⟨d, hsd, rfl⟩ := serve_device hd hserve
    have hin' := hin.driver_step (hg tx List.mem_cons_self) (hsize tx List.mem_cons_self)
      (small_recordsOf fun t ht => hsize t (List.mem_cons_of_mem _ ht)) hreq hd hsd hc hres
    have hcall : (history events).call i req a = ⟨(history events).arrived,
        { tx with calls := tx.calls ++ [(req, a)] } :: txs⟩ := by
      cases req with
      | openFile | write fd bytes | ioctl fd c o | read fd n | close fd =>
        simp only [History.call, isDriver, if_true, htx, amend_head hthread hclosed]
      | sigmask | alloc | recv | lock | unlock | send bytes | free | syslog => cases hd
    refine serial_holder hs hm htx harr hcall hlt rfl hthread hclosed hreplied ?_ hin'
    simp [Transaction.labelled, hd, hthread]
  · obtain ⟨rfl, rfl⟩ := serve_send hserve hc
    have hin' := hin.sock_step hreq hres
    have hcall : (history events).call i (.send bytes) (.count bytes.length) =
        ⟨(history events).arrived, { tx with sent := tx.sent ++ bytes } :: txs⟩ := by
      simp only [History.call, htx, amend_head hthread hclosed, List.take_length]
    refine serial_holder hs hm htx harr hcall hlt rfl hthread hclosed hreplied ?_ hin'
    exact (List.append_nil _).symm
  · obtain ⟨rfl, rfl⟩ := serve_unlock hserve hc
    obtain ⟨hst, hidle, hsent⟩ := hin.unlock_step hreq hres
    exact serial_unlock hs hm htx hthread hclosed hreplied hlt harr hst hidle hsent

theorem msgs_amend {i : Nat} {f : Transaction → Transaction} (hf : ∀ tx, (f tx).msg = tx.msg)
    (txs : List Transaction) :
    txs.map Transaction.msg ⊆ (amend i f txs).map Transaction.msg := by
  induction txs with
  | nil => exact List.Subset.refl _
  | cons tx txs ih =>
    unfold amend
    split
    · rw [List.map_cons, List.map_cons, hf]
      exact List.Subset.refl _
    · exact List.cons_subset_cons _ ih

theorem good_before {h : History} {e : Event} (hg : ∀ tx ∈ (h.step e).transactions, Good tx.msg) :
    ∀ tx ∈ h.transactions, Good tx.msg := by
  have hsub : h.transactions.map Transaction.msg ⊆ (h.step e).transactions.map Transaction.msg := by
    cases e with
    | call i req a =>
      simp only [History.step]
      unfold History.call
      split
      · exact List.Subset.refl _
      · rw [List.map_cons]
        exact List.subset_cons_self _ _
      · apply msgs_amend
        exact fun _ => rfl
      · apply msgs_amend
        exact fun _ => rfl
      · split
        · apply msgs_amend
          exact fun _ => rfl
        · exact List.Subset.refl _
    | created i | inserted i | examined i done | scanned | passed | removed i | joined i
    | closed i | freed i => exact List.Subset.refl _
  intro tx ht
  obtain ⟨tx', ht', hmsg⟩ := List.mem_map.mp (hsub (List.mem_map_of_mem ht))
  rw [← hmsg]
  exact hg tx' ht'

def cleanStep : Label → Bool
  | .main _ _ => true
  | .thread _ env => clean env

theorem run_serial {labels : List Label} {events : List Event} {q : Sessions}
    (hx : exec (Server.step sessionProcess) Server.init labels = .ok (events, q))
    (hc : ∀ label ∈ labels, cleanStep label = true)
    (hg : ∀ tx ∈ (history events).transactions, Good tx.msg) : Serial events q := by
  have hinv := exec_history (I := fun labels events q =>
    (∀ label ∈ labels, cleanStep label = true) →
    (∀ tx ∈ (history events).transactions, Good tx.msg) → Serial events q)
    (fun _ _ => serial_init) ?_ hx
  · exact hinv hc hg
  · intro labels events q a e q' _ hi hs hc hg
    rw [history_snoc] at hg
    have hserial := hi (fun label hm => hc label (List.mem_append_left _ hm)) (good_before hg)
    cases a with
    | main c o => exact serial_main hserial hs
    | thread i env =>
      obtain ⟨u, req, a, shared, u', hu, hreq, hserve, hres, rfl, rfl⟩ := thread_step hs
      have hclean : clean env = true := hc (.thread i env) (by simp)
      by_cases hm : q.shared.fileMutex = some i
      · exact serial_inside hserial hu hm hreq hserve hclean hres (good_before hg)
      · exact serial_outside hserial hu hm hreq hserve hclean hres hg

theorem Replied.split {later earlier : List Transaction} {tx : Transaction}
    (h : Replied (later ++ tx :: earlier)) :
    tx.closed = true ∧ tx.sent = (handle (recordsOf earlier) tx.msg).2 := by
  induction later with
  | nil => exact ⟨h.1, h.2.1⟩
  | cons t later ih => exact ih h.2.2

theorem partialWrite_eq {k : Kernel} {records : List (List UInt8)}
    (hi : Idle k ⟨records, none⟩) : k.dev.partialWrite = ⟨.null, 0⟩ := hi.pending

/-- In a run in which nothing fails and every message is good, the server does
what handling the messages one after the other does, in the order in which the
mutex was taken for them. -/
theorem server_is_serial {labels : List Label} {events : List Event} {s : Server Thread}
    (hx : exec (Server.step threadProcess) Server.init labels = .ok (events, s))
    (hc : ∀ label ∈ labels, cleanStep label = true)
    (hg : ∀ tx ∈ (history events).transactions, Good tx.msg) :
    let txs := (history events).transactions.reverse
    let kernel := s.shared.device.kernel
    driverCalls events = txs.flatMap Transaction.labelled ∧
      (s.shared.fileMutex = none → (∀ tx ∈ txs, tx.closed = true) ∧
        kernel.dev.partialWrite = ⟨.null, 0⟩ ∧
        ringBytes kernel = (lastN 10 (recordsAfter (txs.map Transaction.msg))).map .ok) ∧
      ∀ earlier tx later, txs = earlier ++ tx :: later →
        (tx.closed = true → tx.sent =
          (handle (recordsAfter (earlier.map Transaction.msg)) tx.msg).2) ∧
        (tx.closed = false → later = [] ∧ s.shared.fileMutex = some tx.thread) := by
  intro txs kernel
  obtain ⟨q, hq, hag⟩ := run_agrees hx
  have hs := run_serial hq hc hg
  have hhold := hs.holder
  rw [Holder, ← hag.shared] at hhold
  have hlist : ∀ earlier tx later, txs = earlier ++ tx :: later →
      (history events).transactions = later.reverse ++ tx :: earlier.reverse := by
    intro earlier tx later h
    have hr := congrArg List.reverse h
    simpa [txs] using hr
  have hbefore : ∀ earlier : List Transaction,
      recordsOf earlier.reverse = recordsAfter (earlier.map Transaction.msg) := by
    intro earlier
    rw [recordsOf, List.reverse_reverse]
  refine ⟨hs.calls, fun hm => ?_, fun earlier tx later h => ?_⟩
  · rw [hm] at hhold
    obtain ⟨hidle, hreplied⟩ := hhold
    have hring := ringBytes_eq hidle
    refine ⟨fun tx ht => ?_, partialWrite_eq hidle, hring⟩
    obtain ⟨later, earlier, hsplit⟩ := List.append_of_mem (List.mem_reverse.mp ht)
    rw [hsplit] at hreplied
    exact hreplied.split.1
  · have hsplit := hlist earlier tx later h
    rw [← hbefore]
    cases hm : s.shared.fileMutex with
    | none =>
      rw [hm] at hhold
      obtain ⟨_, hreplied⟩ := hhold
      rw [hsplit] at hreplied
      obtain ⟨hclosed, hsent⟩ := hreplied.split
      exact ⟨fun _ => hsent, fun ho => absurd (hclosed.symm.trans ho) (by simp)⟩
    | some i =>
      rw [hm] at hhold
      obtain ⟨tx', txs', _, htx, hthread, hopen, hreplied, _⟩ := hhold
      rw [htx] at hsplit
      cases hl : later.reverse with
      | nil =>
        rw [hl, List.nil_append, List.cons.injEq] at hsplit
        obtain ⟨rfl, _⟩ := hsplit
        refine ⟨fun hclosed => absurd (hclosed.symm.trans hopen) (by simp), fun _ => ⟨?_, ?_⟩⟩
        · exact List.reverse_eq_nil_iff.mp hl
        · rw [hthread]
      | cons t later' =>
        rw [hl, List.cons_append, List.cons.injEq] at hsplit
        rw [hsplit.2] at hreplied
        obtain ⟨hclosed, hsent⟩ := hreplied.split
        exact ⟨fun _ => hsent, fun ho => absurd (hclosed.symm.trans ho) (by simp)⟩

def seekToSecondByte : List UInt8 :=
  chars ['A', 'E', 'S', 'D', 'C', 'H', 'A', 'R', '_', 'I', 'O', 'C', 'S', 'E', 'E', 'K', 'T', 'O',
    ':', '0', ',', '1']

/-- One client writes a line, while another asks for what is stored from the
second byte on. -/
def twoClients : List Label :=
  [.main 7 7, .main 7 7, .main 7 7, .main 7 7, .main 7 7, .main 7 7,
    .thread 0 (.plain false), .thread 1 (.plain false), .thread 1 (.plain false),
    .thread 0 (.plain false), .thread 0 (.received (some [97, 98, newline])),
    .thread 0 (.plain false), .thread 0 (.opened (some 3)),
    .thread 1 (.received (some seekToSecondByte)),
    .thread 0 (.wrote cleanWrite), .thread 0 (.wrote cleanWrite), .thread 0 (.plain false),
    .thread 0 (.opened (some 3)), .thread 0 (.sought ⟨false, false⟩),
    .thread 0 (.fetched ⟨false, 0⟩), .thread 0 (.sent false 0), .thread 0 (.fetched ⟨false, 0⟩),
    .thread 0 (.plain false), .thread 0 (.plain false),
    .thread 1 (.plain false), .thread 1 (.opened (some 3)), .thread 1 (.sought ⟨false, false⟩),
    .thread 1 (.fetched ⟨false, 0⟩), .thread 1 (.sent false 0), .thread 1 (.fetched ⟨false, 0⟩),
    .thread 1 (.plain false), .thread 1 (.plain false)]

theorem twoClients_run : ∃ events, ∃ s : Server Thread,
    exec (Server.step threadProcess) Server.init twoClients = .ok (events, s) ∧
      s.shared.fileMutex = none ∧
      (history events).transactions.map Transaction.msg =
        [seekToSecondByte, [97, 98, newline]] ∧
      (history events).transactions.map Transaction.sent =
        [[98, newline], [97, 98, newline]] := by
  obtain ⟨events, q, hq, hm, hmsgs, hsent⟩ : ∃ events, ∃ q : Sessions,
      exec (Server.step sessionProcess) Server.init twoClients = .ok (events, q) ∧
        q.shared.fileMutex = none ∧
        (history events).transactions.map Transaction.msg =
          [seekToSecondByte, [97, 98, newline]] ∧
        (history events).transactions.map Transaction.sent =
          [[98, newline], [97, 98, newline]] := ⟨_, _, rfl, rfl, by decide, by decide⟩
  obtain ⟨s, hs, hag⟩ := run_of_sessions hq
  exact ⟨events, s, hs, by rw [hag.shared]; exact hm, hmsgs, hsent⟩

theorem twoClients_serial : ∃ events, ∃ s : Server Thread,
    exec (Server.step threadProcess) Server.init twoClients = .ok (events, s) ∧
      driverCalls events =
        (history events).transactions.reverse.flatMap Transaction.labelled ∧
      ringBytes s.shared.device.kernel = [.ok [97, 98, newline]] := by
  obtain ⟨events, s, hx, hm, hmsgs, _⟩ := twoClients_run
  have hg : ∀ tx ∈ (history events).transactions, Good tx.msg := by
    intro tx ht
    have hmem := List.mem_map_of_mem (f := Transaction.msg) ht
    rw [hmsgs] at hmem
    have hall : ∀ msg ∈ [seekToSecondByte, [97, 98, newline]], Good msg := by decide
    exact hall _ hmem
  obtain ⟨hcalls, hfree, _⟩ := server_is_serial hx (by decide) hg
  obtain ⟨_, _, hring⟩ := hfree hm
  refine ⟨events, s, hx, hcalls, ?_⟩
  rw [List.map_reverse, hmsgs] at hring
  rw [hring]
  decide

end Aesd.Serialisability
