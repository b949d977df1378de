import Aesd.DataFile
import Aesd.Pieces

namespace Aesd.FileSections

open Aesd.Lib.BlockHeap Aesd.Lib.Transition Aesd.Lib.Monitor Aesd.ServerThread Aesd.Connection
open Aesd.TimestampThread Aesd.DataFile Aesd.FileThreads Aesd.Sections Aesd.Pieces
open Aesd.Transactions (isDriver)

variable {d d' : Disk} {fd : Nat} {env : Env} {a : Answer} {bs : List UInt8}

theorem serve_openFile (h : serveFile d .openFile env = .ok (a, d')) :
    d'.content = d.content ∧ ∀ fd, a = .fd fd → d'.files fd = some 0 := by
  cases env with
  | opened fd =>
    cases fd with
    | none =>
      cases h
      exact ⟨rfl, fun fd hfd => (by cases hfd)⟩
    | some fd =>
      simp only [serveFile] at h
      cases hf : d.files fd with
      | some p =>
        rw [hf] at h
        cases h
      | none =>
        rw [hf] at h
        cases h
        refine ⟨rfl, fun fd' hfd => ?_⟩
        cases hfd
        exact Function.update_self ..
  | plain _ | kept | received _ | sought | moved _ _ => cases h

theorem serve_write (h : serveFile d (.write fd bs) env = .ok (a, d')) :
    d'.content = d.content ++ taken bs a := by
  cases env with
  | moved fails short =>
    simp only [serveFile] at h
    split at h
    · cases h
      exact (List.append_nil _).symm
    · split at h
      · next hnil =>
        cases h
        rw [hnil]
        exact (List.append_nil _).symm
      · cases h
        rfl
  | plain _ | kept | opened _ | received _ | sought => cases h

theorem serve_read {count : Nat} (h : serveFile d (.read fd count) env = .ok (a, d')) :
    d'.content = d.content ∧ ∀ p bs, d.files fd = some p → a = .bytes bs →
      bs <+: d.content.drop p ∧ d'.files fd = some (p + bs.length) := by
  cases env with
  | moved fails short =>
    simp only [serveFile] at h
    cases hf : d.files fd with
    | none =>
      rw [hf] at h
      cases h
      exact ⟨rfl, fun p bs hp => by cases hp⟩
    | some pos =>
      rw [hf] at h
      cases fails with
      | true =>
        cases h
        exact ⟨rfl, fun p bs _ ha => by cases ha⟩
      | false =>
        cases h
        refine ⟨rfl, fun p bs hp ha => ?_⟩
        cases hp
        cases ha
        exact ⟨(List.take_prefix _ _).trans (List.take_prefix _ _), Function.update_self ..⟩
  | plain _ | kept | opened _ | received _ | sought => cases h

/-- A regular file that is opened for appending. Seeking by `ioctl` does nothing
to it, so that it is always read from the start. -/
def regularFile : Datafile Disk Env (List UInt8) where
  serve := serveFile
  stands d bs := d.content = bs
  position d fd := d.files fd
  shows bs := bs
  readable _ := True
  grows bs added bs' := bs' = bs ++ added
  seeks _ _ _ _ := 0
  grows_nil bs := (List.append_nil bs).symm
  grows_append h h' := by rw [h', h, List.append_assoc]
  openFile hd h := by
    obtain ⟨hc, hf⟩ := serve_openFile h
    exact ⟨hc.trans hd, hf⟩
  write hd h := ⟨_, rfl, by rw [serve_write h, hd]⟩
  ioctl {d d' k fd c o env a} hd h := by
    cases env with
    | sought =>
      cases h
      exact ⟨hd, fun _ hp => ⟨Nat.zero_le _, hp⟩⟩
    | plain _ | kept | opened _ | received _ | moved _ _ => cases h
  read hd h := by
    obtain ⟨hc, hr⟩ := serve_read h
    refine ⟨hc.trans hd, fun _ p bs hp _ ha => ?_⟩
    rw [← hd]
    exact hr p bs hp ha
  close {d d' k fd env a} hd h := by
    cases env with
    | plain fails =>
      cases h
      exact hd
    | kept | opened _ | received _ | sought | moved _ _ => cases h

theorem serve_file {s s' : Shared} {i : Nat} {req : Request} (hd : isDriver req = true)
    (h : serve s i req env = .ok (a, s')) :
    ∃ d, serveFile s.disk req env = .ok (a, d) ∧ s' = { s with disk := d } := by
  have hserve : serve s i req env =
      (serveFile s.disk req env).map fun p => (p.1, { s with disk := p.2 }) := by
    cases req with
    | openFile | write fd bytes | ioctl fd c o | read fd n | close fd => cases env <;> rfl
    | sigmask | alloc | recv | lock | unlock | send bytes | free | syslog => cases hd
  rw [hserve] at h
  obtain ⟨p, hp, he⟩ := map_ok h
  cases he
  exact ⟨p.2, hp, rfl⟩

theorem serve_outcome {s s' : Shared} {i : Nat} {req : Request} (tasks : Nat → Task)
    (h : serve s i req env = .ok (a, s')) :
    Outcome regularFile ⟨s.fileMutex, s.disk, tasks⟩ i req a s'.fileMutex s'.disk := by
  cases req with
  | openFile | write fd bytes | ioctl fd c o | read fd n | close fd =>
    obtain ⟨d, hs, rfl⟩ := serve_file rfl h
    exact Outcome.file (F := regularFile) rfl hs
  | lock =>
    cases env with
    | plain fails =>
      cases fails with
      | true =>
        cases h
        exact .rest rfl fun _ => rfl
      | false =>
        cases hm : s.fileMutex with
        | none =>
          simp only [serve, hm, Except.ok.injEq, Prod.mk.injEq] at h
          obtain ⟨rfl, rfl⟩ := h
          exact .lock rfl rfl rfl
        | some k => simp [serve, hm] at h
    | kept | opened _ | received _ | sought | moved _ _ => cases h
  | unlock =>
    cases env with
    | plain fails =>
      cases fails with
      | true =>
        cases h
        exact .rest rfl fun _ => rfl
      | false =>
        by_cases hm : s.fileMutex = some i
        · simp only [serve, hm, if_true, Except.ok.injEq, Prod.mk.injEq] at h
          obtain ⟨rfl, rfl⟩ := h
          rw [hm]
          exact .unlock rfl rfl rfl
        · simp [serve, hm] at h
    | kept | opened _ | received _ | sought | moved _ _ => cases h
  | sigmask | alloc => cases env <;> cases h <;> exact .rest rfl (by simp)
  | free | syslog =>
    cases env with
    | plain fails =>
      cases fails with
      | true => cases h
      | false =>
        cases h
        exact .rest rfl (by simp)
    | kept | opened _ | received _ | sought | moved _ _ => cases h
  | recv =>
    cases env with
    | received bs => cases bs <;> cases h <;> exact .rest rfl (by simp)
    | plain _ | kept | opened _ | sought | moved _ _ => cases h
  | send bytes =>
    cases env with
    | moved fails short => cases fails <;> cases h <;> exact .rest rfl (by simp)
    | plain _ | kept | opened _ | received _ | sought => cases h

def actOf : Event → Nat × Act
  | .created i => (i, .born)
  | .call i req a => (i, .call req a)
  | .clock tm => (0, .clock tm)
  | .slept => (0, .slept)

def actsIn (events : List Event) : List (Nat × Act) := (0, .born) :: events.map actOf

structure Shows (s : Server) (σ : System Nat Task Disk) : Prop where
  owner : σ.owner = s.shared.fileMutex
  shared : σ.shared = s.shared.disk
  ticker : σ.tasks 0 = .ticker s.ticker
  absent : ∀ i, s.threads.length ≤ i → σ.tasks (i + 1) = .absent
  session : ∀ i t, s.threads[i]? = some t → ∃ u, σ.tasks (i + 1) = .connection u ∧ Simulates t u

variable {s s' : Server} {σ : System Nat Task Disk} {e : Event} {i : Nat}

theorem Shows.system (h : Shows s σ) : σ = ⟨s.shared.fileMutex, s.shared.disk, σ.tasks⟩ := by
  rw [← h.owner, ← h.shared]

theorem Shows.tick (h : Shows s σ) (shared : Shared) (t : Ticker) :
    Shows { s with shared := shared, ticker := t }
      ⟨shared.fileMutex, shared.disk, Function.update σ.tasks 0 (.ticker t)⟩ := by
  refine ⟨rfl, rfl, ?_, fun i hi => ?_, fun i v hv => ?_⟩
  · simp only [Function.update_self]
  · simp only [Function.update_of_ne (Nat.succ_ne_zero i)]
    exact h.absent i hi
  · simp only [Function.update_of_ne (Nat.succ_ne_zero i)]
    exact h.session i v hv

theorem Shows.set (h : Shows s σ) (hlt : i < s.threads.length) (shared : Shared) {t : Thread}
    {u : Session} (hsim : Simulates t u) :
    Shows { s with shared := shared, threads := s.threads.set i t }
      ⟨shared.fileMutex, shared.disk, Function.update σ.tasks (i + 1) (.connection u)⟩ := by
  refine ⟨rfl, rfl, ?_, fun j hj => ?_, fun j v hv => ?_⟩
  · simp only [Function.update_of_ne (Nat.succ_ne_zero i).symm]
    exact h.ticker
  · have hj' : s.threads.length ≤ j := by simpa using hj
    have hne : j + 1 ≠ i + 1 := by omega
    simp only [Function.update_of_ne hne]
    exact h.absent j hj'
  · by_cases hj : j = i
    · subst hj
      have hv' : (s.threads.set j t)[j]? = some v := hv
      rw [List.getElem?_set_self hlt, Option.some.injEq] at hv'
      simp only [Function.update_self]
      exact ⟨u, rfl, hv' ▸ hsim⟩
    · have hv' : (s.threads.set i t)[j]? = some v := hv
      rw [List.getElem?_set_ne (Ne.symm hj)] at hv'
      have hne : j + 1 ≠ i + 1 := by omega
      simp only [Function.update_of_ne hne]
      exact h.session j v hv'

theorem Shows.accept (h : Shows s σ) (c o : Nat) :
    Shows { s with threads := s.threads ++ [Thread.init c o] }
      ⟨σ.owner, σ.shared, Function.update σ.tasks (s.threads.length + 1)
        (.connection (Session.init c o))⟩ := by
  refine ⟨h.owner, h.shared, ?_, fun j hj => ?_, fun j v hv => ?_⟩
  · simp only [Function.update_of_ne (Nat.succ_ne_zero _).symm]
    exact h.ticker
  · have hj' : s.threads.length + 1 ≤ j := by simpa using hj
    have hne : j + 1 ≠ s.threads.length + 1 := by omega
    simp only [Function.update_of_ne hne]
    exact h.absent j (by omega)
  · have hv' : (s.threads ++ [Thread.init c o])[j]? = some v := hv
    by_cases hj : j = s.threads.length
    · rw [hj, List.getElem?_concat_length, Option.some.injEq] at hv'
      rw [hj, ← hv']
      simp only [Function.update_self]
      exact ⟨_, rfl, simulates_init c o⟩
    · have hlt : j < s.threads.length := by
        have hlt' := (List.getElem?_eq_some_iff.mp hv').1
        rw [List.length_append, List.length_singleton] at hlt'
        omega
      rw [List.getElem?_append_left hlt] at hv'
      have hne : j + 1 ≠ s.threads.length + 1 := by omega
      simp only [Function.update_of_ne hne]
      exact h.session j v hv'

theorem clocked_outside {t t' : Ticker} {tm : Option Tm} (h : t.clocked tm = .ok t') :
    ticking t.pc = false ∧ t.pc ≠ .exited ∧ ticking t'.pc = false := by
  unfold Ticker.clocked at h
  cases hpc : t.pc <;> cases tm <;> rw [hpc] at h <;> cases h <;> exact ⟨rfl, by simp, rfl⟩

theorem slept_outside {t t' : Ticker} (h : t.slept = .ok t') :
    ticking t.pc = false ∧ t.pc ≠ .exited ∧ ticking t'.pc = false := by
  unfold Ticker.slept at h
  cases hpc : t.pc <;> rw [hpc] at h <;> cases h
  exact ⟨rfl, by simp, rfl⟩

theorem ticker_moves (h : Shows s σ) (ho : Owned σ) {act : Act} {t' : Ticker}
    (ha : Alone (.ticker s.ticker) act (.ticker t'))
    (hout : ticking s.ticker.pc = false ∧ s.ticker.pc ≠ .exited ∧ ticking t'.pc = false) :
    ∃ σ', Shows { s with ticker := t' } σ' ∧ Owned σ' ∧ Move (threads regularFile) σ 0 act σ' := by
  obtain ⟨hin, hgone, hin'⟩ := hout
  rw [← h.ticker] at ha
  have hin'' : (Task.ticker t').inSection = false := hin'
  obtain ⟨ho', hm⟩ := alone_moves (F := regularFile) ho (by rw [h.ticker]; exact hin)
    (by rw [h.ticker]; exact hgone) hin'' ha
  rw [h.owner, h.shared] at ho' hm
  exact ⟨_, h.tick s.shared t', ho', hm⟩

theorem step_moves (h : Shows s σ) (ho : Owned σ) {label : Label}
    (hs : s.step label = .ok (e, s')) :
    ∃ σ', Shows s' σ' ∧ Owned σ' ∧ Move (threads regularFile) σ (actOf e).1 (actOf e).2 σ' := by
  cases label with
  | accept c o =>
    cases hs
    have habsent := h.absent _ (Nat.le_refl _)
    have hborn : Alone (σ.tasks (s.threads.length + 1)) .born (.connection (Session.init c o)) := by
      rw [habsent]
      exact .accept c o
    obtain ⟨ho', hm⟩ := alone_moves (F := regularFile) ho (by rw [habsent]; rfl)
      (by rw [habsent]; exact id) rfl hborn
    exact ⟨_, h.accept c o, ho', hm⟩
  | thread i env =>
    simp only [Server.step] at hs
    cases ht : s.threads[i]? with
    | none => simp [ht] at hs
    | some t =>
      rw [ht] at hs
      obtain ⟨req, hreq, hs⟩ := bind_ok hs
      obtain ⟨⟨a, shared⟩, hserve, hs⟩ := bind_ok hs
      obtain ⟨t', hres, hs⟩ := bind_ok hs
      cases hs
      obtain ⟨u, hu, hsim⟩ := h.session i t ht
      have hreq' : (σ.tasks (i + 1)).request = .ok req := by
        rw [hu]
        exact hsim.request.symm.trans hreq
      have hsim' := hsim.resume a
      cases hu' : u.resume a with
      | error e =>
        rw [hu', hres] at hsim'
        cases hsim'
      | ok u' =>
        rw [hu'] at hsim'
        obtain ⟨t'', ht'', hsim'⟩ := hsim'
        rw [hres, Except.ok.injEq] at ht''
        subst ht''
        have hres' : (σ.tasks (i + 1)).resume a = .ok (.connection u') := by
          rw [hu, Task.resume, hu']
          rfl
        have hout := serve_outcome σ.tasks hserve
        rw [← h.system] at hout
        obtain ⟨ho', hm⟩ := call_moves ho hreq' hres' hout
        exact ⟨_, h.set (List.getElem?_eq_some_iff.mp ht).1 shared hsim', ho', hm⟩
  | tick env =>
    obtain ⟨req, hreq, hs⟩ := bind_ok hs
    obtain ⟨⟨a, shared⟩, hserve, hs⟩ := bind_ok hs
    obtain ⟨t', hres, hs⟩ := bind_ok hs
    cases hs
    have hreq' : (σ.tasks 0).request = .ok req := by
      rw [h.ticker]
      exact hreq
    have hres' : (σ.tasks 0).resume a = .ok (.ticker t') := by
      rw [h.ticker, Task.resume, hres]
      rfl
    have hout := serve_outcome σ.tasks hserve
    rw [← h.system] at hout
    obtain ⟨ho', hm⟩ := call_moves ho hreq' hres' hout
    exact ⟨_, h.tick shared t', ho', hm⟩
  | clock tm =>
    obtain ⟨t', ht, hs⟩ := bind_ok hs
    cases hs
    exact ticker_moves h ho (Alone.clock ht) (clocked_outside ht)
  | sleep =>
    obtain ⟨t', ht, hs⟩ := bind_ok hs
    cases hs
    exact ticker_moves h ho (Alone.slept ht) (slept_outside ht)

/-- The runs of the server are runs of its threads under one mutex. -/
theorem run_moves {labels : List Label} {events : List Event}
    (hx : exec Server.step Server.init labels = .ok (events, s)) :
    ∃ σ, Shows s σ ∧ Owned σ ∧
      Run (threads regularFile) ⟨none, ⟨none, fun _ => none⟩, fun _ => .absent⟩ (actsIn events) σ := by
  refine exec_history (I := fun _ events s => ∃ σ, Shows s σ ∧ Owned σ ∧
    Run (threads regularFile) ⟨none, ⟨none, fun _ => none⟩, fun _ => .absent⟩ (actsIn events) σ)
    ?_ ?_ hx
  · have ho := owned_init (δ := Disk) ⟨none, fun _ => none⟩
    obtain ⟨ho', hm⟩ := alone_moves (F := regularFile) (i := 0) ho rfl id rfl .started
    refine ⟨_, ⟨rfl, rfl, ?_, fun i _ => ?_, fun i t ht => ?_⟩, ho', Run.nil.snoc hm⟩
    · simp only [Function.update_self, Server.init]
    · simp only [Function.update_of_ne (Nat.succ_ne_zero i)]
    · simp [Server.init] at ht
  · intro labels events s label e s' _ ⟨σ, hsh, ho, hrun⟩ hstep
    obtain ⟨σ', hsh', ho', hm⟩ := step_moves hsh ho hstep
    have hacts : actsIn (events ++ [e]) = actsIn events ++ [actOf e] := by
      rw [actsIn, List.map_append]
      rfl
    rw [hacts]
    exact ⟨σ', hsh', ho', hrun.snoc hm⟩

/-- Whatever fails, and in whatever order the timestamp thread and the threads
of the connections move: what they do with the mutex taken is done in pieces one
after the other, one for each time the mutex was taken; the file is what the
pieces have added to it; what a piece has sent is how the file began at its end,
and nothing else is sent. -/
theorem file_sections {labels : List Label} {events : List Event}
    (hx : exec Server.step Server.init labels = .ok (events, s)) :
    ∃ ps, Chain regularFile [] ps s.shared.disk.content ∧
      (s.shared.disk.content = ps.flatMap fun p => kept p.acts) ∧
      insideActs (actsIn events) = ps.flatMap Piece.labelled ∧ (∀ p ∈ ps, Opened p.acts) ∧
      (∀ i, purposesOf i ps = (noted (actsOf i (actsIn events))).2) ∧
      ∀ i, sentOf i ps = sent (actsOf i (actsIn events)) := by
  obtain ⟨σ, hsh, _, hrun⟩ := run_moves hx
  have hstands : regularFile.stands ⟨none, fun _ => none⟩ [] := rfl
  obtain ⟨ps, bs, hbs, hchain, hinside, hopened, hpurposes, _⟩ := run_pieces hstands hrun
  have hd : s.shared.disk.content = bs := by
    rw [← hsh.shared]
    exact hbs
  rw [hd]
  exact ⟨ps, hchain, hchain.content id fun _ _ _ hg => hg, hinside, hopened, hpurposes,
    sentOf_eq hinside⟩

/-- The newline of a client is lost, the next timestamp goes on in its line, and
the second client is sent what has come of it. -/
def stampedLine : List Label :=
  [.clock (some ⟨123, 6, 14, 12, 34, 56⟩), .accept 0 0, .accept 0 0, .thread 0 (.plain false),
    .thread 0 (.plain false), .thread 1 (.plain false), .thread 1 (.plain false),
    .thread 0 (.received (some [97, RecordLog.newline])),
    .thread 0 (.plain false), .thread 0 (.opened (some 3)), .thread 0 (.moved false 0),
    .thread 0 (.moved true 0), .thread 0 (.plain false), .tick (.plain false),
    .tick (.opened (some 4)), .tick (.moved false 0), .tick (.plain false), .tick (.plain false),
    .sleep, .thread 1 (.received (some [98, RecordLog.newline])), .thread 1 (.plain false),
    .thread 1 (.opened (some 4)), .thread 1 (.moved false 0), .thread 1 (.moved false 0),
    .thread 1 (.plain false), .thread 1 (.opened (some 4)), .thread 1 .sought,
    .thread 1 (.moved false 0), .thread 1 (.moved false 0)]

theorem stampedLine_sections : ∃ events, ∃ s : Server,
    exec Server.step Server.init stampedLine = .ok (events, s) ∧
      ∃ ps, (s.shared.disk.content = ps.flatMap fun p => kept p.acts) ∧
        purposesOf 1 ps = [.message [97, RecordLog.newline]] ∧
        sentOf 2 ps = 97 :: stamp ⟨123, 6, 14, 12, 34, 56⟩ ++
          [RecordLog.newline, 98, RecordLog.newline] := by
  have hrun : (exec Server.step Server.init stampedLine).toOption.map (fun p =>
      ((noted (actsOf 1 (actsIn p.1))).2, sent (actsOf 2 (actsIn p.1)))) =
        some ([.message [97, RecordLog.newline]], 97 :: stamp ⟨123, 6, 14, 12, 34, 56⟩ ++
          [RecordLog.newline, 98, RecordLog.newline]) := by decide +kernel
  cases hx : exec Server.step Server.init stampedLine with
  | error e =>
    rw [hx] at hrun
    cases hrun
  | ok p =>
    obtain ⟨events, s⟩ := p
    rw [hx] at hrun
    obtain ⟨hp, hr⟩ := Prod.mk.inj (Option.some.inj hrun)
    obtain ⟨ps, _, hcontent, _, _, hpurposes, hsent⟩ := file_sections hx
    exact ⟨events, s, rfl, ps, hcontent, (hpurposes 1).trans hp, (hsent 2).trans hr⟩

end Aesd.FileSections
