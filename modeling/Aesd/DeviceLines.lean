import Aesd.DeviceSections
import Aesd.Replies

namespace Aesd.DeviceLines

open Aesd.Lib.BlockHeap Aesd.Lib.MachineInt Aesd.Lib.Sequence Aesd.Lib.Transition Aesd.Lib.Monitor
open Aesd.Driver Aesd.RecordLog Aesd.Refinement Aesd.RecordCalls Aesd.LogDevice
open Aesd.CString Aesd.ServerThread Aesd.Connection Aesd.Aesdsocket Aesd.FileThreads Aesd.Sections
open Aesd.WholeSections Aesd.Pieces Aesd.DeviceSections Aesd.Replies
open Aesd.Transactions (Small)

/-- A call that loses nothing: what is read is copied whole, and a write takes
at least one byte and all of them. -/
def keepsAll (req : Request) (env : Env) (a : Answer) : Bool :=
  (match env with
    | .fetched env => env.uncopied = 0
    | _ => true) &&
  match req with
  | .write _ bytes => bytes ≠ [] && wrote (.call req a)
  | _ => true

variable {d d' : Device} {l l' : Log} {fd : Nat} {env : Env} {a : Answer} {req : Request}

def serveSteady (d : Device) (req : Request) (env : Env) : Except Fault (Answer × Device) := do
  let (a, d) ← serveDriver d req env
  if keepsAll req env a then .ok (a, d) else .error .disabled

theorem serveDriver_of_steady (h : serveSteady d req env = .ok (a, d')) :
    serveDriver d req env = .ok (a, d') ∧ keepsAll req env a = true := by
  obtain ⟨⟨b, e⟩, hs, h⟩ := bind_ok h
  dsimp only at h
  split at h
  · next hk =>
    cases h
    exact ⟨hs, hk⟩
  · cases h

def Chunks (l : Log) (bs : List UInt8) (l' : Log) : Prop :=
  ∃ chunks : List (List UInt8), [] ∉ chunks ∧ chunks.flatten = bs ∧
    l' = chunks.foldl (fun l c => l.accept c 0) l

theorem chunks_append {l'' : Log} {bs bs' : List UInt8} (h : Chunks l bs l')
    (h' : Chunks l' bs' l'') : Chunks l (bs ++ bs') l'' := by
  obtain ⟨cs, hne, rfl, rfl⟩ := h
  obtain ⟨cs', hne', rfl, rfl⟩ := h'
  refine ⟨cs ++ cs', fun h => ?_, List.flatten_append .., (List.foldl_append ..).symm⟩
  obtain h | h := List.mem_append.mp h
  · exact hne h
  · exact hne' h

theorem accept_chunk {bs : List UInt8} (h : bs ≠ []) (l : Log) (stray : UInt8) :
    l.accept bs stray = l.accept bs 0 := by
  have hlast : ∀ b, (l.openBytes ++ bs).getLast?.getD b = bs.getLast h := by
    intro b
    rw [List.getLast?_append_of_ne_nil _ h, List.getLast?_eq_some_getLast h, Option.getD_some]
  rw [Log.accept_eq, Log.accept_eq, hlast, hlast]

theorem write_chunks {bytes : List UInt8} (hi : Idle d.kernel l)
    (h : serveSteady d (.write fd bytes) env = .ok (a, d')) :
    ∃ l', Idle d'.kernel l' ∧ Chunks l (taken bytes a) l' := by
  obtain ⟨hs, hk⟩ := serveDriver_of_steady h
  obtain ⟨l', hi', ⟨hnil, rfl⟩ | ⟨n, stray, rfl, rfl⟩⟩ := serve_accept hi hs
  · rw [hnil]
    exact ⟨_, hi', [], List.not_mem_nil, rfl, rfl⟩
  · obtain ⟨hne, hw⟩ : bytes ≠ [] ∧ bytes.length ≤ n := by
      have hk' := (Bool.and_eq_true_iff.mp hk).2
      obtain ⟨hne, hw⟩ := Bool.and_eq_true_iff.mp hk'
      exact ⟨of_decide_eq_true hne, of_decide_eq_true hw⟩
    have htaken : taken bytes (.count n) = bytes := List.take_of_length_le hw
    refine ⟨_, hi', [bytes], fun h => hne (List.mem_singleton.mp h).symm, ?_, ?_⟩
    · rw [htaken, List.flatten_singleton]
    · rw [List.take_of_length_le hw]
      exact accept_chunk hne l stray

def steady : Datafile Device Env Log :=
  { aesdchar with
    serve := serveSteady
    grows := Chunks
    grows_nil := fun _ => ⟨[], List.not_mem_nil, rfl, rfl⟩
    grows_append := chunks_append
    openFile := fun hi h => aesdchar.openFile hi (serveDriver_of_steady h).1
    write := fun hi h => write_chunks hi h
    ioctl := fun hi h => aesdchar.ioctl hi (serveDriver_of_steady h).1
    read := fun hi h => aesdchar.read hi (serveDriver_of_steady h).1
    close := fun hi h => aesdchar.close hi (serveDriver_of_steady h).1 }

theorem servedBy_steady (h : keepsAll req env a = true) : ServedBy steady env req a := by
  intro d d' hs
  have hserve : steady.serve d req env = serveSteady d req env := rfl
  rw [hserve, serveSteady, hs]
  exact if_pos h

theorem serve_atEnd {p : Nat} (hi : Idle d.kernel l) (hf : d.files fd = some (p : Int))
    (hp : p < 2 ^ 63) (h : serveSteady d (.read fd sockReadBufSize) env = .ok (.bytes [], d')) :
    l.visible.flatten.length ≤ p := by
  obtain ⟨h, hk⟩ := serveDriver_of_steady h
  cases env with
  | fetched env =>
    obtain ⟨⟨_, d₁⟩, hv, h⟩ := bind_ok h
    obtain ⟨rfl, _⟩ := vfs_step hi hv
    simp only [Except.ok.injEq, Prod.mk.injEq] at h
    obtain ⟨ha, _⟩ := h
    have huncopied : env.uncopied = 0 := of_decide_eq_true (Bool.and_eq_true_iff.mp hk).1
    simp only [LogDevice.step, DriverOp.file, hf, LogDevice.read, Log.readAt, huncopied,
      toSizeT_natCast (show p < 2 ^ 64 by omega)] at ha
    cases hint : env.interrupted with
    | true => simp [hint, eintr] at ha
    | false =>
      cases hpiece : pieceAt l.visible p sockReadBufSize 0 with
      | none => exact (pieceAt_eq_none_iff ..).mp hpiece
      | some got =>
        have hpos : ¬ (got.length : Int) < 0 := by omega
        simp only [hint, hpiece, Bool.false_eq_true, if_false, hpos, Answer.bytes.injEq] at ha
        exact absurd ha (pieceAt_ne_nil (by decide) hpiece)
  | plain _ | kept | opened _ | received _ | wrote _ | sought _ | sent _ _ => cases h

theorem visible_unique {k : Kernel} (hi : Idle k l) (hi' : Idle k l') : l.visible = l'.visible := by
  have h : (l.visible.map .ok : List (Except Fault (List UInt8))) = l'.visible.map .ok :=
    (ringBytes_eq hi).symm.trans (ringBytes_eq hi')
  exact List.map_injective_iff.mpr (fun _ _ h => Except.ok.inj h) h

theorem exact_steady : Exact steady where
  atEnd hi hr hp hle hs := by
    obtain ⟨z, hz, hp⟩ := Option.bind_eq_some_iff.mp hp
    have hz' : z = _ := Int.mem_toNat?.mp hp
    exact serve_atEnd hi (hz.trans (congrArg some hz')) (Nat.lt_of_le_of_lt hle hr) hs
  same {d l l'} hi hi' := by
    have hv : l.visible = l'.visible := visible_unique hi hi'
    refine ⟨fun hr => ?_, congrArg List.flatten hv, ?_⟩
    · have hr' : l'.visible.flatten.length < 2 ^ 63 := hr
      rw [← hv] at hr'
      exact hr'
    · funext c o a
      simp only [steady, aesdchar, seekLeads, seekTo, hv]

theorem accept_open {bs : List UInt8} (hne : bs ≠ []) (hn : newline ∉ bs) :
    l.accept bs 0 = ⟨l.records, some (l.openBytes ++ bs)⟩ := by
  have hlast : bs.getLast hne ≠ newline := fun h => hn (h ▸ List.getLast_mem hne)
  rw [Log.accept_eq, List.getLast?_append_of_ne_nil _ hne, List.getLast?_eq_some_getLast hne,
    Option.getD_some]
  exact if_neg hlast

theorem accept_close (bs : List UInt8) :
    l.accept (bs ++ [newline]) 0 = ⟨l.records ++ [l.openBytes ++ (bs ++ [newline])], none⟩ := by
  rw [Log.accept_eq]
  apply if_pos
  simp

theorem chunks_line {line : List UInt8} {chunks : List (List UInt8)} (hne : [] ∉ chunks)
    (hn : newline ∉ line) (h : chunks.flatten = line ++ [newline]) :
    chunks.foldl (fun l c => l.accept c 0) l =
      ⟨l.records ++ [l.openBytes ++ (line ++ [newline])], none⟩ := by
  induction chunks generalizing l line with
  | nil => simp at h
  | cons c cs ih =>
    have hc : c ≠ [] := fun h => hne (h ▸ List.mem_cons_self ..)
    have hcs : [] ∉ cs := fun h => hne (List.mem_cons_of_mem _ h)
    -- the newline is in a later chunk, or at the end of this one
    obtain ⟨later, rfl, hlater⟩ | ⟨rfl, hnil⟩ : (∃ later, line = c ++ later ∧
        cs.flatten = later ++ [newline]) ∨ (c = line ++ [newline] ∧ cs.flatten = []) := by
      obtain ⟨later, hl, hlater⟩ | ⟨more, hm, hlater⟩ := List.append_eq_append_iff.mp h
      · exact .inl ⟨later, hl, hlater⟩
      · cases more with
        | nil => exact .inl ⟨[], by rw [hm, List.append_nil, List.append_nil], hlater.symm⟩
        | cons b more =>
          obtain ⟨rfl, hmore⟩ := List.cons.inj hlater
          obtain ⟨rfl, hnil⟩ := List.append_eq_nil_iff.mp hmore.symm
          exact .inr ⟨hm, hnil⟩
    · rw [List.foldl_cons, accept_open hc fun h => hn (List.mem_append_left _ h),
        ih hcs (fun h => hn (List.mem_append_right _ h)) hlater]
      simp [Log.openBytes]
    · have hnone : cs = [] := List.eq_nil_iff_forall_not_mem.mpr fun c hc => by
        have hempty := List.flatten_eq_nil_iff.mp hnil c hc
        exact hcs (hempty ▸ hc)
      rw [hnone, List.foldl_cons, accept_close]
      rfl

/-- The log whose records are the lines of the pieces. -/
def logOf (ps : List Piece) : Log :=
  ⟨(ps.flatMap fun p => lines p.purpose).map fun line => line ++ [newline], none⟩

theorem lines_cases (w : Purpose) : lines w = [] ∨ ∃ line, lines w = [line] := by
  cases w with
  | message msg =>
    rw [lines]
    split
    · exact .inl rfl
    · exact .inr ⟨_, rfl⟩
  | stamp text => exact .inr ⟨_, rfl⟩

theorem logOf_snoc (ps : List Piece) (p : Piece) : logOf (ps ++ [p]) =
    ⟨(logOf ps).records ++ (lines p.purpose).map fun line => line ++ [newline], none⟩ := by
  simp [logOf]

theorem chunks_records {ps : List Piece} {p : Piece}
    (hp : kept p.acts = (lines p.purpose).flatMap (fun line => line ++ [newline]) ∧
      ∀ line ∈ lines p.purpose, newline ∉ line)
    (h : Chunks (logOf ps) (kept p.acts) l) : l = logOf (ps ++ [p]) := by
  obtain ⟨hkept, hnl⟩ := hp
  obtain ⟨chunks, hne, hflat, rfl⟩ := h
  rw [logOf_snoc]
  rw [hkept] at hflat
  obtain hl | ⟨line, hl⟩ := lines_cases p.purpose
  · rw [hl] at hflat ⊢
    have hnone : chunks = [] := List.eq_nil_iff_forall_not_mem.mpr fun c hc => by
      have hempty := List.flatten_eq_nil_iff.mp hflat c hc
      exact hne (hempty ▸ hc)
    rw [hnone, List.map_nil, List.append_nil]
    rfl
  · rw [hl] at hflat hnl ⊢
    rw [List.flatMap_singleton] at hflat
    rw [chunks_line hne (hnl line (List.mem_singleton.mpr rfl)) hflat]
    rfl

theorem wrote_unclocked {events : List Event}
    (hwrote : ∀ i req a, .call i req a ∈ events → wrote (.call req a) = true) {i : Nat} {act : Act}
    (hmem : (i, act) ∈ actsIn events) : wrote act = true ∧ ∀ tm, act ≠ .clock tm := by
  obtain ⟨e, he, hact⟩ := List.mem_filterMap.mp hmem
  cases e with
  | call j req a =>
    cases hact
    exact ⟨hwrote _ _ _ he, fun tm h => by cases h⟩
  | created j =>
    cases hact
    exact ⟨rfl, fun tm h => by cases h⟩
  | inserted j | examined j done | scanned | passed | removed j | joined j | closed j | freed j =>
    cases hact

theorem logOf_visible_lt {ps : List Piece}
    (h : ∀ p ∈ ps, ∃ msg, p.purpose = .message msg ∧ msg.length ≤ reallocLimit) :
    (logOf ps).visible.flatten.length < 2 ^ 63 := by
  have hsmall : Small (logOf ps).records := by
    intro r hr
    obtain ⟨line, hline, rfl⟩ := List.mem_map.mp hr
    obtain ⟨p, hp, hline⟩ := List.mem_flatMap.mp hline
    obtain ⟨msg, hmsg, hlen⟩ := h p hp
    rw [hmsg, lines] at hline
    split at hline
    · cases hline
    · have hle := (lineOf_isPrefix msg).length_le
      rw [List.mem_singleton.mp hline, List.length_append, List.length_singleton]
      omega
  exact hsmall.visible_lt

/-- Whatever order the threads move in: while every open of the device succeeds,
every write takes all of at least one byte and every copy to a reader is whole,
the log, whenever the mutex is free, has the lines of the messages as its
records, in the order in which the mutex was taken for them; every seek is to
where the message asks; and who has read the device to its end has sent, from
where the seek has led, the last ten records up to its own message. -/
theorem device_lines {labels : List Label} {events : List Event} {s : Server Thread}
    (hx : exec (Server.step threadProcess) Server.init labels = .ok (events, s))
    (hfree : s.shared.fileMutex = none)
    (hwrote : ∀ i req a, .call i req a ∈ events → wrote (.call req a) = true)
    (hsome : ∀ i fd a, .call i (.write fd []) a ∉ events)
    (hcopies : ∀ i env, .thread i (.fetched env) ∈ labels → env.uncopied = 0) :
    ∃ ps, Idle s.shared.device.kernel (logOf ps) ∧
      insideActs (actsIn events) = ps.flatMap Piece.labelled ∧ (∀ p ∈ ps, Opened p.acts) ∧
      (∀ i, purposesOf i ps = (noted (actsOf i (actsIn events))).2) ∧
      (∀ i, sentOf i ps = sent (actsOf i (actsIn events))) ∧
      (∀ p ∈ ps, Aims p.purpose (aim p.acts)) ∧
      ∀ j p, ps[j]? = some p → (∃ act ∈ p.acts, atEnd act = true) →
        sent p.acts = (logOf (ps.take (j + 1))).visible.flatten.drop
          (begins aesdchar (logOf (ps.take (j + 1))) (aim p.acts)) := by
  obtain ⟨q, hq, hagree⟩ := run_agrees hx
  have hserved : ∀ i env req a, .thread i env ∈ labels → .call i req a ∈ events →
      ServedBy steady env req a := by
    intro i env req a hl he
    refine servedBy_steady (Bool.and_eq_true_iff.mpr ⟨?_, ?_⟩)
    · cases env with
      | fetched env => exact decide_eq_true (hcopies i env hl)
      | plain _ | kept | opened _ | received _ | wrote _ | sought _ | sent _ _ => rfl
    · cases req with
      | write fd bytes =>
        have hne : bytes ≠ [] := fun h => hsome i fd a (h ▸ he)
        exact Bool.and_eq_true_iff.mpr ⟨decide_eq_true hne, hwrote i _ a he⟩
      | sigmask | alloc | recv | lock | unlock | openFile | ioctl fd c o | read fd n | close fd
      | send bytes | free | syslog => rfl
  obtain ⟨_, hrun⟩ := run_moves hq hserved
  have hstands : steady.stands (system Server.init).shared Log.empty := idle_init
  obtain ⟨ps, l, hl, hchain, hinside, hopened, hpurposes, hmade⟩ := run_pieces hstands hrun
  have hmade := hmade ((congrArg Shared.fileMutex hagree.shared).symm.trans hfree)
  have hlines := made_lines hmade hinside hpurposes fun i act hmem => by
    obtain ⟨hw, hno⟩ := wrote_unclocked hwrote hmem
    exact ⟨hw, fun tm hact => absurd hact (hno _)⟩
  have hmessages : ∀ p ∈ ps, ∃ msg, p.purpose = .message msg ∧ msg.length ≤ reallocLimit := by
    intro p hp
    have htimed := timed_pieces hpurposes p hp
    obtain ⟨k, hfits⟩ := hchain.fits p hp
    cases hw : p.purpose with
    | message msg => exact ⟨msg, rfl, hfits.bounded msg hw⟩
    | stamp text =>
      rw [hw] at htimed
      obtain ⟨tm, hact, _⟩ := htimed
      obtain ⟨⟨j, act⟩, hmem, rfl⟩ := List.mem_map.mp hact
      have hno := (wrote_unclocked hwrote (List.mem_of_mem_filter hmem)).2
      exact absurd rfl (hno (some tm))
  obtain ⟨rfl, hreplies⟩ := answers_indexed logOf rfl (made_answers exact_steady hstands hmade)
    fun qs p k' hp hg => by
      have hg' : Chunks (logOf qs) (kept p.acts) k' := hg
      exact chunks_records (hlines p hp) hg'
  refine ⟨ps, hagree.shared ▸ hl, hinside, hopened, hpurposes, sentOf_eq hinside, fun p hp => ?_,
    fun j p hp hend => ?_⟩
  · obtain ⟨k, hfits⟩ := hchain.fits p hp
    exact hfits.aims
  · refine hreplies j p hp hend (logOf_visible_lt fun q hq => ?_)
    exact hmessages q (List.mem_of_mem_take hq)

/-- The first client is gone before it has its reply, and the second one is sent
both lines. -/
def goneClient : List Label :=
  [.main 0 0, .main 0 0, .main 0 0, .main 0 0, .main 0 0, .main 0 0,
    .thread 0 (.plain false), .thread 1 (.plain false), .thread 0 (.plain false),
    .thread 1 (.plain false), .thread 0 (.received (some [97, newline])), .thread 0 (.plain false),
    .thread 1 (.received (some [98, newline])), .thread 0 (.opened (some 3)),
    .thread 0 (.wrote ⟨false, true, 0, 0⟩), .thread 0 (.wrote ⟨false, true, 0, 0⟩),
    .thread 0 (.plain false), .thread 0 (.opened (some 3)), .thread 0 (.sought ⟨false, false⟩),
    .thread 0 (.fetched ⟨false, 0⟩), .thread 0 (.sent true 0), .thread 0 (.plain false),
    .thread 1 (.plain false), .thread 1 (.opened (some 4)), .thread 1 (.wrote ⟨false, true, 0, 0⟩),
    .thread 1 (.wrote ⟨false, true, 0, 0⟩), .thread 1 (.plain false), .thread 1 (.opened (some 4)),
    .thread 1 (.sought ⟨false, false⟩), .thread 1 (.fetched ⟨false, 0⟩), .thread 1 (.sent false 0),
    .thread 1 (.fetched ⟨false, 0⟩), .thread 1 (.sent false 0), .thread 1 (.fetched ⟨false, 0⟩),
    .thread 1 (.plain false), .thread 1 (.plain false)]

def isFaulty : Label → Bool
  | .thread _ (.fetched env) => env.uncopied ≠ 0
  | _ => false

def isEmptyWrite : Event → Bool
  | .call _ (.write _ []) _ => true
  | _ => false

theorem goneClient_lines : ∃ events, ∃ s : Server Thread,
    exec (Server.step threadProcess) Server.init goneClient = .ok (events, s) ∧
      ∃ ps, Idle s.shared.device.kernel (logOf ps) ∧ purposesOf 0 ps = [.message [97, newline]] ∧
        purposesOf 1 ps = [.message [98, newline]] ∧ sentOf 0 ps = [] ∧
        sentOf 1 ps = [97, newline, 98, newline] := by
  obtain ⟨events, q, hq, hfree, hwrote, hsome, h0, h1, hs0, hs1⟩ : ∃ events, ∃ q : Sessions,
      exec (Server.step sessionProcess) Server.init goneClient = .ok (events, q) ∧
        q.shared.fileMutex = none ∧ ((actsIn events).all fun p => wrote p.2) = true ∧
        events.any isEmptyWrite = false ∧
        (noted (actsOf 0 (actsIn events))).2 = [.message [97, newline]] ∧
        (noted (actsOf 1 (actsIn events))).2 = [.message [98, newline]] ∧
        sent (actsOf 0 (actsIn events)) = [] ∧
        sent (actsOf 1 (actsIn events)) = [97, newline, 98, newline] :=
    ⟨_, _, rfl, rfl, by decide, by decide, by decide, by decide, by decide, by decide⟩
  obtain ⟨s, hs, hagree⟩ := run_of_sessions hq
  have hfaults : goneClient.any isFaulty = false := by decide
  obtain ⟨ps, hl, _, _, hp, hsent, _⟩ := device_lines hs (hagree.shared ▸ hfree)
    (fun i req a h => List.all_eq_true.mp hwrote _ (List.mem_filterMap.mpr ⟨_, h, rfl⟩))
    (fun i fd a h => by
      have hno := List.any_eq_false.mp hsome _ h
      exact hno rfl)
    (fun i env h => by
      have hno := List.any_eq_false.mp hfaults _ h
      simpa [isFaulty] using hno)
  exact ⟨events, s, hs, ps, hl, (hp 0).trans h0, (hp 1).trans h1, (hsent 0).trans hs0,
    (hsent 1).trans hs1⟩

end Aesd.DeviceLines
