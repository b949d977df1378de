import Aesd.Aesdsocket
import Aesd.WriteLog

namespace Aesd.RecordCalls

open Aesd.Lib.BlockHeap Aesd.Lib.Sequence Aesd.Lib.Transition Aesd.CircularBuffer Aesd.Driver
open Aesd.RecordLog Aesd.Refinement Aesd.Ownership Aesd.WriteLog Aesd.ServerThread
open Aesd.Connection Aesd.Aesdsocket

/-- What one call of `write_data_to_file` meets: the descriptor, when `open`
gives one, the two writes, and whether `close` reports an error. -/
structure CallEnv where
  opened : Option Nat
  line : WriteEnv
  newline : WriteEnv
  closeFails : Bool
  deriving DecidableEq, Repr

def CallEnv.envs (c : CallEnv) : List Env :=
  [.opened c.opened, .wrote c.line, .wrote c.newline, .plain c.closeFails]

def request (line : List UInt8) : WritePc → Request
  | .openFile => .openFile
  | .line fd => .write fd line
  | .newline fd => .write fd [newline]
  | .close fd => .close fd

theorem session_request (line : List UInt8) (w : WritePc) (writeCmd writeCmdOffset : Nat) :
    (Session.mk (.writing line w) writeCmd writeCmdOffset).request = .ok (request line w) := by
  cases w <;> rfl

def runWrite (line : List UInt8) : WritePc → Device → List Env → Except Fault (Int × Device)
  | _, _, [] => .error .disabled
  | w, d, env :: envs => do
    let (a, d) ← serveDriver d (request line w) env
    match ← w.next a with
    | .goto w => runWrite line w d envs
    | .returned r => .ok (r, d)

def writeDataToFile (d : Device) (p : List UInt8 × CallEnv) : Except Fault (Int × Device) :=
  runWrite p.1 .openFile d p.2.envs

/-- A write that leaves `size` bytes pending is given up. -/
def Refused (env : WriteEnv) (size : Nat) : Prop :=
  env.interrupted = true ∨ env.granted = false ∨ kmallocLimit < size

instance (env : WriteEnv) (size : Nat) : Decidable (Refused env size) :=
  inferInstanceAs (Decidable (_ ∨ _ ∨ _))

def afterWrite (l : Log) (bytes : List UInt8) (env : WriteEnv) : Option Log :=
  if Refused env (l.openBytes.length + bytes.length) then none
  else some (l.accept (accepted bytes env.uncopied) env.stray)

/-- The log after a call: a failed write ends the call, and keeps what the
write before it has added. -/
def afterCall (l : Log) (line : List UInt8) (c : CallEnv) : Log :=
  match c.opened, afterWrite l line c.line with
  | none, _ => l
  | some _, none => l
  | some _, some l' => (afterWrite l' [newline] c.newline).getD l'

theorem refused_iff (l : Log) (size : Nat) (env : WriteEnv) :
    Refused env (l.openBytes.length + size) ↔
      env.interrupted = true ∨ ¬ Granted l size env.granted := by
  unfold Refused Granted
  cases env.granted <;> simp

theorem serve_write {d d' : Device} {l : Log} (hi : Idle d.kernel l) {fd : Nat} {fPos : Int}
    (hf : d.files fd = some fPos) {bytes : List UInt8} {env : WriteEnv} {a : Answer}
    (hs : serveDriver d (.write fd bytes) (.wrote env) = .ok (a, d')) :
    (afterWrite l bytes env = none ∧ a = .failed ∧ Idle d'.kernel l) ∨
      ∃ l' n p, afterWrite l bytes env = some l' ∧ a = .count n ∧ Idle d'.kernel l' ∧
        d'.files fd = some p := by
  unfold afterWrite
  by_cases hc : 2 ^ 63 ≤ bytes.length
  · left
    simp only [serveDriver, vfsStep, hf, hc, bind, Except.bind, if_true] at hs
    cases hs
    exact ⟨if_pos (.inr (.inr (by unfold kmallocLimit; omega))), rfl, hi⟩
  · simp only [serveDriver, vfsStep, hf, hc, if_false] at hs
    obtain ⟨hintr, hw⟩ | ⟨_, hng, hw⟩ | ⟨_, _, _, hw⟩ | ⟨hni, hg, _, k', hw, hi', _⟩ :=
      write_cases hi (Nat.lt_of_not_le hc) fPos env
    · rw [hw] at hs
      cases hs
      exact .inl ⟨if_pos (.inl hintr), rfl, hi⟩
    · rw [hw] at hs
      cases hs
      exact .inl ⟨if_pos ((refused_iff l _ env).mpr (.inr hng)), rfl, hi⟩
    · rw [hw] at hs
      cases hs
    · have hnot : ¬ Refused env (l.openBytes.length + bytes.length) := by
        rw [refused_iff]
        simp [hni, hg]
      have hpos : ¬ ((accepted bytes env.uncopied).length : Int) < 0 := by omega
      simp only [hw, bind, Except.bind, Device.finish, hpos, if_false, Except.ok.injEq,
        Prod.mk.injEq] at hs
      obtain ⟨rfl, rfl⟩ := hs
      exact .inr ⟨_, _, _, if_neg hnot, rfl, hi', Function.update_self ..⟩

theorem call_effect {d d' : Device} {l : Log} (hi : Idle d.kernel l) {line : List UInt8}
    {c : CallEnv} {r : Int} (h : writeDataToFile d (line, c) = .ok (r, d')) :
    Idle d'.kernel (afterCall l line c) := by
  unfold writeDataToFile CallEnv.envs runWrite at h
  unfold afterCall
  cases hop : c.opened with
  | none =>
    simp only [hop, request, serveDriver, WritePc.next, bind, Except.bind, Except.ok.injEq,
      Prod.mk.injEq] at h
    obtain ⟨_, rfl⟩ := h
    exact hi
  | some fd =>
    cases hf : d.files fd with
    | some p =>
      simp [hop, request, serveDriver, vfsStep, hf, bind, Except.bind, ebadf] at h
    | none =>
      let d₀ : Device := { d with files := Function.update d.files fd (some 0) }
      have hi₀ : Idle d₀.kernel l := hi
      have hf₀ : d₀.files fd = some 0 := Function.update_self ..
      simp only [hop, request, serveDriver, vfsStep, hf, WritePc.next, bind, Except.bind,
        Int.lt_irrefl, if_false] at h
      rw [runWrite] at h
      obtain ⟨⟨a₁, d₁⟩, hs₁, h⟩ := bind_ok h
      obtain ⟨ha₁, rfl, hi₁⟩ | ⟨l₁, n₁, p₁, ha₁, rfl, hi₁, hf₁⟩ := serve_write hi₀ hf₀ hs₁
      · simp only [WritePc.next, bind, Except.bind, Except.ok.injEq, Prod.mk.injEq] at h
        obtain ⟨_, rfl⟩ := h
        rwa [ha₁]
      · simp only [WritePc.next, bind, Except.bind] at h
        rw [runWrite] at h
        rw [ha₁]
        obtain ⟨⟨a₂, d₂⟩, hs₂, h⟩ := bind_ok h
        obtain ⟨ha₂, rfl, hi₂⟩ | ⟨l₂, n₂, p₂, ha₂, rfl, hi₂, _⟩ := serve_write hi₁ hf₁ hs₂
        · simp only [WritePc.next, bind, Except.bind, Except.ok.injEq, Prod.mk.injEq] at h
          obtain ⟨_, rfl⟩ := h
          dsimp only
          rwa [ha₂]
        · simp only [WritePc.next, bind, Except.bind] at h
          rw [runWrite] at h
          simp only [request, serveDriver, vfsStep, bind, Except.bind] at h
          dsimp only
          rw [ha₂, Option.getD_some]
          cases hcl : c.closeFails <;>
          · simp only [hcl, Bool.false_eq_true, if_false, if_true, WritePc.next, Except.ok.injEq,
              Prod.mk.injEq] at h
            obtain ⟨_, rfl⟩ := h
            exact hi₂

theorem accepted_eq_nil_iff {buf : List UInt8} (hne : buf ≠ []) (uncopied : Nat) :
    accepted buf uncopied = [] ↔ buf.length ≤ uncopied := by
  have hpos := List.length_pos_iff.mpr hne
  rw [← List.length_eq_zero_iff, accepted_length]
  omega

theorem accepted_eq_self_iff {buf : List UInt8} (hne : buf ≠ []) (uncopied : Nat) :
    accepted buf uncopied = buf ↔ uncopied = 0 := by
  have hpos := List.length_pos_iff.mpr hne
  constructor
  · intro h
    have hlen := accepted_length buf uncopied
    rw [h] at hlen
    omega
  · rintro rfl
    rw [accepted, Nat.zero_min, Nat.sub_zero, List.take_length]

/-- The calls that keep records whole: nothing is written, or the line and its
newline are, or nothing of the line is copied and the newline does not follow. -/
def Whole (line : List UInt8) (c : CallEnv) : Prop :=
  c.opened = none ∨ Refused c.line line.length ∨
    (c.line.uncopied = 0 ∧ ¬ Refused c.newline (line.length + 1) ∧ c.newline.uncopied = 0) ∨
    (line.length ≤ c.line.uncopied ∧ c.line.stray ≠ newline ∧
      (Refused c.newline 1 ∨ (0 < c.newline.uncopied ∧ c.newline.stray ≠ newline)))

/-- Nothing is left pending, and at most the record of this line is new. -/
def Kept (l l' : Log) (line : List UInt8) : Prop :=
  l'.openBytes = [] ∧ (l'.records = l.records ∨ l'.records = l.records ++ [line ++ [newline]])

theorem Kept.refl {l : Log} (hl : l.openBytes = []) (line : List UInt8) : Kept l l line :=
  ⟨hl, .inl rfl⟩

theorem not_kept {l l' : Log} {line : List UInt8} (r : List UInt8) (more : List (List UInt8))
    (hr : l'.records = l.records ++ r :: more) (hne : r ≠ line ++ [newline]) :
    ¬ Kept l l' line := by
  rintro ⟨_, h | h⟩
  · rw [hr] at h
    simp at h
  · rw [hr, List.append_cancel_left_eq, List.cons.injEq] at h
    exact hne h.1

theorem afterWrite_records (l : Log) (bytes : List UInt8) (env : WriteEnv) :
    ∃ more, ((afterWrite l bytes env).getD l).records = l.records ++ more := by
  unfold afterWrite
  split
  · exact ⟨[], (List.append_nil _).symm⟩
  · rw [Option.getD_some, Log.accept_eq]
    split
    · exact ⟨_, rfl⟩
    · exact ⟨[], (List.append_nil _).symm⟩

theorem afterWrite_newline (records : List (List UInt8)) (cur : List UInt8) (env : WriteEnv) :
    afterWrite ⟨records, some cur⟩ [newline] env =
      if Refused env (cur.length + 1) then none
      else if env.uncopied = 0 then some ⟨records ++ [cur ++ [newline]], none⟩
      else if cur.getLast?.getD env.stray = newline then some ⟨records ++ [cur], none⟩
      else some ⟨records, some cur⟩ := by
  unfold afterWrite
  by_cases hr : Refused env (cur.length + 1)
  · rw [if_pos hr]
    exact if_pos hr
  · rw [if_neg hr]
    refine (if_neg hr).trans ?_
    rw [Log.accept_eq]
    by_cases hu : env.uncopied = 0
    · rw [(accepted_eq_self_iff (by simp) _).mpr hu, if_pos hu]
      simp [Log.openBytes]
    · have hnil : accepted [newline] env.uncopied = [] :=
        (accepted_eq_nil_iff (by simp) _).mpr (Nat.one_le_iff_ne_zero.mpr hu)
      rw [hnil, if_neg hu]
      simp only [Log.openBytes, Option.getD_some, List.append_nil]
      split <;> rfl

theorem whole_iff_of_nothing {l : Log} {line : List UInt8} (hne : line ≠ []) {c : CallEnv}
    (hop : c.opened ≠ none) (hr : ¬ Refused c.line line.length)
    (hnil : line.length ≤ c.line.uncopied) (hs : c.line.stray ≠ newline) :
    Whole line c ↔
      Kept l ((afterWrite ⟨l.records, some []⟩ [newline] c.newline).getD ⟨l.records, some []⟩)
        line := by
  have hpos := List.length_pos_iff.mpr hne
  have h0 : c.line.uncopied ≠ 0 := by omega
  have hw : Whole line c ↔
      Refused c.newline 1 ∨ (0 < c.newline.uncopied ∧ c.newline.stray ≠ newline) := by
    simp [Whole, hop, hr, h0, hnil, hs]
  rw [hw, afterWrite_newline]
  by_cases hr' : Refused c.newline 1
  · rw [if_pos (show Refused c.newline (List.length [] + 1) from hr')]
    exact iff_of_true (.inl hr') ⟨rfl, .inl rfl⟩
  · rw [if_neg (show ¬ Refused c.newline (List.length [] + 1) from hr')]
    by_cases hu : c.newline.uncopied = 0
    · rw [if_pos hu]
      refine iff_of_false (by simp [hr', hu]) ?_
      apply not_kept [newline] [] rfl
      intro h
      have hlen := congrArg List.length h
      simp only [List.length_append, List.length_singleton] at hlen
      omega
    · rw [if_neg hu]
      by_cases hn : c.newline.stray = newline
      · rw [if_pos (show (List.getLast? []).getD c.newline.stray = newline from hn)]
        refine iff_of_false (by simp [hr', hn]) ?_
        exact not_kept [] [] rfl (by simp)
      · rw [if_neg (show ¬ (List.getLast? []).getD c.newline.stray = newline from hn)]
        exact iff_of_true (.inr ⟨Nat.pos_of_ne_zero hu, hn⟩) ⟨rfl, .inl rfl⟩

theorem whole_iff_of_some {l : Log} {line cur : List UInt8} {c : CallEnv} (hop : c.opened ≠ none)
    (hr : ¬ Refused c.line line.length) (hnil : ¬ line.length ≤ c.line.uncopied)
    (hcur : cur = line ↔ c.line.uncopied = 0) {b : UInt8} (hb : cur.getLast? = some b)
    (hbn : b ≠ newline) :
    Whole line c ↔
      Kept l ((afterWrite ⟨l.records, some cur⟩ [newline] c.newline).getD ⟨l.records, some cur⟩)
        line := by
  have hne : cur ≠ [] := by
    rintro rfl
    cases hb
  rw [afterWrite_newline, hb, Option.getD_some]
  simp only [Whole, hop, hr, hnil, hbn, false_and, false_or, or_false, ← hcur, if_false]
  by_cases hr' : Refused c.newline (cur.length + 1)
  · rw [if_pos hr']
    refine iff_of_false ?_ fun h => hne h.1
    rintro ⟨rfl, h, _⟩
    exact h hr'
  · rw [if_neg hr']
    by_cases hu : c.newline.uncopied = 0
    · rw [if_pos hu]
      constructor
      · rintro ⟨rfl, _, _⟩
        exact ⟨rfl, .inr rfl⟩
      · intro h
        have hc : cur ++ [newline] = line ++ [newline] := by
          by_contra hd
          exact not_kept _ [] rfl hd h
        obtain rfl := List.append_cancel_right hc
        exact ⟨rfl, hr', hu⟩
    · rw [if_neg hu]
      exact iff_of_false (fun h => hu h.2.2) fun h => hne h.1

/-- From a device with nothing pending, these are exactly the calls that keep
records whole. -/
theorem whole_iff {l : Log} (hl : l.openBytes = []) {line : List UInt8} (hne : line ≠ [])
    (hnl : newline ∉ line) (c : CallEnv) : Whole line c ↔ Kept l (afterCall l line c) line := by
  unfold afterCall
  cases hop : c.opened with
  | none => exact iff_of_true (.inl hop) (Kept.refl hl line)
  | some fd =>
    have hop' : c.opened ≠ none := by simp [hop]
    by_cases hr : Refused c.line line.length
    · have ha : afterWrite l line c.line = none := by simp [afterWrite, hl, hr]
      rw [ha]
      exact iff_of_true (.inr (.inl hr)) (Kept.refl hl line)
    · have ha : afterWrite l line c.line =
          some (l.accept (accepted line c.line.uncopied) c.line.stray) := by
        simp [afterWrite, hl, hr]
      rw [ha]
      dsimp only
      rw [Log.accept_eq, hl, List.nil_append]
      by_cases hnil : line.length ≤ c.line.uncopied
      · rw [(accepted_eq_nil_iff hne _).mpr hnil]
        by_cases hs : c.line.stray = newline
        · rw [if_pos (by simpa using hs)]
          refine iff_of_false ?_ ?_
          · have hpos := List.length_pos_iff.mpr hne
            have h0 : c.line.uncopied ≠ 0 := by omega
            simp [Whole, hop, hr, h0, hs]
          · obtain ⟨more, hmore⟩ :=
              afterWrite_records ⟨l.records ++ [[]], none⟩ [newline] c.newline
            rw [List.append_assoc] at hmore
            exact not_kept _ more hmore (by simp)
        · rw [if_neg (by simpa using hs)]
          exact whole_iff_of_nothing hne hop' hr hnil hs
      · have hacc : accepted line c.line.uncopied ≠ [] := mt (accepted_eq_nil_iff hne _).mp hnil
        have hb := List.getLast?_eq_some_getLast hacc
        have hbn : (accepted line c.line.uncopied).getLast hacc ≠ newline := by
          intro h
          exact hnl (h ▸ List.mem_of_mem_take (List.getLast_mem hacc))
        rw [if_neg (by rwa [hb, Option.getD_some])]
        exact whole_iff_of_some hop' hr hnil (accepted_eq_self_iff hne _) hb hbn

theorem run_whole {calls : List (List UInt8 × CallEnv)} {d d' : Device} {l : Log}
    {rets : List Int} (hi : Idle d.kernel l) (hl : l.openBytes = [])
    (hline : ∀ p ∈ calls, p.1 ≠ [] ∧ newline ∉ p.1) (hc : ∀ p ∈ calls, Whole p.1 p.2)
    (hx : exec writeDataToFile d calls = .ok (rets, d')) :
    ∃ l' news, Idle d'.kernel l' ∧ l'.openBytes = [] ∧ l'.records = l.records ++ news ∧
      List.Sublist news (calls.map fun p => p.1 ++ [newline]) := by
  induction calls generalizing d l rets with
  | nil =>
    simp only [exec, Except.ok.injEq, Prod.mk.injEq] at hx
    obtain ⟨_, rfl⟩ := hx
    exact ⟨l, [], hi, hl, (List.append_nil _).symm, List.nil_sublist _⟩
  | cons p calls ih =>
    obtain ⟨line, c⟩ := p
    obtain ⟨r, d₁, rets', rfl, hf, hx'⟩ := exec_cons_ok hx
    obtain ⟨hne, hnl⟩ := hline _ List.mem_cons_self
    have hi₁ := call_effect hi hf
    obtain ⟨hopen, hrec⟩ := (whole_iff hl hne hnl c).mp (hc _ List.mem_cons_self)
    obtain ⟨l', news, hi', hl', hr', hsub⟩ := ih hi₁ hopen
      (fun q hq => hline q (List.mem_cons_of_mem _ hq))
      (fun q hq => hc q (List.mem_cons_of_mem _ hq)) hx'
    rw [List.map_cons]
    obtain hrec | hrec := hrec
    · exact ⟨l', news, hi', hl', by rw [hr', hrec], hsub.cons _⟩
    · refine ⟨l', (line ++ [newline]) :: news, hi', hl', ?_, hsub.cons_cons _⟩
      rw [hr', hrec, List.append_assoc]
      rfl

def ringBytes (k : Kernel) : List (Except Fault (List UInt8)) :=
  (contents k.dev.circBuf).map fun e => k.heap.load e.buffptr 0 e.size

theorem ringBytes_eq {k : Kernel} {l : Log} (hi : Idle k l) :
    ringBytes k = (lastN 10 l.records).map .ok := stored_loads hi.entries

/-- Calls of `write_data_to_file` that each keep records whole add nothing to
the ring but whole records, each of a call of its own, and leave nothing pending. -/
theorem records_stay_whole {ops : List DriverOp} {replies : List Reply} {d : Device}
    (hx : exec vfsStep Device.init ops = .ok (replies, d))
    (hp : d.kernel.dev.partialWrite.size = 0) {calls : List (List UInt8 × CallEnv)}
    (hline : ∀ p ∈ calls, p.1 ≠ [] ∧ newline ∉ p.1) (hc : ∀ p ∈ calls, Whole p.1 p.2)
    {rets : List Int} {d' : Device} (hr : exec writeDataToFile d calls = .ok (rets, d')) :
    ∃ old news, ringBytes d.kernel = (lastN 10 old).map .ok ∧
      ringBytes d'.kernel = (lastN 10 (old ++ news)).map .ok ∧
      List.Sublist news (calls.map fun p => p.1 ++ [newline]) ∧
      d'.kernel.dev.partialWrite.size = 0 := by
  have hi := run_simulates hx
  have hl := pending_size hi.pending
  rw [hp] at hl
  obtain ⟨l', news, hi', hl', hrec, hsub⟩ :=
    run_whole hi (List.length_eq_zero_iff.mp hl.symm) hline hc hr
  refine ⟨_, news, ringBytes_eq hi, ?_, hsub, ?_⟩
  · rw [ringBytes_eq hi', hrec]
  · rw [pending_size hi'.pending, hl', List.length_nil]

def cleanWrite : WriteEnv := ⟨false, true, 0, 0⟩

/-- The first write of the first call is interrupted. -/
def interruptedCalls : List (List UInt8 × CallEnv) :=
  [([97, 98], ⟨some 0, ⟨true, true, 0, 0⟩, cleanWrite, false⟩),
    ([99, 100], ⟨some 1, cleanWrite, cleanWrite, false⟩)]

theorem interruptedCalls_whole : ∃ rets d',
    exec writeDataToFile Device.init interruptedCalls = .ok (rets, d') ∧
      ∃ old news, ringBytes Device.init.kernel = (lastN 10 old).map .ok ∧
        ringBytes d'.kernel = (lastN 10 (old ++ news)).map .ok ∧
        List.Sublist news (interruptedCalls.map fun p => p.1 ++ [newline]) := by
  obtain ⟨rets, d', hr⟩ : ∃ rets d',
      exec writeDataToFile Device.init interruptedCalls = .ok (rets, d') := ⟨_, _, rfl⟩
  have hc : ∀ p ∈ interruptedCalls, Whole p.1 p.2 := by
    rintro p hp
    obtain rfl | hp := List.mem_cons.mp hp
    · exact .inr (.inl (.inl rfl))
    · rw [List.mem_singleton] at hp
      subst hp
      exact .inr (.inr (.inl ⟨rfl, by decide, rfl⟩))
  obtain ⟨old, news, hold, hnew, hsub, _⟩ :=
    records_stay_whole (show exec vfsStep Device.init [] = .ok ([], Device.init) from rfl) rfl
      (by decide) hc hr
  exact ⟨rets, d', hr, old, news, hold, hnew, hsub⟩

/-- There is no memory for the newline of the first call. -/
def refusedCalls : List (List UInt8 × CallEnv) :=
  [([97, 98], ⟨some 0, cleanWrite, ⟨false, false, 0, 0⟩, false⟩),
    ([99, 100], ⟨some 1, cleanWrite, cleanWrite, false⟩)]

/-- The bytes of the call that failed come before those of the next one. -/
theorem refusedCalls_merged : ∃ d',
    exec writeDataToFile Device.init refusedCalls = .ok ([-1, 0], d') ∧
      ringBytes d'.kernel = [.ok [97, 98, 99, 100, newline]] ∧
      ∀ p ∈ refusedCalls, p.1 ++ [newline] ≠ [97, 98, 99, 100, newline] :=
  ⟨_, rfl, rfl, by decide⟩

end Aesd.RecordCalls
