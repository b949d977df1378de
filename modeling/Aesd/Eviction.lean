import Aesd.LogDevice
import Aesd.SequentialReading

namespace Aesd.Eviction

open Aesd.Lib.MachineInt Aesd.Lib.Sequence Aesd.Lib.Transition Aesd.Driver Aesd.RecordLog
open Aesd.LogDevice Aesd.SequentialReading

/-- All bytes of the records so far, those that have left the ring included. -/
def stream (l : Log) : List UInt8 := l.records.flatten

def gone (l : Log) : Nat := (l.records.take (l.records.length - 10)).flatten.length

theorem drop_gone (l : Log) : (stream l).drop (gone l) = l.visible.flatten := by
  have h : l.records.take (l.records.length - 10) ++ l.visible = l.records :=
    take_append_lastN 10 l.records
  rw [stream, ← congrArg List.flatten h, List.flatten_append, gone, List.drop_left]

def after (q : State) (ops : List DriverOp) (k : Nat) : State := (answers step q (ops.take k)).2

/-- The place in the stream that the next byte for the reader of `f` comes from,
after the first `k` calls, when it began at position `p`. -/
def nextByte (f p : Nat) (q : State) (ops : List DriverOp) (replies : List Reply) (k : Nat) : Nat :=
  gone (after q ops k).log + p + (received f (ops.take k) (replies.take k)).length

/-- Through `f` only reads are made, whatever they meet. -/
def ReadsOnly (f : Nat) (ops : List DriverOp) : Prop :=
  ∀ op ∈ ops, op.file = f → ∃ count env, op = .read f count env

/-- The records that the device holds never come to 2^63 bytes. -/
def Fits (q : State) (ops : List DriverOp) : Prop :=
  ∀ k, (after q ops k).log.visible.flatten.length < 2 ^ 63

variable {q : State} {ops : List DriverOp} {op : DriverOp} {f p : Nat}

theorem accept_records (l : Log) (bytes : List UInt8) (stray : UInt8) :
    l.records <+: (l.accept bytes stray).records := by
  rw [Log.accept_eq]
  split
  · exact List.prefix_append _ _
  · exact List.prefix_refl _

theorem step_records (q : State) (op : DriverOp) : q.log.records <+: (step q op).2.log.records := by
  unfold step
  cases q.files op.file with
  | none => cases op <;> exact List.prefix_refl _
  | some fPos =>
    cases op with
    | write f buf env =>
      dsimp only
      split
      · exact List.prefix_refl _
      · dsimp only [State.move]
        unfold LogDevice.write
        split
        · exact List.prefix_refl _
        · split
          · exact accept_records _ _ _
          · exact List.prefix_refl _
    | openFile f | release f | read f count env | llseek f fixed offset whence interrupted
    | ioctl f cmd arg env => exact List.prefix_refl _

theorem answers_records (q : State) (ops : List DriverOp) :
    q.log.records <+: (answers step q ops).2.log.records := by
  induction ops generalizing q with
  | nil => exact List.prefix_refl _
  | cons op ops ih => exact (step_records q op).trans (ih _)

theorem move_ne (q : State) {g : Nat} (h : f ≠ g) (fPos : Int) :
    (q.move g fPos).files f = q.files f := Function.update_of_ne h ..

theorem step_other (hf : op.file ≠ f) : (step q op).2.files f = q.files f := by
  have hne : f ≠ op.file := Ne.symm hf
  unfold step
  cases q.files op.file with
  | none =>
    cases op with
    | openFile g => exact move_ne q hne 0
    | release g => exact Function.update_of_ne hne ..
    | write g buf env | read g count env | llseek g fixed offset whence interrupted
    | ioctl g cmd arg env => rfl
  | some fPos =>
    cases op with
    | openFile g => rfl
    | release g => exact Function.update_of_ne hne ..
    | write g buf env =>
      dsimp only
      split
      · rfl
      · exact move_ne _ hne _
    | read g count env | llseek g fixed offset whence interrupted | ioctl g cmd arg env =>
      exact move_ne _ hne _

theorem step_read (hf : q.files f = some (p : Int)) (hp : p < 2 ^ 63)
    (hfits : q.log.visible.flatten.length < 2 ^ 63) (count : Nat) (env : ReadEnv) :
    (step q (.read f count env)).1.bytes <+: q.log.visible.flatten.drop p ∧
      (step q (.read f count env)).2.log = q.log ∧
      (step q (.read f count env)).2.files f =
        some ((p + (step q (.read f count env)).1.bytes.length : Nat) : Int) := by
  have hstep : step q (.read f count env) = (⟨(read q.log count p env).1,
      (read q.log count p env).2.1⟩, q.move f (read q.log count p env).2.2) := by
    simp only [step, DriverOp.file, hf]
  rw [hstep]
  unfold LogDevice.read
  cases env.interrupted with
  | true => exact ⟨List.nil_prefix, rfl, Function.update_self ..⟩
  | false =>
    simp only [Bool.false_eq_true, if_false, toSizeT_natCast (show p < 2 ^ 64 by omega), Log.readAt]
    cases hpiece : pieceAt q.log.visible p count env.uncopied with
    | none => exact ⟨List.nil_prefix, rfl, Function.update_self ..⟩
    | some got =>
      have hpre := pieceAt_isPrefix hpiece
      have hlt := position_lt hfits hp hpre
      refine ⟨hpre, rfl, (Function.update_self ..).trans ?_⟩
      dsimp only
      rw [← Int.natCast_add, loffT_of_lt (by omega) (by omega)]

theorem Fits.head (h : Fits q ops) : q.log.visible.flatten.length < 2 ^ 63 := h 0

theorem Fits.tail (h : Fits q (op :: ops)) : Fits (step q op).2 ops := fun k => h (k + 1)

theorem ReadsOnly.tail (h : ReadsOnly f (op :: ops)) : ReadsOnly f ops :=
  fun o ho => h o (List.mem_cons_of_mem _ ho)

theorem step_delivers (hf : q.files f = some (p : Int)) (hp : p < 2 ^ 63)
    (hfits : q.log.visible.flatten.length < 2 ^ 63)
    (hr : op.file = f → ∃ count env, op = .read f count env) :
    delivered f op (step q op).1 <+: q.log.visible.flatten.drop p ∧
      (step q op).2.files f = some ((p + (delivered f op (step q op).1).length : Nat) : Int) := by
  by_cases hop : op.file = f
  · obtain ⟨count, env, rfl⟩ := hr hop
    obtain ⟨hpre, _, hpos⟩ := step_read hf hp hfits count env
    rw [delivered, if_pos hop]
    exact ⟨hpre, hpos⟩
  · rw [delivered, if_neg hop, step_other hop]
    exact ⟨List.nil_prefix, hf⟩

theorem reader_position (hf : q.files f = some (p : Int)) (hp : p < 2 ^ 63) (hr : ReadsOnly f ops)
    (hfits : Fits q ops) :
    (answers step q ops).2.files f =
        some ((p + (received f ops (answers step q ops).1).length : Nat) : Int) ∧
      p + (received f ops (answers step q ops).1).length < 2 ^ 63 := by
  induction ops generalizing q p with
  | nil => exact ⟨hf, hp⟩
  | cons op ops ih =>
    obtain ⟨hpre, hpos⟩ := step_delivers hf hp hfits.head (hr op List.mem_cons_self)
    have hlt := position_lt hfits.head hp hpre
    have h := ih hpos hlt hr.tail hfits.tail
    rw [answers, received_cons, List.length_append, ← Nat.add_assoc]
    exact h

theorem Fits.take (h : Fits q ops) (k : Nat) : Fits q (ops.take k) := by
  intro j
  have h' := h (min j k)
  rwa [after, List.take_take]

theorem take_succ_of_getElem? {α : Type} {xs : List α} {x : α} {k : Nat} (h : xs[k]? = some x) :
    xs.take (k + 1) = xs.take k ++ [x] := by
  rw [List.take_add_one, h]
  rfl

theorem gone_le {l l' : Log} (h : l.records <+: l'.records) : gone l ≤ gone l' := by
  obtain ⟨new, hnew⟩ := h
  have hlen : l.records.length + new.length = l'.records.length := by
    rw [← hnew, List.length_append]
  have htake : l.records.take (l.records.length - 10) =
      l'.records.take (l.records.length - 10) := by
    rw [← hnew, List.take_append_of_le_length (Nat.sub_le ..)]
  have hpre : l'.records.take (l.records.length - 10) <+:
      l'.records.take (l'.records.length - 10) := List.take_prefix_take_left (by omega)
  rw [gone, gone, htake]
  exact hpre.flatten.length_le

theorem stream_after (q : State) (ops : List DriverOp) (k : Nat) :
    (after q ops k).log.records <+: (answers step q ops).2.log.records := by
  have h := answers_records (after q ops k) (ops.drop k)
  have happ := answers_append step q (ops.take k) (ops.drop k)
  rw [List.take_append_drop] at happ
  rwa [happ]

theorem after_succ {k : Nat} (h : ops[k]? = some op) :
    after q ops (k + 1) = (step (after q ops k) op).2 := by
  rw [after, take_succ_of_getElem? h, answers_append]
  rfl

theorem reads_forward (hf : q.files f = some (p : Int)) (hp : p < 2 ^ 63) (hr : ReadsOnly f ops)
    (hfits : Fits q ops) {k : Nat} {r : Reply} (ho : ops[k]? = some op)
    (hk : (answers step q ops).1[k]? = some r) :
    delivered f op r <+:
        (stream (answers step q ops).2.log).drop (nextByte f p q ops (answers step q ops).1 k) ∧
      nextByte f p q ops (answers step q ops).1 (k + 1) =
        nextByte f p q ops (answers step q ops).1 k + (delivered f op r).length +
          (gone (after q ops (k + 1)).log - gone (after q ops k).log) := by
  have hmem : op ∈ ops := List.mem_of_getElem? ho
  obtain rfl : (step (after q ops k) op).1 = r := by
    rw [answers_getElem?, ho, Option.map_some, Option.some.injEq] at hk
    exact hk
  have hrk : ReadsOnly f (ops.take k) := fun o hm => hr o (List.mem_of_mem_take hm)
  obtain ⟨hpos, hlt⟩ := reader_position hf hp hrk (hfits.take k)
  obtain ⟨hpre, _⟩ := step_delivers hpos hlt (hfits k) (hr op hmem)
  have hgone : gone (after q ops k).log ≤ gone (after q ops (k + 1)).log := by
    rw [after_succ ho]
    exact gone_le (step_records _ _)
  have hgot : received f (ops.take (k + 1)) ((answers step q ops).1.take (k + 1)) =
      received f (ops.take k) ((answers step q ops).1.take k) ++
        delivered f op (step (after q ops k) op).1 := by
    have hlen : (ops.take k).length = ((answers step q ops).1.take k).length := by
      rw [← answers_take, length_answers]
    rw [take_succ_of_getElem? ho, take_succ_of_getElem? hk, received, List.zip_append hlen,
      List.flatMap_append]
    simp [received]
  have hstream : stream (after q ops k).log <+: stream (answers step q ops).2.log :=
    (stream_after q ops k).flatten
  constructor
  · rw [nextByte, ← answers_take, Nat.add_assoc, ← List.drop_drop]
    refine hpre.trans ?_
    rw [← drop_gone]
    exact (hstream.drop _).drop _
  · rw [nextByte, nextByte, hgot, List.length_append]
    omega

/-- Whatever else is called in between: a reader gets the bytes of the stream in
their order and none twice, and what it misses has left the ring between two of
its reads. -/
theorem reader_misses_only_evicted {before : List DriverOp} {answered replies : List Reply}
    {d d' : Device} (hb : exec vfsStep Device.init before = .ok (answered, d))
    (hq : (answers step State.init before).2 = q) (hx : exec vfsStep d ops = .ok (replies, d'))
    (hf : d.files f = some (p : Int)) (hp : p < 2 ^ 63) (hr : ReadsOnly f ops) (hfits : Fits q ops) :
    Implements d' (answers step q ops).2 ∧
      ∀ k op r, ops[k]? = some op → replies[k]? = some r →
        delivered f op r <+:
            (stream (answers step q ops).2.log).drop (nextByte f p q ops replies k) ∧
          nextByte f p q ops replies (k + 1) =
            nextByte f p q ops replies k + (delivered f op r).length +
              (gone (after q ops (k + 1)).log - gone (after q ops k).log) := by
  obtain ⟨_, hie⟩ := run_answers implements_init hb
  rw [hq] at hie
  obtain ⟨rfl, hie'⟩ := run_answers hie hx
  rw [hie.files] at hf
  exact ⟨hie', fun k op r ho hk => reads_forward hf hp hr hfits ho hk⟩

/-- A writer of eleven records and a reader that comes back after the first was
evicted. -/
def lateReader : List DriverOp :=
  [.write 1 [97, 10] ⟨false, true, 0, 0⟩, .read 2 1 ⟨false, 0⟩] ++
    List.replicate 10 (.write 1 [98, 10] ⟨false, true, 0, 0⟩) ++ [.read 2 1 ⟨false, 0⟩]

def lateFiles : List DriverOp := [.openFile 1, .openFile 2]

theorem lateReader_fits : Fits (answers step State.init lateFiles).2 lateReader := by
  intro k
  have hle : ∀ j < 14, (after (answers step State.init lateFiles).2 lateReader
      j).log.visible.flatten.length < 2 ^ 63 := by
    decide +kernel
  by_cases hk : k < 14
  · exact hle k hk
  · have hlen : lateReader.length = 13 := rfl
    have h := hle 13 (by decide)
    rw [after, List.take_of_length_le (by omega)] at h ⊢
    exact h

/-- The two reads bring the bytes 0 and 3 of the stream: the bytes 1 and 2 were
not there to be read any more. -/
theorem lateReader_misses_two : ∃ answered replies d d',
    exec vfsStep Device.init lateFiles = .ok (answered, d) ∧
      exec vfsStep d lateReader = .ok (replies, d') ∧
      Implements d' (answers step (answers step State.init lateFiles).2 lateReader).2 ∧
      ∃ r, replies[12]? = some r ∧
        delivered 2 (.read 2 1 ⟨false, 0⟩) r <+:
          (stream (answers step (answers step State.init lateFiles).2 lateReader).2.log).drop 3 := by
  obtain ⟨answered, d, replies, d', hb, hf, hx, hlast, hnext⟩ : ∃ answered d replies d',
      exec vfsStep Device.init lateFiles = .ok (answered, d) ∧
        d.files 2 = some ((0 : Nat) : Int) ∧ exec vfsStep d lateReader = .ok (replies, d') ∧
        replies[12]? = some ⟨1, [10]⟩ ∧
        nextByte 2 0 (answers step State.init lateFiles).2 lateReader replies 12 = 3 :=
    ⟨_, _, _, _, rfl, rfl, rfl, rfl, by decide +kernel⟩
  have hr : ReadsOnly 2 lateReader := by
    intro op hm hop
    simp only [lateReader, List.mem_append, List.mem_cons, List.mem_replicate, List.not_mem_nil,
      or_false] at hm
    obtain ((rfl | rfl) | ⟨_, rfl⟩) | rfl := hm
    · cases hop
    · exact ⟨1, ⟨false, 0⟩, rfl⟩
    · cases hop
    · exact ⟨1, ⟨false, 0⟩, rfl⟩
  obtain ⟨himp, hall⟩ := reader_misses_only_evicted hb rfl hx hf (by decide) hr lateReader_fits
  have hlate := (hall 12 (.read 2 1 ⟨false, 0⟩) ⟨1, [10]⟩ rfl hlast).1
  rw [hnext] at hlate
  exact ⟨answered, replies, d, d', hb, hx, himp, ⟨1, [10]⟩, hlast, hlate⟩

end Aesd.Eviction
