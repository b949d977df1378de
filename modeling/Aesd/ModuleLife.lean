import Aesd.Footprint
import Aesd.LogDevice

namespace Aesd.ModuleLife

open Aesd.Lib.BlockHeap Aesd.Lib.Frame Aesd.Lib.Sequence Aesd.Lib.Transition Aesd.CircularBuffer
open Aesd.BoundedFifo Aesd.Driver Aesd.RecordLog Aesd.Refinement Aesd.Ownership Aesd.LogDevice
open Aesd.Footprint

def enoent : Int := 2
def enxio : Int := 6
def ewouldblock : Int := 11
def ebusy : Int := 16
def eexist : Int := 17

structure Module where
  dev : AesdDev
  aesdMajor : Nat

/-- The kernel around the module: its memory, the device numbers that are
taken, the number under which `aesd_device.cdev` is found, the open files, and
those of them that keep the module in place. -/
structure Host where
  heap : Heap
  regions : List Nat
  cdev : Option Nat
  loaded : Option Module
  files : Nat → Option Int
  refs : List Nat

def Host.init : Host := ⟨Heap.empty kmallocLimit, [], none, none, fun _ => none, []⟩

/-- The result, the number it finds, and the kernel. It never gives a number
that is taken. -/
def allocChrdevRegion (s : Host) (found : Option Nat) : Int × Nat × Host :=
  match found with
  | none => (-ebusy, 0, s)
  | some major =>
    if major ∈ s.regions then (-ebusy, 0, s)
    else (0, major, { s with regions := major :: s.regions })

def unregisterChrdevRegion (s : Host) (major : Nat) : Host :=
  { s with regions := s.regions.erase major }

def cdevAdd (s : Host) (major errno : Nat) : Int × Host :=
  if errno = 0 then (0, { s with cdev := some major }) else (-errno, s)

def cdevDel (s : Host) : Host := { s with cdev := none }

structure InitEnv where
  found : Option Nat
  cdevErrno : Nat

def aesdSetupCdev (s : Host) (major : Nat) (env : InitEnv) : Int × Host :=
  cdevAdd s major env.cdevErrno

def aesdInitModule (s : Host) (env : InitEnv) : Int × Module × Host :=
  let (result, major, s) := allocChrdevRegion s env.found
  let m : Module := ⟨Driver.aesdInitModule.dev, major⟩
  if result < 0 then (result, m, s)
  else
    let (result, s) := aesdSetupCdev s major env
    let s := if result ≠ 0 then unregisterChrdevRegion s major else s
    (result, m, s)

def aesdCleanupModule (s : Host) (m : Module) (interrupted : Bool) : Except Fault Host := do
  let s := cdevDel s
  let k ← Driver.aesdCleanupModule ⟨m.dev, s.heap⟩ interrupted
  let s := { s with heap := k.heap }
  .ok (if interrupted then s else unregisterChrdevRegion s m.aesdMajor)

def Host.insmod (s : Host) (env : InitEnv) : Reply × Host :=
  match s.loaded with
  | some _ => (⟨-eexist, []⟩, s)
  | none =>
    let (result, m, s) := aesdInitModule s env
    (⟨result, []⟩, if result = 0 then { s with loaded := some m } else s)

def Host.rmmod (s : Host) (interrupted : Bool) : Except Fault (Reply × Host) :=
  match s.loaded with
  | none => .ok (⟨-enoent, []⟩, s)
  | some m =>
    if s.refs ≠ [] then .ok (⟨-ewouldblock, []⟩, s)
    else do
      let s ← aesdCleanupModule s m interrupted
      .ok (⟨0, []⟩, { s with loaded := none })

def reaches (cdev : Option Nat) (files : Nat → Option Int) : DriverOp → Bool
  | .openFile _ => cdev.isSome
  | op => (files op.file).isSome

def refused : DriverOp → Reply
  | .openFile _ => ⟨-enxio, []⟩
  | _ => ⟨-ebadf, []⟩

/-- The files that keep the module in place after a call. -/
def refsAfter (refs : List Nat) (op : DriverOp) (r : Reply) : List Nat :=
  match op with
  | .openFile f => if r.ret = 0 then f :: refs else refs
  | .release f => refs.erase f
  | _ => refs

def Host.call (s : Host) (op : DriverOp) : Except Fault (Reply × Host) :=
  if reaches s.cdev s.files op then
    match s.loaded with
    | none => .error .invalidPointer
    | some m => do
      let (r, d) ← vfsStep ⟨⟨m.dev, s.heap⟩, s.files⟩ op
      .ok (r, { s with heap := d.kernel.heap, loaded := some { m with dev := d.kernel.dev },
                       files := d.files, refs := refsAfter s.refs op r })
  else .ok (refused op, s)

inductive HostOp
  | insmod (env : InitEnv)
  | rmmod (interrupted : Bool)
  | call (op : DriverOp)

def Host.step (s : Host) : HostOp → Except Fault (Reply × Host)
  | .insmod env => .ok (s.insmod env)
  | .rmmod interrupted => s.rmmod interrupted
  | .call op => s.call op

/-- What loading, using and unloading the driver is for: between a load and an
unload there is a log, empty at first. Each unload that was interrupted is counted. -/
structure Life where
  loaded : Option (Log × Nat)
  files : Nat → Option Int
  opened : List Nat
  regions : List Nat
  interrupted : Nat

def Life.init : Life := ⟨none, fun _ => none, [], [], 0⟩

def Life.insmod (q : Life) (env : InitEnv) : Reply × Life :=
  match q.loaded, env.found with
  | some _, _ => (⟨-eexist, []⟩, q)
  | none, none => (⟨-ebusy, []⟩, q)
  | none, some major =>
    if major ∈ q.regions then (⟨-ebusy, []⟩, q)
    else if env.cdevErrno = 0 then
      (⟨0, []⟩, { q with loaded := some (Log.empty, major), regions := major :: q.regions })
    else (⟨-env.cdevErrno, []⟩, q)

def Life.rmmod (q : Life) (interrupted : Bool) : Reply × Life :=
  match q.loaded with
  | none => (⟨-enoent, []⟩, q)
  | some (_, major) =>
    if q.opened ≠ [] then (⟨-ewouldblock, []⟩, q)
    else if interrupted then
      (⟨0, []⟩, { q with loaded := none, interrupted := q.interrupted + 1 })
    else (⟨0, []⟩, { q with loaded := none, regions := q.regions.erase major })

def Life.call (q : Life) (op : DriverOp) : Reply × Life :=
  match q.loaded with
  | none => (refused op, q)
  | some (l, major) =>
    if reaches (some major) q.files op then
      let (r, t) := LogDevice.step ⟨l, q.files⟩ op
      (r, { q with loaded := some (t.log, major), files := t.files,
                   opened := refsAfter q.opened op r })
    else (refused op, q)

def Life.step (q : Life) : HostOp → Reply × Life
  | .insmod env => q.insmod env
  | .rmmod interrupted => q.rmmod interrupted
  | .call op => q.call op

def Life.Oopses (q : Life) : HostOp → Prop
  | .call op => ∃ l major, q.loaded = some (l, major) ∧ LogDevice.Oopses ⟨l, q.files⟩ op
  | _ => False

/-- The numbers that are taken are those of the loaded module and of the
unloads that were interrupted, and only the open files keep the module in place. -/
structure Sound (q : Life) : Prop where
  opened : ∀ f, f ∈ q.opened ↔ (q.files f).isSome
  opened_nodup : q.opened.Nodup
  closed : q.loaded = none → q.opened = []
  major : ∀ l major, q.loaded = some (l, major) → major ∈ q.regions
  regions_nodup : q.regions.Nodup
  count : q.regions.length = q.interrupted + if q.loaded.isSome then 1 else 0

theorem sound_init : Sound Life.init where
  opened f := by simp [Life.init]
  opened_nodup := .nil
  closed _ := rfl
  major l major h := by cases h
  regions_nodup := .nil
  count := rfl

theorem opened_after (t : State) (op : DriverOp) {opened : List Nat}
    (ho : ∀ f, f ∈ opened ↔ (t.files f).isSome) (hn : opened.Nodup) :
    (∀ f, f ∈ refsAfter opened op (LogDevice.step t op).1 ↔
        ((LogDevice.step t op).2.files f).isSome) ∧
      (refsAfter opened op (LogDevice.step t op).1).Nodup := by
  have hmove : ∀ (file : Nat) (p : Int), (t.files file).isSome →
      ∀ f, f ∈ opened ↔ (Function.update t.files file (some p) f).isSome := by
    intro file p hfile f
    rw [ho]
    by_cases hf : f = file
    · rw [hf, Function.update_self, hfile]
      rfl
    · rw [Function.update_of_ne hf]
  cases op with
  | openFile file =>
    cases hq : t.files file with
    | some p =>
      simp only [LogDevice.step, DriverOp.file, hq, refsAfter]
      exact ⟨ho, hn⟩
    | none =>
      simp only [LogDevice.step, DriverOp.file, hq, refsAfter, State.move, if_true]
      refine ⟨fun f => ?_, List.nodup_cons.mpr ⟨fun h => ?_, hn⟩⟩
      · by_cases hf : f = file
        · simp [hf]
        · rw [List.mem_cons, Function.update_of_ne hf, ← ho]
          simp [hf]
      · rw [ho, hq] at h
        cases h
  | release file =>
    have hstep : LogDevice.step t (.release file) =
        (⟨0, []⟩, { t with files := Function.update t.files file none }) := by
      unfold LogDevice.step
      cases t.files (DriverOp.release file).file <;> rfl
    rw [hstep]
    refine ⟨fun f => ?_, hn.erase file⟩
    simp only [refsAfter, hn.mem_erase_iff, ho]
    by_cases hf : f = file
    · simp [hf]
    · simp [hf]
  | write file buf env =>
    cases hq : t.files file with
    | none =>
      simp only [LogDevice.step, DriverOp.file, hq]
      exact ⟨ho, hn⟩
    | some p =>
      simp only [LogDevice.step, DriverOp.file, hq, refsAfter]
      split
      · exact ⟨ho, hn⟩
      · exact ⟨hmove file _ (by rw [hq]; rfl), hn⟩
  | read file count env | llseek file fixedSizeLlseek offset whence interrupted
  | ioctl file cmd arg env =>
    cases hq : t.files file with
    | none =>
      simp only [LogDevice.step, DriverOp.file, hq]
      exact ⟨ho, hn⟩
    | some p =>
      simp only [LogDevice.step, DriverOp.file, hq, refsAfter, State.move]
      exact ⟨hmove file _ (by rw [hq]; rfl), hn⟩

theorem sound_insmod {q : Life} (hq : Sound q) (env : InitEnv) : Sound (q.insmod env).2 := by
  unfold Life.insmod
  cases hl : q.loaded with
  | some p => cases env.found <;> exact hq
  | none =>
    have hcount := hq.count
    rw [hl] at hcount
    cases env.found with
    | none => exact hq
    | some major =>
      dsimp only
      split
      · exact hq
      · next hnew =>
        split
        · exact {
            opened := hq.opened
            opened_nodup := hq.opened_nodup
            closed := fun h => by cases h
            major := fun l m h => by
              cases h
              exact List.mem_cons_self
            regions_nodup := List.nodup_cons.mpr ⟨hnew, hq.regions_nodup⟩
            count := congrArg Nat.succ hcount }
        · exact hq

theorem sound_rmmod {q : Life} (hq : Sound q) (interrupted : Bool) :
    Sound (q.rmmod interrupted).2 := by
  unfold Life.rmmod
  cases hl : q.loaded with
  | none => exact hq
  | some p =>
    obtain ⟨l, major⟩ := p
    have hcount := hq.count
    rw [hl] at hcount
    dsimp only
    by_cases ho : q.opened = []
    · rw [if_neg (not_not.mpr ho)]
      cases interrupted with
      | true => exact {
          opened := hq.opened
          opened_nodup := hq.opened_nodup
          closed := fun _ => ho
          major := fun l m h => by cases h
          regions_nodup := hq.regions_nodup
          count := hcount }
      | false => exact {
          opened := hq.opened
          opened_nodup := hq.opened_nodup
          closed := fun _ => ho
          major := fun l m h => by cases h
          regions_nodup := hq.regions_nodup.erase major
          count := by
            have hlen := List.length_erase_of_mem (hq.major l major hl)
            simp only [Option.isSome_some, if_true] at hcount
            simp [hlen, hcount] }
    · rw [if_pos ho]
      exact hq

theorem sound_call {q : Life} (hq : Sound q) (op : DriverOp) : Sound (q.call op).2 := by
  unfold Life.call
  cases hl : q.loaded with
  | none => exact hq
  | some p =>
    obtain ⟨l, major⟩ := p
    have hcount := hq.count
    rw [hl] at hcount
    dsimp only
    split
    · obtain ⟨ho, hn⟩ := opened_after ⟨l, q.files⟩ op hq.opened hq.opened_nodup
      exact {
        opened := ho
        opened_nodup := hn
        closed := fun h => by cases h
        major := fun l' m h => by
          obtain ⟨_, rfl⟩ := Prod.mk.inj (Option.some.inj h)
          exact hq.major l major hl
        regions_nodup := hq.regions_nodup
        count := hcount }
    · exact hq

/-- The blocks `ids`, at most eleven for each interrupted unload. -/
structure Left (F : Nat → Option (List Cell)) (ids : List Nat) (interrupted : Nat) : Prop where
  nodup : ids.Nodup
  live : ∀ id, (F id).isSome ↔ id ∈ ids
  length_le : ids.length ≤ 11 * interrupted

def Part (loaded : Option Module) (log : Option (Log × Nat)) (h : Heap) : Prop :=
  match loaded, log with
  | none, none => (∀ id, h.blocks id = none) ∧ h.limit = kmallocLimit
  | some m, some (l, major) => m.aesdMajor = major ∧ Idle ⟨m.dev, h⟩ l
  | _, _ => False

/-- The kernel and its module stand for a point of the life of the module. -/
structure Stands (s : Host) (q : Life) : Prop where
  sound : Sound q
  regions : s.regions = q.regions
  files : s.files = q.files
  refs : s.refs = q.opened
  cdev : s.cdev = q.loaded.map Prod.snd
  memory : ∃ F ids h, Beside F h s.heap ∧ Left F ids q.interrupted ∧ Part s.loaded q.loaded h

theorem stands_init : Stands Host.init Life.init where
  sound := sound_init
  regions := rfl
  files := rfl
  refs := rfl
  cdev := rfl
  memory := by
    refine ⟨fun _ => none, [], Heap.empty kmallocLimit, ⟨rfl, rfl, fun _ => .inl rfl, fun _ => rfl⟩,
      ⟨.nil, fun id => by simp, Nat.le_refl 0⟩, fun _ => rfl, rfl⟩

theorem idle_made {h : Heap} (hn : ∀ id, h.blocks id = none) (hl : h.limit = kmallocLimit) :
    Idle ⟨Driver.aesdInitModule.dev, h⟩ Log.empty := by
  have hc : contents Driver.aesdInitModule.dev.circBuf = [] := ring_init.contents_eq
  refine ⟨⟨by rw [hc]; exact ring_init, by rw [hc]; exact .nil, rfl, ?_, hl⟩, rfl⟩
  rw [entryPtrs, hc]
  exact ⟨.nil, fun id => by simp [hn, Driver.aesdInitModule]⟩

variable {s : Host} {q : Life}

theorem not_loaded (hs : Stands s q) (hl : q.loaded = none) : s.loaded = none := by
  obtain ⟨F, ids, h, _, _, hpart⟩ := hs.memory
  rw [hl] at hpart
  cases hm : s.loaded with
  | none => rfl
  | some m =>
    rw [hm] at hpart
    exact hpart.elim

theorem loaded_part (hs : Stands s q) {l : Log} {major : Nat} (hl : q.loaded = some (l, major)) :
    ∃ m, s.loaded = some m ∧ m.aesdMajor = major ∧ ∃ F ids h, Beside F h s.heap ∧
      Left F ids q.interrupted ∧ Idle ⟨m.dev, h⟩ l := by
  obtain ⟨F, ids, h, hb, hleft, hpart⟩ := hs.memory
  rw [hl] at hpart
  cases hm : s.loaded with
  | none =>
    rw [hm] at hpart
    exact hpart.elim
  | some m =>
    rw [hm] at hpart
    exact ⟨m, rfl, hpart.1, F, ids, h, hb, hleft, hpart.2⟩

theorem init_refused (s : Host) {env : InitEnv} (h : ∀ major ∈ env.found, major ∈ s.regions) :
    ∃ m, aesdInitModule s env = (-ebusy, m, s) := by
  unfold aesdInitModule allocChrdevRegion
  cases hf : env.found with
  | none => exact ⟨_, rfl⟩
  | some major =>
    have hmem : major ∈ s.regions := h major (by rw [hf]; rfl)
    simp only [hmem, if_true]
    exact ⟨_, rfl⟩

theorem init_failed {s : Host} {env : InitEnv} {major : Nat} (hf : env.found = some major)
    (hnew : major ∉ s.regions) (he : env.cdevErrno ≠ 0) :
    ∃ m, aesdInitModule s env = (-(env.cdevErrno : Int), m, s) := by
  have hne : -(env.cdevErrno : Int) ≠ 0 := by omega
  simp only [aesdInitModule, allocChrdevRegion, hf, hnew, aesdSetupCdev, cdevAdd, he, if_false,
    Int.lt_irrefl, unregisterChrdevRegion, List.erase_cons_head, ne_eq, hne, not_false_eq_true,
    if_true]
  exact ⟨_, rfl⟩

theorem init_loaded {s : Host} {env : InitEnv} {major : Nat} (hf : env.found = some major)
    (hnew : major ∉ s.regions) (he : env.cdevErrno = 0) :
    aesdInitModule s env = (0, ⟨Driver.aesdInitModule.dev, major⟩,
      { s with regions := major :: s.regions, cdev := some major }) := by
  simp [aesdInitModule, allocChrdevRegion, hf, hnew, aesdSetupCdev, cdevAdd, he]

theorem insmod_stands (hs : Stands s q) (env : InitEnv) :
    (s.insmod env).1 = (q.insmod env).1 ∧ Stands (s.insmod env).2 (q.insmod env).2 := by
  have hsound := sound_insmod hs.sound env
  have hfailed : ∀ (e : Int), e ≠ 0 → s.loaded = none → (∃ m, aesdInitModule s env = (e, m, s)) →
      s.insmod env = (⟨e, []⟩, s) := by
    rintro e he hm ⟨m, hinit⟩
    simp only [Host.insmod, hm, hinit, he, if_false]
  cases hl : q.loaded with
  | some p =>
    obtain ⟨l, major⟩ := p
    obtain ⟨m, hm, _⟩ := loaded_part hs hl
    have hq : q.insmod env = (⟨-eexist, []⟩, q) := by simp only [Life.insmod, hl]
    simp only [Host.insmod, hm, hq, true_and]
    exact hs
  | none =>
    have hm := not_loaded hs hl
    by_cases hrefused : ∀ major ∈ env.found, major ∈ q.regions
    · have hq : q.insmod env = (⟨-ebusy, []⟩, q) := by
        cases hf : env.found with
        | none => simp only [Life.insmod, hl, hf]
        | some major =>
          have hmem : major ∈ q.regions := hrefused major (by rw [hf]; rfl)
          simp only [Life.insmod, hl, hf, hmem, if_true]
      have hinit := init_refused s (by rw [hs.regions]; exact hrefused)
      rw [hfailed _ (by decide) hm hinit, hq]
      exact ⟨rfl, hs⟩
    · obtain ⟨major, hf, hnew⟩ : ∃ major, env.found = some major ∧ major ∉ q.regions := by
        simpa using hrefused
      have hnew' : major ∉ s.regions := by rwa [hs.regions]
      by_cases he : env.cdevErrno = 0
      · have hq : q.insmod env = (⟨0, []⟩,
            { q with loaded := some (Log.empty, major), regions := major :: q.regions }) := by
          simp only [Life.insmod, hl, hf, hnew, he, if_false, if_true]
        rw [hq] at hsound ⊢
        simp only [Host.insmod, hm, init_loaded hf hnew' he, if_true, true_and]
        obtain ⟨F, ids, h, hb, hleft, hpart⟩ := hs.memory
        rw [hm, hl] at hpart
        exact {
          sound := hsound
          regions := congrArg (List.cons major) hs.regions
          files := hs.files
          refs := hs.refs
          cdev := rfl
          memory := ⟨F, ids, h, hb, hleft, rfl, idle_made hpart.1 hpart.2⟩ }
      · have hq : q.insmod env = (⟨-env.cdevErrno, []⟩, q) := by
          simp only [Life.insmod, hl, hf, hnew, he, if_false]
        rw [hfailed _ (by omega) hm (init_failed hf hnew' he), hq]
        exact ⟨rfl, hs⟩

theorem call_stands (hs : Stands s q) {op : DriverOp} (ho : ¬ q.Oopses (.call op)) :
    ∃ s', s.call op = .ok ((q.call op).1, s') ∧ Stands s' (q.call op).2 := by
  have hsound := sound_call hs.sound op
  cases hl : q.loaded with
  | none =>
    have hcdev : s.cdev = none := by rw [hs.cdev, hl, Option.map_none]
    have hno : reaches s.cdev s.files op = false := by
      have hclosed : ∀ f, s.files f = none := by
        intro f
        have hf := hs.sound.opened f
        rw [hs.sound.closed hl] at hf
        rw [hs.files]
        simpa using hf
      cases op with
      | openFile f => rw [reaches, hcdev, Option.isSome_none]
      | release | write | read | llseek | ioctl => exact congrArg Option.isSome (hclosed _)
    have hq : q.call op = (refused op, q) := by simp only [Life.call, hl]
    rw [hq]
    exact ⟨s, by simp only [Host.call, hno, Bool.false_eq_true, if_false], hs⟩
  | some p =>
    obtain ⟨l, major⟩ := p
    obtain ⟨m, hm, hmajor, F, ids, h, hb, hleft, hi⟩ := loaded_part hs hl
    have hreaches : reaches s.cdev s.files op = reaches (some major) q.files op := by
      rw [hs.cdev, hl, hs.files, Option.map_some]
    cases hr : reaches (some major) q.files op with
    | false =>
      have hq : q.call op = (refused op, q) := by
        simp only [Life.call, hl, hr, Bool.false_eq_true, if_false]
      rw [hq]
      exact ⟨s, by simp only [Host.call, hreaches, hr, Bool.false_eq_true, if_false], hs⟩
    | true =>
      have himp : Implements ⟨⟨m.dev, h⟩, s.files⟩ ⟨l, q.files⟩ := ⟨hi, hs.files⟩
      obtain ⟨d, hstep, hi', hf'⟩ := vfs_implements himp fun h => ho ⟨l, major, hl, h⟩
      have hbeside : DeviceBeside F ⟨⟨m.dev, h⟩, s.files⟩ ⟨⟨m.dev, s.heap⟩, s.files⟩ :=
        ⟨⟨rfl, hb⟩, rfl⟩
      obtain ⟨⟨r, d'⟩, hstep', hret, ⟨hdev, hheap⟩, hfiles⟩ := vfsStep_beside hbeside op _ hstep
      dsimp only at hret hdev hheap hfiles
      have hq : q.call op = ((LogDevice.step ⟨l, q.files⟩ op).1,
          { q with loaded := some ((LogDevice.step ⟨l, q.files⟩ op).2.log, major)
                   files := (LogDevice.step ⟨l, q.files⟩ op).2.files
                   opened := refsAfter q.opened op (LogDevice.step ⟨l, q.files⟩ op).1 }) := by
        simp only [Life.call, hl, hr, if_true]
      rw [hq] at hsound ⊢
      refine ⟨{ s with heap := d'.kernel.heap, loaded := some { m with dev := d'.kernel.dev },
                       files := d'.files, refs := refsAfter s.refs op r }, ?_, ?_⟩
      · simp only [Host.call, hreaches, hr, hm, hstep', hret, if_true, bind, Except.bind]
      · exact {
          sound := hsound
          regions := hs.regions
          files := hfiles.trans hf'
          refs := by rw [hret, hs.refs]
          cdev := by rw [hs.cdev, hl]; rfl
          memory := by
            refine ⟨F, ids, d.kernel.heap, hheap, hleft, hmajor, ?_⟩
            rw [hdev]
            exact hi' }

theorem call_oops (hs : Stands s q) {op : DriverOp} (ho : q.Oopses (.call op)) :
    s.call op = .error .outOfBounds := by
  obtain ⟨l, major, hl, ho⟩ := ho
  obtain ⟨m, hm, -, F, ids, h, hb, -, hi⟩ := loaded_part hs hl
  cases op with
  | write file buf env =>
    obtain ⟨hopen, hw⟩ := ho
    obtain ⟨fPos, hf⟩ := Option.ne_none_iff_exists'.mp hopen
    have hf' : s.files file = some fPos := by rw [hs.files]; exact hf
    have hreaches : reaches s.cdev s.files (.write file buf env) = true := by
      simp only [reaches, DriverOp.file, hf', Option.isSome_some]
    have hshort : ¬ 2 ^ 63 ≤ buf.length := by
      rw [(List.append_eq_nil_iff.mp hw.2.2).2]
      decide
    have hbeside : KernelBeside F ⟨m.dev, h⟩ ⟨m.dev, s.heap⟩ := ⟨rfl, hb⟩
    simp only [Host.call, hreaches, if_true, hm, vfsStep, hf', hshort, if_false,
      oops_beside hbeside hi hw fPos, bind, Except.bind]
  | openFile | release | read | llseek | ioctl => exact ho.elim

def bare (h : Heap) : Heap := ⟨fun _ => none, h.next, h.limit, fun _ _ => rfl⟩

theorem beside_bare (h : Heap) : Beside h.blocks (bare h) h :=
  ⟨rfl, rfl, fun _ => .inr rfl, fun id => by rw [bare, Option.none_or]⟩

theorem freeAll_limit {h h' : Heap} {ps : List Ptr} (hf : h.freeAll ps = .ok h') :
    h'.limit = h.limit := by
  induction ps generalizing h with
  | nil =>
    cases hf
    rfl
  | cons p ps ih =>
    obtain ⟨h₁, hp, hf⟩ := bind_ok hf
    exact (ih hf).trans (Heap.free_limit hp)

theorem cleanup_limit {k k' : Kernel} {interrupted : Bool}
    (h : Driver.aesdCleanupModule k interrupted = .ok k') : k'.heap.limit = k.heap.limit := by
  obtain ⟨⟨i, k₁⟩, hlock, h⟩ := bind_ok h
  have h₁ : k₁.heap = k.heap := by
    unfold mutexLockInterruptible at hlock
    split at hlock
    · cases hlock
      rfl
    · split at hlock <;> cases hlock
      rfl
  cases i with
  | true =>
    cases h
    rw [h₁]
  | false =>
    simp only [Bool.false_eq_true, if_false, foldlM_freeEntry, freeEntry_eq] at h
    obtain ⟨heap, hring, h⟩ := bind_ok h
    obtain ⟨heap', hlast, h⟩ := bind_ok h
    unfold mutexUnlock at h
    split at h
    · cases h
      rw [← h₁, ← freeAll_limit hring]
      exact Heap.free_limit hlast
    · cases h

theorem left_interrupted {F : Nat → Option (List Cell)} {ids : List Nat} {n : Nat} {k : Kernel}
    {h' : Heap} {l : Log} (hb : Beside F k.heap h') (hleft : Left F ids n) (hi : Idle k l) :
    ∃ ids', Left h'.blocks ids' (n + 1) := by
  let own := (k.dev.partialWrite.buffptr :: entryPtrs k.dev).filterMap Ptr.id?
  have hown : ∀ id, (k.heap.blocks id).isSome ↔ id ∈ own := hi.owns.2
  refine ⟨ids ++ own, ?_, fun id => ?_, ?_⟩
  · refine List.nodup_append.mpr ⟨hleft.nodup, hi.owns.1, ?_⟩
    rintro id hid _ hid' rfl
    have hF := (hleft.live id).mpr hid
    rw [hb.absent ((hown id).mpr hid')] at hF
    cases hF
  · rw [hb.blocks, Option.isSome_or, Bool.or_eq_true, hleft.live, hown, List.mem_append, or_comm]
  · have hlen : own.length ≤ 11 := by
      have hle := List.length_filterMap_le Ptr.id? (k.dev.partialWrite.buffptr :: entryPtrs k.dev)
      have hring := hi.ring.length_le
      rw [List.length_cons, entryPtrs, List.length_map] at hle
      exact hle.trans (Nat.succ_le_succ hring)
    have hids := hleft.length_le
    rw [List.length_append]
    omega

theorem rmmod_stands (hs : Stands s q) (interrupted : Bool) :
    ∃ s', s.rmmod interrupted = .ok ((q.rmmod interrupted).1, s') ∧
      Stands s' (q.rmmod interrupted).2 := by
  have hsound := sound_rmmod hs.sound interrupted
  cases hl : q.loaded with
  | none =>
    have hq : q.rmmod interrupted = (⟨-enoent, []⟩, q) := by simp only [Life.rmmod, hl]
    rw [hq]
    exact ⟨s, by simp only [Host.rmmod, not_loaded hs hl], hs⟩
  | some p =>
    obtain ⟨l, major⟩ := p
    obtain ⟨m, hm, hmajor, F, ids, h, hb, hleft, hi⟩ := loaded_part hs hl
    by_cases ho : q.opened = []
    · have ho' : s.refs = [] := hs.refs.trans ho
      have hbeside : KernelBeside F ⟨m.dev, h⟩ ⟨m.dev, s.heap⟩ := ⟨rfl, hb⟩
      cases interrupted with
      | true =>
        have hq : q.rmmod true =
            (⟨0, []⟩, { q with loaded := none, interrupted := q.interrupted + 1 }) := by
          simp only [Life.rmmod, hl, ho, ne_eq, not_true_eq_false, if_false, if_true]
        rw [hq] at hsound ⊢
        refine ⟨{ s with cdev := none, loaded := none }, ?_, ?_⟩
        · simp only [Host.rmmod, hm]
          rw [if_neg (not_not.mpr ho')]
          rfl
        · obtain ⟨ids', hleft'⟩ := left_interrupted hb hleft hi
          exact {
            sound := hsound
            regions := hs.regions
            files := hs.files
            refs := hs.refs
            cdev := rfl
            memory := ⟨s.heap.blocks, ids', bare s.heap, beside_bare s.heap, hleft', fun _ => rfl,
              hb.limit.trans hi.limit⟩ }
      | false =>
        have hq : q.rmmod false =
            (⟨0, []⟩, { q with loaded := none, regions := q.regions.erase major }) := by
          simp only [Life.rmmod, hl, ho, ne_eq, not_true_eq_false, if_false, Bool.false_eq_true]
        rw [hq] at hsound ⊢
        obtain ⟨k, hclean, hnone⟩ := cleanup_frees hi
        obtain ⟨k', hclean', hk'⟩ := cleanup_beside hbeside false k hclean
        refine ⟨{ s with heap := k'.heap, cdev := none, loaded := none,
                         regions := s.regions.erase major }, ?_, ?_⟩
        · simp only [Host.rmmod, hm, ho', ne_eq, not_true_eq_false, if_false, aesdCleanupModule,
            cdevDel, hclean', hmajor, unregisterChrdevRegion, bind, Except.bind, Bool.false_eq_true]
        · exact {
            sound := hsound
            regions := congrArg (List.erase · major) hs.regions
            files := hs.files
            refs := hs.refs
            cdev := rfl
            memory := ⟨F, ids, k.heap, hk'.heap, hleft, hnone, (cleanup_limit hclean).trans hi.limit⟩ }
    · have hq : q.rmmod interrupted = (⟨-ewouldblock, []⟩, q) := by
        simp only [Life.rmmod, hl, ne_eq, ho, not_false_eq_true, if_true]
      have ho' : s.refs ≠ [] := by rwa [hs.refs]
      rw [hq]
      exact ⟨s, by simp only [Host.rmmod, hm, ne_eq, ho', not_false_eq_true, if_true], hs⟩

theorem step_stands (hs : Stands s q) {op : HostOp} (ho : ¬ q.Oopses op) :
    ∃ s', s.step op = .ok ((q.step op).1, s') ∧ Stands s' (q.step op).2 := by
  cases op with
  | insmod env =>
    obtain ⟨hret, hstands⟩ := insmod_stands hs env
    exact ⟨_, by rw [Host.step, Life.step, ← hret], hstands⟩
  | rmmod interrupted => exact rmmod_stands hs interrupted
  | call op => exact call_stands hs ho

theorem step_oops (hs : Stands s q) {op : HostOp} (ho : q.Oopses op) :
    s.step op = .error .outOfBounds := by
  cases op with
  | call op => exact call_oops hs ho
  | insmod env | rmmod interrupted => exact ho.elim

theorem stands_loaded (hs : Stands s q) : s.loaded.isSome = q.loaded.isSome := by
  cases hl : q.loaded with
  | none => rw [not_loaded hs hl, Option.isSome_none, Option.isSome_none]
  | some p =>
    obtain ⟨m, hm, _⟩ := loaded_part hs (show q.loaded = some (p.1, p.2) from hl)
    rw [hm, Option.isSome_some, Option.isSome_some]

/-- However often the module is loaded, used and unloaded, and whatever fails,
every call is answered as the log of the latest load answers it, and nothing goes
wrong up to the first write of no bytes that finds none pending: that one does not
return. A device number is kept for the loaded module and for each unload that was
interrupted, and no more than eleven blocks for each of these. -/
theorem module_life (ops : List HostOp) :
    (Answerable Life.step Life.Oopses Life.init ops ∧
      ∃ s, exec Host.step Host.init ops = .ok ((answers Life.step Life.init ops).1, s) ∧
        let q := (answers Life.step Life.init ops).2
        Stands s q ∧
        s.regions.length = q.interrupted + (if s.loaded.isSome then 1 else 0) ∧
        (s.loaded = none → s.refs = [] ∧ ∃ ids : List Nat, ids.length ≤ 11 * q.interrupted ∧
          ∀ id, (s.heap.blocks id).isSome ↔ id ∈ ids)) ∨
      (¬ Answerable Life.step Life.Oopses Life.init ops ∧
        exec Host.step Host.init ops = .error .outOfBounds) := by
  obtain ⟨hok, s, hx, hs⟩ | hstuck := exec_answers (f := Host.step) (R := Stands)
    (fun _ _ _ h ho => step_stands h ho) (fun _ _ _ h ho => step_oops h ho) stands_init ops
  rotate_left
  · exact .inr hstuck
  refine .inl ⟨hok, s, hx, hs, ?_, fun hm => ?_⟩
  · rw [hs.regions, stands_loaded hs]
    exact hs.sound.count
  · have hl : (answers Life.step Life.init ops).2.loaded = none := by
      have hsome := stands_loaded hs
      rw [hm, Option.isSome_none] at hsome
      exact Option.isNone_iff_eq_none.mp (Option.isSome_eq_false_iff.mp hsome.symm)
    obtain ⟨F, ids, h, hb, hleft, hpart⟩ := hs.memory
    rw [hm, hl] at hpart
    refine ⟨hs.refs.trans (hs.sound.closed hl), ids, hleft.length_le, fun id => ?_⟩
    rw [hb.alone hpart.1]
    exact hleft.live id

end Aesd.ModuleLife
