import Aesd.Lib.Frame
import Aesd.LogDevice

namespace Aesd.Footprint

open Aesd.Lib.BlockHeap Aesd.Lib.Frame Aesd.Lib.Transition Aesd.CircularBuffer Aesd.Driver
open Aesd.Ownership
open Aesd.RecordLog (newline)
open Aesd.Refinement (Idle locked lock_unlocked empty_write_grows loadByte_zeroSize)
open Aesd.LogDevice (WriteOopses)

structure KernelBeside (F : Nat → Option (List Cell)) (k k' : Kernel) : Prop where
  dev : k'.dev = k.dev
  heap : Beside F k.heap k'.heap

/-- The same answer, from devices that differ in the blocks beside their own. -/
def Same {α : Type} (F : Nat → Option (List Cell)) (r r' : α × Kernel) : Prop :=
  r'.1 = r.1 ∧ KernelBeside F r.2 r'.2

def Returned (F : Nat → Option (List Cell)) (r r' : Int × Kernel × Int) : Prop :=
  r'.1 = r.1 ∧ KernelBeside F r.2.1 r'.2.1 ∧ r'.2.2 = r.2.2

variable {F : Nat → Option (List Cell)} {k k' : Kernel}

theorem bind_same {α β γ : Type} {S : β → γ → Prop} {x y : Except Fault (α × Kernel)}
    {f : α × Kernel → Except Fault β} {g : α × Kernel → Except Fault γ}
    (hx : Follows (Same F) x y)
    (hf : ∀ a k k', KernelBeside F k k' → Follows S (f (a, k)) (g (a, k'))) :
    Follows S (x >>= f) (y >>= g) := by
  refine hx.bind fun p p' hp => ?_
  obtain ⟨a, k⟩ := p
  obtain ⟨a', k'⟩ := p'
  obtain rfl : a' = a := hp.1
  exact hf a' k k' hp.2

theorem lock_beside (hk : KernelBeside F k k') (interrupted : Bool) :
    Follows (Same F) (mutexLockInterruptible k interrupted)
      (mutexLockInterruptible k' interrupted) := by
  unfold mutexLockInterruptible
  rw [hk.dev]
  cases interrupted with
  | true => exact .ok ⟨rfl, hk⟩
  | false =>
    simp only [Bool.false_eq_true, if_false]
    split
    · exact .error
    · exact .ok ⟨rfl, rfl, hk.heap⟩

theorem unlock_beside (hk : KernelBeside F k k') :
    Follows (KernelBeside F) (mutexUnlock k) (mutexUnlock k') := by
  unfold mutexUnlock
  rw [hk.dev]
  split
  · exact .ok ⟨rfl, hk.heap⟩
  · exact .error

theorem grow_beside (hk : KernelBeside F k k') (count : Nat) (granted : Bool) :
    Follows (Option.Rel fun r r' => KernelBeside F r.1 r'.1 ∧ r'.2 = r.2)
      (growPartialWrite k count granted) (growPartialWrite k' count granted) := by
  unfold growPartialWrite
  rw [hk.dev]
  dsimp only
  split
  · obtain ⟨hp, hm⟩ := hk.heap.malloc (Lib.MachineInt.sizeT (count + k.dev.partialWrite.size)) granted
    rcases hx : k.heap.malloc (Lib.MachineInt.sizeT (count + k.dev.partialWrite.size)) granted
      with ⟨p, heap⟩
    rcases hx' : k'.heap.malloc (Lib.MachineInt.sizeT (count + k.dev.partialWrite.size)) granted
      with ⟨p', heap'⟩
    rw [hx, hx'] at hp hm
    obtain rfl : p' = p := hp
    cases p' with
    | null => exact .ok .none
    | zeroSize | block id =>
      refine (hm.loadCells _ _ _).bind ?_
      rintro prior _ rfl
      refine (hm.store _ _ _).bind fun heap₁ heap₁' h₁ => ?_
      refine (h₁.free _).bind fun heap₂ heap₂' h₂ => ?_
      exact .ok (.some ⟨⟨rfl, h₂⟩, rfl⟩)
  · obtain ⟨hp, hm⟩ := hk.heap.malloc count granted
    rcases hx : k.heap.malloc count granted with ⟨p, heap⟩
    rcases hx' : k'.heap.malloc count granted with ⟨p', heap'⟩
    rw [hx, hx'] at hp hm
    obtain rfl : p' = p := hp
    cases p' with
    | null => exact .ok .none
    | zeroSize | block id => exact .ok (.some ⟨⟨rfl, hm⟩, rfl⟩)

theorem accept_beside (hk : KernelBeside F k k') (kmemBuf : Ptr) (off : Nat) (buf : List UInt8)
    (uncopied : Nat) : Follows (Same F) (acceptBytes k kmemBuf off buf uncopied)
      (acceptBytes k' kmemBuf off buf uncopied) := by
  unfold acceptBytes copyFromUser
  rw [hk.dev]
  refine Follows.bind (R := fun r r' => r'.1 = r.1 ∧ Beside F r.2 r'.2) ?_ ?_
  · exact (hk.heap.store _ _ _).bind fun heap heap' h => .ok ⟨rfl, h⟩
  · rintro ⟨left, heap⟩ ⟨_, heap'⟩ ⟨rfl, h⟩
    exact .ok ⟨rfl, rfl, h⟩

theorem test_beside (hk : KernelBeside F k k') (kmemBuf : Ptr) (off retval : Nat) (stray : UInt8) :
    Follows Eq (testByte k kmemBuf off retval stray) (testByte k' kmemBuf off retval stray) := by
  intro b hb
  refine ⟨b, ?_, rfl⟩
  unfold testByte at hb ⊢
  rw [hk.heap.loadByte fun h => ?_]
  · exact hb
  · rw [h] at hb
    cases kmemBuf <;> cases hb

theorem commit_beside (hk : KernelBeside F k k') :
    Follows (KernelBeside F) (commitPartialWrite k) (commitPartialWrite k') := by
  unfold commitPartialWrite
  rw [hk.dev]
  dsimp only
  split
  · exact (hk.heap.free _).bind fun heap heap' h => .ok ⟨rfl, h⟩
  · exact .ok ⟨rfl, hk.heap⟩

theorem write_beside (hk : KernelBeside F k k') (buf : List UInt8) (fPos : Int) (env : WriteEnv) :
    Follows (Returned F) (aesdWrite k buf fPos env) (aesdWrite k' buf fPos env) := by
  unfold aesdWrite aesdWriteWith
  refine bind_same (lock_beside hk _) fun interrupted k₁ k₁' h₁ => ?_
  dsimp only
  split
  · exact .ok ⟨rfl, h₁, rfl⟩
  · refine (grow_beside h₁ _ _).bind ?_
    rintro _ _ (hsome | _)
    · rename_i r r'
      obtain ⟨k₂, kmemBuf, off⟩ := r
      obtain ⟨k₂', _⟩ := r'
      obtain ⟨h₂, rfl⟩ := hsome
      refine bind_same (accept_beside h₂ kmemBuf off buf env.uncopied) fun retval k₃ k₃' h₃ => ?_
      refine (test_beside h₃ kmemBuf off retval env.stray).bind ?_
      rintro byte _ rfl
      split
      · exact (commit_beside h₃).bind fun k₄ k₄' h₄ =>
          (unlock_beside h₄).bind fun k₅ k₅' h₅ => .ok ⟨rfl, h₅, rfl⟩
      · exact (unlock_beside h₃).bind fun k₄ k₄' h₄ => .ok ⟨rfl, h₄, rfl⟩
    · exact (unlock_beside h₁).bind fun k₂ k₂' h₂ => .ok ⟨rfl, h₂, rfl⟩

theorem oops_beside (hk : KernelBeside F k k') {l : RecordLog.Log} (hi : Idle k l)
    {buf : List UInt8} {env : WriteEnv} (ho : WriteOopses l buf env) (fPos : Int) :
    aesdWrite k' buf fPos env = .error .outOfBounds := by
  obtain ⟨hni, hg, hempty⟩ := ho
  obtain ⟨hopen, rfl⟩ := List.append_eq_nil_iff.mp hempty
  have hu : k'.dev.lock = false := by rw [hk.dev, hi.unlocked]
  have hlocked : KernelBeside F (locked k) (locked k') :=
    ⟨by simp only [locked, hk.dev], hk.heap⟩
  obtain ⟨k₁, k₂, hgrow, hacc⟩ := empty_write_grows hi hopen env.uncopied
  rw [← hg] at hgrow
  obtain ⟨_, hgrow', hsome⟩ := grow_beside hlocked 0 env.granted _ hgrow
  cases hsome with
  | some hrel =>
    obtain ⟨hk₁, hptr⟩ := hrel
    obtain ⟨⟨_, k₂'⟩, hacc', rfl, _⟩ := accept_beside hk₁ _ _ _ _ _ hacc
    simp only [Prod.ext_iff] at hptr
    simp only [aesdWrite, aesdWriteWith, hni, lock_unlocked hu, List.length_nil, hgrow', hptr.1,
      hptr.2, hacc', testByte, loadByte_zeroSize, bind, Except.bind, Bool.false_eq_true, if_false]

theorem read_beside (hk : KernelBeside F k k') (count : Nat) (fPos : Int) (env : ReadEnv) :
    Follows (fun r r' => r'.1 = r.1 ∧ Returned F (0, r.2.2) (0, r'.2.2) ∧ r'.2.1 = r.2.1)
      (aesdRead k count fPos env) (aesdRead k' count fPos env) := by
  unfold aesdRead
  refine bind_same (lock_beside hk _) fun interrupted k₁ k₁' h₁ => ?_
  dsimp only
  rw [h₁.dev]
  split
  · exact .ok ⟨rfl, ⟨rfl, h₁, rfl⟩, rfl⟩
  · generalize aesdCircularBufferFindEntryOffsetForFpos maxWriteOperationsSupported
      k₁.dev.circBuf (Lib.MachineInt.toSizeT fPos) 0 = found
    obtain _ | ⟨_ | index, entryOffset⟩ := found
    · exact .error
    · exact (unlock_beside h₁).bind fun k₂ k₂' h₂ => .ok ⟨rfl, ⟨rfl, h₂, rfl⟩, rfl⟩
    · refine (h₁.heap.load _ _ _).bind ?_
      rintro bytes _ rfl
      exact (unlock_beside h₁).bind fun k₂ k₂' h₂ => .ok ⟨rfl, ⟨rfl, h₂, rfl⟩, rfl⟩

theorem llseek_beside (hk : KernelBeside F k k') (fixedSizeLlseek : FixedSizeLlseek) (offset : Int)
    (whence : Nat) (fPos : Int) (interrupted : Bool) :
    Follows (Returned F) (aesdLlseek fixedSizeLlseek k offset whence fPos interrupted)
      (aesdLlseek fixedSizeLlseek k' offset whence fPos interrupted) := by
  unfold aesdLlseek
  refine bind_same (lock_beside hk _) fun interrupted k₁ k₁' h₁ => ?_
  dsimp only
  rw [h₁.dev]
  split
  · exact .ok ⟨rfl, h₁, rfl⟩
  · exact (unlock_beside h₁).bind fun k₂ k₂' h₂ => .ok ⟨rfl, h₂, rfl⟩

theorem adjust_beside (hk : KernelBeside F k k') (writeCmd writeCmdOffset : Nat) (fPos : Int)
    (interrupted : Bool) :
    Follows (Returned F) (aesdAdjustFileOffset k writeCmd writeCmdOffset fPos interrupted)
      (aesdAdjustFileOffset k' writeCmd writeCmdOffset fPos interrupted) := by
  unfold aesdAdjustFileOffset
  split
  · exact .ok ⟨rfl, hk, rfl⟩
  · refine bind_same (lock_beside hk _) fun interrupted k₁ k₁' h₁ => ?_
    dsimp only
    rw [h₁.dev]
    split
    · exact .ok ⟨rfl, h₁, rfl⟩
    · split <;> exact (unlock_beside h₁).bind fun k₂ k₂' h₂ => .ok ⟨rfl, h₂, rfl⟩

theorem ioctl_beside (hk : KernelBeside F k k') (cmd : Nat) (arg : AesdSeekto) (fPos : Int)
    (env : IoctlEnv) : Follows (Returned F) (aesdUnlockedIoctl k cmd arg fPos env)
      (aesdUnlockedIoctl k' cmd arg fPos env) := by
  unfold aesdUnlockedIoctl
  split
  · split
    · exact .ok ⟨rfl, hk, rfl⟩
    · exact adjust_beside hk _ _ _ _
  · exact .ok ⟨rfl, hk, rfl⟩

theorem cleanup_beside (hk : KernelBeside F k k') (interrupted : Bool) :
    Follows (KernelBeside F) (aesdCleanupModule k interrupted)
      (aesdCleanupModule k' interrupted) := by
  unfold aesdCleanupModule
  refine bind_same (lock_beside hk _) fun interrupted k₁ k₁' h₁ => ?_
  dsimp only
  rw [h₁.dev]
  split
  · exact .ok h₁
  · simp only [foldlM_freeEntry, freeEntry_eq]
    refine (h₁.heap.freeAll _).bind fun heap heap' h => ?_
    refine (h.free _).bind fun heap₁ heap₁' h' => ?_
    exact unlock_beside ⟨rfl, h'⟩

structure DeviceBeside (F : Nat → Option (List Cell)) (d d' : Device) : Prop where
  kernel : KernelBeside F d.kernel d'.kernel
  files : d'.files = d.files

theorem vfsStep_beside {d d' : Device} (hd : DeviceBeside F d d') (op : DriverOp) :
    Follows (fun r r' => r'.1 = r.1 ∧ DeviceBeside F r.2 r'.2) (vfsStep d op) (vfsStep d' op) := by
  obtain ⟨kernel, files⟩ := d
  obtain ⟨kernel', files'⟩ := d'
  obtain ⟨hk, hf⟩ := hd
  obtain rfl : files' = files := hf
  have hfinish : ∀ (file : Nat) (x y : Except Fault (Int × Kernel × Int)), Follows (Returned F) x y →
      Follows (fun r r' => r'.1 = r.1 ∧ DeviceBeside F r.2 r'.2)
        (do .ok (Device.finish file (← x) ⟨kernel, files'⟩))
        (do .ok (Device.finish file (← y) ⟨kernel', files'⟩)) := by
    intro file x y hxy
    refine hxy.bind fun r r' hr => ?_
    obtain ⟨hret, hk', hpos⟩ := hr
    refine .ok ⟨?_, hk', ?_⟩
    · simp only [Device.finish, hret]
    · simp only [Device.finish, hpos]
  cases op with
  | openFile file =>
    simp only [vfsStep]
    cases files' file with
    | some p => exact .ok ⟨rfl, hk, rfl⟩
    | none => exact .ok ⟨rfl, hk, rfl⟩
  | release file => exact .ok ⟨rfl, hk, rfl⟩
  | write file buf env =>
    simp only [vfsStep]
    cases files' file with
    | none => exact .ok ⟨rfl, hk, rfl⟩
    | some fPos =>
      dsimp only
      split
      · exact .ok ⟨rfl, hk, rfl⟩
      · exact hfinish file _ _ (write_beside hk buf fPos env)
  | read file count env =>
    simp only [vfsStep]
    cases files' file with
    | none => exact .ok ⟨rfl, hk, rfl⟩
    | some fPos =>
      refine (read_beside hk count fPos env).bind fun r r' hr => ?_
      obtain ⟨ret, bytes, k₁, pos⟩ := r
      obtain ⟨ret', bytes', k₁', pos'⟩ := r'
      obtain ⟨rfl, ⟨_, hk₁, rfl⟩, rfl⟩ := hr
      exact .ok ⟨rfl, hk₁, rfl⟩
  | llseek file fixedSizeLlseek offset whence interrupted =>
    simp only [vfsStep]
    cases files' file with
    | none => exact .ok ⟨rfl, hk, rfl⟩
    | some fPos =>
      exact hfinish file _ _ (llseek_beside hk fixedSizeLlseek offset whence fPos interrupted)
  | ioctl file cmd arg env =>
    simp only [vfsStep]
    cases files' file with
    | none => exact .ok ⟨rfl, hk, rfl⟩
    | some fPos => exact hfinish file _ _ (ioctl_beside hk cmd arg fPos env)

end Aesd.Footprint
