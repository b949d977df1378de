import Aesd.Interleaving

namespace Aesd.Statements

open Function
open Aesd.Lib.BlockHeap Aesd.Lib.MachineInt Aesd.Lib.Transition Aesd.Lib.Monitor
open Aesd.CircularBuffer Aesd.Driver Aesd.Refinement Aesd.LogDevice Aesd.Interleaving
open Aesd.RecordLog (newline)

/-- The rest of a call that has the lock: its statements up to the unlock, and
what it comes to. A write that compares the byte before the zero-size pointer
comes to nothing. -/
inductive Finishes (op : DriverOp) (fPos : Int) :
    Point → Kernel → Option (Reply × Kernel × Int) → Prop
  | unlock {reply : Reply} {p : Int} {k k' : Kernel} : mutexUnlock k = .ok k' →
      Finishes op fPos (.unlock reply p) k (some (reply, k', p))
  | oops {k : Kernel} : Finishes op fPos (.testNewline .zeroSize 0 0) k none
  | step {pt p : Point} {k j : Kernel} {r : Option (Reply × Kernel × Int)} :
      next op fPos k pt = .ok (p, j) → Finishes op fPos p j r → Finishes op fPos pt k r

theorem next_unlock (op : DriverOp) (fPos : Int) (k : Kernel) (reply : Reply) (p : Int) :
    next op fPos k (.unlock reply p) = .error .disabled := by
  cases op <;> rfl

theorem testByte_zeroSize (k : Kernel) (off retval : Nat) (stray : UInt8) :
    testByte k .zeroSize off retval stray = .error .outOfBounds := by
  simp only [testByte, loadByte_zeroSize]

theorem next_oops (op : DriverOp) (fPos : Int) (k : Kernel) (off retval : Nat) :
    ∃ e, next op fPos k (.testNewline .zeroSize off retval) = .error e := by
  cases op with
  | write f buf env =>
    refine ⟨.outOfBounds, ?_⟩
    simp only [next, writeNext, testByte_zeroSize, bind, Except.bind]
  | openFile | release | read | llseek | ioctl => exact ⟨.disabled, rfl⟩

variable {op : DriverOp} {fPos : Int} {pt pt' : Point} {k k' : Kernel}
variable {r : Option (Reply × Kernel × Int)}

theorem Finishes.of_next (h : Finishes op fPos pt k r) (hn : next op fPos k pt = .ok (pt', k')) :
    Finishes op fPos pt' k' r := by
  cases h with
  | unlock hu => rw [next_unlock] at hn; cases hn
  | oops =>
    obtain ⟨e, he⟩ := next_oops op fPos k 0 0
    rw [hn] at he
    cases he
  | step hn' h' =>
    rw [hn', Except.ok.injEq, Prod.mk.injEq] at hn
    obtain ⟨rfl, rfl⟩ := hn
    exact h'

theorem Finishes.of_unlock {reply : Reply} {p : Int} (h : Finishes op fPos (.unlock reply p) k r) :
    ∃ k', mutexUnlock k = .ok k' ∧ r = some (reply, k', p) := by
  cases h with
  | unlock hu => exact ⟨_, hu, rfl⟩
  | step hn _ => rw [next_unlock] at hn; cases hn

theorem Finishes.goes_on (h : Finishes op fPos pt k r) :
    (∃ reply p k', pt = .unlock reply p ∧ mutexUnlock k = .ok k') ∨
      (pt = .testNewline .zeroSize 0 0 ∧ r = none) ∨
      ∃ pt' k', next op fPos k pt = .ok (pt', k') := by
  cases h with
  | unlock hu => exact .inl ⟨_, _, _, rfl, hu⟩
  | oops => exact .inr (.inl ⟨rfl, rfl⟩)
  | step hn _ => exact .inr (.inr ⟨_, _, hn⟩)

theorem writeNext_lock {buf : List UInt8} {env : WriteEnv}
    (hn : writeNext buf env fPos k pt = .ok (pt', k')) : k'.dev.lock = k.dev.lock := by
  cases pt with
  | kmalloc =>
    simp only [writeNext] at hn
    split at hn <;> cases hn <;> rfl
  | copyPrior kmemBuf =>
    obtain ⟨_, _, hn⟩ := bind_ok hn
    obtain ⟨_, _, hn⟩ := bind_ok hn
    cases hn
    rfl
  | freePrior kmemBuf | copyFromUser kmemBuf off | testNewline kmemBuf off retval =>
    obtain ⟨_, _, hn⟩ := bind_ok hn
    cases hn
    rfl
  | freeEntry addEntryRetval retval =>
    simp only [writeNext] at hn
    split at hn
    · obtain ⟨_, _, hn⟩ := bind_ok hn
      cases hn
      rfl
    · cases hn
      rfl
  | expand kmemBuf | start kmemBuf | addCount kmemBuf off retval | addEntry retval | clear retval =>
    cases hn
    rfl
  | find | copyToUser index entryOffset | size | llseek size | seek | adjust entry byteCount
  | unlock reply p => cases hn

theorem readNext_kernel {count : Nat} {env : ReadEnv}
    (hn : readNext count env fPos k pt = .ok (pt', k')) : k' = k := by
  cases pt with
  | find =>
    simp only [readNext] at hn
    split at hn <;> cases hn <;> rfl
  | copyToUser index entryOffset =>
    obtain ⟨_, _, hn⟩ := bind_ok hn
    cases hn
    rfl
  | kmalloc | copyPrior _ | freePrior _ | expand _ | start _ | copyFromUser _ _ | addCount _ _ _
  | testNewline _ _ _ | addEntry _ | freeEntry _ _ | clear _ | size | llseek _ | seek | adjust _ _
  | unlock _ _ => cases hn

theorem llseekNext_kernel {fixedSizeLlseek : FixedSizeLlseek} {offset : Int} {whence : Nat}
    (hn : llseekNext fixedSizeLlseek offset whence fPos k pt = .ok (pt', k')) : k' = k := by
  cases pt <;> cases hn <;> rfl

theorem adjustNext_kernel {arg : AesdSeekto} (hn : adjustNext arg fPos k pt = .ok (pt', k')) :
    k' = k := by
  cases pt with
  | adjust entry byteCount =>
    simp only [adjustNext] at hn
    split at hn <;> cases hn <;> rfl
  | seek =>
    cases hn
    rfl
  | kmalloc | copyPrior _ | freePrior _ | expand _ | start _ | copyFromUser _ _ | addCount _ _ _
  | testNewline _ _ _ | addEntry _ | freeEntry _ _ | clear _ | size | llseek _ | find
  | copyToUser _ _ | unlock _ _ => cases hn

theorem next_lock (hn : Interleaving.next op fPos k pt = .ok (pt', k')) :
    k'.dev.lock = k.dev.lock := by
  cases op with
  | write f buf env => exact writeNext_lock hn
  | read f count env => rw [readNext_kernel hn]
  | llseek f fixedSizeLlseek offset whence interrupted => rw [llseekNext_kernel hn]
  | ioctl f cmd arg env => rw [adjustNext_kernel hn]
  | openFile f | release f => cases hn

section Write

variable {f : Nat} {buf : List UInt8} {env : WriteEnv} {off retval : Nat} {kmemBuf : Ptr}

theorem finishes_expand {heap heap₁ heap₂ : Heap} {prior : List Cell}
    (hload : heap.loadCells k.dev.partialWrite.buffptr 0 k.dev.partialWrite.size = .ok prior)
    (hstore : heap.store kmemBuf 0 prior = .ok heap₁)
    (hfree : heap₁.free k.dev.partialWrite.buffptr = .ok heap₂)
    (h : Finishes (.write f buf env) fPos (.copyFromUser kmemBuf k.dev.partialWrite.size)
      ⟨{ k.dev with partialWrite := ⟨kmemBuf, k.dev.partialWrite.size⟩ }, heap₂⟩ r) :
    Finishes (.write f buf env) fPos (.copyPrior kmemBuf) ⟨k.dev, heap⟩ r := by
  refine .step (p := .freePrior kmemBuf) (j := ⟨k.dev, heap₁⟩) ?_
    (.step (p := .expand kmemBuf) (j := ⟨k.dev, heap₂⟩) ?_ (.step rfl h))
  · simp only [next, writeNext, hload, hstore, bind, Except.bind]
  · simp only [next, writeNext, hfree, bind, Except.bind]

theorem finishes_grow {k₁ : Kernel}
    (hg : growPartialWrite k buf.length env.granted = .ok (some (k₁, kmemBuf, off)))
    (h : Finishes (.write f buf env) fPos (.copyFromUser kmemBuf off) k₁ r) :
    Finishes (.write f buf env) fPos .kmalloc k r := by
  unfold growPartialWrite at hg
  by_cases hp : k.dev.partialWrite.buffptr = .null
  · simp only [hp, ne_eq, not_true_eq_false, if_false] at hg
    cases hm : k.heap.malloc buf.length env.granted with
    | mk p heap =>
      rw [hm] at hg
      cases p with
      | null => cases hg
      | zeroSize | block id =>
        cases hg
        refine .step (p := .start _) (j := ⟨k.dev, heap⟩) ?_ (.step rfl h)
        simp only [next, writeNext, hp, ne_eq, not_true_eq_false, if_false, hm]
  · simp only [hp, ne_eq, not_false_eq_true, if_true] at hg
    cases hm : k.heap.malloc (sizeT (buf.length + k.dev.partialWrite.size)) env.granted with
    | mk p heap =>
      rw [hm] at hg
      cases p with
      | null => cases hg
      | zeroSize | block id =>
        obtain ⟨prior, hload, hg⟩ := bind_ok hg
        obtain ⟨heap₁, hstore, hg⟩ := bind_ok hg
        obtain ⟨heap₂, hfree, hg⟩ := bind_ok hg
        cases hg
        refine .step (j := ⟨k.dev, heap⟩) ?_ (finishes_expand hload hstore hfree h)
        simp only [next, writeNext, hp, ne_eq, not_false_eq_true, if_true, hm]

theorem finishes_refused (hg : growPartialWrite k buf.length env.granted = .ok none)
    (h : Finishes (.write f buf env) fPos (.unlock ⟨-enomem, []⟩ fPos) k r) :
    Finishes (.write f buf env) fPos .kmalloc k r := by
  unfold growPartialWrite at hg
  refine .step ?_ h
  by_cases hp : k.dev.partialWrite.buffptr = .null
  · simp only [hp, ne_eq, not_true_eq_false, if_false] at hg
    cases hm : k.heap.malloc buf.length env.granted with
    | mk p heap =>
      rw [hm] at hg
      cases p with
      | null => simp only [next, writeNext, hp, ne_eq, not_true_eq_false, if_false, hm]
      | zeroSize | block id => cases hg
  · simp only [hp, ne_eq, not_false_eq_true, if_true] at hg
    cases hm : k.heap.malloc (sizeT (buf.length + k.dev.partialWrite.size)) env.granted with
    | mk p heap =>
      rw [hm] at hg
      cases p with
      | null => simp only [next, writeNext, hp, ne_eq, not_false_eq_true, if_true, hm]
      | zeroSize | block id =>
        obtain ⟨prior, _, hg⟩ := bind_ok hg
        obtain ⟨heap₁, _, hg⟩ := bind_ok hg
        obtain ⟨heap₂, _, hg⟩ := bind_ok hg
        cases hg

theorem finishes_accept {k₁ : Kernel}
    (ha : acceptBytes k kmemBuf off buf env.uncopied = .ok (retval, k₁))
    (h : Finishes (.write f buf env) fPos (.testNewline kmemBuf off retval) k₁ r) :
    Finishes (.write f buf env) fPos (.copyFromUser kmemBuf off) k r := by
  obtain ⟨⟨left, heap⟩, hcopy, ha⟩ := bind_ok ha
  cases ha
  refine .step (p := .addCount kmemBuf off (buf.length - left)) (j := ⟨k.dev, heap⟩) ?_
    (.step rfl h)
  simp only [next, writeNext, hcopy, bind, Except.bind]

theorem finishes_commit {k₁ : Kernel} (hc : commitPartialWrite k = .ok k₁)
    (h : Finishes (.write f buf env) fPos (.unlock ⟨retval, []⟩ (loffT (fPos + retval))) k₁ r) :
    Finishes (.write f buf env) fPos (.addEntry retval) k r := by
  unfold commitPartialWrite at hc
  have hadd : Interleaving.next (.write f buf env) fPos k (.addEntry retval) = .ok
      (.freeEntry (aesdCircularBufferAddEntry k.dev.circBuf k.dev.partialWrite).1 retval,
        ⟨{ k.dev with
          circBuf := (aesdCircularBufferAddEntry k.dev.circBuf k.dev.partialWrite).2 }, k.heap⟩) := rfl
  refine .step hadd ?_
  by_cases hne : (aesdCircularBufferAddEntry k.dev.circBuf k.dev.partialWrite).1 = .null
  · simp only [hne, ne_eq, not_true_eq_false, if_false] at hc ⊢
    cases hc
    exact .step rfl (.step rfl h)
  · simp only [hne, ne_eq, not_false_eq_true, if_true] at hc
    obtain ⟨heap, hfree, hc⟩ := bind_ok hc
    cases hc
    refine .step (p := .clear retval) (j := ⟨{ k.dev with
      circBuf := (aesdCircularBufferAddEntry k.dev.circBuf k.dev.partialWrite).2 }, heap⟩) ?_
      (.step rfl h)
    simp only [next, writeNext, hne, hfree, bind, Except.bind, ne_eq, not_false_eq_true, if_true]

theorem finishes_oops {l : RecordLog.Log} (hi : Idle k l) (ho : WriteOopses l buf env) :
    Finishes (.write f buf env) fPos .kmalloc (locked k) none := by
  obtain ⟨_, hg, hempty⟩ := ho
  obtain ⟨hopen, rfl⟩ := List.append_eq_nil_iff.mp hempty
  obtain ⟨k₁, k₂, hgrow, hacc⟩ := empty_write_grows hi hopen env.uncopied
  rw [← hg] at hgrow
  exact finishes_grow hgrow (finishes_accept hacc .oops)

theorem finishes_write (hu : k.dev.lock = false) (hni : env.interrupted = false) {ret p : Int}
    (hw : aesdWrite k buf fPos env = .ok (ret, k', p)) :
    Finishes (.write f buf env) fPos .kmalloc (locked k) (some (⟨ret, []⟩, k', p)) := by
  unfold aesdWrite aesdWriteWith at hw
  obtain ⟨⟨interrupted, k₀⟩, hlock, hw⟩ := bind_ok hw
  rw [hni, lock_unlocked hu] at hlock
  cases hlock
  obtain ⟨room, hg, hw⟩ := bind_ok hw
  cases room with
  | none =>
    obtain ⟨k₁, hunlock, hw⟩ := bind_ok hw
    cases hw
    exact finishes_refused hg (.unlock hunlock)
  | some room =>
    obtain ⟨k₁, kmemBuf, off⟩ := room
    obtain ⟨⟨retval, k₂⟩, ha, hw⟩ := bind_ok hw
    obtain ⟨byte, hb, hw⟩ := bind_ok hw
    refine finishes_grow hg (finishes_accept ha ?_)
    have htest : Interleaving.next (.write f buf env) fPos k₂ (.testNewline kmemBuf off retval) =
        .ok (if byte = newline then .addEntry retval
          else .unlock ⟨retval, []⟩ (loffT (fPos + retval)), k₂) := by
      simp only [next, writeNext, hb, bind, Except.bind]
    refine .step htest ?_
    by_cases hn : byte = newline
    · simp only [if_pos hn] at hw ⊢
      obtain ⟨k₃, hc, hw⟩ := bind_ok hw
      obtain ⟨k₄, hunlock, hw⟩ := bind_ok hw
      cases hw
      exact finishes_commit hc (.unlock hunlock)
    · simp only [if_neg hn] at hw ⊢
      obtain ⟨k₃, hk, hw⟩ := bind_ok hw
      cases hk
      obtain ⟨k₄, hunlock, hw⟩ := bind_ok hw
      cases hw
      exact .unlock hunlock

end Write

theorem finishes_read {f count : Nat} {env : ReadEnv} (hu : k.dev.lock = false)
    (hni : env.interrupted = false) {ret p : Int} {bytes : List UInt8}
    (hr : aesdRead k count fPos env = .ok (ret, bytes, k', p)) :
    Finishes (.read f count env) fPos .find (locked k) (some (⟨ret, bytes⟩, k', p)) := by
  unfold aesdRead at hr
  obtain ⟨⟨interrupted, k₀⟩, hlock, hr⟩ := bind_ok hr
  rw [hni, lock_unlocked hu] at hlock
  cases hlock
  simp only [Bool.false_eq_true, if_false] at hr
  cases hfind : aesdCircularBufferFindEntryOffsetForFpos maxWriteOperationsSupported
      (locked k).dev.circBuf (toSizeT fPos) 0 with
  | none =>
    rw [hfind] at hr
    cases hr
  | some found =>
    obtain ⟨index, entryOffset⟩ := found
    rw [hfind] at hr
    cases index with
    | none =>
      obtain ⟨k₁, hunlock, hr⟩ := bind_ok hr
      cases hr
      refine .step (p := .unlock ⟨0, []⟩ fPos) (j := locked k) ?_ (.unlock hunlock)
      simp only [next, readNext, hfind]
    | some index =>
      obtain ⟨got, hload, hr⟩ := bind_ok hr
      obtain ⟨k₁, hunlock, hr⟩ := bind_ok hr
      cases hr
      refine .step (p := .copyToUser index entryOffset) (j := locked k) ?_
        (.step (j := locked k) ?_ (.unlock hunlock))
      · simp only [next, readNext, hfind]
      · simp only [next, readNext, hload, bind, Except.bind]

theorem finishes_llseek {f : Nat} {fixedSizeLlseek : FixedSizeLlseek} {offset : Int} {whence : Nat}
    (hu : k.dev.lock = false) {ret p : Int}
    (hr : aesdLlseek fixedSizeLlseek k offset whence fPos false = .ok (ret, k', p)) :
    Finishes (.llseek f fixedSizeLlseek offset whence false) fPos .size (locked k)
      (some (⟨ret, []⟩, k', p)) := by
  unfold aesdLlseek at hr
  obtain ⟨⟨interrupted, k₀⟩, hlock, hr⟩ := bind_ok hr
  rw [lock_unlocked hu] at hlock
  cases hlock
  obtain ⟨k₁, hunlock, hr⟩ := bind_ok hr
  cases hr
  exact .step rfl (.step rfl (.unlock hunlock))

theorem finishes_adjust {f cmd : Nat} {arg : AesdSeekto} {env : IoctlEnv}
    (hu : k.dev.lock = false) (hc : arg.writeCmd < maxWriteOperationsSupported) {ret p : Int}
    (hr : aesdAdjustFileOffset k arg.writeCmd arg.writeCmdOffset fPos false = .ok (ret, k', p)) :
    Finishes (.ioctl f cmd arg env) fPos .seek (locked k) (some (⟨ret, []⟩, k', p)) := by
  unfold aesdAdjustFileOffset at hr
  rw [if_neg (Nat.not_le.mpr hc)] at hr
  obtain ⟨⟨interrupted, k₀⟩, hlock, hr⟩ := bind_ok hr
  rw [lock_unlocked hu] at hlock
  cases hlock
  simp only [Bool.false_eq_true, if_false] at hr
  obtain ⟨entry, byteCount, hloop⟩ : ∃ entry byteCount, seekLoop (locked k).dev.circBuf
      arg.writeCmd (foreach (locked k).dev.circBuf) 0 0 = (entry, byteCount) := ⟨_, _, rfl⟩
  rw [hloop] at hr
  dsimp only at hr
  refine .step (p := .adjust entry byteCount) (j := locked k) ?_ ?_
  · simp only [next, adjustNext, hloop]
  by_cases hout : entry.buffptr = .null ∨ entry.size ≤ arg.writeCmdOffset
  · rw [if_pos hout] at hr
    obtain ⟨k₁, hunlock, hr⟩ := bind_ok hr
    cases hr
    refine .step (j := locked k) ?_ (.unlock hunlock)
    simp only [next, adjustNext, if_pos hout]
  · rw [if_neg hout] at hr
    obtain ⟨k₁, hunlock, hr⟩ := bind_ok hr
    cases hr
    refine .step (j := locked k) ?_ (.unlock hunlock)
    simp only [next, adjustNext, if_neg hout]

def Admitted : DriverOp → Prop
  | .write _ buf _ => buf.length < 2 ^ 63
  | .read _ _ _ | .llseek _ _ _ _ _ => True
  | .ioctl _ cmd arg env => cmd = aesdcharIocseekto ∧ env.faults = false ∧
      arg.writeCmd < maxWriteOperationsSupported
  | .openFile _ | .release _ => False

theorem entry_inl {q : Option Int} (he : entry op q = .inl fPos) : q = some fPos ∧ Admitted op := by
  cases q with
  | none => cases op <;> cases he
  | some q =>
    cases op with
    | openFile f | release f => cases he
    | read f count env | llseek f fixedSizeLlseek offset whence interrupted =>
      cases he
      exact ⟨rfl, trivial⟩
    | write f buf env =>
      rw [entry] at he
      split at he
      · cases he
      · next hc =>
        cases he
        exact ⟨rfl, Nat.lt_of_not_le hc⟩
    | ioctl f cmd arg env =>
      rw [entry] at he
      split at he
      · next hcmd =>
        split at he
        · cases he
        · next hfault =>
          split at he
          · cases he
          · next hc =>
            cases he
            exact ⟨rfl, hcmd, Bool.eq_false_iff.mpr hfault, Nat.lt_of_not_le hc⟩
      · cases he

variable {d d' : Device} {reply : Reply}

theorem vfs_refused {p : Option Int} (he : entry op (d.files op.file) = .inr (reply, p)) :
    vfsStep d op = .ok (reply, ⟨d.kernel, update d.files op.file p⟩) := by
  have hsame : ∀ q, d.files op.file = q → update d.files op.file q = d.files := by
    rintro q rfl
    exact update_eq_self _ _
  cases hf : d.files op.file with
  | none =>
    rw [hf] at he
    cases op with
    | openFile f | release f | read f count env
    | llseek f fixedSizeLlseek offset whence interrupted | write f buf env | ioctl f cmd arg env =>
      simp only [entry, Sum.inr.injEq, Prod.mk.injEq] at he
      obtain ⟨rfl, rfl⟩ := he
      simp only [DriverOp.file] at hf hsame
      simp only [vfsStep, DriverOp.file, hf, hsame]
  | some q =>
    rw [hf] at he
    have hsame := hsame (some q) hf
    cases op with
    | release f =>
      cases he
      rfl
    | read f count env | llseek f fixedSizeLlseek offset whence interrupted => cases he
    | openFile f =>
      cases he
      simp only [DriverOp.file] at hf hsame ⊢
      simp only [vfsStep, hf, hsame]
    | write f buf env =>
      rw [entry] at he
      split at he
      · next hc =>
        cases he
        simp only [DriverOp.file] at hf hsame ⊢
        simp only [vfsStep, hf, hsame, hc, if_true]
      · cases he
    | ioctl f cmd arg env =>
      rw [entry] at he
      simp only [DriverOp.file] at hf hsame ⊢
      have hreply : ∀ z, aesdUnlockedIoctl d.kernel cmd arg q env = .ok (z, d.kernel, q) →
          vfsStep d (.ioctl f cmd arg env) = .ok (⟨z, []⟩, ⟨d.kernel, update d.files f (some q)⟩) := by
        intro z hz
        simp only [vfsStep, hf, hz]
        rfl
      by_cases hcmd : cmd = aesdcharIocseekto
      · rw [if_pos hcmd] at he
        cases hfault : env.faults with
        | true =>
          rw [hfault] at he
          cases he
          exact hreply _ (by rw [aesdUnlockedIoctl, if_pos hcmd, hfault]; rfl)
        | false =>
          rw [hfault] at he
          by_cases hc : maxWriteOperationsSupported ≤ arg.writeCmd
          · rw [if_neg Bool.false_ne_true, if_pos hc] at he
            cases he
            apply hreply
            rw [aesdUnlockedIoctl, if_pos hcmd, hfault, aesdAdjustFileOffset, if_pos hc]
            rfl
          · rw [if_neg Bool.false_ne_true, if_neg hc] at he
            cases he
      · rw [if_neg hcmd] at he
        cases he
        exact hreply _ (by rw [aesdUnlockedIoctl, if_neg hcmd])

theorem vfs_interrupted (he : entry op (d.files op.file) = .inl fPos) (hi : interrupted op = true) :
    vfsStep d op = .ok (⟨-eintr, []⟩, ⟨d.kernel, update d.files op.file (some fPos)⟩) := by
  obtain ⟨hf, ha⟩ := entry_inl he
  cases op with
  | openFile f | release f => exact ha.elim
  | write f buf env =>
    have hw : aesdWrite d.kernel buf fPos env = .ok (-eintr, d.kernel, fPos) := by
      rw [aesdWrite, aesdWriteWith, show env.interrupted = true from hi]
      rfl
    simp only [DriverOp.file] at hf
    simp only [vfsStep, hf, Nat.not_le.mpr ha, if_false, hw]
    rfl
  | read f count env =>
    have hr : aesdRead d.kernel count fPos env = .ok (-eintr, [], d.kernel, fPos) := by
      rw [aesdRead, show env.interrupted = true from hi]
      rfl
    simp only [DriverOp.file] at hf
    simp only [vfsStep, hf, hr]
    rfl
  | llseek f fixedSizeLlseek offset whence interrupted =>
    obtain rfl : interrupted = true := hi
    simp only [DriverOp.file] at hf
    simp only [vfsStep, hf]
    rfl
  | ioctl f cmd arg env =>
    obtain ⟨rfl, hfault, hc⟩ := ha
    have hi' : env.interrupted = true := hi
    have hr : aesdUnlockedIoctl d.kernel aesdcharIocseekto arg fPos env =
        .ok (-eintr, d.kernel, fPos) := by
      rw [aesdUnlockedIoctl, if_pos rfl, hfault, aesdAdjustFileOffset, if_neg (Nat.not_le.mpr hc), hi']
      rfl
    simp only [DriverOp.file] at hf
    simp only [vfsStep, hf, hr]
    rfl

/-- The statements of a call, one after the other, do what the call does. -/
theorem vfs_finishes (hu : d.kernel.dev.lock = false)
    (he : entry op (d.files op.file) = .inl fPos) (hi : interrupted op = false)
    (hv : vfsStep d op = .ok (reply, d')) :
    ∃ k p, Finishes op fPos (firstPoint op) (locked d.kernel) (some (reply, k, p)) ∧
      d' = ⟨k, update d.files op.file (some p)⟩ := by
  obtain ⟨hf, ha⟩ := entry_inl he
  cases op with
  | openFile f | release f => exact ha.elim
  | write f buf env =>
    simp only [DriverOp.file] at hf
    simp only [vfsStep, hf, Nat.not_le.mpr ha, if_false] at hv
    obtain ⟨⟨ret, k, p⟩, hw, hv⟩ := bind_ok hv
    cases hv
    exact ⟨k, p, finishes_write hu hi hw, rfl⟩
  | read f count env =>
    simp only [DriverOp.file] at hf
    simp only [vfsStep, hf] at hv
    obtain ⟨⟨ret, bytes, k, p⟩, hr, hv⟩ := bind_ok hv
    cases hv
    exact ⟨k, p, finishes_read hu hi hr, rfl⟩
  | llseek f fixedSizeLlseek offset whence interrupted =>
    obtain rfl : interrupted = false := hi
    simp only [DriverOp.file] at hf
    simp only [vfsStep, hf] at hv
    obtain ⟨⟨ret, k, p⟩, hr, hv⟩ := bind_ok hv
    cases hv
    exact ⟨k, p, finishes_llseek hu hr, rfl⟩
  | ioctl f cmd arg env =>
    obtain ⟨rfl, hfault, hc⟩ := ha
    have hi' : env.interrupted = false := hi
    simp only [DriverOp.file] at hf
    simp only [vfsStep, hf] at hv
    obtain ⟨⟨ret, k, p⟩, hr, hv⟩ := bind_ok hv
    cases hv
    rw [aesdUnlockedIoctl, if_pos rfl, hfault, hi'] at hr
    exact ⟨k, p, finishes_adjust hu hc hr, rfl⟩

theorem call_oops {q : State} (hi : Idle k q.log) (ho : Oopses q op) :
    Finishes op fPos (firstPoint op) (locked k) none := by
  cases op with
  | write f buf env => exact finishes_oops hi ho.2
  | openFile f | release f | read f count env | ioctl f cmd arg env
  | llseek f fixedSizeLlseek offset whence interrupted => exact ho.elim

/-- The statements of a call that has the lock come to an end, or to nothing if
it is an empty write that finds nothing pending. -/
theorem call_finishes {q : State} (hi : Idle k q.log) (he : entry op (q.files op.file) = .inl fPos)
    (hni : interrupted op = false) :
    ∃ r, Finishes op fPos (firstPoint op) (locked k) r ∧ (r = none → Oopses q op) := by
  have himpl : Implements ⟨k, q.files⟩ q := ⟨hi, rfl⟩
  obtain ⟨ho, _⟩ | ⟨_, d', hv, _⟩ := vfs_cases himpl op
  · exact ⟨none, call_oops hi ho, fun _ => ho⟩
  · obtain ⟨k', p, hfin, _⟩ := vfs_finishes (d := ⟨k, q.files⟩) hi.unlocked he hni hv
    exact ⟨_, hfin, fun h => by cases h⟩

end Aesd.Statements
