import Aesd.Ownership

namespace Aesd.WriteLog

open Aesd.Lib.BlockHeap Aesd.Lib.Sequence Aesd.Lib.Transition Aesd.CircularBuffer
open Aesd.Driver Aesd.RecordLog Aesd.Refinement Aesd.Ownership

/-- What a call adds to the byte stream: the first `retval` bytes of a write
that gets past allocation. -/
def chunk (op : DriverOp) (r : Reply) : Option (List UInt8) :=
  match op with
  | .write _ buf _ => if r.ret < 0 then none else some (buf.take r.ret.toNat)
  | _ => none

def chunks (ops : List DriverOp) (replies : List Reply) : List (List UInt8) :=
  (ops.zip replies).filterMap fun p => chunk p.1 p.2

def endsInNewline (c : List UInt8) : Bool := c.getLast? == some newline

/-- The call was not refused: its return value is not an error, or it went
wrong after it had its memory. -/
def PastAllocation : Except Fault (Reply × Device) → Prop
  | .ok (r, _) => 0 ≤ r.ret
  | .error _ => True

instance : (x : Except Fault (Reply × Device)) → Decidable (PastAllocation x)
  | .ok (r, _) => inferInstanceAs (Decidable (0 ≤ r.ret))
  | .error _ => inferInstanceAs (Decidable True)

/-- A write that gets past allocation copies a byte or finds one pending. -/
def Progresses (d : Device) (op : DriverOp) : Prop :=
  match op with
  | .write _ buf env => PastAllocation (vfsStep d op) →
      0 < d.kernel.dev.partialWrite.size ∨ env.uncopied < buf.length
  | _ => True

def CopyOrPending (d : Device) : List DriverOp → Prop
  | [] => True
  | op :: ops => Progresses d op ∧
    match vfsStep d op with
    | .error _ => True
    | .ok (_, d') => CopyOrPending d' ops

/-- The log is the stream of chunks, cut after every chunk that ends in a
newline; what is still open is not empty and does not end in one. -/
structure Follows (l : Log) (cs : List (List UInt8)) : Prop where
  records : l.records = (cut endsInNewline cs).1.map List.flatten
  openBytes : l.openBytes = (cut endsInNewline cs).2.flatten
  pending : l.pending = none ↔ (cut endsInNewline cs).2 = []
  nonempty : (cut endsInNewline cs).2 ≠ [] → l.openBytes ≠ []
  last : l.openBytes.getLast? ≠ some newline

theorem follows_nil : Follows Log.empty [] where
  records := rfl
  openBytes := rfl
  pending := by simp [Log.empty]
  nonempty := by simp
  last := by simp [Log.openBytes, Log.empty]

/-- Unless the record would stay empty, whether it closes is decided by the
last byte of the chunk that came in. -/
theorem closes_iff {l : Log} (hl : l.openBytes.getLast? ≠ some newline) {c : List UInt8}
    (hne : l.openBytes ++ c ≠ []) (stray : UInt8) :
    (l.openBytes ++ c).getLast?.getD stray = newline ↔ endsInNewline c = true := by
  obtain ⟨b, hb⟩ : ∃ b, (l.openBytes ++ c).getLast? = some b :=
    ⟨_, List.getLast?_eq_some_getLast hne⟩
  rw [hb, Option.getD_some, endsInNewline, beq_iff_eq]
  rw [List.getLast?_append] at hb
  cases hc : c.getLast? with
  | none =>
    rw [hc, Option.none_or] at hb
    rw [hb] at hl
    simp only [reduceCtorEq, iff_false]
    exact fun he => hl (by rw [he])
  | some x =>
    rw [hc, Option.some_or, Option.some.injEq] at hb
    rw [hb, Option.some.injEq]

theorem Follows.accept {l : Log} {cs : List (List UInt8)} (hf : Follows l cs) {c : List UInt8}
    (hne : l.openBytes ++ c ≠ []) (stray : UInt8) : Follows (l.accept c stray) (cs ++ [c]) := by
  have hiff := closes_iff hf.last hne stray
  have hcat : ((cut endsInNewline cs).2 ++ [c]).flatten = l.openBytes ++ c := by
    rw [List.flatten_append, hf.openBytes, List.flatten_singleton]
  rw [Log.accept_eq]
  by_cases hc : endsInNewline c = true
  · have hcut : cut endsInNewline (cs ++ [c]) =
        ((cut endsInNewline cs).1 ++ [(cut endsInNewline cs).2 ++ [c]], []) := by
      rw [cut_snoc, if_pos hc]
    rw [if_pos (hiff.mpr hc)]
    constructor
    · rw [hcut, List.map_append, ← hf.records, List.map_singleton, hcat]
    · rw [hcut]
      rfl
    · rw [hcut]
      exact iff_of_true rfl rfl
    · rw [hcut]
      exact fun h => absurd rfl h
    · simp [Log.openBytes]
  · have hcut : cut endsInNewline (cs ++ [c]) =
        ((cut endsInNewline cs).1, (cut endsInNewline cs).2 ++ [c]) := by
      rw [cut_snoc, if_neg hc]
    have hlast := mt hiff.mp hc
    rw [if_neg hlast]
    constructor
    · rw [hcut]
      exact hf.records
    · rw [hcut]
      exact hcat.symm
    · rw [hcut]
      simp
    · exact fun _ => hne
    · exact fun he => hlast (by rw [Log.openBytes, Option.getD_some] at he; rw [he]; rfl)

theorem pending_size {h : Heap} {e : AesdBufferEntry} {l : Log} (hp : Pending h e l.pending) :
    e.size = l.openBytes.length := by
  cases hl : l.pending with
  | none =>
    rw [hl] at hp
    rw [show e = unused from hp, Log.openBytes, hl]
    rfl
  | some bs =>
    rw [hl] at hp
    rw [hp.1.1, Log.openBytes, hl]
    rfl

/-- One call of a run keeps the log in step with the stream, and does not go wrong. -/
theorem follows_step {d : Device} {l : Log} {cs : List (List UInt8)} (hi : Idle d.kernel l)
    (hf : Follows l cs) {op : DriverOp} (hp : Progresses d op) :
    ∃ r d', vfsStep d op = .ok (r, d') ∧ Idle d'.kernel (logStep l op r) ∧
      Follows (logStep l op r) (cs ++ (chunk op r).toList) := by
  have hkeeps := @vfs_keeps d l hi op
  cases op with
  | write file buf env =>
    rw [Progresses, pending_size hi.pending] at hp
    have hne : PastAllocation (vfsStep d (.write file buf env)) → l.openBytes ++ buf ≠ [] := by
      intro hpast
      have hpos := hp hpast
      rw [← List.length_pos_iff, List.length_append]
      omega
    obtain ⟨r, d', hs⟩ : ∃ r d', vfsStep d (.write file buf env) = .ok (r, d') := by
      cases hv : vfsStep d (.write file buf env) with
      | ok p => exact ⟨p.1, p.2, rfl⟩
      | error e =>
        obtain ⟨r, d', hs⟩ := vfs_write_returns hi (hne (by rw [hv]; trivial)) env
        rw [← hv]
        exact ⟨r, d', hs⟩
    refine ⟨r, d', hs, (vfs_simulates hi hs).1, ?_⟩
    by_cases hr : r.ret < 0
    · simpa [logStep, chunk, hr] using hf
    · simp only [logStep, chunk, hr, if_false, Option.toList_some]
      obtain ⟨hneg, _⟩ | ⟨hret, _⟩ := vfs_write hi hs
      · exact absurd hneg hr
      · rw [accepted_length] at hret
        have hpos := hp (by rw [hs]; exact Int.not_lt.mp hr)
        refine hf.accept ?_ env.stray
        rw [← List.length_pos_iff, List.length_append, List.length_take]
        omega
  | openFile file | release file | read file count env
  | llseek file fixed offset whence interrupted | ioctl file cmd arg env =>
    obtain ⟨r, d', hs, _⟩ := hkeeps (by simp)
    exact ⟨r, d', hs, (vfs_simulates hi hs).1, by simpa [logStep, chunk] using hf⟩

theorem chunks_cons (op : DriverOp) (ops : List DriverOp) (r : Reply) (rs : List Reply) :
    chunks (op :: ops) (r :: rs) = (chunk op r).toList ++ chunks ops rs := by
  unfold chunks
  rw [List.zip_cons_cons, List.filterMap_cons]
  cases chunk op r <;> rfl

theorem run_follows (ops : List DriverOp) {d : Device} {l : Log} {cs : List (List UInt8)}
    (hi : Idle d.kernel l) (hf : Follows l cs) (hp : CopyOrPending d ops) :
    ∃ rs d' l', exec vfsStep d ops = .ok (rs, d') ∧ Idle d'.kernel l' ∧
      Follows l' (cs ++ chunks ops rs) := by
  induction ops generalizing d l cs with
  | nil => exact ⟨[], d, l, rfl, hi, by rwa [chunks, List.zip_nil_left, List.filterMap_nil, List.append_nil]⟩
  | cons op ops ih =>
    obtain ⟨r, d₁, hs, hi₁, hf₁⟩ := follows_step hi hf hp.1
    rw [CopyOrPending, hs] at hp
    obtain ⟨rs, d', l', hx, hi', hf'⟩ := ih hi₁ hf₁ hp.2
    refine ⟨r :: rs, d', l', exec_cons hs hx, hi', ?_⟩
    rwa [chunks_cons, ← List.append_assoc]

theorem stored_loads {h : Heap} {es : List AesdBufferEntry} {bss : List (List UInt8)}
    (hs : List.Forall₂ (Stored h) es bss) :
    es.map (fun e => h.load e.buffptr 0 e.size) = bss.map .ok := by
  induction hs with
  | nil => rfl
  | cons he _ ih => rw [List.map_cons, List.map_cons, Stored.load he, ih]

/-- The ring holds the last ten closed groups of the stream of chunks, and the
partial write the bytes after them. -/
theorem write_log_is_byte_stream (ops : List DriverOp) (hp : CopyOrPending Device.init ops) :
    ∃ replies d, exec vfsStep Device.init ops = .ok (replies, d) ∧
      let k := d.kernel
      let partialWrite := k.dev.partialWrite
      let groups := (cut endsInNewline (chunks ops replies)).1
      let rest := (cut endsInNewline (chunks ops replies)).2
      (contents k.dev.circBuf).map (fun e => k.heap.load e.buffptr 0 e.size) =
          (lastN 10 groups).map (fun g => .ok g.flatten) ∧
        (rest ≠ [] → k.heap.load partialWrite.buffptr 0 partialWrite.size = .ok rest.flatten) ∧
        (partialWrite.buffptr = .null ∧ partialWrite.size = 0 ↔ rest = []) ∧
        partialWrite.size = rest.flatten.length ∧
        rest.flatten.getLast? ≠ some newline := by
  obtain ⟨replies, d, l, hx, hi, hf⟩ := run_follows ops idle_init follows_nil hp
  rw [List.nil_append] at hf
  refine ⟨replies, d, hx, ?_, fun hne => ?_, ?_, ?_, ?_⟩
  · rw [stored_loads hi.entries, hf.records, ← map_lastN, List.map_map]
    rfl
  · rw [← hf.openBytes]
    cases hl : l.pending with
    | none => exact absurd (hf.pending.mp hl) hne
    | some bs =>
      have hst := hi.pending
      rw [hl] at hst
      rw [Stored.load hst.1, Log.openBytes, hl, Option.getD_some]
  · rw [← hf.pending]
    have hst := hi.pending
    cases hl : l.pending with
    | none =>
      rw [hl] at hst
      rw [show d.kernel.dev.partialWrite = unused from hst]
      exact iff_of_true ⟨rfl, rfl⟩ rfl
    | some bs =>
      rw [hl] at hst
      exact iff_of_false (fun h => Stored.ne_null hst.1 h.1) (by simp)
  · rw [← hf.openBytes, pending_size hi.pending]
  · rw [← hf.openBytes]
    exact hf.last

/-- Two files write one record in pieces: a short copy, a call refused for want
of memory, an empty call onto the pending byte, and the start of a second record. -/
def interleavedWrites : List DriverOp :=
  [.openFile 0, .openFile 1, .write 0 [97, 98] ⟨false, true, 1, 0⟩,
    .write 1 [99] ⟨false, false, 0, 0⟩, .write 1 [] ⟨false, true, 0, 0⟩,
    .write 0 [98, newline] ⟨false, true, 0, 0⟩, .write 1 [100] ⟨false, true, 0, 0⟩]

theorem interleavedWrites_progress : CopyOrPending Device.init interleavedWrites :=
  .intro trivial <| .intro trivial <| .intro (fun _ => .inr (by decide)) <|
    .intro (fun h => absurd h (by decide)) <| .intro (fun _ => .inl (by decide)) <|
    .intro (fun _ => .inr (by decide)) <| .intro (fun _ => .inr (by decide)) trivial

theorem interleavedWrites_byte_stream :
    ∃ replies d, exec vfsStep Device.init interleavedWrites = .ok (replies, d) ∧
      let k := d.kernel
      let partialWrite := k.dev.partialWrite
      let groups := (cut endsInNewline (chunks interleavedWrites replies)).1
      let rest := (cut endsInNewline (chunks interleavedWrites replies)).2
      (contents k.dev.circBuf).map (fun e => k.heap.load e.buffptr 0 e.size) =
          (lastN 10 groups).map (fun g => .ok g.flatten) ∧
        (rest ≠ [] → k.heap.load partialWrite.buffptr 0 partialWrite.size = .ok rest.flatten) ∧
        (partialWrite.buffptr = .null ∧ partialWrite.size = 0 ↔ rest = []) ∧
        partialWrite.size = rest.flatten.length ∧
        rest.flatten.getLast? ≠ some newline :=
  write_log_is_byte_stream interleavedWrites interleavedWrites_progress

theorem closed_getLast? {cs g : List (List UInt8)} (hg : g ∈ (cut endsInNewline cs).1) :
    g.flatten.getLast? = some newline := by
  obtain ⟨pre, x, rfl, hx, _⟩ := cut_closed hg
  rw [endsInNewline, beq_iff_eq] at hx
  rw [List.flatten_append, List.flatten_singleton, List.getLast?_append, hx, Option.some_or]

theorem Stored.last {h : Heap} {e : AesdBufferEntry} {bs : List UInt8} (hs : Stored h e bs)
    {b : UInt8} (hb : bs.getLast? = some b) :
    0 < e.size ∧ h.loadByte e.buffptr ((e.size : Int) - 1) = .ok b := by
  rw [List.getLast?_eq_getElem?] at hb
  obtain ⟨hlt, hb⟩ := List.getElem?_eq_some_iff.mp hb
  have hidx : ((e.size : Int) - 1) = ((bs.length - 1 : Nat) : Int) := by
    rw [hs.1]
    omega
  refine ⟨by rw [hs.1]; omega, ?_⟩
  rw [hidx, hs.2.loadByte hlt, hb]

/-- The byte compared with the newline lies in the block of the partial write,
below its updated size. -/
def TestsAccepted (k : Kernel) (kmemBuf : Ptr) (off retval : Nat) : Prop :=
  kmemBuf = k.dev.partialWrite.buffptr ∧ 0 ≤ testIndex off retval ∧
    testIndex off retval < k.dev.partialWrite.size ∧
    ∃ b, k.heap.loadByte kmemBuf (testIndex off retval) = .ok b

theorem testsAccepted_iff {k : Kernel} {records : List (List UInt8)} {bs acc : List UInt8}
    {p : Ptr} (hr : Represents k ⟨records, some (bs ++ acc)⟩)
    (hp : k.dev.partialWrite.buffptr = p) :
    TestsAccepted k p bs.length acc.length ↔ 0 < bs.length + acc.length := by
  obtain ⟨⟨hsize, hholds⟩, _⟩ : Stored k.heap k.dev.partialWrite (bs ++ acc) ∧ _ := hr.pending
  rw [hp] at hholds
  rw [List.length_append] at hsize
  unfold TestsAccepted testIndex
  rw [hsize]
  constructor
  · rintro ⟨_, h0, h1, _⟩
    omega
  · intro hpos
    have hlt : bs.length + acc.length - 1 < (bs ++ acc).length := by
      rw [List.length_append]
      omega
    have hidx : (bs.length : Int) + ((acc.length : Int) - 1) =
        ((bs.length + acc.length - 1 : Nat) : Int) := by omega
    refine ⟨hp.symm, by omega, by omega, ?_⟩
    rw [hidx]
    exact ⟨_, hholds.loadByte hlt⟩

/-- In every reachable state the newline test reads an accepted byte exactly
when one is pending or copied. In a run where that holds at every write, each
record ends in a newline. -/
theorem newline_test_reads_accepted (ops : List DriverOp) :
    (∀ replies d, exec vfsStep Device.init ops = .ok (replies, d) →
      ∀ (buf : List UInt8) (uncopied : Nat) (granted : Bool) (k₀ k₁ : Kernel) (kmemBuf : Ptr)
        (off : Nat), buf.length < 2 ^ 63 →
        mutexLockInterruptible d.kernel false = .ok (false, k₀) →
        growPartialWrite k₀ buf.length granted = .ok (some (k₁, kmemBuf, off)) →
        ∃ retval k₂, acceptBytes k₁ kmemBuf off buf uncopied = .ok (retval, k₂) ∧
          (TestsAccepted k₂ kmemBuf off retval ↔
            0 < d.kernel.dev.partialWrite.size ∨ uncopied < buf.length)) ∧
      (CopyOrPending Device.init ops →
        ∃ replies d, exec vfsStep Device.init ops = .ok (replies, d) ∧
          ∀ e ∈ contents d.kernel.dev.circBuf,
            0 < e.size ∧ d.kernel.heap.loadByte e.buffptr ((e.size : Int) - 1) = .ok newline) := by
  refine ⟨?_, ?_⟩
  · intro replies d hx buf uncopied granted k₀ k₁ kmemBuf off hc hlock hgrow
    have hi := run_simulates hx
    rw [lock_unlocked hi.unlocked] at hlock
    obtain rfl : locked _ = k₀ := by simpa using hlock
    obtain ⟨hnone, _⟩ | ⟨_, k, p, off', hsome, hgrown⟩ := grow hi.toRepresents.locked hc granted
    · rw [hnone] at hgrow
      cases hgrow
    · rw [hgrow, Except.ok.injEq, Option.some.injEq, Prod.mk.injEq, Prod.mk.injEq] at hsome
      obtain ⟨rfl, rfl, rfl⟩ := hsome
      obtain ⟨k₂, hacc, hr, hp, _⟩ := accept_bytes hi.toRepresents.locked hgrown uncopied
      refine ⟨_, k₂, hacc, ?_⟩
      rw [hgrown.off, testsAccepted_iff hr hp, pending_size hi.pending, accepted_length]
      omega
  · intro hp
    obtain ⟨replies, d, l, hx, hi, hf⟩ := run_follows ops idle_init follows_nil hp
    refine ⟨replies, d, hx, fun e he => ?_⟩
    obtain ⟨bs, hbs, hst⟩ := stored_mem hi.entries he
    have hrec := lastN_subset 10 l.records hbs
    rw [hf.records] at hrec
    obtain ⟨g, hg, rfl⟩ := List.mem_map.mp hrec
    exact Stored.last hst (closed_getLast? hg)

/-- An empty write with nothing pending tests the byte before the zero-size
pointer, and goes wrong there. A write of a byte that is not copied tests the one
before its block, and if that is a newline a record of no bytes is committed. -/
theorem empty_write_tests_stray_byte :
    ∃ replies d k₀ k₁ kmemBuf off k₂,
      exec vfsStep Device.init [.openFile 0] = .ok (replies, d) ∧
      mutexLockInterruptible d.kernel false = .ok (false, k₀) ∧
      growPartialWrite k₀ ([] : List UInt8).length true = .ok (some (k₁, kmemBuf, off)) ∧
      acceptBytes k₁ kmemBuf off [] 0 = .ok (0, k₂) ∧
      testIndex off 0 = -1 ∧ ¬ TestsAccepted k₂ kmemBuf off 0 ∧
      vfsStep d (.write 0 [] ⟨false, true, 0, newline⟩) = .error .outOfBounds ∧
      ∃ r d', vfsStep d (.write 0 [97] ⟨false, true, 1, newline⟩) = .ok (r, d') ∧
        contents d'.kernel.dev.circBuf = [⟨.block 0, 0⟩] := by
  refine ⟨_, _, _, _, _, _, _, rfl, rfl, rfl, rfl, rfl, ?_, rfl, _, _, rfl, rfl⟩
  exact fun h => absurd h.2.1 (by decide)

end Aesd.WriteLog
