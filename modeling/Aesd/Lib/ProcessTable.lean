import Mathlib.Logic.Function.Basic

namespace Aesd.Lib.ProcessTable

abbrev Signal := { n : Nat // 0 < n ∧ n ≤ 64 }

inductive Fate
  | exited (status : Fin 256)
  | killed (signal : Signal) (core : Bool)
  deriving DecidableEq

/-- The status word `wait` stores: an exit status in bits 8 to 15, or a signal in
the low seven bits with the core flag above it. -/
def Fate.word : Fate → Nat
  | .exited status => status.val <<< 8
  | .killed signal core => signal.val + if core then 0x80 else 0

def wtermsig (word : Nat) : Nat := word &&& 0x7f

def wifexited (word : Nat) : Bool := wtermsig word = 0

def wexitstatus (word : Nat) : Nat := (word &&& 0xff00) >>> 8

theorem wtermsig_eq (word : Nat) : wtermsig word = word % 128 :=
  Nat.and_two_pow_sub_one_eq_mod word 7

theorem wifexited_exited (status : Fin 256) : wifexited (Fate.exited status).word = true := by
  have h : wtermsig (Fate.exited status).word = 0 := by
    rw [wtermsig_eq, Fate.word, Nat.shiftLeft_eq]
    omega
  exact decide_eq_true h

theorem wifexited_killed (signal : Signal) (core : Bool) :
    wifexited (Fate.killed signal core).word = false := by
  have hsignal := signal.property
  have h : wtermsig (Fate.killed signal core).word = signal.val := by
    rw [wtermsig_eq, Fate.word]
    split <;> omega
  exact decide_eq_false (by omega)

theorem wexitstatus_exited (status : Fin 256) : wexitstatus (Fate.exited status).word = status := by
  rw [wexitstatus, Nat.shiftRight_and_distrib, Fate.word, Nat.shiftLeft_shiftRight]
  have h : (0xff00 : Nat) >>> 8 = 2 ^ 8 - 1 := by decide
  rw [h, Nat.and_two_pow_sub_one_eq_mod]
  exact Nat.mod_eq_of_lt status.isLt

/-- A child that has ended stays until it is waited for. -/
inductive Child
  | running
  | zombie (fate : Fate)
  deriving DecidableEq

abbrev Children (Pid : Type) := Pid → Option Child

variable {Pid : Type} [DecidableEq Pid] {t t' : Children Pid} {pid : Pid}

def fork (t : Children Pid) (pid : Pid) : Option (Children Pid) :=
  if t pid = none then some (Function.update t pid (some .running)) else none

def terminate (t : Children Pid) (pid : Pid) (fate : Fate) : Option (Children Pid) :=
  if t pid = some .running then some (Function.update t pid (some (.zombie fate))) else none

/-- `wait` returns any child that has ended: its status word, and the children left. -/
def wait (t : Children Pid) (pid : Pid) : Option (Nat × Children Pid) :=
  match t pid with
  | some (.zombie fate) => some (fate.word, Function.update t pid none)
  | _ => none

theorem fork_eq_some (h : fork t pid = some t') :
    t pid = none ∧ t' = Function.update t pid (some .running) := by
  unfold fork at h
  split at h
  · next hpid => exact ⟨hpid, (Option.some.inj h).symm⟩
  · cases h

theorem terminate_eq_some {fate : Fate} (h : terminate t pid fate = some t') :
    t pid = some .running ∧ t' = Function.update t pid (some (.zombie fate)) := by
  unfold terminate at h
  split at h
  · next hpid => exact ⟨hpid, (Option.some.inj h).symm⟩
  · cases h

theorem wait_eq_some {word : Nat} (h : wait t pid = some (word, t')) :
    ∃ fate, t pid = some (.zombie fate) ∧ word = fate.word ∧ t' = Function.update t pid none := by
  unfold wait at h
  cases hpid : t pid with
  | none => simp [hpid] at h
  | some child =>
    cases child with
    | running => simp [hpid] at h
    | zombie fate =>
      simp only [hpid, Option.some.injEq, Prod.mk.injEq] at h
      exact ⟨fate, rfl, h.1.symm, h.2.symm⟩

def SameExcept (pid : Pid) (t t' : Children Pid) : Prop :=
  ∀ other, other ≠ pid → (t' other).isSome = (t other).isSome

theorem SameExcept.update {t₀ : Children Pid} (h : SameExcept pid t₀ t) (child : Option Child) :
    SameExcept pid t₀ (Function.update t pid child) := by
  intro other hne
  rw [Function.update_of_ne hne]
  exact h other hne

theorem SameExcept.terminate {t₀ : Children Pid} (h : SameExcept pid t₀ t) {ended : Pid}
    {fate : Fate} (ht : ProcessTable.terminate t ended fate = some t') : SameExcept pid t₀ t' := by
  obtain ⟨hrun, rfl⟩ := terminate_eq_some ht
  intro other hne
  by_cases he : other = ended
  · rw [he, Function.update_self, ← h ended (he ▸ hne), hrun]
    rfl
  · rw [Function.update_of_ne he]
    exact h other hne

theorem SameExcept.wait_iff {t₀ : Children Pid} (h : SameExcept pid t₀ t) {pick : Pid}
    {word : Nat} (hpid : (t pid).isSome) (hw : wait t pick = some (word, t')) :
    t' pid = none ∧ SameExcept pid t₀ t' ↔ pick = pid := by
  obtain ⟨fate, _, _, rfl⟩ := wait_eq_some hw
  constructor
  · rintro ⟨hnone, _⟩
    by_contra hne
    rw [Function.update_of_ne (Ne.symm hne)] at hnone
    simp [hnone] at hpid
  · rintro rfl
    exact ⟨Function.update_self _ _ _, h.update none⟩

end Aesd.Lib.ProcessTable
