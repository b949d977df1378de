import Mathlib.Data.List.Basic

namespace Aesd.Lib.Transition

variable {σ τ α ρ ε : Type}

theorem bind_ok {x : Except ε α} {g : α → Except ε ρ} {b : ρ} (h : (x >>= g) = .ok b) :
    ∃ a, x = .ok a ∧ g a = .ok b := by
  cases x with
  | error e => cases h
  | ok a => exact ⟨a, rfl, h⟩

theorem map_ok {f : α → ρ} {x : Except ε α} {b : ρ} (h : x.map f = .ok b) :
    ∃ a, x = .ok a ∧ f a = b := by
  cases x with
  | error e => cases h
  | ok a =>
    cases h
    exact ⟨a, rfl, rfl⟩

/-- Where one computation succeeds, so does the other, with a related result. -/
def Follows (R : α → τ → Prop) (x : Except ε α) (y : Except ε τ) : Prop :=
  ∀ a, x = .ok a → ∃ b, y = .ok b ∧ R a b

theorem Follows.ok {R : α → τ → Prop} {a : α} {b : τ} (h : R a b) :
    Follows R (.ok a : Except ε α) (.ok b) := by
  intro a' ha
  cases ha
  exact ⟨b, rfl, h⟩

theorem Follows.error {R : α → τ → Prop} {e : ε} {y : Except ε τ} :
    Follows R (.error e : Except ε α) y := by
  intro a ha
  cases ha

theorem Follows.bind {R : α → τ → Prop} {S : ρ → σ → Prop} {x : Except ε α} {y : Except ε τ}
    {f : α → Except ε ρ} {g : τ → Except ε σ} (hx : Follows R x y)
    (hf : ∀ a b, R a b → Follows S (f a) (g b)) : Follows S (x >>= f) (y >>= g) := by
  intro c hc
  obtain ⟨a, ha, hc⟩ := bind_ok hc
  obtain ⟨b, hb, hr⟩ := hx a ha
  obtain ⟨d, hd, hs⟩ := hf a b hr c hc
  exact ⟨d, by rw [hb]; exact hd, hs⟩

/-- What a computation brings if it succeeds, and how it ends if it does not. -/
def Ensures (P : α → Prop) (E : ε → Prop) : Except ε α → Prop
  | .ok a => P a
  | .error e => E e

theorem Ensures.bind {P : α → Prop} {Q : ρ → Prop} {E : ε → Prop} {x : Except ε α}
    {f : α → Except ε ρ} (hx : Ensures P E x) (hf : ∀ a, P a → Ensures Q E (f a)) :
    Ensures Q E (x >>= f) := by
  cases x with
  | error e => exact hx
  | ok a => exact hf a hx

theorem Ensures.mono {P Q : α → Prop} {E G : ε → Prop} {x : Except ε α} (hx : Ensures P E x)
    (hp : ∀ a, P a → Q a) (he : ∀ e, E e → G e) : Ensures Q G x := by
  cases x with
  | error e => exact he e hx
  | ok a => exact hp a hx

/-- The rule for a loop that goes on until it ends in one of its passes. -/
theorem Ensures.foldlM {I : σ → Prop} {E : α → ε → Prop} {f : σ → α → Except ε σ} {s : σ}
    (h0 : I s) (as : List α) (hs : ∀ s a, I s → Ensures I (E a) (f s a)) :
    Ensures I (fun e => ∃ a ∈ as, E a e) (as.foldlM f s) := by
  induction as generalizing s with
  | nil => exact h0
  | cons a as ih =>
    rw [List.foldlM_cons]
    have hfirst := (hs s a h0).mono (fun _ h => h) fun e he =>
      (⟨a, List.mem_cons_self, he⟩ : ∃ b ∈ a :: as, E b e)
    refine hfirst.bind fun t ht => (ih ht).mono (fun _ h => h) ?_
    rintro e ⟨b, hb, he⟩
    exact ⟨b, List.mem_cons_of_mem a hb, he⟩

/-- Run a machine that answers each request and may get stuck, collecting
its answers in order. -/
def exec (f : σ → α → Except ε (ρ × σ)) : σ → List α → Except ε (List ρ × σ)
  | s, [] => .ok ([], s)
  | s, a :: as =>
    match f s a with
    | .error e => .error e
    | .ok (r, s') =>
      match exec f s' as with
      | .error e => .error e
      | .ok (rs, t) => .ok (r :: rs, t)

variable {f : σ → α → Except ε (ρ × σ)}

theorem exec_cons_ok {s t : σ} {a : α} {as : List α} {rs : List ρ}
    (h : exec f s (a :: as) = .ok (rs, t)) :
    ∃ r s' rs', rs = r :: rs' ∧ f s a = .ok (r, s') ∧ exec f s' as = .ok (rs', t) := by
  rw [exec] at h
  cases hf : f s a with
  | error e => simp [hf] at h
  | ok p =>
    obtain ⟨r, s'⟩ := p
    cases hx : exec f s' as with
    | error e => simp [hf, hx] at h
    | ok q =>
      obtain ⟨rs', t'⟩ := q
      simp only [hf, hx, Except.ok.injEq, Prod.mk.injEq] at h
      obtain ⟨rfl, rfl⟩ := h
      exact ⟨r, s', rs', rfl, rfl, hx⟩

theorem exec_cons {s s' t : σ} {a : α} {as : List α} {r : ρ} {rs : List ρ}
    (hf : f s a = .ok (r, s')) (hx : exec f s' as = .ok (rs, t)) :
    exec f s (a :: as) = .ok (r :: rs, t) := by
  simp [exec, hf, hx]

theorem exec_append {s t u : σ} {as bs : List α} {rs qs : List ρ}
    (h : exec f s as = .ok (rs, t)) (h' : exec f t bs = .ok (qs, u)) :
    exec f s (as ++ bs) = .ok (rs ++ qs, u) := by
  induction as generalizing s rs with
  | nil =>
    simp only [exec, Except.ok.injEq, Prod.mk.injEq] at h
    obtain ⟨rfl, rfl⟩ := h
    simpa using h'
  | cons a as ih =>
    obtain ⟨r, s', rs', rfl, hf, hx⟩ := exec_cons_ok h
    exact exec_cons hf (ih hx)

/-- A relation to an abstract state that every answered request keeps is kept by
every run: the abstract state follows the answers by a fold. -/
theorem exec_simulation {R : σ → τ → Prop} {g : τ → α → ρ → τ}
    (hs : ∀ s q a r s', R s q → f s a = .ok (r, s') → R s' (g q a r)) {s t : σ} {q : τ}
    (h0 : R s q) {as : List α} {rs : List ρ} (hx : exec f s as = .ok (rs, t)) :
    R t ((as.zip rs).foldl (fun q p => g q p.1 p.2) q) := by
  induction as generalizing s q rs with
  | nil =>
    cases hx
    exact h0
  | cons a as ih =>
    obtain ⟨r, s', rs', rfl, hf, hx'⟩ := exec_cons_ok hx
    exact ih (hs _ _ _ _ _ h0 hf) hx'

/-- The rule for a run: an invariant of the steps that succeed, and what stops
those that do not. -/
theorem Ensures.exec {I : σ → Prop} {E : ε → Prop}
    (hs : ∀ s a, I s → Ensures (fun p : ρ × σ => I p.2) E (f s a)) {s : σ} (h0 : I s)
    (as : List α) : Ensures (fun p : List ρ × σ => I p.2) E (exec f s as) := by
  induction as generalizing s with
  | nil => exact h0
  | cons a as ih =>
    have hstep := hs s a h0
    unfold Transition.exec
    cases hf : f s a with
    | error e =>
      rw [hf] at hstep
      exact hstep
    | ok p =>
      obtain ⟨r, s'⟩ := p
      rw [hf] at hstep
      have hrest := ih hstep
      simp only
      cases hx : Transition.exec f s' as with
      | error e =>
        rw [hx] at hrest
        exact hrest
      | ok q =>
        rw [hx] at hrest
        exact hrest

theorem exec_snoc {s t u : σ} {as : List α} {a : α} {rs : List ρ} {r : ρ}
    (hx : exec f s as = .ok (rs, t)) (hf : f t a = .ok (r, u)) :
    exec f s (as ++ [a]) = .ok (rs ++ [r], u) :=
  exec_append hx (exec_cons hf rfl)

theorem exec_error {P : ε → Prop} (hs : ∀ s a e, f s a = .error e → P e) {s : σ} {as : List α}
    {e : ε} (hx : exec f s as = .error e) : P e := by
  induction as generalizing s with
  | nil => cases hx
  | cons a as ih =>
    rw [exec] at hx
    cases hf : f s a with
    | error e' =>
      simp only [hf, Except.error.injEq] at hx
      subst hx
      exact hs s a e' hf
    | ok p =>
      obtain ⟨r, s'⟩ := p
      cases hr : exec f s' as with
      | error e' =>
        simp only [hf, hr, Except.error.injEq] at hx
        subst hx
        exact ih hr
      | ok q => simp [hf, hr] at hx

/-- What each step preserves, given the run so far, holds after every run. -/
theorem exec_history {s : σ} {I : List α → List ρ → σ → Prop} (h0 : I [] [] s)
    (hs : ∀ as rs t a r u, exec f s as = .ok (rs, t) → I as rs t → f t a = .ok (r, u) →
      I (as ++ [a]) (rs ++ [r]) u) {as : List α} {rs : List ρ} {t : σ}
    (hx : exec f s as = .ok (rs, t)) : I as rs t := by
  have hgen : ∀ bs pre prs s', exec f s pre = .ok (prs, s') → I pre prs s' →
      ∀ qs, exec f s' bs = .ok (qs, t) → I (pre ++ bs) (prs ++ qs) t := by
    intro bs
    induction bs with
    | nil =>
      intro pre prs s' _ hi qs hq
      simp only [exec, Except.ok.injEq, Prod.mk.injEq] at hq
      obtain ⟨rfl, rfl⟩ := hq
      simpa using hi
    | cons b bs ih =>
      intro pre prs s' hp hi qs hq
      obtain ⟨r, s'', qs', rfl, hf, hq'⟩ := exec_cons_ok hq
      have h := ih _ _ _ (exec_snoc hp hf) (hs _ _ _ _ _ _ hp hi hf) _ hq'
      simpa using h
  exact hgen as [] [] s rfl h0 rs hx

def Refines (R : σ → τ → Prop) (x : Except ε (ρ × σ)) (y : Except ε (ρ × τ)) : Prop :=
  match y with
  | .ok (r, q) => ∃ s, x = .ok (r, s) ∧ R s q
  | .error e => x = .error e

theorem exec_refines {R : σ → τ → Prop} {g : τ → α → Except ε (ρ × τ)}
    (hs : ∀ s q a, R s q → Refines R (f s a) (g q a)) {s : σ} {q : τ} (h0 : R s q)
    (as : List α) : Refines R (exec f s as) (exec g q as) := by
  induction as generalizing s q with
  | nil => exact ⟨s, rfl, h0⟩
  | cons a as ih =>
    have h := hs s q a h0
    unfold exec
    cases hg : g q a with
    | error e =>
      rw [hg, Refines] at h
      simp only [h, Refines]
    | ok p =>
      obtain ⟨r, q'⟩ := p
      rw [hg] at h
      obtain ⟨s', hf, hr⟩ := h
      have hrest := ih hr
      simp only [hf]
      cases hx : exec g q' as with
      | error e =>
        rw [hx, Refines] at hrest
        simp only [hrest, Refines]
      | ok p =>
        obtain ⟨rs, q''⟩ := p
        rw [hx] at hrest
        obtain ⟨s'', hfs, hr'⟩ := hrest
        simp only [hfs]
        exact ⟨s'', rfl, hr'⟩

theorem Refines.of_error {R : σ → τ → Prop} {x : Except ε (ρ × σ)} {y : Except ε (ρ × τ)} {e : ε}
    (h : Refines R x y) (hx : x = .error e) : y = .error e := by
  cases y with
  | error e' =>
    rw [Refines, hx] at h
    cases h
    rfl
  | ok p =>
    obtain ⟨s, hs, _⟩ := h
    rw [hx] at hs
    cases hs

theorem Refines.of_ok {R : σ → τ → Prop} {x : Except ε (ρ × σ)} {y : Except ε (ρ × τ)} {r : ρ}
    {s : σ} (h : Refines R x y) (hx : x = .ok (r, s)) : ∃ q, y = .ok (r, q) ∧ R s q := by
  cases y with
  | error e =>
    rw [Refines, hx] at h
    cases h
  | ok p =>
    obtain ⟨r', q⟩ := p
    obtain ⟨s', hs, hr⟩ := h
    rw [hx, Except.ok.injEq, Prod.mk.injEq] at hs
    obtain ⟨rfl, rfl⟩ := hs
    exact ⟨q, rfl, hr⟩

/-- The answers of a machine that never gets stuck, and its state after them. -/
def answers (g : τ → α → ρ × τ) : τ → List α → List ρ × τ
  | q, [] => ([], q)
  | q, a :: as => ((g q a).1 :: (answers g (g q a).2 as).1, (answers g (g q a).2 as).2)

theorem length_answers (g : τ → α → ρ × τ) (q : τ) (as : List α) :
    (answers g q as).1.length = as.length := by
  induction as generalizing q with
  | nil => rfl
  | cons a as ih => simp only [answers, List.length_cons, ih]

theorem answers_append (g : τ → α → ρ × τ) (q : τ) (as bs : List α) :
    answers g q (as ++ bs) = ((answers g q as).1 ++ (answers g (answers g q as).2 bs).1,
      (answers g (answers g q as).2 bs).2) := by
  induction as generalizing q with
  | nil => rfl
  | cons a as ih => simp only [List.cons_append, answers, ih]

theorem answers_take (g : τ → α → ρ × τ) (q : τ) (as : List α) (k : Nat) :
    (answers g q (as.take k)).1 = (answers g q as).1.take k := by
  induction as generalizing q k with
  | nil => simp [answers]
  | cons a as ih =>
    cases k with
    | zero => simp [answers]
    | succ k => simp only [List.take_succ_cons, answers, ih]

theorem answers_getElem? (g : τ → α → ρ × τ) (q : τ) (as : List α) (k : Nat) :
    (answers g q as).1[k]? = as[k]?.map fun a => (g (answers g q (as.take k)).2 a).1 := by
  induction as generalizing q k with
  | nil => simp [answers]
  | cons a as ih =>
    cases k with
    | zero => simp [answers]
    | succ k => simpa [answers] using ih (g q a).2 k

/-- No request meets the machine in a state in which it cannot be answered. -/
def Answerable (g : τ → α → ρ × τ) (bad : τ → α → Prop) : τ → List α → Prop
  | _, [] => True
  | q, a :: as => ¬ bad q a ∧ Answerable g bad (g q a).2 as

/-- A machine that answers what another one answers, but for requests that stop
it, has its runs as far as the first of those. -/
theorem exec_answers {R : σ → τ → Prop} {g : τ → α → ρ × τ} {bad : τ → α → Prop} {e : ε}
    (hs : ∀ s q a, R s q → ¬ bad q a → ∃ s', f s a = .ok ((g q a).1, s') ∧ R s' (g q a).2)
    (hb : ∀ s q a, R s q → bad q a → f s a = .error e) {s : σ} {q : τ} (h0 : R s q)
    (as : List α) :
    (Answerable g bad q as ∧ ∃ t, exec f s as = .ok ((answers g q as).1, t) ∧
      R t (answers g q as).2) ∨ (¬ Answerable g bad q as ∧ exec f s as = .error e) := by
  induction as generalizing s q with
  | nil => exact .inl ⟨trivial, s, rfl, h0⟩
  | cons a as ih =>
    by_cases ha : bad q a
    · exact .inr ⟨fun h => h.1 ha, by simp only [exec, hb s q a h0 ha]⟩
    · obtain ⟨s', hf, hr⟩ := hs s q a h0 ha
      obtain ⟨hok, t, hx, ht⟩ | ⟨hno, hx⟩ := ih hr
      · exact .inl ⟨⟨ha, hok⟩, t, exec_cons hf hx, ht⟩
      · exact .inr ⟨fun h => hno h.2, by simp only [exec, hf, hx]⟩

/-- A state with a rank that every move of one agent lowers, and no other move
raises: after a run the goal was reached, or the rank is lower by the moves of
the agent. -/
theorem exec_ranked {P : σ → Nat → Prop} {G : ρ → Prop} {mine : α → Bool}
    (hs : ∀ s n a r s', P s n → f s a = .ok (r, s') →
      G r ∨ ∃ n', P s' n' ∧ n' + (if mine a then 1 else 0) ≤ n)
    {s t : σ} {n : Nat} {as : List α} {rs : List ρ} (hp : P s n)
    (hx : exec f s as = .ok (rs, t)) :
    (∃ r ∈ rs, G r) ∨ ∃ n', P t n' ∧ n' + as.countP mine ≤ n := by
  induction as generalizing s n rs with
  | nil =>
    cases hx
    exact .inr ⟨n, hp, Nat.le_refl n⟩
  | cons a as ih =>
    obtain ⟨r, s', rs', rfl, hf, hx'⟩ := exec_cons_ok hx
    obtain hg | ⟨n', hp', hle⟩ := hs s n a r s' hp hf
    · exact .inl ⟨r, List.mem_cons_self, hg⟩
    · obtain ⟨r', hm, hg⟩ | ⟨n'', hp'', hle'⟩ := ih hp' hx'
      · exact .inl ⟨r', List.mem_cons_of_mem _ hm, hg⟩
      · refine .inr ⟨n'', hp'', ?_⟩
        rw [List.countP_cons]
        omega

theorem exec_reaches {P : σ → Nat → Prop} {G : ρ → Prop} {mine : α → Bool}
    (hs : ∀ s n a r s', P s n → f s a = .ok (r, s') →
      G r ∨ ∃ n', P s' n' ∧ n' + (if mine a then 1 else 0) ≤ n)
    {s t : σ} {n : Nat} {as : List α} {rs : List ρ} (hp : P s n)
    (hx : exec f s as = .ok (rs, t)) (hc : n < as.countP mine) : ∃ r ∈ rs, G r := by
  obtain hg | ⟨n', _, hle⟩ := exec_ranked hs hp hx
  · exact hg
  · omega

end Aesd.Lib.Transition
