import Mathlib.Data.List.Basic
import Mathlib.Logic.Function.Basic

namespace Aesd.Lib.Monitor

open Function

variable {ι π σ ε : Type}

/-- What tasks that share a state under one lock may do: a task moves alone,
without a look at what is shared, or takes the lock, moves inside its section,
and gives the lock up. Every move shows an event. -/
structure Discipline (ι π σ ε : Type) where
  alone : ι → π → ε → π → Prop
  enter : ι → π → σ → ε → π → σ → Prop
  inside : ι → π → σ → ε → π → σ → Prop
  leave : ι → π → σ → ε → π → σ → Prop

structure System (ι π σ : Type) where
  owner : Option ι
  shared : σ
  tasks : ι → π

/-- A task that has taken the lock and gone on inside its section, with nobody
else moving. -/
inductive Entered (D : Discipline ι π σ ε) (i : ι) (p : π) (q : σ) : List ε → π → σ → Prop
  | enter {e : ε} {p' : π} {q' : σ} : D.enter i p q e p' q' → Entered D i p q [e] p' q'
  | inside {es : List ε} {e : ε} {p' p'' : π} {q' q'' : σ} : Entered D i p q es p' q' →
      D.inside i p' q' e p'' q'' → Entered D i p q (es ++ [e]) p'' q''

inductive Section (D : Discipline ι π σ ε) (i : ι) (p : π) (q : σ) : List ε → π → σ → Prop
  | leave {es : List ε} {e : ε} {p' p'' : π} {q' q'' : σ} : Entered D i p q es p' q' →
      D.leave i p' q' e p'' q'' → Section D i p q (es ++ [e]) p'' q''

/-- What a task does at one go when the others stand still. -/
inductive Turn (ι ε : Type)
  | alone (i : ι) (e : ε)
  | whole (i : ι) (es : List ε)

def Turn.events : Turn ι ε → List (ι × ε)
  | .alone i e => [(i, e)]
  | .whole i es => es.map fun e => (i, e)

def eventsOf (turns : List (Turn ι ε)) : List (ι × ε) := turns.flatMap Turn.events

@[simp] theorem eventsOf_nil : eventsOf ([] : List (Turn ι ε)) = [] := rfl

@[simp] theorem eventsOf_snoc (turns : List (Turn ι ε)) (u : Turn ι ε) :
    eventsOf (turns ++ [u]) = eventsOf turns ++ u.events := by
  simp [eventsOf]

def Outward (D : Discipline ι π σ ε) (shown : ε → Bool) : Prop :=
  (∀ i p q e p' q', D.enter i p q e p' q' → shown e = false) ∧
    ∀ i p q e p' q', D.inside i p q e p' q' → shown e = false

theorem Outward.entered {D : Discipline ι π σ ε} {shown : ε → Bool} (h : Outward D shown) {i : ι}
    {p p' : π} {q q' : σ} {es : List ε} (he : Entered D i p q es p' q') :
    ∀ e ∈ es, shown e = false := by
  induction he with
  | enter hm =>
    intro e he
    rw [List.mem_singleton.mp he]
    exact h.1 _ _ _ _ _ _ hm
  | inside _ hm ih =>
    intro e he
    obtain he | he := List.mem_append.mp he
    · exact ih e he
    · rw [List.mem_singleton.mp he]
      exact h.2 _ _ _ _ _ _ hm

def Inward (D : Discipline ι π σ ε) (shown : ε → Bool) : Prop :=
  ∀ i p e p', D.alone i p e p' → shown e = false

variable [DecidableEq ι]

inductive Move (D : Discipline ι π σ ε) (s : System ι π σ) (i : ι) (e : ε) : System ι π σ → Prop
  | alone {p : π} : s.owner ≠ some i → D.alone i (s.tasks i) e p →
      Move D s i e ⟨s.owner, s.shared, update s.tasks i p⟩
  | enter {p : π} {q : σ} : s.owner = none → D.enter i (s.tasks i) s.shared e p q →
      Move D s i e ⟨some i, q, update s.tasks i p⟩
  | inside {p : π} {q : σ} : s.owner = some i → D.inside i (s.tasks i) s.shared e p q →
      Move D s i e ⟨some i, q, update s.tasks i p⟩
  | leave {p : π} {q : σ} : s.owner = some i → D.leave i (s.tasks i) s.shared e p q →
      Move D s i e ⟨none, q, update s.tasks i p⟩

inductive Run (D : Discipline ι π σ ε) (s : System ι π σ) : List (ι × ε) → System ι π σ → Prop
  | nil : Run D s [] s
  | snoc {es : List (ι × ε)} {t u : System ι π σ} {i : ι} {e : ε} : Run D s es t →
      Move D t i e u → Run D s (es ++ [(i, e)]) u

/-- Turns one after the other: no section is interrupted. -/
inductive Serial (D : Discipline ι π σ ε) (ts : ι → π) (q : σ) :
    List (Turn ι ε) → (ι → π) → σ → Prop
  | nil : Serial D ts q [] ts q
  | alone {turns : List (Turn ι ε)} {ts' : ι → π} {q' : σ} {i : ι} {e : ε} {p : π} :
      Serial D ts q turns ts' q' → D.alone i (ts' i) e p →
      Serial D ts q (turns ++ [.alone i e]) (update ts' i p) q'
  | whole {turns : List (Turn ι ε)} {ts' : ι → π} {q' q'' : σ} {i : ι} {es : List ε} {p : π} :
      Serial D ts q turns ts' q' → Section D i (ts' i) q' es p q'' →
      Serial D ts q (turns ++ [.whole i es]) (update ts' i p) q''

def Pending (D : Discipline ι π σ ε) (ts : ι → π) (q : σ) (s : System ι π σ) (es : List (ι × ε)) :
    Prop :=
  match s.owner with
  | none => es = [] ∧ s.tasks = ts ∧ s.shared = q
  | some i => ∃ es' p, es = es'.map (fun e => (i, e)) ∧ Entered D i (ts i) q es' p s.shared ∧
      s.tasks = update ts i p

def ofTask (i : ι) (es : List (ι × ε)) : List (ι × ε) := es.filter fun p => p.1 = i

@[simp] theorem ofTask_append (i : ι) (es es' : List (ι × ε)) :
    ofTask i (es ++ es') = ofTask i es ++ ofTask i es' := List.filter_append ..

theorem ofTask_map_ne {i j : ι} (h : j ≠ i) (es : List ε) :
    ofTask i (es.map fun e => (j, e)) = [] := by
  simp [ofTask, h]

/-- The events of a run, put in the order of turns: each task's own events keep
their order, and so do those outside the sections, and those inside them. -/
structure SameOrder (D : Discipline ι π σ ε) (es es' : List (ι × ε)) : Prop where
  each : ∀ i, ofTask i es = ofTask i es'
  shown : ∀ shown, Outward D shown →
    es.filter (fun p => shown p.2) = es'.filter fun p => shown p.2
  inner : ∀ shown, Inward D shown →
    es.filter (fun p => shown p.2) = es'.filter fun p => shown p.2

variable {D : Discipline ι π σ ε}

theorem SameOrder.refl (es : List (ι × ε)) : SameOrder D es es :=
  ⟨fun _ => rfl, fun _ _ => rfl, fun _ _ => rfl⟩

theorem SameOrder.append {es es' : List (ι × ε)} (h : SameOrder D es es') (fs : List (ι × ε)) :
    SameOrder D (es ++ fs) (es' ++ fs) where
  each i := by rw [ofTask_append, ofTask_append, h.each]
  shown f hf := by rw [List.filter_append, List.filter_append, h.shown f hf]
  inner f hf := by rw [List.filter_append, List.filter_append, h.inner f hf]

theorem SameOrder.before {es before : List (ι × ε)} {i j : ι} {e : ε} {p p' r r' : π} {q q' : σ}
    {es' : List ε} (hij : i ≠ j) (he : Entered D i p q es' p' q') (ha : D.alone j r e r')
    (h : SameOrder D es (before ++ es'.map fun e => (i, e))) :
    SameOrder D (es ++ [(j, e)]) ((before ++ [(j, e)]) ++ es'.map fun e => (i, e)) where
  each k := by
    have hk := h.each k
    by_cases hjk : j = k
    · rw [← hjk] at hk ⊢
      rw [ofTask_append, hk, ofTask_append, ofTask_append, ofTask_append, ofTask_map_ne hij,
        List.append_nil, List.append_nil]
    · have hnil : ofTask k [(j, e)] = [] := ofTask_map_ne hjk [e]
      rw [ofTask_append, hk, ofTask_append, ofTask_append, ofTask_append, hnil, List.append_nil,
        List.append_nil]
  shown f hf := by
    have hnil : (es'.map fun e => (i, e)).filter (fun p => f p.2) = [] := by
      apply List.filter_eq_nil_iff.mpr
      intro x hx
      obtain ⟨y, hy, rfl⟩ := List.mem_map.mp hx
      simp [hf.entered he y hy]
    have hs := h.shown f hf
    rw [List.filter_append, hnil, List.append_nil] at hs
    rw [List.filter_append, List.filter_append, List.filter_append, hnil, List.append_nil, hs]
  inner f hf := by
    have hnil : [(j, e)].filter (fun p => f p.2) = [] := by
      simp [hf j r e r' ha]
    rw [List.filter_append, h.inner f hf, List.filter_append, List.filter_append,
      List.filter_append, hnil, List.append_nil, List.append_nil]

/-- Whatever order the tasks move in, the run is one in which every section was
made at one go, and the last one may be under way. -/
theorem run_serialises {ts : ι → π} {q : σ} {es : List (ι × ε)} {s : System ι π σ}
    (h : Run D ⟨none, q, ts⟩ es s) :
    ∃ turns ts' q' pending, Serial D ts q turns ts' q' ∧ Pending D ts' q' s pending ∧
      SameOrder D es (eventsOf turns ++ pending) := by
  induction h with
  | nil => exact ⟨[], ts, q, [], .nil, ⟨rfl, rfl, rfl⟩, .refl _⟩
  | @snoc es t u j e _ hm ih =>
    obtain ⟨turns, ts', q', pending, hser, hpend, hsame⟩ := ih
    unfold Pending at hpend
    cases hm with
    | @alone p hne hp =>
      cases ho : t.owner with
      | none =>
        simp only [ho] at hpend
        obtain ⟨rfl, ht, hq⟩ := hpend
        rw [ht] at hp
        refine ⟨turns ++ [.alone j e], update ts' j p, q', [], hser.alone hp, ?_, ?_⟩
        · rw [Pending, ht]
          exact ⟨rfl, rfl, hq⟩
        · rw [List.append_nil] at hsame ⊢
          rw [eventsOf_snoc]
          exact hsame.append _
      | some i =>
        have hij : i ≠ j := fun h => hne (by rw [ho, h])
        simp only [ho] at hpend
        obtain ⟨es', p', rfl, hent, ht⟩ := hpend
        rw [ht, update_of_ne hij.symm] at hp
        refine ⟨turns ++ [.alone j e], update ts' j p, q', es'.map fun e => (i, e),
          hser.alone hp, ?_, ?_⟩
        · refine ⟨es', p', rfl, ?_, ?_⟩
          · rwa [update_of_ne hij]
          · rw [ht, update_comm hij]
        · rw [eventsOf_snoc]
          exact hsame.before hij hent hp
    | @enter p q'' ho hp =>
      simp only [ho] at hpend
      obtain ⟨rfl, ht, hq⟩ := hpend
      rw [ht, hq] at hp
      refine ⟨turns, ts', q', [(j, e)], hser, ⟨[e], p, rfl, .enter hp, by rw [ht]⟩, ?_⟩
      rw [List.append_nil] at hsame
      exact hsame.append _
    | @inside p q'' ho hp =>
      simp only [ho] at hpend
      obtain ⟨es', p', rfl, hent, ht⟩ := hpend
      rw [ht, update_self] at hp
      refine ⟨turns, ts', q', (es' ++ [e]).map fun e => (j, e), hser,
        ⟨es' ++ [e], p, rfl, hent.inside hp, by rw [ht, update_idem]⟩, ?_⟩
      rw [List.map_append, ← List.append_assoc]
      exact hsame.append _
    | @leave p q'' ho hp =>
      simp only [ho] at hpend
      obtain ⟨es', p', rfl, hent, ht⟩ := hpend
      rw [ht, update_self] at hp
      refine ⟨turns ++ [.whole j (es' ++ [e])], update ts' j p, q'', [],
        hser.whole (.leave hent hp), ⟨rfl, by rw [ht, update_idem], rfl⟩, ?_⟩
      rw [List.append_nil, eventsOf_snoc, Turn.events, List.map_append, ← List.append_assoc]
      exact hsame.append _

end Aesd.Lib.Monitor
