import Aesd.Aesdsocket
import Mathlib.Data.List.Perm.Subperm

namespace Aesd.Reaping

open Aesd.Lib.BlockHeap Aesd.Lib.Transition Aesd.ServerThread Aesd.Connection Aesd.Failures
open Aesd.Aesdsocket

abbrev Sessions := Server Session

theorem request_of_terminated {u : Session} (h : sessionProcess.terminated u = true) :
    u.request = .error .disabled := by
  unfold sessionProcess at h
  unfold Session.request
  cases hs : u.stage with
  | exited done leaked => rfl
  | starting | allocating | receiving acc | growing acc | locking msg | writing line w
  | sending p chunk | unlocking failed | resetting | closing freed => simp [hs] at h

theorem done_resume {u u' : Session} {a : Answer} (hd : u.stage.done = true)
    (hres : u.resume a = .ok u') : u'.stage.done = true := by
  unfold Stage.done at hd
  unfold Session.resume at hres
  cases hs : u.stage with
  | closing freed => cases freed <;> cases a <;> simp only [hs] at hres <;> cases hres <;> rfl
  | exited done leaked => simp only [hs] at hres; cases hres
  | starting | allocating | receiving acc | growing acc | locking msg | writing line w
  | sending p chunk | unlocking failed | resetting => simp [hs] at hd

structure Later (q q' : Sessions) : Prop where
  length_le : q.threads.length ≤ q'.threads.length
  same : ∀ i, q.terminated sessionProcess i = true → q'.threads[i]? = q.threads[i]?
  clientDone : ∀ i, q.clientDone sessionProcess i = true → q'.clientDone sessionProcess i = true

theorem Later.refl (q : Sessions) : Later q q := ⟨Nat.le_refl _, fun _ _ => rfl, fun _ hd => hd⟩

theorem Later.terminated {q q' : Sessions} (h : Later q q') {i : Nat}
    (ht : q.terminated sessionProcess i = true) : q'.terminated sessionProcess i = true := by
  have hs := h.same i ht
  unfold Server.terminated at *
  rw [hs]
  exact ht

theorem Later.trans {q q' q'' : Sessions} (h : Later q q') (h' : Later q' q'') : Later q q'' :=
  ⟨h.length_le.trans h'.length_le, fun i ht => (h'.same i (h.terminated ht)).trans (h.same i ht),
    fun i hd => h'.clientDone i (h.clientDone i hd)⟩

theorem later_of_append {q q' : Sessions} (us : List Session)
    (h : q'.threads = q.threads ++ us) : Later q q' := by
  have hold : ∀ (i : Nat) (u : Session), q.threads[i]? = some u → q'.threads[i]? = some u := by
    intro i u hi
    have hlt : i < q.threads.length := (List.getElem?_eq_some_iff.mp hi).1
    rw [h, List.getElem?_append_left hlt, hi]
  refine ⟨by rw [h, List.length_append]; omega, fun i ht => ?_, fun i hd => ?_⟩
  · unfold Server.terminated at ht
    cases hi : q.threads[i]? with
    | none => simp [hi] at ht
    | some u => exact hold i u hi
  · unfold Server.clientDone at *
    cases hi : q.threads[i]? with
    | none => simp [hi] at hd
    | some u =>
      rw [hi] at hd
      rw [hold i u hi]
      exact hd

/-- The record of a thread goes through these events, in this order. -/
def lifecycle (i : Nat) : List Event :=
  [.created i, .inserted i, .removed i, .joined i, .closed i, .freed i]

def seen {P : Type} (q : Server P) (i : Nat) : Nat :=
  if q.threads.length ≤ i then 0
  else if q.main = .insert i then 1
  else if i ∈ q.threadList then 2
  else if q.main = .join i then 3
  else if q.main = .close i then 4
  else if q.main = .free i then 5
  else 6

structure Records (events : List Event) (q : Sessions) : Prop where
  nodup : q.threadList.Nodup
  known : ∀ i ∈ q.threadList, i < q.threads.length
  insert : ∀ i, q.main = .insert i → i + 1 = q.threads.length ∧ i ∉ q.threadList
  check : ∀ i, q.main = .check (some i) → i ∈ q.threadList
  scan : ∀ rest, q.main = .scan rest → ∃ before, q.threadList = before ++ rest
  reaping : ∀ i, q.main = .join i ∨ q.main = .close i ∨ q.main = .free i →
    i < q.threads.length ∧ i ∉ q.threadList
  gone : ∀ i, 4 ≤ seen q i → q.terminated sessionProcess i = true
  history : ∀ i, events.filter (fun e => e ∈ lifecycle i) = (lifecycle i).take (seen q i)

theorem records_init : Records [] Server.init where
  nodup := List.nodup_nil
  known := by simp [Server.init]
  insert := by simp [Server.init]
  check := by simp [Server.init]
  scan := by simp [Server.init]
  reaping := by simp [Server.init]
  gone := by simp [Server.init, seen]
  history := by simp [Server.init, seen]

theorem history_step {events : List Event} {q : Sessions} (q' : Sessions) {e : Event} {i : Nat}
    (h : events.filter (fun e => e ∈ lifecycle i) = (lifecycle i).take (seen q i))
    (hs : (e ∉ lifecycle i ∧ seen q' i = seen q i) ∨
      ((lifecycle i)[seen q i]? = some e ∧ seen q' i = seen q i + 1)) :
    (events ++ [e]).filter (fun e => e ∈ lifecycle i) = (lifecycle i).take (seen q' i) := by
  rw [List.filter_append, h]
  obtain ⟨hne, hsame⟩ | ⟨hget, hnext⟩ := hs
  · rw [hsame, List.filter_cons_of_neg (by simpa using hne), List.filter_nil, List.append_nil]
  · have hmem : e ∈ lifecycle i := List.mem_of_getElem? hget
    rw [hnext, List.filter_cons_of_pos (by simpa using hmem), List.filter_nil, List.take_add_one,
      hget]
    rfl

theorem lifecycle_disjoint {e : Event} {i j : Nat} (he : e ∈ lifecycle i) (hij : j ≠ i) :
    e ∉ lifecycle j := by
  simp only [lifecycle, List.mem_cons, List.not_mem_nil, or_false] at he ⊢
  obtain rfl | rfl | rfl | rfl | rfl | rfl := he <;> simp [Ne.symm hij]

theorem records_advance {events : List Event} {q q' : Sessions} {e : Event} {i : Nat}
    (hr : Records events q) (hl : Later q q') (hseen : ∀ j, j ≠ i → seen q' j = seen q j)
    (hget : (lifecycle i)[seen q i]? = some e) (hnext : seen q' i = seen q i + 1)
    (hlate : 4 ≤ seen q' i → q'.terminated sessionProcess i = true) :
    (∀ j, 4 ≤ seen q' j → q'.terminated sessionProcess j = true) ∧
      ∀ j, (events ++ [e]).filter (fun e => e ∈ lifecycle j) = (lifecycle j).take (seen q' j) := by
  constructor
  · intro j hj
    by_cases hij : j = i
    · rw [hij] at hj ⊢
      exact hlate hj
    · exact hl.terminated (hr.gone j (hseen j hij ▸ hj))
  · intro j
    by_cases hij : j = i
    · rw [hij]
      exact history_step q' (hr.history i) (.inr ⟨hget, hnext⟩)
    · exact history_step q' (hr.history j)
        (.inl ⟨lifecycle_disjoint (List.mem_of_getElem? hget) hij, hseen j hij⟩)

theorem records_thread {events : List Event} {q q' : Sessions} (hr : Records events q)
    (hl : Later q q') (hlen : q'.threads.length = q.threads.length) (hm : q'.main = q.main)
    (ht : q'.threadList = q.threadList) (i : Nat) (req : Request) (a : Answer) :
    Records (events ++ [.call i req a]) q' := by
  have hseen : ∀ j, seen q' j = seen q j := fun j => by simp only [seen, hlen, hm, ht]
  refine ⟨by rw [ht]; exact hr.nodup, by rw [ht, hlen]; exact hr.known,
    by rw [hm, hlen, ht]; exact hr.insert, by rw [hm, ht]; exact hr.check,
    by rw [hm, ht]; exact hr.scan, by rw [hm, hlen, ht]; exact hr.reaping, fun j hj => ?_,
    fun j => ?_⟩
  · exact hl.terminated (hr.gone j (hseen j ▸ hj))
  · exact history_step q' (hr.history j) (.inl ⟨by simp [lifecycle], hseen j⟩)

theorem seen_eq_of_idle {q q' : Sessions} (hlen : q'.threads.length = q.threads.length)
    (ht : q'.threadList = q.threadList) {i : Nat}
    (hm : q.main ≠ .insert i ∧ q.main ≠ .join i ∧ q.main ≠ .close i ∧ q.main ≠ .free i)
    (hm' : q'.main ≠ .insert i ∧ q'.main ≠ .join i ∧ q'.main ≠ .close i ∧ q'.main ≠ .free i) :
    seen q' i = seen q i := by
  simp [seen, hlen, ht, hm, hm']

theorem records_idle {events : List Event} {q q' : Sessions} {e : Event}
    (hr : Records events q) (hthreads : q'.threads = q.threads) (ht : q'.threadList = q.threadList)
    (he : ∀ i, e ∉ lifecycle i)
    (hm : ∀ i, q.main ≠ .insert i ∧ q.main ≠ .join i ∧ q.main ≠ .close i ∧ q.main ≠ .free i)
    (hm' : ∀ i, q'.main ≠ .insert i ∧ q'.main ≠ .join i ∧ q'.main ≠ .close i ∧
      q'.main ≠ .free i)
    (hcheck : ∀ i, q'.main = .check (some i) → i ∈ q.threadList)
    (hscan : ∀ rest, q'.main = .scan rest → ∃ before, q.threadList = before ++ rest) :
    Records (events ++ [e]) q' := by
  have hlen : q'.threads.length = q.threads.length := by rw [hthreads]
  have hseen : ∀ i, seen q' i = seen q i := fun i => seen_eq_of_idle hlen ht (hm i) (hm' i)
  have hl : Later q q' := later_of_append [] (by rw [hthreads, List.append_nil])
  refine ⟨by rw [ht]; exact hr.nodup, by rw [ht, hlen]; exact hr.known,
    fun i hi => absurd hi (hm' i).1, by rw [ht]; exact hcheck, by rw [ht]; exact hscan,
    fun i hi => ?_, fun i hi => hl.terminated (hr.gone i (hseen i ▸ hi)), fun i => ?_⟩
  · obtain hi | hi | hi := hi
    · exact absurd hi (hm' i).2.1
    · exact absurd hi (hm' i).2.2.1
    · exact absurd hi (hm' i).2.2.2
  · exact history_step q' (hr.history i) (.inl ⟨he i, hseen i⟩)

theorem records_accept {events : List Event} {q : Sessions} (hr : Records events q)
    (hm : q.main = .accept) (u : Session) :
    Records (events ++ [.created q.threads.length])
      { q with threads := q.threads ++ [u], main := .insert q.threads.length } := by
  let q' : Sessions := { q with threads := q.threads ++ [u], main := .insert q.threads.length }
  have hl : Later q q' := later_of_append _ rfl
  have hnew : q.threads.length ∉ q.threadList := fun hi => absurd (hr.known _ hi) (by omega)
  have hseen : ∀ i, i ≠ q.threads.length → seen q' i = seen q i := by
    intro i hi
    have hiff : q.threads.length + 1 ≤ i ↔ q.threads.length ≤ i := by omega
    simp [seen, q', hm, hiff, Ne.symm hi]
  have hseen₀ : seen q q.threads.length = 0 := by simp [seen]
  have hseen₁ : seen q' q.threads.length = 1 := by simp [seen, q']
  obtain ⟨hgone, hhistory⟩ := records_advance hr hl hseen
    (e := .created q.threads.length) (by rw [hseen₀]; rfl) (by omega) (by omega)
  refine ⟨hr.nodup, fun i hi => ?_, fun i hi => ?_, by simp, by simp, by simp, hgone, hhistory⟩
  · have hlt := hr.known i hi
    rw [List.length_append]
    omega
  · obtain rfl : q.threads.length = i := by simpa using hi
    exact ⟨by simp, hnew⟩

theorem records_insert {events : List Event} {q : Sessions} (hr : Records events q) {i : Nat}
    (hm : q.main = .insert i) :
    Records (events ++ [.inserted i])
      { q with threadList := i :: q.threadList, main := .scan (i :: q.threadList) } := by
  let q' : Sessions := { q with
    threadList := i :: q.threadList, main := .scan (i :: q.threadList) }
  obtain ⟨hlen, hnew⟩ := hr.insert i hm
  have hseen : ∀ j, j ≠ i → seen q' j = seen q j := by
    intro j hj
    simp [seen, q', hm, hj, Ne.symm hj]
  have hseen₀ : seen q i = 1 := by
    have hn : ¬ q.threads.length ≤ i := by omega
    simp [seen, hm, hn]
  have hseen₁ : seen q' i = 2 := by
    have hn : ¬ q.threads.length ≤ i := by omega
    simp [seen, q', hn]
  have hl : Later q q' := later_of_append [] (List.append_nil _).symm
  obtain ⟨hgone, hhistory⟩ := records_advance hr hl hseen
    (e := .inserted i) (by rw [hseen₀]; rfl) (by omega) (by omega)
  refine ⟨List.nodup_cons.mpr ⟨hnew, hr.nodup⟩, fun j hj => ?_, by simp, by simp, fun rest hj => ?_,
    by simp, hgone, hhistory⟩
  · obtain rfl | hj := List.mem_cons.mp hj
    · exact Nat.lt_of_succ_le (Nat.le_of_eq hlen)
    · exact hr.known j hj
  · obtain rfl : i :: q.threadList = rest := by simpa using hj
    exact ⟨[], rfl⟩

theorem records_remove {events : List Event} {q : Sessions} (hr : Records events q) {i : Nat}
    (hm : q.main = .check (some i)) :
    Records (events ++ [.removed i])
      { q with threadList := q.threadList.erase i, main := .join i } := by
  let q' : Sessions := { q with threadList := q.threadList.erase i, main := .join i }
  have hi := hr.check i hm
  have hlt := hr.known i hi
  have hout : i ∉ q.threadList.erase i := hr.nodup.not_mem_erase
  have hseen : ∀ j, j ≠ i → seen q' j = seen q j := by
    intro j hj
    have hmem : j ∈ q.threadList.erase i ↔ j ∈ q.threadList := List.mem_erase_of_ne hj
    simp [seen, q', hm, hmem, Ne.symm hj]
  have hn : ¬ q.threads.length ≤ i := by omega
  have hseen₀ : seen q i = 2 := by simp [seen, hm, hn, hi]
  have hseen₁ : seen q' i = 3 := by simp [seen, q', hn, hout]
  have hl : Later q q' := later_of_append [] (List.append_nil _).symm
  obtain ⟨hgone, hhistory⟩ := records_advance hr hl hseen
    (e := .removed i) (by rw [hseen₀]; rfl) (by omega) (by omega)
  refine ⟨hr.nodup.erase i, fun j hj => hr.known j (List.mem_of_mem_erase hj), by simp, by simp,
    by simp, fun j hj => ?_, hgone, hhistory⟩
  obtain rfl : i = j := by simpa using hj
  exact ⟨hlt, hout⟩

theorem records_reap {events : List Event} {q : Sessions} (hr : Records events q) {i : Nat}
    {m : MainPc} {e : Event} (hreap : q.main = .join i ∨ q.main = .close i ∨ q.main = .free i)
    (hm : m = .close i ∨ m = .free i ∨ m = .accept)
    (hget : (lifecycle i)[seen q i]? = some e) (hnext : seen { q with main := m } i = seen q i + 1)
    (ht : q.terminated sessionProcess i = true) :
    Records (events ++ [e]) { q with main := m } := by
  let q' : Sessions := { q with main := m }
  obtain ⟨hlt, hout⟩ := hr.reaping i hreap
  have hseen : ∀ j, j ≠ i → seen q' j = seen q j := by
    intro j hj
    have hne := Ne.symm hj
    obtain hq | hq | hq := hreap <;> obtain hm | hm | hm := hm <;> simp [seen, q', hq, hm, hne]
  have hl : Later q q' := later_of_append [] (List.append_nil _).symm
  obtain ⟨hgone, hhistory⟩ := records_advance hr hl hseen hget hnext fun _ => ht
  refine ⟨hr.nodup, hr.known, fun j hj => ?_, fun j hj => ?_, fun rest hj => ?_, fun j hj => ?_,
    hgone, hhistory⟩
  · obtain rfl | rfl | rfl := hm <;> cases hj
  · obtain rfl | rfl | rfl := hm <;> cases hj
  · obtain rfl | rfl | rfl := hm <;> cases hj
  · have hji : j = i := by
      obtain rfl | rfl | rfl := hm <;> simp at hj <;> exact hj.symm
    rw [hji]
    exact ⟨hlt, hout⟩

theorem records_main {events : List Event} {q q' : Sessions} (hr : Records events q) {c o : Nat}
    {e : Event} (h : q.mainStep sessionProcess c o = .ok (e, q')) : Records (events ++ [e]) q' := by
  unfold Server.mainStep at h
  cases hm : q.main with
  | accept =>
    simp only [hm, Except.ok.injEq, Prod.mk.injEq] at h
    obtain ⟨rfl, rfl⟩ := h
    exact records_accept hr hm _
  | insert i =>
    simp only [hm, Except.ok.injEq, Prod.mk.injEq] at h
    obtain ⟨rfl, rfl⟩ := h
    exact records_insert hr hm
  | scan rest =>
    obtain ⟨before, hsplit⟩ := hr.scan rest hm
    cases rest with
    | nil =>
      simp only [hm, Except.ok.injEq, Prod.mk.injEq] at h
      obtain ⟨rfl, rfl⟩ := h
      refine records_idle hr rfl rfl ?_ ?_ ?_ ?_ ?_ <;> simp [lifecycle, hm]
    | cons i rest =>
      simp only [hm, Except.ok.injEq, Prod.mk.injEq] at h
      obtain ⟨rfl, rfl⟩ := h
      refine records_idle hr rfl rfl (by simp [lifecycle]) (by simp [hm]) ?_ ?_ ?_
      · intro j
        dsimp only
        split <;> simp
      · intro j hj
        dsimp only at hj
        split at hj
        · obtain rfl : i = j := by simpa using hj
          simp [hsplit]
        · cases hj
      · intro rest' hj
        dsimp only at hj
        split at hj
        · cases hj
        · obtain rfl : rest = rest' := by simpa using hj
          exact ⟨before ++ [i], by simp [hsplit]⟩
  | check found =>
    cases found with
    | none =>
      simp only [hm, Except.ok.injEq, Prod.mk.injEq] at h
      obtain ⟨rfl, rfl⟩ := h
      refine records_idle hr rfl rfl ?_ ?_ ?_ ?_ ?_ <;> simp [lifecycle, hm]
    | some i =>
      simp only [hm] at h
      split at h <;>
        (simp only [Except.ok.injEq, Prod.mk.injEq] at h; obtain ⟨rfl, rfl⟩ := h)
      · exact records_remove hr hm
      · refine records_idle hr rfl rfl ?_ ?_ ?_ ?_ ?_ <;> simp [lifecycle, hm]
  | join i =>
    obtain ⟨hlt, hout⟩ := hr.reaping i (.inl hm)
    have hn : ¬ q.threads.length ≤ i := by omega
    have hseen : seen q i = 3 := by simp [seen, hm, hn, hout]
    simp only [hm] at h
    split at h
    · next ht =>
      simp only [Except.ok.injEq, Prod.mk.injEq] at h
      obtain ⟨rfl, rfl⟩ := h
      refine records_reap hr (.inl hm) (.inl rfl) (by rw [hseen]; rfl) ?_ ht
      rw [hseen]
      simp [seen, hn, hout]
    · cases h
  | close i =>
    obtain ⟨hlt, hout⟩ := hr.reaping i (.inr (.inl hm))
    have hn : ¬ q.threads.length ≤ i := by omega
    have hseen : seen q i = 4 := by simp [seen, hm, hn, hout]
    simp only [hm, Except.ok.injEq, Prod.mk.injEq] at h
    obtain ⟨rfl, rfl⟩ := h
    refine records_reap hr (.inr (.inl hm)) (.inr (.inl rfl)) (by rw [hseen]; rfl) ?_
      (hr.gone i (by omega))
    rw [hseen]
    simp [seen, hn, hout]
  | free i =>
    obtain ⟨hlt, hout⟩ := hr.reaping i (.inr (.inr hm))
    have hn : ¬ q.threads.length ≤ i := by omega
    have hseen : seen q i = 5 := by simp [seen, hm, hn, hout]
    simp only [hm, Except.ok.injEq, Prod.mk.injEq] at h
    obtain ⟨rfl, rfl⟩ := h
    refine records_reap hr (.inr (.inr hm)) (.inr (.inr rfl)) (by rw [hseen]; rfl) ?_
      (hr.gone i (by omega))
    rw [hseen]
    simp [seen, hn, hout]

theorem thread_later {q q' : Sessions} {i : Nat} {env : Env} {e : Event}
    (h : q.step sessionProcess (.thread i env) = .ok (e, q')) : Later q q' := by
  obtain ⟨u, req, a, shared, u', hu, hreq, _, hres, _, rfl⟩ := thread_step h
  refine ⟨by simp, fun j hj => ?_, fun j hj => ?_⟩
  · have hij : i ≠ j := by
      rintro rfl
      have ht : sessionProcess.terminated u = true := by
        rw [Server.terminated, hu] at hj
        exact hj
      have hreq' : u.request = .ok req := hreq
      rw [request_of_terminated ht] at hreq'
      cases hreq'
    exact List.getElem?_set_ne hij
  · unfold Server.clientDone at *
    by_cases hij : i = j
    · subst hij
      rw [hu] at hj
      have hlt := (List.getElem?_eq_some_iff.mp hu).1
      rw [List.getElem?_set_self hlt]
      exact done_resume hj hres
    · rw [List.getElem?_set_ne hij]
      exact hj

def AllHealthy (q : Sessions) : Prop := ∀ u ∈ q.threads, Healthy u

theorem healthy_done {q : Sessions} (hh : AllHealthy q) {i : Nat}
    (ht : q.terminated sessionProcess i = true) : q.clientDone sessionProcess i = true := by
  unfold Server.terminated at ht
  unfold Server.clientDone
  cases hu : q.threads[i]? with
  | none => simp [hu] at ht
  | some u =>
    have hhu := hh u (List.mem_of_getElem? hu)
    rw [hu, Option.map_some, Option.getD_some] at ht
    rw [Option.map_some, Option.getD_some]
    unfold sessionProcess Stage.done at *
    cases hs : u.stage with
    | exited done leaked =>
      rw [Healthy, hs] at hhu
      simpa [hs] using hhu
    | starting | allocating | receiving acc | growing acc | locking msg | writing line w
    | sending p chunk | unlocking failed | resetting | closing freed => simp [hs] at ht

theorem healthy_thread {q q' : Sessions} (hh : AllHealthy q) {i : Nat} {env : Env} {e : Event}
    (h : q.step sessionProcess (.thread i env) = .ok (e, q')) (he : e.failing = false) :
    AllHealthy q' := by
  obtain ⟨u, req, a, shared, u', hu, hreq, _, hres, rfl, rfl⟩ := thread_step h
  intro v hv
  obtain hv | rfl := List.mem_or_eq_of_mem_set hv
  · exact hh v hv
  · exact healthy_resume (hh u (List.mem_of_getElem? hu)) hreq he hres

theorem healthy_main {q q' : Sessions} (hh : AllHealthy q) {c o : Nat} {e : Event}
    (h : q.mainStep sessionProcess c o = .ok (e, q')) : AllHealthy q' := by
  obtain ⟨_, hthreads, _⟩ := main_step h
  intro v hv
  obtain ht | ht := hthreads
  · exact hh v (ht ▸ hv)
  · rw [ht, List.mem_append, List.mem_singleton] at hv
    obtain hv | rfl := hv
    · exact hh v hv
    · exact trivial

/-- At some moment of the run at least `n` threads were running. -/
def Peak {P : Type} (proc : Process P) (labels : List Label) (n : Nat) : Prop :=
  ∃ pre post events s, labels = pre ++ post ∧
    exec (Server.step proc) Server.init pre = .ok (events, s) ∧ n ≤ s.running proc

theorem Peak.snoc {P : Type} {proc : Process P} {labels : List Label} {n : Nat}
    (h : Peak proc labels n) (a : Label) : Peak proc (labels ++ [a]) n := by
  obtain ⟨pre, post, events, s, rfl, hx, hn⟩ := h
  exact ⟨pre, post ++ [a], events, s, by rw [List.append_assoc], hx, hn⟩

theorem length_le_running {q : Sessions} {is : List Nat} (hnd : is.Nodup)
    (hlt : ∀ i ∈ is, i < q.threads.length)
    (hrun : ∀ i ∈ is, q.terminated sessionProcess i = false) :
    is.length ≤ q.running sessionProcess := by
  apply List.Subperm.length_le
  apply hnd.subperm
  intro i hi
  rw [List.mem_filter, List.mem_range, hrun i hi]
  exact ⟨hlt i hi, rfl⟩

/-- The records bounded by the threads that ran at once: one less while the
scan is under way, in which no record passed over belongs to a thread that had
terminated when the scan began. -/
def Bounded (labels : List Label) (q : Sessions) : Prop :=
  match q.main with
  | .check (some i) =>
    q.clientDone sessionProcess i = true ∧ Peak sessionProcess labels (q.threadList.length - 1)
  | .scan rest => Peak sessionProcess labels (q.threadList.length - 1) ∧
    ∃ before pre post events q₀, q.threadList = before ++ rest ∧ labels = pre ++ post ∧
      exec (Server.step sessionProcess) Server.init pre = .ok (events, q₀) ∧ Later q₀ q ∧
      (∀ i ∈ q.threadList, i < q₀.threads.length) ∧
      ∀ i ∈ before, q₀.terminated sessionProcess i = false
  | _ => Peak sessionProcess labels q.threadList.length

theorem bounded_init : Bounded [] Server.init :=
  ⟨[], [], [], Server.init, rfl, rfl, Nat.zero_le _⟩

theorem bounded_thread {labels : List Label} {q q' : Sessions} (hb : Bounded labels q)
    (a : Label) (hl : Later q q') (hm : q'.main = q.main) (ht : q'.threadList = q.threadList) :
    Bounded (labels ++ [a]) q' := by
  unfold Bounded at *
  rw [hm, ht]
  cases hq : q.main with
  | check found =>
    rw [hq] at hb
    cases found with
    | none => exact hb.snoc a
    | some i => exact ⟨hl.clientDone i hb.1, hb.2.snoc a⟩
  | scan rest =>
    rw [hq] at hb
    obtain ⟨hp, before, pre, post, events, q₀, hsplit, rfl, hx, hl₀, hlt, hrun⟩ := hb
    refine ⟨hp.snoc a, before, pre, post ++ [a], events, q₀, hsplit, ?_, hx, hl₀.trans hl, hlt,
      hrun⟩
    rw [List.append_assoc]
  | accept | insert i | join i | close i | free i =>
    rw [hq] at hb
    exact hb.snoc a

/-- At the end of a scan that found nothing, every record is of a thread that
ran when the scan began. -/
theorem peak_of_scanned {labels : List Label} {q : Sessions} (hnd : q.threadList.Nodup)
    (hb : Bounded labels q) (hm : q.main = .scan []) :
    Peak sessionProcess labels q.threadList.length := by
  rw [Bounded, hm] at hb
  obtain ⟨_, before, pre, post, events, q₀, hsplit, hlabels, hx, _, hlt, hrun⟩ := hb
  rw [List.append_nil] at hsplit
  exact ⟨pre, post, events, q₀, hlabels, hx, length_le_running hnd hlt (hsplit ▸ hrun)⟩

theorem bounded_main {labels : List Label} {events : List Event} {q q' : Sessions}
    (hx : exec (Server.step sessionProcess) Server.init labels = .ok (events, q))
    (hr : Records events q) (hh : AllHealthy q) (hb : Bounded labels q) {c o : Nat} {e : Event}
    (h : q.mainStep sessionProcess c o = .ok (e, q')) : Bounded (labels ++ [.main c o]) q' := by
  have hx' : exec (Server.step sessionProcess) Server.init (labels ++ [.main c o]) =
      .ok (events ++ [e], q') := exec_snoc hx h
  have hr' := records_main hr h
  unfold Server.mainStep at h
  cases hm : q.main with
  | accept | close i | free i =>
    rw [Bounded, hm] at hb
    simp only [hm, Except.ok.injEq, Prod.mk.injEq] at h
    obtain ⟨_, rfl⟩ := h
    exact hb.snoc _
  | insert i =>
    rw [Bounded, hm] at hb
    simp only [hm, Except.ok.injEq, Prod.mk.injEq] at h
    obtain ⟨_, rfl⟩ := h
    refine ⟨hb.snoc _, [], labels ++ [.main c o], [], events ++ [e], _, rfl,
      (List.append_nil _).symm, hx', Later.refl _, hr'.known, ?_⟩
    intro j hj
    cases hj
  | scan rest =>
    cases rest with
    | nil =>
      have hp := peak_of_scanned hr.nodup hb hm
      simp only [hm, Except.ok.injEq, Prod.mk.injEq] at h
      obtain ⟨_, rfl⟩ := h
      exact hp.snoc _
    | cons i rest =>
      rw [Bounded, hm] at hb
      obtain ⟨hp, before, pre, post, evs, q₀, hsplit, rfl, hx₀, hl₀, hlt, hrun⟩ := hb
      simp only [hm, Except.ok.injEq, Prod.mk.injEq] at h
      obtain ⟨_, rfl⟩ := h
      cases hd : q.clientDone sessionProcess i with
      | true =>
        simp only [Bounded, if_true]
        exact ⟨hd, hp.snoc _⟩
      | false =>
        simp only [Bounded, Bool.false_eq_true, if_false]
        refine ⟨hp.snoc _, before ++ [i], pre, post ++ [.main c o], evs, q₀, ?_, ?_, hx₀,
          ⟨hl₀.length_le, hl₀.same, hl₀.clientDone⟩, hlt, fun j hj => ?_⟩
        · rw [hsplit, List.append_assoc]
          rfl
        · rw [List.append_assoc]
        · obtain hj | hj := List.mem_append.mp hj
          · exact hrun j hj
          · -- a terminated thread would have published client_done
            rw [List.mem_singleton] at hj
            subst hj
            cases ht : q₀.terminated sessionProcess j with
            | false => rfl
            | true => rw [healthy_done hh (hl₀.terminated ht)] at hd; cases hd
  | check found =>
    rw [Bounded, hm] at hb
    cases found with
    | none =>
      simp only [hm, Except.ok.injEq, Prod.mk.injEq] at h
      obtain ⟨_, rfl⟩ := h
      exact Peak.snoc hb _
    | some i =>
      obtain ⟨hd, hp⟩ := hb
      simp only [hm, hd, if_true, Except.ok.injEq, Prod.mk.injEq] at h
      obtain ⟨_, rfl⟩ := h
      simp only [Bounded, List.length_erase_of_mem (hr.check i hm)]
      exact hp.snoc _
  | join i =>
    rw [Bounded, hm] at hb
    simp only [hm] at h
    split at h
    · simp only [Except.ok.injEq, Prod.mk.injEq] at h
      obtain ⟨_, rfl⟩ := h
      exact hb.snoc _
    · cases h

/-- What holds of the records after any run, and their bound when no call of a
thread has failed. -/
theorem run_records {labels : List Label} {events : List Event} {q : Sessions}
    (hx : exec (Server.step sessionProcess) Server.init labels = .ok (events, q)) :
    Records events q ∧
      ((∀ e ∈ events, e.failing = false) → AllHealthy q ∧ Bounded labels q) := by
  refine exec_history (I := fun labels events q => Records events q ∧
    ((∀ e ∈ events, e.failing = false) → AllHealthy q ∧ Bounded labels q)) ?_ ?_ hx
  · refine ⟨records_init, fun _ => ⟨?_, bounded_init⟩⟩
    intro u hu
    cases hu
  · rintro labels events q a e q' hx ⟨hr, hb⟩ hs
    cases a with
    | main c o =>
      refine ⟨records_main hr hs, fun he => ?_⟩
      obtain ⟨hh, hbd⟩ := hb fun e' he' => he e' (List.mem_append_left _ he')
      exact ⟨healthy_main hh hs, bounded_main hx hr hh hbd hs⟩
    | thread i env =>
      have hl := thread_later hs
      obtain ⟨u, req, a, shared, u', _, _, _, _, rfl, rfl⟩ := id (thread_step hs)
      refine ⟨records_thread hr hl (by simp) rfl rfl i req a, fun he => ?_⟩
      obtain ⟨hh, hbd⟩ := hb fun e' he' => he e' (List.mem_append_left _ he')
      exact ⟨healthy_thread hh hs (he _ (by simp)), bounded_thread hbd _ hl rfl rfl⟩

theorem peak_agrees {labels : List Label} {n : Nat} (h : Peak sessionProcess labels n) :
    Peak threadProcess labels n := by
  obtain ⟨pre, post, events, q, hlabels, hx, hn⟩ := h
  obtain ⟨s, hs, hag⟩ := run_of_sessions hx
  exact ⟨pre, post, events, s, hlabels, hs, by rw [hag.running]; exact hn⟩

/-- In every run each record that is removed is then joined, closed and freed,
once each and in this order, and only after its thread has terminated. After a
pass of the loop there are no more records than threads have run at once,
provided that no call of a thread has failed. -/
theorem finished_connections_reaped {labels : List Label} {events : List Event}
    {s : Server Thread}
    (hx : exec (Server.step threadProcess) Server.init labels = .ok (events, s)) :
    (∀ i, events.filter (fun e => e ∈ lifecycle i) <+: lifecycle i) ∧
      (s.main = .accept → ∀ i, .removed i ∈ events →
        events.filter (fun e => e ∈ lifecycle i) = lifecycle i) ∧
      (∀ i, .joined i ∈ events ∨ .closed i ∈ events ∨ .freed i ∈ events →
        s.terminated threadProcess i = true) ∧
      ((∀ e ∈ events, e.failing = false) → s.main = .accept →
        Peak threadProcess labels s.threadList.length) := by
  obtain ⟨q, hq, hag⟩ := run_agrees hx
  obtain ⟨hr, hb⟩ := run_records hq
  have hmem : ∀ {i k : Nat} {e : Event}, (lifecycle i)[k]? = some e → e ∈ events →
      k < seen q i := by
    intro i k e hk he
    have hin : e ∈ (lifecycle i).take (seen q i) := by
      rw [← hr.history i, List.mem_filter]
      exact ⟨he, by simpa using List.mem_of_getElem? hk⟩
    obtain ⟨m, hm, hget⟩ := List.mem_take_iff_getElem.mp hin
    obtain ⟨hk', hke⟩ := List.getElem?_eq_some_iff.mp hk
    have hnd : (lifecycle i).Nodup := by simp [lifecycle]
    have hkm : k = m := (List.getElem_inj hnd).mp (hke.trans hget.symm)
    omega
  refine ⟨fun i => ?_, fun hm i hi => ?_, fun i hi => ?_, fun he hm => ?_⟩
  · rw [hr.history i]
    exact List.take_prefix _ _
  · have h3 : 2 < seen q i := hmem rfl hi
    rw [hag.main] at hm
    have h6 : seen q i = 6 := by
      unfold seen at h3 ⊢
      simp only [hm, reduceCtorEq, if_false] at h3 ⊢
      split at h3
      · omega
      · next hn =>
        rw [if_neg hn]
        split at h3
        · omega
        · next hl => rw [if_neg hl]
    rw [hr.history i, h6]
    rfl
  · rw [hag.terminated]
    apply hr.gone
    obtain hi | hi | hi := hi
    · have h := hmem (k := 3) rfl hi
      omega
    · have h := hmem (k := 4) rfl hi
      omega
    · have h := hmem (k := 5) rfl hi
      omega
  · obtain ⟨_, hbd⟩ := hb he
    rw [hag.main] at hm
    rw [Bounded, hm] at hbd
    rw [hag.threadList]
    exact peak_agrees hbd

/-- A connection closed by its client. Its record is removed when the next one
comes, while its thread still runs, and `main` waits for the thread to leave. -/
def orderlyLabels : List Label :=
  [.main 0 0, .main 0 0, .main 0 0, .main 0 0, .main 0 0,
    .thread 0 (.plain false), .thread 0 (.plain false), .thread 0 (.received (some [])),
    .main 0 0, .main 0 0, .main 0 0, .main 0 0, .main 0 0,
    .thread 0 (.plain false), .thread 0 (.plain false), .main 0 0, .main 0 0, .main 0 0]

def orderlyEvents : List Event :=
  [.created 0, .inserted 0, .examined 0 false, .scanned, .passed,
    .call 0 .sigmask .done, .call 0 .alloc .done, .call 0 .recv (.bytes []),
    .created 1, .inserted 1, .examined 1 false, .examined 0 true, .removed 0,
    .call 0 .free .done, .call 0 .syslog .done, .joined 0, .closed 0, .freed 0]

theorem orderlyLabels_run : ∃ s : Server Thread,
    exec (Server.step threadProcess) Server.init orderlyLabels = .ok (orderlyEvents, s) ∧
      s.main = .accept ∧ s.threadList = [1] := by
  obtain ⟨q, hq, hm, hl⟩ : ∃ q : Sessions,
      exec (Server.step sessionProcess) Server.init orderlyLabels = .ok (orderlyEvents, q) ∧
        q.main = .accept ∧ q.threadList = [1] := ⟨_, rfl, rfl, rfl⟩
  obtain ⟨s, hs, hag⟩ := run_of_sessions hq
  exact ⟨s, hs, hag.main.trans hm, hag.threadList.trans hl⟩

theorem orderlyLabels_reaped : ∃ s : Server Thread,
    exec (Server.step threadProcess) Server.init orderlyLabels = .ok (orderlyEvents, s) ∧
      s.terminated threadProcess 0 = true ∧ Peak threadProcess orderlyLabels 1 := by
  obtain ⟨s, hx, hm, hl⟩ := orderlyLabels_run
  obtain ⟨_, _, hjoined, hpeak⟩ := finished_connections_reaped hx
  refine ⟨s, hx, hjoined 0 (.inl (by decide)), ?_⟩
  have h := hpeak (by decide) hm
  rw [hl] at h
  exact h

example : ∃ q : Sessions,
    exec (Server.step sessionProcess) Server.init (orderlyLabels.take 13) =
        .ok (orderlyEvents.take 13, q) ∧
      q.main = .join 0 ∧ q.terminated sessionProcess 0 = false := ⟨_, rfl, rfl, rfl⟩

/-- A connection reset by its client, and a second one. -/
def resetLabels : List Label :=
  [.main 0 0, .main 0 0, .main 0 0, .main 0 0, .main 0 0,
    .thread 0 (.plain false), .thread 0 (.plain false), .thread 0 (.received none),
    .main 0 0, .main 0 0, .main 0 0, .main 0 0, .main 0 0, .main 0 0]

def runningAfter (labels : List Label) : Nat :=
  match exec (Server.step sessionProcess) Server.init labels with
  | .ok (_, q) => q.running sessionProcess
  | .error _ => 0

theorem resetLabels_running : ∀ n ∈ List.range 15, runningAfter (resetLabels.take n) ≤ 1 := by
  decide

theorem resetLabels_run : ∃ events, ∃ s : Server Thread,
    exec (Server.step threadProcess) Server.init resetLabels = .ok (events, s) ∧
      s.main = .accept ∧ s.threadList = [1, 0] := by
  obtain ⟨events, q, hq, hm, hl⟩ : ∃ events, ∃ q : Sessions,
      exec (Server.step sessionProcess) Server.init resetLabels = .ok (events, q) ∧
        q.main = .accept ∧ q.threadList = [1, 0] := ⟨_, _, rfl, rfl, rfl⟩
  obtain ⟨s, hs, hag⟩ := run_of_sessions hq
  exact ⟨events, s, hs, hag.main.trans hm, hag.threadList.trans hl⟩

/-- The thread of the reset connection has left without `client_done`, and two
records are kept though at most one thread ever ran. -/
theorem reset_connection_piles_up : ∃ events, ∃ s : Server Thread,
    exec (Server.step threadProcess) Server.init resetLabels = .ok (events, s) ∧
      s.main = .accept ∧ ¬ Peak threadProcess resetLabels s.threadList.length := by
  obtain ⟨events, s, hx, hm, hl⟩ := resetLabels_run
  refine ⟨events, s, hx, hm, ?_⟩
  rw [hl]
  rintro ⟨pre, post, events', s', hsplit, hpre, hn⟩
  obtain ⟨q', hq', hag⟩ := run_agrees hpre
  have htake : resetLabels.take pre.length = pre := by rw [hsplit, List.take_left']; rfl
  have hlen : pre.length ≤ resetLabels.length := by
    rw [hsplit, List.length_append]
    omega
  have h := resetLabels_running pre.length (List.mem_range.mpr (Nat.lt_succ_of_le hlen))
  rw [htake, runningAfter, hq'] at h
  rw [hag.running] at hn
  exact absurd (hn.trans h) (by decide)

end Aesd.Reaping
