import Aesd.Pieces

namespace Aesd.Replies

open Aesd.Lib.BlockHeap Aesd.Lib.Transition Aesd.Lib.Sequence Aesd.Lib.Monitor
open Aesd.CString Aesd.ServerThread Aesd.Connection Aesd.Rules
open Aesd.TimestampThread Aesd.FileThreads Aesd.Sections Aesd.WholeSections Aesd.Pieces
open Aesd.RecordLog (newline)

variable {δ η κ : Type}

def lines : Purpose → List (List UInt8)
  | .message msg => if isCommand msg then [] else [lineOf msg]
  | .stamp text => [text.takeWhile fun b => b ≠ newline]

/-- A timestamp is of a time that the clock has shown. -/
def Timed (acts : List Act) : Purpose → Prop
  | .message _ => True
  | .stamp text => ∃ tm, .clock (some tm) ∈ acts ∧ text = strftime timeMaxStrlen tm

def atEnd : Act → Bool
  | .call (.read _ _) (.bytes []) => true
  | _ => false

def finishing : Stage → Bool
  | .sending (.close _) _ | .unlocking _ | .exited _ _ => true
  | _ => false

def Rest (F : Datafile δ η κ) (k : κ) (acts : List Act) : Prop :=
  F.readable k → sent acts = (F.shows k).drop (begins F k (aim acts))

/-- Once a thread has read the file to its end, it has sent the rest of it. -/
def Answered (F : Datafile δ η κ) (acts : List Act) (d : δ) (t : Task) : Prop :=
  (∃ act ∈ acts, atEnd act = true) → ∃ u k, t = .connection u ∧ finishing u.stage = true ∧
    F.stands d k ∧ Rest F k acts

/-- What complete replies need of a file: only at the end does a read bring
nothing, and the file shows the content it stands for. -/
structure Exact (F : Datafile δ η κ) : Prop where
  atEnd : ∀ {d d' k fd p env}, F.stands d k → F.readable k → F.position d fd = some p →
    p ≤ (F.shows k).length → F.serve d (.read fd sockReadBufSize) env = .ok (.bytes [], d') →
    (F.shows k).length ≤ p
  same : ∀ {d k k'}, F.stands d k → F.stands d k' →
    (F.readable k' → F.readable k) ∧ F.shows k = F.shows k' ∧ F.seeks k = F.seeks k'

inductive Answers (F : Datafile δ η κ) (k₀ : κ) : List Piece → κ → Prop
  | nil : Answers F k₀ [] k₀
  | snoc {ps : List Piece} {p : Piece} {k k' : κ} : Answers F k₀ ps k →
      F.grows k (kept p.acts) k' → ((∃ act ∈ p.acts, atEnd act = true) → Rest F k' p.acts) →
      Answers F k₀ (ps ++ [p]) k'

theorem Timed.mono {acts acts' : List Act} {w : Purpose} (h : Timed acts w) (hsub : acts ⊆ acts') :
    Timed acts' w := by
  cases w with
  | message msg => trivial
  | stamp text =>
    obtain ⟨tm, htm, ht⟩ := h
    exact ⟨tm, hsub htm, ht⟩

theorem timed_note {acts : List Act} {p : Purpose × List Purpose} {act : Act}
    (h : Timed acts p.1) (hd : ∀ w ∈ p.2, Timed acts w) (hact : act ∈ acts) :
    Timed acts (note p act).1 ∧ ∀ w ∈ (note p act).2, Timed acts w := by
  unfold note
  split
  · exact ⟨trivial, hd⟩
  · exact ⟨⟨_, hact, rfl⟩, hd⟩
  · refine ⟨trivial, fun w hw => ?_⟩
    obtain hw | hw := List.mem_append.mp hw
    · exact hd w hw
    · exact List.mem_singleton.mp hw ▸ h
  · exact ⟨h, hd⟩

theorem timed_noted (acts : List Act) :
    Timed acts (noted acts).1 ∧ ∀ w ∈ (noted acts).2, Timed acts w := by
  induction acts using List.reverseRecOn with
  | nil => exact ⟨trivial, fun w hw => by cases hw⟩
  | append_singleton acts act ih =>
    rw [noted_snoc]
    obtain ⟨h, hd⟩ := ih
    exact timed_note (h.mono (List.subset_append_left ..))
      (fun w hw => (hd w hw).mono (List.subset_append_left ..)) (by simp)

theorem whole_eq {acts : List Act} {w : Purpose} (ht : Timed acts w)
    (hclock : ∀ tm, .clock (some tm) ∈ acts → tm.Valid) :
    whole w = (lines w).flatMap (fun l => l ++ [newline]) ∧ ∀ l ∈ lines w, newline ∉ l := by
  cases w with
  | message msg =>
    rw [whole, lines]
    cases isCommand msg with
    | true => exact ⟨rfl, fun l hl => by cases hl⟩
    | false =>
      refine ⟨(List.flatMap_singleton ..).symm, fun l hl => ?_⟩
      rw [List.mem_singleton.mp hl]
      exact newline_notMem_lineOf msg
  | stamp text =>
    obtain ⟨tm, htm, htext⟩ := ht
    rw [htext, strftime_valid (hclock tm htm)]
    have hline : (stamp tm ++ [newline]).takeWhile (fun b => b ≠ newline) = stamp tm := by
      rw [List.takeWhile_append_of_pos fun b hb => ?_]
      · simp
      · have hne : b ≠ newline := fun h => newline_notMem_stamp tm (h ▸ hb)
        simpa using hne
    simp only [whole, lines, hline, List.flatMap_singleton, List.mem_singleton, forall_eq, true_and]
    exact newline_notMem_stamp tm

variable {F : Datafile δ η κ} {u u' : Session} {req : Request} {a : Answer} {d d' : δ} {k k₀ : κ}
  {t t' : Task} {w : Purpose} {acts : List Act} {act : Act} {ps : List Piece}

theorem timed_pieces {es : List (Nat × Act)}
    (hpurposes : ∀ i, purposesOf i ps = (noted (actsOf i es)).2) :
    ∀ p ∈ ps, Timed (actsOf p.thread es) p.purpose := by
  intro p hp
  refine (timed_noted _).2 _ ?_
  rw [← hpurposes]
  exact List.mem_map_of_mem (List.mem_filter.mpr ⟨hp, decide_eq_true rfl⟩)

theorem made_lines {d₀ : δ} (h : Made F k₀ d₀ ps k d) {es : List (Nat × Act)}
    (hinside : insideActs es = ps.flatMap Piece.labelled)
    (hpurposes : ∀ i, purposesOf i ps = (noted (actsOf i es)).2)
    (hes : ∀ i act, (i, act) ∈ es → wrote act = true ∧ ∀ tm, act = .clock (some tm) → tm.Valid) :
    ∀ p ∈ ps, kept p.acts = (lines p.purpose).flatMap (fun l => l ++ [newline]) ∧
      ∀ l ∈ lines p.purpose, newline ∉ l := by
  intro p hp
  have hall : ∀ act ∈ p.acts, wrote act = true := by
    intro act hact
    have hmem : (p.thread, act) ∈ insideActs es := by
      rw [hinside, List.mem_flatMap]
      exact ⟨p, hp, List.mem_map_of_mem hact⟩
    exact (hes _ _ (List.mem_of_mem_filter hmem)).1
  rw [h.whole p hp hall]
  refine whole_eq (timed_pieces hpurposes p hp) fun tm htm => ?_
  obtain ⟨⟨j, act⟩, hmem, hact⟩ := List.mem_map.mp htm
  exact (hes j act (List.mem_of_mem_filter hmem)).2 tm hact

theorem split_lines (h : ∀ p ∈ ps, kept p.acts = (lines p.purpose).flatMap (fun l => l ++ [newline]) ∧
      ∀ l ∈ lines p.purpose, newline ∉ l) :
    (ps.flatMap fun p => kept p.acts).splitOn newline =
      (ps.flatMap fun p => lines p.purpose) ++ [[]] := by
  have hflat : (ps.flatMap fun p => kept p.acts) =
      (ps.flatMap fun p => lines p.purpose).flatMap fun l => l ++ [newline] := by
    rw [List.flatMap_assoc]
    exact List.flatMap_congr fun p hp => (h p hp).1
  rw [hflat]
  refine splitOn_terminated fun l hl => ?_
  obtain ⟨p, hp, hl⟩ := List.mem_flatMap.mp hl
  exact (h p hp).2 l hl

theorem finishing_step (hf : finishing u.stage = true) (hin : holding u.stage = true)
    (hreq : u.request = .ok req) (hno : req = .unlock → a ≠ .done) (hres : u.resume a = .ok u') :
    (req = .unlock ∨ ∃ fd, req = .close fd) ∧ finishing u'.stage = true := by
  cases turn_of_resume hreq hres with
  | masked hst | grown hst | received hst | locked hst | opened hst | wroteLine hst
  | wroteNewline hst | written hst | reopened hst | sought hst | fetched hst | ended hst | sent hst
  | freed hst | logged hst | sentShort hst =>
    rw [hst] at hf
    cases hf
  | allocated hst => obtain hst | hst := hst <;> rw [hst] at hf <;> cases hf
  | replied hst => exact ⟨.inr ⟨_, rfl⟩, rfl⟩
  | unlocked hst => exact absurd rfl (hno rfl)
  | released hst => exact ⟨.inl rfl, rfl⟩
  | lost hh _ => exact ⟨.inl (unlocking_of_holding hin hh hreq).2, rfl⟩
  | aborted hh _ =>
    unfold Session.request at hreq
    obtain ⟨line, p, hst⟩ | ⟨p, chunk, hst⟩ := stage_of_inHelper hh
    · rw [hst] at hf
      cases hf
    · rw [hst] at hf hreq
      cases p with
      | close fd =>
        cases hreq
        exact ⟨.inr ⟨fd, rfl⟩, rfl⟩
      | openFile | ioctl fd | read fd | sock fd n => cases hf

theorem ended_answered (hx : Exact F) {fd n : Nat} {env : η} (hp : Phase F k w acts d t)
    (hd : F.stands d k) (hreq : t.request = .ok (.read fd n))
    (hs : F.serve d (.read fd n) env = .ok (.bytes [], d')) (hres : t.resume (.bytes []) = .ok t') :
    ∃ u, t' = .connection u ∧ finishing u.stage = true ∧ F.stands d' k ∧ Rest F k acts := by
  cases t with
  | absent => exact hp.elim
  | ticker u =>
    have hreq' : u.request = .ok (.read fd n) := hreq
    obtain ⟨u', hu, rfl⟩ := map_ok hres
    cases tick_of_resume hreq' hu
  | connection u =>
    obtain ⟨msg, rfl, _, _, hh⟩ := hp
    obtain ⟨u', hu, rfl⟩ := map_ok hres
    cases turn_of_resume hreq hu with
    | fetched _ hpos => cases hpos
    | ended hst =>
      rw [hst] at hh
      obtain ⟨_, hsends⟩ := hh
      refine ⟨_, rfl, rfl, (F.read hd hs).1, fun hr => ?_⟩
      obtain ⟨hpre, hfd, hle⟩ := hsends hr
      have hlen := hx.atEnd hd hr hfd hle hs
      refine hpre.eq_of_length_le ?_
      rw [List.length_drop]
      omega

theorem Rest.snoc (h : Rest F k acts) (hs : sent [.call req a] = [])
    (ha : ∀ seek, aimed seek (.call req a) = seek) : Rest F k (acts ++ [.call req a]) := by
  unfold Rest
  rw [sent_append, aim_snoc, hs, ha, List.append_nil]
  exact h

theorem answered_inside (hx : Exact F) (hu : UnderWay F k₀ w acts t d) (h : Answered F acts d t)
    (hm : Inside F t d act t' d') : Answered F (acts ++ [act]) d' t' := by
  obtain ⟨req, a, rfl, hin, hreq, hno, hs, hres⟩ := inside_call hm
  rintro ⟨act, hact, hend⟩
  obtain hact | hact := List.mem_append.mp hact
  · obtain ⟨u, k, rfl, hf, hd, hrest⟩ := h ⟨act, hact, hend⟩
    obtain ⟨u', hu', rfl⟩ := map_ok hres
    obtain ⟨hcalls, hf'⟩ := finishing_step hf hin hreq hno hu'
    obtain rfl | ⟨fd, rfl⟩ := hcalls
    · refine ⟨u', k, rfl, hf', ?_, hrest.snoc rfl fun _ => rfl⟩
      rw [hs.other rfl]
      exact hd
    · obtain ⟨env, hs⟩ := hs.file rfl
      exact ⟨u', k, rfl, hf', F.close hd hs, hrest.snoc rfl fun _ => rfl⟩
  · obtain ⟨fd, n, rfl, rfl⟩ : ∃ fd n, req = .read fd n ∧ a = .bytes [] := by
      rw [List.mem_singleton.mp hact] at hend
      unfold atEnd at hend
      split at hend
      · next heq =>
        cases heq
        exact ⟨_, _, rfl, rfl⟩
      · cases hend
    obtain ⟨k, hd, _, hp⟩ := hu
    obtain ⟨env, hs⟩ := hs.file rfl
    obtain ⟨u', rfl, hf, hd', hrest⟩ := ended_answered hx hp hd hreq hs hres
    exact ⟨u', k, rfl, hf, hd', hrest.snoc rfl fun _ => rfl⟩

theorem entered_answered (hx : Exact F) {i : Nat} (hw : Waits w t) (hd : F.stands d k)
    (h : Entered (threads F) i t d acts t' d') : Answered F acts d' t' := by
  induction h with
  | enter hm =>
    obtain ⟨_, rfl, _⟩ := hm
    rintro ⟨act, hact, hend⟩
    rw [List.mem_singleton.mp hact] at hend
    cases hend
  | inside he hm ih => exact answered_inside hx (entered_underWay hw hd he) ih hm

theorem section_answered (hx : Exact F) {i : Nat} (hw : Waits w t) (hd : F.stands d k)
    (h : Section (threads F) i t d acts t' d') (hend : ∃ act ∈ acts, atEnd act = true) :
    ∃ k', F.stands d' k' ∧ Rest F k' acts := by
  cases h with
  | @leave acts act t _ d _ he hl =>
    obtain ⟨rfl, rfl, _⟩ := hl
    obtain ⟨act, hact, hend⟩ := hend
    obtain hact | hact := List.mem_append.mp hact
    · obtain ⟨_, k', _, _, hd', hrest⟩ := entered_answered hx hw hd he ⟨act, hact, hend⟩
      exact ⟨k', hd', hrest.snoc rfl fun _ => rfl⟩
    · rw [List.mem_singleton.mp hact] at hend
      cases hend

theorem made_answers (hx : Exact F) {d₀ : δ} (hd : F.stands d₀ k₀) (h : Made F k₀ d₀ ps k d) :
    Answers F k₀ ps k := by
  induction h with
  | nil => exact .nil
  | snoc hmade hw hs hd' hg ih =>
    refine ih.snoc hg fun hend hr => ?_
    obtain ⟨k', hk', hrest⟩ := section_answered hx hw (hmade.stands hd) hs hend
    obtain ⟨hreadable, hshows, hseeks⟩ := hx.same hk' hd'
    rw [hrest (hreadable hr), hshows, begins, begins, hseeks]

/-- Where what the pieces add determines the content, every piece that has read
the file to its end has sent the rest of what the pieces up to it have made. -/
theorem answers_indexed (content : List Piece → κ) (h0 : content [] = k₀)
    (h : Answers F k₀ ps k)
    (hstep : ∀ qs p k', p ∈ ps → F.grows (content qs) (kept p.acts) k' → k' = content (qs ++ [p])) :
    k = content ps ∧ ∀ j p, ps[j]? = some p → (∃ act ∈ p.acts, atEnd act = true) →
      Rest F (content (ps.take (j + 1))) p.acts := by
  induction h with
  | nil => exact ⟨h0.symm, fun j p hp => by simp at hp⟩
  | @snoc ps p k k' _ hg hrest ih =>
    obtain ⟨hbefore, hreplies⟩ := ih fun qs q k hq => hstep qs q k (List.mem_append_left _ hq)
    subst hbefore
    have hk := hstep ps p k' (by simp) hg
    refine ⟨hk, fun j q hq hend => ?_⟩
    by_cases hj : j < ps.length
    · rw [List.getElem?_append_left hj] at hq
      rw [List.take_append_of_le_length hj]
      exact hreplies j q hq hend
    · have hlt := (List.getElem?_eq_some_iff.mp hq).1
      rw [List.length_append, List.length_singleton] at hlt
      obtain rfl : j = ps.length := by omega
      rw [List.getElem?_concat_length, Option.some.injEq] at hq
      subst hq
      rw [List.take_of_length_le (by simp), ← hk]
      exact hrest hend

end Aesd.Replies
