import Aesd.WholeSections

namespace Aesd.Pieces

open Aesd.Lib.BlockHeap Aesd.Lib.Transition Aesd.Lib.Monitor Aesd.CString Aesd.ServerThread
open Aesd.Connection Aesd.Rules
open Aesd.TimestampThread Aesd.FileThreads Aesd.Sections Aesd.WholeSections
open Aesd.Transactions (isDriver)

variable {δ η κ : Type}

/-- What a thread has gathered outside the mutex, and what it has taken the
mutex for so far. -/
def note : Purpose × List Purpose → Act → Purpose × List Purpose
  | (.message msg, done), .call .recv (.bytes bs) => (.message (msg ++ bs), done)
  | (_, done), .clock (some tm) => (.stamp (strftime timeMaxStrlen tm), done)
  | (w, done), .call .lock .done => (.message [], done ++ [w])
  | noted, _ => noted

def noted (acts : List Act) : Purpose × List Purpose := acts.foldl note (.message [], [])

theorem noted_snoc (acts : List Act) (act : Act) : noted (acts ++ [act]) = note (noted acts) act := by
  rw [noted, List.foldl_append]
  rfl

structure Piece where
  thread : Nat
  purpose : Purpose
  acts : List Act

/-- Pieces one after the other take one content to the other. -/
inductive Chain (F : Datafile δ η κ) (k₀ : κ) : List Piece → κ → Prop
  | nil : Chain F k₀ [] k₀
  | snoc {ps : List Piece} {p : Piece} {k k' : κ} : Chain F k₀ ps k → F.grows k (kept p.acts) k' →
      Fits F k' p.purpose p.acts → Chain F k₀ (ps ++ [p]) k'

inductive Made (F : Datafile δ η κ) (k₀ : κ) (d₀ : δ) : List Piece → κ → δ → Prop
  | nil : Made F k₀ d₀ [] k₀ d₀
  | snoc {ps : List Piece} {p : Piece} {k k' : κ} {d d' : δ} {t t' : Task} : Made F k₀ d₀ ps k d →
      Waits p.purpose t → Section (threads F) p.thread t d p.acts t' d' → F.stands d' k' →
      F.grows k (kept p.acts) k' → Made F k₀ d₀ (ps ++ [p]) k' d'

/-- What a thread does only with the mutex taken: it takes the mutex and gives
it up, calls the file, and sends. -/
def isInside : Act → Bool
  | .call .lock a => a = .done
  | .call req _ => isInward req
  | _ => false

def insideActs (acts : List (Nat × Act)) : List (Nat × Act) := acts.filter fun p => isInside p.2

/-- The mutex is taken at the beginning, and not again. -/
def Opened (acts : List Act) : Prop :=
  ∃ rest, acts = .call .lock .done :: rest ∧ ∀ a, .call .lock a ∉ rest

def Piece.labelled (p : Piece) : List (Nat × Act) := p.acts.map fun act => (p.thread, act)

def purposesOf (i : Nat) (ps : List Piece) : List Purpose :=
  (ps.filter fun p => p.thread = i).map Piece.purpose

def actsOf (i : Nat) (acts : List (Nat × Act)) : List Act := (ofTask i acts).map Prod.snd

/-- What the pieces of one thread have sent. -/
def sentOf (i : Nat) (ps : List Piece) : List UInt8 :=
  (ps.filter fun p => p.thread = i).flatMap fun p => sent p.acts

variable {F : Datafile δ η κ} {k k₀ : κ} {w : Purpose} {acts : List Act} {d d' : δ} {t t' : Task}
  {act : Act}

theorem note_other {noted : Purpose × List Purpose} {req : Request} {a : Answer}
    (hr : req = .recv → a = .failed) (hl : req = .lock → a ≠ .done) :
    note noted (.call req a) = noted := by
  obtain ⟨w, done⟩ := noted
  cases req with
  | recv =>
    obtain rfl := hr rfl
    cases w <;> rfl
  | lock =>
    cases a with
    | done => exact absurd rfl (hl rfl)
    | failed | kept | fd n | count n | bytes bs | ret r => cases w <;> rfl
  | sigmask | alloc | unlock | openFile | write fd bytes | ioctl fd c o | read fd n | close fd
  | send bytes | free | syslog => cases w <;> rfl

theorem note_born (noted : Purpose × List Purpose) : note noted .born = noted := by
  obtain ⟨w, done⟩ := noted
  cases w <;> rfl

theorem note_lock (w : Purpose) (done : List Purpose) :
    note (w, done) (.call .lock .done) = (.message [], done ++ [w]) := by
  cases w <;> rfl

theorem note_clock (w : Purpose) (done : List Purpose) (tm : Tm) :
    note (w, done) (.clock (some tm)) = (.stamp (strftime timeMaxStrlen tm), done) := by
  cases w <;> rfl

theorem waits_stamp (text : List UInt8) : Waits (.stamp text) (.ticker ⟨.lock, text⟩) := fun _ => rfl

theorem gathered_step {u u' : Session} {req : Request} {a : Answer}
    {noted : Purpose × List Purpose} (hw : Gathered noted.1 u.stage) (hout : holding u.stage = false)
    (hreq : u.request = .ok req) (hno : req = .lock → a ≠ .done) (hres : u.resume a = .ok u') :
    Gathered (note noted (.call req a)).1 u'.stage ∧ (note noted (.call req a)).2 = noted.2 := by
  cases turn_of_resume hreq hres with
  | masked hst =>
    rw [hst] at hw
    rw [note_other (by simp) (by simp)]
    exact ⟨hw, rfl⟩
  | allocated hst =>
    rw [note_other (by simp) (by simp)]
    have hroom : ([] : List UInt8).length + sockReadBufSize ≤ reallocLimit := by
      rw [List.length_nil, Nat.zero_add]
      exact sockReadBufSize_le
    obtain hst | hst := hst <;> rw [hst] at hw <;> exact ⟨⟨hw, hroom⟩, rfl⟩
  | grown hst hroom =>
    rw [hst] at hw
    rw [note_other (by simp) (by simp)]
    exact ⟨⟨hw.1, hroom⟩, rfl⟩
  | @received acc bs hst hbs =>
    rw [hst] at hw
    obtain ⟨w, done⟩ := noted
    obtain ⟨hacc, hroom⟩ := hw
    obtain rfl : w = .message acc := hacc
    have hlen : (acc ++ bs).length ≤ reallocLimit := by
      rw [List.length_append]
      omega
    unfold Session.received
    split
    · exact ⟨trivial, rfl⟩
    · split <;> exact ⟨⟨rfl, hlen⟩, rfl⟩
  | locked hst => exact absurd rfl (hno rfl)
  | freed | logged =>
    rw [note_other (by simp) (by simp)]
    exact ⟨trivial, rfl⟩
  | lost =>
    rw [note_other (fun _ => rfl) (by simp)]
    exact ⟨trivial, rfl⟩
  | aborted hh _ =>
    obtain ⟨line, p, hst⟩ | ⟨p, chunk, hst⟩ := stage_of_inHelper hh <;> rw [hst] at hout <;> cases hout
  | opened hst | wroteLine hst | wroteNewline hst | written hst | reopened hst | sought hst
  | fetched hst | ended hst | sent hst | replied hst | unlocked hst | sentShort hst
  | released hst =>
    rw [hst] at hout
    cases hout

theorem waits_alone {noted : Purpose × List Purpose} (hw : Waits noted.1 t) (h : Alone t act t') :
    Waits (note noted act).1 t' ∧ (note noted act).2 = noted.2 := by
  cases h with
  | accept c o =>
    rw [note_born]
    exact ⟨hw, rfl⟩
  | started =>
    rw [note_born]
    exact ⟨fun h => (by cases h), rfl⟩
  | @own _ _ req a hout hreq hno hres =>
    cases t with
    | absent => cases hreq
    | connection u =>
      obtain ⟨u', hu, rfl⟩ := map_ok hres
      exact gathered_step hw hout hreq hno hu
    | ticker u =>
      obtain ⟨u', hu, rfl⟩ := map_ok hres
      have hreq' : u.request = .ok req := hreq
      have hout' : ticking u.pc = false := hout
      cases tick_of_resume hreq' hu with
      | locked hpc => exact absurd rfl (hno rfl)
      | notLocked hpc =>
        rw [note_other (by simp) (by simp)]
        exact ⟨fun h => (by cases h), rfl⟩
      | opened hpc | notOpened hpc | wrote hpc | notWritten hpc | closed hpc | notClosed hpc
      | unlocked hpc | notUnlocked hpc | released hpc =>
        rw [hpc] at hout'
        cases hout'
  | @clock u u' tm hu =>
    obtain ⟨w, done⟩ := noted
    unfold Ticker.clocked at hu
    cases hpc : u.pc <;> cases tm <;> rw [hpc] at hu <;> cases hu
    · exact ⟨fun h => (by cases h), by cases w <;> rfl⟩
    · rw [note_clock]
      exact ⟨waits_stamp _, rfl⟩
  | @slept u u' hu =>
    obtain ⟨w, done⟩ := noted
    unfold Ticker.slept at hu
    cases hpc : u.pc <;> rw [hpc] at hu <;> cases hu
    exact ⟨fun h => (by cases h), by cases w <;> rfl⟩

theorem inward_of_inSection {req : Request} (hin : t.inSection = true)
    (hreq : t.request = .ok req) : isInward req = true :=
  (inSection_request hreq).symm.trans hin

theorem note_section {noted : Purpose × List Purpose} {req : Request} {a : Answer}
    (hin : t.inSection = true) (hreq : t.request = .ok req) :
    note noted (.call req a) = noted := by
  have hinward := inward_of_inSection hin hreq
  refine note_other (fun h => ?_) (fun h => ?_) <;> subst h <;> cases hinward

theorem foldl_note_entered {i : Nat} {done : List Purpose}
    (h : Entered (threads F) i t d acts t' d') :
    acts.foldl note (w, done) = (.message [], done ++ [w]) := by
  induction h with
  | enter hm =>
    obtain ⟨_, rfl, _⟩ := hm
    exact note_lock w done
  | inside _ hm ih =>
    rw [List.foldl_append, ih]
    obtain ⟨req, a, rfl, hin, hreq, _⟩ := inside_call hm
    exact note_section hin hreq

theorem waits_leave (hin : t.inSection = true) (hreq : t.request = .ok .unlock)
    (hres : t.resume .done = .ok t') : Waits (.message []) t' := by
  cases t with
  | absent => cases hin
  | connection u =>
    obtain ⟨u', hu, rfl⟩ := map_ok hres
    have hreq' : u.request = .ok .unlock := hreq
    cases turn_of_resume hreq' hu with
    | unlocked hst => exact rfl
    | released hst => exact trivial
  | ticker u =>
    obtain ⟨u', hu, rfl⟩ := map_ok hres
    have hreq' : u.request = .ok .unlock := hreq
    cases tick_of_resume hreq' hu with
    | unlocked hpc | released hpc => exact fun h => (by cases h)

theorem insideActs_append (es es' : List (Nat × Act)) :
    insideActs (es ++ es') = insideActs es ++ insideActs es' := List.filter_append ..

theorem isInside_of_ne {req : Request} (h : req ≠ .lock) (a : Answer) :
    isInside (.call req a) = isInward req := by
  cases req with
  | lock => exact absurd rfl h
  | sigmask | alloc | recv | unlock | openFile | write fd bytes | ioctl fd c o | read fd n | close fd
  | send bytes | free | syslog => rfl

theorem inward_inside (F : Datafile δ η κ) : Inward (threads F) isInside := by
  intro i t act t' h
  cases h with
  | accept c o => rfl
  | started => rfl
  | @own _ _ req a hout hreq hno _ =>
    by_cases hl : req = .lock
    · subst hl
      exact decide_eq_false (hno rfl)
    · rw [isInside_of_ne hl, ← inSection_request hreq]
      exact hout
  | clock h => rfl
  | slept h => rfl

theorem inside_isInside (hm : Inside F t d act t' d') :
    isInside act = true ∧ ∀ a, act ≠ .call .lock a := by
  obtain ⟨req, a, rfl, hin, hreq, _⟩ := inside_call hm
  have hinward := inward_of_inSection hin hreq
  have hl : req ≠ .lock := by
    rintro rfl
    cases hinward
  refine ⟨(isInside_of_ne hl a).trans hinward, fun b h => ?_⟩
  cases h
  exact hl rfl

theorem entered_inside {i : Nat} (h : Entered (threads F) i t d acts t' d') :
    Opened acts ∧ ∀ act ∈ acts, isInside act = true := by
  induction h with
  | enter hm =>
    obtain ⟨_, rfl, _⟩ := hm
    refine ⟨⟨[], rfl, fun a h => by cases h⟩, fun act hact => ?_⟩
    rw [List.mem_singleton.mp hact]
    rfl
  | inside _ hm ih =>
    obtain ⟨⟨rest, rfl, hrest⟩, hall⟩ := ih
    obtain ⟨hin, hne⟩ := inside_isInside hm
    refine ⟨⟨_, List.cons_append .., fun a h => ?_⟩, fun act hact => ?_⟩
    · obtain h | h := List.mem_append.mp h
      · exact hrest a h
      · exact hne a (List.mem_singleton.mp h).symm
    · obtain h | h := List.mem_append.mp hact
      · exact hall act h
      · rw [List.mem_singleton.mp h]
        exact hin

theorem Opened.unlock (h : Opened acts) : Opened (acts ++ [.call .unlock .done]) := by
  obtain ⟨rest, rfl, hrest⟩ := h
  refine ⟨_, List.cons_append .., fun a h => ?_⟩
  obtain h | h := List.mem_append.mp h
  · exact hrest a h
  · cases List.mem_singleton.mp h

/-- What has come of the threads' moves, with every section made at one go. -/
structure Told (F : Datafile δ η κ) (k₀ : κ) (es : List (Nat × Act)) (ts : Nat → Task) (d : δ)
    (ps : List Piece) (k : κ) : Prop where
  stands : F.stands d k
  chain : Chain F k₀ ps k
  inside : insideActs es = ps.flatMap Piece.labelled
  opened : ∀ p ∈ ps, Opened p.acts
  purposes : ∀ i, (noted (actsOf i es)).2 = purposesOf i ps
  waits : ∀ i, Waits (noted (actsOf i es)).1 (ts i)

theorem actsOf_append (i : Nat) (es es' : List (Nat × Act)) :
    actsOf i (es ++ es') = actsOf i es ++ actsOf i es' := by
  simp [actsOf]

theorem actsOf_self (i : Nat) (acts : List Act) : actsOf i (acts.map fun a => (i, a)) = acts := by
  simp [actsOf, ofTask, List.filter_map, Function.comp_def]

theorem actsOf_ne {i j : Nat} (h : j ≠ i) (acts : List Act) :
    actsOf i (acts.map fun a => (j, a)) = [] := by
  rw [actsOf, ofTask_map_ne h]
  rfl

theorem purposesOf_snoc (i : Nat) (ps : List Piece) (p : Piece) :
    purposesOf i (ps ++ [p]) = purposesOf i ps ++ if p.thread = i then [p.purpose] else [] := by
  rw [purposesOf, List.filter_append, List.map_append]
  by_cases h : p.thread = i <;> simp [purposesOf, h]

variable {es : List (Nat × Act)} {ts ts' : Nat → Task} {ps : List Piece} {i : Nat}

theorem Told.alone (h : Told F k₀ es ts d ps k) (hm : Alone (ts i) act t) :
    Told F k₀ (es ++ [(i, act)]) (Function.update ts i t) d ps k := by
  have hother : insideActs [(i, act)] = [] := by
    have hf : isInside act = false := inward_inside F i _ _ _ hm
    simp [insideActs, hf]
  have hacts : ∀ j, actsOf j (es ++ [(i, act)]) = actsOf j es ++ if i = j then [act] else [] := by
    intro j
    rw [actsOf_append]
    by_cases hij : i = j
    · rw [if_pos hij, ← hij]
      exact congrArg (actsOf i es ++ ·) (actsOf_self i [act])
    · rw [if_neg hij]
      exact congrArg (actsOf j es ++ ·) (actsOf_ne hij [act])
  refine ⟨h.stands, h.chain, ?_, h.opened, fun j => ?_, fun j => ?_⟩
  · rw [insideActs_append, hother, List.append_nil, h.inside]
  · rw [hacts j]
    by_cases hij : i = j
    · subst hij
      rw [if_pos rfl, noted_snoc, (waits_alone (h.waits i) hm).2, h.purposes]
    · rw [if_neg hij, List.append_nil, h.purposes]
  · rw [hacts j]
    by_cases hij : i = j
    · subst hij
      rw [if_pos rfl, noted_snoc, Function.update_self]
      exact (waits_alone (h.waits i) hm).1
    · rw [if_neg hij, List.append_nil, Function.update_of_ne (Ne.symm hij)]
      exact h.waits j

theorem Told.entered (h : Told F k₀ es ts d ps k) (he : Entered (threads F) i (ts i) d acts t' d') :
    ∃ w k', Waits w (ts i) ∧ F.stands d' k' ∧ F.grows k (kept acts) k' ∧ Fits F k' w acts ∧
      noted (actsOf i es ++ acts) = (.message [], purposesOf i ps ++ [w]) := by
  have hp := h.purposes i
  have hw := h.waits i
  cases hn : noted (actsOf i es) with
  | mk w done =>
    rw [hn] at hp hw
    obtain rfl : done = purposesOf i ps := hp
    obtain ⟨k', hd', hg, hphase⟩ := entered_underWay hw h.stands he
    refine ⟨w, k', hw, hd', hg, hphase.fits, ?_⟩
    rw [noted] at hn
    rw [noted, List.foldl_append, hn, foldl_note_entered he]

theorem inside_snoc (w : Purpose) (ps : List Piece) (hacts : ∀ act ∈ acts, isInside act = true)
    (h : insideActs es = ps.flatMap Piece.labelled) :
    insideActs (es ++ acts.map fun a => (i, a)) =
      (ps ++ [Piece.mk i w acts]).flatMap Piece.labelled := by
  have hall : insideActs (acts.map fun a => (i, a)) = acts.map fun a => (i, a) := by
    refine List.filter_eq_self.mpr fun p hp => ?_
    obtain ⟨act, hact, rfl⟩ := List.mem_map.mp hp
    exact hacts act hact
  rw [insideActs_append, h, hall, List.flatMap_append, List.flatMap_singleton]
  rfl

theorem opened_snoc {p : Piece} (h : ∀ p ∈ ps, Opened p.acts) (hp : Opened p.acts) :
    ∀ p' ∈ ps ++ [p], Opened p'.acts := by
  intro p' hp'
  obtain hp' | hp' := List.mem_append.mp hp'
  · exact h p' hp'
  · rw [List.mem_singleton.mp hp']
    exact hp

theorem actsOf_section (i j : Nat) (es : List (Nat × Act)) (acts : List Act) :
    actsOf j (es ++ acts.map fun a => (i, a)) = actsOf j es ++ if i = j then acts else [] := by
  rw [actsOf_append]
  by_cases hij : i = j
  · rw [if_pos hij, ← hij, actsOf_self]
  · rw [if_neg hij, actsOf_ne hij]

theorem unlock_silent (acts : List Act) : kept (acts ++ [.call .unlock .done]) = kept acts ∧
    sent (acts ++ [.call .unlock .done]) = sent acts ∧
    aim (acts ++ [.call .unlock .done]) = aim acts :=
  ⟨(kept_snoc _ _).trans (List.append_nil _), (sent_append _ _).trans (List.append_nil _),
    aim_snoc _ _⟩

theorem Told.whole (h : Told F k₀ es ts d ps k) (hs : Section (threads F) i (ts i) d acts t d') :
    ∃ w k', Told F k₀ (es ++ acts.map fun a => (i, a)) (Function.update ts i t) d'
      (ps ++ [⟨i, w, acts⟩]) k' ∧ Waits w (ts i) ∧ F.grows k (kept acts) k' := by
  cases hs with
  | @leave acts act t' _ d' _ he hl =>
    obtain ⟨rfl, rfl, hin, hreq, hres⟩ := hl
    obtain ⟨w, k', hw, hd', hg, hf, hn⟩ := h.entered he
    obtain ⟨hkept, hsent, haim⟩ := unlock_silent acts
    obtain ⟨hopen, hinside⟩ := entered_inside he
    have hinside' : ∀ act ∈ acts ++ [.call .unlock .done], isInside act = true := by
      intro act hact
      obtain hact | hact := List.mem_append.mp hact
      · exact hinside act hact
      · rw [List.mem_singleton.mp hact]
        rfl
    have hn' : noted (actsOf i es ++ (acts ++ [Act.call .unlock .done])) =
        (.message [], purposesOf i ps ++ [w]) := by
      rw [← List.append_assoc, noted_snoc, hn]
      exact note_section hin hreq
    have hf' : Fits F k' w (acts ++ [.call .unlock .done]) :=
      ⟨hf.bounded, hkept ▸ hf.fragment, haim ▸ hf.aims, by rw [hsent, haim]; exact hf.replies⟩
    rw [← hkept] at hg
    refine ⟨w, k', ⟨hd', h.chain.snoc hg hf', inside_snoc w ps hinside' h.inside,
      opened_snoc h.opened hopen.unlock, fun j => ?_, fun j => ?_⟩, hw, hg⟩
    · rw [actsOf_section, purposesOf_snoc]
      by_cases hij : i = j
      · rw [← hij, if_pos rfl, if_pos rfl, hn']
      · rw [if_neg hij, if_neg hij, List.append_nil, List.append_nil, h.purposes]
    · rw [actsOf_section]
      by_cases hij : i = j
      · rw [← hij, if_pos rfl, hn', Function.update_self]
        exact waits_leave hin hreq hres
      · rw [if_neg hij, List.append_nil, Function.update_of_ne (Ne.symm hij)]
        exact h.waits j

theorem told_serial {turns : List (Turn Nat Act)} {d₀ : δ} (hd : F.stands d₀ k₀)
    (h : Serial (threads F) (fun _ => Task.absent) d₀ turns ts d) :
    ∃ ps k, Told F k₀ (eventsOf turns) ts d ps k ∧ Made F k₀ d₀ ps k d := by
  induction h with
  | nil => exact ⟨[], k₀, ⟨hd, .nil, rfl, fun p hp => (by cases hp), fun _ => rfl, fun _ => rfl⟩, .nil⟩
  | alone _ hm ih =>
    obtain ⟨ps, k, h, hmade⟩ := ih
    rw [eventsOf_snoc]
    exact ⟨ps, k, h.alone hm, hmade⟩
  | @whole _ _ _ _ i acts _ _ hs ih =>
    obtain ⟨ps, k, h, hmade⟩ := ih
    rw [eventsOf_snoc]
    obtain ⟨w, k', h', hw, hg⟩ := h.whole hs
    exact ⟨ps ++ [Piece.mk i w acts], k', h', hmade.snoc hw hs h'.stands hg⟩

/-- Where what is added joins a text, the text is what the pieces have added. -/
theorem Chain.content (h : Chain F k₀ ps k) (text : κ → List UInt8)
    (hgrows : ∀ k bs k', F.grows k bs k' → text k' = text k ++ bs) :
    text k = text k₀ ++ ps.flatMap fun p => kept p.acts := by
  induction h with
  | nil => exact (List.append_nil _).symm
  | snoc _ hg _ ih =>
    rw [hgrows _ _ _ hg, ih, List.flatMap_append, List.flatMap_singleton, List.append_assoc]

theorem Chain.fits (h : Chain F k₀ ps k) : ∀ p ∈ ps, ∃ k, Fits F k p.purpose p.acts := by
  induction h with
  | nil =>
    intro p hp
    cases hp
  | snoc _ _ hf ih =>
    intro p hp
    obtain hp | hp := List.mem_append.mp hp
    · exact ih p hp
    · rw [List.mem_singleton.mp hp]
      exact ⟨_, hf⟩

theorem Made.whole {d₀ : δ} (h : Made F k₀ d₀ ps k d) :
    ∀ p ∈ ps, (∀ act ∈ p.acts, wrote act = true) → kept p.acts = whole p.purpose := by
  induction h with
  | nil =>
    intro p hp
    cases hp
  | snoc _ hw hs _ _ ih =>
    intro p hp
    obtain hp | hp := List.mem_append.mp hp
    · exact ih p hp
    · rw [List.mem_singleton.mp hp]
      exact section_whole hw hs

theorem Made.stands {d₀ : δ} (hd : F.stands d₀ k₀) (h : Made F k₀ d₀ ps k d) : F.stands d k := by
  cases h with
  | nil => exact hd
  | snoc _ _ _ hd' _ => exact hd'

theorem sent_inside (i : Nat) (es : List (Nat × Act)) :
    sent (actsOf i es) = sent (actsOf i (insideActs es)) := by
  induction es with
  | nil => rfl
  | cons e es ih =>
    obtain ⟨j, act⟩ := e
    have hsplit : ∀ fs : List (Nat × Act), sent (actsOf i ((j, act) :: fs)) =
        sent (actsOf i [(j, act)]) ++ sent (actsOf i fs) := fun fs =>
      (congrArg sent (actsOf_append i [(j, act)] fs)).trans (sent_append _ _)
    cases hin : isInside act with
    | true =>
      have hcons : insideActs ((j, act) :: es) = (j, act) :: insideActs es :=
        List.filter_cons_of_pos hin
      rw [hcons, hsplit es, hsplit (insideActs es), ih]
    | false =>
      have hcons : insideActs ((j, act) :: es) = insideActs es :=
        List.filter_cons_of_neg (by simp [hin])
      have hnil : sent (actsOf i [(j, act)]) = [] := by
        by_cases hji : j = i
        · rw [hji]
          refine (congrArg sent (actsOf_self i [act])).trans ?_
          cases act with
          | born | clock tm | slept => rfl
          | call req a =>
            cases req with
            | send bytes => cases hin
            | sigmask | alloc | recv | lock | unlock | openFile | write fd bytes | ioctl fd c o
            | read fd n | close fd | free | syslog => rfl
        · exact congrArg sent (actsOf_ne hji [act])
      rw [hcons, hsplit es, hnil, List.nil_append, ih]

theorem sentOf_eq (h : insideActs es = ps.flatMap Piece.labelled) (i : Nat) :
    sentOf i ps = sent (actsOf i es) := by
  rw [sent_inside, h]
  clear h
  induction ps with
  | nil => rfl
  | cons p ps ih =>
    rw [List.flatMap_cons, actsOf_append, sent_append, ← ih]
    by_cases hp : p.thread = i
    · rw [sentOf, List.filter_cons_of_pos (by simpa using hp), List.flatMap_cons, sentOf,
        Piece.labelled, hp, actsOf_self]
    · rw [sentOf, List.filter_cons_of_neg (by simpa using hp), sentOf, Piece.labelled,
        actsOf_ne hp]
      rfl

/-- Whatever order the threads move in and whatever fails: what they do with the
mutex taken is done in pieces one after the other, one for each time the mutex
was taken, and every piece is what its thread took the mutex for. When the mutex
is free, the pieces are whole sections. -/
theorem run_pieces {d₀ : δ} {s : System Nat Task δ} (hd : F.stands d₀ k₀)
    (h : Run (threads F) ⟨none, d₀, fun _ => .absent⟩ es s) :
    ∃ ps k, F.stands s.shared k ∧ Chain F k₀ ps k ∧
      insideActs es = ps.flatMap Piece.labelled ∧ (∀ p ∈ ps, Opened p.acts) ∧
      (∀ i, purposesOf i ps = (noted (actsOf i es)).2) ∧
      (s.owner = none → Made F k₀ d₀ ps k s.shared) := by
  obtain ⟨turns, ts, d, pending, hser, hpend, hsame⟩ := run_serialises h
  obtain ⟨ps, k, ht, hmade⟩ := told_serial hd hser
  have hinside : insideActs es = insideActs (eventsOf turns ++ pending) :=
    hsame.inner isInside (inward_inside F)
  have hacts : ∀ i, actsOf i es = actsOf i (eventsOf turns ++ pending) := fun i =>
    congrArg (List.map Prod.snd) (hsame.each i)
  unfold Pending at hpend
  cases ho : s.owner with
  | none =>
    rw [ho] at hpend
    obtain ⟨rfl, _, hq⟩ := hpend
    simp only [List.append_nil] at hinside hacts
    refine ⟨ps, k, hq ▸ ht.stands, ht.chain, hinside.trans ht.inside, ht.opened, fun i => ?_,
      fun _ => hq ▸ hmade⟩
    rw [hacts, ht.purposes]
  | some i =>
    rw [ho] at hpend
    obtain ⟨acts, t, rfl, hent, _⟩ := hpend
    obtain ⟨w, k', _, hd', hg, hf, hn⟩ := ht.entered hent
    obtain ⟨hopen, hall⟩ := entered_inside hent
    refine ⟨ps ++ [⟨i, w, acts⟩], k', hd', ht.chain.snoc hg hf,
      hinside.trans (inside_snoc w ps hall ht.inside), opened_snoc ht.opened hopen, fun j => ?_,
      fun h => by cases h⟩
    rw [hacts, actsOf_section, purposesOf_snoc]
    by_cases hij : i = j
    · rw [← hij, if_pos rfl, if_pos rfl, hn]
    · rw [if_neg hij, if_neg hij, List.append_nil, List.append_nil, ht.purposes]

end Aesd.Pieces
