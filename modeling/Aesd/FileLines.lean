import Aesd.FileSections
import Aesd.Replies

namespace Aesd.FileLines

open Aesd.Lib.BlockHeap Aesd.Lib.Transition Aesd.ServerThread Aesd.Connection
open Aesd.TimestampThread Aesd.DataFile Aesd.FileThreads Aesd.Sections Aesd.WholeSections
open Aesd.Pieces Aesd.FileSections Aesd.Replies
open Aesd.RecordLog (newline)

variable {d d' : Disk} {fd : Nat}

theorem serve_atEnd {count p : Nat} {env : Env} (hcount : 0 < count) (hp : d.files fd = some p)
    (h : serveFile d (.read fd count) env = .ok (.bytes [], d')) : d.content.length ≤ p := by
  cases env with
  | moved fails short =>
    simp only [serveFile, hp] at h
    cases fails with
    | true => cases h
    | false =>
      simp only [Bool.false_eq_true, if_false, Except.ok.injEq, Prod.mk.injEq,
        Answer.bytes.injEq, List.take_eq_nil_iff, List.drop_eq_nil_iff] at h
      omega
  | plain _ | kept | opened _ | received _ | sought => cases h

theorem exact_regularFile : Exact regularFile where
  atEnd hd _ hp _ hs := by
    obtain rfl := hd
    exact serve_atEnd (by decide) hp hs
  same hd hd' := by
    obtain rfl := hd
    obtain rfl := hd'
    exact ⟨id, rfl, rfl⟩

theorem answers_content {ps : List Piece} {bs : List UInt8} (h : Answers regularFile [] ps bs) :
    (bs = ps.flatMap fun p => kept p.acts) ∧
      ∀ j p, ps[j]? = some p → (∃ act ∈ p.acts, atEnd act = true) →
        sent p.acts = (ps.take (j + 1)).flatMap fun p => kept p.acts := by
  obtain ⟨hbs, hrest⟩ := answers_indexed (fun ps => ps.flatMap fun p => kept p.acts) rfl h
    fun qs p k' _ hg => by
      have hg' : k' = (qs.flatMap fun p => kept p.acts) ++ kept p.acts := hg
      rw [hg', List.flatMap_append, List.flatMap_singleton]
  refine ⟨hbs, fun j p hp hend => ?_⟩
  rw [hrest j p hp hend trivial]
  cases aim p.acts <;> rfl

theorem wrote_clocked {events : List Event}
    (hwrote : ∀ i req a, .call i req a ∈ events → wrote (.call req a) = true)
    (hclock : ∀ tm, .clock (some tm) ∈ events → tm.Valid) {i : Nat} {act : Act}
    (hmem : (i, act) ∈ actsIn events) :
    wrote act = true ∧ ∀ tm, act = .clock (some tm) → tm.Valid := by
  obtain h | h := List.mem_cons.mp hmem
  · cases h
    exact ⟨rfl, fun tm h => by cases h⟩
  · obtain ⟨e, he, h⟩ := List.mem_map.mp h
    cases e with
    | call j req a =>
      cases h
      exact ⟨hwrote _ _ _ he, fun tm h => by cases h⟩
    | clock tm =>
      cases h
      exact ⟨rfl, fun tm h => (by cases h; exact hclock _ he)⟩
    | created j | slept =>
      cases h
      exact ⟨rfl, fun tm h => by cases h⟩

/-- Whatever order the timestamp thread and the threads of the connections move
in: while every open of the file succeeds and every write takes all it is given,
the lines of the file, whenever the mutex is free, are those of the messages and
the times, in the order in which the mutex was taken for them; and who has read
the file to its end has sent the lines up to its own. -/
theorem file_lines {labels : List Label} {events : List Event} {s : Server}
    (hx : exec Server.step Server.init labels = .ok (events, s))
    (hfree : s.shared.fileMutex = none)
    (hwrote : ∀ i req a, .call i req a ∈ events → wrote (.call req a) = true)
    (hclock : ∀ tm, .clock (some tm) ∈ events → tm.Valid) :
    ∃ ps, insideActs (actsIn events) = ps.flatMap Piece.labelled ∧ (∀ p ∈ ps, Opened p.acts) ∧
      (∀ i, purposesOf i ps = (noted (actsOf i (actsIn events))).2) ∧
      (∀ i, sentOf i ps = sent (actsOf i (actsIn events))) ∧
      s.shared.disk.content.splitOn newline = (ps.flatMap fun p => lines p.purpose) ++ [[]] ∧
      ∀ j p, ps[j]? = some p → (∃ act ∈ p.acts, atEnd act = true) →
        (sent p.acts).splitOn newline =
          ((ps.take (j + 1)).flatMap fun p => lines p.purpose) ++ [[]] := by
  obtain ⟨σ, hsh, _, hrun⟩ := run_moves hx
  have hstands : regularFile.stands ⟨none, fun _ => none⟩ [] := rfl
  obtain ⟨ps, bs, hbs, _, hinside, hopened, hpurposes, hmade⟩ := run_pieces hstands hrun
  have hmade := hmade (hsh.owner.trans hfree)
  obtain ⟨hcontent, hreplies⟩ := answers_content (made_answers exact_regularFile hstands hmade)
  have hlines := made_lines hmade hinside hpurposes fun i act => wrote_clocked hwrote hclock
  refine ⟨ps, hinside, hopened, hpurposes, sentOf_eq hinside, ?_, fun j p hp hend => ?_⟩
  · have hbytes : s.shared.disk.content = bs := by
      rw [← hsh.shared]
      exact hbs
    rw [hbytes, hcontent]
    exact split_lines hlines
  · rw [hreplies j p hp hend]
    exact split_lines fun q hq => hlines q (List.mem_of_mem_take hq)

/-- A client is gone before it has its reply; the timestamp waits meanwhile, and
after it another client has its own. -/
def unsentReply : List Label :=
  [.clock (some ⟨123, 6, 14, 12, 34, 56⟩), .accept 0 0, .accept 0 0, .thread 0 (.plain false),
    .thread 0 (.plain false), .thread 1 (.plain false), .thread 1 (.plain false),
    .thread 0 (.received (some [97, newline])), .thread 0 (.plain false),
    .thread 0 (.opened (some 3)), .thread 0 (.moved false 0), .thread 0 (.moved false 0),
    .thread 0 (.plain false), .thread 0 (.opened (some 3)), .thread 0 .sought,
    .thread 0 (.moved false 0), .thread 0 (.moved true 0), .thread 0 (.plain false),
    .tick (.plain false), .tick (.opened (some 4)), .tick (.moved false 0), .tick (.plain false),
    .tick (.plain false), .thread 1 (.received (some [98, newline])), .thread 1 (.plain false),
    .thread 1 (.opened (some 4)), .thread 1 (.moved false 0), .thread 1 (.moved false 0),
    .thread 1 (.plain false), .thread 1 (.opened (some 4)), .thread 1 .sought,
    .thread 1 (.moved false 0), .thread 1 (.moved false 0), .thread 1 (.moved false 0),
    .thread 1 (.plain false), .thread 1 (.plain false)]

theorem unsentReply_lines : ∃ events, ∃ s : Server,
    exec Server.step Server.init unsentReply = .ok (events, s) ∧
      s.shared.disk.content.splitOn newline = [[97], stamp ⟨123, 6, 14, 12, 34, 56⟩, [98], []] ∧
      ∃ ps, (∀ i, purposesOf i ps = (noted (actsOf i (actsIn events))).2) ∧
        (ps.flatMap fun p => lines p.purpose) = [[97], stamp ⟨123, 6, 14, 12, 34, 56⟩, [98]] ∧
        sentOf 1 ps = [] ∧
        (sentOf 2 ps).splitOn newline = [[97], stamp ⟨123, 6, 14, 12, 34, 56⟩, [98], []] := by
  have hrun : (exec Server.step Server.init unsentReply).toOption.map (fun p =>
      (p.2.shared.fileMutex, p.2.shared.disk.content.splitOn newline,
        p.1.all (fun e => wrote (actOf e).2), p.1.filter fun e => e matches .clock _)) =
      some (none, [[97], stamp ⟨123, 6, 14, 12, 34, 56⟩, [98], []], true,
        [.clock (some ⟨123, 6, 14, 12, 34, 56⟩)]) := by decide +kernel
  have hsends : (exec Server.step Server.init unsentReply).toOption.map (fun p =>
      (sent (actsOf 1 (actsIn p.1)), (sent (actsOf 2 (actsIn p.1))).splitOn newline)) =
      some ([], [[97], stamp ⟨123, 6, 14, 12, 34, 56⟩, [98], []]) := by decide +kernel
  cases hx : exec Server.step Server.init unsentReply with
  | error e =>
    rw [hx] at hrun
    cases hrun
  | ok p =>
    obtain ⟨events, s⟩ := p
    rw [hx] at hrun hsends
    simp only [Except.toOption, Option.map_some, Option.some.injEq, Prod.mk.injEq] at hrun hsends
    obtain ⟨hfree, hlines, hwrote, hclocks⟩ := hrun
    obtain ⟨ps, _, _, hpurposes, hsent, hsplit, _⟩ := file_lines hx hfree
      (fun i req a h => List.all_eq_true.mp hwrote _ h)
      (fun tm h => by
        have hmem : Event.clock (some tm) ∈ events.filter fun e => e matches .clock _ :=
          List.mem_filter.mpr ⟨h, rfl⟩
        rw [hclocks] at hmem
        cases List.mem_singleton.mp hmem
        exact ⟨by decide, by decide, by decide, by decide, by decide, by decide⟩)
    refine ⟨events, s, rfl, hlines, ps, hpurposes, ?_, (hsent 1).trans hsends.1, ?_⟩
    · rw [hlines] at hsplit
      have hsplit' : [[97], stamp ⟨123, 6, 14, 12, 34, 56⟩, [98]] ++ [[]] =
          (ps.flatMap fun p => lines p.purpose) ++ [[]] := hsplit
      exact (List.append_cancel_right hsplit').symm
    · rw [hsent 2]
      exact hsends.2

end Aesd.FileLines
