import Aesd.Lib.Decimal
import Aesd.SeekCommands
import Aesd.Serialisability

namespace Aesd.SeekText

open Aesd.Lib.Decimal Aesd.Lib.Sequence Aesd.Lib.Transition Aesd.CString Aesd.RecordLog
open Aesd.ServerThread Aesd.Connection Aesd.Aesdsocket Aesd.SeekCommands Aesd.Transactions
open Aesd.Serialisability

inductive Sign
  | none
  | plus
  | minus

def Sign.bytes : Sign → List UInt8
  | .none => []
  | .plus => [CString.plus]
  | .minus => [CString.minus]

def Sign.factor : Sign → Int
  | .none | .plus => 1
  | .minus => -1

/-- The text of one `%d`: white space, a sign, and at least one digit. -/
structure IntField where
  spaces : List UInt8
  sign : Sign
  digits : List UInt8
  spaces_isSpace : ∀ b ∈ spaces, isSpace b = true
  digits_isDigit : ∀ b ∈ digits, CString.isDigit b = true
  digits_ne : digits ≠ []

def IntField.bytes (f : IntField) : List UInt8 := f.spaces ++ f.sign.bytes ++ f.digits

def IntField.val (f : IntField) : Int := f.sign.factor * value f.digits

/-- What comes after a number in the text does not go on with it. -/
def Ends (rest : List UInt8) : Prop := ∀ b ∈ rest.head?, CString.isDigit b = false

instance (rest : List UInt8) : Decidable (Ends rest) :=
  match rest with
  | [] => .isTrue fun b hb => by cases hb
  | b :: _ => decidable_of_iff (CString.isDigit b = false) (by simp [Ends])

theorem span_append {p : UInt8 → Bool} {as rest : List UInt8} (h : ∀ b ∈ as, p b = true)
    (hr : ∀ b ∈ rest.head?, p b = false) :
    (as ++ rest).takeWhile p = as ∧ (as ++ rest).dropWhile p = rest := by
  have htake : rest.takeWhile p = [] ∧ rest.dropWhile p = rest := by
    cases rest with
    | nil => exact ⟨rfl, rfl⟩
    | cons b rest =>
      have hb := hr b rfl
      simp [hb]
  rw [List.takeWhile_append_of_pos h, List.dropWhile_append_of_pos h, htake.1, htake.2,
    List.append_nil]
  exact ⟨rfl, rfl⟩

theorem ends_dropWhile (s : List UInt8) (p : UInt8 → Bool) :
    ∀ b ∈ (s.dropWhile p).head?, p b = false := by
  intro b hb
  have h := List.head?_dropWhile_not p s
  rw [Option.mem_def.mp hb] at h
  exact h

theorem isDigit_plain {b : UInt8} (h : CString.isDigit b = true) :
    isSpace b = false ∧ b ≠ CString.minus ∧ b ≠ CString.plus ∧ b ≠ nul ∧ b ≠ comma := by
  simp only [CString.isDigit, Bool.and_eq_true, decide_eq_true_eq, UInt8.le_iff_toNat_le] at h
  have hne : ∀ c : UInt8, c.toNat < 48 → b ≠ c := by
    rintro c hc rfl
    exact absurd h.1 (Nat.not_le_of_lt hc)
  refine ⟨?_, hne _ (by decide), hne _ (by decide), hne _ (by decide), hne _ (by decide)⟩
  have h32 : b ≠ 32 := hne _ (by decide)
  have h13 : ¬ b ≤ 13 := by
    rw [UInt8.le_iff_toNat_le]
    exact fun hle => absurd (h.1.trans hle) (by decide)
  simp [isSpace, h32, h13]

theorem scanSign_append (g : Sign) {ds : List UInt8} (h : ∀ b ∈ ds.head?, CString.isDigit b = true) :
    scanSign (g.bytes ++ ds) = (g.factor, ds) := by
  cases g with
  | none =>
    cases ds with
    | nil => rfl
    | cons d ds =>
      obtain ⟨_, hm, hp, _⟩ := isDigit_plain (h d rfl)
      simp [Sign.bytes, Sign.factor, scanSign, hm, hp]
  | plus => rfl
  | minus => rfl

theorem scanSign_cases (s : List UInt8) :
    ∃ g : Sign, s = g.bytes ++ (scanSign s).2 ∧ (scanSign s).1 = g.factor := by
  cases s with
  | nil => exact ⟨.none, rfl, rfl⟩
  | cons b s =>
    by_cases hm : b = CString.minus
    · exact ⟨.minus, by simp [scanSign, hm, Sign.bytes], by simp [scanSign, hm, Sign.factor]⟩
    · by_cases hp : b = CString.plus
      · refine ⟨.plus, ?_, ?_⟩
        · simp [scanSign, hp, Sign.bytes, CString.plus, CString.minus]
        · simp [scanSign, hp, Sign.factor, CString.plus, CString.minus]
      · exact ⟨.none, by simp [scanSign, hm, hp, Sign.bytes], by simp [scanSign, hm, hp, Sign.factor]⟩

theorem scanInt_eq_some {s rest : List UInt8} {z : Int} :
    scanInt s = some (z, rest) ↔ ∃ f : IntField, s = f.bytes ++ rest ∧ f.val = z ∧ Ends rest := by
  constructor
  · intro h
    obtain ⟨g, hg, hfactor⟩ := scanSign_cases (s.dropWhile isSpace)
    simp only [scanInt] at h
    split at h
    · cases h
    · next hne =>
      simp only [Option.some.injEq, Prod.mk.injEq] at h
      obtain ⟨hz, rfl⟩ := h
      let after := (scanSign (s.dropWhile isSpace)).2
      refine ⟨⟨s.takeWhile isSpace, g, after.takeWhile CString.isDigit,
        fun b hb => List.mem_takeWhile_imp hb, fun b hb => List.mem_takeWhile_imp hb, hne⟩, ?_, ?_,
        ends_dropWhile _ _⟩
      · calc s = s.takeWhile isSpace ++ s.dropWhile isSpace := List.takeWhile_append_dropWhile.symm
          _ = s.takeWhile isSpace ++ (g.bytes ++ after) := by rw [← hg]
          _ = _ := by
            simp only [IntField.bytes, List.append_assoc, after, List.takeWhile_append_dropWhile]
      · rw [← hz, hfactor]
        rfl
  · rintro ⟨f, rfl, rfl, hends⟩
    obtain ⟨d, ds, hd⟩ := List.exists_cons_of_ne_nil f.digits_ne
    have hdigit : CString.isDigit d = true := f.digits_isDigit d (by rw [hd]; exact List.mem_cons_self)
    have hhead : ∀ b ∈ (f.digits ++ rest).head?, CString.isDigit b = true := by
      intro b hb
      rw [hd, List.cons_append, List.head?_cons, Option.mem_def, Option.some.injEq] at hb
      rwa [← hb]
    have hspace : ∀ b ∈ (f.sign.bytes ++ (f.digits ++ rest)).head?, isSpace b = false := by
      intro b hb
      cases hs : f.sign with
      | none =>
        rw [hs] at hb
        exact (isDigit_plain (hhead b hb)).1
      | plus | minus =>
        rw [hs, Option.mem_def] at hb
        cases hb
        rfl
    have hbytes : f.bytes ++ rest = f.spaces ++ (f.sign.bytes ++ (f.digits ++ rest)) := by
      simp only [IntField.bytes, List.append_assoc]
    have hdigits := span_append f.digits_isDigit hends
    simp only [scanInt, hbytes, (span_append f.spaces_isSpace hspace).2, scanSign_append f.sign hhead,
      hdigits.1, hdigits.2, f.digits_ne, if_false]
    rfl

def literal : List UInt8 := iocseektoCmdStr.take (iocseektoCmdStrlen + 1)

structure Command where
  writeCmd : IntField
  writeCmdOffset : IntField

def Command.bytes (t : Command) : List UInt8 :=
  literal ++ (t.writeCmd.bytes ++ comma :: t.writeCmdOffset.bytes)

def Command.target (t : Command) : Nat × Nat :=
  (toUint32 t.writeCmd.val, toUint32 t.writeCmdOffset.val)

theorem IntField.nul_notMem (f : IntField) : nul ∉ f.bytes := by
  intro h
  rw [IntField.bytes, List.append_assoc, List.mem_append, List.mem_append] at h
  obtain h | h | h := h
  · exact absurd (f.spaces_isSpace nul h) (by decide)
  · cases hs : f.sign <;> rw [hs] at h <;> simp [Sign.bytes, nul, CString.plus, CString.minus] at h
  · exact (isDigit_plain (f.digits_isDigit nul h)).2.2.2.1 rfl

theorem Command.nul_notMem (t : Command) : nul ∉ t.bytes := by
  intro h
  rw [Command.bytes, List.mem_append, List.mem_append, List.mem_cons] at h
  obtain h | h | h | h := h
  · exact absurd h (by decide)
  · exact t.writeCmd.nul_notMem h
  · exact absurd h (by decide)
  · exact t.writeCmdOffset.nul_notMem h

theorem ends_takeWhile (rest : List UInt8) :
    Ends (rest.takeWhile fun b => b ≠ nul) ↔ Ends rest := by
  cases rest with
  | nil => exact Iff.rfl
  | cons b rest =>
    by_cases hb : b = nul
    · subst hb
      simp [Ends, CString.isDigit, nul]
    · simp [Ends, hb]

theorem takeWhile_text (t : Command) (rest : List UInt8) :
    (t.bytes ++ rest).takeWhile (fun b => b ≠ nul) =
      t.bytes ++ rest.takeWhile fun b => b ≠ nul :=
  List.takeWhile_append_of_pos fun b hb => by
    have hne : b ≠ nul := fun h => t.nul_notMem (h ▸ hb)
    simpa using hne

theorem sscanf_eq_some {s : List UInt8} {c o : Nat} :
    sscanfIocseekto s = (some c, some o) ↔
      ∃ t : Command, ∃ rest, s = t.bytes ++ rest ∧ Ends rest ∧ t.target = (c, o) := by
  constructor
  · intro h
    simp only [sscanfIocseekto] at h
    split at h
    · next hp =>
      obtain ⟨after, hafter⟩ := List.isPrefixOf_iff_prefix.mp hp
      have hdrop : s.drop literal.length = after := by
        rw [← hafter]
        exact List.drop_left
      rw [show iocseektoCmdStr.take (iocseektoCmdStrlen + 1) = literal from rfl, hdrop] at h
      cases hfirst : scanInt after with
      | none =>
        rw [hfirst] at h
        cases h
      | some p =>
        obtain ⟨z, tail⟩ := p
        obtain ⟨f, hf, hz, _⟩ := scanInt_eq_some.mp hfirst
        rw [hfirst] at h
        cases tail with
        | nil => cases h
        | cons b tail =>
          dsimp only at h
          by_cases hb : b = comma
          · rw [if_pos hb, Prod.mk.injEq, Option.some.injEq] at h
            cases hsecond : scanInt tail with
            | none =>
              rw [hsecond] at h
              cases h.2
            | some q =>
              obtain ⟨z', rest⟩ := q
              obtain ⟨g, hg, hz', hends⟩ := scanInt_eq_some.mp hsecond
              rw [hsecond, Option.map_some, Option.some.injEq] at h
              refine ⟨⟨f, g⟩, rest, ?_, hends, ?_⟩
              · rw [← hafter, hf, hg, hb]
                simp only [Command.bytes, literal, List.append_assoc, List.cons_append]
              · rw [Command.target, hz, hz', h.1, h.2]
          · rw [if_neg hb] at h
            cases h
    · cases h
  · rintro ⟨t, rest, rfl, hends, ht⟩
    have hcomma : Ends (comma :: (t.writeCmdOffset.bytes ++ rest)) := by
      intro b hb
      cases hb
      rfl
    have hfirst := scanInt_eq_some.mpr ⟨t.writeCmd, rfl, rfl, hcomma⟩
    have hsecond := scanInt_eq_some.mpr ⟨t.writeCmdOffset, rfl, rfl, hends⟩
    have hbytes : t.bytes ++ rest =
        literal ++ (t.writeCmd.bytes ++ comma :: (t.writeCmdOffset.bytes ++ rest)) := by
      simp only [Command.bytes, List.append_assoc, List.cons_append]
    have hp : literal.isPrefixOf (t.bytes ++ rest) = true := by
      rw [hbytes]
      exact List.isPrefixOf_iff_prefix.mpr (List.prefix_append _ _)
    obtain ⟨rfl, rfl⟩ := Prod.mk.inj ht
    simp only [sscanfIocseekto]
    rw [show iocseektoCmdStr.take (iocseektoCmdStrlen + 1) = literal from rfl, hp, if_pos rfl, hbytes,
      List.drop_left, hfirst]
    simp only [if_true, hsecond, Option.map_some]

/-- The messages the server takes for seek commands with both coordinates are
those that begin with the text of one, and the coordinates are those it says. -/
theorem coordinates_iff {msg : List UInt8} {c o : Nat} :
    coordinates msg = some (c, o) ↔
      ∃ t : Command, ∃ rest, msg = t.bytes ++ rest ∧ Ends rest ∧ t.target = (c, o) := by
  rw [coordinates_eq_some, seekOf, sscanf_eq_some]
  constructor
  · rintro ⟨t, rest, hmsg, hends, ht⟩
    refine ⟨t, rest ++ msg.dropWhile (fun b => b ≠ nul), ?_, ?_, ht⟩
    · rw [← List.append_assoc, ← hmsg, List.takeWhile_append_dropWhile]
    · cases rest with
      | nil =>
        intro b hb
        have hstop := ends_dropWhile msg (fun b => b ≠ nul) b hb
        have hnul : b = nul := by simpa using hstop
        rw [hnul]
        rfl
      | cons b rest => exact hends
  · rintro ⟨t, rest, rfl, hends, ht⟩
    exact ⟨t, _, takeWhile_text t rest, (ends_takeWhile rest).mpr hends, ht⟩

theorem isDigit_ascii {b : UInt8} (h : IsDigit b) : CString.isDigit b = true := by
  simp only [CString.isDigit, Bool.and_eq_true, decide_eq_true_eq]
  exact h

def IntField.ofNat (n : Nat) : IntField where
  spaces := []
  sign := .none
  digits := decimal n
  spaces_isSpace := fun b hb => by cases hb
  digits_isDigit := fun b hb => isDigit_ascii (isDigit_decimal n b hb)
  digits_ne := decimal_ne_nil n

def Command.print (c o : Nat) : Command := ⟨.ofNat c, .ofNat o⟩

example : (Command.print 0 12).bytes =
    chars ['A', 'E', 'S', 'D', 'C', 'H', 'A', 'R', '_', 'I', 'O', 'C', 'S', 'E', 'E', 'K', 'T', 'O',
      ':', '0', ',', '1', '2'] := by decide

theorem val_ofNat (n : Nat) : (IntField.ofNat n).val = n := by
  simp [IntField.val, IntField.ofNat, Sign.factor, value_decimal]

theorem toUint32_natCast {n : Nat} (h : n < 2 ^ 63) : toUint32 n = n % 2 ^ 32 := by
  unfold toUint32
  omega

theorem target_print {c o : Nat} (hc : c < 2 ^ 63) (ho : o < 2 ^ 63) :
    (Command.print c o).target = (c % 2 ^ 32, o % 2 ^ 32) := by
  rw [Command.target, Command.print, val_ofNat, val_ofNat, toUint32_natCast hc, toUint32_natCast ho]

theorem isCommand_text (t : Command) (rest : List UInt8) : isCommand (t.bytes ++ rest) = true := by
  have hlit : iocseektoCmdStr.take iocseektoCmdStrlen <+: literal :=
    List.take_prefix_take_left (Nat.le_succ _)
  refine List.isPrefixOf_iff_prefix.mpr (hlit.trans ?_)
  rw [Command.bytes, List.append_assoc]
  exact List.prefix_append _ _

theorem seekTarget_text (t : Command) {rest : List UInt8} (h : Ends rest) :
    seekTarget (t.bytes ++ rest) = t.target := by
  have hco : coordinates (t.bytes ++ rest) = some (t.target.1, t.target.2) :=
    coordinates_iff.mpr ⟨t, rest, rfl, h, rfl⟩
  rw [seekTarget, if_pos (isCommand_text t rest), coordinates_eq_some.mp hco]
  rfl

theorem drop_seekStart {visible : List (List UInt8)} {c o : Nat} {record : List UInt8}
    (hr : visible[c]? = some record) (ho : o < record.length) :
    visible.flatten.drop (seekStart visible (c, o)) =
      record.drop o ++ (visible.drop (c + 1)).flatten := by
  obtain ⟨hlt, hget⟩ := List.getElem?_eq_some_iff.mp hr
  have hsplit : visible.flatten =
      (visible.take c).flatten ++ (record ++ (visible.drop (c + 1)).flatten) := by
    conv_lhs => rw [← List.take_append_drop c visible]
    rw [List.flatten_append, List.drop_eq_getElem_cons hlt, hget, List.flatten_cons]
  simp only [seekStart, hr, ho, if_true]
  rw [hsplit, ← List.drop_drop, List.drop_left, List.drop_append_of_le_length (Nat.le_of_lt ho)]

theorem closed_reply {events : List Event} {q : Sessions} {later earlier : List Transaction}
    {tx : Transaction} (hs : Serial events q)
    (hsplit : (history events).transactions = later ++ tx :: earlier) (hclosed : tx.closed = true) :
    tx.sent = (handle (recordsOf earlier) tx.msg).2 := by
  have hhold := hs.holder
  rw [Holder] at hhold
  cases hm : q.shared.fileMutex with
  | none =>
    rw [hm] at hhold
    obtain ⟨_, hreplied⟩ := hhold
    rw [hsplit] at hreplied
    exact hreplied.split.2
  | some i =>
    rw [hm] at hhold
    obtain ⟨tx', txs, _, htx, _, hopen, hreplied, _⟩ := hhold
    rw [hsplit] at htx
    cases later with
    | nil =>
      obtain ⟨rfl, _⟩ := List.cons.inj htx
      exact absurd (hclosed.symm.trans hopen) (by simp)
    | cons t later =>
      obtain ⟨_, rfl⟩ := List.cons.inj htx
      exact hreplied.split.2

/-- In a run in which nothing fails, the reply to a seek command begins at the
byte that the client has printed, and goes on to the end of the log. -/
theorem printed_seek_reply {labels : List Label} {events : List Event} {s : Server Thread}
    (hx : exec (Server.step threadProcess) Server.init labels = .ok (events, s))
    (hc : ∀ label ∈ labels, cleanStep label = true)
    (hg : ∀ tx ∈ (history events).transactions, Good tx.msg) :
    ∀ earlier tx later, (history events).transactions.reverse = earlier ++ tx :: later →
      tx.closed = true →
      let visible := lastN 10 (recordsAfter (earlier.map Transaction.msg))
      ∀ c o record rest, visible[c]? = some record → o < record.length → Ends rest →
        tx.msg = (Command.print c o).bytes ++ rest →
        tx.sent = record.drop o ++ (visible.drop (c + 1)).flatten := by
  intro earlier tx later hsplit hclosed visible c o record rest hr ho hends hmsg
  obtain ⟨q, hq, _⟩ := run_agrees hx
  have hs := run_serial hq hc hg
  have hrev : (history events).transactions = later.reverse ++ tx :: earlier.reverse := by
    simpa using congrArg List.reverse hsplit
  have hbefore : recordsOf earlier.reverse = recordsAfter (earlier.map Transaction.msg) := by
    rw [recordsOf, List.reverse_reverse]
  have hsmall : Small (recordsOf earlier.reverse) := by
    refine small_recordsOf fun t ht => hs.size_le t ?_
    rw [hrev]
    exact List.mem_append_right _ (List.mem_cons_of_mem _ ht)
  rw [hbefore] at hsmall
  have hlen : record.length < 2 ^ 32 := by
    have hmem := lastN_subset 10 _ (List.mem_of_getElem? hr)
    have hle := hsmall record hmem
    have hlt := reallocLimit_lt
    omega
  have hc10 : c < 10 := by
    have hlt := (List.getElem?_eq_some_iff.mp hr).1
    rw [length_lastN] at hlt
    omega
  have htarget : seekTarget tx.msg = (c, o) := by
    rw [hmsg, seekTarget_text _ hends, target_print (by omega) (by omega),
      Nat.mod_eq_of_lt (show c < 2 ^ 32 by omega), Nat.mod_eq_of_lt (show o < 2 ^ 32 by omega)]
  have hcommand : isCommand tx.msg = true := by
    rw [hmsg]
    exact isCommand_text _ _
  rw [closed_reply hs hrev hclosed, hbefore, handle_reply, handle_command _ hcommand, htarget]
  exact drop_seekStart hr ho

/-- The second client of `twoClients` asks for the second byte of the line of
the first one. -/
theorem twoClients_seek : ∃ events, ∃ s : Server Thread, ∃ first second,
    exec (Server.step threadProcess) Server.init twoClients = .ok (events, s) ∧
      (history events).transactions.reverse = [first, second] ∧
      second.msg = (Command.print 0 1).bytes ∧ second.sent = [98, newline] := by
  obtain ⟨events, q, hq, htxs⟩ : ∃ events, ∃ q : Sessions,
      exec (Server.step sessionProcess) Server.init twoClients = .ok (events, q) ∧
        (history events).transactions.map (fun tx => (tx.msg, tx.closed)) =
          [(seekToSecondByte, true), ([97, 98, newline], true)] := ⟨_, _, rfl, by decide⟩
  obtain ⟨s, hs, _⟩ := run_of_sessions hq
  obtain ⟨second, _, hlist, hsecond, hrest⟩ := List.map_eq_cons_iff.mp htxs
  obtain ⟨first, _, rfl, hfirst, hnil⟩ := List.map_eq_cons_iff.mp hrest
  obtain rfl := List.map_eq_nil_iff.mp hnil
  obtain ⟨hmsg, hclosed⟩ := Prod.mk.inj hsecond
  obtain ⟨hmsg', _⟩ := Prod.mk.inj hfirst
  have hrev : (history events).transactions.reverse = [first] ++ [second] := by
    rw [hlist]
    rfl
  have hg : ∀ tx ∈ (history events).transactions, Good tx.msg := by
    rw [hlist]
    intro tx ht
    obtain rfl | ht := List.mem_cons.mp ht
    · rw [hmsg]
      decide
    · rw [List.mem_singleton.mp ht, hmsg']
      decide
  have hbytes : second.msg = (Command.print 0 1).bytes := by
    rw [hmsg]
    decide
  have hvisible : lastN 10 (recordsAfter ([first].map Transaction.msg)) = [[97, 98, newline]] := by
    rw [List.map_singleton, hmsg']
    decide
  have hsent := printed_seek_reply hs (by decide) hg [first] second [] hrev hclosed 0 1
    [97, 98, newline] [] (by rw [hvisible]; rfl) (by decide) (fun b hb => by cases hb)
    (hbytes.trans (List.append_nil _).symm)
  rw [hvisible] at hsent
  exact ⟨events, s, first, second, hs, hrev, hbytes, hsent⟩

end Aesd.SeekText
