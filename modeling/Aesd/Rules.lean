import Aesd.Connection

namespace Aesd.Rules

open Aesd.Lib.BlockHeap Aesd.ServerThread Aesd.Connection
open Aesd.RecordLog (newline)

def inHelper : Stage → Bool
  | .writing _ _ | .sending _ _ => true
  | _ => false

theorem stage_of_inHelper {stage : Stage} (h : inHelper stage = true) :
    (∃ line w, stage = .writing line w) ∨ ∃ p chunk, stage = .sending p chunk := by
  cases stage with
  | writing line w => exact .inl ⟨line, w, rfl⟩
  | sending p chunk => exact .inr ⟨p, chunk, rfl⟩
  | starting | allocating | receiving acc | growing acc | locking msg | unlocking failed | resetting
  | closing freed | exited done leaked => cases h

def leaks : Stage → Bool
  | .growing _ | .resetting => true
  | _ => false

/-- The rules of a connection: the call it makes, the answer, and what it does
next. First the calls that do what they are for, then the ways out. -/
inductive Turn (s : Session) : Request → Answer → Session → Prop
  | masked : s.stage = .starting → Turn s .sigmask .done (s.goto .allocating)
  | allocated {a : Answer} : s.stage = .allocating ∨ s.stage = .resetting →
      a = .done ∨ a = .kept → Turn s .alloc a (s.goto (.receiving []))
  | grown {acc : List UInt8} {a : Answer} : s.stage = .growing acc →
      acc.length + sockReadBufSize ≤ reallocLimit → a = .done ∨ a = .kept →
      Turn s .alloc a (s.goto (.receiving acc))
  | received {acc bs : List UInt8} : s.stage = .receiving acc → bs.length ≤ sockReadBufSize →
      Turn s .recv (.bytes bs) (s.received acc bs)
  | locked {msg : List UInt8} : s.stage = .locking msg → Turn s .lock .done (s.dispatch msg)
  | opened {line : List UInt8} {fd : Nat} : s.stage = .writing line .openFile →
      Turn s .openFile (.fd fd) (s.goto (.writing line (.line fd)))
  | wroteLine {line : List UInt8} {fd n : Nat} : s.stage = .writing line (.line fd) →
      Turn s (.write fd line) (.count n) (s.goto (.writing line (.newline fd)))
  | wroteNewline {line : List UInt8} {fd n : Nat} : s.stage = .writing line (.newline fd) →
      Turn s (.write fd [newline]) (.count n) (s.goto (.writing line (.close fd)))
  | written {line : List UInt8} {fd : Nat} : s.stage = .writing line (.close fd) →
      Turn s (.close fd) .done (s.goto (.sending .openFile []))
  | reopened {chunk : List UInt8} {fd : Nat} : s.stage = .sending .openFile chunk →
      Turn s .openFile (.fd fd) (s.goto (.sending (.ioctl fd) chunk))
  | sought {chunk : List UInt8} {fd : Nat} {r : Int} : s.stage = .sending (.ioctl fd) chunk →
      Turn s (.ioctl fd s.writeCmd s.writeCmdOffset) (.ret r) (s.goto (.sending (.read fd) chunk))
  | fetched {chunk bs : List UInt8} {fd : Nat} : s.stage = .sending (.read fd) chunk →
      0 < bs.length → bs.length ≤ sockReadBufSize →
      Turn s (.read fd sockReadBufSize) (.bytes bs) (s.goto (.sending (.sock fd bs.length) bs))
  | ended {chunk : List UInt8} {fd : Nat} : s.stage = .sending (.read fd) chunk →
      Turn s (.read fd sockReadBufSize) (.bytes []) (s.goto (.sending (.close fd) []))
  | sent {chunk : List UInt8} {fd n : Nat} : s.stage = .sending (.sock fd n) chunk →
      Turn s (.send chunk) (.count n) (s.goto (.sending (.read fd) chunk))
  | replied {chunk : List UInt8} {fd : Nat} : s.stage = .sending (.close fd) chunk →
      Turn s (.close fd) .done (s.goto (.unlocking false))
  | unlocked : s.stage = .unlocking false → Turn s .unlock .done (s.goto .resetting)
  | freed : s.stage = .closing false → Turn s .free .done (s.goto (.closing true))
  | logged : s.stage = .closing true → Turn s .syslog .done (s.goto (.exited true false))
  | lost {req : Request} : inHelper s.stage = false → s.stage.done = false → s.request = .ok req →
      Turn s req .failed (s.goto (.exited false (leaks s.stage)))
  | aborted {req : Request} : inHelper s.stage = true → s.request = .ok req →
      Turn s req .failed (s.goto (.unlocking true))
  | sentShort {chunk : List UInt8} {fd n m : Nat} : s.stage = .sending (.sock fd n) chunk →
      m ≠ n → Turn s (.send chunk) (.count m) (s.goto (.unlocking true))
  | released {a : Answer} : s.stage = .unlocking true →
      Turn s .unlock a (s.goto (.exited false false))

variable {u u' : Session} {req : Request} {a : Answer}

theorem turn_lost {stage : Stage} (hst : u.stage = stage) (hh : inHelper stage = false)
    (hd : stage.done = false) (hreq : u.request = .ok req) :
    Turn u req .failed (u.goto (.exited false (leaks stage))) := by
  subst hst
  exact .lost hh hd hreq

theorem turn_of_write {line : List UInt8} {w : WritePc} (hst : u.stage = .writing line w)
    (hreq : u.request = .ok req) (hres : u.resumeWrite line w a = .ok u') : Turn u req a u' := by
  have hreq' := hreq
  unfold Session.resumeWrite at hres
  unfold Session.request at hreq'
  cases hw : w.next a with
  | error e => simp [hw, bind, Except.bind] at hres
  | ok flow =>
    simp only [hw, bind, Except.bind] at hres
    cases flow with
    | goto w' =>
      cases hres
      obtain ⟨fd, rfl, rfl, rfl⟩ | ⟨fd, n, rfl, rfl, rfl⟩ | ⟨fd, n, rfl, rfl, rfl⟩ :=
        WritePc.next_goto hw <;> simp only [hst, Except.ok.injEq] at hreq' <;> subst hreq'
      · exact .opened hst
      · exact .wroteLine hst
      · exact .wroteNewline hst
    | returned r =>
      cases hres
      obtain ⟨rfl, rfl⟩ | ⟨fd, rfl, rfl, rfl⟩ := WritePc.next_returned hw
      · exact .aborted (by rw [hst]; rfl) hreq
      · simp only [hst, Except.ok.injEq] at hreq'
        subst hreq'
        exact .written hst

theorem turn_of_send {p : SendPc} {chunk : List UInt8} (hst : u.stage = .sending p chunk)
    (hreq : u.request = .ok req) (hres : u.resumeSend p chunk a = .ok u') : Turn u req a u' := by
  have hreq' := hreq
  unfold Session.resumeSend at hres
  unfold Session.request at hreq'
  cases hp : p.next a with
  | error e => simp [hp, bind, Except.bind] at hres
  | ok flow =>
    simp only [hp, bind, Except.bind] at hres
    cases flow with
    | goto p' =>
      cases hres
      obtain ⟨fd, rfl, rfl, rfl⟩ | ⟨fd, r, rfl, rfl, rfl⟩ | ⟨fd, rfl, rfl, rfl⟩ |
        ⟨fd, bs, rfl, rfl, h0, hle, rfl⟩ | ⟨fd, n, rfl, rfl, rfl⟩ := SendPc.next_goto hp <;>
        simp only [hst, Except.ok.injEq] at hreq' <;> subst hreq'
      · exact .reopened hst
      · exact .sought hst
      · exact .ended hst
      · exact .fetched hst h0 hle
      · exact .sent hst
    | returned r =>
      cases hres
      obtain ⟨rfl, rfl⟩ | ⟨fd, rfl, rfl, rfl⟩ | ⟨fd, n, m, rfl, rfl, hne, rfl⟩ :=
        SendPc.next_returned hp
      · exact .aborted (by rw [hst]; rfl) hreq
      · simp only [hst, Except.ok.injEq] at hreq'
        subst hreq'
        exact .replied hst
      · simp only [hst, Except.ok.injEq] at hreq'
        subst hreq'
        exact .sentShort hst hne

/-- A session does nothing but what the rules say. -/
theorem turn_of_resume (hreq : u.request = .ok req) (hres : u.resume a = .ok u') :
    Turn u req a u' := by
  have hreq' := hreq
  unfold Session.request at hreq'
  unfold Session.resume at hres
  cases hst : u.stage with
  | starting =>
    simp only [hst, Except.ok.injEq] at hreq'
    cases a <;> simp only [hst] at hres <;> cases hres
    · exact hreq' ▸ .masked hst
    · exact turn_lost hst rfl rfl hreq
  | allocating =>
    simp only [hst, Except.ok.injEq] at hreq'
    cases a <;> simp only [hst] at hres <;> cases hres
    · exact hreq' ▸ .allocated (.inl hst) (.inl rfl)
    · exact turn_lost hst rfl rfl hreq
  | resetting =>
    simp only [hst, Except.ok.injEq] at hreq'
    cases a <;> simp only [hst] at hres <;> cases hres
    · exact hreq' ▸ .allocated (.inr hst) (.inl rfl)
    · exact turn_lost hst rfl rfl hreq
    · exact hreq' ▸ .allocated (.inr hst) (.inr rfl)
  | receiving acc =>
    simp only [hst, Except.ok.injEq] at hreq'
    cases a with
    | bytes bs =>
      simp only [hst] at hres
      split at hres
      · cases hres
      · next hle =>
        cases hres
        exact hreq' ▸ .received hst (Nat.not_lt.mp hle)
    | failed =>
      simp only [hst] at hres
      cases hres
      exact turn_lost hst rfl rfl hreq
    | done | kept | fd n | count n | ret r =>
      simp only [hst] at hres
      cases hres
  | growing acc =>
    simp only [hst, Except.ok.injEq] at hreq'
    cases a with
    | done =>
      simp only [hst, Session.grown] at hres
      split at hres
      · next hle =>
        cases hres
        exact hreq' ▸ .grown hst hle (.inl rfl)
      · cases hres
    | kept =>
      simp only [hst, Session.grown] at hres
      split at hres
      · next hle =>
        cases hres
        exact hreq' ▸ .grown hst hle (.inr rfl)
      · cases hres
    | failed =>
      simp only [hst] at hres
      cases hres
      exact turn_lost hst rfl rfl hreq
    | bytes bs | fd n | count n | ret r =>
      simp only [hst] at hres
      cases hres
  | locking msg =>
    simp only [hst, Except.ok.injEq] at hreq'
    cases a <;> simp only [hst] at hres <;> cases hres
    · exact hreq' ▸ .locked hst
    · exact turn_lost hst rfl rfl hreq
  | writing line w =>
    simp only [hst] at hres
    exact turn_of_write hst hreq hres
  | sending p chunk =>
    simp only [hst] at hres
    exact turn_of_send hst hreq hres
  | unlocking failed =>
    simp only [hst, Except.ok.injEq] at hreq'
    cases failed <;> cases a <;> simp only [hst] at hres <;> cases hres
    · exact hreq' ▸ .unlocked hst
    · exact turn_lost hst rfl rfl hreq
    · exact hreq' ▸ .released hst
    · exact hreq' ▸ .released hst
  | closing freed =>
    rw [hst] at hreq'
    cases freed <;> cases a <;> simp only [hst] at hres <;> cases hres <;> cases hreq'
    · exact .freed hst
    · exact .logged hst
  | exited done leaked =>
    simp only [hst] at hreq'
    cases hreq'

end Aesd.Rules
