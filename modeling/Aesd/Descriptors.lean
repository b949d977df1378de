import Aesd.Transactions

namespace Aesd.Descriptors

open Aesd.Lib.BlockHeap Aesd.Lib.Transition Aesd.Driver Aesd.Ownership Aesd.ServerThread
open Aesd.Connection Aesd.Rules Aesd.Failures Aesd.Aesdsocket Aesd.Transactions
open Aesd.RecordLog (newline)
open Aesd.RecordCalls (cleanWrite)

abbrev Sessions := Server Session

def inSection : Stage → Bool
  | .writing _ _ | .sending _ _ | .unlocking _ => true
  | _ => false

def fileFd : Stage → Option Nat
  | .writing _ (.line fd) | .writing _ (.newline fd) | .writing _ (.close fd) => some fd
  | .sending (.ioctl fd) _ | .sending (.read fd) _ | .sending (.sock fd _) _
  | .sending (.close fd) _ => some fd
  | _ => none

def Whole : Stage → Prop
  | .sending (.sock _ bytesRead) chunk => chunk.length = bytesRead
  | _ => True

def beforeClose : Request → Bool
  | .write _ _ | .read _ _ | .send _ => true
  | _ => false

/-- A helper function returns without closing its file. -/
def leaking (req : Request) (a : Answer) : Bool := fails req a && beforeClose req

/-- Which descriptors are open: the one a session has in `file_fd`, and others
once one has been lost. -/
structure Accounts (lost : Bool) (files : Nat → Option Int) (held : Option Nat) : Prop where
  held_open : ∀ fd, held = some fd → files fd ≠ none
  lost_iff : lost = true ↔ ∃ fd, files fd ≠ none ∧ held ≠ some fd

variable {lost : Bool} {files files' : Nat → Option Int} {held : Option Nat} {fd : Nat}

theorem Accounts.same (ha : Accounts lost files held)
    (hf : ∀ fd, files' fd = none ↔ files fd = none) : Accounts lost files' held where
  held_open fd hh := fun h => ha.held_open fd hh ((hf fd).mp h)
  lost_iff := by
    rw [ha.lost_iff]
    simp only [ne_eq, hf]

theorem Accounts.opened (ha : Accounts lost files none) (hfd : files fd = none) (p : Int) :
    Accounts lost (Function.update files fd (some p)) (some fd) where
  held_open fd' hh := by
    rw [← Option.some.inj hh, Function.update_self]
    exact Option.some_ne_none p
  lost_iff := by
    rw [ha.lost_iff]
    constructor
    · rintro ⟨g, hg, _⟩
      have hne : g ≠ fd := fun h => hg (h ▸ hfd)
      exact ⟨g, by rwa [Function.update_of_ne hne], fun h => hne (Option.some.inj h).symm⟩
    · rintro ⟨g, hg, hne⟩
      have hne' : g ≠ fd := fun h => hne (h ▸ rfl)
      rw [Function.update_of_ne hne'] at hg
      exact ⟨g, hg, nofun⟩

theorem Accounts.closed (ha : Accounts lost files (some fd)) :
    Accounts lost (Function.update files fd none) none where
  held_open _ hh := nomatch hh
  lost_iff := by
    rw [ha.lost_iff]
    constructor
    · rintro ⟨g, hg, hne⟩
      have hne' : g ≠ fd := fun h => hne (h ▸ rfl)
      exact ⟨g, by rwa [Function.update_of_ne hne'], nofun⟩
    · rintro ⟨g, hg, _⟩
      by_cases h : g = fd
      · rw [h, Function.update_self] at hg
        exact absurd rfl hg
      · rw [Function.update_of_ne h] at hg
        exact ⟨g, hg, fun he => h (Option.some.inj he).symm⟩

theorem Accounts.dropped (ha : Accounts lost files (some fd)) : Accounts true files none where
  held_open _ hh := nomatch hh
  lost_iff := ⟨fun _ => ⟨fd, ha.held_open fd rfl, nofun⟩, fun _ => rfl⟩

def Served (d : Device) (req : Request) (env : Env) (a : Answer) (d' : Device) : Prop :=
  if isDriver req = true then serveDriver d req env = .ok (a, d') else d' = d

variable {d d' : Device} {env : Env} {req : Request} {a : Answer}

theorem Served.openFile (h : Served d .openFile env a d') :
    (a = .failed ∧ d' = d) ∨
      ∃ fd, a = .fd fd ∧ d.files fd = none ∧ d'.files = Function.update d.files fd (some 0) := by
  rw [Served, isDriver, if_pos rfl] at h
  obtain ⟨_, ha, hd⟩ | ⟨fd, ha, hf, rfl⟩ := openFile_cases h
  · exact .inl ⟨ha, hd⟩
  · exact .inr ⟨fd, ha, hf, rfl⟩

theorem Served.close (h : Served d (.close fd) env a d') :
    d'.files = Function.update d.files fd none := by
  cases env with
  | plain failing =>
    cases h
    rfl
  | kept | opened _ | received _ | wrote _ | fetched _ | sought _ | sent _ _ => cases h

theorem served_by (op : DriverOp) (g : Reply → Answer)
    (h : (vfsStep d op >>= fun p => .ok (g p.1, p.2)) = Except.ok (ε := Fault) (a, d')) :
    ∃ r, vfsStep d op = .ok (r, d') := by
  cases hv : vfsStep d op with
  | error e =>
    rw [hv] at h
    cases h
  | ok p =>
    rw [hv] at h
    cases h
    exact ⟨p.1, rfl⟩

theorem Served.same (h : Served d req env a d') (ho : req ≠ .openFile)
    (hc : ∀ fd, req ≠ .close fd) (fd : Nat) : d'.files fd = none ↔ d.files fd = none := by
  cases hd : isDriver req with
  | false =>
    rw [Served, hd, if_neg Bool.false_ne_true] at h
    rw [h]
  | true =>
    rw [Served, hd, if_pos rfl] at h
    have hstep : ∃ op r, vfsStep d op = .ok (r, d') ∧ (∀ f, op ≠ .openFile f) ∧
        ∀ f, op ≠ .release f := by
      cases req with
      | write fd bytes =>
        cases env with
        | wrote env =>
          obtain ⟨r, hv⟩ := served_by (.write fd bytes env)
            (fun r => if r.ret < 0 then .failed else .count r.ret.toNat) h
          exact ⟨_, r, hv, by simp, by simp⟩
        | plain _ | kept | opened _ | received _ | fetched _ | sought _ | sent _ _ => cases h
      | ioctl fd c o =>
        cases env with
        | sought env =>
          obtain ⟨r, hv⟩ := served_by (.ioctl fd aesdcharIocseekto ⟨c, o⟩ env)
            (fun r => .ret r.ret) h
          exact ⟨_, r, hv, by simp, by simp⟩
        | plain _ | kept | opened _ | received _ | wrote _ | fetched _ | sent _ _ => cases h
      | read fd n =>
        cases env with
        | fetched env =>
          obtain ⟨r, hv⟩ := served_by (.read fd n env)
            (fun r => if r.ret < 0 then .failed else .bytes r.bytes) h
          exact ⟨_, r, hv, by simp, by simp⟩
        | plain _ | kept | opened _ | received _ | wrote _ | sought _ | sent _ _ => cases h
      | openFile => exact absurd rfl ho
      | close fd => exact absurd rfl (hc fd)
      | sigmask | alloc | recv | lock | unlock | send bytes | free | syslog => cases hd
    obtain ⟨op, r, hv, ho', hr'⟩ := hstep
    exact (vfsStep_files hv).same_open ho' hr' fd

theorem Served.ioctl {c o : Nat} (h : Served d (.ioctl fd c o) env a d') :
    a ≠ .failed := by
  rw [Served, isDriver, if_pos rfl] at h
  cases env with
  | sought env =>
    cases hv : vfsStep d (.ioctl fd aesdcharIocseekto ⟨c, o⟩ env) with
    | error e => simp [serveDriver, hv, bind, Except.bind] at h
    | ok p =>
      simp only [serveDriver, hv, bind, Except.bind, Except.ok.injEq, Prod.mk.injEq] at h
      rw [← h.1]
      simp
  | plain _ | kept | opened _ | received _ | wrote _ | fetched _ | sent _ _ => cases h

variable {u u' : Session}

section Turn

variable {d d' : Device} {env : Env} {req : Request} {a : Answer} {u u' : Session}

theorem leaking_of_not (hb : beforeClose req = false) : leaking req a = false := by
  rw [leaking, hb, Bool.and_false]

theorem Accounts.openFailed (ha : Accounts lost d.files none)
    (hs : Served d .openFile env .failed d') :
    Accounts (lost || leaking .openFile .failed) d'.files none := by
  rw [leaking_of_not rfl, Bool.or_false]
  obtain ⟨_, rfl⟩ | ⟨fd, hfd, _⟩ := hs.openFile
  · exact ha
  · cases hfd

theorem Accounts.close (ha : Accounts lost d.files (some fd)) (hs : Served d (.close fd) env a d') :
    Accounts (lost || leaking (.close fd) a) d'.files none := by
  rw [leaking_of_not rfl, Bool.or_false, hs.close]
  exact ha.closed

theorem Accounts.leak (ha : Accounts lost d.files (some fd)) (hs : Served d req env a d')
    (hl : leaking req a = true) : Accounts (lost || leaking req a) d'.files none := by
  have hb : beforeClose req = true := (Bool.and_eq_true_iff.mp hl).2
  have hsame := hs.same (by rintro rfl; cases hb) (by rintro fd rfl; cases hb)
  rw [hl, Bool.or_true]
  exact (ha.same hsame).dropped

theorem Accounts.aborted (ha : Accounts lost d.files (fileFd u.stage))
    (hh : inHelper u.stage = true) (hreq : u.request = .ok req)
    (hs : Served d req env .failed d') : Accounts (lost || leaking req .failed) d'.files none := by
  unfold Session.request at hreq
  obtain ⟨line, w, hst⟩ | ⟨p, chunk, hst⟩ := stage_of_inHelper hh
  · rw [hst] at ha
    cases w with
    | openFile =>
      simp only [hst, Except.ok.injEq] at hreq
      subst hreq
      exact ha.openFailed hs
    | line fd | newline fd =>
      simp only [hst, Except.ok.injEq] at hreq
      subst hreq
      exact ha.leak hs rfl
    | close fd =>
      simp only [hst, Except.ok.injEq] at hreq
      subst hreq
      exact ha.close hs
  · rw [hst] at ha
    cases p with
    | openFile =>
      simp only [hst, Except.ok.injEq] at hreq
      subst hreq
      exact ha.openFailed hs
    | ioctl fd =>
      -- the result of `ioctl` is not looked at
      simp only [hst, Except.ok.injEq] at hreq
      subst hreq
      exact absurd rfl hs.ioctl
    | read fd | sock fd n =>
      simp only [hst, Except.ok.injEq] at hreq
      subst hreq
      exact ha.leak hs rfl
    | close fd =>
      simp only [hst, Except.ok.injEq] at hreq
      subst hreq
      exact ha.close hs

end Turn

variable {events : List Event} {q q' : Sessions} {e : Event}

section Thread

variable {i : Nat} {u u' : Session} {req : Request} {a : Answer} {env : Env} {shared : Shared}

end Thread

/-- A client's line is stored, but `close` reports an error. -/
def closeFails : List Label :=
  [.main 0 0, .thread 0 (.plain false), .thread 0 (.plain false),
    .thread 0 (.received (some [97, newline])), .thread 0 (.plain false),
    .thread 0 (.opened (some 3)), .thread 0 (.wrote cleanWrite), .thread 0 (.wrote cleanWrite),
    .thread 0 (.plain true), .thread 0 (.plain false)]

end Aesd.Descriptors
