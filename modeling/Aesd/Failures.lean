import Aesd.Rules

namespace Aesd.Failures

open Aesd.Lib.BlockHeap Aesd.ServerThread Aesd.Connection Aesd.Rules

/-- A call that does not do what it was asked for. The result of `ioctl` is not
looked at, so it never counts. -/
def fails : Request → Answer → Bool
  | _, .failed => true
  | .send bytes, .count n => n ≠ bytes.length
  | _, _ => false

def Healthy (u : Session) : Prop :=
  match u.stage with
  | .exited done _ => done = true
  | .unlocking failed => failed = false
  | .sending (.sock _ bytesRead) chunk => chunk.length = bytesRead
  | _ => True

theorem healthy_resume {u u' : Session} {req : Request} {a : Answer} (hu : Healthy u)
    (hreq : u.request = .ok req) (ha : fails req a = false) (hres : u.resume a = .ok u') :
    Healthy u' := by
  have hf : a ≠ .failed := by
    rintro rfl
    cases req <;> cases ha
  cases turn_of_resume hreq hres with
  | received hst hle =>
    unfold Session.received
    split
    · exact trivial
    · split <;> exact trivial
  | logged hst => exact rfl
  | locked hst =>
    unfold Session.dispatch
    split <;> exact trivial
  | fetched hst h0 hle => exact rfl
  | replied hst => exact rfl
  | lost hst hd hreq' => exact absurd rfl hf
  | aborted hst hreq' => exact absurd rfl hf
  | sentShort hst hne =>
    rw [Healthy, hst] at hu
    rw [← hu] at hne
    exact absurd (by simpa [fails] using ha) hne
  | released hst =>
    rw [Healthy, hst] at hu
    cases hu
  | masked hst | allocated hst ha' | grown hst hle ha' | opened hst | wroteLine hst | wroteNewline hst
  | written hst | reopened hst | sought hst | ended hst | sent hst | unlocked hst | freed hst =>
    exact trivial

end Aesd.Failures
