import Aesd.Lib.Decimal
import Aesd.ServerThread

namespace Aesd.TimestampThread

open Aesd.Lib.BlockHeap Aesd.Lib.Decimal Aesd.CString Aesd.ServerThread
open Aesd.RecordLog (newline)

def timeMaxStrlen : Nat := 100

structure Tm where
  tmYear : Nat
  tmMon : Nat
  tmMday : Nat
  tmHour : Nat
  tmMin : Nat
  tmSec : Nat
  deriving DecidableEq, Repr

def dash : UInt8 := 45
def space : UInt8 := 32

def stamp (tm : Tm) : List UInt8 :=
  chars ['t', 'i', 'm', 'e', 's', 't', 'a', 'm', 'p', ':'] ++ decimal (tm.tmYear + 1900) ++ [dash] ++
    padded (tm.tmMon + 1) ++ [dash] ++ padded tm.tmMday ++ [space] ++ padded tm.tmHour ++ [colon] ++
    padded tm.tmMin ++ [colon] ++ padded tm.tmSec

/-- `strftime` writes nothing if the text and its NUL do not fit. -/
def strftime (max : Nat) (tm : Tm) : List UInt8 :=
  let text := stamp tm ++ [newline]
  if text.length < max then text else []

structure Tm.Valid (tm : Tm) : Prop where
  year : tm.tmYear < 2 ^ 31
  mon : tm.tmMon < 12
  mday : tm.tmMday < 32
  hour : tm.tmHour < 24
  min : tm.tmMin < 60
  sec : tm.tmSec < 61

inductive TickPc
  | clock
  | lock
  | openFile
  | write (fd : Nat)
  | close (fd : Nat)
  | unlockExit
  | unlock
  | sleep
  | exited
  deriving DecidableEq, Repr

/-- `timestr` holds the first `timelen` bytes of the array of that name. -/
structure Ticker where
  pc : TickPc
  timestr : List UInt8
  deriving DecidableEq, Repr

def Ticker.init : Ticker := ⟨.clock, []⟩

def Ticker.goto (t : Ticker) (pc : TickPc) : Ticker := { t with pc := pc }

@[simp] theorem Ticker.goto_timestr (t : Ticker) (pc : TickPc) : (t.goto pc).timestr = t.timestr :=
  rfl

def Ticker.request (t : Ticker) : Except Fault Request :=
  match t.pc with
  | .lock => .ok .lock
  | .openFile => .ok .openFile
  | .write fd => .ok (.write fd t.timestr)
  | .close fd => .ok (.close fd)
  | .unlockExit | .unlock => .ok .unlock
  | .clock | .sleep | .exited => .error .disabled

def Ticker.resume (t : Ticker) (a : Answer) : Except Fault Ticker :=
  match t.pc, a with
  | .lock, .done => .ok (t.goto .openFile)
  | .lock, .failed => .ok (t.goto .exited)
  | .openFile, .fd fd => .ok (t.goto (.write fd))
  | .write fd, .count _ => .ok (t.goto (.close fd))
  | .close _, .done => .ok (t.goto .unlock)
  | .openFile, .failed | .write _, .failed | .close _, .failed => .ok (t.goto .unlockExit)
  | .unlockExit, .done | .unlockExit, .failed => .ok (t.goto .exited)
  | .unlock, .done => .ok (t.goto .sleep)
  | .unlock, .failed => .ok (t.goto .exited)
  | _, _ => .error .disabled

inductive Tick (t : Ticker) : Request → Answer → Ticker → Prop
  | locked : t.pc = .lock → Tick t .lock .done (t.goto .openFile)
  | notLocked : t.pc = .lock → Tick t .lock .failed (t.goto .exited)
  | opened {fd : Nat} : t.pc = .openFile → Tick t .openFile (.fd fd) (t.goto (.write fd))
  | notOpened : t.pc = .openFile → Tick t .openFile .failed (t.goto .unlockExit)
  | wrote {fd n : Nat} : t.pc = .write fd → Tick t (.write fd t.timestr) (.count n) (t.goto (.close fd))
  | notWritten {fd : Nat} : t.pc = .write fd →
      Tick t (.write fd t.timestr) .failed (t.goto .unlockExit)
  | closed {fd : Nat} : t.pc = .close fd → Tick t (.close fd) .done (t.goto .unlock)
  | notClosed {fd : Nat} : t.pc = .close fd → Tick t (.close fd) .failed (t.goto .unlockExit)
  | unlocked : t.pc = .unlock → Tick t .unlock .done (t.goto .sleep)
  | notUnlocked : t.pc = .unlock → Tick t .unlock .failed (t.goto .exited)
  | released {a : Answer} : t.pc = .unlockExit → Tick t .unlock a (t.goto .exited)

theorem tick_of_resume {t t' : Ticker} {req : Request} {a : Answer} (hreq : t.request = .ok req)
    (hres : t.resume a = .ok t') : Tick t req a t' := by
  unfold Ticker.request at hreq
  unfold Ticker.resume at hres
  cases hpc : t.pc with
  | clock | sleep | exited =>
    rw [hpc] at hreq
    cases hreq
  | lock =>
    rw [hpc] at hreq hres
    cases hreq
    cases a <;> cases hres
    · exact .locked hpc
    · exact .notLocked hpc
  | openFile =>
    rw [hpc] at hreq hres
    cases hreq
    cases a <;> cases hres
    · exact .notOpened hpc
    · exact .opened hpc
  | write fd =>
    rw [hpc] at hreq hres
    cases hreq
    cases a <;> cases hres
    · exact .notWritten hpc
    · exact .wrote hpc
  | close fd =>
    rw [hpc] at hreq hres
    cases hreq
    cases a <;> cases hres
    · exact .closed hpc
    · exact .notClosed hpc
  | unlockExit =>
    rw [hpc] at hreq hres
    cases hreq
    cases a <;> cases hres <;> exact .released hpc
  | unlock =>
    rw [hpc] at hreq hres
    cases hreq
    cases a <;> cases hres
    · exact .unlocked hpc
    · exact .notUnlocked hpc

def Ticker.clocked (t : Ticker) (tm : Option Tm) : Except Fault Ticker :=
  match t.pc, tm with
  | .clock, some tm => .ok ⟨.lock, strftime timeMaxStrlen tm⟩
  | .clock, none => .ok (t.goto .exited)
  | _, _ => .error .disabled

def Ticker.slept (t : Ticker) : Except Fault Ticker :=
  match t.pc with
  | .sleep => .ok (t.goto .clock)
  | _ => .error .disabled

theorem newline_notMem_decimal (n : Nat) : newline ∉ decimal n := by
  intro h
  have hd := isDigit_decimal n newline h
  revert hd
  decide

theorem newline_notMem_padded (n : Nat) : newline ∉ padded n := by
  intro h
  have hd := isDigit_padded n newline h
  revert hd
  decide

theorem newline_notMem_stamp (tm : Tm) : newline ∉ stamp tm := by
  have hword : newline ∉ chars ['t', 'i', 'm', 'e', 's', 't', 'a', 'm', 'p', ':'] := by decide
  have hdash : newline ≠ dash := by decide
  have hspace : newline ≠ space := by decide
  have hcolon : newline ≠ colon := by decide
  simp [stamp, hword, hdash, hspace, hcolon, newline_notMem_decimal, newline_notMem_padded]

theorem length_stamp {tm : Tm} (h : tm.Valid) : (stamp tm).length ≤ 35 := by
  have hy : (decimal (tm.tmYear + 1900)).length ≤ 10 :=
    length_decimal_le (by omega) (by have := h.year; omega)
  have hmon : (padded (tm.tmMon + 1)).length ≤ 2 := length_padded_le (by have := h.mon; omega)
  have hmday : (padded tm.tmMday).length ≤ 2 := length_padded_le (by have := h.mday; omega)
  have hhour : (padded tm.tmHour).length ≤ 2 := length_padded_le (by have := h.hour; omega)
  have hmin : (padded tm.tmMin).length ≤ 2 := length_padded_le (by have := h.min; omega)
  have hsec : (padded tm.tmSec).length ≤ 2 := length_padded_le (by have := h.sec; omega)
  simp only [stamp, List.length_append, chars, List.length_map,
    List.length_cons, List.length_nil]
  omega

/-- The array is large enough for every time there is. -/
theorem strftime_valid {tm : Tm} (h : tm.Valid) :
    strftime timeMaxStrlen tm = stamp tm ++ [newline] := by
  have hlen := length_stamp h
  rw [strftime]
  apply if_pos
  rw [List.length_append, List.length_singleton, timeMaxStrlen]
  omega

end Aesd.TimestampThread
