import Aesd.Lib.BlockHeap
import Aesd.RecordLog
import Mathlib.Data.List.TakeWhile

namespace Aesd.CString

open Aesd.Lib.BlockHeap
open Aesd.RecordLog (newline)

def nul : UInt8 := 0

def chars (cs : List Char) : List UInt8 := cs.map fun c => c.toNat.toUInt8

def iocseektoCmdStr : List UInt8 :=
  chars ['A', 'E', 'S', 'D', 'C', 'H', 'A', 'R', '_', 'I', 'O', 'C', 'S', 'E', 'E', 'K', 'T', 'O',
    ':', '%', 'd', ',', '%', 'd']

def colon : UInt8 := 58
def comma : UInt8 := 44
def plus : UInt8 := 43
def minus : UInt8 := 45

def iocseektoCmdStrlen : Nat := iocseektoCmdStr.idxOf colon

def strchrnul (c : UInt8) : List Cell → Except Fault Nat
  | [] => .error .outOfBounds
  | none :: _ => .error .uninitialised
  | some b :: cells => if b = c ∨ b = nul then .ok 0 else do .ok ((← strchrnul c cells) + 1)

/-- Whether `strncmp` finds no difference over the whole of `s`. No character
of `s` is NUL, so a string that ends early differs. -/
def strncmpEqual : List UInt8 → List Cell → Except Fault Bool
  | [], _ => .ok true
  | _ :: _, [] => .error .outOfBounds
  | _ :: _, none :: _ => .error .uninitialised
  | b :: s, some c :: cells => if b = c then strncmpEqual s cells else .ok false

def cString : List Cell → Except Fault (List UInt8)
  | [] => .error .outOfBounds
  | none :: _ => .error .uninitialised
  | some b :: cells => if b = nul then .ok [] else do .ok (b :: (← cString cells))

def isSpace (b : UInt8) : Bool := b = 32 || (9 ≤ b && b ≤ 13)

def isDigit (b : UInt8) : Bool := 48 ≤ b && b ≤ 57

def digitsValue (ds : List UInt8) : Nat := ds.foldl (fun n d => 10 * n + (d.toNat - 48)) 0

def scanSign : List UInt8 → Int × List UInt8
  | [] => (1, [])
  | b :: s => if b = minus then (-1, s) else if b = plus then (1, s) else (1, b :: s)

def scanInt (s : List UInt8) : Option (Int × List UInt8) :=
  let (sign, s) := scanSign (s.dropWhile isSpace)
  let ds := s.takeWhile isDigit
  if ds = [] then none else some (sign * digitsValue ds, s.dropWhile isDigit)

/-- What a `%d` conversion leaves in a 32-bit variable. A number outside the
range of `long` is clamped to it first. -/
def toUint32 (z : Int) : Nat := ((max (-2 ^ 63) (min z (2 ^ 63 - 1))) % 2 ^ 32).toNat

/-- `sscanf` with `IOCSEEKTO_CMD_STR`: the values of the conversions that
succeed before the first failure. -/
def sscanfIocseekto (s : List UInt8) : Option Nat × Option Nat :=
  let literal := iocseektoCmdStr.take (iocseektoCmdStrlen + 1)
  if literal.isPrefixOf s then
    match scanInt (s.drop literal.length) with
    | none => (none, none)
    | some (writeCmd, []) => (some (toUint32 writeCmd), none)
    | some (writeCmd, b :: s) =>
      if b = comma then
        (some (toUint32 writeCmd), (scanInt s).map fun p => toUint32 p.1)
      else (some (toUint32 writeCmd), none)
  else (none, none)

/-- The line a message stands for: its bytes before the first newline or NUL. -/
def lineOf (msg : List UInt8) : List UInt8 := msg.takeWhile fun b => b ≠ newline && b ≠ nul

def isCommand (msg : List UInt8) : Bool :=
  (iocseektoCmdStr.take iocseektoCmdStrlen).isPrefixOf msg

def seekOf (msg : List UInt8) : Option Nat × Option Nat :=
  sscanfIocseekto (msg.takeWhile fun b => b ≠ nul)

theorem strchrnul_terminated (c : UInt8) (bs : List UInt8) (rest : List Cell) :
    strchrnul c (bs.map some ++ some nul :: rest) =
      .ok (bs.takeWhile fun b => b ≠ c && b ≠ nul).length := by
  induction bs with
  | nil => simp [strchrnul]
  | cons b bs ih =>
    by_cases hb : b = c ∨ b = nul
    · have hw : (decide (b ≠ c) && decide (b ≠ nul)) = false := by
        obtain rfl | rfl := hb <;> simp
      simp only [List.map_cons, List.cons_append, strchrnul, hb, if_true, List.takeWhile_cons, hw,
        Bool.false_eq_true, if_false, List.length_nil]
    · have hw : (decide (b ≠ c) && decide (b ≠ nul)) = true := by
        simpa [not_or] using hb
      simp only [List.map_cons, List.cons_append, strchrnul, hb, if_false, ih,
        List.takeWhile_cons, hw, if_true, List.length_cons]
      rfl

theorem strncmpEqual_terminated {s : List UInt8} (hs : nul ∉ s) (bs : List UInt8)
    (rest : List Cell) :
    strncmpEqual s (bs.map some ++ some nul :: rest) = .ok (s.isPrefixOf bs) := by
  induction s generalizing bs with
  | nil => rfl
  | cons a s ih =>
    rw [List.mem_cons, not_or] at hs
    cases bs with
    | nil =>
      have hne : ¬ a = nul := fun he => hs.1 he.symm
      simp [strncmpEqual, hne]
    | cons b bs =>
      by_cases hab : a = b
      · simp [strncmpEqual, hab, ih hs.2]
      · simp [strncmpEqual, hab, List.isPrefixOf]

theorem cString_terminated (bs : List UInt8) (rest : List Cell) :
    cString (bs.map some ++ some nul :: rest) = .ok (bs.takeWhile fun b => b ≠ nul) := by
  induction bs with
  | nil => simp [cString]
  | cons b bs ih =>
    by_cases hb : b = nul
    · simp [cString, hb]
    · simp only [List.map_cons, List.cons_append, cString, hb, if_false, ih]
      simp [hb, bind, Except.bind]

theorem lineOf_isPrefix (msg : List UInt8) : lineOf msg <+: msg := List.takeWhile_prefix _

theorem newline_notMem_lineOf (msg : List UInt8) : newline ∉ lineOf msg := by
  intro hm
  have h := List.mem_takeWhile_imp hm
  simp at h

theorem nul_notMem_lineOf (msg : List UInt8) : nul ∉ lineOf msg := by
  intro hm
  have h := List.mem_takeWhile_imp hm
  simp at h

end Aesd.CString
