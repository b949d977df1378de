import Aesd.Lib.Sequence

namespace Aesd.RecordLog

open Aesd.Lib.Sequence

def newline : UInt8 := 10

/-- A piece of the record that a position of the concatenation falls in, of
which `uncopied` bytes at the end do not arrive. -/
def pieceAt (bss : List (List UInt8)) (pos count uncopied : Nat) : Option (List UInt8) :=
  (locate (bss.map List.length) pos).map fun p =>
    let chunk := ((bss[p.1]?.getD []).drop p.2).take count
    chunk.take (chunk.length - min uncopied chunk.length)

theorem pieceAt_eq_none_iff (bss : List (List UInt8)) (pos count uncopied : Nat) :
    pieceAt bss pos count uncopied = none ↔ bss.flatten.length ≤ pos := by
  rw [pieceAt, Option.map_eq_none_iff, locate_eq_none_iff, List.length_flatten]

theorem pieceAt_ne_nil {bss : List (List UInt8)} {pos count : Nat} {got : List UInt8}
    (hc : 0 < count) (hp : pieceAt bss pos count 0 = some got) : got ≠ [] := by
  rw [pieceAt, Option.map_eq_some_iff] at hp
  obtain ⟨⟨i, off⟩, hloc, rfl⟩ := hp
  obtain ⟨hi, hoff, _⟩ := locate_eq_some_iff.mp hloc
  rw [List.length_map] at hi
  rw [List.getElem_map] at hoff
  simp only [ne_eq, ← List.length_pos_iff, Nat.zero_min, Nat.sub_zero,
    List.getElem?_eq_getElem hi, Option.getD_some, List.length_take, List.length_drop]
  omega

theorem pieceAt_length_le {bss : List (List UInt8)} {pos count uncopied : Nat}
    {got : List UInt8} (hp : pieceAt bss pos count uncopied = some got) : got.length ≤ count := by
  rw [pieceAt, Option.map_eq_some_iff] at hp
  obtain ⟨⟨i, off⟩, _, rfl⟩ := hp
  exact Nat.le_trans (List.length_take_le' ..) (List.length_take_le ..)

theorem pieceAt_isPrefix {bss : List (List UInt8)} {pos count uncopied : Nat} {got : List UInt8}
    (hp : pieceAt bss pos count uncopied = some got) : got <+: bss.flatten.drop pos := by
  rw [pieceAt, Option.map_eq_some_iff] at hp
  obtain ⟨⟨i, off⟩, hloc, rfl⟩ := hp
  rw [drop_flatten_of_locate hloc]
  have hchunk := (List.take_prefix count _).trans
    (List.prefix_append ((bss[i]?.getD []).drop off) (bss.drop (i + 1)).flatten)
  exact (List.take_prefix _ _).trans hchunk

theorem pieceAt_append {bss : List (List UInt8)} {pos count : Nat} {got : List UInt8}
    (hp : pieceAt bss pos count 0 = some got) :
    got ++ bss.flatten.drop (pos + got.length) = bss.flatten.drop pos := by
  rw [← List.drop_drop]
  exact List.prefix_iff_eq_append.mp (pieceAt_isPrefix hp)

/-- What the device is for: a log of records, of which readers see the last
ten, and the bytes of a record that is still open. -/
structure Log where
  records : List (List UInt8)
  pending : Option (List UInt8)
  deriving DecidableEq, Repr

namespace Log

def empty : Log := ⟨[], none⟩

def visible (l : Log) : List (List UInt8) := lastN 10 l.records

def openBytes (l : Log) : List UInt8 := l.pending.getD []

def acceptTested (l : Log) (bytes : List UInt8) (byte : UInt8) : Log :=
  let cur := l.openBytes ++ bytes
  if byte = newline then ⟨l.records ++ [cur], none⟩ else ⟨l.records, some cur⟩

/-- The byte tested is the last one of the open record. An empty record has no
last byte, and then `stray` stands for it. -/
def accept (l : Log) (bytes : List UInt8) (stray : UInt8) : Log :=
  l.acceptTested bytes ((l.openBytes ++ bytes).getLast?.getD stray)

theorem accept_eq (l : Log) (bytes : List UInt8) (stray : UInt8) :
    l.accept bytes stray =
      if (l.openBytes ++ bytes).getLast?.getD stray = newline then
        ⟨l.records ++ [l.openBytes ++ bytes], none⟩
      else ⟨l.records, some (l.openBytes ++ bytes)⟩ := rfl

def readAt (l : Log) (pos count uncopied : Nat) : Option (List UInt8) :=
  pieceAt l.visible pos count uncopied

end Log

end Aesd.RecordLog
