import Mathlib.Data.Nat.Digits.Lemmas

namespace Aesd.Lib.Decimal

def digit (d : Nat) : UInt8 := UInt8.ofNat (48 + d)

def decimal (n : Nat) : List UInt8 :=
  if n = 0 then [digit 0] else (Nat.digits 10 n).reverse.map digit

def padded (n : Nat) : List UInt8 := if n < 10 then digit 0 :: decimal n else decimal n

def IsDigit (b : UInt8) : Prop := 48 ≤ b ∧ b ≤ 57

instance (b : UInt8) : Decidable (IsDigit b) := inferInstanceAs (Decidable (_ ∧ _))

def value (ds : List UInt8) : Nat := ds.foldl (fun n d => 10 * n + (d.toNat - 48)) 0

theorem toNat_digit {d : Nat} (h : d < 10) : (digit d).toNat = 48 + d := by
  rw [digit, UInt8.toNat_ofNat']
  omega

theorem isDigit_digit {d : Nat} (h : d < 10) : IsDigit (digit d) := by
  rw [IsDigit, UInt8.le_iff_toNat_le, UInt8.le_iff_toNat_le, toNat_digit h]
  exact ⟨Nat.le_add_right 48 d, show 48 + d ≤ 57 by omega⟩

theorem decimal_ne_nil (n : Nat) : decimal n ≠ [] := by
  unfold decimal
  by_cases h : n = 0
  · rw [if_pos h]
    exact List.cons_ne_nil _ _
  · rw [if_neg h]
    simpa using Nat.digits_ne_nil_iff_ne_zero.mpr h

theorem isDigit_decimal (n : Nat) : ∀ b ∈ decimal n, IsDigit b := by
  intro b hb
  unfold decimal at hb
  by_cases h : n = 0
  · rw [if_pos h, List.mem_singleton] at hb
    rw [hb]
    exact isDigit_digit (by omega)
  · rw [if_neg h] at hb
    obtain ⟨d, hd, rfl⟩ := List.mem_map.mp hb
    exact isDigit_digit (Nat.digits_lt_base (by omega) (List.mem_reverse.mp hd))

theorem isDigit_padded (n : Nat) : ∀ b ∈ padded n, IsDigit b := by
  intro b hb
  unfold padded at hb
  by_cases h : n < 10
  · rw [if_pos h] at hb
    obtain rfl | hb := List.mem_cons.mp hb
    · exact isDigit_digit (by omega)
    · exact isDigit_decimal n b hb
  · rw [if_neg h] at hb
    exact isDigit_decimal n b hb

theorem foldl_digits {ds : List Nat} (h : ∀ d ∈ ds, d < 10) :
    (ds.reverse.map digit).foldl (fun n d => 10 * n + (d.toNat - 48)) 0 = Nat.ofDigits 10 ds := by
  induction ds with
  | nil => rfl
  | cons d ds ih =>
    have hd := toNat_digit (h d List.mem_cons_self)
    rw [List.reverse_cons, List.map_append, List.foldl_append,
      ih fun e he => h e (List.mem_cons_of_mem _ he), Nat.ofDigits_cons]
    simp only [List.map_cons, List.map_nil, List.foldl_cons, List.foldl_nil, hd]
    omega

theorem value_decimal (n : Nat) : value (decimal n) = n := by
  unfold value decimal
  by_cases h : n = 0
  · rw [if_pos h, h]
    rfl
  · rw [if_neg h, foldl_digits fun d hd => Nat.digits_lt_base (by omega) hd, Nat.ofDigits_digits]

theorem length_decimal_le {n k : Nat} (hk : 0 < k) (h : n < 10 ^ k) : (decimal n).length ≤ k := by
  unfold decimal
  by_cases h0 : n = 0
  · rw [if_pos h0]
    exact hk
  · rw [if_neg h0, List.length_map, List.length_reverse]
    exact (Nat.digits_length_le_iff (by omega) n).mpr h

theorem length_padded_le {n : Nat} (h : n < 100) : (padded n).length ≤ 2 := by
  unfold padded
  by_cases h10 : n < 10
  · rw [if_pos h10, List.length_cons]
    exact Nat.succ_le_succ (length_decimal_le (by omega) h10)
  · rw [if_neg h10]
    exact length_decimal_le (by omega) h

example : decimal 2023 = [50, 48, 50, 51] := by decide

end Aesd.Lib.Decimal
