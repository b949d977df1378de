import Mathlib.Algebra.Ring.Int.Defs
import Mathlib.Algebra.Ring.Nat
import Mathlib.Data.List.Induction

namespace Aesd.Lib.Sequence

variable {α β : Type}

def lastN (n : Nat) (xs : List α) : List α := xs.drop (xs.length - n)

@[simp] theorem length_lastN (n : Nat) (xs : List α) : (lastN n xs).length = min n xs.length := by
  simp [lastN]
  omega

theorem lastN_of_le {n : Nat} {xs : List α} (h : xs.length ≤ n) : lastN n xs = xs := by
  simp [lastN, Nat.sub_eq_zero_of_le h]

theorem map_lastN (f : α → β) (n : Nat) (xs : List α) : (lastN n xs).map f = lastN n (xs.map f) := by
  simp [lastN]

theorem lastN_subset (n : Nat) (xs : List α) : lastN n xs ⊆ xs := List.drop_subset _ _

theorem lastN_snoc {n : Nat} (hn : 0 < n) (xs : List α) (x : α) :
    lastN n (xs ++ [x]) =
      (if (lastN n xs).length = n then (lastN n xs).tail else lastN n xs) ++ [x] := by
  by_cases hx : n ≤ xs.length
  · rw [if_pos (by rw [length_lastN]; omega)]
    have hle : xs.length + 1 - n ≤ xs.length := by omega
    have hs : xs.length - n + 1 = xs.length + 1 - n := by omega
    simp only [lastN, List.length_append, List.length_singleton, List.tail_drop, hs,
      List.drop_append_of_le_length hle]
  · rw [if_neg (by rw [length_lastN]; omega), lastN_of_le (by simp; omega),
      lastN_of_le (by omega)]

theorem length_flatten_lastN_snoc {n : Nat} (hn : 0 < n) (xs : List (List α)) (x : List α) :
    (lastN n (xs ++ [x])).flatten.length ≤ (lastN n xs).flatten.length + x.length := by
  rw [lastN_snoc hn, List.flatten_append, List.length_append, List.flatten_singleton]
  apply Nat.add_le_add_right
  split
  · cases lastN n xs <;> simp
  · exact Nat.le_refl _

theorem take_append_lastN (n : Nat) (xs : List α) :
    xs.take (xs.length - n) ++ lastN n xs = xs := List.take_append_drop _ _

theorem sum_take_add_getElem_le {ns : List Nat} {i : Nat} (hi : i < ns.length) :
    (ns.take i).sum + ns[i] ≤ ns.sum := by
  have hsplit : ns.sum = (ns.take (i + 1)).sum + (ns.drop (i + 1)).sum := by
    rw [← List.sum_append, List.take_append_drop]
  rw [List.take_succ_eq_append_getElem hi, List.sum_append, List.sum_singleton] at hsplit
  omega

/-- The part of a concatenation that a position falls in and the offset
there, from the lengths of the parts. -/
def locate : List Nat → Nat → Option (Nat × Nat)
  | [], _ => none
  | n :: ns, pos =>
    if n ≤ pos then (locate ns (pos - n)).map (fun p => (p.1 + 1, p.2)) else some (0, pos)

theorem locate_eq_none_iff {ns : List Nat} {pos : Nat} : locate ns pos = none ↔ ns.sum ≤ pos := by
  induction ns generalizing pos with
  | nil => simp [locate]
  | cons n ns ih =>
    by_cases h : n ≤ pos
    · simp only [locate, h, if_true, Option.map_eq_none_iff, ih, List.sum_cons]
      omega
    · simp only [locate, h, if_false, List.sum_cons, reduceCtorEq, false_iff]
      omega

theorem locate_eq_some_iff {ns : List Nat} {pos i off : Nat} :
    locate ns pos = some (i, off) ↔
      ∃ h : i < ns.length, off < ns[i] ∧ (ns.take i).sum + off = pos := by
  induction ns generalizing pos i with
  | nil => simp [locate]
  | cons n ns ih =>
    by_cases h : n ≤ pos
    · simp only [locate, h, if_true, Option.map_eq_some_iff]
      constructor
      · rintro ⟨⟨j, o⟩, hl, he⟩
        simp only [Prod.mk.injEq] at he
        obtain ⟨rfl, rfl⟩ := he
        obtain ⟨hj, ho, hs⟩ := ih.mp hl
        refine ⟨by simpa using hj, by simpa using ho, ?_⟩
        simp only [List.take_succ_cons, List.sum_cons]
        omega
      · rintro ⟨hi, ho, hs⟩
        cases i with
        | zero => simp at ho hs; omega
        | succ j =>
          simp only [List.take_succ_cons, List.sum_cons] at hs
          exact ⟨(j, off), ih.mpr ⟨by simpa using hi, by simpa using ho, by omega⟩, rfl⟩
    · simp only [locate, h, if_false, Option.some.injEq, Prod.mk.injEq]
      constructor
      · rintro ⟨rfl, rfl⟩
        exact ⟨by simp, by simpa using h, by simp⟩
      · rintro ⟨hi, ho, hs⟩
        cases i with
        | zero => exact ⟨rfl, by simpa using hs.symm⟩
        | succ j => simp only [List.take_succ_cons, List.sum_cons] at hs; omega

theorem drop_flatten_of_locate {ls : List (List α)} {pos i off : Nat}
    (h : locate (ls.map List.length) pos = some (i, off)) :
    ls.flatten.drop pos = (ls[i]?.getD []).drop off ++ (ls.drop (i + 1)).flatten := by
  induction ls generalizing pos i with
  | nil => simp [locate] at h
  | cons l ls ih =>
    by_cases hl : l.length ≤ pos
    · simp only [List.map_cons, locate, hl, if_true, Option.map_eq_some_iff] at h
      obtain ⟨⟨j, o⟩, hj, he⟩ := h
      simp only [Prod.mk.injEq] at he
      obtain ⟨rfl, rfl⟩ := he
      rw [List.flatten_cons, List.drop_append, List.drop_of_length_le hl, List.nil_append, ih hj,
        List.getElem?_cons_succ, List.drop_succ_cons]
    · simp only [List.map_cons, locate, hl, if_false, Option.some.injEq, Prod.mk.injEq] at h
      obtain ⟨rfl, rfl⟩ := h
      rw [List.flatten_cons, List.drop_append_of_le_length (by omega), List.getElem?_cons_zero,
        Option.getD_some, List.drop_succ_cons, List.drop_zero]

theorem getElem?_flatten_of_locate {ls : List (List α)} {pos i off : Nat}
    (h : locate (ls.map List.length) pos = some (i, off)) :
    ls.flatten[pos]? = ls[i]?.bind (fun l => l[off]?) := by
  obtain ⟨hi, hoff, _⟩ := locate_eq_some_iff.mp h
  have hi' : i < ls.length := by rwa [List.length_map] at hi
  rw [List.getElem_map] at hoff
  have hpos : 0 < (ls[i].drop off).length := by
    rw [List.length_drop]
    omega
  have hhead : ls.flatten[pos]? = (ls.flatten.drop pos)[0]? := by
    rw [List.getElem?_drop, Nat.add_zero]
  rw [hhead, drop_flatten_of_locate h, List.getElem?_eq_getElem hi', Option.getD_some,
    List.getElem?_append_left hpos, List.getElem?_drop, Nat.add_zero, Option.bind_some]

/-- Cut a sequence after every element that closes a group: the closed groups
in order, and what follows the last of them. -/
def cut (closes : α → Bool) (xs : List α) : List (List α) × List α :=
  xs.foldl (fun p x => if closes x then (p.1 ++ [p.2 ++ [x]], []) else (p.1, p.2 ++ [x])) ([], [])

@[simp] theorem cut_nil (closes : α → Bool) : cut closes [] = ([], []) := rfl

theorem cut_snoc (closes : α → Bool) (xs : List α) (x : α) :
    cut closes (xs ++ [x]) =
      if closes x then ((cut closes xs).1 ++ [(cut closes xs).2 ++ [x]], [])
      else ((cut closes xs).1, (cut closes xs).2 ++ [x]) := by
  simp [cut, List.foldl_append]

theorem cut_flatten (closes : α → Bool) (xs : List α) :
    (cut closes xs).1.flatten ++ (cut closes xs).2 = xs := by
  induction xs using List.reverseRecOn with
  | nil => rfl
  | append_singleton xs x ih =>
    rw [cut_snoc]
    split
    · simp [← List.append_assoc, ih]
    · simp only [← List.append_assoc, ih]

theorem cut_open (closes : α → Bool) (xs : List α) :
    ∀ y ∈ (cut closes xs).2, closes y = false := by
  induction xs using List.reverseRecOn with
  | nil => simp
  | append_singleton xs x ih =>
    rw [cut_snoc]
    by_cases hx : closes x = true
    · simp [hx]
    · intro y hy
      rw [if_neg hx, List.mem_append, List.mem_singleton] at hy
      obtain hy | rfl := hy
      · exact ih y hy
      · exact Bool.eq_false_iff.mpr hx

theorem cut_closed {closes : α → Bool} {xs g : List α} (hg : g ∈ (cut closes xs).1) :
    ∃ pre x, g = pre ++ [x] ∧ closes x = true ∧ ∀ y ∈ pre, closes y = false := by
  induction xs using List.reverseRecOn with
  | nil => simp at hg
  | append_singleton xs x ih =>
    rw [cut_snoc] at hg
    by_cases hx : closes x = true
    · rw [if_pos hx, List.mem_append, List.mem_singleton] at hg
      obtain hg | rfl := hg
      · exact ih hg
      · exact ⟨_, x, rfl, hx, cut_open closes xs⟩
    · rw [if_neg hx] at hg
      exact ih hg

theorem splitOn_terminated [BEq α] [LawfulBEq α] {x : α} {ls : List (List α)}
    (h : ∀ l ∈ ls, x ∉ l) : (ls.flatMap fun l => l ++ [x]).splitOn x = ls ++ [[]] := by
  induction ls with
  | nil => exact List.splitOn_nil x
  | cons l ls ih =>
    rw [List.flatMap_cons, List.append_assoc, List.singleton_append, List.splitOn_append_cons_self,
      List.splitOn_eq_singleton (h l (List.mem_cons_self ..)),
      ih fun l' hl => h l' (List.mem_cons_of_mem _ hl)]
    rfl

end Aesd.Lib.Sequence
