/-! # Powers of two

Blocks of addresses have as many addresses as a power of two. -/

namespace RegisterMap.Number

def twoPow (n : Nat) : Nat := Nat.pow 2 n

theorem twoPow_zero : twoPow 0 = 1 := rfl

theorem twoPow_succ (n : Nat) : twoPow (n + 1) = twoPow n * 2 := rfl

theorem twoPow_pos (n : Nat) : 0 < twoPow n := by
  induction n with
  | zero => rw [twoPow_zero]; omega
  | succ n ih => rw [twoPow_succ]; omega

def total (ns : List Nat) : Nat := ns.foldl (fun sum n => sum + n) 0

end RegisterMap.Number
