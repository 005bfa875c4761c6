import NestedMatch.Bytes

/-! Decimal numerals: reading a run of digits, writing a natural number or an integer, and the sign
in front of a number that is read. Main statement: the digits written for `n` have the value `n`. -/

namespace NestedMatch

namespace Decimal

def isDigit (b : UInt8) : Bool := 48 ≤ b.toNat && b.toNat ≤ 57

def digit (d : Nat) : UInt8 := UInt8.ofNat (48 + d)

/-- The value of a run of digits, the most significant one first. -/
def value (ds : Bytes) : Nat := ds.foldl (fun n d => 10 * n + (d.toNat - 48)) 0

/-- The shortest numeral, `0` for zero. -/
def ofNat (n : Nat) : Bytes :=
  if n < 10 then [digit n] else ofNat (n / 10) ++ [digit (n % 10)]

def ofInt : Int → Bytes
  | .ofNat n => ofNat n
  | .negSucc n => 45 :: ofNat (n + 1)

theorem toNat_digit {d : Nat} (h : d < 10) : (digit d).toNat = 48 + d := by
  simp [digit]; omega

theorem isDigit_digit {d : Nat} (h : d < 10) : isDigit (digit d) = true := by
  simp [isDigit, toNat_digit h]; omega

@[simp] theorem value_nil : value [] = 0 := rfl

theorem value_append_singleton (ds : Bytes) (d : UInt8) :
    value (ds ++ [d]) = 10 * value ds + (d.toNat - 48) := by
  simp [value, List.foldl_append]

theorem value_ofNat (n : Nat) : value (ofNat n) = n := by
  induction n using Nat.strongRecOn with
  | _ n ih =>
    rw [ofNat]
    split
    · rename_i h
      rw [← List.nil_append [digit n], value_append_singleton, value_nil, toNat_digit h]; omega
    · rename_i h
      rw [value_append_singleton, ih (n / 10) (by omega), toNat_digit (Nat.mod_lt n (by omega))]
      omega

theorem isDigit_of_mem_ofNat {n : Nat} {b : UInt8} (h : b ∈ ofNat n) : isDigit b = true := by
  induction n using Nat.strongRecOn with
  | _ n ih =>
    rw [ofNat] at h
    split at h
    · rename_i hn
      rw [List.mem_singleton.1 h]; exact isDigit_digit hn
    · rename_i hn
      rcases List.mem_append.1 h with h | h
      · exact ih (n / 10) (by omega) h
      · rw [List.mem_singleton.1 h]; exact isDigit_digit (Nat.mod_lt n (by omega))

theorem ofNat_ne_nil (n : Nat) : ofNat n ≠ [] := by
  rw [ofNat]; split <;> simp

theorem ofNat_injective {m n : Nat} (h : ofNat m = ofNat n) : m = n := by
  rw [← value_ofNat m, h, value_ofNat]

end Decimal

namespace Sign

/-- The text without one leading plus. No second sign may follow it, and something must be left. -/
def dropPlus : Bytes → Option Bytes
  | [] => none
  | b :: rest =>
    if b = 43 then
      if rest = [] ∨ rest.head? = some 43 ∨ rest.head? = some 45 then none else some rest
    else some (b :: rest)

/-- Whether the text begins with a minus, and the text without it. -/
def splitMinus : Bytes → Bool × Bytes
  | [] => (false, [])
  | b :: rest => if b = 45 then (true, rest) else (false, b :: rest)

end Sign

end NestedMatch
