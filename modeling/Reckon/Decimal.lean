set_option autoImplicit false

namespace Reckon

/-- Text is handled as the list of its characters. -/
abbrev Text := List Char

namespace Decimal

def digitValue (d : Char) : Nat := d.toNat - '0'.toNat

def value (ds : Text) : Nat := ds.foldl (fun n d => 10 * n + digitValue d) 0

@[simp] theorem value_nil : value [] = 0 := rfl

@[simp] theorem value_concat (ds : Text) (d : Char) :
    value (ds ++ [d]) = 10 * value ds + digitValue d := by
  simp [value]

def digit (n : Nat) : Char := Char.ofNat ('0'.toNat + n)

theorem digitValue_digit {n : Nat} (h : n < 10) : digitValue (digit n) = n := by
  have hall : ∀ m : Fin 10, digitValue (digit m.val) = m.val := by decide
  exact hall ⟨n, h⟩

theorem isDigit_digit {n : Nat} (h : n < 10) : (digit n).isDigit = true := by
  have hall : ∀ m : Fin 10, (digit m.val).isDigit = true := by decide
  exact hall ⟨n, h⟩

def digits (n : Nat) : Text :=
  if n < 10 then [digit n] else digits (n / 10) ++ [digit (n % 10)]
termination_by n

theorem value_digits (n : Nat) : value (digits n) = n := by
  induction n using Nat.strongRecOn with
  | ind n ih =>
    rw [digits]
    split
    · next h => simpa [value] using digitValue_digit h
    · next h =>
      rw [value_concat, ih (n / 10) (by omega), digitValue_digit (Nat.mod_lt n (by decide))]
      omega

theorem digits_ne_nil (n : Nat) : digits n ≠ [] := by
  rw [digits]
  split <;> simp

theorem isDigit_of_mem_digits {n : Nat} {d : Char} (h : d ∈ digits n) : d.isDigit := by
  induction n using Nat.strongRecOn with
  | ind n ih =>
    rw [digits] at h
    split at h
    · next hn =>
      obtain rfl := List.mem_singleton.mp h
      exact isDigit_digit hn
    · next hn =>
      rcases List.mem_append.mp h with h | h
      · exact ih (n / 10) (by omega) h
      · obtain rfl := List.mem_singleton.mp h
        exact isDigit_digit (Nat.mod_lt n (by decide))

def signed : Int → Text
  | .ofNat n => digits n
  | .negSucc n => '-' :: digits (n + 1)

def read? (bound : Nat) (s : Text) : Option Nat :=
  let ds := match s with
    | '+' :: ds => ds
    | _ => s
  if !ds.isEmpty && ds.all Char.isDigit && decide (value ds < bound) then some (value ds)
  else none

end Decimal

end Reckon
