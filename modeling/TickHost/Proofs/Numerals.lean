import TickHost.Decimal.Numeral

/-!
Numbers that are written are read as they were: the digits of a number have its value, whichever
way a reader adds them up, and only the number zero starts with a zero.
-/

namespace TickHost.Decimal

variable {radix n : Nat}

theorem digitChar_ne_zero (hn : 0 < n) : Nat.digitChar n ≠ '0' := by
  intro hzero
  have hdigit := Nat.isDigit_digitChar (n := n)
  rw [hzero] at hdigit
  have hvalue := Nat.toNat_digitChar_of_lt_ten (of_decide_eq_true hdigit.symm)
  rw [hzero] at hvalue
  have hnumber : '0'.toNat = 48 := rfl
  omega

theorem head?_toDigits (hradix : 1 < radix) (hn : 0 < n) :
    (Nat.toDigits radix n).head? ≠ some '0' := by
  induction n using Nat.strongRecOn with
  | ind n ih =>
      rw [Nat.toDigits_eq_if hradix]
      split
      · simpa using digitChar_ne_zero hn
      · next hlarge =>
          have hrest := ih (n / radix) (Nat.div_lt_self hn hradix)
            (Nat.div_pos (by omega) (by omega))
          rwa [List.head?_append, Option.or_of_isSome
            (List.isSome_head?.mpr Nat.toDigits_ne_nil)]

/-- The digits of a number, as a reader finds them that knows what each digit adds. -/
theorem foldlM_toDigits (hradix : 1 < radix) (step : Nat → Char → Option Nat)
    (hstep : ∀ n d, d < radix → step n (Nat.digitChar d) = some (radix * n + d)) (n : Nat) :
    (Nat.toDigits radix n).foldlM step 0 = some n := by
  induction n using Nat.strongRecOn with
  | ind n ih =>
      rw [Nat.toDigits_eq_if hradix]
      split
      · next hsmall =>
          simp [hstep 0 n hsmall]
      · next hlarge =>
          have hrest := ih (n / radix) (Nat.div_lt_self (by omega) hradix)
          have hdigit := hstep (n / radix) (n % radix) (Nat.mod_lt n (by omega))
          rw [List.foldlM_append, hrest]
          simp [hdigit, Nat.div_add_mod]

theorem digitsValue_toDigits (n : Nat) : digitsValue (Nat.toDigits 10 n) = n :=
  Nat.ofDigitChars_ten_toDigits

theorem toList_toString (n : Nat) : (toString n).toList = Nat.toDigits 10 n := by
  rw [Nat.toString_eq_ofList_toDigits, String.toList_ofList]

theorem all_isDigit_toDigits (n : Nat) : (Nat.toDigits 10 n).all Char.isDigit = true :=
  List.all_eq_true.mpr fun _ hc => Nat.isDigit_of_mem_toDigits (by decide) (by decide) hc

end TickHost.Decimal
