import Mathlib.Order.Lattice
import Mathlib.Tactic.Ring
import TickHost.Settings

/-!
Bounds on rounded arithmetic. Whatever has few enough bits to be a value of a format is a bound that
rounding respects: a ratio that does not lie below it is not rounded below it, and one that does not
lie above it is not rounded above it. So a chain of rounded operations can be bounded step by step
without knowing what any of them is rounded to.
-/

namespace TickHost

namespace Binary

theorem le_divEven {num den k : Nat} (hden : 0 < den) (h : k * den ≤ num) :
    k ≤ divEven num den := by
  have hquotient : k ≤ num / den := (Nat.le_div_iff_mul_le hden).mpr h
  unfold divEven
  dsimp only
  split
  · exact hquotient
  · split
    · exact hquotient
    · exact Nat.le_succ_of_le hquotient

theorem divEven_le {num den k : Nat} (hden : 0 < den) (h : num ≤ k * den) :
    divEven num den ≤ k := by
  have hquotient : num / den ≤ k := Nat.div_le_of_le_mul (by rwa [Nat.mul_comm])
  unfold divEven
  dsimp only
  split
  · exact hquotient
  · split
    · exact hquotient
    · -- something is left over, so the quotient lies below the bound
      rename_i hrest _
      have hsplit := Nat.div_add_mod num den
      rcases Nat.lt_or_eq_of_le hquotient with hlt | rfl
      · exact hlt
      · rw [Nat.mul_comm] at h
        omega

namespace Format

variable {f : Format} {num den : Nat}

/-- The pattern of a significand at a place. A significand that is one too long for the format runs
into the exponent field. -/
theorem units_pattern {significand place : Nat} (hbits : significand ≤ 2 ^ (f.fraction + 1))
    (hplace : place = 0 ∨ 2 ^ f.fraction ≤ significand) :
    f.units (place * 2 ^ f.fraction + significand) = significand * 2 ^ place := by
  have hpos : 0 < 2 ^ f.fraction := Nat.two_pow_pos f.fraction
  rw [Nat.pow_succ] at hbits
  simp only [units, Format.significand, shift, Nat.pow_eq]
  generalize 2 ^ f.fraction = base at *
  rcases Nat.lt_or_ge significand base with hsmall | hlarge
  · have hzero : place = 0 := by omega
    subst hzero
    simp [hsmall, Nat.div_eq_of_lt hsmall]
  obtain ⟨rest, rfl⟩ := Nat.exists_eq_add_of_le hlarge
  have hsplit : place * base + (base + rest) = rest + base * (place + 1) := by ring
  have hnormal : ¬ rest + base * (place + 1) < base := by
    have := Nat.le_mul_of_pos_right base (Nat.succ_pos place)
    omega
  rw [hsplit, if_neg hnormal, Nat.add_mul_mod_self_left, Nat.add_mul_div_left _ _ hpos]
  rcases Nat.lt_or_eq_of_le (show rest ≤ base by omega) with hrest | rfl
  · rw [Nat.mod_eq_of_lt hrest, Nat.div_eq_of_lt hrest, Nat.zero_add, Nat.add_sub_cancel,
      Nat.add_comm]
  · rw [Nat.mod_self, Nat.div_self hpos, Nat.zero_add, Nat.add_sub_cancel_left, Nat.pow_succ]
    ring

/-- Patterns are in the order of what they stand for. -/
theorem units_mono (f : Format) : Monotone f.units := by
  intro a b hab
  have hpos : 0 < 2 ^ f.fraction := Nat.two_pow_pos f.fraction
  simp only [units, Format.significand, shift, Nat.pow_eq]
  generalize 2 ^ f.fraction = base at *
  by_cases ha : a < base
  · rw [if_pos ha, Nat.div_eq_of_lt ha, Nat.zero_sub, Nat.pow_zero, Nat.mul_one]
    split
    · exact Nat.le_trans hab (Nat.le_mul_of_pos_right _ (Nat.two_pow_pos _))
    · exact Nat.le_trans (show a ≤ b % base + base by omega)
        (Nat.le_mul_of_pos_right _ (Nat.two_pow_pos _))
  · have hb : ¬ b < base := by omega
    have hone : 1 ≤ a / base := (Nat.one_le_div_iff hpos).mpr (Nat.le_of_not_lt ha)
    rw [if_neg ha, if_neg hb]
    rcases Nat.lt_or_eq_of_le (Nat.div_le_div_right (c := base) hab) with hlt | heq
    · -- one place further on, even the least significand stands for more
      have hmod : a % base < base := Nat.mod_lt a hpos
      calc (a % base + base) * 2 ^ (a / base - 1) ≤ 2 * base * 2 ^ (a / base - 1) :=
            Nat.mul_le_mul_right _ (by omega)
        _ = base * 2 ^ (a / base - 1 + 1) := by rw [Nat.pow_succ]; ring
        _ ≤ (b % base + base) * 2 ^ (b / base - 1) :=
            Nat.mul_le_mul (by omega) (Nat.pow_le_pow_right Nat.two_pos (by omega))
    · have hsplit := Nat.div_add_mod a base
      have hsplit' := Nat.div_add_mod b base
      rw [heq] at hsplit ⊢
      exact Nat.mul_le_mul_right _ (by omega)

/-- A ratio is rounded to a significand at the place that its leading bit fixes, or to infinity if
that is less. -/
theorem units_nearest (f : Format) (num : Nat) {den : Nat} (hden : 0 < den) : ∃ place,
    let rounded := divEven (num * 2 ^ f.scale) (den * 2 ^ place)
    f.units (f.nearest num den) = min (rounded * 2 ^ place) (f.units f.infinity) ∧
      (place = 0 ∨ 2 ^ f.fraction * (den * 2 ^ place) ≤ num * 2 ^ f.scale) := by
  obtain ⟨whole, hwhole⟩ : ∃ whole, whole = num * 2 ^ f.scale / den := ⟨_, rfl⟩
  obtain ⟨place, hplace⟩ : ∃ place, place = if whole = 0 then 0 else whole.log2 - f.fraction :=
    ⟨_, rfl⟩
  have hpos : 0 < den * 2 ^ place := Nat.mul_pos hden (Nat.two_pow_pos place)
  -- at most one bit too many is left in front of the point
  have hupper : divEven (num * 2 ^ f.scale) (den * 2 ^ place) ≤ 2 ^ (f.fraction + 1) := by
    have hexponent : whole.log2 + 1 ≤ f.fraction + 1 + place := by
      rw [hplace]
      split
      · rename_i hzero
        rw [hzero, Nat.log2_zero]
        omega
      · omega
    have hlog : whole < 2 ^ (f.fraction + 1 + place) :=
      Nat.lt_of_lt_of_le Nat.lt_log2_self (Nat.pow_le_pow_right Nat.two_pos hexponent)
    refine divEven_le hpos ?_
    calc num * 2 ^ f.scale ≤ 2 ^ (f.fraction + 1 + place) * den :=
          Nat.le_of_lt ((Nat.div_lt_iff_lt_mul hden).mp (hwhole ▸ hlog))
      _ = 2 ^ (f.fraction + 1) * (den * 2 ^ place) := by rw [Nat.pow_add]; ring
  have hlower : place = 0 ∨ 2 ^ f.fraction * (den * 2 ^ place) ≤ num * 2 ^ f.scale := by
    rcases Nat.eq_zero_or_pos place with hzero | hlarge
    · exact .inl hzero
    right
    have hne : whole ≠ 0 := by rintro rfl; simp at hplace; omega
    rw [if_neg hne] at hplace
    have hlog : 2 ^ (f.fraction + place) ≤ whole := by
      rw [show f.fraction + place = whole.log2 by omega]
      exact Nat.log2_self_le hne
    calc 2 ^ f.fraction * (den * 2 ^ place) = 2 ^ (f.fraction + place) * den := by
          rw [Nat.pow_add]; ring
      _ ≤ num * 2 ^ f.scale := (Nat.le_div_iff_mul_le hden).mp (hwhole ▸ hlog)
  have hnearest : f.nearest num den =
      min (place * 2 ^ f.fraction + divEven (num * 2 ^ f.scale) (den * 2 ^ place)) f.infinity := by
    rw [hplace, hwhole]
    rfl
  refine ⟨place, ?_, hlower⟩
  rw [hnearest, f.units_mono.map_min,
    units_pattern hupper (hlower.imp_right (le_divEven hpos))]

/-- What is not below a value of the format is not rounded below it. -/
theorem le_units_nearest {m e : Nat} (hbits : m ≤ 2 ^ f.fraction)
    (hfinite : m * 2 ^ e ≤ f.units f.infinity) (hden : 0 < den)
    (h : m * 2 ^ e * den ≤ num * 2 ^ f.scale) : m * 2 ^ e ≤ f.units (f.nearest num den) := by
  obtain ⟨place, heq, hplace⟩ := f.units_nearest num hden
  have hpos : 0 < den * 2 ^ place := Nat.mul_pos hden (Nat.two_pow_pos place)
  rw [heq]
  refine Nat.le_min.mpr ⟨?_, hfinite⟩
  rcases Nat.lt_or_ge e place with habove | hbelow
  · -- whatever is rounded at this place has more bits than the bound
    exact Nat.mul_le_mul (Nat.le_trans hbits (le_divEven hpos (hplace.resolve_left (by omega))))
      (Nat.pow_le_pow_right Nat.two_pos (Nat.le_of_lt habove))
  · -- the bound is a multiple of the place
    obtain ⟨k, rfl⟩ := Nat.exists_eq_add_of_le hbelow
    have hk : m * 2 ^ k * (den * 2 ^ place) = m * 2 ^ (place + k) * den := by
      rw [Nat.pow_add]; ring
    calc m * 2 ^ (place + k) = m * 2 ^ k * 2 ^ place := by rw [Nat.pow_add]; ring
      _ ≤ _ := Nat.mul_le_mul_right _ (le_divEven hpos (hk ▸ h))

/-- What is not above a value of the format is not rounded above it. -/
theorem units_nearest_le {m e : Nat} (hbits : m ≤ 2 ^ f.fraction) (hden : 0 < den)
    (h : num * 2 ^ f.scale ≤ m * 2 ^ e * den) : f.units (f.nearest num den) ≤ m * 2 ^ e := by
  obtain ⟨place, heq, hplace⟩ := f.units_nearest num hden
  have hpos : 0 < den * 2 ^ place := Nat.mul_pos hden (Nat.two_pow_pos place)
  rw [heq]
  refine Nat.le_trans (Nat.min_le_left _ _) ?_
  rcases Nat.lt_or_ge e place with habove | hbelow
  · -- nothing that is rounded at this place is as small as the bound
    refine absurd (Nat.le_trans (hplace.resolve_left (by omega)) h) (Nat.not_le_of_lt ?_)
    calc m * 2 ^ e * den ≤ 2 ^ f.fraction * 2 ^ e * den :=
          Nat.mul_le_mul_right _ (Nat.mul_le_mul_right _ hbits)
      _ < 2 ^ f.fraction * 2 ^ place * den :=
          Nat.mul_lt_mul_of_pos_right (Nat.mul_lt_mul_of_pos_left
            (Nat.pow_lt_pow_right Nat.one_lt_two habove) (Nat.two_pow_pos _)) hden
      _ = 2 ^ f.fraction * (den * 2 ^ place) := by ring
  · obtain ⟨k, rfl⟩ := Nat.exists_eq_add_of_le hbelow
    have hk : m * 2 ^ k * (den * 2 ^ place) = m * 2 ^ (place + k) * den := by
      rw [Nat.pow_add]; ring
    calc _ ≤ m * 2 ^ k * 2 ^ place := Nat.mul_le_mul_right _ (divEven_le hpos (hk ▸ h))
      _ = m * 2 ^ (place + k) := by rw [Nat.pow_add]; ring

/-! ### Samples in a tick -/

/-- A million, and a millionth of one, lie within the format. -/
structure Ample (f : Format) : Prop where
  bits : 20 ≤ f.fraction
  small : 20 ≤ f.scale
  large : 2 ^ 20 * 2 ^ f.scale ≤ f.units f.infinity

theorem double_ample : double.Ample :=
  ⟨by decide, by decide, by decide +kernel⟩

/-- The samples in a tick of so many microseconds at so many samples a second, a half rounded up. -/
def perTick (f : Format) (interval rate : Nat) : Nat :=
  let samples := f.div (f.mul (f.ofNat interval) (f.ofNat rate)) (f.ofNat 1000000)
  f.floor (f.add samples (f.nearest 1 2))

namespace Ample

variable {m e k n interval rate : Nat}

theorem le_nearest (hf : f.Ample) (hbits : m ≤ 2 ^ 20) (hplace : e ≤ f.scale) (hden : 0 < den)
    (h : m * 2 ^ e * den ≤ num * 2 ^ f.scale) : m * 2 ^ e ≤ f.units (f.nearest num den) := by
  refine le_units_nearest (Nat.le_trans hbits (Nat.pow_le_pow_right Nat.two_pos hf.bits)) ?_ hden h
  calc m * 2 ^ e ≤ 2 ^ 20 * 2 ^ f.scale :=
        Nat.mul_le_mul hbits (Nat.pow_le_pow_right Nat.two_pos hplace)
    _ ≤ f.units f.infinity := hf.large

theorem nearest_le (hf : f.Ample) (hbits : m ≤ 2 ^ 20) (hden : 0 < den)
    (h : num * 2 ^ f.scale ≤ m * 2 ^ e * den) : f.units (f.nearest num den) ≤ m * 2 ^ e :=
  units_nearest_le (Nat.le_trans hbits (Nat.pow_le_pow_right Nat.two_pos hf.bits)) hden h

theorem le_ofNat (hf : f.Ample) (hbits : k ≤ 2 ^ 20) (h : k ≤ n) :
    k * 2 ^ f.scale ≤ f.units (f.ofNat n) := by
  refine hf.le_nearest hbits (Nat.le_refl _) Nat.one_pos ?_
  rw [Nat.mul_one]
  exact Nat.mul_le_mul_right _ h

theorem ofNat_le (hf : f.Ample) (hbits : k ≤ 2 ^ 20) (h : n ≤ k) :
    f.units (f.ofNat n) ≤ k * 2 ^ f.scale := by
  refine hf.nearest_le hbits Nat.one_pos ?_
  rw [Nat.mul_one]
  exact Nat.mul_le_mul_right _ h

theorem ofNat_zero (hf : f.Ample) : f.units (f.ofNat 0) = 0 := by
  have hzero := hf.ofNat_le (k := 0) (by decide) (Nat.le_refl 0)
  rwa [Nat.zero_mul, Nat.le_zero] at hzero

theorem le_mul (hf : f.Ample) (h : 500000 ≤ interval * rate) :
    500000 * 2 ^ f.scale ≤ f.units (f.mul (f.ofNat interval) (f.ofNat rate)) := by
  have hinterval := hf.le_ofNat (k := min interval 500000) (by omega) (Nat.min_le_left _ _)
  have hrate := hf.le_ofNat (k := min rate 500000) (by omega) (Nat.min_le_left _ _)
  -- a factor that is too large for the bounds is enough on its own
  have hfactors : 500000 ≤ min interval 500000 * min rate 500000 := by
    have hinterval_pos : 0 < interval := Nat.pos_of_mul_pos_right (Nat.lt_of_lt_of_le (by decide) h)
    have hrate_pos : 0 < rate := Nat.pos_of_mul_pos_left (Nat.lt_of_lt_of_le (by decide) h)
    rcases Nat.le_total 500000 interval with hlarge | hinterval_le
    · rw [Nat.min_eq_right hlarge]
      exact Nat.le_mul_of_pos_right _ (by omega)
    · rcases Nat.le_total 500000 rate with hlarge | hrate_le
      · rw [Nat.min_eq_right hlarge]
        exact Nat.le_mul_of_pos_left _ (by omega)
      · rwa [Nat.min_eq_left hinterval_le, Nat.min_eq_left hrate_le]
  refine hf.le_nearest (by decide) (Nat.le_refl _) (Nat.two_pow_pos _) ?_
  calc 500000 * 2 ^ f.scale * 2 ^ (2 * f.scale)
      ≤ min interval 500000 * min rate 500000 * 2 ^ f.scale * 2 ^ (2 * f.scale) :=
        Nat.mul_le_mul_right _ (Nat.mul_le_mul_right _ hfactors)
    _ = min interval 500000 * 2 ^ f.scale * (min rate 500000 * 2 ^ f.scale) * 2 ^ f.scale := by
        rw [Nat.two_mul, Nat.pow_add]; ring
    _ ≤ f.units (f.ofNat interval) * f.units (f.ofNat rate) * 2 ^ f.scale :=
        Nat.mul_le_mul_right _ (Nat.mul_le_mul hinterval hrate)

theorem mul_le (hf : f.Ample) (h : interval * rate < 500000) :
    f.units (f.mul (f.ofNat interval) (f.ofNat rate)) ≤ 499999 * 2 ^ f.scale := by
  have hproduct : f.units (f.ofNat interval) * f.units (f.ofNat rate) ≤
      499999 * (2 ^ f.scale * 2 ^ f.scale) := by
    -- next to zero the other factor may be too large for the bounds
    rcases Nat.eq_zero_or_pos interval with rfl | hinterval
    · simp [hf.ofNat_zero]
    rcases Nat.eq_zero_or_pos rate with rfl | hrate
    · simp [hf.ofNat_zero]
    have hinterval_le := Nat.le_mul_of_pos_right interval hrate
    have hrate_le := Nat.le_mul_of_pos_left rate hinterval
    calc f.units (f.ofNat interval) * f.units (f.ofNat rate)
        ≤ interval * 2 ^ f.scale * (rate * 2 ^ f.scale) :=
          Nat.mul_le_mul (hf.ofNat_le (by omega) (Nat.le_refl _))
            (hf.ofNat_le (by omega) (Nat.le_refl _))
      _ = interval * rate * (2 ^ f.scale * 2 ^ f.scale) := by ring
      _ ≤ 499999 * (2 ^ f.scale * 2 ^ f.scale) := Nat.mul_le_mul_right _ (by omega)
  refine hf.nearest_le (by decide) (Nat.two_pow_pos _) ?_
  calc f.units (f.ofNat interval) * f.units (f.ofNat rate) * 2 ^ f.scale
      ≤ 499999 * (2 ^ f.scale * 2 ^ f.scale) * 2 ^ f.scale := Nat.mul_le_mul_right _ hproduct
    _ = 499999 * 2 ^ f.scale * 2 ^ (2 * f.scale) := by rw [Nat.two_mul, Nat.pow_add]; ring

/-- Half a sample in a tick is rounded up. -/
theorem perTick_pos (hf : f.Ample) (h : 500000 ≤ interval * rate) :
    0 < f.perTick interval rate := by
  have hproduct := hf.le_mul h
  have hmillion := hf.ofNat_le (k := 1000000) (by decide) (Nat.le_refl _)
  have hmillion_pos : 0 < f.units (f.ofNat 1000000) :=
    Nat.lt_of_lt_of_le (Nat.mul_pos (by decide) (Nat.two_pow_pos _))
      (hf.le_ofNat (k := 1) (by decide) (by decide))
  obtain ⟨half, hhalf⟩ : ∃ half, f.scale = half + 1 :=
    ⟨f.scale - 1, by have := hf.small; omega⟩
  have hone : 2 ^ f.scale = 2 * 2 ^ half := by rw [hhalf, Nat.pow_succ, Nat.mul_comm]
  have hsamples : 1 * 2 ^ half ≤
      f.units (f.div (f.mul (f.ofNat interval) (f.ofNat rate)) (f.ofNat 1000000)) := by
    refine hf.le_nearest (by decide) (by omega) hmillion_pos ?_
    calc 1 * 2 ^ half * f.units (f.ofNat 1000000)
        ≤ 1 * 2 ^ half * (1000000 * 2 ^ f.scale) := Nat.mul_le_mul_left _ hmillion
      _ = 500000 * 2 ^ f.scale * 2 ^ f.scale := by rw [hone]; ring
      _ ≤ _ := Nat.mul_le_mul_right _ hproduct
  have hadded : 1 * 2 ^ half ≤ f.units (f.nearest 1 2) :=
    hf.le_nearest (by decide) (by omega) Nat.two_pos (by omega)
  refine Nat.div_pos ?_ (Nat.two_pow_pos _)
  rw [← Nat.one_mul (Nat.pow 2 f.scale)]
  exact hf.le_nearest (by decide) (Nat.le_refl _) (Nat.two_pow_pos _)
    (Nat.mul_le_mul_right _ (by omega))

/-- Less than half a sample in a tick is rounded down, however little is missing. -/
theorem perTick_eq_zero (hf : f.Ample) (h : interval * rate < 500000) :
    f.perTick interval rate = 0 := by
  have hproduct := hf.mul_le h
  have hmillion := hf.le_ofNat (k := 1000000) (by decide) (Nat.le_refl _)
  have hpos : 0 < 2 ^ f.scale := Nat.two_pow_pos _
  -- what is missing is a millionth at least, and that the format tells apart
  obtain ⟨millionth, hmillionth⟩ : ∃ millionth, f.scale = millionth + 20 :=
    ⟨f.scale - 20, by have := hf.small; omega⟩
  have hone : 2 ^ f.scale = 1048576 * 2 ^ millionth := by
    rw [hmillionth, Nat.pow_add, Nat.mul_comm]
  have hsamples : f.units (f.div (f.mul (f.ofNat interval) (f.ofNat rate)) (f.ofNat 1000000)) ≤
      524287 * 2 ^ millionth := by
    refine hf.nearest_le (by decide) (by omega) ?_
    calc f.units (f.mul (f.ofNat interval) (f.ofNat rate)) * 2 ^ f.scale
        ≤ 499999 * 2 ^ f.scale * 2 ^ f.scale := Nat.mul_le_mul_right _ hproduct
      _ = 499999 * 1048576 * (2 ^ millionth * 2 ^ f.scale) := by rw [hone]; ring
      _ ≤ 524287 * 1000000 * (2 ^ millionth * 2 ^ f.scale) := Nat.mul_le_mul_right _ (by decide)
      _ = 524287 * 2 ^ millionth * (1000000 * 2 ^ f.scale) := by ring
      _ ≤ _ := Nat.mul_le_mul_left _ hmillion
  have hadded : f.units (f.nearest 1 2) ≤ 524288 * 2 ^ millionth :=
    hf.nearest_le (by decide) Nat.two_pos (by omega)
  refine Nat.div_eq_of_lt (Nat.lt_of_le_of_lt (m := 1048575 * 2 ^ millionth) ?_ ?_)
  · exact hf.nearest_le (by decide) hpos (Nat.mul_le_mul_right _ (by omega))
  · exact Nat.lt_of_lt_of_eq (by omega) hone.symm

end Ample

end Format

end Binary

theorem HostSettings.samplesPerTick_eq_zero_iff {s : HostSettings} :
    s.samplesPerTick = 0 ↔ s.tickInterval * s.sampleRate < 500000 := by
  have heq : s.samplesPerTick =
      min (Binary.Format.double.perTick s.tickInterval s.sampleRate) sampleLimit := rfl
  rw [heq]
  rcases Nat.lt_or_ge (s.tickInterval * s.sampleRate) 500000 with hless | hmore
  · simp [Binary.Format.double_ample.perTick_eq_zero hless, hless]
  · have hpos := Binary.Format.double_ample.perTick_pos hmore
    simp only [sampleLimit]
    omega

end TickHost
