import PagedQuery.Number.Binary64

namespace PagedQuery

theorem twoTo_pos (n : Nat) : 0 < twoTo n := Nat.two_pow_pos n

theorem twoTo_add (m n : Nat) : twoTo (m + n) = twoTo m * twoTo n := Nat.pow_add 2 m n

theorem twoTo_dvd {m n : Nat} (h : m ≤ n) : twoTo m ∣ twoTo n := Nat.pow_dvd_pow 2 h

theorem divNearest_of_dvd {n d : Nat} (hd : 0 < d) (h : d ∣ n) : divNearest n d = n / d := by
  have hmod : n % d = 0 := Nat.mod_eq_zero_of_dvd h
  simp [divNearest, hmod, hd]

namespace Binary64

/-- How many low bits of a number of units do not fit in a significand. -/
def spareBits (n : Nat) : Nat := n.log2 - 52

/-- Whether a number of units is kept by rounding. -/
def IsExact (n : Nat) : Prop := twoTo (spareBits n) ∣ n

/-- The bits of an exact number of units, were it not for infinity. -/
def exactBits (n : Nat) : Nat := spareBits n * leadingBit + n / twoTo (spareBits n)

theorem roundUnits_of_isExact {n : Nat} (h : IsExact n) :
    roundUnits n = min infinityWord (exactBits n) := by
  rw [roundUnits, exactBits, ← divNearest_of_dvd (twoTo_pos _) h]
  rfl

theorem spareBits_mono {n m : Nat} (h : n ≤ m) : spareBits n ≤ spareBits m := by
  by_cases hn : n = 0
  · subst hn
    exact Nat.zero_le _
  · have hlog : n.log2 ≤ m.log2 :=
      (Nat.le_log2 (by omega)).mpr (Nat.le_trans (Nat.log2_self_le hn) h)
    unfold spareBits
    omega

theorem div_twoTo_spareBits_lt (n : Nat) : n / twoTo (spareBits n) < 2 * leadingBit := by
  have hlt : n < twoTo (53 + spareBits n) := by
    refine Nat.lt_of_lt_of_le Nat.lt_log2_self (Nat.pow_le_pow_right (by decide) ?_)
    unfold spareBits
    omega
  rw [twoTo_add] at hlt
  exact Nat.div_lt_of_lt_mul (by rwa [Nat.mul_comm])

theorem le_div_twoTo_spareBits {n : Nat} (h : 0 < spareBits n) :
    leadingBit ≤ n / twoTo (spareBits n) := by
  have hlog : 52 + spareBits n = n.log2 := by
    unfold spareBits at h ⊢
    omega
  have hn : n ≠ 0 := by
    rintro rfl
    cases h
  have hle : twoTo (52 + spareBits n) ≤ n := by
    rw [hlog]
    exact Nat.log2_self_le hn
  rw [twoTo_add] at hle
  exact (Nat.le_div_iff_mul_le (twoTo_pos _)).mpr hle

theorem exactBits_lt {n m : Nat} (hm : IsExact m) (h : n < m) :
    exactBits n < exactBits m := by
  unfold exactBits
  rcases Nat.lt_or_eq_of_le (spareBits_mono (Nat.le_of_lt h)) with hspare | hspare
  · have hnlt := div_twoTo_spareBits_lt n
    have hmle := le_div_twoTo_spareBits (Nat.zero_lt_of_lt hspare)
    have hmul := Nat.mul_le_mul_right leadingBit hspare
    rw [Nat.succ_mul] at hmul
    omega
  · unfold IsExact at hm
    rw [← hspare] at hm ⊢
    exact Nat.add_lt_add_left (Nat.div_lt_div_of_lt_of_dvd hm h) _

/-- The units of a natural number. -/
def unitsOf (n : Nat) : Nat := n * twoTo unitBits

theorem log2_unitsOf {n : Nat} (h : n ≠ 0) : (unitsOf n).log2 = n.log2 + unitBits := by
  have hpos : unitsOf n ≠ 0 := Nat.mul_ne_zero h (Nat.ne_of_gt (twoTo_pos _))
  rw [Nat.log2_eq_iff hpos]
  constructor
  · exact Nat.le_trans (Nat.le_of_eq (twoTo_add n.log2 unitBits))
      (Nat.mul_le_mul_right _ (Nat.log2_self_le h))
  · have hsum : n.log2 + unitBits + 1 = n.log2 + 1 + unitBits := by omega
    rw [hsum]
    exact Nat.lt_of_lt_of_le ((Nat.mul_lt_mul_right (twoTo_pos _)).mpr Nat.lt_log2_self)
      (Nat.le_of_eq (twoTo_add (n.log2 + 1) unitBits).symm)

theorem spareBits_unitsOf {n : Nat} (h : n ≠ 0) : spareBits (unitsOf n) = n.log2 + 1022 := by
  rw [spareBits, log2_unitsOf h]
  rfl

/-- The largest magnitude up to which all integers are doubles. -/
def exactLimit : Nat := 0x20000000000000

theorem isExact_unitsOf {n : Nat} (h : n ≤ exactLimit) : IsExact (unitsOf n) := by
  by_cases hzero : n = 0
  · subst hzero
    rw [unitsOf, Nat.zero_mul]
    exact Nat.dvd_zero _
  · rw [IsExact, spareBits_unitsOf hzero]
    rcases Nat.lt_or_eq_of_le h with hlt | rfl
    · have hlog : n.log2 < 53 := (Nat.log2_lt hzero).mpr hlt
      have hle : n.log2 + 1022 ≤ unitBits := by
        unfold unitBits
        omega
      exact Nat.dvd_trans (twoTo_dvd hle) (Nat.dvd_mul_left _ _)
    · have hlog : exactLimit.log2 + 1022 = 1 + unitBits := by decide
      rw [hlog, twoTo_add, unitsOf]
      exact Nat.mul_dvd_mul_right (by decide) _

theorem exactBits_unitsOf_lt {n : Nat} (h : n ≤ exactLimit) :
    exactBits (unitsOf n) < infinityWord := by
  by_cases hzero : n = 0
  · subst hzero
    rw [unitsOf, Nat.zero_mul]
    decide
  · have hlog : n.log2 < 54 := (Nat.log2_lt hzero).mpr (Nat.lt_of_le_of_lt h (by decide))
    have hlt := div_twoTo_spareBits_lt (unitsOf n)
    have hmul : spareBits (unitsOf n) * leadingBit ≤ 1075 * leadingBit :=
      Nat.mul_le_mul_right _ (by rw [spareBits_unitsOf hzero]; omega)
    unfold exactBits infinityWord
    unfold leadingBit at *
    omega

theorem roundUnits_unitsOf {n : Nat} (h : n ≤ exactLimit) :
    roundUnits (unitsOf n) = exactBits (unitsOf n) := by
  rw [roundUnits_of_isExact (isExact_unitsOf h)]
  exact Nat.min_eq_right (Nat.le_of_lt (exactBits_unitsOf_lt h))

theorem roundUnits_unitsOf_lt {n m : Nat} (h : n < m) (hm : m ≤ exactLimit) :
    roundUnits (unitsOf n) < roundUnits (unitsOf m) := by
  have hn : n ≤ exactLimit := Nat.le_of_lt (Nat.lt_of_lt_of_le h hm)
  rw [roundUnits_unitsOf hn, roundUnits_unitsOf hm]
  exact exactBits_lt (isExact_unitsOf hm) ((Nat.mul_lt_mul_right (twoTo_pos _)).mpr h)

theorem roundUnits_lt (n : Nat) : roundUnits n < signBit :=
  Nat.lt_of_le_of_lt (Nat.min_le_left _ _) (by decide)

/-- The position of a double in the total order, from its sign and its magnitude. -/
theorem orderKey_ofMagnitude (negative : Bool) {magnitude : Nat} (h : magnitude < signBit) :
    (ofMagnitude negative magnitude).orderKey =
      if negative then -(magnitude : Int) - 1 else magnitude := by
  have hword : (ofMagnitude negative magnitude).word =
      magnitude + if negative then signBit else 0 := by
    refine UInt64.toNat_ofNat_of_lt' ?_
    unfold signBit at *
    split <;> (change _ < 2 ^ 64) <;> omega
  unfold orderKey isNegative Binary64.magnitude
  rw [hword]
  cases negative with
  | false => simp [Nat.mod_eq_of_lt h, Nat.not_le_of_lt h]
  | true => simp [Nat.mod_eq_of_lt h]

theorem orderKey_ofInt (n : Int) :
    (ofInt n).orderKey =
      if n < 0 then -(roundUnits (unitsOf n.natAbs) : Int) - 1
      else roundUnits (unitsOf n.natAbs) := by
  rw [ofInt, ofUnits, orderKey_ofMagnitude _ (roundUnits_lt _)]
  simp only [decide_eq_true_eq]
  rfl

theorem orderKey_ofInt_lt {n m : Int} (hn : n.natAbs ≤ exactLimit) (hm : m.natAbs ≤ exactLimit)
    (h : n < m) : (ofInt n).orderKey < (ofInt m).orderKey := by
  rw [orderKey_ofInt, orderKey_ofInt]
  split
  · split
    · have hlt : m.natAbs < n.natAbs := by omega
      have := roundUnits_unitsOf_lt hlt hn
      omega
    · omega
  · rw [if_neg (by omega)]
    have hlt : n.natAbs < m.natAbs := by omega
    exact Int.ofNat_lt.mpr (roundUnits_unitsOf_lt hlt hm)

end Binary64

end PagedQuery
