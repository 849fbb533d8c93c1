import MicroSsa.Proofs.Value.Soundness
/-!
# Machine words as numbers

Folding computes on 64-bit words (`UInt64`, and `Int64` for the signed operations), while
`Opcode.meaning` computes on naturals and integers and cuts the result to the output's bytes
with `wrapTo`. This file gives the bridge: what a mask keeps, what a sign extension reads, and,
for each word operation folding uses, the number it stands for modulo `2 ^ 64`. The one rule
every later step uses is `Word.toNat_and_mask_eq_wrapTo`: a word cut to `out` bytes is the
wrapped value of any integer it agrees with on those bytes.

Values of `n` bytes are read in two ways: as naturals below `2 ^ (8 * n)`, and as signed numbers
(`signedOf`), the unique integers from `-2 ^ (8 * n - 1)` up to `2 ^ (8 * n - 1)` that agree with
them on those bytes (`signedOf_eq_of_modEq`). Signed overflow of a sum or a difference shows in
the sign bits, which is how the carry operations test it.
-/

namespace MicroSsa

section Wrapping

theorem natCast_wrapTo (n : Nat) (i : Int) : (wrapTo n i : Int) = i % 2 ^ (8 * n) := by
  unfold wrapTo
  exact Int.toNat_of_nonneg (Int.emod_nonneg _ (by positivity))

theorem wrapTo_lt (n : Nat) (i : Int) : wrapTo n i < 2 ^ (8 * n) := by
  have h : (wrapTo n i : Int) < 2 ^ (8 * n) := by
    rw [natCast_wrapTo]
    exact Int.emod_lt_of_pos _ (by positivity)
  exact_mod_cast h

theorem wrapTo_natCast (n x : Nat) : wrapTo n x = x % 2 ^ (8 * n) := by
  have h := natCast_wrapTo n x
  exact_mod_cast h

theorem wrapTo_congr {n : Nat} {i j : Int} (h : i ≡ j [ZMOD 2 ^ (8 * n)]) :
    wrapTo n i = wrapTo n j := by
  unfold wrapTo
  rw [h]

theorem natCast_wrapTo_modEq (n : Nat) (i : Int) : (wrapTo n i : Int) ≡ i [ZMOD 2 ^ (8 * n)] := by
  rw [natCast_wrapTo]
  exact Int.mod_modEq _ _

/-- Agreement on `n` bytes gives agreement on fewer. -/
theorem modEq_bytes_of_le {k n : Nat} {a b : Int} (h : k ≤ n) (hab : a ≡ b [ZMOD 2 ^ (8 * n)]) :
    a ≡ b [ZMOD 2 ^ (8 * k)] :=
  hab.of_dvd (pow_dvd_pow 2 (by omega))

theorem natCast_mod_modEq (k M : Nat) : ((k % M : Nat) : Int) ≡ k [ZMOD M] := by
  rw [Int.natCast_mod]
  exact Int.mod_modEq _ _

theorem bmod_modEq (i : Int) : i.bmod (2 ^ 64) ≡ i [ZMOD 2 ^ 64] := by
  have h := Int.bmod_emod (x := i) (m := 2 ^ 64)
  push_cast at h
  exact h

theorem bitOf_congr {p q : Prop} [Decidable p] [Decidable q] (h : p ↔ q) : bitOf p = bitOf q := by
  simp only [bitOf, h]

end Wrapping

section Signed

theorem two_pow_bytes_eq {n : Nat} (hn : 1 ≤ n) : (2 : Int) ^ (8 * n) = 2 * 2 ^ (8 * n - 1) := by
  rw [← pow_succ']
  congr 1
  omega

theorem signedOf_modEq (n x : Nat) : signedOf n x ≡ x [ZMOD 2 ^ (8 * n)] := by
  unfold signedOf
  split
  · rfl
  · exact Int.modEq_iff_dvd.mpr ⟨1, by ring⟩

theorem signedOf_bounds {n x : Nat} (hn : 1 ≤ n) (hx : x < 2 ^ (8 * n)) :
    -2 ^ (8 * n - 1) ≤ signedOf n x ∧ signedOf n x < 2 ^ (8 * n - 1) := by
  have hM := two_pow_bytes_eq hn
  have hx' : (x : Int) < 2 ^ (8 * n) := by exact_mod_cast hx
  unfold signedOf
  split
  · rename_i hlt
    have : (x : Int) < 2 ^ (8 * n - 1) := by exact_mod_cast hlt
    omega
  · rename_i hge
    have : ¬ (x : Int) < 2 ^ (8 * n - 1) := by exact_mod_cast hge
    omega

theorem signedOf_neg_iff {n x : Nat} (hx : x < 2 ^ (8 * n)) :
    signedOf n x < 0 ↔ 2 ^ (8 * n - 1) ≤ x := by
  have hx' : (x : Int) < 2 ^ (8 * n) := by exact_mod_cast hx
  unfold signedOf
  split
  · rename_i hlt
    omega
  · rename_i hge
    omega

/-- The signed reading of a value of `n` bytes is the one integer from `-2 ^ (8 * n - 1)` up to
`2 ^ (8 * n - 1)` that agrees with the value on those bytes. -/
theorem signedOf_eq_of_modEq {n x : Nat} {c : Int} (hn : 1 ≤ n) (hx : x < 2 ^ (8 * n))
    (hc : c ≡ x [ZMOD 2 ^ (8 * n)]) (h1 : -2 ^ (8 * n - 1) ≤ c) (h2 : c < 2 ^ (8 * n - 1)) :
    signedOf n x = c := by
  have hb := signedOf_bounds hn hx
  have hM := two_pow_bytes_eq hn
  have hdvd : (2 : Int) ^ (8 * n) ∣ signedOf n x - c :=
    Int.modEq_iff_dvd.mp (hc.trans (signedOf_modEq n x).symm)
  have habs : |signedOf n x - c| < 2 ^ (8 * n) := abs_lt.mpr ⟨by omega, by omega⟩
  have := Int.eq_zero_of_abs_lt_dvd hdvd habs
  omega

/-- The signed reading of a sum or difference `s` of two signed values of `n` bytes, cut to `n`
bytes: `s` itself unless it overflows, and `s` moved by `2 ^ (8 * n)` back into range if it
does. -/
theorem signedOf_wrapTo_of_bounds {n : Nat} {s : Int} (hn : 1 ≤ n) (h1 : -2 ^ (8 * n) ≤ s)
    (h2 : s < 2 ^ (8 * n)) :
    signedOf n (wrapTo n s) =
      if s < -2 ^ (8 * n - 1) then s + 2 ^ (8 * n) * 1
      else if 2 ^ (8 * n - 1) ≤ s then s + 2 ^ (8 * n) * (-1) else s := by
  have hM := two_pow_bytes_eq hn
  have hw : (s : Int) ≡ wrapTo n s [ZMOD 2 ^ (8 * n)] := (natCast_wrapTo_modEq n s).symm
  split_ifs with hlo hhi
  · exact signedOf_eq_of_modEq hn (wrapTo_lt n s)
      ((Int.add_mul_emod_self_left s _ 1).trans hw) (by omega) (by omega)
  · exact signedOf_eq_of_modEq hn (wrapTo_lt n s)
      ((Int.add_mul_emod_self_left s _ (-1)).trans hw) (by omega) (by omega)
  · exact signedOf_eq_of_modEq hn (wrapTo_lt n s) hw (by omega) (by omega)

/-- Signed overflow of a sum shows in the sign bits: both operands have one sign and the cut sum
the other. -/
theorem signed_add_overflow_iff {n x y : Nat} (hn : 1 ≤ n) (hx : x < 2 ^ (8 * n))
    (hy : y < 2 ^ (8 * n)) :
    (decide (signedOf n x < 0) == decide (signedOf n y < 0) &&
        decide (signedOf n (wrapTo n (signedOf n x + signedOf n y)) < 0) !=
          decide (signedOf n x < 0)) = true ↔
      signedOf n x + signedOf n y < -2 ^ (8 * n - 1) ∨
        2 ^ (8 * n - 1) ≤ signedOf n x + signedOf n y := by
  have hbx := signedOf_bounds hn hx
  have hby := signedOf_bounds hn hy
  have hM := two_pow_bytes_eq hn
  rw [signedOf_wrapTo_of_bounds hn (by omega) (by omega)]
  split_ifs <;> simp <;> omega

/-- Signed overflow of a difference shows in the sign bits: the operands have different signs and
the cut difference has the sign of the subtrahend. -/
theorem signed_sub_overflow_iff {n x y : Nat} (hn : 1 ≤ n) (hx : x < 2 ^ (8 * n))
    (hy : y < 2 ^ (8 * n)) :
    (decide (signedOf n x < 0) != decide (signedOf n y < 0) &&
        decide (signedOf n (wrapTo n (signedOf n x - signedOf n y)) < 0) !=
          decide (signedOf n x < 0)) = true ↔
      signedOf n x - signedOf n y < -2 ^ (8 * n - 1) ∨
        2 ^ (8 * n - 1) ≤ signedOf n x - signedOf n y := by
  have hbx := signedOf_bounds hn hx
  have hby := signedOf_bounds hn hy
  have hM := two_pow_bytes_eq hn
  rw [signedOf_wrapTo_of_bounds hn (by omega) (by omega)]
  split_ifs <;> simp <;> omega

end Signed

namespace Word

theorem toNat_mask {n : Nat} (h : n ≤ 8) : (mask n).toNat = 2 ^ (8 * n) - 1 := by
  unfold mask
  split
  · have hn : n = 8 := by omega
    subst hn
    rfl
  · rw [UInt64.toNat_ofNat', Nat.pow_eq, Nat.mod_eq_of_lt]
    have : 2 ^ (8 * n) ≤ 2 ^ 64 := Nat.pow_le_pow_right (by omega) (by omega)
    omega

theorem toNat_and_mask {n : Nat} (h : n ≤ 8) (v : UInt64) :
    (v &&& mask n).toNat = v.toNat % 2 ^ (8 * n) := by
  rw [UInt64.toNat_and, toNat_mask h, Nat.and_two_pow_sub_one_eq_mod]

theorem and_mask_of_lt {n : Nat} {v : UInt64} (h : n ≤ 8) (hv : v.toNat < 2 ^ (8 * n)) :
    v &&& mask n = v := by
  apply UInt64.toNat_inj.mp
  rw [toNat_and_mask h, Nat.mod_eq_of_lt hv]

/-- A word cut to `out` bytes is the wrapped value of any integer it agrees with on those
bytes. -/
theorem toNat_and_mask_eq_wrapTo {out : Nat} {r : UInt64} {i : Int} (h : out ≤ 8)
    (hr : (r.toNat : Int) ≡ i [ZMOD 2 ^ (8 * out)]) : (r &&& mask out).toNat = wrapTo out i := by
  rw [toNat_and_mask h, ← wrapTo_natCast]
  exact wrapTo_congr hr

theorem toNat_and_mask_of_modEq {out : Nat} {r : UInt64} {i : Int} (h : out ≤ 8)
    (hr : (r.toNat : Int) ≡ i [ZMOD 2 ^ 64]) : (r &&& mask out).toNat = wrapTo out i :=
  toNat_and_mask_eq_wrapTo h (modEq_bytes_of_le (n := 8) h hr)

/-- Sign extension reads a value of one to eight bytes as `signedOf` does. -/
theorem toInt_signExtend {n : Nat} {v : UInt64} (h1 : 1 ≤ n) (h8 : n ≤ 8)
    (hv : v.toNat < 2 ^ (8 * n)) : (signExtend v n).toInt = signedOf n v.toNat := by
  unfold signExtend signedOf
  by_cases h : n = 0 ∨ 8 ≤ n
  · -- eight bytes: the word's own two's complement reading
    have hn : n = 8 := by omega
    subst hn
    rw [if_pos h, ← Int64.toInt_toBitVec, UInt64.toBitVec_toInt64, BitVec.toInt_eq_toNat_cond]
    simp only [UInt64.toNat_toBitVec]
    split <;> split <;> first | rfl | omega
  · rw [if_neg h]
    simp only [Nat.pow_eq, Nat.mod_eq_of_lt hv]
    have hM := two_pow_bytes_eq h1
    have hv' : (v.toNat : Int) < 2 ^ (8 * n) := by exact_mod_cast hv
    have hsmall : (2 : Int) ^ (8 * n) ≤ 2 ^ 56 := pow_le_pow_right₀ (by norm_num) (by omega)
    have hsz : (Int64.size : Int) = 2 ^ 64 := rfl
    split
    · rw [Int64.toInt_ofInt, Int.bmod_eq_of_le] <;> omega
    · rw [Int64.toInt_ofInt, Int.bmod_eq_of_le] <;> push_cast <;> omega

theorem toInt_signExtend_modEq {n : Nat} {v : UInt64} (h1 : 1 ≤ n) (h8 : n ≤ 8)
    (hv : v.toNat < 2 ^ (8 * n)) : (signExtend v n).toInt ≡ v.toNat [ZMOD 2 ^ (8 * n)] := by
  rw [toInt_signExtend h1 h8 hv]
  exact signedOf_modEq n v.toNat

end Word

section Words

theorem UInt64.toNat_add_modEq (a b : UInt64) :
    ((a + b).toNat : Int) ≡ a.toNat + b.toNat [ZMOD 2 ^ 64] := by
  rw [UInt64.toNat_add]
  exact_mod_cast natCast_mod_modEq (a.toNat + b.toNat) (2 ^ 64)

theorem UInt64.toNat_sub_modEq (a b : UInt64) :
    ((a - b).toNat : Int) ≡ a.toNat - b.toNat [ZMOD 2 ^ 64] := by
  have hb := b.toNat_lt
  have hcast : ((2 ^ 64 - b.toNat + a.toNat : Nat) : Int) = a.toNat - b.toNat + 2 ^ 64 := by
    push_cast [Nat.cast_sub hb.le]
    ring
  rw [UInt64.toNat_sub]
  have h := natCast_mod_modEq (2 ^ 64 - b.toNat + a.toNat) (2 ^ 64)
  rw [hcast] at h
  push_cast at h
  exact h.trans Int.add_modEq_right

theorem Int64.toNat_toUInt64_modEq (a : Int64) :
    (a.toUInt64.toNat : Int) ≡ a.toInt [ZMOD 2 ^ 64] := by
  rw [← Int64.toNat_toBitVec, ← Int64.toInt_toBitVec, BitVec.toInt_eq_toNat_bmod]
  exact Int.bmod_emod.symm

/-- The arithmetic shift of a 64-bit signed number by fewer than 64 places is the floor shift
of the integer. -/
theorem Int64.toInt_shiftRight_ofNat (a : Int64) {k : Nat} (hk : k ≤ 63) :
    (a >>> Int64.ofNat k).toInt = a.toInt >>> k := by
  have h1 : (BitVec.ofNat 64 k).msb = false := by
    simp only [BitVec.msb_eq_decide, BitVec.toNat_ofNat, decide_eq_false_iff_not, not_le]
    omega
  have h2 : (64#64).msb = false := by decide
  have hs : ((BitVec.ofNat 64 k).smod 64).toNat = k := by
    simp [BitVec.smod, h1, h2]
    omega
  rw [← Int64.toInt_toBitVec, Int64.toBitVec_shiftRight, BitVec.toInt_sshiftRight',
    Int64.toBitVec_ofNat', hs, Int64.toInt_toBitVec]

/-- Shifting a 64-bit signed number right by 63 places or more leaves only its sign. -/
theorem shiftRight_min_63 {s : Int} (h1 : -2 ^ 63 ≤ s) (h2 : s < 2 ^ 63) (y : Nat) :
    s >>> min y 63 = s >>> y := by
  rw [Int.shiftRight_eq_div_pow, Int.shiftRight_eq_div_pow]
  rcases Nat.le_total y 63 with hy | hy
  · rw [min_eq_left hy]
  · rw [min_eq_right hy]
    have hp : (2 : Int) ^ 63 ≤ 2 ^ y := pow_le_pow_right₀ (by norm_num) hy
    push_cast
    rcases le_or_gt 0 s with hs | hs
    · rw [Int.ediv_eq_zero_of_lt hs (by omega), Int.ediv_eq_zero_of_lt hs (by omega)]
    · have hneg : ∀ b : Int, 2 ^ 63 ≤ b → s / b = -1 := fun b hb => by
        have hlo := (Int.le_ediv_iff_mul_le (c := b) (by omega)).mpr (show -1 * b ≤ s by omega)
        have hhi := (Int.ediv_lt_iff_lt_mul (c := b) (by omega)).mpr (show s < 0 * b by omega)
        omega
      rw [hneg _ (by norm_num), hneg _ hp]

/-- Counting the set bits among the first `k` is summing the binary digits, for a number of at
most `k` bits. -/
theorem countP_testBit_range {k x : Nat} (hx : x < 2 ^ k) :
    (List.range k).countP (fun i => x.testBit i) = onesOf x := by
  induction k generalizing x with
  | zero =>
    have hx0 : x = 0 := by simpa using hx
    simp [hx0, onesOf]
  | succ k ih =>
    -- bit `i + 1` of `x` is bit `i` of `x / 2`, whose digits follow the lowest one
    have hhalf : x / 2 < 2 ^ k := by
      rw [pow_succ] at hx
      omega
    have hshift : ((fun i => x.testBit i) ∘ Nat.succ) = fun i => (x / 2).testBit i := by
      funext i
      simp [Nat.testBit_succ]
    rw [List.range_succ_eq_map, List.countP_cons, List.countP_map, hshift, ih hhalf]
    rcases Nat.eq_zero_or_pos x with hx0 | hpos
    · simp [hx0, onesOf]
    · unfold onesOf
      rw [Nat.digits_def' (by norm_num : 1 < 2) hpos, List.sum_cons, Nat.testBit_zero]
      rcases Nat.mod_two_eq_zero_or_one x with h | h
      · simp [h]
      · simp [h]
        omega

end Words

namespace Opcode

theorem toNat_popCount (v : UInt64) : (popCount v).toNat = onesOf v.toNat := by
  have hle := List.countP_le_length (p := fun i => v.toNat.testBit i) (l := List.range 64)
  rw [List.length_range] at hle
  unfold popCount
  rw [UInt64.toNat_ofNat', Nat.mod_eq_of_lt (by omega), countP_testBit_range v.toNat_lt]

theorem signBit_eq {n : Nat} {v : UInt64} (h1 : 1 ≤ n) (h8 : n ≤ 8)
    (hv : v.toNat < 2 ^ (8 * n)) : signBit v n = decide (2 ^ (8 * n - 1) ≤ v.toNat) := by
  have hM : 2 ^ (8 * n) = 2 * 2 ^ (8 * n - 1) := by
    rw [← pow_succ']
    congr 1
    omega
  have hq : (v >>> UInt64.ofNat (n * 8 - 1)).toNat = v.toNat / 2 ^ (8 * n - 1) := by
    rw [UInt64.toNat_shiftRight, UInt64.toNat_ofNat', Nat.shiftRight_eq_div_pow]
    congr 2
    omega
  -- the top bit is the quotient by `2 ^ (8 * n - 1)`, which is zero or one
  have hlt : v.toNat / 2 ^ (8 * n - 1) < 2 := Nat.div_lt_of_lt_mul (by omega)
  have hone : 1 ≤ v.toNat / 2 ^ (8 * n - 1) ↔ 2 ^ (8 * n - 1) ≤ v.toNat :=
    Nat.one_le_div_iff (Nat.two_pow_pos _)
  have hbit : ((v >>> UInt64.ofNat (n * 8 - 1)) &&& 1).toNat = v.toNat / 2 ^ (8 * n - 1) := by
    rw [UInt64.toNat_and, hq, UInt64.toNat_one, Nat.and_one_is_mod, Nat.mod_eq_of_lt hlt]
  have hpos : decide (n > 0) = true := decide_eq_true (by omega)
  unfold signBit
  rw [hpos, Bool.true_and, Bool.eq_iff_iff, beq_iff_eq, ← UInt64.toNat_inj, hbit,
    UInt64.toNat_one, decide_eq_true_iff]
  omega

theorem signBit_eq_signed {n : Nat} {v : UInt64} (h1 : 1 ≤ n) (h8 : n ≤ 8)
    (hv : v.toNat < 2 ^ (8 * n)) : signBit v n = decide (signedOf n v.toNat < 0) := by
  rw [signBit_eq h1 h8 hv, decide_eq_decide]
  exact (signedOf_neg_iff hv).symm

/-- A flag cut to one byte or more is one or zero. -/
theorem toNat_ofBool_and_mask {out : Nat} (h1 : 1 ≤ out) (h8 : out ≤ 8) (c : Bool) :
    (ofBool c &&& Word.mask out).toNat = bitOf (c = true) := by
  have h2 : 2 ≤ 2 ^ (8 * out) := by
    calc 2 = 2 ^ 1 := rfl
      _ ≤ 2 ^ (8 * out) := Nat.pow_le_pow_right (by norm_num) (by omega)
  rw [Word.toNat_and_mask h8]
  cases c with
  | false => simp [ofBool, bitOf]
  | true =>
    simp [ofBool, bitOf]
    omega

end Opcode

end MicroSsa
