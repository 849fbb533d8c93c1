import MicroSsa.Proofs.Value.Words
/-!
# Evaluation over the lattice is sound

`Opcode.evaluate` gives the value of an operation over lattice inputs. It is sound when the value
p-code computes from any concrete inputs the lattice inputs stand for is among the values the
result stands for (`Opcode.evaluate_sound`), under the conditions p-code sets: inputs and output
of one to eight bytes, the sizes the operation asks (`Opcode.Sized`), and flags for the boolean
operators (`Opcode.readsBools`).

The proof follows `evaluate`'s own cases. Constants fold (`Opcode.fold_sound`): each operation
on words agrees with its meaning on numbers, one case per operation (`foldRaw_unary_sound`,
`foldRaw_binary_sound`). Relative constants are copied, moved by a constant, subtracted or
compared (`Opcode.evaluateRel_sound`), which holds as long as the offsets of one base compared for
(in)equality do not differ by a multiple of the values of the bytes compared
(`Opcode.ComparesAliasedOffsets`): such offsets name one value, yet evaluation compares them as
64-bit numbers (`intEqual_wrapped_offsets`).
-/

namespace MicroSsa

namespace Opcode

/-- The boolean operations, whose inputs p-code requires to be `0` or `1`. -/
def readsBools : Opcode → Bool
  | boolNegate | boolAnd | boolOr | boolXor => true
  | _ => false

/-- What evaluation needs of the sizes of an operation: a copy, a negation, an addition or a
subtraction gives no more bytes than its inputs have, and (in)equality and the signed carries
compare inputs of one size. P-code's own rules, which give these operations inputs and output
of one size, meet it. -/
def Sized : Opcode → List Nat → Nat → Prop
  | copy, [n], out | intNegate, [n], out => out ≤ n
  | intAdd, [n, m], out | intSub, [n, m], out => out ≤ n ∧ out ≤ m
  | intEqual, [n, m], _ | intNotEqual, [n, m], _ | intSCarry, [n, m], _ | intSBorrow, [n, m], _ =>
    m = n
  | _, _, _ => True

section Unary

variable {o : Opcode} {a raw : UInt64} {n out v : Nat}

/-- Folding an operation of one input agrees with p-code. -/
theorem foldRaw_unary_sound (hn : 1 ≤ n ∧ n ≤ 8) (hout : 1 ≤ out ∧ out ≤ 8)
    (ha : a.toNat < 2 ^ (8 * n)) (hsized : o.Sized [n] out)
    (hbool : o.readsBools = true → a.toNat ≤ 1)
    (hraw : o.foldRaw [(a, n)] = some raw) (hv : o.meaning [(a.toNat, n)] out = some v) :
    (raw &&& Word.mask out).toNat = v := by
  have ha' : a &&& Word.mask n = a := Word.and_mask_of_lt hn.2 ha
  have hwrap : ∀ {r : UInt64} {i : Int}, (r.toNat : Int) ≡ i [ZMOD 2 ^ 64] →
      (r &&& Word.mask out).toNat = wrapTo out i := Word.toNat_and_mask_of_modEq hout.2
  have ha64 := a.toNat_lt
  have hsize : UInt64.size = 2 ^ 64 := rfl
  cases o <;> simp [meaning] at hv <;> simp [foldRaw, unsignedAt, signedAt, ha'] at hraw
  case copy | intZext =>
    subst hraw hv
    exact hwrap (Int.ModEq.refl _)
  case intSext =>
    subst hraw hv
    refine hwrap ((Int64.toNat_toUInt64_modEq _).trans ?_)
    rw [Word.toInt_signExtend hn.1 hn.2 ha]
  case int2Comp =>
    subst hraw hv
    refine hwrap ?_
    rw [UInt64.toNat_neg, hsize]
    have hcast : ((2 ^ 64 - a.toNat : Nat) : Int) = -a.toNat + 2 ^ 64 := by
      push_cast [Nat.cast_sub ha64.le]
      ring
    have h := natCast_mod_modEq (2 ^ 64 - a.toNat) (2 ^ 64)
    rw [hcast] at h
    push_cast at h
    exact h.trans Int.add_modEq_right
  case intNegate =>
    simp only [Sized] at hsized
    subst hraw hv
    -- the complement of all 64 bits agrees with that of the input's bytes on the output's bytes
    refine Word.toNat_and_mask_eq_wrapTo hout.2 (Int.modEq_iff_dvd.mpr ?_)
    have hpow : 2 ^ (8 * n) ≤ 2 ^ 64 := Nat.pow_le_pow_right (by norm_num) (by omega)
    have hdiff : ((2 ^ (8 * n) - 1 - a.toNat : Nat) : Int) - ((~~~a).toNat : Int) =
        2 ^ (8 * n) - 2 ^ 64 := by
      rw [UInt64.toNat_not, hsize]
      have hlink : ((2 ^ (8 * n) : Nat) : Int) = 2 ^ (8 * n) := by push_cast; rfl
      omega
    rw [hdiff]
    exact dvd_sub (pow_dvd_pow 2 (by omega)) (pow_dvd_pow 2 (by omega))
  case boolNegate =>
    have ha1 := hbool rfl
    subst hraw hv
    refine hwrap ?_
    rw [UInt64.toNat_xor, UInt64.toNat_and, UInt64.toNat_one, Nat.and_one_is_mod,
      Nat.mod_eq_of_lt (by omega : a.toNat < 2)]
  case popcount =>
    subst hraw hv
    exact hwrap (by rw [toNat_popCount])

end Unary

section Binary

variable {o : Opcode} {a b raw : UInt64} {n m out v : Nat}

/-- Folding an operation of two inputs agrees with p-code. -/
theorem foldRaw_binary_sound (hn : 1 ≤ n ∧ n ≤ 8) (hm : 1 ≤ m ∧ m ≤ 8)
    (hout : 1 ≤ out ∧ out ≤ 8) (ha : a.toNat < 2 ^ (8 * n)) (hb : b.toNat < 2 ^ (8 * m))
    (hsized : o.Sized [n, m] out)
    (hbool : o.readsBools = true → a.toNat ≤ 1 ∧ b.toNat ≤ 1)
    (hraw : o.foldRaw [(a, n), (b, m)] = some raw)
    (hv : o.meaning [(a.toNat, n), (b.toNat, m)] out = some v) :
    (raw &&& Word.mask out).toNat = v := by
  have ha' : a &&& Word.mask n = a := Word.and_mask_of_lt hn.2 ha
  have hb' : b &&& Word.mask m = b := Word.and_mask_of_lt hm.2 hb
  have ha64 := a.toNat_lt
  have hb64 := b.toNat_lt
  have hbyte := toNat_ofBool_and_mask hout.1 hout.2
  have hwrap : ∀ {r : UInt64} {i : Int}, (r.toNat : Int) ≡ i [ZMOD 2 ^ 64] →
      (r &&& Word.mask out).toNat = wrapTo out i := Word.toNat_and_mask_of_modEq hout.2
  have hsa := Word.toInt_signExtend hn.1 hn.2 ha
  have hsb := Word.toInt_signExtend hm.1 hm.2 hb
  cases o <;> simp [meaning] at hv <;>
    simp [foldRaw, unsignedAt, signedAt, sizeAt, ha', hb'] at hraw
  -- comparisons: a flag, one or zero whatever the output size
  case intEqual =>
    subst hraw hv
    rw [hbyte]
    exact bitOf_congr (by simp [← UInt64.toNat_inj])
  case intNotEqual =>
    subst hraw hv
    rw [hbyte]
    exact bitOf_congr (by simp [← UInt64.toNat_inj])
  case intLess =>
    subst hraw hv
    rw [hbyte]
    exact bitOf_congr (by simp)
  case intLessEqual =>
    subst hraw hv
    rw [hbyte]
    exact bitOf_congr (by simp)
  case intSLess =>
    subst hraw hv
    rw [hbyte, hsa, hsb]
    exact bitOf_congr (by simp)
  case intSLessEqual =>
    subst hraw hv
    rw [hbyte, hsa, hsb]
    exact bitOf_congr (by simp)
  case intCarry =>
    subst hraw hv
    rw [hbyte, Word.toNat_mask hn.2]
    have := Nat.two_pow_pos (8 * n)
    exact bitOf_congr (by simp; omega)
  case intSCarry =>
    simp only [Sized] at hsized
    subst m hraw hv
    have hr : (a + b &&& Word.mask n).toNat = wrapTo n (signedOf n a.toNat + signedOf n b.toNat) :=
      Word.toNat_and_mask_eq_wrapTo hn.2 (modEq_bytes_of_le hn.2 (UInt64.toNat_add_modEq a b)
        |>.trans ((signedOf_modEq n _).add (signedOf_modEq n _)).symm)
    rw [hbyte, signBit_eq_signed hn.1 hn.2 ha, signBit_eq_signed hn.1 hn.2 hb,
      signBit_eq_signed hn.1 hn.2 (hr ▸ wrapTo_lt _ _), hr]
    exact bitOf_congr (signed_add_overflow_iff hn.1 ha hb)
  case intSBorrow =>
    simp only [Sized] at hsized
    subst m hraw hv
    have hr : (a - b &&& Word.mask n).toNat = wrapTo n (signedOf n a.toNat - signedOf n b.toNat) :=
      Word.toNat_and_mask_eq_wrapTo hn.2 (modEq_bytes_of_le hn.2 (UInt64.toNat_sub_modEq a b)
        |>.trans ((signedOf_modEq n _).sub (signedOf_modEq n _)).symm)
    rw [hbyte, signBit_eq_signed hn.1 hn.2 ha, signBit_eq_signed hn.1 hn.2 hb,
      signBit_eq_signed hn.1 hn.2 (hr ▸ wrapTo_lt _ _), hr]
    exact bitOf_congr (signed_sub_overflow_iff hn.1 ha hb)
  -- arithmetic: the word result agrees with the exact one modulo `2 ^ 64`
  case intAdd =>
    subst hraw hv
    exact hwrap (UInt64.toNat_add_modEq a b)
  case intSub =>
    subst hraw hv
    exact hwrap (UInt64.toNat_sub_modEq a b)
  case intMult =>
    subst hraw hv
    rw [hwrap (i := ((a.toNat * b.toNat : Nat) : Int))]
    · push_cast; rfl
    · rw [UInt64.toNat_mul]
      exact natCast_mod_modEq _ _
  case intDiv =>
    obtain ⟨-, rfl⟩ := hraw
    obtain ⟨-, rfl⟩ := hv
    exact hwrap (by rw [UInt64.toNat_div]; push_cast; rfl)
  case intRem =>
    obtain ⟨-, rfl⟩ := hraw
    obtain ⟨-, rfl⟩ := hv
    exact hwrap (by rw [UInt64.toNat_mod]; push_cast; rfl)
  case intSDiv =>
    obtain ⟨-, rfl⟩ := hraw
    obtain ⟨-, rfl⟩ := hv
    refine hwrap ((Int64.toNat_toUInt64_modEq _).trans ?_)
    rw [Int64.toInt_div, hsa, hsb]
    exact bmod_modEq _
  case intSRem =>
    obtain ⟨-, rfl⟩ := hraw
    obtain ⟨-, rfl⟩ := hv
    refine hwrap ((Int64.toNat_toUInt64_modEq _).trans ?_)
    rw [Int64.toInt_mod, hsa, hsb]
  case intAnd =>
    subst hraw hv
    exact hwrap (by rw [UInt64.toNat_and])
  case intOr =>
    subst hraw hv
    exact hwrap (by rw [UInt64.toNat_or])
  case intXor =>
    subst hraw hv
    exact hwrap (by rw [UInt64.toNat_xor])
  -- shifts: a count of a word's width or more leaves nothing, or only the sign
  case intLeft =>
    subst hv
    rw [Int.shiftLeft_eq]
    split at hraw
    · obtain rfl := Option.some.inj hraw
      refine hwrap (Int.ModEq.symm (Int.modEq_zero_iff_dvd.mpr ?_))
      exact Dvd.dvd.mul_left (pow_dvd_pow 2 (by omega)) _
    · obtain rfl := Option.some.inj hraw
      refine hwrap ?_
      rw [UInt64.toNat_shiftLeft, Nat.mod_eq_of_lt (by omega : b.toNat < 64), Nat.shiftLeft_eq]
      exact_mod_cast natCast_mod_modEq _ _
  case intRight =>
    subst hv
    rw [← Int.natCast_shiftRight, Nat.shiftRight_eq_div_pow]
    split at hraw
    · obtain rfl := Option.some.inj hraw
      have hpow : 2 ^ 64 ≤ 2 ^ b.toNat := Nat.pow_le_pow_right (by norm_num) (by omega)
      rw [Nat.div_eq_of_lt (by omega)]
      exact hwrap (by simp)
    · obtain rfl := Option.some.inj hraw
      exact hwrap (by rw [UInt64.toNat_shiftRight, Nat.mod_eq_of_lt (by omega : b.toNat < 64),
        Nat.shiftRight_eq_div_pow])
  case intSRight =>
    subst hraw hv
    have hbound := signedOf_bounds hn.1 ha
    have hpow : (2 : Int) ^ (8 * n - 1) ≤ 2 ^ 63 := pow_le_pow_right₀ (by norm_num) (by omega)
    refine hwrap ((Int64.toNat_toUInt64_modEq _).trans ?_)
    rw [Int64.toInt_shiftRight_ofNat _ (min_le_right _ _), hsa,
      shiftRight_min_63 (by omega) (by omega)]
  -- boolean operators on flags
  case boolAnd =>
    obtain ⟨ha1, hb1⟩ := hbool rfl
    subst hraw hv
    refine hwrap ?_
    rw [UInt64.toNat_and, UInt64.toNat_and, UInt64.toNat_one, Nat.and_one_is_mod,
      Nat.mod_eq_of_lt (lt_of_le_of_lt Nat.and_le_left (by omega))]
  case boolOr =>
    obtain ⟨ha1, hb1⟩ := hbool rfl
    subst hraw hv
    refine hwrap ?_
    rw [UInt64.toNat_and, UInt64.toNat_or, UInt64.toNat_one, Nat.and_one_is_mod,
      Nat.mod_eq_of_lt (Nat.or_lt_two_pow (n := 1) (by omega) (by omega))]
  case boolXor =>
    obtain ⟨ha1, hb1⟩ := hbool rfl
    subst hraw hv
    refine hwrap ?_
    rw [UInt64.toNat_and, UInt64.toNat_xor, UInt64.toNat_one, Nat.and_one_is_mod,
      Nat.mod_eq_of_lt (Nat.xor_lt_two_pow (n := 1) (by omega) (by omega))]
  -- byte splicing
  case piece =>
    obtain ⟨hm8, rfl⟩ := hraw
    subst hv
    have hshift : (UInt64.ofNat m * 8).toNat % 64 = 8 * m := by
      simp
      omega
    have hsplit : 2 ^ 64 = 2 ^ (64 - 8 * m) * 2 ^ (8 * m) := by
      rw [← pow_add]
      congr 1
      omega
    -- the high part shifted up keeps its low bits clear for the low part
    have hhigh :
        (a <<< (UInt64.ofNat m * 8)).toNat = 2 ^ (8 * m) * (a.toNat % 2 ^ (64 - 8 * m)) := by
      rw [UInt64.toNat_shiftLeft, hshift, Nat.shiftLeft_eq, hsplit, Nat.mul_mod_mul_right, mul_comm]
    refine hwrap ?_
    rw [UInt64.toNat_or, hhigh, ← Nat.two_pow_add_eq_or_of_lt hb, mul_comm,
      ← Nat.mul_mod_mul_right, ← hsplit]
    push_cast
    exact (natCast_mod_modEq _ _).add_right _
  case subpiece =>
    subst hv
    split at hraw
    · obtain rfl := Option.some.inj hraw
      have hpow : 2 ^ 64 ≤ 2 ^ (8 * b.toNat) := Nat.pow_le_pow_right (by norm_num) (by omega)
      have hzero : (a.toNat : Int) / 2 ^ (8 * b.toNat) = 0 :=
        Int.ediv_eq_zero_of_lt (by omega)
          (by exact_mod_cast (by omega : a.toNat < 2 ^ (8 * b.toNat)))
      rw [hzero]
      exact hwrap (by simp)
    · obtain rfl := Option.some.inj hraw
      have hshift : (b * 8).toNat % 64 = 8 * b.toNat := by
        simp
        omega
      refine hwrap ?_
      rw [UInt64.toNat_shiftRight, hshift, Nat.shiftRight_eq_div_pow]
      push_cast
      rfl

end Binary

theorem meaning_nil (o : Opcode) (out : Nat) : o.meaning [] out = none := by
  cases o <;> rfl

theorem meaning_of_three_le (o : Opcode) (c d e : Nat × Nat) (cs : List (Nat × Nat)) (out : Nat) :
    o.meaning (c :: d :: e :: cs) out = none := by
  cases o <;> rfl

/-- Folding agrees with p-code on constants of one to eight bytes, sized as p-code asks. -/
theorem fold_sound {o : Opcode} {ks : List (UInt64 × Nat)} {out v : Nat} {r : UInt64}
    (hks : ∀ k ∈ ks, 1 ≤ k.2 ∧ k.2 ≤ 8 ∧ k.1.toNat < 2 ^ (8 * k.2))
    (hout : 1 ≤ out ∧ out ≤ 8) (hsized : o.Sized (ks.map (·.2)) out)
    (hbool : o.readsBools = true → ∀ k ∈ ks, k.1.toNat ≤ 1)
    (hf : o.fold ks out = some r) (hv : o.meaning (ks.map fun k => (k.1.toNat, k.2)) out = some v) :
    r.toNat = v := by
  have hguard : ¬ (8 < out ∨ ks.any (fun p => 8 < p.2)) := by
    simp only [List.any_eq_true, decide_eq_true_eq, not_or, not_exists, not_and, not_lt]
    exact ⟨hout.2, fun k hk => (hks k hk).2.1⟩
  rw [fold, if_neg hguard] at hf
  obtain ⟨raw, hraw, rfl⟩ := Option.map_eq_some_iff.mp hf
  rcases ks with _ | ⟨⟨a, n⟩, _ | ⟨⟨b, m⟩, _ | ⟨e, ks⟩⟩⟩
  · simp [meaning_nil] at hv
  · have ha := hks (a, n) (by simp)
    exact foldRaw_unary_sound ⟨ha.1, ha.2.1⟩ hout ha.2.2 hsized (fun h => hbool h _ (by simp))
      hraw hv
  · have ha := hks (a, n) (by simp)
    have hb := hks (b, m) (by simp)
    exact foldRaw_binary_sound ⟨ha.1, ha.2.1⟩ ⟨hb.1, hb.2.1⟩ hout ha.2.2 hb.2.2 hsized
      (fun h => ⟨hbool h _ (by simp), hbool h _ (by simp)⟩) hraw hv
  · simp [meaning_of_three_le] at hv

end Opcode

/-- A lattice input `p` (a value with its byte size) describes a concrete input `c` (a value with
its byte size): they have one size, from one to eight bytes, `c` fits in it, and `p` stands for
`c`. -/
def Value.Describes (ρ : Address → Nat) (p : Value × Nat) (c : Nat × Nat) : Prop :=
  c.2 = p.2 ∧ 1 ≤ c.2 ∧ c.2 ≤ 8 ∧ c.1 < 2 ^ (8 * c.2) ∧ p.1.Concretizes ρ p.2 c.1

theorem Value.concretizes_rel_iff {ρ : Address → Nat} {n x : Nat} {b : Address} {off : Int64}
    (hx : x < 2 ^ (8 * n)) :
    Value.Concretizes ρ n (.rel b off) x ↔
      (x : Int) ≡ ρ b + off.toInt [ZMOD 2 ^ (8 * n)] := by
  have hx' : (x : Int) < 2 ^ (8 * n) := by exact_mod_cast hx
  rw [Value.Concretizes, Int.ModEq, Int.emod_eq_of_lt (by omega) hx']

theorem Value.concretizes_rel_wrapTo {ρ : Address → Nat} {n : Nat} {b : Address} {off : Int64}
    {i : Int} (h : i ≡ ρ b + off.toInt [ZMOD 2 ^ (8 * n)]) :
    Value.Concretizes ρ n (.rel b off) (wrapTo n i) :=
  (Value.concretizes_rel_iff (wrapTo_lt n i)).mpr ((natCast_wrapTo_modEq n i).trans h)

theorem Value.describes_rel {ρ : Address → Nat} {b : Address} {off : Int64} {n : Nat}
    {c : Nat × Nat} (h : Value.Describes ρ (.rel b off, n) c) :
    ∃ x, c = (x, n) ∧ 1 ≤ n ∧ n ≤ 8 ∧ x < 2 ^ (8 * n) ∧
      (x : Int) ≡ ρ b + off.toInt [ZMOD 2 ^ (8 * n)] := by
  obtain ⟨hsz, h1, h8, hlt, hcon⟩ := h
  obtain ⟨x, n'⟩ := c
  simp only at hsz h1 h8 hlt hcon
  subst n'
  exact ⟨x, rfl, h1, h8, hlt, (Value.concretizes_rel_iff hlt).mp hcon⟩

theorem Value.describes_const {ρ : Address → Nat} {k : UInt64} {n : Nat} {c : Nat × Nat}
    (h : Value.Describes ρ (.const k, n) c) :
    c = (k.toNat, n) ∧ 1 ≤ n ∧ n ≤ 8 ∧ k.toNat < 2 ^ (8 * n) := by
  obtain ⟨hsz, h1, h8, hlt, hcon⟩ := h
  obtain ⟨x, n'⟩ := c
  simp only [Value.Concretizes] at hsz h1 h8 hlt hcon
  subst n' hcon
  exact ⟨rfl, h1, h8, hlt⟩

theorem Value.describes_single {ρ : Address → Nat} {p : Value × Nat} {cs : List (Nat × Nat)}
    (h : List.Forall₂ (Value.Describes ρ) [p] cs) :
    ∃ c, cs = [c] ∧ Value.Describes ρ p c := by
  cases h with
  | cons hc hrest =>
    cases hrest
    exact ⟨_, rfl, hc⟩

theorem Value.describes_pair {ρ : Address → Nat} {p q : Value × Nat} {cs : List (Nat × Nat)}
    (h : List.Forall₂ (Value.Describes ρ) [p, q] cs) :
    ∃ c d, cs = [c, d] ∧ Value.Describes ρ p c ∧ Value.Describes ρ q d := by
  cases h with
  | cons hc hrest =>
    cases hrest with
    | cons hd hnil =>
      cases hnil
      exact ⟨_, _, rfl, hc, hd⟩

theorem Value.describes_of_mem {ρ : Address → Nat} {ins : List (Value × Nat)}
    {cs : List (Nat × Nat)} {p : Value × Nat} (hins : List.Forall₂ (Value.Describes ρ) ins cs)
    (hp : p ∈ ins) :
    ∃ c, Value.Describes ρ p c := by
  induction hins with
  | nil => cases hp
  | @cons q c _ _ hqc _ ih =>
    rcases List.mem_cons.mp hp with rfl | hp
    · exact ⟨c, hqc⟩
    · exact ih hp

namespace Opcode

/-- The constants of inputs that describe concrete inputs are those inputs, in range. -/
theorem constants?_describes {ρ : Address → Nat} {ins : List (Value × Nat)}
    {cs : List (Nat × Nat)} {ks : List (UInt64 × Nat)}
    (hins : List.Forall₂ (Value.Describes ρ) ins cs) (hks : constants? ins = some ks) :
    cs = ks.map (fun k => (k.1.toNat, k.2)) ∧ ins.map (·.2) = ks.map (·.2) ∧
      ∀ k ∈ ks, 1 ≤ k.2 ∧ k.2 ≤ 8 ∧ k.1.toNat < 2 ^ (8 * k.2) := by
  induction hins generalizing ks with
  | nil =>
    simp [constants?] at hks
    subst hks
    simp
  | @cons p c ins cs hpc _ ih =>
    obtain ⟨hsz, h1, h8, hlt, hcon⟩ := hpc
    simp only [constants?, List.mapM_cons, Option.bind_eq_bind, Option.bind_eq_some_iff,
      Option.pure_def, Option.some.injEq] at hks
    obtain ⟨k, hk, ks', hks', rfl⟩ := hks
    obtain ⟨hcs, hsizes, hrange⟩ := ih hks'
    obtain ⟨w, hw, rfl⟩ := Option.map_eq_some_iff.mp hk
    obtain ⟨value, size⟩ := p
    obtain ⟨x, n⟩ := c
    cases value <;> simp only [Value.asConst?, reduceCtorEq, Option.some.injEq] at hw
    subst hw
    simp only [Value.Concretizes] at hcon
    simp only at hsz h1 h8 hlt hcon
    subst hsz hcon
    refine ⟨by simp [hcs], by simp [hsizes], ?_⟩
    simp only [List.mem_cons, forall_eq_or_imp]
    exact ⟨⟨h1, h8, hlt⟩, hrange⟩

/-- Moving a relative constant is sound: outside a loop body the moved offset stands for any
value congruent to the entry value plus offset plus move. -/
theorem concretizes_shiftRel {ρ : Address → Nat} {out : Nat} {b : Address} {off delta : Int64}
    {i : Int} (loopRisk : Bool) (hout : out ≤ 8)
    (h : i ≡ ρ b + off.toInt + delta.toInt [ZMOD 2 ^ (8 * out)]) :
    (shiftRel b off delta loopRisk).value.Concretizes ρ out (wrapTo out i) := by
  unfold shiftRel
  split
  · trivial
  · apply Value.concretizes_rel_wrapTo
    have hsum : (off + delta).toInt ≡ off.toInt + delta.toInt [ZMOD 2 ^ 64] := by
      rw [Int64.toInt_add]
      exact bmod_modEq _
    rw [add_assoc] at h
    exact h.trans ((modEq_bytes_of_le (n := 8) hout hsum).symm.add_left _)

/-- Two values that two relative constants of one base stand for are equal exactly when the
offsets are, unless the offsets differ but agree on the bytes compared. -/
theorem eq_iff_offsets_eq {x y n : Nat} {base : Int} {o₁ o₂ : Int64} (hx : x < 2 ^ (8 * n))
    (hy : y < 2 ^ (8 * n)) (hxc : (x : Int) ≡ base + o₁.toInt [ZMOD 2 ^ (8 * n)])
    (hyc : (y : Int) ≡ base + o₂.toInt [ZMOD 2 ^ (8 * n)])
    (hne : ¬ (o₁ ≠ o₂ ∧ o₁.toInt ≡ o₂.toInt [ZMOD 2 ^ (8 * n)])) :
    x = y ↔ o₁ = o₂ := by
  constructor
  · intro hxy
    by_contra hoff
    subst hxy
    exact hne ⟨hoff, Int.ModEq.add_left_cancel' base (hxc.symm.trans hyc)⟩
  · rintro rfl
    have hxy : (x : Int) ≡ y [ZMOD 2 ^ (8 * n)] := hxc.trans hyc.symm
    have hx' : (x : Int) < 2 ^ (8 * n) := by exact_mod_cast hx
    have hy' : (y : Int) < 2 ^ (8 * n) := by exact_mod_cast hy
    rw [Int.ModEq, Int.emod_eq_of_lt (by omega) hx', Int.emod_eq_of_lt (by omega) hy'] at hxy
    exact_mod_cast hxy

/-- An (in)equality test of two relative constants of one base whose offsets differ but agree on
the bytes compared, so that both name one value. -/
def ComparesAliasedOffsets (o : Opcode) (ins : List (Value × Nat)) : Prop :=
  (o = intEqual ∨ o = intNotEqual) ∧
    ∃ b o₁ o₂ n m, ins = [(.rel b o₁, n), (.rel b o₂, m)] ∧ o₁ ≠ o₂ ∧
      o₁.toInt ≡ o₂.toInt [ZMOD 2 ^ (8 * n)]

theorem evaluateRel_sound {ρ : Address → Nat} {o : Opcode} {ins : List (Value × Nat)}
    {cs : List (Nat × Nat)} {out v : Nat} (loopRisk : Bool)
    (hins : List.Forall₂ (Value.Describes ρ) ins cs) (hout : 1 ≤ out ∧ out ≤ 8)
    (hsized : o.Sized (ins.map (·.2)) out) (haliased : ¬ o.ComparesAliasedOffsets ins)
    (hv : o.meaning cs out = some v) :
    (evaluateRel o ins out loopRisk).value.Concretizes ρ out v := by
  unfold evaluateRel
  split
  case h_1 b off n =>
    obtain ⟨c, rfl, hc⟩ := Value.describes_single hins
    obtain ⟨x, rfl, -, -, -, hx⟩ := Value.describes_rel hc
    simp only [Sized, List.map] at hsized
    simp only [meaning, Option.some.injEq] at hv
    subst hv
    exact Value.concretizes_rel_wrapTo (modEq_bytes_of_le hsized hx)
  case h_2 b off n k csz =>
    obtain ⟨c, d, rfl, hc, hd⟩ := Value.describes_pair hins
    obtain ⟨x, rfl, -, -, -, hx⟩ := Value.describes_rel hc
    obtain ⟨rfl, hk1, hk8, hk⟩ := Value.describes_const hd
    simp only [Sized, List.map] at hsized
    simp only [meaning, Option.some.injEq] at hv
    subst hv
    apply concretizes_shiftRel loopRisk hout.2
    exact (modEq_bytes_of_le hsized.1 hx).add
      (modEq_bytes_of_le hsized.2 (Word.toInt_signExtend_modEq hk1 hk8 hk)).symm
  case h_3 k csz b off n =>
    obtain ⟨d, c, rfl, hd, hc⟩ := Value.describes_pair hins
    obtain ⟨x, rfl, -, -, -, hx⟩ := Value.describes_rel hc
    obtain ⟨rfl, hk1, hk8, hk⟩ := Value.describes_const hd
    simp only [Sized, List.map] at hsized
    simp only [meaning, Option.some.injEq] at hv
    subst hv
    apply concretizes_shiftRel loopRisk hout.2
    push_cast
    rw [add_comm (k.toNat : Int)]
    exact (modEq_bytes_of_le hsized.2 hx).add
      (modEq_bytes_of_le hsized.1 (Word.toInt_signExtend_modEq hk1 hk8 hk)).symm
  case h_4 b off n k csz =>
    obtain ⟨c, d, rfl, hc, hd⟩ := Value.describes_pair hins
    obtain ⟨x, rfl, -, -, -, hx⟩ := Value.describes_rel hc
    obtain ⟨rfl, hk1, hk8, hk⟩ := Value.describes_const hd
    simp only [Sized, List.map] at hsized
    simp only [meaning, Option.some.injEq] at hv
    subst hv
    apply concretizes_shiftRel loopRisk hout.2
    have hneg :
        (0 - Word.signExtend k csz).toInt ≡ -(Word.signExtend k csz).toInt [ZMOD 2 ^ 64] := by
      rw [Int64.toInt_sub, Int64.toInt_zero, zero_sub]
      exact bmod_modEq _
    rw [sub_eq_add_neg]
    exact (modEq_bytes_of_le hsized.1 hx).add ((modEq_bytes_of_le hsized.2
      (Word.toInt_signExtend_modEq hk1 hk8 hk)).symm.neg.trans
        (modEq_bytes_of_le (n := 8) hout.2 hneg).symm)
  case h_5 b₁ o₁ n b₂ o₂ m =>
    obtain ⟨c, d, rfl, hc, hd⟩ := Value.describes_pair hins
    obtain ⟨x, rfl, -, -, hxn, hx⟩ := Value.describes_rel hc
    obtain ⟨y, rfl, -, -, hym, hy⟩ := Value.describes_rel hd
    split
    case isTrue hb =>
      subst hb
      split
      · -- the difference of two offsets of one base
        simp only [Sized, List.map] at hsized
        simp only [meaning, Option.some.injEq] at hv
        subst hv
        show _ = _
        refine (Word.toNat_and_mask_eq_wrapTo hout.2 ?_).symm
        have hdiff :
            ((o₁ - o₂).toUInt64.toNat : Int) ≡ o₁.toInt - o₂.toInt [ZMOD 2 ^ 64] := by
          refine (Int64.toNat_toUInt64_modEq _).trans ?_
          rw [Int64.toInt_sub]
          exact bmod_modEq _
        have hxy := (modEq_bytes_of_le hsized.1 hx).sub (modEq_bytes_of_le hsized.2 hy)
        rw [add_sub_add_left_eq_sub] at hxy
        exact (modEq_bytes_of_le (n := 8) hout.2 hdiff).trans hxy.symm
      · -- equality of two offsets of one base
        simp only [Sized, List.map] at hsized
        subst m
        simp only [meaning, Option.some.injEq] at hv
        subst hv
        have hiff := eq_iff_offsets_eq hxn hym hx hy
          (fun h => haliased ⟨.inl rfl, _, _, _, _, _, rfl, h⟩)
        show _ = _
        by_cases h : o₁ = o₂ <;> simp [ofBool, bitOf, h, hiff]
      · -- inequality of two offsets of one base
        simp only [Sized, List.map] at hsized
        subst m
        simp only [meaning, Option.some.injEq] at hv
        subst hv
        have hiff := eq_iff_offsets_eq hxn hym hx hy
          (fun h => haliased ⟨.inr rfl, _, _, _, _, _, rfl, h⟩)
        show _ = _
        by_cases h : o₁ = o₂ <;> simp [ofBool, bitOf, h, hiff]
      · trivial
    case isFalse => trivial
  case h_6 => trivial

/-- **Evaluation is sound.** Whenever the lattice inputs of an operation describe concrete inputs
of one to eight bytes, sized as p-code asks, with flags for the boolean operators, and the
operation is not an (in)equality test of two offsets of one base that name one value, the value
p-code computes, for an output of one to eight bytes, is among those the evaluated value stands
for; with every entry value of the registers and inside a loop body or not. -/
theorem evaluate_sound (ρ : Address → Nat) (o : Opcode) (ins : List (Value × Nat))
    (cs : List (Nat × Nat)) (out : Nat) (loopRisk : Bool)
    (hins : List.Forall₂ (Value.Describes ρ) ins cs) (hout : 1 ≤ out ∧ out ≤ 8)
    (hsized : o.Sized (ins.map (·.2)) out)
    (hbool : o.readsBools = true → ∀ c ∈ cs, c.1 ≤ 1)
    (haliased : ¬ o.ComparesAliasedOffsets ins) {v : Nat} (hv : o.meaning cs out = some v) :
    (o.evaluate ins out loopRisk).value.Concretizes ρ out v := by
  unfold evaluate
  split
  · trivial
  split
  case isTrue htop =>
    -- a `top` input stands for no value at all
    obtain ⟨p, hp, hpt⟩ := List.any_eq_true.mp htop
    obtain ⟨c, -, -, -, -, hc⟩ := Value.describes_of_mem hins hp
    rw [beq_iff_eq.mp hpt] at hc
    exact hc.elim
  case isFalse =>
    split
    case h_1 ks hks =>
      obtain ⟨rfl, hsizes, hrange⟩ := constants?_describes hins hks
      cases hf : o.fold ks out with
      | none => trivial
      | some r =>
        show v = r.toNat
        rw [hsizes] at hsized
        refine (fold_sound hrange hout hsized (fun h k hk => ?_) hf hv).symm
        exact hbool h _ (List.mem_map_of_mem hk)
    case h_2 => exact evaluateRel_sound loopRisk hins hout hsized haliased hv

end Opcode

/-- Adding eight to the 4-byte value sixteen bytes above the entry stack pointer. -/
theorem evaluate_sound_stack_slot :
    (Opcode.intAdd.evaluate [(.rel ⟨1, 0x34⟩ 16, 4), (.const 8, 4)] 4 false).value.Concretizes
      (fun _ => 0x7ff0) 4 0x8008 :=
  Opcode.evaluate_sound (fun _ => 0x7ff0) .intAdd _ [(0x8000, 4), (8, 4)] 4 false
    (by
      simp only [List.forall₂_cons, List.Forall₂.nil, Value.Describes, Value.Concretizes]
      decide)
    (by norm_num) (by simp [Opcode.Sized]) (by simp [Opcode.readsBools])
    (by simp [Opcode.ComparesAliasedOffsets]) (by decide)

end MicroSsa
