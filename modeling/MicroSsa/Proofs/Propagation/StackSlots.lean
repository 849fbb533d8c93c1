import MicroSsa.Proofs.Propagation.Top
import MicroSsa.Proofs.Blocks.Relative
/-!
# Stack slots

Propagation follows a store to the stack by the offset of its pointer from the stack pointer on
entry. A load of `size` bytes at offset `offset` reads the meet of the stores that write exactly
its slot (`Function.stackLoad`), provided each of them runs before the load and no other store of
the load's space could write the slot. `Function.slotAccess` sorts the stores: it compares the
byte ranges `[o, o + n)` and `[offset, offset + size)` as intervals of signed 64-bit offsets.

Bytes are addressed modulo `2 ^ 64` (`SlotsMeet`). While the end of neither range passes
`2 ^ 63 - 1`, the interval test is exact: a store is disjoint from the slot exactly when no byte
of one is a byte of the other (`slotAccess_disjoint_iff`), and it is exact only when it writes
the slot itself (`slotAccess_exact`). A load that folds to a constant `c` is then justified
(`stackLoad_const_exact`): every store of its space that meets the slot writes exactly the slot,
runs before the load and holds `c` or a value not known yet, and one of them holds `c`.

The end of a range is computed on 64-bit words and wraps past `2 ^ 63 - 1`: four bytes at
`sp + (2 ^ 63 - 1)` meet the slot of four bytes at `sp - 2 ^ 63`, yet they are classified as
disjoint from it (`slotAccess_wrapped_disjoint`).
-/

namespace MicroSsa

/-! ## Offsets on 64-bit words -/

namespace Int64

/-- An offset plus a size is exact while it stays below `2 ^ 63`. -/
theorem toInt_add_ofNat {o : Int64} {n : Nat} (h : o.toInt + n < 2 ^ 63) :
    (o + Int64.ofNat n).toInt = o.toInt + n := by
  have ho := o.le_toInt
  rw [Int64.toInt_add, Int64.toInt_ofNat', show Int64.size = 2 ^ 64 from rfl, Int.add_bmod_bmod]
  exact Int.bmod_eq_of_le (by omega) (by omega)

end Int64

/-! ## The bytes of a slot -/

/-- Whether `n` bytes from offset `o` and `size` bytes from offset `offset` share a byte, offsets
counted modulo `2 ^ 64`. -/
def SlotsMeet (o : Int64) (n : Nat) (offset : Int64) (size : Nat) : Prop :=
  ∃ j < n, ∃ k < size, o.toUInt64 + UInt64.ofNat j = offset.toUInt64 + UInt64.ofNat k

instance (o : Int64) (n : Nat) (offset : Int64) (size : Nat) :
    Decidable (SlotsMeet o n offset size) :=
  inferInstanceAs (Decidable (∃ j < n, ∃ k < size, _))

/-- Below the top of the signed range, two slots share a byte exactly when their offsets, read as
integers, share one. -/
theorem slotsMeet_iff {o offset : Int64} {n size : Nat} (h₁ : o.toInt + n < 2 ^ 63)
    (h₂ : offset.toInt + size < 2 ^ 63) :
    SlotsMeet o n offset size ↔ ∃ j < n, ∃ k < size, o.toInt + j = offset.toInt + k := by
  have ho := o.le_toInt
  have hoff := offset.le_toInt
  have hco := Int64.toNat_toUInt64_eq o
  have hcoff := Int64.toNat_toUInt64_eq offset
  -- one byte of each: equal modulo `2 ^ 64` and both in the signed range, so equal
  have hbyte : ∀ j < n, ∀ k < size, (o.toUInt64 + UInt64.ofNat j = offset.toUInt64 + UInt64.ofNat k ↔
      o.toInt + j = offset.toInt + k) := by
    intro j hj k hk
    rw [← UInt64.toNat_inj, UInt64.toNat_add, UInt64.toNat_add, UInt64.toNat_ofNat',
      UInt64.toNat_ofNat']
    norm_num at hco hcoff ho hoff h₁ h₂ ⊢
    omega
  constructor
  · rintro ⟨j, hj, k, hk, h⟩
    exact ⟨j, hj, k, hk, (hbyte j hj k hk).mp h⟩
  · rintro ⟨j, hj, k, hk, h⟩
    exact ⟨j, hj, k, hk, (hbyte j hj k hk).mpr h⟩

/-- Two non-empty ranges of integers share a point exactly when each starts before the other
ends. -/
theorem exists_add_eq_add_iff {a b : Int} {n size : Nat} (hn : 0 < n) (hs : 0 < size) :
    (∃ j < n, ∃ k < size, a + j = b + k) ↔ a < b + size ∧ b < a + n := by
  constructor
  · rintro ⟨j, hj, k, hk, h⟩
    omega
  · rintro ⟨h₁, h₂⟩
    by_cases hab : a ≤ b
    · exact ⟨(b - a).toNat, by omega, 0, hs, by omega⟩
    · exact ⟨0, hn, (a - b).toNat, by omega, by omega⟩

/-! ## Sorting the stores -/

namespace Function

variable {sp : Address} {o offset : Int64} {size n : Nat}

/-- A store is classified exact only when it writes the slot itself. -/
theorem slotAccess_exact {ptr : Value} (h : slotAccess ptr sp offset size n = .exact) :
    ptr = .rel sp offset ∧ n = size := by
  cases ptr with
  | rel base o =>
    simp only [slotAccess] at h
    split_ifs at h with hb hover hex
    simp only [Bool.and_eq_true, beq_iff_eq] at hb hex
    exact ⟨by rw [hb, hex.1], hex.2⟩
  | top => cases h
  | bottom => cases h
  | const c => cases h

/-- A store is classified disjoint only through a pointer `rel(sp + o)` whose range does not meet
the slot's, both ends computed on 64-bit words. -/
theorem slotAccess_disjoint {ptr : Value} (h : slotAccess ptr sp offset size n = .disjoint) :
    ∃ o, ptr = .rel sp o ∧
      ¬ (o.toInt < (offset + Int64.ofNat size).toInt ∧ offset.toInt < (o + Int64.ofNat n).toInt) := by
  cases ptr with
  | rel base o =>
    simp only [slotAccess] at h
    split_ifs at h with hb hover
    simp only [beq_iff_eq] at hb
    simp only [Bool.not_eq_true', Bool.and_eq_false_iff, decide_eq_false_iff_not] at hover
    exact ⟨o, by rw [hb], by omega⟩
  | top => cases h
  | bottom => cases h
  | const c => cases h

/-- While no end passes `2 ^ 63 - 1`, a store classified disjoint shares no byte with the slot. -/
theorem not_slotsMeet_of_disjoint (h₁ : o.toInt + n < 2 ^ 63) (h₂ : offset.toInt + size < 2 ^ 63)
    (h : ¬ (o.toInt < (offset + Int64.ofNat size).toInt ∧
      offset.toInt < (o + Int64.ofNat n).toInt)) :
    ¬ SlotsMeet o n offset size := by
  rw [Int64.toInt_add_ofNat h₁, Int64.toInt_add_ofNat h₂] at h
  rw [slotsMeet_iff h₁ h₂]
  rintro ⟨j, hj, k, hk, hjk⟩
  omega

/-- The classification of a store through `rel(sp + o)`: the interval test, then the exact test. -/
theorem slotAccess_rel_self :
    slotAccess (.rel sp o) sp offset size n =
      if o.toInt < (offset + Int64.ofNat size).toInt ∧ offset.toInt < (o + Int64.ofNat n).toInt then
        if o = offset ∧ n = size then .exact else .clobbers
      else .disjoint := by
  simp only [slotAccess, beq_self_eq_true, if_true, Bool.and_eq_true, Bool.not_eq_true',
    Bool.and_eq_false_iff, decide_eq_false_iff_not, beq_iff_eq]
  by_cases hover : o.toInt < (offset + Int64.ofNat size).toInt ∧
      offset.toInt < (o + Int64.ofNat n).toInt
  · rw [if_neg (by omega), if_pos hover]
  · rw [if_pos (by omega), if_neg hover]

/-- **The interval test is exact away from the top of the signed range.** A store through
`rel(sp + o)` of `n` bytes is classified disjoint from the slot of `size` bytes at `offset`
exactly when the two share no byte, as long as neither end passes `2 ^ 63 - 1`. -/
theorem slotAccess_disjoint_iff (h₁ : o.toInt + n < 2 ^ 63) (h₂ : offset.toInt + size < 2 ^ 63)
    (hn : 0 < n) (hs : 0 < size) :
    slotAccess (.rel sp o) sp offset size n = .disjoint ↔ ¬ SlotsMeet o n offset size := by
  rw [slotsMeet_iff h₁ h₂, exists_add_eq_add_iff hn hs, ← Int64.toInt_add_ofNat h₁,
    ← Int64.toInt_add_ofNat h₂, slotAccess_rel_self]
  split
  · rename_i hover
    simp only [hover]
    split <;> simp
  · rename_i hover
    simp only [hover, not_false_eq_true]

/-- Four bytes at `sp + (2 ^ 63 - 1)` and the slot of four bytes at `sp - 2 ^ 63` share three
bytes, yet the store is classified disjoint: the end `2 ^ 63 + 3` wraps to `-2 ^ 63 + 3`. -/
theorem slotAccess_wrapped_disjoint :
    slotAccess (.rel ⟨1, 0x34⟩ 0x7fffffffffffffff) ⟨1, 0x34⟩ (-0x8000000000000000) 4 4 = .disjoint ∧
      SlotsMeet 0x7fffffffffffffff 4 (-0x8000000000000000) 4 := by
  decide

end Function

/-! ## A load that folds -/

namespace Value

/-- A value lies above a constant when it is that constant or not known yet. -/
theorem const_le_iff {c : UInt64} {v : Value} : Value.const c ≤ v ↔ v = .const c ∨ v = .top := by
  rw [le_iff]
  constructor
  · rintro (h | h | h)
    · cases h
    · exact .inr h
    · exact .inl h.symm
  · rintro (h | h)
    · exact .inr (.inr h.symm)
    · exact .inr (.inl h)

theorem const_le_meet_iff {c : UInt64} {a b : Value} :
    Value.const c ≤ a.meet b ↔ Value.const c ≤ a ∧ Value.const c ≤ b :=
  ⟨fun h => ⟨le_trans h (meet_le_left a b), le_trans h (meet_le_right a b)⟩,
    fun h => le_meet h.1 h.2⟩

/-- A meet is a constant only when one of its sides is. -/
theorem eq_const_of_meet {c : UInt64} {a b : Value} (h : a.meet b = .const c) :
    a = .const c ∨ b = .const c := by
  cases a <;> cases b <;> simp only [meet, reduceCtorEq] at h <;> try split at h
  all_goals first | exact .inl h | exact .inr h | exact .inl (h ▸ ‹_›) | cases h

end Value

namespace Function

variable {ctx : Context} {f : Function} {load : Nat} {offset : Int64} {size : Nat} {c : UInt64}

/-- The number of bytes a store writes: the size of the value it stores. -/
def storeSize (f : Function) (st : Nat) : Nat :=
  (((f.store.op? st).bind (·.inputs[2]?) >>= f.store.vn?).map (·.loc.size)).getD 0

/-- Store `st` writes exactly the slot of `size` bytes at `offset` and runs before the load. -/
def WritesSlot (ctx : Context) (f : Function) (load : Nat) (offset : Int64) (size st : Nat) :
    Prop :=
  f.inputValue st 1 = .rel ctx.arch.sp.addr offset ∧ f.storeSize st = size ∧
    f.opDominates st load = true

/-- A walk over the stores that ends at the constant `c` passed every store of the load's space:
each is disjoint from the slot, or writes exactly the slot, runs before the load and holds `c`
or `top`. The meet carried in lies above `c`, and `c` is that meet or the value of one of the
exact stores. -/
theorem stackLoad_go_eq_const {space : Nat} :
    ∀ (sts : List Nat) (acc : Option Value),
      stackLoad.go ctx f load offset size space sts acc = .const c →
      (∀ a, acc = some a → Value.const c ≤ a) ∧
      (∀ st ∈ sts, accessSpace ctx f st = space →
        slotAccess (f.inputValue st 1) ctx.arch.sp.addr offset size (f.storeSize st) = .disjoint ∨
          WritesSlot ctx f load offset size st ∧ Value.const c ≤ f.inputValue st 2) ∧
      (acc = some (.const c) ∨ ∃ st ∈ sts, accessSpace ctx f st = space ∧
        WritesSlot ctx f load offset size st ∧ f.inputValue st 2 = .const c)
  | [], acc, h => by
    cases acc with
    | none => cases h
    | some a =>
      have ha : a = .const c := by simpa [stackLoad.go] using h
      subst ha
      exact ⟨fun a h => (Option.some_injective _ h) ▸ le_refl _, by simp, .inl rfl⟩
  | st :: rest, acc, h => by
    have hrest : (∃ st' ∈ rest, accessSpace ctx f st' = space ∧
        WritesSlot ctx f load offset size st' ∧ f.inputValue st' 2 = .const c) →
        ∃ st' ∈ st :: rest, accessSpace ctx f st' = space ∧
          WritesSlot ctx f load offset size st' ∧ f.inputValue st' 2 = .const c :=
      Exists.imp fun _ hst => ⟨List.mem_cons_of_mem st hst.1, hst.2⟩
    simp only [stackLoad.go] at h
    split at h
    · -- a store of another space is passed over
      rename_i hsp
      obtain ⟨hacc, hst, hsrc⟩ := stackLoad_go_eq_const rest acc h
      refine ⟨hacc, fun st' hst' hsp' => ?_, hsrc.imp_right hrest⟩
      rcases List.mem_cons.mp hst' with rfl | hst'
      · simp [hsp'] at hsp
      · exact hst st' hst' hsp'
    rename_i hsp
    have hsp : accessSpace ctx f st = space := by simpa using hsp
    split at h
    · cases h
    · -- a disjoint store is passed over
      rename_i hdis
      obtain ⟨hacc, hst, hsrc⟩ := stackLoad_go_eq_const rest acc h
      refine ⟨hacc, fun st' hst' hsp' => ?_, hsrc.imp_right hrest⟩
      rcases List.mem_cons.mp hst' with rfl | hst'
      · exact .inl hdis
      · exact hst st' hst' hsp'
    · cases h
    rename_i hex
    split at h
    · cases h
    rename_i hdom
    -- an exact store that runs first joins the meet
    obtain ⟨hptr, hsize⟩ := slotAccess_exact hex
    have hwrites : WritesSlot ctx f load offset size st :=
      ⟨hptr, hsize, by simpa using hdom⟩
    obtain ⟨hacc, hst, hsrc⟩ := stackLoad_go_eq_const rest _ h
    have hle := hacc _ rfl
    have hval : Value.const c ≤ f.inputValue st 2 := by
      cases acc with
      | none => exact hle
      | some r => exact (Value.const_le_meet_iff.mp hle).2
    refine ⟨fun a ha => ?_, fun st' hst' hsp' => ?_, ?_⟩
    · subst ha
      exact (Value.const_le_meet_iff.mp hle).1
    · rcases List.mem_cons.mp hst' with rfl | hst'
      · exact .inr ⟨hwrites, hval⟩
      · exact hst st' hst' hsp'
    · rcases hsrc with hmeet | hsrc
      · -- the constant comes from the meet so far or from this store
        cases acc with
        | none => exact .inr ⟨st, List.mem_cons_self, hsp, hwrites, Option.some_injective _ hmeet⟩
        | some r =>
          rcases Value.eq_const_of_meet (Option.some_injective _ hmeet) with hr | hv
          · exact .inl (hr ▸ rfl)
          · exact .inr ⟨st, List.mem_cons_self, hsp, hwrites, hv⟩
      · exact .inr (hrest hsrc)

/-- **Stack slots are classified exactly, and a folded load is justified.** While the end of no
range passes `2 ^ 63 - 1`: a store through `rel(sp + o)` is classified disjoint from a slot
exactly when the two share no byte; it is classified exact only when it writes the slot itself;
and a load that reads the constant `c` from a slot is justified by the stores: each store of the
load's space goes through `rel(sp + o)`, and if it shares a byte with the slot it writes exactly
the slot, runs before the load and holds `c` or a value not known yet; one of them holds `c`. -/
theorem stackLoad_const_exact {stores : List Nat} (hload : offset.toInt + size < 2 ^ 63)
    (hstores : ∀ st ∈ stores, ∀ o, f.inputValue st 1 = .rel ctx.arch.sp.addr o →
      o.toInt + f.storeSize st < 2 ^ 63) :
    (∀ (sp : Address) (o off : Int64) (n m : Nat), o.toInt + n < 2 ^ 63 → off.toInt + m < 2 ^ 63 →
      0 < n → 0 < m → (slotAccess (.rel sp o) sp off m n = .disjoint ↔ ¬ SlotsMeet o n off m)) ∧
    (∀ (ptr : Value) (sp : Address) (off : Int64) (m n : Nat),
      slotAccess ptr sp off m n = .exact → ptr = .rel sp off ∧ n = m) ∧
    (stackLoad ctx f stores load offset size = .const c →
      (∀ st ∈ stores, accessSpace ctx f st = accessSpace ctx f load →
        ∃ o, f.inputValue st 1 = .rel ctx.arch.sp.addr o ∧
          (SlotsMeet o (f.storeSize st) offset size →
            WritesSlot ctx f load offset size st ∧
              (f.inputValue st 2 = .const c ∨ f.inputValue st 2 = .top))) ∧
      ∃ st ∈ stores, accessSpace ctx f st = accessSpace ctx f load ∧
        WritesSlot ctx f load offset size st ∧ f.inputValue st 2 = .const c) := by
  refine ⟨fun sp o off n m h₁ h₂ hn hm => slotAccess_disjoint_iff h₁ h₂ hn hm,
    fun ptr sp off m n h => slotAccess_exact h, fun h => ?_⟩
  obtain ⟨-, hst, hsrc⟩ := stackLoad_go_eq_const stores none h
  refine ⟨fun st hmem hsp => ?_, hsrc.resolve_left (by simp)⟩
  rcases hst st hmem hsp with hdis | ⟨hwrites, hval⟩
  · -- a disjoint store goes through `rel(sp + o)` and, without overflow, meets no byte
    obtain ⟨o, ho, hnot⟩ := slotAccess_disjoint hdis
    exact ⟨o, ho, fun hmeet =>
      absurd hmeet (not_slotsMeet_of_disjoint (hstores st hmem o ho) hload hnot)⟩
  · exact ⟨offset, hwrites.1, fun _ => ⟨hwrites, Value.const_le_iff.mp hval⟩⟩

/-- A function that stores `7` into the slot eight bytes below the stack pointer and loads it
back: the requests that build its store. -/
def slotReloadSteps : List Store.Step :=
  [.newVarnode 1 0x34 4, .setVarnodeInput 0,
   .newConstant 4 0xfffffff8,
   .newOp .intAdd 0 0x1000, .setInput 0 0 0, .setInput 0 1 1, .createOutput 0 2 0x0 4,
   .newConstant 4 0, .newConstant 4 7,
   .newOp .store 0 0x1000, .setInput 1 3 0, .setInput 1 2 1, .setInput 1 4 2,
   .newOp .load 0 0x1000, .setInput 2 3 0, .setInput 2 2 1, .createOutput 2 2 0x4 4,
   .markAlive 0, .markAlive 1, .markAlive 2]

/-- The function: its three operations in one block. -/
def slotReload : Function :=
  { name := "main", addr := ⟨0, 0x1000⟩, instMax := 0,
    store := ((((slotReloadSteps.foldlM (fun (s : Store) (st : Store.Step) => Prod.snd <$> st.apply s)
      (Store.empty 3 (some 2))).toOption).getD (Store.empty 3 (some 2))).setParent 0 (some 0)
        |>.setParent 1 (some 0)).setParent 2 (some 0),
    graph := { blocks := #[{ flags := { entryPoint := true }, ops := #[0, 1, 2] }], entry := some 0 } }

/-- After propagation the load of `slotReload` reads `7`, which the store before it holds. -/
theorem stackLoad_const_exact_slotReload :
    stackLoad toyContext (propagateValues toyContext slotReload).func [1] 2 (-8) 4 = .const 7 ∧
    ∃ st ∈ [1], WritesSlot toyContext (propagateValues toyContext slotReload).func 2 (-8) 4 st ∧
      (propagateValues toyContext slotReload).func.inputValue st 2 = .const 7 := by
  have hload : stackLoad toyContext (propagateValues toyContext slotReload).func [1] 2 (-8) 4 =
      .const 7 := by
    rw [propagateValues_eq, startValues_eq]
    decide +kernel
  have hptr : (propagateValues toyContext slotReload).func.inputValue 1 1 =
      .rel toyContext.arch.sp.addr (-8) := by
    rw [propagateValues_eq, startValues_eq]
    decide +kernel
  have hsize : (propagateValues toyContext slotReload).func.storeSize 1 = 4 := by
    rw [propagateValues_eq, startValues_eq]
    decide +kernel
  have hstores : ∀ st ∈ [1], ∀ o, (propagateValues toyContext slotReload).func.inputValue st 1 =
      .rel toyContext.arch.sp.addr o →
      o.toInt + (propagateValues toyContext slotReload).func.storeSize st < 2 ^ 63 := by
    intro st hst o ho
    rw [List.mem_singleton.mp hst, hptr] at ho
    rw [List.mem_singleton.mp hst, hsize, ← (Value.rel.inj ho).2]
    decide
  obtain ⟨-, -, h⟩ :=
    stackLoad_const_exact (show (-8 : Int64).toInt + ((4 : Nat) : Int) < 2 ^ 63 by decide) hstores
  obtain ⟨st, hst, -, hwrites, hval⟩ := (h hload).2
  exact ⟨hload, st, hst, hwrites, hval⟩

end Function

end MicroSsa
