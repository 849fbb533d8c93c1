import MicroSsa.Proofs.Function.Instructions
import MicroSsa.Proofs.Blocks.Flow
/-!
# Relative branches

A direct branch whose destination is a constant counts operations within its instruction: from
operation `i` of an instruction of `n` operations, the constant `r` of `s` bytes names operation
`t = i + r`, with `r` read as a signed number of `s` bytes (`Function.relativeIndex`). One past
the last operation means the next instruction.

The target is resolved twice. Flow following (`Function.examineOp`) computes `t` on 64-bit words
and marks operation `t`, queues the next instruction, or records bad data. Block generation
(`Function.branchTargetOp`) walks `|r|` alive operations forward or backward from the branch and
gives up when the walk leaves the instruction, except that a forward walk leaving on its last
step lands on the fallthrough of the instruction's last operation.

`relativeBranch_resolutions_agree` says that both resolutions classify `t` the same way,
computed exactly: the first sum wraps when `t` passes `2 ^ 63 - 1`, but then reads as a negative
number whose unsigned reading is not `n`, so it records bad data as the exact `t` asks
(`examineOp_relative`). When the decoded instructions are laid out apart, the fallthrough of the
last operation is the first operation at the next address (`fallthroughOp_last`).

At the top of an address space that last step fails: an instruction that ends exactly at
`2 ^ 64` queues address `0` as its next instruction, but the fallthrough test compares the end
on 64-bit words with the addresses above, so the branch finds no target
(`relativeBranch_past_top`).
-/

namespace MicroSsa

/-! ## Arithmetic of the first resolution -/

namespace Int64

/-- The unsigned reading of a 64-bit word is its signed reading modulo `2 ^ 64`. -/
theorem toNat_toUInt64_eq (x : Int64) : (x.toUInt64.toNat : Int) = x.toInt % 2 ^ 64 := by
  have hx : x.toInt = ((x.toUInt64.toNat : Int)).bmod (2 ^ 64) := by
    rw [← Int64.toNat_toBitVec]
    exact BitVec.toInt_eq_toNat_bmod _
  have hlt : (x.toUInt64.toNat : Int) < 2 ^ 64 := by exact_mod_cast x.toUInt64.toNat_lt
  rw [hx, show ((2 : Int) ^ 64) = ((2 ^ 64 : Nat) : Int) by norm_cast, Int.bmod_emod]
  exact (Int.emod_eq_of_lt (by omega) (by exact_mod_cast hlt)).symm

/-- A small index plus a 64-bit offset: exact up to `2 ^ 63 - 1`, wrapped past it. -/
theorem toInt_ofNat_add {i : Nat} (hi : i < 2 ^ 63) (s : Int64) :
    (Int64.ofNat i + s).toInt =
      if (i : Int) + s.toInt < 2 ^ 63 then i + s.toInt else i + s.toInt - 2 ^ 64 := by
  have hs₁ := s.le_toInt
  have hs₂ := s.toInt_lt
  rw [Int64.toInt_add, Int64.toInt_ofNat_of_lt hi]
  split
  · exact Int.bmod_eq_of_le (by omega) (by omega)
  · rw [Int.bmod_def]
    push_cast
    rw [Int.emod_eq_of_lt (by omega) (by omega), if_neg (by omega)]

end Int64

/-! ## The operations of one instruction -/

namespace Store

/-- The alive operations at an address with their sequence numbers, in program order. -/
def seqsAt (s : Store) (a : Address) : List (Nat × SeqNum) :=
  s.aliveSeqs.filter fun p => p.2.addr = a

/-- The alive operations at an address, in program order: the operations of the instruction
decoded there. -/
def opsAt (s : Store) (a : Address) : List Nat :=
  (s.seqsAt a).map (·.1)

variable {s : Store}

/-- Program order sorts by address: the alive operations are those below an address, then those
at it, then those above it. -/
theorem aliveSeqs_split (s : Store) (a : Address) :
    s.aliveSeqs = s.aliveSeqs.filter (fun p => p.2.addr < a) ++ s.seqsAt a ++
      s.aliveSeqs.filter (fun p => a < p.2.addr) := by
  unfold seqsAt
  -- induction over any list sorted by sequence number
  suffices h : ∀ l : List (Nat × SeqNum), l.Pairwise (fun p q => SeqNum.compare p.2 q.2 ≠ .gt) →
      l = l.filter (fun p => p.2.addr < a) ++ l.filter (fun p => p.2.addr = a) ++
        l.filter (fun p => a < p.2.addr) from h _ s.aliveSeqs_sorted
  intro l hl
  induction l with
  | nil => rfl
  | cons p t ih =>
    rw [List.pairwise_cons] at hl
    -- everything after `p` lies at or above its address
    have hge : ∀ q ∈ t, ¬ q.2.addr < p.2.addr := by
      intro q hq hlt
      apply hl.1 q hq
      rw [SeqNum.compare_eq_gt]
      rw [Address.lt_iff] at hlt
      omega
    by_cases hlt : p.2.addr < a
    · -- `p` lies below the address
      have hne : p.2.addr ≠ a := fun h => Address.lt_irrefl _ (h ▸ hlt)
      have hng : ¬ a < p.2.addr := fun h => Address.lt_irrefl _ (Address.lt_trans h hlt)
      conv_lhs => rw [ih hl.2]
      simp [hlt, hne, hng]
    · by_cases heq : p.2.addr = a
      · -- `p` is at the address, so nothing after it lies below
        have hnil : t.filter (fun q => q.2.addr < a) = [] :=
          List.filter_eq_nil_iff.mpr fun q hq h => hge q hq (heq ▸ of_decide_eq_true h)
        conv_lhs => rw [ih hl.2]
        simp [heq, hnil, Address.lt_irrefl]
      · -- `p` lies above the address, and so does everything after it
        have hgt : a < p.2.addr := (Address.lt_or_gt_of_ne heq).resolve_left hlt
        have habove : ∀ q ∈ t, a < q.2.addr := by
          intro q hq
          have hq' := hge q hq
          rw [Address.lt_iff] at hgt hq' ⊢
          omega
        have h₁ : t.filter (fun q => q.2.addr < a) = [] := List.filter_eq_nil_iff.mpr
          fun q hq h => Address.lt_irrefl _ (Address.lt_trans (habove q hq) (of_decide_eq_true h))
        have h₂ : t.filter (fun q => q.2.addr = a) = [] := List.filter_eq_nil_iff.mpr
          fun q hq h => Address.lt_irrefl a ((of_decide_eq_true h) ▸ habove q hq)
        have h₃ : t.filter (fun q => a < q.2.addr) = t :=
          List.filter_eq_self.mpr fun q hq => decide_eq_true (habove q hq)
        simp [hlt, heq, hgt, h₁, h₂, h₃]

/-- The operation after an alive operation in program order is the next one in the list of
alive operations, when no two alive operations share a sequence number. -/
theorem nextAfter_eq_head (hd : (s.aliveSeqs.map (·.2)).Nodup) {l r : List (Nat × SeqNum)}
    {p : Nat × SeqNum} (h : s.aliveSeqs = l ++ p :: r) :
    s.nextAfter p.2 = r.head?.map (·.1) := by
  have hstrict := aliveSeqs_strict hd
  rw [h, List.pairwise_append, List.pairwise_cons] at hstrict
  rw [nextAfter, h, List.find?_append, List.find?_cons]
  have hl : l.find? (fun p' => SeqNum.compare p'.2 p.2 == .gt) = none := by
    rw [List.find?_eq_none]
    intro p' hp'
    simp [hstrict.2.2 p' hp' p List.mem_cons_self]
  cases r with
  | nil => simp [hl, SeqNum.compare_self]
  | cons p' r =>
    have hp' : SeqNum.compare p'.2 p.2 = .gt :=
      SeqNum.compare_eq_gt_of_lt (hstrict.2.1.1 p' List.mem_cons_self)
    simp [hl, SeqNum.compare_self, hp']

/-- The operation before an alive operation in program order is the one before it in the list
of alive operations, when no two alive operations share a sequence number. -/
theorem prevBefore_eq_getLast (hd : (s.aliveSeqs.map (·.2)).Nodup) {l r : List (Nat × SeqNum)}
    {p : Nat × SeqNum} (h : s.aliveSeqs = l ++ p :: r) :
    s.prevBefore p.2 = l.getLast?.map (·.1) := by
  have hstrict := aliveSeqs_strict hd
  rw [h, List.pairwise_append, List.pairwise_cons] at hstrict
  have hfl : l.filter (fun p' => SeqNum.compare p'.2 p.2 == .lt) = l :=
    List.filter_eq_self.mpr fun p' hp' => by simp [hstrict.2.2 p' hp' p List.mem_cons_self]
  have hfr : r.filter (fun p' => SeqNum.compare p'.2 p.2 == .lt) = [] :=
    List.filter_eq_nil_iff.mpr fun p' hp' => by
      simp [SeqNum.compare_eq_gt_of_lt (hstrict.2.1.1 p' hp')]
  rw [prevBefore, h, List.filter_append, List.filter_cons, hfl, hfr]
  simp [SeqNum.compare_self]

theorem mem_seqsAt {a : Address} {p : Nat × SeqNum} :
    p ∈ s.seqsAt a ↔ p ∈ s.aliveSeqs ∧ p.2.addr = a := by
  simp [seqsAt]

/-- The alive operations around operation `j` of an instruction: those below its address and
the instruction's operations before `j`, then operation `j`, then the instruction's operations
after it and those above the address. -/
theorem aliveSeqs_around (a : Address) {j : Nat} (hj : j < (s.seqsAt a).length) :
    s.aliveSeqs = (s.aliveSeqs.filter (fun p => p.2.addr < a) ++ (s.seqsAt a).take j) ++
      (s.seqsAt a)[j] :: ((s.seqsAt a).drop (j + 1) ++ s.aliveSeqs.filter (fun p => a < p.2.addr)) := by
  have hP : s.seqsAt a = (s.seqsAt a).take j ++ (s.seqsAt a)[j] :: (s.seqsAt a).drop (j + 1) := by
    rw [← List.drop_eq_getElem_cons hj, List.take_append_drop]
  conv_lhs => rw [aliveSeqs_split s a]
  conv_lhs => rw [hP]
  simp only [List.append_assoc, List.cons_append]

/-- The sequence number an alive operation is listed with is its own. -/
theorem op?_of_mem_aliveSeqs {p : Nat × SeqNum} (hp : p ∈ s.aliveSeqs) :
    (s.op? p.1).map (·.seq) = some p.2 := by
  obtain ⟨x, hx, -, hq⟩ := mem_aliveSeqs.mp hp
  rw [hx, Option.map_some, hq]

/-- There are no more alive operations than operations. -/
theorem length_aliveSeqs_le (s : Store) : s.aliveSeqs.length ≤ s.numOps := by
  have hlive : s.liveOps.length = s.numOps := by
    unfold liveOps numOps
    rw [List.length_filterMap_eq_countP, Array.size_eq_length_toList, Array.toList_filter,
      ← List.countP_eq_length_filter, ← List.zipIdx_map_fst 0 s.ops.toList, List.countP_map,
      List.zipIdx_map_fst]
    refine List.countP_congr fun p _ => ?_
    obtain ⟨o, i⟩ := p
    cases o <;> simp
  rw [aliveSeqs, List.length_mergeSort, List.length_map, ← hlive]
  exact List.length_filter_le _ _

theorem length_seqsAt_le (s : Store) (a : Address) : (s.seqsAt a).length ≤ s.numOps :=
  (List.length_filter_le _ _).trans s.length_aliveSeqs_le

/-- Program order is the one arrangement of the alive operations sorted by sequence number, when
no two of them share one. -/
theorem aliveSeqs_eq_of_perm {l : List (Nat × SeqNum)}
    (hp : l.Perm ((s.liveOps.filter fun p => !p.2.flags.dead).map fun p => (p.1, p.2.seq)))
    (hs : l.Pairwise fun a b => SeqNum.compare a.2 b.2 ≠ .gt) (hd : (l.map (·.2)).Nodup) :
    s.aliveSeqs = l := by
  have hperm : s.aliveSeqs.Perm l := (List.mergeSort_perm _ _).trans hp.symm
  refine List.Perm.eq_of_pairwise (fun a b ha hb hab hba => ?_) s.aliveSeqs_sorted hs hperm
  -- two entries that compare both ways share a sequence number, so they are one entry of `l`
  have hq : a.2 = b.2 := by
    rcases hc : SeqNum.compare a.2 b.2
    · exact absurd (SeqNum.compare_eq_gt_of_lt hc) hba
    · exact SeqNum.compare_eq_eq.mp hc
    · exact absurd hc hab
  exact List.inj_on_of_nodup_map hd (hperm.subset ha) hb hq

/-- The first operation at `b` is the first alive operation not below `b`, when it is at `b`. -/
theorem firstOpAt_of_split {b : Address} {l r : List (Nat × SeqNum)} (h : s.aliveSeqs = l ++ r)
    (hl : ∀ p ∈ l, p.2.addr < b) (hr : ∀ p ∈ r, ¬ p.2.addr < b) :
    s.firstOpAt b = r.head?.bind fun p => if p.2.addr = b then some p.1 else none := by
  have hlt : ∀ p ∈ l, SeqNum.compare p.2 ⟨b, 0⟩ = .lt := fun p hp => by
    have := Address.lt_iff.mp (hl p hp)
    rw [SeqNum.compare_eq_lt]
    dsimp only
    omega
  have hfind : l.find? (fun p => SeqNum.compare p.2 ⟨b, 0⟩ != .lt) = none :=
    List.find?_eq_none.mpr fun p hp => by simp [hlt p hp]
  unfold firstOpAt
  rw [h, List.find?_append, hfind, Option.none_or]
  cases r with
  | nil => rfl
  | cons q r =>
    have hq : SeqNum.compare q.2 ⟨b, 0⟩ ≠ .lt := by
      have := hr q List.mem_cons_self
      rw [Address.lt_iff] at this
      rw [Ne, SeqNum.compare_eq_lt]
      dsimp only
      omega
    simp [hq]

end Store

namespace Function

/-- The operation a relative branch names, counted from the start of its instruction: its own
position `i` plus the constant `r` of the destination read as a signed number of the
destination's size. -/
def relativeIndex (i : Nat) (dest : Varnode) (r : UInt64) : Int :=
  i + (Word.signExtend r dest.loc.size).toInt

/-! ## Walking within an instruction -/

section Walk

variable {f : Function} {a : Address}

/-- One step forward from operation `j` of an instruction goes to the next alive operation:
the instruction's next one, or the first above its address. -/
theorem walkStep_forward (hd : (f.store.aliveSeqs.map (·.2)).Nodup) {j : Nat}
    (hj : j < (f.store.seqsAt a).length) :
    f.walkStep true (f.store.seqsAt a)[j].1 =
      ((f.store.seqsAt a).drop (j + 1) ++ f.store.aliveSeqs.filter (fun p => a < p.2.addr)).head?.map
        fun p => (p.1, p.2.addr) := by
  have hsplit := Store.aliveSeqs_around a hj
  have hmem : (f.store.seqsAt a)[j] ∈ f.store.aliveSeqs := (Store.mem_seqsAt.mp (List.getElem_mem hj)).1
  have hnext := Store.nextAfter_eq_head hd hsplit
  unfold walkStep
  rw [Store.op?_of_mem_aliveSeqs hmem]
  simp only [Option.bind_some, if_true, hnext, Option.bind_map]
  -- the operation after is listed, so its own sequence number is the one it is listed with
  cases hh : ((f.store.seqsAt a).drop (j + 1) ++ f.store.aliveSeqs.filter (fun p => a < p.2.addr)).head? with
  | none => rfl
  | some p =>
    have hp : p ∈ f.store.aliveSeqs := by
      rw [hsplit]
      exact List.mem_append_right _ (List.mem_cons_of_mem _ (List.mem_of_head? hh))
    obtain ⟨y, hy, -, hq⟩ := Store.mem_aliveSeqs.mp hp
    simp [hy, hq]

/-- One step backward from operation `j` of an instruction goes to the alive operation before
it: the instruction's previous one, or the last below its address. -/
theorem walkStep_backward (hd : (f.store.aliveSeqs.map (·.2)).Nodup) {j : Nat}
    (hj : j < (f.store.seqsAt a).length) :
    f.walkStep false (f.store.seqsAt a)[j].1 =
      (f.store.aliveSeqs.filter (fun p => p.2.addr < a) ++ (f.store.seqsAt a).take j).getLast?.map
        fun p => (p.1, p.2.addr) := by
  have hsplit := Store.aliveSeqs_around a hj
  have hmem : (f.store.seqsAt a)[j] ∈ f.store.aliveSeqs := (Store.mem_seqsAt.mp (List.getElem_mem hj)).1
  have hprev := Store.prevBefore_eq_getLast hd hsplit
  unfold walkStep
  rw [Store.op?_of_mem_aliveSeqs hmem]
  simp only [Option.bind_some, Bool.false_eq_true, if_false, hprev, Option.bind_map]
  cases hh : (f.store.aliveSeqs.filter (fun p => p.2.addr < a) ++ (f.store.seqsAt a).take j).getLast? with
  | none => rfl
  | some p =>
    have hp : p ∈ f.store.aliveSeqs := by
      rw [hsplit]
      exact List.mem_append_left _ (List.mem_of_getLast? hh)
    obtain ⟨y, hy, -, hq⟩ := Store.mem_aliveSeqs.mp hp
    simp [hy, hq]

theorem getElem?_opsAt (s : Store) (a : Address) (k : Nat) :
    (s.opsAt a)[k]? = (s.seqsAt a)[k]?.map (·.1) := by
  simp [Store.opsAt]

/-- **A forward walk within an instruction.** From operation `j` with `m = steps + 1 - step`
steps left, the walk ends at operation `j + m` of the instruction; exactly one past its last
operation it lands on that operation's fallthrough, and further out on nothing. The fuel needs
to cover the operations left in the instruction only. -/
theorem walkRelative_forward (hd : (f.store.aliveSeqs.map (·.2)).Nodup) (steps : Nat) :
    ∀ fuel j step, (hj : j < (f.store.seqsAt a).length) → (f.store.seqsAt a).length - j < fuel →
      1 ≤ step → step ≤ steps + 1 →
      f.walkRelative a true steps fuel (f.store.seqsAt a)[j].1 step =
        if j + (steps + 1 - step) = (f.store.seqsAt a).length then
          (f.store.opsAt a).getLast?.bind f.fallthroughOp
        else (f.store.opsAt a)[j + (steps + 1 - step)]? := by
  intro fuel
  induction fuel with
  | zero => intro j step hj hfuel; omega
  | succ fuel ih =>
    intro j step hj hfuel hstep hle
    rw [walkRelative_succ]
    by_cases hdone : steps < step
    · -- no step left: the walk stays
      rw [if_pos hdone, if_neg (by omega), getElem?_opsAt, show steps + 1 - step = 0 by omega,
        Nat.add_zero, List.getElem?_eq_getElem hj]
      rfl
    rw [if_neg hdone, walkStep_forward hd hj]
    by_cases hin : j + 1 < (f.store.seqsAt a).length
    · -- the next operation belongs to the instruction: one step taken
      have hat : (f.store.seqsAt a)[j + 1].2.addr = a :=
        (Store.mem_seqsAt.mp (List.getElem_mem hin)).2
      rw [List.drop_eq_getElem_cons hin, List.cons_append, List.head?_cons, Option.map_some]
      simp only [hat, if_true]
      rw [ih (j + 1) (step + 1) hin (by omega) (by omega) (by omega),
        show j + 1 + (steps + 1 - (step + 1)) = j + (steps + 1 - step) by omega]
    · -- the instruction ends here: the walk leaves it
      have hlast : j + 1 = (f.store.seqsAt a).length := by omega
      have hdrop : (f.store.seqsAt a).drop (j + 1) = [] := List.drop_eq_nil_of_le (by omega)
      have hleave : ∀ p ∈ f.store.aliveSeqs.filter (fun p => a < p.2.addr), p.2.addr ≠ a := by
        intro p hp he
        have hgt := of_decide_eq_true (List.mem_filter.mp hp).2
        rw [he] at hgt
        exact Address.lt_irrefl a hgt
      have hfall : (f.store.opsAt a).getLast? = some (f.store.seqsAt a)[j].1 := by
        rw [Store.opsAt, List.getLast?_map, List.getLast?_eq_getElem?, ← hlast,
          Nat.add_sub_cancel, List.getElem?_eq_getElem hj, Option.map_some]
      rw [hdrop, List.nil_append, hfall, Option.bind_some]
      -- whatever comes next lies at another address, so the walk stops here
      by_cases hs : step = steps
      · rw [if_pos (show j + (steps + 1 - step) = (f.store.seqsAt a).length by omega)]
        cases hh : (f.store.aliveSeqs.filter (fun p => a < p.2.addr)).head? with
        | none => simp [hs]
        | some p => simp [hleave p (List.mem_of_head? hh), hs]
      · rw [if_neg (show j + (steps + 1 - step) ≠ (f.store.seqsAt a).length by omega),
          getElem?_opsAt, List.getElem?_eq_none (by omega), Option.map_none]
        cases hh : (f.store.aliveSeqs.filter (fun p => a < p.2.addr)).head? with
        | none => simp [hs]
        | some p => simp [hleave p (List.mem_of_head? hh), hs]

/-- **A backward walk within an instruction.** From operation `j` with `m = steps + 1 - step`
steps left, the walk ends at operation `j - m` of the instruction, and on nothing when that
would lie before the first. -/
theorem walkRelative_backward (hd : (f.store.aliveSeqs.map (·.2)).Nodup) (steps : Nat) :
    ∀ fuel j step, (hj : j < (f.store.seqsAt a).length) → j < fuel → 1 ≤ step → step ≤ steps + 1 →
      f.walkRelative a false steps fuel (f.store.seqsAt a)[j].1 step =
        if steps + 1 - step ≤ j then (f.store.opsAt a)[j - (steps + 1 - step)]? else none := by
  intro fuel
  induction fuel with
  | zero => intro j step hj hfuel; omega
  | succ fuel ih =>
    intro j step hj hfuel hstep hle
    rw [walkRelative_succ]
    by_cases hdone : steps < step
    · rw [if_pos hdone, if_pos (by omega), getElem?_opsAt, show steps + 1 - step = 0 by omega,
        Nat.sub_zero, List.getElem?_eq_getElem hj]
      rfl
    rw [if_neg hdone, walkStep_backward hd hj]
    cases j with
    | zero =>
      -- the first operation of the instruction: what comes before lies below its address
      have hbelow : ∀ p ∈ f.store.aliveSeqs.filter (fun p => p.2.addr < a), p.2.addr ≠ a := by
        intro p hp he
        have hlt := of_decide_eq_true (List.mem_filter.mp hp).2
        rw [he] at hlt
        exact Address.lt_irrefl a hlt
      rw [if_neg (show ¬ steps + 1 - step ≤ 0 by omega), List.take_zero, List.append_nil]
      cases hh : (f.store.aliveSeqs.filter (fun p => p.2.addr < a)).getLast? with
      | none => simp
      | some p => simp [hbelow p (List.mem_of_getLast? hh)]
    | succ j =>
      -- the previous operation belongs to the instruction: one step taken
      have hprev : j < (f.store.seqsAt a).length := by omega
      have hat : (f.store.seqsAt a)[j].2.addr = a := (Store.mem_seqsAt.mp (List.getElem_mem hprev)).2
      have hlast : (f.store.aliveSeqs.filter (fun p => p.2.addr < a) ++
          (f.store.seqsAt a).take (j + 1)).getLast? = some (f.store.seqsAt a)[j] := by
        rw [List.getLast?_append, List.getLast?_take, if_neg (by omega), Nat.add_sub_cancel,
          List.getElem?_eq_getElem hprev]
        rfl
      rw [hlast, Option.map_some]
      simp only [hat, if_true]
      rw [ih j (step + 1) hprev (by omega) (by omega) (by omega)]
      by_cases hm : steps + 1 - step ≤ j + 1
      · rw [if_pos (by omega), if_pos hm, show j - (steps + 1 - (step + 1)) = j + 1 - (steps + 1 - step) by omega]
      · rw [if_neg (by omega), if_neg hm]

/-- **Block generation resolves a relative branch by the exact index.** From operation `i` of
the instruction at `a`, the branch goes to operation `t` when it exists, to the fallthrough of
the last operation when `t` is one past it, and nowhere otherwise. -/
theorem branchTargetOp_relative (hd : (f.store.aliveSeqs.map (·.2)).Nodup) {i o : Nat} {x : Op}
    {dest : Varnode} {r : UInt64} (hi : (f.store.opsAt a)[i]? = some o) (hx : f.store.op? o = some x)
    (hdest : (x.inputs[0]?.bind f.store.vn?) = some dest) (hr : dest.constValue? = some r) :
    f.branchTargetOp o =
      if relativeIndex i dest r = (f.store.opsAt a).length then
        (f.store.opsAt a).getLast?.bind f.fallthroughOp
      else if 0 ≤ relativeIndex i dest r then (f.store.opsAt a)[(relativeIndex i dest r).toNat]?
      else none := by
  -- operation `i` is the branch, and it sits at `a`
  rw [getElem?_opsAt] at hi
  obtain ⟨p, hp, rfl⟩ := Option.map_eq_some_iff.mp hi
  have hlt : i < (f.store.seqsAt a).length := (List.getElem?_eq_some_iff.mp hp).1
  have hpi : (f.store.seqsAt a)[i] = p := (List.getElem?_eq_some_iff.mp hp).2
  obtain ⟨hmem, hat⟩ := Store.mem_seqsAt.mp (List.mem_of_getElem? hp)
  have hseq := Store.op?_of_mem_aliveSeqs hmem
  rw [hx, Option.map_some, Option.some.injEq] at hseq
  have hlen : (f.store.opsAt a).length = (f.store.seqsAt a).length := by simp [Store.opsAt]
  have hfuel := Store.length_seqsAt_le f.store a
  unfold branchTargetOp
  simp only [hx, Option.bind_eq_bind, Option.bind_some, hdest, hr, hseq, hat]
  rw [hlen, ← hpi]
  unfold relativeIndex
  by_cases hpos : 0 < (Word.signExtend r dest.loc.size).toInt
  · -- forward
    rw [decide_eq_true hpos, walkRelative_forward hd _ _ i 1 hlt (by omega) le_rfl (by omega)]
    have hk : i + ((Word.signExtend r dest.loc.size).toInt.natAbs + 1 - 1) =
        ((i : Int) + (Word.signExtend r dest.loc.size).toInt).toNat := by omega
    by_cases hend : (i : Int) + (Word.signExtend r dest.loc.size).toInt = (f.store.seqsAt a).length
    · rw [if_pos (by omega), if_pos hend]
    · rw [if_neg (by omega), if_neg hend, if_pos (by omega), hk]
  · -- backward
    rw [decide_eq_false hpos, walkRelative_backward hd _ _ i 1 hlt (by omega) le_rfl (by omega)]
    rw [if_neg (show (i : Int) + (Word.signExtend r dest.loc.size).toInt ≠ (f.store.seqsAt a).length by omega)]
    by_cases hin : (Word.signExtend r dest.loc.size).toInt.natAbs + 1 - 1 ≤ i
    · rw [if_pos hin, if_pos (by omega),
        show i - ((Word.signExtend r dest.loc.size).toInt.natAbs + 1 - 1) =
          ((i : Int) + (Word.signExtend r dest.loc.size).toInt).toNat by omega]
    · rw [if_neg hin, if_neg (by omega)]

end Walk

/-! ## The next instruction -/

section Fallthrough

variable {ctx : Context} {f : Function} {a : Address} {st : VisitStat}

/-- Under a decoded instruction that ends below `2 ^ 64`, every alive operation above its address
is at or above its end. -/
theorem WellDecoded.not_lt_end_of_above (hw : f.WellDecoded ctx) (hv : f.visitAt? a = some st)
    {q : Nat × SeqNum} (hq : q ∈ f.store.aliveSeqs) (ha : a < q.2.addr) :
    ¬ q.2.addr < a.add (UInt64.ofNat st.size) := by
  have hva : (a, st) ∈ f.visited := by
    obtain ⟨e, he, rfl⟩ := Option.map_eq_some_iff.mp hv
    have hea : e.1 = a := by simpa using List.find?_some he
    exact hea ▸ List.mem_of_find?_eq_some he
  obtain ⟨y, hy, hdy, hys⟩ := Store.mem_aliveSeqs.mp hq
  obtain ⟨e, he, hea⟩ := List.mem_map.mp (hw.alive q.1 y hy hdy)
  have hend : (a.add (UInt64.ofNat st.size)).offset.toNat = a.offset.toNat + st.size :=
    hw.end_toNat hva
  rw [hys] at hea
  rw [Address.lt_iff] at ha ⊢
  rcases ha with hsp | ⟨hsp, hoff⟩
  · simp only [Address.add]
    omega
  · -- in one space the instruction at `a` ends at or before the next one starts
    have hap : a.offset.toNat + st.size ≤ e.1.offset.toNat :=
      hw.apart _ hva e he (hea ▸ hsp) (hea ▸ hoff)
    rw [hea] at hap
    simp only [Address.add] at hend ⊢
    omega

/-- **The fallthrough of an instruction's last operation is the first operation of the next
instruction.** When the decoded instructions are laid out apart and below `2 ^ 64`, the
operation after the last one at `a`, if it is at the address right after the instruction, is
the first operation there, and there is none otherwise. -/
theorem fallthroughOp_last (hw : f.WellDecoded ctx) (hd : (f.store.aliveSeqs.map (·.2)).Nodup)
    (hv : f.visitAt? a = some st) (hsz : 0 < st.size) {o : Nat}
    (ho : (f.store.opsAt a).getLast? = some o) :
    f.fallthroughOp o = f.store.firstOpAt (a.add (UInt64.ofNat st.size)) := by
  rw [Store.opsAt, List.getLast?_map] at ho
  obtain ⟨p, hp, rfl⟩ := Option.map_eq_some_iff.mp ho
  obtain ⟨S, hS⟩ := List.getLast?_eq_some_iff.mp hp
  obtain ⟨hmem, hat⟩ := Store.mem_seqsAt.mp (List.mem_of_getLast? hp)
  obtain ⟨x, hx, -, hxs⟩ := Store.mem_aliveSeqs.mp hmem
  have hvis : (a, st) ∈ f.visited := by
    obtain ⟨e, he, rfl⟩ := Option.map_eq_some_iff.mp hv
    have hea : e.1 = a := by simpa using List.find?_some he
    exact hea ▸ List.mem_of_find?_eq_some he
  have hend : (a.add (UInt64.ofNat st.size)).offset.toNat = a.offset.toNat + st.size :=
    hw.end_toNat hvis
  have hsplit : f.store.aliveSeqs = f.store.aliveSeqs.filter (fun q => q.2.addr < a) ++ S ++
      p :: f.store.aliveSeqs.filter (fun q => a < q.2.addr) := by
    conv_lhs => rw [Store.aliveSeqs_split f.store a, hS]
    simp only [List.append_assoc, List.singleton_append]
  -- the first operation at the next address: the alive ones up to `a` are below it
  have hbelow : ∀ q ∈ f.store.aliveSeqs.filter (fun q => q.2.addr < a) ++ S ++ [p],
      q.2.addr < a.add (UInt64.ofNat st.size) := by
    intro q hq
    have hle : q.2.addr < a ∨ q.2.addr = a := by
      rcases List.mem_append.mp hq with hq | hq
      · rcases List.mem_append.mp hq with hq | hq
        · exact .inl (by simpa using (List.mem_filter.mp hq).2)
        · exact .inr (Store.mem_seqsAt.mp (hS ▸ List.mem_append_left _ hq)).2
      · rw [List.mem_singleton.mp hq]
        exact .inr hat
    rw [Address.lt_iff] at hle ⊢
    rw [Address.eq_iff] at hle
    simp only [Address.add] at hend ⊢
    omega
  have hsplit' : f.store.aliveSeqs = (f.store.aliveSeqs.filter (fun q => q.2.addr < a) ++ S ++ [p]) ++
      f.store.aliveSeqs.filter (fun q => a < q.2.addr) := by
    rw [List.append_assoc, List.singleton_append]
    exact hsplit
  rw [Store.firstOpAt_of_split hsplit' hbelow fun q hq =>
    hw.not_lt_end_of_above hv (List.mem_filter.mp hq).1 (by simpa using (List.mem_filter.mp hq).2)]
  unfold fallthroughOp
  rw [hx, Option.bind_eq_bind, Option.bind_some, hxs,
    Store.nextAfter_eq_head hd (by rw [hsplit, List.append_assoc])]
  cases hU : f.store.aliveSeqs.filter (fun q => a < q.2.addr) with
  | nil => rfl
  | cons q U =>
    have hq : q ∈ f.store.aliveSeqs.filter (fun q => a < q.2.addr) := hU ▸ List.mem_cons_self
    have haq : a < q.2.addr := by simpa using (List.mem_filter.mp hq).2
    obtain ⟨y, hy, -, hys⟩ := Store.mem_aliveSeqs.mp (List.mem_filter.mp hq).1
    have hne : ¬ a = q.2.addr := fun h => Address.lt_irrefl a (h ▸ haq)
    simp only [List.head?_cons, Option.map_some, Option.bind_eq_bind, Option.bind_some, hy, hys,
      hat, hne, if_false, hv]
    -- the end test on 64-bit words is the address test
    by_cases hb : q.2.addr = a.add (UInt64.ofNat st.size)
    · simp [hb, Address.add]
    · have : ¬ (a.space = q.2.addr.space ∧ a.offset + UInt64.ofNat st.size = q.2.addr.offset) :=
        fun h => hb (by rw [Address.add, h.1, h.2])
      simp [hb, this]

end Fallthrough

/-- How the 64-bit sum `i + s` reads against an instruction of `n` operations: it lies in
`[0, n)` exactly when the exact sum does, and then equals it; outside, its unsigned reading is
`n` exactly when the exact sum is. -/
theorem relativeSum_cases {n i : Nat} (hn : n < 2 ^ 63) (hi : i < n) (s : Int64) :
    ((0 ≤ (Int64.ofNat i + s).toInt ∧ (Int64.ofNat i + s).toInt < n) ↔
        (0 ≤ (i : Int) + s.toInt ∧ (i : Int) + s.toInt < n)) ∧
      (0 ≤ (i : Int) + s.toInt → (i : Int) + s.toInt < n →
        (Int64.ofNat i + s).toInt = (i : Int) + s.toInt) ∧
      (¬ (0 ≤ (i : Int) + s.toInt ∧ (i : Int) + s.toInt < n) →
        ((Int64.ofNat i + s).toUInt64.toNat = n ↔ (i : Int) + s.toInt = n)) := by
  have hsum := Int64.toInt_ofNat_add (i := i) (by omega) s
  have hcast := Int64.toNat_toUInt64_eq (Int64.ofNat i + s)
  have hs₁ := s.le_toInt
  have hs₂ := s.toInt_lt
  norm_num at hsum hcast hs₁ hs₂ hn ⊢
  split at hsum <;> omega

variable {f : Function} {o : Nat} {x : Op} {dest : Varnode} {r : UInt64}

/-- **Flow following resolves a relative branch by the exact index.** Operation `t` of the
instruction is marked when it exists, the next instruction is queued when `t` is one past the
last operation, and bad data is recorded otherwise; the wrap of the 64-bit sum changes none of
it. -/
theorem examineOp_relative (hx : f.store.op? o = some x)
    (hbr : x.opcode = .branch ∨ x.opcode = .cbranch)
    (hdest : (x.inputs[0]?.bind f.store.vn?) = some dest) (hr : dest.constValue? = some r)
    (addr : Address) (size : Nat) {ops : List Nat} {i : Nat} (hn : ops.length < 2 ^ 63)
    (hi : i < ops.length) :
    f.examineOp addr size ops i o =
      if h : 0 ≤ relativeIndex i dest r ∧ relativeIndex i dest r < ops.length then
        f.setStartBlock (ops.get ⟨(relativeIndex i dest r).toNat, by omega⟩) true
      else if relativeIndex i dest r = ops.length then
        f.queueTarget (addr.add (UInt64.ofNat size))
      else f.markBadData addr := by
  obtain ⟨hin, hexact, hnext⟩ := relativeSum_cases hn hi (Word.signExtend r dest.loc.size)
  unfold examineOp relativeIndex
  rw [hx]
  rcases hbr with hop | hop <;> simp only [hop, hdest, hr, Bool.and_eq_true, decide_eq_true_eq,
    beq_iff_eq] <;>
  · by_cases ht : 0 ≤ (i : Int) + (Word.signExtend r dest.loc.size).toInt ∧
        (i : Int) + (Word.signExtend r dest.loc.size).toInt < ops.length
    · rw [if_pos (hin.mpr ht), dif_pos ht, hexact ht.1 ht.2, List.getElem?_eq_getElem, List.get_eq_getElem]
    · rw [if_neg (fun h => ht (hin.mp h)), dif_neg ht]
      by_cases hnt : (i : Int) + (Word.signExtend r dest.loc.size).toInt = ops.length
      · rw [if_pos ((hnext ht).mpr hnt), if_pos hnt]
      · rw [if_neg (fun h => hnt ((hnext ht).mp h)), if_neg hnt]

/-- **The two resolutions of a relative branch agree.** Let `t` be the exact index a direct
branch of a decoded instruction names. When `t` is an operation of the instruction, flow
following marks it as a block start and block generation branches to it; when `t` is one past
the last, the first queues the next instruction and the second branches to the first operation
there, if any; otherwise the first records bad data and the second finds no target. -/
theorem relativeBranch_resolutions_agree {ctx : Context} (hw : f.WellDecoded ctx)
    (hd : (f.store.aliveSeqs.map (·.2)).Nodup) {a : Address} {st : VisitStat}
    (hv : f.visitAt? a = some st) (hsz : 0 < st.size) (hn : (f.store.opsAt a).length < 2 ^ 63)
    {i : Nat} (hi : (f.store.opsAt a)[i]? = some o) (hx : f.store.op? o = some x)
    (hbr : x.opcode = .branch ∨ x.opcode = .cbranch)
    (hdest : (x.inputs[0]?.bind f.store.vn?) = some dest) (hr : dest.constValue? = some r) :
    (0 ≤ relativeIndex i dest r → relativeIndex i dest r < (f.store.opsAt a).length →
      ∃ t, (f.store.opsAt a)[(relativeIndex i dest r).toNat]? = some t ∧
        f.examineOp a st.size (f.store.opsAt a) i o = f.setStartBlock t true ∧
        f.branchTargetOp o = some t) ∧
    (relativeIndex i dest r = (f.store.opsAt a).length →
      f.examineOp a st.size (f.store.opsAt a) i o = f.queueTarget (a.add (UInt64.ofNat st.size)) ∧
        f.branchTargetOp o = f.store.firstOpAt (a.add (UInt64.ofNat st.size))) ∧
    (relativeIndex i dest r < 0 ∨ (f.store.opsAt a).length < relativeIndex i dest r →
      f.examineOp a st.size (f.store.opsAt a) i o = f.markBadData a ∧ f.branchTargetOp o = none) := by
  have hlt : i < (f.store.opsAt a).length := (List.getElem?_eq_some_iff.mp hi).1
  rw [examineOp_relative hx hbr hdest hr a st.size hn hlt, branchTargetOp_relative hd hi hx hdest hr]
  refine ⟨fun h₀ h₁ => ?inside, fun hend => ?past, fun hout => ?outside⟩
  case inside =>
    have hget : (relativeIndex i dest r).toNat < (f.store.opsAt a).length := by omega
    refine ⟨_, List.getElem?_eq_getElem hget, dif_pos ⟨h₀, h₁⟩, ?_⟩
    rw [if_neg (by omega), if_pos h₀, List.getElem?_eq_getElem hget]
  case past =>
    -- the instruction has a last operation, whose fallthrough is the next instruction's first
    have hne : f.store.opsAt a ≠ [] := List.ne_nil_of_length_pos (by omega)
    obtain ⟨last, hlast⟩ := Option.isSome_iff_exists.mp (List.getLast?_isSome.mpr hne)
    refine ⟨by rw [dif_neg (by omega), if_pos hend], ?_⟩
    rw [if_pos hend, hlast, Option.bind_some, fallthroughOp_last hw hd hv hsz hlast]
  case outside =>
    refine ⟨by rw [dif_neg (by omega), if_neg (by omega)], ?_⟩
    rw [if_neg (by omega)]
    split
    · exact List.getElem?_eq_none (by omega)
    · rfl

/-- Code at `0x1000`: an instruction of two operations whose conditional branch skips both, to
the return at `0x1004`. -/
def skipContext : Context :=
  { toyContext with
    image := { space := 0, regions := #[⟨0x1000, .zeros 0x100, .code⟩] }
    decoder := { entries :=
      [(⟨0, 0x1000⟩, ⟨4, [⟨.cbranch, none, [⟨⟨3, 2⟩, 8⟩, ⟨⟨1, 0⟩, 1⟩]⟩,
          ⟨.copy, some ⟨⟨1, 4⟩, 4⟩, [⟨⟨3, 1⟩, 4⟩]⟩], false⟩),
       (⟨0, 0x1004⟩, ⟨4, [⟨.ret, none, [⟨⟨1, 0x38⟩, 4⟩]⟩], false⟩)] } }

/-- The branch one past the last operation: flow following queues `0x1004` and block generation
branches to the return there. -/
theorem relativeBranch_resolutions_agree_skip :
    ∃ g, (Function.init "main" ⟨0, 0x1000⟩ toyContext.arch.spaces 1000000).discoverFlow
        skipContext = .ok g ∧
      g.examineOp ⟨0, 0x1000⟩ 4 [0, 1] 0 0 = g.queueTarget ⟨0, 0x1004⟩ ∧
      g.branchTargetOp 0 = some 2 := by
  obtain ⟨g, hg, hfacts⟩ := Except.exists_eq_ok_of_toOption
    (show ((Function.init "main" ⟨0, 0x1000⟩ toyContext.arch.spaces 1000000).discoverFlow
        skipContext).toOption.map (fun g => (decide (g.visitAt? ⟨0, 0x1000⟩ = some ⟨⟨⟨0, 0x1000⟩, 0⟩, 4⟩ ∧
          [(0, ⟨⟨0, 0x1000⟩, 0⟩), (1, ⟨⟨0, 0x1000⟩, 1⟩), (2, ⟨⟨0, 0x1004⟩, 2⟩)].Perm
            ((g.store.liveOps.filter fun p => !p.2.flags.dead).map fun p => (p.1, p.2.seq))),
          (g.store.op? 0).map (·.opcode),
          ((g.store.op? 0).bind fun x => x.inputs[0]?.bind g.store.vn?).map
            fun d => (d.constValue?, d.loc.size))) =
      some (true, some .cbranch, some (some 2, 8)) by decide +kernel)
  simp only [Prod.mk.injEq] at hfacts
  obtain ⟨hvp, hop, hdv⟩ := hfacts
  obtain ⟨hv, hperm⟩ := of_decide_eq_true hvp
  have hL := Store.aliveSeqs_eq_of_perm hperm (by decide) (by decide)
  have hops : g.store.opsAt ⟨0, 0x1000⟩ = [0, 1] := by
    rw [Store.opsAt, Store.seqsAt, hL]
    decide
  obtain ⟨x, hx, hxop⟩ := Option.map_eq_some_iff.mp hop
  rw [hx, Option.bind_some] at hdv
  obtain ⟨dest, hdest, hdv⟩ := Option.map_eq_some_iff.mp hdv
  simp only [Prod.mk.injEq] at hdv
  have hw := discoverFlow_wellDecoded (by decide) (wellDecoded_init _ _ _ _ _) hg
  have ht : relativeIndex 0 dest 2 = (g.store.opsAt ⟨0, 0x1000⟩).length := by
    rw [hops, relativeIndex, hdv.2]
    decide
  have h := (relativeBranch_resolutions_agree hw (by rw [hL]; decide) hv (by decide)
    (by rw [hops]; decide) (by rw [hops]; rfl) hx (.inr hxop) hdest hdv.1).2.1 ht
  have hnext : (⟨0, 0x1000⟩ : Address).add (UInt64.ofNat 4) = ⟨0, 0x1004⟩ := by decide
  rw [hops, hnext] at h
  refine ⟨g, hg, h.1, h.2.trans ?_⟩
  rw [Store.firstOpAt, hL]
  rfl

/-- Code at both ends of the space: an instruction of one branch at `0xfffffffffffffffc`, which
ends exactly at `2 ^ 64`, and a return at `0`. -/
def topEdgeContext : Context :=
  { toyContext with
    image := { space := 0, regions := #[⟨0, .zeros 0x10, .code⟩,
      ⟨0xffffffffffffff00, .zeros 0xff, .code⟩] }
    decoder := { entries :=
      [(⟨0, 0xfffffffffffffffc⟩, ⟨4, [⟨.branch, none, [⟨⟨3, 1⟩, 8⟩]⟩], false⟩),
       (⟨0, 0⟩, ⟨4, [⟨.ret, none, [⟨⟨1, 0x38⟩, 4⟩]⟩], false⟩)] } }

/-- **A relative branch past the top of the space.** The branch names the operation one past its
instruction's only one. Flow following queues the next address, `0` on 64-bit words, and the
return there is decoded; yet block generation finds no target, since the return comes first in
program order and so is no fallthrough of the branch. -/
theorem relativeBranch_past_top :
    ¬ topEdgeContext.decoder.FitsInSpace ∧
    ∃ g, (Function.init "main" ⟨0, 0xfffffffffffffffc⟩ toyContext.arch.spaces 1000000).discoverFlow
        topEdgeContext = .ok g ∧
      g.store.opsAt ⟨0, 0xfffffffffffffffc⟩ = [0] ∧
      g.examineOp ⟨0, 0xfffffffffffffffc⟩ 4 [0] 0 0 = g.queueTarget ⟨0, 0⟩ ∧
      g.store.firstOpAt ⟨0, 0⟩ = some 1 ∧ g.branchTargetOp 0 = none := by
  obtain ⟨g, hg, hfacts⟩ := Except.exists_eq_ok_of_toOption
    (show ((Function.init "main" ⟨0, 0xfffffffffffffffc⟩ toyContext.arch.spaces 1000000).discoverFlow
        topEdgeContext).toOption.map (fun g =>
          (decide ([(1, ⟨⟨0, 0⟩, 1⟩), (0, ⟨⟨0, 0xfffffffffffffffc⟩, 0⟩)].Perm
            ((g.store.liveOps.filter fun p => !p.2.flags.dead).map fun p => (p.1, p.2.seq))),
          (g.store.op? 0).map (fun x => (x.opcode, x.seq)),
          ((g.store.op? 0).bind fun x => x.inputs[0]?.bind g.store.vn?).map
            fun d => (d.constValue?, d.loc.size))) =
      some (true, some (.branch, ⟨⟨0, 0xfffffffffffffffc⟩, 0⟩), some (some 1, 8)) by decide +kernel)
  simp only [Prod.mk.injEq] at hfacts
  obtain ⟨hperm, hop, hdv⟩ := hfacts
  have hL := Store.aliveSeqs_eq_of_perm (of_decide_eq_true hperm) (by decide) (by decide)
  have hops : g.store.opsAt ⟨0, 0xfffffffffffffffc⟩ = [0] := by
    rw [Store.opsAt, Store.seqsAt, hL]
    decide
  obtain ⟨x, hx, hxop⟩ := Option.map_eq_some_iff.mp hop
  simp only [Prod.mk.injEq] at hxop
  rw [hx, Option.bind_some] at hdv
  obtain ⟨dest, hdest, hdv⟩ := Option.map_eq_some_iff.mp hdv
  simp only [Prod.mk.injEq] at hdv
  have ht : relativeIndex 0 dest 1 = 1 := by
    rw [relativeIndex, hdv.2]
    decide
  refine ⟨by decide, g, hg, hops, ?examine, by rw [Store.firstOpAt, hL]; rfl, ?branch⟩
  case examine =>
    rw [examineOp_relative hx (.inl hxop.1) hdest hdv.1 _ _ (by decide) (by decide),
      dif_neg (by rw [ht]; decide), if_pos (by rw [ht]; rfl)]
    rfl
  case branch =>
    have hi : (g.store.opsAt ⟨0, 0xfffffffffffffffc⟩)[0]? = some 0 := by rw [hops]; rfl
    rw [branchTargetOp_relative (by rw [hL]; decide) hi hx hdest hdv.1, hops, ht]
    -- the branch is last in program order, so it has no fallthrough
    simp only [List.length_singleton, Nat.cast_one, if_true, List.getLast?_singleton,
      Option.bind_some]
    unfold fallthroughOp
    rw [hx, Option.bind_eq_bind, Option.bind_some, hxop.2, Store.nextAfter, hL]
    rfl

end Function

end MicroSsa
