import MicroSsa.Function.Blocks
import Mathlib
/-!
# What control flow reads

Block generation (`MicroSsa.Function.Blocks`) reads the program through a few functions: the
alive operations in program order, the operation after a sequence number, the first operation
at an address, `Function.fallthroughOp` and `Function.branchTargetOp`. They read an operation's
opcode, sequence number, inputs and dead mark, the varnodes and the decoded instructions, and
nothing else (`Function.SameFlow`). Marking block starts and setting parents change none of
these, so every stage of block generation sees the same flow (`fallthroughOp_congr`,
`branchTargetOp_congr`).

Program order: the alive operations are sorted by sequence number (`aliveSeqs_sorted`), each
once (`nodup_aliveOps`); when no two alive operations share a sequence number, the operation
after the sequence number of an alive operation is the next one in program order
(`nextAfter_adjacent`).
-/

namespace MicroSsa

/-! ## Sequence numbers -/

namespace SeqNum

theorem compare_eq_lt {a b : SeqNum} : SeqNum.compare a b = .lt ↔
    (a.addr.space < b.addr.space ∨
      a.addr.space = b.addr.space ∧ a.addr.offset.toNat < b.addr.offset.toNat) ∨
    (a.addr.space = b.addr.space ∧ a.addr.offset.toNat = b.addr.offset.toNat) ∧
      a.uniq < b.uniq := by
  simp [SeqNum.compare, Address.compare, Ordering.then_eq_lt, Ordering.then_eq_eq,
    Nat.compare_eq_lt]

theorem compare_eq_gt {a b : SeqNum} : SeqNum.compare a b = .gt ↔
    (b.addr.space < a.addr.space ∨
      a.addr.space = b.addr.space ∧ b.addr.offset.toNat < a.addr.offset.toNat) ∨
    (a.addr.space = b.addr.space ∧ a.addr.offset.toNat = b.addr.offset.toNat) ∧
      b.uniq < a.uniq := by
  simp [SeqNum.compare, Address.compare, Ordering.then_eq_gt, Ordering.then_eq_eq,
    Nat.compare_eq_gt]

theorem compare_eq_eq {a b : SeqNum} : SeqNum.compare a b = .eq ↔ a = b := by
  obtain ⟨⟨s, o⟩, u⟩ := a
  obtain ⟨⟨s', o'⟩, u'⟩ := b
  simp [SeqNum.compare, Address.compare, Ordering.then_eq_eq, UInt64.toNat_inj]

theorem compare_self (a : SeqNum) : SeqNum.compare a a = .eq := compare_eq_eq.mpr rfl

theorem compare_eq_gt_of_lt {a b : SeqNum} (h : SeqNum.compare a b = .lt) :
    SeqNum.compare b a = .gt := by
  rw [compare_eq_lt] at h
  rw [compare_eq_gt]
  omega

theorem compare_ne_gt_trans {a b c : SeqNum} (h₁ : SeqNum.compare a b ≠ .gt)
    (h₂ : SeqNum.compare b c ≠ .gt) : SeqNum.compare a c ≠ .gt := by
  rw [Ne, compare_eq_gt] at h₁ h₂ ⊢
  omega

theorem compare_ne_gt_total (a b : SeqNum) :
    SeqNum.compare a b ≠ .gt ∨ SeqNum.compare b a ≠ .gt := by
  rw [Ne, Ne, compare_eq_gt, compare_eq_gt]
  omega

end SeqNum

/-- An operation as control flow sees it: its opcode, place in program order, inputs and dead
mark. -/
def Op.flow (x : Op) : Opcode × SeqNum × Array Nat × Bool :=
  (x.opcode, x.seq, x.inputs, x.flags.dead)

namespace Store

/-- The operations as control flow sees them, by number. -/
def flow (s : Store) : Array (Option (Opcode × SeqNum × Array Nat × Bool)) :=
  s.ops.map (Option.map Op.flow)

/-- The alive operations with their sequence numbers, read off the flow, in creation order. -/
def aliveOf (fl : Array (Option (Opcode × SeqNum × Array Nat × Bool))) : List (Nat × SeqNum) :=
  fl.toList.zipIdx.filterMap fun p =>
    p.1.bind fun v => if v.2.2.2 then none else some (p.2, v.2.1)

variable {s s' : Store}

theorem aliveSeqs_eq (s : Store) :
    s.aliveSeqs = (aliveOf s.flow).mergeSort fun a b => SeqNum.compare a.2 b.2 != .gt := by
  unfold aliveSeqs liveOps aliveOf flow
  congr 1
  rw [List.filter_filterMap, List.map_filterMap, Array.toList_map,
    List.zipIdx_map, List.filterMap_map]
  refine List.filterMap_congr fun p _ => ?_
  obtain ⟨o, i⟩ := p
  cases o with
  | none => rfl
  | some x => cases hx : x.flags.dead <;> simp [Op.flow, hx]

theorem aliveSeqs_congr (h : s'.flow = s.flow) : s'.aliveSeqs = s.aliveSeqs := by
  rw [aliveSeqs_eq, aliveSeqs_eq, h]

theorem aliveOps_congr (h : s'.flow = s.flow) : s'.aliveOps = s.aliveOps := by
  rw [aliveOps, aliveOps, aliveSeqs_congr h]

theorem nextAfter_congr (h : s'.flow = s.flow) (q : SeqNum) : s'.nextAfter q = s.nextAfter q := by
  rw [nextAfter, nextAfter, aliveSeqs_congr h]

theorem prevBefore_congr (h : s'.flow = s.flow) (q : SeqNum) :
    s'.prevBefore q = s.prevBefore q := by
  rw [prevBefore, prevBefore, aliveSeqs_congr h]

theorem firstOpAt_congr (h : s'.flow = s.flow) (a : Address) : s'.firstOpAt a = s.firstOpAt a := by
  rw [firstOpAt, firstOpAt, aliveSeqs_congr h]

theorem numOps_congr (h : s'.flow = s.flow) : s'.numOps = s.numOps := by
  -- the number of operations is the number of entries of the flow
  have hcount : ∀ s : Store, s.numOps = (s.flow.filter Option.isSome).size := by
    intro s
    have hfun : (Option.isSome ∘ Option.map Op.flow) = Option.isSome := by
      funext x
      simp
    rw [numOps, flow, Array.filter_map, hfun, Array.size_map]
  rw [hcount, hcount, h]

theorem op?_flow (s : Store) (o : Nat) : (s.op? o).map Op.flow = (s.flow[o]?).join := by
  unfold op? flow
  rw [Array.getElem?_map]
  cases s.ops[o]? with
  | none => rfl
  | some x => rfl

theorem op?_flow_congr (h : s'.flow = s.flow) (o : Nat) :
    (s'.op? o).map Op.flow = (s.op? o).map Op.flow := by
  rw [op?_flow, op?_flow, h]

/-- A change of an operation that keeps its flow keeps the flow of the store. -/
theorem flow_modifyOp (s : Store) (o : Nat) {f : Op → Op} (hf : ∀ x, (f x).flow = x.flow) :
    (s.modifyOp o f).flow = s.flow := by
  apply Array.ext_getElem?
  intro i
  simp only [flow, modifyOp, Array.getElem?_map, Array.getElem?_modify]
  split
  · cases s.ops[i]? with
    | none => rfl
    | some x => cases x <;> simp [hf]
  · rfl

/-! ## Program order -/

theorem mem_aliveSeqs {o : Nat} {q : SeqNum} :
    (o, q) ∈ s.aliveSeqs ↔ ∃ x, s.op? o = some x ∧ x.flags.dead = false ∧ x.seq = q := by
  rw [aliveSeqs_eq, List.mem_mergeSort, aliveOf, List.mem_filterMap]
  constructor
  · rintro ⟨⟨v, i⟩, hp, hv⟩
    rw [List.mem_zipIdx_iff_getElem?, Array.getElem?_toList] at hp
    have hvo : (s.op? i).map Op.flow = v := by rw [op?_flow, hp]; rfl
    cases v with
    | none => simp at hv
    | some w =>
      obtain ⟨x, hx, rfl⟩ := Option.map_eq_some_iff.mp hvo
      cases hd : x.flags.dead <;> simp [Op.flow, hd] at hv
      obtain ⟨rfl, rfl⟩ := hv
      exact ⟨x, hx, hd, rfl⟩
  · rintro ⟨x, hx, hd, rfl⟩
    refine ⟨(some x.flow, o), ?_, by simp [Op.flow, hd]⟩
    rw [List.mem_zipIdx_iff_getElem?, Array.getElem?_toList]
    have := op?_flow s o
    rw [hx] at this
    simp only [Option.map_some] at this
    cases hf : s.flow[o]? with
    | none => rw [hf] at this; cases this
    | some w => rw [hf] at this; cases w <;> simp_all

theorem mem_aliveOps {o : Nat} : o ∈ s.aliveOps ↔ ∃ x, s.op? o = some x ∧ x.flags.dead = false := by
  unfold aliveOps
  constructor
  · intro h
    obtain ⟨⟨o', q⟩, hp, rfl⟩ := List.mem_map.mp h
    obtain ⟨x, hx, hd, -⟩ := mem_aliveSeqs.mp hp
    exact ⟨x, hx, hd⟩
  · rintro ⟨x, hx, hd⟩
    exact List.mem_map.mpr ⟨(o, x.seq), mem_aliveSeqs.mpr ⟨x, hx, hd, rfl⟩, rfl⟩

theorem nodup_aliveOps (s : Store) : s.aliveOps.Nodup := by
  -- the numbers come from distinct positions of the flow
  have hsub : ∀ (l : List (Option (Opcode × SeqNum × Array Nat × Bool))) (n : Nat),
      List.Sublist (((l.zipIdx n).filterMap fun p =>
        p.1.bind fun v => if v.2.2.2 then none else some (p.2, v.2.1)).map (·.1))
        (List.range' n l.length) := by
    intro l
    induction l with
    | nil => intro n; simp
    | cons v l ih =>
      intro n
      rw [List.zipIdx_cons, List.filterMap_cons, List.length_cons, List.range'_succ]
      cases v with
      | none => exact (ih (n + 1)).cons n
      | some w =>
        cases hw : w.2.2.2
        · simpa [hw] using (ih (n + 1)).cons_cons n
        · simpa [hw] using (ih (n + 1)).cons n
  unfold aliveOps
  rw [aliveSeqs_eq]
  exact ((List.mergeSort_perm _ _).map _).nodup_iff.mpr ((hsub _ 0).nodup List.nodup_range')

/-- Program order: the alive operations are sorted by sequence number. -/
theorem aliveSeqs_sorted (s : Store) :
    s.aliveSeqs.Pairwise fun a b => SeqNum.compare a.2 b.2 ≠ .gt := by
  rw [aliveSeqs_eq]
  refine (List.pairwise_mergeSort (fun a b c hab hbc => ?_) (fun a b => ?_) _).imp ?_
  · simp only [bne_iff_ne, ne_eq] at hab hbc ⊢
    exact SeqNum.compare_ne_gt_trans hab hbc
  · rcases SeqNum.compare_ne_gt_total a.2 b.2 with h | h <;> simp [h]
  · intro a b h
    simpa using h

/-- With distinct sequence numbers, program order is strict. -/
theorem aliveSeqs_strict (hd : (s.aliveSeqs.map (·.2)).Nodup) :
    s.aliveSeqs.Pairwise fun a b => SeqNum.compare a.2 b.2 = .lt := by
  refine (s.aliveSeqs_sorted.and (List.pairwise_map.mp (List.nodup_iff_pairwise_ne.mp hd))).imp ?_
  rintro a b ⟨hgt, hne⟩
  cases h : SeqNum.compare a.2 b.2
  · rfl
  · exact absurd (SeqNum.compare_eq_eq.mp h) hne
  · exact absurd h hgt

/-- The operation after the last alive operation: none. -/
theorem nextAfter_of_last {l : List (Nat × SeqNum)} {o : Nat} {q : SeqNum}
    (h : s.aliveSeqs = l ++ [(o, q)]) : s.nextAfter q = none := by
  have hsorted := s.aliveSeqs_sorted
  rw [h, List.pairwise_append] at hsorted
  rw [nextAfter, h, List.find?_append]
  have hl : l.find? (fun p => SeqNum.compare p.2 q == .gt) = none := by
    rw [List.find?_eq_none]
    intro p hp
    simpa using hsorted.2.2 p hp (o, q) (List.mem_singleton_self _)
  simp [hl, SeqNum.compare_self]

/-- The operation after an alive operation is the next alive one, when no two alive operations
share a sequence number. -/
theorem nextAfter_of_adjacent (hd : (s.aliveSeqs.map (·.2)).Nodup) {l r : List (Nat × SeqNum)}
    {o o' : Nat} {q q' : SeqNum} (h : s.aliveSeqs = l ++ (o, q) :: (o', q') :: r) :
    s.nextAfter q = some o' := by
  have hsorted := s.aliveSeqs_sorted
  have hstrict := aliveSeqs_strict hd
  rw [h, List.pairwise_append] at hsorted hstrict
  rw [nextAfter, h, List.find?_append]
  have hl : l.find? (fun p => SeqNum.compare p.2 q == .gt) = none := by
    rw [List.find?_eq_none]
    intro p hp
    simpa using hsorted.2.2 p hp (o, q) List.mem_cons_self
  have hq' : SeqNum.compare q' q = .gt :=
    SeqNum.compare_eq_gt_of_lt (List.rel_of_pairwise_cons hstrict.2.1 List.mem_cons_self)
  simp [hl, SeqNum.compare_self, hq']

/-- The operation after an alive operation is the next one in program order, when no two alive
operations share a sequence number. -/
theorem nextAfter_adjacent (hd : (s.aliveSeqs.map (·.2)).Nodup) {o n : Nat} {x : Op}
    (hx : s.op? o = some x) (hdead : x.flags.dead = false) (hn : s.nextAfter x.seq = some n) :
    ∃ l r, s.aliveOps = l ++ o :: n :: r := by
  obtain ⟨l, t, hlt⟩ := List.append_of_mem (mem_aliveSeqs.mpr ⟨x, hx, hdead, rfl⟩)
  cases t with
  | nil => rw [nextAfter_of_last hlt] at hn; cases hn
  | cons p r =>
    obtain ⟨o', q'⟩ := p
    rw [nextAfter_of_adjacent hd hlt] at hn
    cases hn
    exact ⟨l.map (·.1), r.map (·.1), by simp [aliveOps, hlt]⟩

theorem nextAfter_mem {q : SeqNum} {n : Nat} (h : s.nextAfter q = some n) : n ∈ s.aliveOps := by
  obtain ⟨p, hp, rfl⟩ := Option.map_eq_some_iff.mp h
  exact List.mem_map.mpr ⟨p, List.mem_of_find?_eq_some hp, rfl⟩

theorem prevBefore_mem {q : SeqNum} {n : Nat} (h : s.prevBefore q = some n) : n ∈ s.aliveOps := by
  obtain ⟨p, hp, rfl⟩ := Option.map_eq_some_iff.mp h
  exact List.mem_map.mpr ⟨p, (List.mem_filter.mp (List.mem_of_getLast? hp)).1, rfl⟩

/-- The first operation at an address is an alive operation of the instruction there. -/
theorem firstOpAt_spec {a : Address} {o : Nat} (h : s.firstOpAt a = some o) :
    ∃ x, s.op? o = some x ∧ x.flags.dead = false ∧ x.seq.addr = a := by
  unfold firstOpAt at h
  split at h
  · rename_i o' q hfind
    split at h
    · rename_i hq
      cases h
      obtain ⟨x, hx, hd, rfl⟩ := mem_aliveSeqs.mp (List.mem_of_find?_eq_some hfind)
      exact ⟨x, hx, hd, hq⟩
    · cases h
  · cases h

theorem firstOpAt_mem {a : Address} {o : Nat} (h : s.firstOpAt a = some o) : o ∈ s.aliveOps := by
  obtain ⟨x, hx, hd, -⟩ := firstOpAt_spec h
  exact mem_aliveOps.mpr ⟨x, hx, hd⟩

/-- Two first operations at different addresses are different operations. -/
theorem firstOpAt_inj {a a' : Address} {o : Nat} (h : s.firstOpAt a = some o)
    (h' : s.firstOpAt a' = some o) : a = a' := by
  obtain ⟨x, hx, -, rfl⟩ := firstOpAt_spec h
  obtain ⟨x', hx', -, rfl⟩ := firstOpAt_spec h'
  rw [hx] at hx'
  cases hx'
  rfl

end Store

namespace Function

/-- `g` has the control flow of `f`: the same operations as flow sees them, the same varnodes,
the same decoded instructions, the same jump tables and the same address. -/
structure SameFlow (f g : Function) : Prop where
  flow : g.store.flow = f.store.flow
  varnodes : g.store.varnodes = f.store.varnodes
  visited : g.visited = f.visited
  jumpTables : g.jumpTables = f.jumpTables
  addr : g.addr = f.addr

namespace SameFlow

variable {f g h : Function}

theorem refl (f : Function) : SameFlow f f := ⟨rfl, rfl, rfl, rfl, rfl⟩

theorem trans (h₁ : SameFlow f g) (h₂ : SameFlow g h) : SameFlow f h :=
  ⟨h₂.flow.trans h₁.flow, h₂.varnodes.trans h₁.varnodes, h₂.visited.trans h₁.visited,
    h₂.jumpTables.trans h₁.jumpTables, h₂.addr.trans h₁.addr⟩

theorem seq (hs : SameFlow f g) (o : Nat) :
    (g.store.op? o).map (·.seq) = (f.store.op? o).map (·.seq) := by
  have h := Store.op?_flow_congr hs.flow o
  have hseq : ∀ s : Store, (s.op? o).map (·.seq) = ((s.op? o).map Op.flow).map (·.2.1) := by
    intro s
    rw [Option.map_map]
    rfl
  rw [hseq, hseq, h]

theorem symm (hs : SameFlow f g) : SameFlow g f :=
  ⟨hs.flow.symm, hs.varnodes.symm, hs.visited.symm, hs.jumpTables.symm, hs.addr.symm⟩

/-- An operation of `f` is there in `g`, as flow sees it. -/
theorem exists_op (hs : SameFlow f g) {o : Nat} {x : Op} (h : f.store.op? o = some x) :
    ∃ y, g.store.op? o = some y ∧ y.flow = x.flow := by
  have h' := Store.op?_flow_congr hs.flow o
  rw [h] at h'
  exact Option.map_eq_some_iff.mp h'

theorem opcode (hs : SameFlow f g) (o : Nat) :
    (g.store.op? o).map (·.opcode) = (f.store.op? o).map (·.opcode) := by
  have h := Store.op?_flow_congr hs.flow o
  have hop : ∀ s : Store, (s.op? o).map (·.opcode) = ((s.op? o).map Op.flow).map (·.1) := by
    intro s
    rw [Option.map_map]
    rfl
  rw [hop, hop, h]

theorem inputs (hs : SameFlow f g) (o : Nat) :
    (g.store.op? o).map (·.inputs) = (f.store.op? o).map (·.inputs) := by
  have h := Store.op?_flow_congr hs.flow o
  have hin : ∀ s : Store, (s.op? o).map (·.inputs) = ((s.op? o).map Op.flow).map (·.2.2.1) := by
    intro s
    rw [Option.map_map]
    rfl
  rw [hin, hin, h]

theorem visitAt (hs : SameFlow f g) (a : Address) : g.visitAt? a = f.visitAt? a := by
  rw [visitAt?, visitAt?, hs.visited]

theorem vn (hs : SameFlow f g) (v : Nat) : g.store.vn? v = f.store.vn? v := by
  rw [Store.vn?, Store.vn?, hs.varnodes]

end SameFlow

/-- Marking a block start keeps the flow. -/
theorem sameFlow_setStartBlock (f : Function) (o : Nat) (v : Bool) :
    SameFlow f (f.setStartBlock o v) :=
  ⟨Store.flow_modifyOp _ _ fun _ => rfl, rfl, rfl, rfl, rfl⟩

/-- Setting a parent keeps the flow. -/
theorem sameFlow_setParent (f : Function) (o : Nat) (b : Option Nat) :
    SameFlow f { f with store := f.store.setParent o b } :=
  ⟨Store.flow_modifyOp _ _ fun _ => rfl, rfl, rfl, rfl, rfl⟩

/-- Changing the graph keeps the flow. -/
theorem sameFlow_graph (f : Function) (G : BlockGraph) : SameFlow f { f with graph := G } :=
  ⟨rfl, rfl, rfl, rfl, rfl⟩

/-- `fallthroughOp` reads sequence numbers, program order and the decoded instructions. -/
theorem fallthroughOp_eq (f : Function) (o : Nat) : f.fallthroughOp o =
    ((f.store.op? o).map (·.seq)).bind fun a => (f.store.nextAfter a).bind fun n =>
      ((f.store.op? n).map (·.seq)).bind fun b =>
        if a.addr = b.addr then some n
        else (f.visitAt? a.addr).bind fun st =>
          if a.addr.space == b.addr.space && a.addr.offset + UInt64.ofNat st.size == b.addr.offset
          then some n else none := by
  unfold fallthroughOp
  simp only [Option.bind_map]
  rfl

theorem fallthroughOp_congr {f g : Function} (hs : SameFlow f g) (o : Nat) :
    g.fallthroughOp o = f.fallthroughOp o := by
  rw [fallthroughOp_eq, fallthroughOp_eq]
  simp only [hs.seq, Store.nextAfter_congr hs.flow, hs.visitAt]

/-- The fallthrough of an operation is the alive operation after it. -/
theorem fallthroughOp_spec {f : Function} {o n : Nat} (h : f.fallthroughOp o = some n) :
    ∃ x, f.store.op? o = some x ∧ f.store.nextAfter x.seq = some n := by
  rw [fallthroughOp_eq] at h
  cases hx : f.store.op? o with
  | none => simp [hx] at h
  | some x =>
    refine ⟨x, rfl, ?_⟩
    simp only [hx, Option.map_some, Option.bind_some] at h
    cases hn : f.store.nextAfter x.seq with
    | none => simp [hn] at h
    | some n' =>
      simp only [hn, Option.bind_some] at h
      -- every branch that answers answers `n'`
      cases hy : (f.store.op? n').map (·.seq) with
      | none => simp [hy] at h
      | some b =>
        simp only [hy, Option.bind_some] at h
        split at h
        · cases h; rfl
        · cases hv : f.visitAt? x.seq.addr with
          | none => simp [hv] at h
          | some st =>
            simp only [hv, Option.bind_some] at h
            split at h
            · cases h; rfl
            · cases h

theorem fallthroughOp_mem {f : Function} {o n : Nat} (h : f.fallthroughOp o = some n) :
    n ∈ f.store.aliveOps := by
  obtain ⟨x, -, hn⟩ := fallthroughOp_spec h
  exact Store.nextAfter_mem hn

/-- One step of a relative walk: the alive operation before or after `cur`, with its address. -/
def walkStep (f : Function) (forward : Bool) (cur : Nat) : Option (Nat × Address) :=
  (((f.store.op? cur).map (·.seq)).bind fun q =>
    if forward then f.store.nextAfter q else f.store.prevBefore q).bind fun n =>
      ((f.store.op? n).map (·.seq)).map fun q => (n, q.addr)

theorem walkRelative_succ (f : Function) (addr : Address) (forward : Bool) (steps fuel cur step : Nat) :
    f.walkRelative addr forward steps (fuel + 1) cur step =
      if steps < step then some cur
      else match f.walkStep forward cur with
        | some (n, a) =>
          if a = addr then f.walkRelative addr forward steps fuel n (step + 1)
          else if forward && step == steps then f.fallthroughOp cur else none
        | none => if forward && step == steps then f.fallthroughOp cur else none := by
  simp only [walkRelative, walkStep]
  split
  · rfl
  · cases f.store.op? cur with
    | none => rfl
    | some x =>
      simp only [Option.bind_some, Option.map_some]
      cases (if forward then f.store.nextAfter x.seq else f.store.prevBefore x.seq) with
      | none => rfl
      | some n =>
        simp only [Option.bind_some]
        cases f.store.op? n <;> rfl

theorem walkStep_congr {f g : Function} (hs : SameFlow f g) (forward : Bool) (cur : Nat) :
    g.walkStep forward cur = f.walkStep forward cur := by
  simp only [walkStep, hs.seq, Store.nextAfter_congr hs.flow, Store.prevBefore_congr hs.flow]

theorem walkRelative_congr {f g : Function} (hs : SameFlow f g) (addr : Address) (forward : Bool)
    (steps : Nat) : ∀ fuel cur step,
      g.walkRelative addr forward steps fuel cur step =
        f.walkRelative addr forward steps fuel cur step := by
  intro fuel
  induction fuel with
  | zero => intro _ _; rfl
  | succ fuel ih =>
    intro cur step
    rw [walkRelative_succ, walkRelative_succ, walkStep_congr hs, fallthroughOp_congr hs]
    simp only [ih]

theorem walkStep_mem {f : Function} {forward : Bool} {cur n : Nat} {a : Address}
    (h : f.walkStep forward cur = some (n, a)) : n ∈ f.store.aliveOps := by
  unfold walkStep at h
  obtain ⟨n', hn', hq⟩ := Option.bind_eq_some_iff.mp h
  rw [Option.map_map, Option.map_eq_some_iff] at hq
  obtain ⟨y, -, hy⟩ := hq
  simp only [Function.comp_apply, Prod.mk.injEq] at hy
  obtain ⟨rfl, -⟩ := hy
  obtain ⟨q, -, hq'⟩ := Option.bind_eq_some_iff.mp hn'
  split at hq'
  · exact Store.nextAfter_mem hq'
  · exact Store.prevBefore_mem hq'

/-- A relative walk from an alive operation ends at an alive operation. -/
theorem walkRelative_mem {f : Function} {addr : Address} {forward : Bool} {steps : Nat} :
    ∀ fuel cur step t, cur ∈ f.store.aliveOps →
      f.walkRelative addr forward steps fuel cur step = some t → t ∈ f.store.aliveOps := by
  intro fuel
  induction fuel with
  | zero => intro _ _ _ _ h; cases h
  | succ fuel ih =>
    intro cur step t hcur h
    rw [walkRelative_succ] at h
    split at h
    · cases h
      exact hcur
    · split at h
      · rename_i n a hstep
        split at h
        · exact ih n (step + 1) t (walkStep_mem hstep) h
        · split at h
          · exact fallthroughOp_mem h
          · cases h
      · split at h
        · exact fallthroughOp_mem h
        · cases h

/-- `branchTargetOp` reads an operation's sequence number and inputs, the varnodes and the
flow. -/
theorem branchTargetOp_congr {f g : Function} (hs : SameFlow f g) (o : Nat) :
    g.branchTargetOp o = f.branchTargetOp o := by
  have hseq := hs.seq o
  have hin := hs.inputs o
  unfold branchTargetOp
  cases hf : f.store.op? o with
  | none =>
    rw [hf] at hseq
    cases hg : g.store.op? o with
    | none => rfl
    | some y => rw [hg] at hseq; cases hseq
  | some x =>
    rw [hf] at hseq hin
    cases hg : g.store.op? o with
    | none => rw [hg] at hseq; cases hseq
    | some y =>
      rw [hg] at hseq hin
      simp only [Option.map_some, Option.some.injEq] at hseq hin
      simp only [Option.bind_eq_bind, Option.bind_some, hseq, hin, hs.vn,
        Store.numOps_congr hs.flow, walkRelative_congr hs, Store.firstOpAt_congr hs.flow]

/-- A direct branch from an alive operation goes to an alive operation. -/
theorem branchTargetOp_mem {f : Function} {o t : Nat} (ho : o ∈ f.store.aliveOps)
    (h : f.branchTargetOp o = some t) : t ∈ f.store.aliveOps := by
  unfold branchTargetOp at h
  obtain ⟨x, -, h⟩ := Option.bind_eq_some_iff.mp h
  obtain ⟨dest, -, h⟩ := Option.bind_eq_some_iff.mp h
  split at h
  · exact walkRelative_mem _ o 1 t ho h
  · exact Store.firstOpAt_mem h

end Function

end MicroSsa
