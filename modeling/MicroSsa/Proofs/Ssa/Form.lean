import MicroSsa.Proofs.Ssa.Traversal
/-!
# SSA form

`Function.SsaForm` says what SSA construction promises over the blocks reached from the entry:
every varnode has at most one writer, and the output of an operation of a reached block names
it as its definition; no read of an operation other than a merge is left free; every merge has
one input per in-edge, renamed for each in-edge from a reached block; and every read of a
variable by an operation other than a merge is defined by the last writer of the variable along
every walk from the entry to the operation, or is an input of the function when no operation
along the walk writes the variable.

`buildSsa_ssaForm` proves it of `Function.buildSsa` on a function ready for it whose graph the
dominator analysis has run on and whose edges are paired. `Function.Built` collects what the
stages leave (placement, renaming with `Function.Progress`, pruning, the sweep), and the lemmas
after it carry a fact about a read of the result back to renaming, where `Function.SlotsOk`
decides it: the frames of pruning (`pruneMerges_node`) and the sweep keep every varnode that an
operation left reads, and a walk of the result is a walk of the graph renaming ran on with the
destroyed merges taken out, which are never the last writer before a read
(`lastWhere_filter_of_keep`).
-/

namespace MicroSsa

/-! ## The last mark of a thinned run -/

theorem lastWhere_congr {w w' : Nat → Bool} {L : List Nat} (h : ∀ a ∈ L, w a = w' a) :
    lastWhere w L = lastWhere w' L := by
  unfold lastWhere
  rw [List.filter_congr h]

theorem lastWhere_mark {w : Nat → Bool} {L : List Nat} {d : Nat} (h : lastWhere w L = some d) :
    d ∈ L ∧ w d = true :=
  List.mem_filter.mp (List.mem_of_getLast? h)

/-- Taking out elements that are never the last mark keeps the last mark. -/
theorem lastWhere_filter_of_keep {w p : Nat → Bool} {L : List Nat}
    (h : ∀ d, lastWhere w L = some d → p d = true) : lastWhere w (L.filter p) = lastWhere w L := by
  unfold lastWhere at h ⊢
  have hcomm : (L.filter p).filter w = (L.filter w).filter p := by
    rw [List.filter_filter, List.filter_filter]
    exact List.filter_congr fun a _ => Bool.and_comm _ _
  rw [hcomm]
  rcases List.eq_nil_or_concat (L.filter w) with hnil | ⟨M, d, hMd⟩
  · rw [hnil]
    rfl
  · rw [hMd] at h ⊢
    have hd : p d = true := h d (by simp)
    simp [List.filter_append, hd]

/-- Cutting a run before `o` and taking out elements commute, when `o` stays. -/
theorem takeWhile_filter_ne {p : Nat → Bool} {o : Nat} (ho : p o = true) :
    ∀ l : List Nat, (l.filter p).takeWhile (· != o) = (l.takeWhile (· != o)).filter p
  | [] => rfl
  | a :: l => by
    by_cases hao : a = o
    · subst hao
      simp [ho]
    · by_cases hpa : p a = true
      · simp [hpa, hao, takeWhile_filter_ne ho l]
      · simp [hpa, hao, takeWhile_filter_ne ho l]

/-- A run cut where a weaker condition fails holds the run cut where a stronger one fails. -/
theorem takeWhile_subset_of_imp {p q : Nat → Bool} (h : ∀ a, p a = true → q a = true) :
    ∀ l : List Nat, l.takeWhile p ⊆ l.takeWhile q
  | [] => List.Subset.refl _
  | a :: l => by
    by_cases hp : p a = true
    · rw [List.takeWhile_cons_of_pos hp, List.takeWhile_cons_of_pos (h a hp)]
      exact List.cons_subset_cons a (takeWhile_subset_of_imp h l)
    · rw [List.takeWhile_cons_of_neg hp]
      exact List.nil_subset _

namespace BlockGraph

/-- The operations of a thinned graph along blocks are those of the graph, thinned. -/
theorem Thinned.runOps {keep : Nat → Bool} {G H : BlockGraph} (h : G.Thinned keep H) :
    ∀ bs, H.runOps bs = (G.runOps bs).filter keep
  | [] => rfl
  | c :: bs => by
    rw [runOps_cons, runOps_cons, List.filter_append, h.runOps bs, h.ops]

theorem Thinned.get_ins {keep : Nat → Bool} {G H : BlockGraph} (h : G.Thinned keep H) (x : Nat) :
    (H.get x).ins = (G.get x).ins := by
  have h' := congrArg Block.ins (h.shape x)
  exact h'

theorem Thinned.get_outs {keep : Nat → Bool} {G H : BlockGraph} (h : G.Thinned keep H) (x : Nat) :
    (H.get x).outs = (G.get x).outs := by
  have h' := congrArg Block.outs (h.shape x)
  exact h'

theorem Thinned.succs {keep : Nat → Bool} {G H : BlockGraph} (h : G.Thinned keep H) (x : Nat) :
    H.succs x = G.succs x := by
  unfold BlockGraph.succs
  rw [h.get_outs]

theorem Thinned.live_iff {keep : Nat → Bool} {G H : BlockGraph} (h : G.Thinned keep H) (x : Nat) :
    H.Live x ↔ G.Live x := by
  have h' := congrArg Block.flags (h.shape x)
  unfold BlockGraph.Live
  rw [h.size, show (H.get x).flags = (G.get x).flags from h']

/-- Once the analysis has run, the blocks not marked dead are the reached ones. -/
theorem Analyzed.live_iff {G : BlockGraph} {e : Nat} (hA : G.Analyzed e) (b : Nat) :
    G.Live b ↔ G.Reaches e b := by
  constructor
  · rintro ⟨hlt, hd⟩
    by_contra hr
    rw [(hA.dead_iff b hlt).mpr hr] at hd
    cases hd
  · intro hr
    have hlt := hr.lt_size hA.wf hA.entry_lt
    refine ⟨hlt, ?_⟩
    cases hd : (G.get b).flags.dead
    · rfl
    · exact absurd hr ((hA.dead_iff b hlt).mp hd)

/-- The in-edges of each block and the out-edges of its predecessors are paired: in-edge `i` from
`P` is the out-edge of `P` it names, whose in-slot is `i`. -/
def EdgesPaired (G : BlockGraph) : Prop :=
  ∀ b i (E : InEdge), (G.get b).ins[i]? = some E →
    ∃ oe : OutEdge, (G.get E.source).outs[E.outSlot]? = some oe ∧ oe.target = b ∧ oe.inSlot = i

/-- Once the analysis has run, the frontier of a reached block holds reached blocks only. -/
theorem Analyzed.frontiersLive {G : BlockGraph} {e : Nat} (hA : G.Analyzed e) : G.FrontiersLive := by
  intro x y _ hy
  exact (hA.live_iff y).mpr ((hA.frontier_iff x y).mp hy).1

theorem SameShape.ops_eq {G H : BlockGraph} (h : H.SameShape G) (b : Nat) :
    (H.get b).ops = (G.get b).ops := by
  by_cases hb : b < H.size
  · exact (h.block b hb).ops
  · rw [get_of_size_le (Nat.le_of_not_lt hb), get_of_size_le (h.size ▸ Nat.le_of_not_lt hb)]

/-- Pairing of edges depends on the in- and out-edges alone. -/
theorem EdgesPaired.congr {G H : BlockGraph} (h : G.EdgesPaired)
    (hins : ∀ b, (H.get b).ins = (G.get b).ins) (houts : ∀ b, (H.get b).outs = (G.get b).outs) :
    H.EdgesPaired := by
  intro b i E hE
  rw [hins] at hE
  rw [houts]
  exact h b i E hE

/-- Pairing of edges reads of each out-edge its target and in-slot only, so the analysis keeps
it. -/
theorem EdgesPaired.of_sameShape {G H : BlockGraph} (h : G.EdgesPaired) (hs : H.SameShape G) :
    H.EdgesPaired := by
  intro b i E hE
  have hb : b < H.size := by
    by_contra hb
    rw [get_of_size_le (Nat.le_of_not_lt hb)] at hE
    simp at hE
  rw [(hs.block b hb).ins] at hE
  obtain ⟨oe, hoe, htgt, hslot⟩ := h b i E hE
  have hsrc : E.source < H.size := by
    by_contra hsrc
    rw [get_of_size_le (hs.size ▸ Nat.le_of_not_lt hsrc)] at hoe
    simp at hoe
  -- the out-edge of the same slot has the same target and in-slot
  have hmap := congrArg (fun l => l[E.outSlot]?) (hs.block E.source hsrc).outs
  simp only [Array.getElem?_map, hoe, Option.map_some] at hmap
  obtain ⟨oe', hoe', heq⟩ := Option.map_eq_some_iff.mp hmap
  simp only [Prod.mk.injEq] at heq
  exact ⟨oe', hoe', heq.1.trans htgt, heq.2.1.trans hslot⟩

/-! ## Checks on a given graph -/

/-- A graph is well formed when every edge out of a block and every edge into a block joins two
of its blocks and is seen from both ends. -/
theorem Wf.of_check {G : BlockGraph}
    (hs : ∀ a < G.size, ∀ b ∈ G.succs a, b < G.size ∧ a ∈ G.preds b)
    (hp : ∀ b < G.size, ∀ a ∈ G.preds b, a < G.size ∧ b ∈ G.succs a) : G.Wf := by
  have hsa : ∀ {a b : Nat}, b ∈ G.succs a → a < G.size := fun {a b} hab => by
    by_contra ha
    simp [succs, get_of_size_le (Nat.le_of_not_lt ha)] at hab
  have hpb : ∀ {a b : Nat}, a ∈ G.preds b → b < G.size := fun {a b} hab => by
    by_contra hb
    simp [preds, get_of_size_le (Nat.le_of_not_lt hb)] at hab
  refine ⟨fun hab => (hs _ (hsa hab) _ hab).1, fun {a b} => ⟨fun hab => ?_, fun hab => ?_⟩⟩
  · exact (hp b (hpb hab) a hab).2
  · exact (hs a (hsa hab) b hab).2

/-- The edges of a graph are paired when each in-edge of each block names an out-edge back to
it, at its own position. -/
theorem EdgesPaired.of_check {G : BlockGraph}
    (h : ∀ b < G.size, ∀ i < (G.get b).ins.size, ((G.get b).ins[i]?.any fun E =>
      ((G.get E.source).outs[E.outSlot]?).any fun oe => oe.target == b && oe.inSlot == i) = true) :
    G.EdgesPaired := by
  intro b i E hE
  have hb : b < G.size := by
    by_contra hb
    rw [get_of_size_le (Nat.le_of_not_lt hb)] at hE
    simp at hE
  have hc := h b hb i (Array.getElem?_eq_some_iff.mp hE).1
  rw [hE, Option.any_some] at hc
  obtain ⟨oe, hoe, hpair⟩ := (Option.any_eq_true _ _).mp hc
  simp only [Bool.and_eq_true, beq_iff_eq] at hpair
  exact ⟨oe, hoe, hpair.1, hpair.2⟩

end BlockGraph

namespace Function

theorem variableOf_eq_none {y : Varnode} :
    variableOf y = none ↔ y.flags.constant = true ∨ y.flags.annotation = true := by
  unfold variableOf
  cases hc : y.flags.constant <;> cases ha : y.flags.annotation <;> simp

/-! ## The promise -/

/-- `f` is in SSA form over the blocks reached from the entry `e`:

* every varnode is the output of at most one operation, and the output of an operation of a
  reached block names it as its definition;
* every read of an operation other than a merge in a reached block is a constant, a code
  address, an input of the function or the output of an operation;
* every merge of a reached block has one input per in-edge of its block, and the input of an
  in-edge from a reached block is an input of the function or the output of an operation;
* every read of a variable `k` by an operation other than a merge in a reached block is defined
  by the last operation writing `k` along every walk from the entry to the operation (the blocks'
  operations in order, merges included, the last block up to the operation), and is an input of
  the function when no operation along the walk writes `k`. -/
structure SsaForm (f : Function) (e : Nat) : Prop where
  output_unique : ∀ o o' x x' v, f.store.op? o = some x → f.store.op? o' = some x' →
    x.output = some v → x'.output = some v → o = o'
  output_def : ∀ b, f.graph.Live b → ∀ o ∈ (f.graph.get b).ops, ∀ x v, f.store.op? o = some x →
    x.output = some v → ∃ y, f.store.vn? v = some y ∧ y.defOp = some o
  reads_linked : ∀ b, f.graph.Live b → ∀ o ∈ (f.graph.get b).ops, f.isMerge o = false →
    ∀ x v, f.store.op? o = some x → v ∈ x.inputs → ∃ y, f.store.vn? v = some y ∧
      (y.flags.constant = true ∨ y.flags.annotation = true ∨ y.flags.input = true ∨
        y.defOp.isSome = true)
  merge_arity : ∀ b, f.graph.Live b → ∀ m ∈ (f.graph.get b).ops, f.isMerge m = true →
    ∀ x, f.store.op? m = some x → x.inputs.size = (f.graph.get b).ins.size
  merge_linked : ∀ b, f.graph.Live b → ∀ m ∈ (f.graph.get b).ops, f.isMerge m = true →
    ∀ x, f.store.op? m = some x → ∀ (i : Nat) (E : InEdge), (f.graph.get b).ins[i]? = some E →
      f.graph.Live E.source → ∃ v y, x.inputs[i]? = some v ∧ f.store.vn? v = some y ∧
        (y.flags.input = true ∨ y.defOp.isSome = true)
  reaching : ∀ b, f.graph.Live b → ∀ o ∈ (f.graph.get b).ops, f.isMerge o = false →
    ∀ x v y k, f.store.op? o = some x → v ∈ x.inputs → f.store.vn? v = some y →
      variableOf y = some k → ∀ p, f.graph.Walk e b p →
        lastWhere (f.writesKey k)
          (f.graph.runOps p.tail ++ (f.graph.get b).ops.toList.takeWhile (· != o)) = y.defOp

/-! ## Writers of a variable -/

/-- A reached block listing an operation that writes `k` is a writer of `k`. -/
theorem writes_of_writesKey {f : Function} {k : Location} {x o : Nat} (hx : f.graph.Live x)
    (ho : o ∈ (f.graph.get x).ops) (hw : f.writesKey k o = true) : f.Writes k x := by
  obtain ⟨v, y, hv, hy, hvar⟩ := writesKey_iff.mp hw
  obtain ⟨x', hx', hout⟩ := Option.bind_eq_some_iff.mp hv
  exact ⟨hx, o, ho, x', v, y, hx', hout, hy, hvar⟩

/-- An extension keeps the variable each operation of the function it extends writes. -/
theorem Extends.writesKey_eq {f g : Function} (hext : Extends f g) (hS : f.store.Sound) {o : Nat}
    (ho : o < f.store.ops.size) (k : Location) : g.writesKey k o = f.writesKey k o := by
  have hg := hext.ops o ho
  unfold writesKey outOf
  cases hx : f.store.op? o with
  | none =>
    rw [hx, Option.map_none, Option.map_eq_none_iff] at hg
    rw [hg]
    rfl
  | some x =>
    rw [hx] at hg
    obtain ⟨x', hx', hu⟩ := Option.map_eq_some_iff.mp hg
    have hout : x'.output = x.output := by simpa using congrArg Op.output hu
    rw [hx', Option.bind_some, Option.bind_some, hout]
    cases hv : x.output with
    | none => rfl
    | some v =>
      obtain ⟨y, hy, -⟩ := hS.linked.output_def hx hv
      obtain ⟨y', hy', hu'⟩ :=
        Store.vn?_of_node_eq (hext.nodes v (Store.lt_of_isSome_vn? (by simp [hy]))) hy
      have hvar : variableOf y' = variableOf y := by
        have h := congrArg variableOf hu'
        exact h
      simp only [Option.bind_some, hy, hy', Option.any_some, hvar]

theorem Extends.outs {f g : Function} (h : Extends f g) (b : Nat) :
    (g.graph.get b).outs = (f.graph.get b).outs := by
  have h' := congrArg Block.outs (h.shape b)
  exact h'

theorem isMerge_of_mergeKey {f : Function} {m : Nat} {k : Location} (h : f.mergeKey m = some k) :
    f.isMerge m = true := by
  unfold mergeKey at h
  obtain ⟨x, hx, hk⟩ := Option.bind_eq_some_iff.mp h
  split at hk
  · simp [isMerge, *]
  · cases hk

/-- A merge writing a variable is a merge of that variable. -/
theorem mergeKey_eq_of_writesKey {f : Function} {m : Nat} {k k' : Location}
    (hk' : f.mergeKey m = some k') (hw : f.writesKey k m = true) : k' = k := by
  obtain ⟨v, y, hv, hy, hvar⟩ := writesKey_iff.mp hw
  obtain ⟨x, hx, hout⟩ := Option.bind_eq_some_iff.mp hv
  unfold mergeKey at hk'
  rw [hx, Option.bind_some] at hk'
  split at hk'
  · rw [hout, Option.bind_some, hy, Option.map_some] at hk'
    rw [← Option.some.inj hk']
    exact (variableOf_eq_some.mp hvar).2.2
  · cases hk'

/-- A merge of a variable writes it, when its output names no code address and the variable is
no constant. -/
theorem writesKey_of_mergeKey {f : Function} (hS : f.store.Sound) {m : Nat} {k : Location}
    (hk : f.mergeKey m = some k) (hplain : f.OutputPlain m)
    (hc : k.addr.space ≠ f.store.constSpace) : f.writesKey k m = true := by
  unfold mergeKey at hk
  obtain ⟨x, hx, hk⟩ := Option.bind_eq_some_iff.mp hk
  split at hk
  · obtain ⟨yv, hyv, hloc⟩ := Option.map_eq_some_iff.mp hk
    obtain ⟨v, hv, hyv⟩ := Option.bind_eq_some_iff.mp hyv
    have hann := hplain x v hx hv
    simp only [Store.node, hyv, Option.map_some, Option.some.injEq, Varnode.unread_flags] at hann
    have hcon := hS.linked.constant hyv
    refine writesKey_iff.mpr ⟨v, yv, by simp [outOf, hx, hv], hyv,
      variableOf_eq_some.mpr ⟨?_, hann, hloc⟩⟩
    rw [hcon, hloc]
    simpa using hc
  · cases hk

/-- With the merges first in every block, a merge of a block is among its leading merges. -/
theorem MergesLead.mem_takeWhile {f : Function} (h : f.MergesLead) {b m : Nat}
    (hm : f.isMerge m = true) (hmem : m ∈ (f.graph.get b).ops.toList) :
    m ∈ (f.graph.get b).ops.toList.takeWhile f.isMerge := by
  obtain ⟨M, R, hops, hM, hR⟩ := h b
  rw [hops] at hmem ⊢
  rw [List.takeWhile_append_of_pos hM]
  rcases List.mem_append.mp hmem with hmem | hmem
  · exact List.mem_append_left _ hmem
  · rw [hR m hmem] at hm
    cases hm

/-- Readiness for SSA construction reads of the graph the block lists and the live blocks, and
asks the frontiers of live blocks to be live. -/
theorem SsaReady.congr_graph {f g : Function} (h : f.SsaReady) (hst : g.store = f.store)
    (hops : ∀ b, (g.graph.get b).ops = (f.graph.get b).ops)
    (hlive : ∀ b, g.graph.Live b → f.graph.Live b) (hF : g.graph.FrontiersLive) : g.SsaReady where
  sound := by rw [hst]; exact h.sound
  blocks :=
    { member := fun {b o} ho => by
        rw [hops] at ho
        rw [hst]
        exact h.blocks.member ho
      listed := fun {o x b} hx hp => by
        rw [hops]
        rw [hst] at hx
        exact h.blocks.listed hx hp
      nodup := fun b => by
        rw [hops]
        exact h.blocks.nodup b }
  noMerges o x hx := by
    rw [hst] at hx
    exact h.noMerges o x hx
  frontiers := hF
  readsFree b hb o ho x v y hx hv hy := by
    rw [hops] at ho
    rw [hst] at hx hy
    exact h.readsFree b (hlive b hb) o ho x v y hx hv hy

/-! ## The stages -/

/-- The inputs of the merges placed are free reads of the variables collected. -/
theorem AllPlaced.mergeReadsRenamed {f₀ f₁ : Function} (h : AllPlaced f₀ f₁ f₀.collectVariables)
    (hR : f₀.SsaReady) : f₁.MergeReadsRenamed (f₀.collectVariables.map Prod.fst) := by
  intro m x₁ hm hx₁ v hv
  obtain ⟨hle, hlt⟩ := (h.isMerge_iff hR.noMerges).mp hm
  obtain ⟨k, b, hk⟩ := h.new m hle hlt
  have hlisted := (h.listed hR.blocks hk hle).2
  have hkey := hk.mergeKey
  obtain ⟨x, hx, -, -, -, -, hin, -⟩ := hk
  rw [hx₁] at hx
  cases hx
  obtain ⟨y, hy, hyu⟩ := Option.map_eq_some_iff.mp (hin v hv)
  -- the merge lists `k` at its block, so `k` was collected
  have hkK : k ∈ f₀.collectVariables.map Prod.fst := by
    have hmk : m ∈ f₁.mergesOf k b :=
      List.mem_filter.mpr ⟨Array.mem_toList_iff.mpr hlisted, by simp [hkey]⟩
    obtain ⟨ws, hws, -⟩ := ((h.keyed k b).2.mp (List.ne_nil_of_mem hmk))
    exact List.mem_map.mpr ⟨(k, ws), hws, rfl⟩
  refine ⟨k, y, hy, ?_, ?_, hkK⟩
  · rw [← Varnode.unread_isFree, hyu]
    rfl
  · show variableOf y.unread = some k
    rw [hyu]
    rfl

/-- What the stages of SSA construction leave from `f`: the merges placed in `f₁`, renaming from
the entry `e` finished in `f₂` with stacks `st`, and `g` pruned from `f₂` by the merges `D` and
swept. The sweep and pruning keep every varnode that no destroyed merge outputs and that is
left. -/
structure Built (f f₁ f₂ g : Function) (st : Stacks) (e : Nat) (D : List Nat) : Prop where
  ready : f.SsaReady
  analyzed : f₁.graph.Analyzed e
  placed : AllPlaced f f₁ f.collectVariables
  progress : f₁.Progress e (f.collectVariables.map Prod.fst) f₂ st (f₁.InSubtree e e)
    (f₁.graph.Below e e)
  pruned : MergesPruned f₂ g D
  node : ∀ v, (∀ m ∈ D, ∀ x, f₂.store.op? m = some x → x.output ≠ some v) →
    (g.store.vn? v).isSome → g.store.node v = f₂.store.node v

/-- **The stages.** On a function ready for SSA construction whose graph the dominator analysis
has run on, SSA construction succeeds, through placement, renaming, pruning and the sweep. -/
theorem buildSsa_built {f : Function} {e : Nat} (hR : f.SsaReady) (hA : f.graph.Analyzed e)
    (he : f.graph.entry = some e) :
    ∃ f₁ f₂ g st D, f.buildSsa = .ok g ∧ Built f f₁ f₂ g st e D := by
  obtain ⟨f₁, h₁, hP, -⟩ := placeAll_placed hR
  have hA₁ : f₁.graph.Analyzed e := hA.of_shape hP.ext.size hP.ext.shape
  have hK := (collectVariables_spec hR.sound hR.blocks hR.readsFree).1.nodup
  obtain ⟨⟨f₂, st⟩, h₂, hPr⟩ := renameAll_progress hP.sound hP.blocks hA₁ hK
    (hP.mergeReadsRenamed hR) f.collectVariables rfl
  have hR₂ := hPr.renamed
  have hB₂ := hR₂.blocksHold hP.blocks
  have hL₂ := hR₂.mergesListed (hP.mergesListed hR.blocks hR.noMerges)
  obtain ⟨f₃, D, h₃, hsort, hD, hdrop₃⟩ := pruneMerges_spec hR₂.sound hB₂ hL₂
  obtain ⟨g, hg, hgraph, hsw⟩ := buildSsa_of_stages he h₁ h₂ h₃ hdrop₃.sound
  have hdrop := hdrop₃.swept hgraph hsw
  have hBg := hdrop.blocksHold hB₂
  refine ⟨f₁, f₂, g, st, D, hg, hR, hA₁, hP, hPr,
    ⟨hsort, hD, hdrop, hBg, fun m hm b hmem => ?_, fun m hm x v hx hv u y hy =>
      hdrop.unread hL₂ hD hm hx hv hy, fun v y hy hf => hsw.uses_ne hy hf⟩, fun v hv hsome => ?_⟩
  · obtain ⟨x, hx, -⟩ := hBg.member hmem
    rw [hdrop.gone m hm] at hx
    cases hx
  · -- the sweep deletes only what it does not keep, and pruning touches no other varnode
    have hp := pruneMerges_node hR₂.sound hL₂ h₃ fun m hm => hv m ((hD m).mpr hm)
    have hvn := hsw.vn v
    split at hvn
    · rw [hvn] at hsome
      cases hsome
    · rw [← hp]
      simp only [Store.node, hvn]

/-! ## From the result back to renaming -/

section Transfer

variable {f f₁ f₂ g : Function} {st : Stacks} {e : Nat} {D : List Nat}

theorem Built.sound (hb : Built f f₁ f₂ g st e D) : g.store.Sound :=
  hb.pruned.dropped.sound

/-- The graph of the result is the graph renaming ran on, without the destroyed merges. -/
theorem Built.thinned (hb : Built f f₁ f₂ g st e D) :
    f₁.graph.Thinned (fun o => !D.contains o) g.graph := by
  rw [← hb.progress.renamed.graph]
  exact hb.pruned.dropped.graph

theorem Built.live_iff (hb : Built f f₁ f₂ g st e D) (b : Nat) :
    g.graph.Live b ↔ f₁.graph.Reaches e b :=
  (hb.thinned.live_iff b).trans (hb.analyzed.live_iff b)

theorem Built.mem_ops (hb : Built f f₁ f₂ g st e D) {b u : Nat} :
    u ∈ (g.graph.get b).ops ↔ u ∈ (f₁.graph.get b).ops ∧ u ∉ D := by
  rw [← Array.mem_toList_iff, hb.thinned.ops, List.mem_filter, Array.mem_toList_iff]
  simp

/-- An operation of the result is one renaming left, with its inputs and output, and no
destroyed merge. -/
theorem Built.op_kept (hb : Built f f₁ f₂ g st e D) {u : Nat} {y : Op}
    (hy : g.store.op? u = some y) : u ∉ D ∧ ∃ y₂, f₂.store.op? u = some y₂ ∧ y₂.unstarted = y.unstarted := by
  have hu : u ∉ D := fun hu => by
    rw [hb.pruned.dropped.gone u hu] at hy
    cases hy
  have hk := hb.pruned.dropped.kept u hu
  rw [hy, Option.map_some] at hk
  exact ⟨hu, Option.map_eq_some_iff.mp hk.symm⟩

theorem Built.isMerge_eq (hb : Built f f₁ f₂ g st e D) {u : Nat} (hu : u ∉ D) :
    g.isMerge u = f₁.isMerge u :=
  (isMerge_eq_of_unstarted (hb.pruned.dropped.kept u hu)).trans (hb.progress.renamed.isMerge_eq u)

/-- A varnode an operation of the result reads is the varnode renaming left. -/
theorem Built.input_node (hb : Built f f₁ f₂ g st e D) {u w : Nat} {y : Op}
    (hy : g.store.op? u = some y) (hw : w ∈ y.inputs) : g.store.node w = f₂.store.node w :=
  hb.node w (fun m hm x hx hv => hb.pruned.unread m hm x w hx hv u y hy hw)
    (hb.sound.linked.input_exists hy hw)

/-- A varnode an operation of the result reads, kept by placement's function, is the varnode
placement left. -/
theorem Built.input_node₁ (hb : Built f f₁ f₂ g st e D) {u w : Nat} {y : Op}
    (hy : g.store.op? u = some y) (hw : w ∈ y.inputs) {y₁ : Varnode}
    (hy₁ : f₁.store.vn? w = some y₁) : g.store.node w = f₁.store.node w := by
  have hn := hb.input_node hy hw
  have hsome : (f₂.store.vn? w).isSome := by
    obtain ⟨yg, hyg⟩ := Option.isSome_iff_exists.mp (hb.sound.linked.input_exists hy hw)
    have h : (f₂.store.node w).isSome := by
      rw [← hn]
      simp [Store.node, hyg]
    simpa [Store.node] using h
  exact hn.trans (hb.progress.keeps.node_eq hy₁ (.inl hsome))

/-- No destroyed merge writes what an operation of the result reads. -/
theorem Built.not_mem_of_outOf (hb : Built f f₁ f₂ g st e D) {u w d : Nat} {y : Op}
    (hy : g.store.op? u = some y) (hw : w ∈ y.inputs) (hd : f₁.outOf d = some w) : d ∉ D := by
  intro hdD
  obtain ⟨x₁, hx₁, hout₁⟩ := Option.bind_eq_some_iff.mp hd
  obtain ⟨x₂, hx₂, hsk⟩ := hb.progress.renamed.op_of_start hx₁
  have hout₂ : x₂.output = some w := by rw [← Op.skeleton_output, hsk, Op.skeleton_output, hout₁]
  exact hb.pruned.unread d hdD x₂ w hx₂ hout₂ u y hy hw

/-- The output of an operation of placement's function that an operation of the result reads is
defined in the result by that operation. -/
theorem Built.defOp_of_outOf (hb : Built f f₁ f₂ g st e D) {u w d : Nat} {y : Op}
    (hy : g.store.op? u = some y) (hw : w ∈ y.inputs) (hd : f₁.outOf d = some w) :
    ∃ yw, g.store.vn? w = some yw ∧ yw.defOp = some d := by
  obtain ⟨x₁, hx₁, hout₁⟩ := Option.bind_eq_some_iff.mp hd
  obtain ⟨x₂, hx₂, hsk⟩ := hb.progress.renamed.op_of_start hx₁
  have hout₂ : x₂.output = some w := by rw [← Op.skeleton_output, hsk, Op.skeleton_output, hout₁]
  have hk := hb.pruned.dropped.kept d (hb.not_mem_of_outOf hy hw hd)
  rw [hx₂, Option.map_some] at hk
  obtain ⟨xg, hxg, hu⟩ := Option.map_eq_some_iff.mp hk
  have houtg : xg.output = some w := by rw [← Op.unstarted_output, hu, Op.unstarted_output, hout₂]
  exact hb.sound.linked.output_def hxg houtg

/-- The output of an operation of the result is the varnode renaming left: it is no destroyed
merge's output. -/
theorem Built.output_node (hb : Built f f₁ f₂ g st e D) {u w : Nat} {y : Op}
    (hy : g.store.op? u = some y) (hw : y.output = some w) : g.store.node w = f₂.store.node w := by
  obtain ⟨hu, y₂, hy₂, hyu⟩ := hb.op_kept hy
  have hw₂ : y₂.output = some w := by rw [← Op.unstarted_output, hyu, Op.unstarted_output, hw]
  refine hb.node w (fun m hm x hx hv => ?_) ?_
  · exact hu (hb.progress.renamed.sound.linked.output_inj hx hy₂ hv hw₂ ▸ hm)
  · obtain ⟨yw, hyw, -⟩ := hb.sound.linked.output_def hy hw
    simp [hyw]

/-- Operations other than the destroyed merges write in the result the variables they write in
placement's function. -/
theorem Built.writesKey_eq (hb : Built f f₁ f₂ g st e D) {a : Nat} (ha : a ∉ D) (k : Location) :
    g.writesKey k a = f₁.writesKey k a := by
  rw [← hb.progress.renamed.writesKey_eq hb.placed.sound hb.progress.keeps k a]
  have hkept := hb.pruned.dropped.kept a ha
  unfold writesKey outOf
  cases hx₂ : f₂.store.op? a with
  | none =>
    rw [hx₂, Option.map_none, Option.map_eq_none_iff] at hkept
    rw [hkept]
    rfl
  | some x₂ =>
    rw [hx₂, Option.map_some] at hkept
    obtain ⟨x, hx, hu⟩ := Option.map_eq_some_iff.mp hkept
    have hout : x.output = x₂.output := by rw [← Op.unstarted_output, hu, Op.unstarted_output]
    rw [hx, Option.bind_some, Option.bind_some, hout]
    cases hv : x₂.output with
    | none => rfl
    | some v =>
      obtain ⟨yg, hyg, -⟩ := hb.sound.linked.output_def hx (hout.trans hv)
      obtain ⟨y₂, hy₂, hu'⟩ := Store.vn?_of_node_eq (hb.output_node hx (hout.trans hv)).symm hyg
      have hvar : variableOf y₂ = variableOf yg := by
        have h := congrArg variableOf hu'
        exact h
      simp only [Option.bind_some, hyg, hy₂, Option.any_some, hvar]

/-- An operation of the result has as many inputs as in placement's function. -/
theorem Built.inputs_size (hb : Built f f₁ f₂ g st e D) {u : Nat} {y : Op}
    (hy : g.store.op? u = some y) : ∃ x₁, f₁.store.op? u = some x₁ ∧ y.inputs.size = x₁.inputs.size := by
  obtain ⟨-, y₂, hy₂, hu⟩ := hb.op_kept hy
  obtain ⟨x₁, hx₁, hsk⟩ := hb.progress.renamed.op_to_start hy₂
  refine ⟨x₁, hx₁, ?_⟩
  rw [← Op.unstarted_inputs y, ← hu, Op.unstarted_inputs, ← Op.skeleton_inputs_size, hsk,
    Op.skeleton_inputs_size]

/-- A merge of a block of the result is a merge placement put there. -/
theorem Built.merge_isMerge (hb : Built f f₁ f₂ g st e D) {b m : Nat}
    (hm : m ∈ (g.graph.get b).ops) (hmerge : g.isMerge m = true) : ∃ k, f₁.IsMerge k b m := by
  obtain ⟨hmb, hmD⟩ := hb.mem_ops.mp hm
  rw [hb.isMerge_eq hmD] at hmerge
  obtain ⟨hle, hlt⟩ := (hb.placed.isMerge_iff hb.ready.noMerges).mp hmerge
  obtain ⟨k, c, hk⟩ := hb.placed.new m hle hlt
  rw [hb.placed.blocks.eq_of_mem hmb (hb.placed.listed hb.ready.blocks hk hle).2]
  exact ⟨k, hk⟩

/-! ## Reads of the result -/

/-- What renaming put in a slot of an operation of a reached block, other than a merge: in place
of the read the slot had in placement's function, what `Function.SlotOk` decides after the
operations that run before it along the dominator chain. -/
theorem Built.slotOk (hb : Built f f₁ f₂ g st e D) {b o : Nat} (hlive : g.graph.Live b)
    (ho : o ∈ (g.graph.get b).ops) (hm : g.isMerge o = false) {x : Op}
    (hx : g.store.op? o = some x) {v : Nat} (hv : v ∈ x.inputs) :
    ∃ q x₁ v₁, f₁.graph.DomChain e b q ∧ f₁.store.op? o = some x₁ ∧ v₁ ∈ x₁.inputs ∧
      f₁.SlotOk (f.collectVariables.map Prod.fst) f₂.store (f₁.runBefore q b o) v₁ v := by
  obtain ⟨hoD, x₂, hx₂, hxu⟩ := hb.op_kept hx
  have hob := (hb.mem_ops.mp ho).1
  have hr := (hb.live_iff b).mp hlive
  obtain ⟨q, hq⟩ := hb.analyzed.exists_domChain hr
  obtain ⟨x₁, hx₁, -⟩ := hb.progress.renamed.op_to_start hx₂
  -- every reached block is done once the walk is over
  have hok := hb.progress.done o ⟨b, (BlockGraph.below_entry_iff hb.analyzed).mpr hr, hob⟩
    (by rw [← hb.isMerge_eq hoD]; exact hm) b q hq hob x₁ x₂ hx₁ hx₂
  have hv₂ : v ∈ x₂.inputs := by rw [← Op.unstarted_inputs, hxu, Op.unstarted_inputs]; exact hv
  obtain ⟨i, hi⟩ := Array.mem_iff_getElem?.mp hv₂
  have hlt : i < x₁.inputs.size := hok.1 ▸ (Array.getElem?_eq_some_iff.mp hi).1
  obtain ⟨w, hw, hslot⟩ := hok.2 i x₁.inputs[i] (Array.getElem?_eq_getElem hlt)
  rw [hi] at hw
  cases hw
  exact ⟨q, x₁, x₁.inputs[i], hq, hx₁, Array.getElem_mem hlt, hslot⟩

/-- A read that placement leaves to an operation of a reached block, other than a merge, is one
renaming rewrites, or a constant or code address. -/
theorem Built.read_cases (hb : Built f f₁ f₂ g st e D) {b o : Nat} (hr : f₁.graph.Reaches e b)
    (ho : o ∈ (f₁.graph.get b).ops) (hm : f₁.isMerge o = false) {x₁ : Op}
    (hx₁ : f₁.store.op? o = some x₁) {v₁ : Nat} (hv₁ : v₁ ∈ x₁.inputs) :
    (∃ k, f₁.RenamesTo (f.collectVariables.map Prod.fst) v₁ k) ∨
      ∃ y₁, f₁.store.vn? v₁ = some y₁ ∧ variableOf y₁ = none := by
  have hP := hb.placed
  -- placement created merges only, so `o` is an operation of `f`, listed by the same block
  obtain ⟨x₀, hx₀, hins⟩ := hP.op_of_not_merge hb.ready.noMerges hx₁ hm
  have hv₀ : v₁ ∈ x₀.inputs := hins ▸ hv₁
  have hlive₀ : f.graph.Live b := (hP.ext.live_iff b).mp ((hb.analyzed.live_iff b).mpr hr)
  have ho₀ : o ∈ (f.graph.get b).ops := by
    obtain ⟨M, hops, hM⟩ := hP.top b
    have hmem := Array.mem_toList_iff.mpr ho
    rw [hops, List.mem_append] at hmem
    rcases hmem with hmem | hmem
    · obtain ⟨-, k, hk⟩ := hM o hmem
      rw [hk.isMerge] at hm
      cases hm
    · exact Array.mem_toList_iff.mp hmem
  obtain ⟨y₀, hy₀⟩ := Option.isSome_iff_exists.mp (hb.ready.sound.linked.input_exists hx₀ hv₀)
  have hfree := hb.ready.readsFree b hlive₀ o ho₀ x₀ v₁ y₀ hx₀ hv₀ hy₀
  obtain ⟨y₁, hy₁, hyu⟩ :=
    Store.vn?_of_node_eq (hP.ext.nodes v₁ (Store.lt_of_isSome_vn? (by simp [hy₀]))) hy₀
  have hvar : variableOf y₁ = variableOf y₀ := by
    have h := congrArg variableOf hyu
    exact h
  cases hk : variableOf y₀ with
  | none => exact .inr ⟨y₁, hy₁, hvar.trans hk⟩
  | some k =>
    -- a read of a variable is free before renaming, and its variable was collected
    obtain ⟨hc, ha, -⟩ := variableOf_eq_some.mp hk
    have hfree₀ : y₀.isFree = true := by
      rcases hfree with h | h | h
      · exact h
      · rw [hc] at h
        cases h
      · rw [ha] at h
        cases h
    have hkK : k ∈ f.collectVariables.map Prod.fst :=
      ((collectVariables_spec hb.ready.sound hb.ready.blocks hb.ready.readsFree).2.1 k).mpr
        ⟨b, hlive₀, o, ho₀, x₀, v₁, y₀, hx₀, hv₀, hy₀, hk⟩
    refine .inl ⟨k, y₁, hy₁, ?_, hvar.trans hk, hkK⟩
    rw [← Varnode.unread_isFree, hyu, Varnode.unread_isFree]
    exact hfree₀

/-- A settled varnode an operation of the result reads is an input of the function or the
output of an operation. -/
theorem Built.settled_linked (hb : Built f f₁ f₂ g st e D) {u w : Nat} {y : Op}
    (hy : g.store.op? u = some y) (hw : w ∈ y.inputs) (hs : f₁.Settled f₂.store w) :
    ∃ yw, g.store.vn? w = some yw ∧ (yw.flags.input = true ∨ yw.defOp.isSome = true) := by
  rcases hs with ⟨k, y₂, hy₂, hin, -⟩ | ⟨d, hd⟩
  · obtain ⟨yw, hyw, hu⟩ := Store.vn?_of_node_eq (hb.input_node hy hw) hy₂
    refine ⟨yw, hyw, .inl ?_⟩
    rw [← Varnode.unread_flags, hu, Varnode.unread_flags]
    exact hin
  · obtain ⟨yw, hyw, hdef⟩ := hb.defOp_of_outOf hy hw hd
    exact ⟨yw, hyw, .inr (by simp [hdef])⟩

/-- A read renamed to variable `k` takes in the result a varnode of `k`. -/
theorem Built.readsAfter_variable (hb : Built f f₁ f₂ g st e D) {u w : Nat} {x : Op}
    (hx : g.store.op? u = some x) (hw : w ∈ x.inputs) {L : List Nat} {k : Location}
    (h : f₁.ReadsAfter f₂.store L k w) {y : Varnode} (hy : g.store.vn? w = some y) :
    variableOf y = some k := by
  cases hl : lastWhere (f₁.writesKey k) L with
  | some d =>
    obtain ⟨v, y₁, hv, hy₁, hvar⟩ := writesKey_iff.mp (lastWhere_mark hl).2
    rw [h.1 d hl] at hv
    cases hv
    obtain ⟨y', hy', hu⟩ := Store.vn?_of_node_eq (hb.input_node₁ hx hw hy₁) hy₁
    rw [hy] at hy'
    cases hy'
    have h' := congrArg variableOf hu
    exact h'.trans hvar
  | none =>
    obtain ⟨y₂, hy₂, -, hvar⟩ := h.2 hl
    obtain ⟨y', hy', hu⟩ := Store.vn?_of_node_eq (hb.input_node hx hw) hy₂
    rw [hy] at hy'
    cases hy'
    have h' := congrArg variableOf hu
    exact h'.trans hvar

/-- A read renamed to variable `k` takes in the result the output of the last writer of `k`
before it, or an input when there is none. -/
theorem Built.readsAfter_defOp (hb : Built f f₁ f₂ g st e D) {u w : Nat} {x : Op}
    (hx : g.store.op? u = some x) (hw : w ∈ x.inputs) {L : List Nat} {k : Location}
    (h : f₁.ReadsAfter f₂.store L k w) {y : Varnode} (hy : g.store.vn? w = some y) :
    lastWhere (f₁.writesKey k) L = y.defOp := by
  cases hl : lastWhere (f₁.writesKey k) L with
  | some d =>
    obtain ⟨y', hy', hdef⟩ := hb.defOp_of_outOf hx hw (h.1 d hl)
    rw [hy] at hy'
    cases hy'
    exact hdef.symm
  | none =>
    obtain ⟨y₂, hy₂, hin, -⟩ := h.2 hl
    obtain ⟨y', hy', hu⟩ := Store.vn?_of_node_eq (hb.input_node hx hw) hy₂
    rw [hy] at hy'
    cases hy'
    have hin' : y.flags.input = true := by
      rw [← Varnode.unread_flags, hu, Varnode.unread_flags]
      exact hin
    exact (hb.sound.linked.input_undef hy hin').symm

/-- Every block in the dominance frontier of a block that writes a variable read in a reached
block has a merge of that variable among its leading merges: the merges were placed at the
iterated frontier of the writers, and a merge placed is a writer too. -/
theorem Built.frontier_marks (hb : Built f f₁ f₂ g st e D) {k : Location} (hk : f.ReadsKey k) :
    ∀ x y, (∃ o ∈ (f₁.graph.get x).ops.toList, f₁.writesKey k o = true) →
      f₁.graph.InFrontier e x y →
      ∃ m ∈ (f₁.graph.get y).ops.toList.takeWhile f₁.isMerge, f₁.writesKey k m = true := by
  intro x y hx hxy
  obtain ⟨o, ho, hw⟩ := hx
  have hP := hb.placed
  -- `x` dominates a reached predecessor of `y`, so it is reached
  have hfr : y ∈ (f.graph.get x).frontier := by
    rw [← hP.ext.frontier]
    exact (hb.analyzed.frontier_iff x y).mpr hxy
  obtain ⟨-, ⟨P, -, hPr, hdom⟩, -⟩ := hxy
  have hlive : f.graph.Live x :=
    (hP.ext.live_iff x).mp ((hb.analyzed.live_iff x).mpr (hdom.reaches hPr))
  have hidf : f.graph.InIdf (f.Writes k) y := by
    obtain ⟨M, hops, hM⟩ := hP.top x
    have ho' := ho
    rw [hops, List.mem_append] at ho'
    rcases ho' with hoM | hoM
    · -- a merge of `k` placed at `x` puts `x` in the iterated frontier of the writers of `k`
      obtain ⟨-, k', hk'⟩ := hM o hoM
      have hkey := hk'.mergeKey
      obtain rfl := mergeKey_eq_of_writesKey hkey hw
      have hmk : o ∈ f₁.mergesOf k' x := List.mem_filter.mpr ⟨ho, by simp [hkey]⟩
      obtain ⟨ws, hws, hidf⟩ := (hP.keyed k' x).2.mp (List.ne_nil_of_mem hmk)
      exact .iterate ((exists_collected_iff hb.ready k' x).mp ⟨ws, hws, hidf⟩).2 hfr
    · -- an operation of `f` writing `k` makes `x` a writer
      have hlt := hb.ready.blocks.lt_size (Array.mem_toList_iff.mp hoM)
      rw [hP.ext.writesKey_eq hb.ready.sound hlt] at hw
      exact .frontier (writes_of_writesKey hlive (Array.mem_toList_iff.mp hoM) hw) hfr
  -- so placement put a merge of `k` at `y`
  obtain ⟨m, hm⟩ := List.exists_mem_of_ne_nil _
    ((hP.keyed k y).2.mpr ((exists_collected_iff hb.ready k y).mpr ⟨hk, hidf⟩))
  obtain ⟨hmy, hkm⟩ := List.mem_filter.mp hm
  have hkey : f₁.mergeKey m = some k := by simpa using hkm
  have hmerge := isMerge_of_mergeKey hkey
  have hle := ((hP.isMerge_iff hb.ready.noMerges).mp hmerge).1
  refine ⟨m, (hP.mergesLead hb.ready.blocks hb.ready.noMerges).mem_takeWhile hmerge hmy, ?_⟩
  refine writesKey_of_mergeKey hP.sound hkey (hP.plain m hle) ?_
  rw [hP.ext.constSpace]
  exact hk.space_ne hb.ready.sound

/-! ## The promise kept -/

theorem Built.edgesPaired (hb : Built f f₁ f₂ g st e D) (hE : f.graph.EdgesPaired) :
    f₁.graph.EdgesPaired :=
  hE.congr hb.placed.ext.ins hb.placed.ext.outs

theorem Built.reads_linked (hb : Built f f₁ f₂ g st e D) {b o : Nat} (hlive : g.graph.Live b)
    (ho : o ∈ (g.graph.get b).ops) (hm : g.isMerge o = false) {x : Op} {v : Nat}
    (hx : g.store.op? o = some x) (hv : v ∈ x.inputs) :
    ∃ y, g.store.vn? v = some y ∧ (y.flags.constant = true ∨ y.flags.annotation = true ∨
      y.flags.input = true ∨ y.defOp.isSome = true) := by
  obtain ⟨q, x₁, v₁, -, hx₁, hv₁, hslot⟩ := hb.slotOk hlive ho hm hx hv
  obtain ⟨hob, hoD⟩ := hb.mem_ops.mp ho
  rcases hb.read_cases ((hb.live_iff b).mp hlive) hob (by rw [← hb.isMerge_eq hoD]; exact hm)
    hx₁ hv₁ with ⟨k, hk⟩ | ⟨y₁, hy₁, hvar⟩
  · -- a renamed read takes an input or the output of a writer
    obtain ⟨yw, hyw, h⟩ := hb.settled_linked hx hv (hslot.1 k hk).settled
    exact ⟨yw, hyw, .inr (.inr h)⟩
  · -- a constant or code address is left as it was
    have hvv : v = v₁ := hslot.2 fun k hk => by
      obtain ⟨y', hy', -, hk', -⟩ := hk
      rw [hy₁] at hy'
      cases hy'
      rw [hvar] at hk'
      cases hk'
    subst hvv
    obtain ⟨yg, hyg, hu⟩ := Store.vn?_of_node_eq (hb.input_node₁ hx hv hy₁) hy₁
    have hvarg : variableOf yg = none := by
      have h := congrArg variableOf hu
      exact h.trans hvar
    exact ⟨yg, hyg, (variableOf_eq_none.mp hvarg).elim .inl fun h => .inr (.inl h)⟩

theorem Built.merge_arity (hb : Built f f₁ f₂ g st e D) {b m : Nat}
    (hm : m ∈ (g.graph.get b).ops) (hmerge : g.isMerge m = true) {x : Op}
    (hx : g.store.op? m = some x) : x.inputs.size = (g.graph.get b).ins.size := by
  obtain ⟨k, x₁, hx₁, -, -, -, hins, -⟩ := hb.merge_isMerge hm hmerge
  obtain ⟨x₁', hx₁', hsize⟩ := hb.inputs_size hx
  rw [hx₁] at hx₁'
  cases hx₁'
  rw [hsize, hins, hb.thinned.get_ins]

theorem Built.merge_linked (hb : Built f f₁ f₂ g st e D) (hE : f₁.graph.EdgesPaired) {b m : Nat}
    (hm : m ∈ (g.graph.get b).ops) (hmerge : g.isMerge m = true) {x : Op}
    (hx : g.store.op? m = some x) {i : Nat} {E : InEdge} (hEi : (g.graph.get b).ins[i]? = some E)
    (hsrc : g.graph.Live E.source) :
    ∃ v y, x.inputs[i]? = some v ∧ g.store.vn? v = some y ∧
      (y.flags.input = true ∨ y.defOp.isSome = true) := by
  obtain ⟨hmb, hmD⟩ := hb.mem_ops.mp hm
  have hlt : i < x.inputs.size := by
    rw [hb.merge_arity hm hmerge hx]
    exact (Array.getElem?_eq_some_iff.mp hEi).1
  rw [hb.thinned.get_ins] at hEi
  obtain ⟨oe, hoe, htgt, hslot⟩ := hE b i E hEi
  obtain ⟨-, x₂, hx₂, hxu⟩ := hb.op_kept hx
  have hw₂ : x₂.inputs[oe.inSlot]? = some x.inputs[i] := by
    rw [hslot, ← Op.unstarted_inputs x₂, hxu, Op.unstarted_inputs]
    exact Array.getElem?_eq_getElem hlt
  -- the merge leads its block, and renaming went through the out-edges of every reached block
  have hlead : m ∈ (f₁.graph.get oe.target).ops.toList.takeWhile f₁.isMerge := by
    rw [htgt]
    exact (hb.placed.mergesLead hb.ready.blocks hb.ready.noMerges).mem_takeWhile
      (by rw [← hb.isMerge_eq hmD]; exact hmerge) (Array.mem_toList_iff.mpr hmb)
  have hdone : f₁.graph.Below e e E.source :=
    (BlockGraph.below_entry_iff hb.analyzed).mpr ((hb.live_iff _).mp hsrc)
  have hs := hb.progress.edges E.source hdone oe (Array.mem_of_getElem? hoe) m hlead x₂ _ hx₂ hw₂
  obtain ⟨yw, hyw, h⟩ := hb.settled_linked hx (Array.getElem_mem hlt) hs
  exact ⟨x.inputs[i], yw, Array.getElem?_eq_getElem hlt, hyw, h⟩

theorem Built.reaching (hb : Built f f₁ f₂ g st e D) {b o : Nat} (hlive : g.graph.Live b)
    (ho : o ∈ (g.graph.get b).ops) (hm : g.isMerge o = false) {x : Op} {v : Nat} {y : Varnode}
    {k : Location} (hx : g.store.op? o = some x) (hv : v ∈ x.inputs) (hy : g.store.vn? v = some y)
    (hk : variableOf y = some k) {p : List Nat} (hp : g.graph.Walk e b p) :
    lastWhere (g.writesKey k)
      (g.graph.runOps p.tail ++ (g.graph.get b).ops.toList.takeWhile (· != o)) = y.defOp := by
  obtain ⟨hob, hoD⟩ := hb.mem_ops.mp ho
  have hm₁ : f₁.isMerge o = false := by rw [← hb.isMerge_eq hoD]; exact hm
  obtain ⟨q, x₁, v₁, hq, hx₁, hv₁, hslot⟩ := hb.slotOk hlive ho hm hx hv
  -- the read is one renaming rewrites: a constant or code address names no variable
  obtain ⟨k', hk'⟩ : ∃ k', f₁.RenamesTo (f.collectVariables.map Prod.fst) v₁ k' := by
    rcases hb.read_cases ((hb.live_iff b).mp hlive) hob hm₁ hx₁ hv₁ with h | ⟨y₁, hy₁, hvar⟩
    · exact h
    · have hvv : v = v₁ := hslot.2 fun k hk => by
        obtain ⟨y', hy', -, hk', -⟩ := hk
        rw [hy₁] at hy'
        cases hy'
        rw [hvar] at hk'
        cases hk'
      subst hvv
      obtain ⟨yg, hyg, hu⟩ := Store.vn?_of_node_eq (hb.input_node₁ hx hv hy₁) hy₁
      rw [hy] at hyg
      cases hyg
      have h : variableOf y = variableOf y₁ := by
        have h := congrArg variableOf hu
        exact h
      rw [hk, hvar] at h
      cases h
  have hread := hslot.1 k' hk'
  obtain rfl : k' = k := Option.some.inj ((hb.readsAfter_variable hx hv hread hy).symm.trans hk)
  obtain ⟨-, -, -, -, hkK⟩ := hk'
  have hkey : f.ReadsKey k' :=
    ((collectVariables_spec hb.ready.sound hb.ready.blocks hb.ready.readsFree).2.1 k').mp hkK
  -- along the walk, in the graph renaming ran on, the last writer is the one along the chain
  have hp₁ : f₁.graph.Walk e b p := (BlockGraph.walk_congr hb.thinned.succs).mp hp
  have hpre : (f₁.graph.get b).ops.toList.takeWhile f₁.isMerge ⊆
      (f₁.graph.get b).ops.toList.takeWhile (· != o) :=
    takeWhile_subset_of_imp (fun a ha => by
      have hao : a ≠ o := by
        rintro rfl
        rw [hm₁] at ha
        cases ha
      simpa using hao) _
  have hwalk := BlockGraph.lastWhere_walk_before hb.analyzed (f₁.writesKey k')
    (fun c => (f₁.graph.get c).ops.toList.takeWhile f₁.isMerge) (fun c => List.takeWhile_subset _)
    (hb.frontier_marks hkey) hp₁ hq hpre
  -- the walk of the result is that walk with the destroyed merges taken out
  have hthin : g.graph.runOps p.tail ++ (g.graph.get b).ops.toList.takeWhile (· != o) =
      (f₁.graph.runOps p.tail ++ (f₁.graph.get b).ops.toList.takeWhile (· != o)).filter
        fun a => !D.contains a := by
    rw [hb.thinned.runOps, hb.thinned.ops, takeWhile_filter_ne (by simpa using hoD),
      List.filter_append]
  rw [hthin]
  calc lastWhere (g.writesKey k') ((f₁.graph.runOps p.tail ++
          (f₁.graph.get b).ops.toList.takeWhile (· != o)).filter fun a => !D.contains a)
      = lastWhere (f₁.writesKey k') ((f₁.graph.runOps p.tail ++
          (f₁.graph.get b).ops.toList.takeWhile (· != o)).filter fun a => !D.contains a) :=
        lastWhere_congr fun a ha => hb.writesKey_eq (by simpa using (List.mem_filter.mp ha).2) k'
    _ = lastWhere (f₁.writesKey k')
          (f₁.graph.runOps p.tail ++ (f₁.graph.get b).ops.toList.takeWhile (· != o)) :=
        -- the last writer is read by `o`, so it is no destroyed merge
        lastWhere_filter_of_keep fun d hd => by
          simpa using hb.not_mem_of_outOf hx hv (hread.1 d (hwalk ▸ hd))
    _ = y.defOp := hwalk.trans (hb.readsAfter_defOp hx hv hread hy)

/-- What the stages leave is in SSA form. -/
theorem Built.ssaForm (hb : Built f f₁ f₂ g st e D) (hE : f₁.graph.EdgesPaired) : g.SsaForm e where
  output_unique _ _ _ _ _ hx hx' hv hv' := hb.sound.linked.output_inj hx hx' hv hv'
  output_def _ _ _ _ _ _ hx hv := hb.sound.linked.output_def hx hv
  reads_linked _ hlive _ ho hm _ _ hx hv := hb.reads_linked hlive ho hm hx hv
  merge_arity _ _ _ hm hmerge _ hx := hb.merge_arity hm hmerge hx
  merge_linked _ _ _ hm hmerge _ hx _ _ hEi hsrc := hb.merge_linked hE hm hmerge hx hEi hsrc
  reaching _ hlive _ ho hm _ _ _ _ hx hv hy hk _ hp := hb.reaching hlive ho hm hx hv hy hk hp

end Transfer

/-- **SSA construction yields SSA form.** On a function ready for SSA construction whose graph
the dominator analysis has run on from the entry `e`, with its edges paired, SSA construction
succeeds, and over the blocks reached from `e` its result has at most one writer per varnode,
each output defined by its operation, no free read, one input per in-edge at each merge, settled
for each in-edge from a reached block, and every read of a variable defined by the last writer of
the variable along every walk from the entry to the read. -/
theorem buildSsa_ssaForm {f : Function} {e : Nat} (hR : f.SsaReady) (hA : f.graph.Analyzed e)
    (he : f.graph.entry = some e) (hE : f.graph.EdgesPaired) :
    ∃ g, f.buildSsa = .ok g ∧ g.SsaForm e := by
  obtain ⟨f₁, f₂, g, st, D, hg, hb⟩ := buildSsa_built hR hA he
  exact ⟨g, hg, hb.ssaForm (hb.edgesPaired hE)⟩

/-! ## The loop in SSA form -/

/-- The loop `selfLoop` with the graph the dominator analysis leaves. -/
def selfLoopAnalyzed : Function := { selfLoop with graph := selfLoop.graph.analyzeDominators.1 }

theorem selfLoop_graph_wf : selfLoop.graph.Wf :=
  BlockGraph.Wf.of_check (by decide) (by decide)

theorem selfLoopAnalyzed_analyzed : selfLoopAnalyzed.graph.Analyzed 0 :=
  BlockGraph.analyzeDominators_analyzed selfLoop_graph_wf rfl (by decide) (by decide)

theorem selfLoopAnalyzed_ready : selfLoopAnalyzed.SsaReady := by
  have hs := BlockGraph.sameShape_analyzeDominators selfLoop.graph
  have hdead : ∀ b < 2, (selfLoop.graph.get b).flags.dead = false := by decide
  refine selfLoop_ready.congr_graph rfl hs.ops_eq (fun b hb => ?_)
    selfLoopAnalyzed_analyzed.frontiersLive
  have hlt : b < selfLoop.graph.size := hs.size ▸ hb.1
  exact ⟨hlt, hdead b hlt⟩

/-- SSA construction on the loop, analysed, yields SSA form. -/
theorem buildSsa_ssaForm_selfLoop :
    selfLoopAnalyzed.SsaReady ∧ selfLoopAnalyzed.graph.Analyzed 0 ∧
      selfLoopAnalyzed.graph.entry = some 0 ∧ selfLoopAnalyzed.graph.EdgesPaired ∧
      ∃ g, selfLoopAnalyzed.buildSsa = .ok g ∧ g.SsaForm 0 := by
  have he : selfLoopAnalyzed.graph.entry = some 0 :=
    (BlockGraph.sameShape_analyzeDominators selfLoop.graph).entry
  have hE : selfLoopAnalyzed.graph.EdgesPaired :=
    (BlockGraph.EdgesPaired.of_check (by decide)).of_sameShape
      (BlockGraph.sameShape_analyzeDominators selfLoop.graph)
  exact ⟨selfLoopAnalyzed_ready, selfLoopAnalyzed_analyzed, he, hE,
    buildSsa_ssaForm selfLoopAnalyzed_ready selfLoopAnalyzed_analyzed he hE⟩

end Function

end MicroSsa
