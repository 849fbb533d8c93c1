import MicroSsa.Function.Ssa
import MicroSsa.Proofs.Store.Requests
import MicroSsa.Proofs.Blocks.Partition
/-!
# Placing one merge

`Function.insertMerge` creates a merge of a variable at the top of a block: a new operation
with one fresh free input per in-edge of the block and a fresh output at the variable's
location, placed after the merges already at the top of the block (`Function.opInsertBegin`).
`insertMerge_spec` says that in a sound store whose variable lies outside the constant space it
succeeds, keeps the store sound, and changes nothing else: every other operation keeps all but
its start-of-block mark (`Op.unstarted`), every varnode that existed keeps its place, marks and
definition, and the block lists change only by the new merge.

The start-of-block mark is the one thing placing an operation moves on another: the operation
that loses the top of its block loses the mark. Statements about operations therefore compare
them through `Op.unstarted`.
-/

namespace MicroSsa

namespace Op

/-- An operation without its start-of-block mark. -/
def unstarted (x : Op) : Op := { x with flags := { x.flags with startBlock := false } }

@[simp] theorem unstarted_opcode (x : Op) : x.unstarted.opcode = x.opcode := rfl
@[simp] theorem unstarted_inputs (x : Op) : x.unstarted.inputs = x.inputs := rfl
@[simp] theorem unstarted_output (x : Op) : x.unstarted.output = x.output := rfl
@[simp] theorem unstarted_parent (x : Op) : x.unstarted.parent = x.parent := rfl
@[simp] theorem unstarted_seq (x : Op) : x.unstarted.seq = x.seq := rfl
@[simp] theorem unstarted_dead (x : Op) : x.unstarted.flags.dead = x.flags.dead := rfl

@[simp] theorem unstarted_setStart (x : Op) (v : Bool) :
    ({ x with flags := { x.flags with startBlock := v } } : Op).unstarted = x.unstarted := rfl

end Op

namespace Function

variable {f g : Function}

/-! ## Start-of-block marks -/

@[simp] theorem graph_setStartBlock (f : Function) (o : Nat) (v : Bool) :
    (f.setStartBlock o v).graph = f.graph := rfl

@[simp] theorem varnodes_setStartBlock (f : Function) (o : Nat) (v : Bool) :
    (f.setStartBlock o v).store.varnodes = f.store.varnodes := rfl

@[simp] theorem size_ops_setStartBlock (f : Function) (o : Nat) (v : Bool) :
    (f.setStartBlock o v).store.ops.size = f.store.ops.size := by
  simp [setStartBlock, Store.modifyOp]

@[simp] theorem constSpace_setStartBlock (f : Function) (o : Nat) (v : Bool) :
    (f.setStartBlock o v).store.constSpace = f.store.constSpace := rfl

theorem unstarted_setStartBlock (f : Function) (o : Nat) (v : Bool) (o' : Nat) :
    ((f.setStartBlock o v).store.op? o').map Op.unstarted = (f.store.op? o').map Op.unstarted := by
  rw [op?_setStartBlock]
  split
  · cases f.store.op? o' <;> rfl
  · rfl

theorem sound_setStartBlock (hS : f.store.Sound) (o : Nat) (v : Bool) :
    (f.setStartBlock o v).store.Sound :=
  hS.modifyOp o fun _ => ⟨rfl, rfl, rfl⟩

/-- Moving start-of-block marks keeps soundness, the graph, the varnodes and every operation up to
its mark. -/
structure MarksMoved (f g : Function) : Prop where
  sound : f.store.Sound → g.store.Sound
  graph : g.graph = f.graph
  varnodes : g.store.varnodes = f.store.varnodes
  ops_size : g.store.ops.size = f.store.ops.size
  constSpace : g.store.constSpace = f.store.constSpace
  unstarted : ∀ o, (g.store.op? o).map Op.unstarted = (f.store.op? o).map Op.unstarted

theorem MarksMoved.refl (f : Function) : MarksMoved f f :=
  ⟨id, rfl, rfl, rfl, rfl, fun _ => rfl⟩

theorem MarksMoved.setStartBlock {f g : Function} (h : MarksMoved f g) (o : Nat) (v : Bool) :
    MarksMoved f (g.setStartBlock o v) :=
  ⟨fun hS => sound_setStartBlock (h.sound hS) o v, h.graph, h.varnodes,
    (size_ops_setStartBlock g o v).trans h.ops_size, h.constSpace,
    fun o' => (unstarted_setStartBlock g o v o').trans (h.unstarted o')⟩

/-! ## Placing an operation -/

/-- Placing an operation that is in no block: it takes the block as parent and is alive, the
block's list gains it at the position, and the rest is kept up to start-of-block marks. -/
theorem opInsert_spec (hS : f.store.Sound) (b pos : Nat) {o : Nat} {x : Op}
    (hx : f.store.op? o = some x) (hp : x.parent = none) :
    ∃ g, f.opInsert o b pos = .ok g ∧ g.store.Sound ∧
      (g.store.op? o).map Op.unstarted =
        some { x with parent := some b, flags := { x.flags with dead := false } }.unstarted ∧
      (∀ o', o' ≠ o → (g.store.op? o').map Op.unstarted = (f.store.op? o').map Op.unstarted) ∧
      g.store.varnodes = f.store.varnodes ∧ g.store.ops.size = f.store.ops.size ∧
      g.store.constSpace = f.store.constSpace ∧
      g.graph = f.graph.modify b fun blk => { blk with ops := blk.ops.insertIdxIfInBounds pos o } := by
  -- the operation is given its block and made alive
  let s₁ := (f.store.setParent o (some b)).modifyOp o fun x =>
    { x with flags := { x.flags with dead := false } }
  have hma : (f.store.setParent o (some b)).markAlive o = .ok s₁ := by
    simp only [Store.markAlive, Store.op_eq_ok (show (f.store.setParent o (some b)).op? o = _ from
      (op?_setParent _ _ _ _).trans (by rw [if_pos rfl, hx]; rfl)), bind, Except.bind, pure,
      Except.pure, s₁]
  have hS₀ : (f.store.setParent o (some b)).Sound := hS.modifyOp o fun _ => ⟨rfl, rfl, rfl⟩
  have hS₁ : s₁.Sound := hS₀.modifyOp o fun _ => ⟨rfl, rfl, rfl⟩
  have hop₁ : ∀ o', s₁.op? o' = if o = o' then (f.store.op? o').map fun x =>
      { x with parent := some b, flags := { x.flags with dead := false } } else f.store.op? o' := by
    intro o'
    simp only [s₁, Store.op?_modifyOp, op?_setParent]
    split
    · cases f.store.op? o' <;> rfl
    · rfl
  -- then start-of-block marks move, which keeps everything else
  let f₁ : Function := { f with store := s₁ }
  let f₂ : Function := if pos = 0 then
      (((f₁.graph.get b).ops[0]?).elim f₁ fun first => f₁.setStartBlock first false).setStartBlock o true
    else f₁
  have hmoved : MarksMoved f₁ f₂ := by
    simp only [f₂]
    split
    · refine MarksMoved.setStartBlock ?_ o true
      cases (f₁.graph.get b).ops[0]? with
      | none => exact MarksMoved.refl f₁
      | some first => exact (MarksMoved.refl f₁).setStartBlock first false
    · exact MarksMoved.refl f₁
  have hrun : f.opInsert o b pos = .ok { f₂ with graph := f₂.graph.modify b fun blk =>
      { blk with ops := blk.ops.insertIdxIfInBounds pos o } } := by
    simp only [opInsert, Store.op_eq_ok hx, hp, hma, bind, Except.bind, Option.isSome_none,
      Bool.false_eq_true, if_false, pure, Except.pure, f₂, f₁]
    cases (f.graph.get b).ops[0]? <;> rfl
  refine ⟨_, hrun, hmoved.sound hS₁, ?_, fun o' ho' => ?_, hmoved.varnodes, ?_, hmoved.constSpace, ?_⟩
  · rw [hmoved.unstarted, hop₁, if_pos rfl, hx]
    rfl
  · rw [hmoved.unstarted, hop₁, if_neg (Ne.symm ho')]
  · rw [hmoved.ops_size]
    simp [s₁, f₁, Store.modifyOp, Store.setParent]
  · rw [hmoved.graph]

theorem takeWhile_eq_of_agree {α : Type} {p q : α → Bool} :
    ∀ {l : List α}, (∀ a ∈ l, p a = q a) → l.takeWhile p = l.takeWhile q
  | [], _ => rfl
  | a :: l, h => by
    simp only [List.takeWhile_cons, h a List.mem_cons_self,
      takeWhile_eq_of_agree fun b hb => h b (List.mem_cons_of_mem a hb)]

/-- Whether an operation is a merge depends on its opcode alone. -/
theorem leadingMerges_congr (hb : (g.graph.get b).ops = (f.graph.get b).ops)
    (h : ∀ o ∈ (f.graph.get b).ops, (g.store.op? o).map Op.opcode = (f.store.op? o).map Op.opcode) :
    g.leadingMerges b = f.leadingMerges b := by
  unfold leadingMerges
  rw [hb]
  congr 1
  refine takeWhile_eq_of_agree fun o ho => ?_
  have := h o (Array.mem_toList_iff.mp ho)
  cases hf : f.store.op? o <;> cases hg' : g.store.op? o <;> simp_all

end Function

namespace Store

variable {s : Store}

theorem node_eq_of_varnodes {t : Store} (h : t.varnodes = s.varnodes) : t.node = s.node := by
  funext v
  simp only [node, vn?, h]

theorem node_newVarnode (s : Store) (size : Nat) (addr : Address) (w : Nat) :
    (s.newVarnode size addr).2.node w =
      if w = s.varnodes.size then
        some { loc := ⟨addr, size⟩, flags := { constant := addr.space == s.constSpace },
               createIndex := s.varnodes.size }
      else s.node w := by
  simp only [node, vn?_newVarnode]
  split <;> rfl

/-- The free varnode at a location that a merge is given as a placeholder input. -/
def placeholder (key : Location) (v : Nat) : Varnode := { loc := key, createIndex := v }

/-- Giving operation `m`, which has no inputs, one fresh placeholder input per slot up to `n`:
its inputs are the next `n` varnodes, each a free varnode at the key, and nothing else
changes but readers. -/
theorem fillInputs_spec {key : Location} (hkey : key.addr.space ≠ s.constSpace) (hS : s.Sound)
    {m : Nat} {x : Op} (hx : s.op? m = some x) (hx0 : x.inputs = #[]) :
    ∀ n, ∃ t, (List.range n).foldlM (fun s slot => do
        let (v, s) := s.newVarnode key.size key.addr
        s.setInput m v slot) s = .ok t ∧ t.Sound ∧
      t.op? m = some { x with inputs := ((List.range n).map (s.varnodes.size + ·)).toArray } ∧
      (∀ o, o ≠ m → t.op? o = s.op? o) ∧
      (∀ w, t.node w = if s.varnodes.size ≤ w ∧ w < s.varnodes.size + n then
        some (placeholder key w) else s.node w) ∧
      t.varnodes.size = s.varnodes.size + n ∧ t.ops.size = s.ops.size ∧
      t.constSpace = s.constSpace ∧ t.uniq = s.uniq
  | 0 => ⟨s, rfl, hS, by rw [hx]; cases x; simp_all, fun _ _ => rfl,
      fun w => by rw [if_neg (by omega)], rfl, rfl, rfl, rfl⟩
  | n + 1 => by
    obtain ⟨t, hrun, hSt, hxt, hot, hnt, hvs, hos, hcs, hus⟩ := fillInputs_spec hkey hS hx hx0 n
    -- one more fresh varnode, placed in the slot one past the end
    have hSv := hSt.newVarnode key.size key.addr
    have hxv : (t.newVarnode key.size key.addr).2.op? m =
        some { x with inputs := ((List.range n).map (s.varnodes.size + ·)).toArray } := by
      rw [op?_newVarnode, hxt]
    have hvv : ((t.newVarnode key.size key.addr).2.vn? t.varnodes.size).isSome := by
      rw [vn?_newVarnode, if_pos rfl]
      rfl
    have hsize : ({ x with inputs := ((List.range n).map (s.varnodes.size + ·)).toArray } : Op).inputs.size = n := by
      simp
    obtain ⟨t', ht', hL', hop', hnode', hvs', hos', hcs', hus'⟩ :=
      setInput_push_spec hSv.linked hxv hvv
    rw [hsize] at ht'
    refine ⟨t', ?_, hSv.of_node hL' hnode', ?_, fun o ho => ?_, fun w => ?_, ?_, ?_, ?_, ?_⟩
    · rw [List.range_succ, List.foldlM_append, hrun]
      simp [bind, Except.bind, ht', pure, Except.pure]
    · rw [hop', if_pos rfl]
      simp [hvs, List.range_succ]
    · rw [hop', if_neg ho, op?_newVarnode, hot o ho]
    · rw [hnode', node_newVarnode, hnt, hvs, hcs]
      have hconst : (key.addr.space == s.constSpace) = false := by simpa using hkey
      by_cases hw : w = s.varnodes.size + n
      · subst hw
        rw [if_pos rfl, if_pos (by omega), hconst]
        rfl
      · rw [if_neg hw]
        by_cases hlt : s.varnodes.size ≤ w ∧ w < s.varnodes.size + n
        · rw [if_pos hlt, if_pos (by omega)]
        · rw [if_neg hlt, if_neg (by omega)]
    · rw [hvs', size_newVarnode, hvs]
      omega
    · rw [hos', ops_newVarnode, hos]
    · rw [hcs', constSpace_newVarnode, hcs]
    · rw [hus', uniq_newVarnode, hus]

end Store

namespace Function

variable {f : Function}

/-! ## What placing merges keeps -/

/-- `g` extends `f`: the operations of `f` are kept up to their start-of-block marks, its
varnodes keep their nodes, and the graph keeps everything but the block lists. -/
structure Extends (f g : Function) : Prop where
  ops_size : f.store.ops.size ≤ g.store.ops.size
  varnodes_size : f.store.varnodes.size ≤ g.store.varnodes.size
  constSpace : g.store.constSpace = f.store.constSpace
  ops : ∀ o, o < f.store.ops.size →
    (g.store.op? o).map Op.unstarted = (f.store.op? o).map Op.unstarted
  nodes : ∀ v, v < f.store.varnodes.size → g.store.node v = f.store.node v
  size : g.graph.size = f.graph.size
  entry : g.graph.entry = f.graph.entry
  shape : ∀ b, { g.graph.get b with ops := #[] } = { f.graph.get b with ops := #[] }

theorem Extends.refl (f : Function) : Extends f f :=
  ⟨le_refl _, le_refl _, rfl, fun _ _ => rfl, fun _ _ => rfl, rfl, rfl, fun _ => rfl⟩

theorem Extends.trans {h : Function} (h₁ : Extends f g) (h₂ : Extends g h) : Extends f h where
  ops_size := h₁.ops_size.trans h₂.ops_size
  varnodes_size := h₁.varnodes_size.trans h₂.varnodes_size
  constSpace := h₂.constSpace.trans h₁.constSpace
  ops o ho := (h₂.ops o (Nat.lt_of_lt_of_le ho h₁.ops_size)).trans (h₁.ops o ho)
  nodes v hv := (h₂.nodes v (Nat.lt_of_lt_of_le hv h₁.varnodes_size)).trans (h₁.nodes v hv)
  size := h₂.size.trans h₁.size
  entry := h₂.entry.trans h₁.entry
  shape b := (h₂.shape b).trans (h₁.shape b)

theorem Extends.ins (h : Extends f g) (b : Nat) : (g.graph.get b).ins = (f.graph.get b).ins := by
  have h' := congrArg Block.ins (h.shape b)
  exact h'

theorem Extends.frontier (h : Extends f g) (b : Nat) :
    (g.graph.get b).frontier = (f.graph.get b).frontier := by
  have h' := congrArg Block.frontier (h.shape b)
  exact h'

theorem Extends.flags (h : Extends f g) (b : Nat) : (g.graph.get b).flags = (f.graph.get b).flags := by
  have h' := congrArg Block.flags (h.shape b)
  exact h'

theorem Extends.depth (h : Extends f g) (b : Nat) : (g.graph.get b).depth = (f.graph.get b).depth := by
  have h' := congrArg Block.depth (h.shape b)
  exact h'

/-- Changing one block's list keeps the rest of the graph. -/
theorem shape_modify_ops (G : BlockGraph) (b : Nat) {F : Block → Block}
    (hF : ∀ blk, { F blk with ops := #[] } = { blk with ops := #[] }) (a : Nat) :
    { (G.modify b F).get a with ops := #[] } = { G.get a with ops := #[] } := by
  rw [BlockGraph.get_modify]
  split
  · exact hF _
  · rfl

/-- Operation `m` is an alive merge of block `b` for the variable at `key`: one placeholder input
per in-edge of the block, and an output at the key. -/
def IsMerge (f : Function) (key : Location) (b m : Nat) : Prop :=
  ∃ x, f.store.op? m = some x ∧ x.opcode = .multiEqual ∧ x.parent = some b ∧ x.flags.dead = false ∧
    x.inputs.size = (f.graph.get b).ins.size ∧
    (∀ v ∈ x.inputs, f.store.node v = some (Store.placeholder key v)) ∧
    ∃ v, x.output = some v ∧ (f.store.node v).map Varnode.loc = some key

theorem lt_of_node_eq_some {s : Store} {v : Nat} {y : Varnode} (h : s.node v = some y) :
    v < s.varnodes.size :=
  Store.lt_of_isSome_vn? (by simp only [Store.node, Option.map_eq_some_iff] at h; obtain ⟨_, h, -⟩ := h; simp [h])

/-- A merge stays a merge in every extension. -/
theorem IsMerge.mono {key : Location} {b m : Nat} (hm : f.IsMerge key b m) (h : Extends f g) :
    g.IsMerge key b m := by
  obtain ⟨x, hx, hop, hpar, hdead, hins, hin, v, hv, hk⟩ := hm
  have hlt : m < f.store.ops.size := Store.lt_of_isSome_op? (by simp [hx])
  have hg := h.ops m hlt
  rw [hx] at hg
  obtain ⟨x', hx', hu⟩ := Option.map_eq_some_iff.mp hg
  have hfield := congrArg (fun y : Op => (y.opcode, y.parent, y.flags.dead, y.inputs, y.output)) hu
  simp only [Op.unstarted_opcode, Op.unstarted_parent, Op.unstarted_dead, Op.unstarted_inputs,
    Op.unstarted_output, Prod.mk.injEq] at hfield
  obtain ⟨ho, hp, hd, hi, hout⟩ := hfield
  have hkv : (f.store.node v).isSome := by
    cases hn : f.store.node v <;> simp_all
  refine ⟨x', hx', ho ▸ hop, hp ▸ hpar, hd ▸ hdead, by rw [hi, hins, h.ins], fun w hw => ?_, v,
    hout ▸ hv, ?_⟩
  · rw [hi] at hw
    rw [h.nodes w (lt_of_node_eq_some (hin w hw)), hin w hw]
  · obtain ⟨y, hy⟩ := Option.isSome_iff_exists.mp hkv
    rw [h.nodes v (lt_of_node_eq_some hy), hk]

/-- The output of operation `m`, if it has one, does not name a code address. -/
def OutputPlain (f : Function) (m : Nat) : Prop :=
  ∀ x v, f.store.op? m = some x → x.output = some v →
    (f.store.node v).map (·.flags.annotation) = some false

/-- An extension keeps the output of an operation it keeps. -/
theorem OutputPlain.mono {m : Nat} (hm : f.OutputPlain m) (hlt : m < f.store.ops.size)
    (h : Extends f g) : g.OutputPlain m := by
  intro x' v hx' hv
  have hg := h.ops m hlt
  rw [hx', Option.map_some] at hg
  obtain ⟨x, hx, hu⟩ := Option.map_eq_some_iff.mp hg.symm
  have hout : x.output = some v := by rw [← Op.unstarted_output, hu, Op.unstarted_output, hv]
  have hn := hm x v hx hout
  obtain ⟨y, hy, -⟩ := Option.map_eq_some_iff.mp hn
  rw [h.nodes v (lt_of_node_eq_some hy), hn]

theorem Extends.op_some (h : Extends f g) {o : Nat} {x : Op} (hx : f.store.op? o = some x) :
    ∃ x', g.store.op? o = some x' ∧ x'.unstarted = x.unstarted := by
  have hg := h.ops o (Store.lt_of_isSome_op? (by simp [hx]))
  rw [hx] at hg
  exact Option.map_eq_some_iff.mp hg

/-- The block lists and the operations agree: every operation a block lists exists, is alive and
names the block as its parent, every operation that names a block is listed there, and no block
lists an operation twice. -/
structure BlocksHold (f : Function) : Prop where
  member : ∀ {b o}, o ∈ (f.graph.get b).ops →
    ∃ x, f.store.op? o = some x ∧ x.parent = some b ∧ x.flags.dead = false
  listed : ∀ {o x b}, f.store.op? o = some x → x.parent = some b → o ∈ (f.graph.get b).ops
  nodup : ∀ b, (f.graph.get b).ops.toList.Nodup

theorem BlocksHold.lt_size (h : f.BlocksHold) {b o : Nat} (ho : o ∈ (f.graph.get b).ops) :
    o < f.store.ops.size := by
  obtain ⟨x, hx, -⟩ := h.member ho
  exact Store.lt_of_isSome_op? (by simp [hx])

theorem leadingMerges_le (f : Function) (b : Nat) : f.leadingMerges b ≤ (f.graph.get b).ops.size := by
  unfold leadingMerges
  exact (List.takeWhile_sublist _).length_le.trans (by simp)

theorem nodup_insertIdxIfInBounds {xs : Array Nat} {i a : Nat} (hi : i ≤ xs.size) (ha : a ∉ xs)
    (h : xs.toList.Nodup) : (xs.insertIdxIfInBounds i a).toList.Nodup := by
  obtain ⟨l⟩ := xs
  rw [List.insertIdxIfInBounds_toArray]
  refine (List.perm_insertIdx a l (by simpa using hi)).nodup_iff.mpr (List.nodup_cons.mpr ⟨?_, h⟩)
  simpa using ha

/-- Placing a new operation `m` into the list of block `b`, where `g` extends `f` and `m` is an
alive operation of `b` that `f` does not have, keeps block lists and operations agreeing. -/
theorem BlocksHold.insert (h : f.BlocksHold) (hext : Extends f g) {b pos : Nat}
    (hb : b < f.graph.size) (hpos : pos ≤ (f.graph.get b).ops.size)
    (hsize : g.store.ops.size = f.store.ops.size + 1)
    (hmx : ∃ x, g.store.op? f.store.ops.size = some x ∧ x.parent = some b ∧ x.flags.dead = false)
    (hgraph : g.graph = f.graph.modify b fun blk =>
      { blk with ops := blk.ops.insertIdxIfInBounds pos f.store.ops.size }) :
    g.BlocksHold := by
  have hnew : ∀ {a}, a < f.graph.size → b = a →
      (g.graph.get a).ops = (f.graph.get a).ops.insertIdxIfInBounds pos f.store.ops.size :=
    fun {a} ha hba => by
      subst hba
      rw [hgraph, BlockGraph.get_modify, if_pos ⟨rfl, ha⟩]
  have hold : ∀ {a}, ¬(b = a ∧ a < f.graph.size) → (g.graph.get a).ops = (f.graph.get a).ops :=
    fun {a} ha => by rw [hgraph, BlockGraph.get_modify, if_neg ha]
  -- an operation of `f` keeps its parent and its alive mark
  have hkeep : ∀ {o x}, f.store.op? o = some x →
      ∃ x', g.store.op? o = some x' ∧ x'.parent = x.parent ∧ x'.flags.dead = x.flags.dead := by
    intro o x hx
    obtain ⟨x', hx', hu⟩ := hext.op_some hx
    exact ⟨x', hx', by simpa using congrArg Op.parent hu, by
      simpa using congrArg (fun y : Op => y.flags.dead) hu⟩
  refine ⟨fun {a o} ho => ?_, fun {o x a} hx hp => ?_, fun a => ?_⟩
  · by_cases hba : b = a ∧ a < f.graph.size
    · rw [hnew hba.2 hba.1, Store.mem_insertIdxIfInBounds (hba.1 ▸ hpos)] at ho
      rcases ho with rfl | ho
      · rw [← hba.1]
        exact hmx
      · obtain ⟨x, hx, hp, hd⟩ := h.member ho
        obtain ⟨x', hx', hp', hd'⟩ := hkeep hx
        exact ⟨x', hx', hp'.trans hp, hd'.trans hd⟩
    · rw [hold hba] at ho
      obtain ⟨x, hx, hp, hd⟩ := h.member ho
      obtain ⟨x', hx', hp', hd'⟩ := hkeep hx
      exact ⟨x', hx', hp'.trans hp, hd'.trans hd⟩
  · by_cases hom : o = f.store.ops.size
    · subst hom
      obtain ⟨x', hx', hp', -⟩ := hmx
      rw [hx] at hx'
      cases hx'
      rw [hp] at hp'
      cases hp'
      rw [hnew hb rfl, Store.mem_insertIdxIfInBounds hpos]
      exact Or.inl rfl
    · -- an older operation was listed already, and stays listed
      have hlt : o < f.store.ops.size := by
        have := Store.lt_of_isSome_op? (by simp [hx] : (g.store.op? o).isSome)
        omega
      have hg := hext.ops o hlt
      rw [hx] at hg
      obtain ⟨x₀, hx₀, hu⟩ := Option.map_eq_some_iff.mp hg.symm
      have hp₀ : x₀.parent = some a := by simpa [hp] using congrArg Op.parent hu
      have hmem := h.listed hx₀ hp₀
      by_cases hba : b = a ∧ a < f.graph.size
      · rw [hnew hba.2 hba.1, Store.mem_insertIdxIfInBounds (hba.1 ▸ hpos)]
        exact Or.inr hmem
      · rw [hold hba]
        exact hmem
  · by_cases hba : b = a ∧ a < f.graph.size
    · rw [hnew hba.2 hba.1]
      refine nodup_insertIdxIfInBounds (hba.1 ▸ hpos) (fun hm => ?_) (h.nodup a)
      exact Nat.lt_irrefl _ (h.lt_size hm)
    · rw [hold hba]
      exact h.nodup a

/-- **Placing a merge.** In a sound store, for a variable outside the constant space and a block
whose operations all exist, `insertMerge` succeeds. The new operation, the next by number, is an
alive merge of the block with one placeholder input per in-edge and an output at the variable;
it stands in the block right after the merges already at its top. The rest of the function is
kept (`Extends`). -/
theorem insertMerge_spec (hS : f.store.Sound) {key : Location} {b : Nat}
    (hkey : key.addr.space ≠ f.store.constSpace)
    (hfresh : ∀ o ∈ (f.graph.get b).ops, o < f.store.ops.size) :
    ∃ g, f.insertMerge key b = .ok g ∧ g.store.Sound ∧ Extends f g ∧
      g.store.ops.size = f.store.ops.size + 1 ∧
      g.store.varnodes.size = f.store.varnodes.size + (f.graph.get b).ins.size + 1 ∧
      g.IsMerge key b f.store.ops.size ∧ g.OutputPlain f.store.ops.size ∧
      g.graph = f.graph.modify b fun blk =>
        { blk with ops := blk.ops.insertIdxIfInBounds (f.leadingMerges b) f.store.ops.size } := by
  -- a new dead merge, with the next sequence number
  let addr := ((f.graph.get b).start <|> ((f.graph.get b).ops[0]? >>= f.store.op?).map
    (·.seq.addr)).getD f.addr
  let m := f.store.ops.size
  let x₀ : Op := { opcode := .multiEqual, seq := ⟨addr, f.store.uniq⟩,
                   flags := { OpFlags.ofOpcode .multiEqual with dead := true } }
  let s₁ : Store := { f.store with uniq := f.store.uniq + 1, ops := f.store.ops.push (some x₀) }
  have hS₁ : s₁.Sound := hS.newOp_newSeq addr .multiEqual
  have hx₁ : s₁.op? m = some x₀ := by
    rw [Store.op?_push rfl, if_pos rfl]
  have hold₁ : ∀ o, o ≠ m → s₁.op? o = f.store.op? o := fun o ho => by
    rw [Store.op?_push rfl, if_neg ho]
  -- one placeholder per in-edge
  obtain ⟨s₂, hfill, hS₂, hx₂, hold₂, hnode₂, hvs₂, hos₂, hcs₂, -⟩ :=
    Store.fillInputs_spec (s := s₁) hkey hS₁ hx₁ rfl (f.graph.get b).ins.size
  -- the output, a fresh varnode at the key
  let out := s₂.varnodes.size
  have hS₃ := hS₂.newVarnode key.size key.addr
  have hy₃ : (s₂.newVarnode key.size key.addr).2.vn? out =
      some { loc := ⟨key.addr, key.size⟩, flags := { constant := key.addr.space == s₂.constSpace },
             createIndex := out } := by
    rw [Store.vn?_newVarnode, if_pos rfl]
  have hconst : (key.addr.space == s₂.constSpace) = false := by
    rw [hcs₂]
    simpa using hkey
  obtain ⟨s₄, hset, hL₄, hop₄, hnode₄, hvs₄, hos₄, hcs₄, -⟩ :=
    Store.setOutput_spec hS₃.linked (by rw [Store.op?_newVarnode, hx₂]) rfl hy₃ rfl rfl hconst
  have hS₄ : s₄.Sound := by
    refine ⟨hL₄, Store.createIndex_transfer (fun w => ?_) hS₃.createIndex⟩
    rw [← Store.map_createIndex_node, ← Store.map_createIndex_node, hnode₄]
    split
    · subst_vars
      rw [Store.node, hy₃]
      rfl
    · rfl
  -- placing it at the top of the block, after the merges there
  have hx₄ : s₄.op? m = some { x₀ with inputs := ((List.range (f.graph.get b).ins.size).map
      (s₁.varnodes.size + ·)).toArray, output := some out } := by
    rw [hop₄, if_pos rfl]
  have hlead : ({ f with store := s₄ } : Function).leadingMerges b = f.leadingMerges b := by
    refine leadingMerges_congr rfl fun o ho => ?_
    have hne : o ≠ m := Nat.ne_of_lt (hfresh o ho)
    simp only
    rw [hop₄, if_neg hne, Store.op?_newVarnode, hold₂ o hne, hold₁ o hne]
  obtain ⟨g, hins, hSg, hmg, hog, hvg, hosg, hcsg, hgg⟩ :=
    opInsert_spec (f := { f with store := s₄ }) hS₄ b (f.leadingMerges b) hx₄ rfl
  have hrun : f.insertMerge key b = .ok g := by
    simp only at hfill
    simp only [insertMerge, Store.newOp_newSeq hS.linked, bind, Except.bind]
    erw [hfill]
    dsimp only
    erw [hset]
    show ({ f with store := s₄ } : Function).opInsert m b
      (({ f with store := s₄ } : Function).leadingMerges b) = .ok g
    rw [hlead]
    exact hins
  have hnodeg : g.store.node = s₄.node := Store.node_eq_of_varnodes hvg
  have hop : ∀ o, o ≠ m → s₄.op? o = f.store.op? o := fun o ho => by
    rw [hop₄, if_neg ho, Store.op?_newVarnode, hold₂ o ho, hold₁ o ho]
  -- every varnode made here lies past the old ones
  have hnode : ∀ v, v ≠ out → s₄.node v = if s₁.varnodes.size ≤ v ∧
      v < s₁.varnodes.size + (f.graph.get b).ins.size then some (Store.placeholder key v)
      else f.store.node v := fun v hv => by
    rw [hnode₄, if_neg hv, Store.node_newVarnode, if_neg hv, hnode₂]
    rfl
  have hout : out = f.store.varnodes.size + (f.graph.get b).ins.size := hvs₂
  obtain ⟨x, hxg, hxu⟩ := Option.map_eq_some_iff.mp hmg
  have hxu' := congrArg (fun y : Op => (y.opcode, y.parent, y.flags.dead, y.inputs, y.output)) hxu
  simp only [Op.unstarted_opcode, Op.unstarted_parent, Op.unstarted_dead, Op.unstarted_inputs,
    Op.unstarted_output, Prod.mk.injEq] at hxu'
  obtain ⟨hxo, hxp, hxd, hxi, hxout⟩ := hxu'
  have hopsize : g.store.ops.size = f.store.ops.size + 1 := by
    rw [hosg, hos₄, Store.ops_newVarnode, hos₂]
    simp [s₁]
  have hvsize : g.store.varnodes.size = f.store.varnodes.size + (f.graph.get b).ins.size + 1 := by
    rw [hvg, hvs₄, Store.size_newVarnode, hvs₂]
  have hext : Extends f g := by
    refine ⟨by omega, by omega, ?_, fun o ho => ?_, fun v hv => ?_, ?_, ?_, fun a => ?_⟩
    · rw [hcsg, hcs₄, Store.constSpace_newVarnode, hcs₂]
    · rw [hog o (Nat.ne_of_lt ho), hop o (Nat.ne_of_lt ho)]
    · rw [hnodeg, hnode v (by omega), if_neg (by simp only [s₁]; omega)]
    · rw [hgg, BlockGraph.size_modify]
    · rw [hgg]
      rfl
    · rw [hgg]
      refine shape_modify_ops _ _ (fun blk => ?_) a
      rfl
  have hgins : (g.graph.get b).ins = (f.graph.get b).ins := hext.ins b
  refine ⟨g, hrun, hSg, hext, hopsize, hvsize, ⟨x, hxg, hxo, hxp, hxd, ?_, fun v hv => ?_, out, hxout,
    ?_⟩, fun x' v hx' hv => ?_, hgg⟩
  · rw [hxi, hgins]
    simp
  · rw [hxi] at hv
    simp only [List.mem_toArray, List.mem_map, List.mem_range] at hv
    obtain ⟨i, hi, rfl⟩ := hv
    rw [hnodeg, hnode _ (by simp only [s₁] at hout ⊢; omega), if_pos ⟨by omega, by omega⟩]
  · rw [hnodeg, hnode₄, if_pos rfl]
    rfl
  · -- the output is the fresh varnode made for it, with no marks but the written one
    rw [hxg] at hx'
    cases hx'
    rw [hxout] at hv
    cases hv
    rw [hnodeg, hnode₄, if_pos rfl]
    rfl

end Function

end MicroSsa
