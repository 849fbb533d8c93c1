import MicroSsa.Store.Script
import MicroSsa.Proofs.Store.Links
/-!
# Every request keeps the store sound

A store is **sound** (`Store.Sound`) when it is linked (`Store.Linked`) and every varnode carries
its own name as creation index, the last key of both varnode orders. Each request that a store
serves without a fault keeps it sound (`Sound.apply`), and so do placing an operation into a
block and changing a varnode's value or its annotation and implied marks. The stores reached in
this way from an empty store (`Store.Reachable`) are therefore sound (`Reachable.sound`); among
them is the final store of every script that no broken contract ended (`Reachable.runSteps`).

Each edit has an inversion lemma saying what a successful run of it found (`setInput_ok`,
`setOutput_ok`, `deleteVarnode_ok`, ...), so that the link lemmas apply. Binding an output to an
operation that has one frees the old output first; destroying an operation releases its inputs
from the last to the first (`Sound.clearInputs`) and frees its output before the operation goes.
-/

namespace MicroSsa

/-- A bind that succeeds ran its first computation to a value. -/
theorem Except.bind_eq_ok {ε α β : Type} {x : Except ε α} {f : α → Except ε β} {b : β}
    (h : x >>= f = .ok b) : ∃ a, x = .ok a ∧ f a = .ok b := by
  cases x with
  | error e => cases h
  | ok a => exact ⟨a, rfl, h⟩

namespace Store

variable {s t : Store}

/-! ## Sound stores -/

/-- A store whose links agree and whose varnodes carry their names as creation index. -/
structure Sound (s : Store) : Prop where
  linked : s.Linked
  createIndex : ∀ {v y}, s.vn? v = some y → y.createIndex = v

theorem map_createIndex_node (s : Store) (w : Nat) :
    (s.node w).map Varnode.createIndex = (s.vn? w).map Varnode.createIndex := by
  simp [node, Option.map_map, Function.comp_def]

/-- Creation indices carry over to a store whose varnodes have the creation indices of `s`. -/
theorem createIndex_transfer
    (h : ∀ w, (t.vn? w).map Varnode.createIndex = (s.vn? w).map Varnode.createIndex)
    (hs : ∀ {v y}, s.vn? v = some y → y.createIndex = v) {v : Nat} {y : Varnode}
    (hy : t.vn? v = some y) : y.createIndex = v := by
  have h' := h v
  rw [hy, Option.map_some] at h'
  obtain ⟨y', hy', he⟩ := Option.map_eq_some_iff.mp h'.symm
  rw [← he]
  exact hs hy'

theorem Sound.of_node (hS : s.Sound) (hL : t.Linked) (h : t.node = s.node) : t.Sound :=
  ⟨hL, createIndex_transfer (fun w => by rw [← map_createIndex_node, h, map_createIndex_node])
    hS.createIndex⟩

/-- Changing a varnode in a way that keeps its readers, definition, marks of input, written and
constant, and space keeps the links. -/
theorem Linked.modifyVn (hL : s.Linked) (v : Nat) {g : Varnode → Varnode}
    (hg : ∀ y, (g y).uses = y.uses ∧ (g y).defOp = y.defOp ∧ (g y).flags.written = y.flags.written ∧
      (g y).flags.input = y.flags.input ∧ (g y).flags.constant = y.flags.constant ∧
      (g y).loc.addr.space = y.loc.addr.space) :
    (s.modifyVn v g).Linked := by
  have hvn : ∀ {w y'}, (s.modifyVn v g).vn? w = some y' → ∃ y, s.vn? w = some y ∧
      y'.uses = y.uses ∧ y'.defOp = y.defOp ∧ y'.flags.written = y.flags.written ∧
      y'.flags.input = y.flags.input ∧ y'.flags.constant = y.flags.constant ∧
      y'.loc.addr.space = y.loc.addr.space := by
    intro w y' h
    rw [vn?_modifyVn] at h
    split at h
    · obtain ⟨y, hy, rfl⟩ := Option.map_eq_some_iff.mp h
      exact ⟨y, hy, hg y⟩
    · exact ⟨y', h, rfl, rfl, rfl, rfl, rfl, rfl⟩
  refine ⟨fun hx hm => ?_, fun hy o => ?_, fun hx hv => ?_, fun hy hd => ?_, fun hy => ?_,
    fun hy hi => ?_, fun hy => ?_, hL.fresh⟩
  · rw [isSome_vn?_modifyVn]
    exact hL.input_exists hx hm
  · obtain ⟨y, hy, hu, -⟩ := hvn hy
    rw [hu, readsOf_modifyVn]
    exact hL.uses_count hy o
  · rename_i o x w
    obtain ⟨y, hy, hd⟩ := hL.output_def hx hv
    rw [vn?_modifyVn]
    split
    · exact ⟨g y, by rw [hy]; rfl, (hg y).2.1.trans hd⟩
    · exact ⟨y, hy, hd⟩
  · obtain ⟨y, hy, -, hd', -⟩ := hvn hy
    exact hL.def_output hy (hd' ▸ hd)
  · obtain ⟨y, hy, -, hd, hw, -⟩ := hvn hy
    rw [hd, hw]
    exact hL.written hy
  · obtain ⟨y, hy, -, hd, -, hi', -⟩ := hvn hy
    rw [hd]
    exact hL.input_undef hy (hi' ▸ hi)
  · obtain ⟨y, hy, -, -, -, -, hc, hsp⟩ := hvn hy
    rw [hc, hsp, constSpace_modifyVn]
    exact hL.constant hy

theorem Sound.modifyVn (hS : s.Sound) (v : Nat) {g : Varnode → Varnode}
    (hg : ∀ y, (g y).uses = y.uses ∧ (g y).defOp = y.defOp ∧ (g y).flags.written = y.flags.written ∧
      (g y).flags.input = y.flags.input ∧ (g y).flags.constant = y.flags.constant ∧
      (g y).loc.addr.space = y.loc.addr.space)
    (hc : ∀ y, (g y).createIndex = y.createIndex) :
    (s.modifyVn v g).Sound := by
  refine ⟨hS.linked.modifyVn v hg, fun {w y'} hy' => ?_⟩
  rw [vn?_modifyVn] at hy'
  split at hy'
  · obtain ⟨y, hy, rfl⟩ := Option.map_eq_some_iff.mp hy'
    rw [hc]
    exact hS.createIndex hy
  · exact hS.createIndex hy'

theorem Sound.modifyOp (hS : s.Sound) (o : Nat) {g : Op → Op}
    (hg : ∀ x, (g x).inputs = x.inputs ∧ (g x).output = x.output ∧ (g x).seq = x.seq) :
    (s.modifyOp o g).Sound :=
  ⟨hS.linked.modifyOp o hg, hS.createIndex⟩

theorem Sound.newVarnode (hS : s.Sound) (size : Nat) (addr : Address) :
    (s.newVarnode size addr).2.Sound := by
  refine ⟨hS.linked.newVarnode size addr, fun {v y} hy => ?_⟩
  rw [vn?_newVarnode] at hy
  split at hy
  · cases hy
    rename_i h
    exact h.symm
  · exact hS.createIndex hy

/-! ## Freeing and binding outputs -/

theorem unsetOutput_of_none {o : Nat} {x : Op} (hx : s.op? o = some x) (h : x.output = none) :
    s.unsetOutput o = .ok (none, s) := by
  simp [unsetOutput, op_eq_ok hx, h, bind, Except.bind, pure, Except.pure]

theorem unsetOutput_of_some {o v : Nat} {x : Op} (hx : s.op? o = some x) (h : x.output = some v) :
    s.unsetOutput o = .ok (some v, (s.modifyOp o fun x => { x with output := none }).modifyVn v
      fun y => { y with defOp := none, flags := { y.flags with written := false } }) := by
  simp [unsetOutput, op_eq_ok hx, h, bind, Except.bind, pure, Except.pure]

/-- Freeing the output of an operation keeps the links: the output loses its definition and its
written mark. -/
theorem Linked.unsetOutput (hL : s.Linked) {o v : Nat} {x : Op} (hx : s.op? o = some x)
    (hv : x.output = some v) :
    ((s.modifyOp o fun x => { x with output := none }).modifyVn v
      fun y => { y with defOp := none, flags := { y.flags with written := false } }).Linked := by
  obtain ⟨y, hy, hyd⟩ := hL.output_def hx hv
  let t := (s.modifyOp o fun x => { x with output := none }).modifyVn v
      fun y => { y with defOp := none, flags := { y.flags with written := false } }
  have hop : ∀ o', t.op? o' = if o' = o then some { x with output := none } else s.op? o' := by
    intro o'
    simp only [t, op?_modifyVn, op?_modifyOp]
    split
    · subst_vars
      rw [if_pos rfl, hx]
      rfl
    · rw [if_neg (Ne.symm ‹_›)]
  have hvn : ∀ w, t.vn? w = if w = v then
      some { y with defOp := none, flags := { y.flags with written := false } } else s.vn? w := by
    intro w
    simp only [t, vn?_modifyOp, vn?_modifyVn]
    split
    · subst_vars
      rw [if_pos rfl, hy]
      rfl
    · rw [if_neg (Ne.symm ‹_›)]
  have hreads : ∀ o' w, t.readsOf o' w = s.readsOf o' w := by
    intro o' w
    simp only [readsOf, hop]
    split
    · subst_vars
      rw [hx]
      rfl
    · rfl
  refine ⟨fun hx' hm => ?_, fun hy' o' => ?_, fun hx' hv' => ?_, fun hy' hd' => ?_,
    fun hy' => ?_, fun hy' hi' => ?_, fun hy' => ?_, fun hx' => ?_⟩
  · rw [hop] at hx'
    rw [hvn]
    split at hx'
    · cases hx'
      split
      · rfl
      · exact hL.input_exists hx hm
    · split
      · rfl
      · exact hL.input_exists hx' hm
  · rw [hvn] at hy'
    rw [hreads]
    split at hy'
    · subst_vars
      cases hy'
      exact hL.uses_count hy o'
    · exact hL.uses_count hy' o'
  · -- another operation's output is not the freed varnode, whose definition was `o`
    rename_i o' x' w
    rw [hop] at hx'
    split at hx'
    · cases hx'
      cases hv'
    · obtain ⟨y', hy', hd'⟩ := hL.output_def hx' hv'
      refine ⟨y', ?_, hd'⟩
      rw [hvn, if_neg]
      · exact hy'
      · rintro rfl
        rw [hy] at hy'
        cases hy'
        rw [hyd] at hd'
        exact absurd (Option.some.inj hd') (Ne.symm ‹_›)
  · rename_i w y' o'
    rw [hvn] at hy'
    split at hy'
    · cases hy'
      cases hd'
    · obtain ⟨x', hx', hv'⟩ := hL.def_output hy' hd'
      refine ⟨x', ?_, hv'⟩
      rw [hop, if_neg]
      · exact hx'
      · rintro rfl
        rw [hx] at hx'
        cases hx'
        rw [hv] at hv'
        exact absurd (Option.some.inj hv').symm ‹_›
  · rw [hvn] at hy'
    split at hy'
    · cases hy'
      rfl
    · exact hL.written hy'
  · rw [hvn] at hy'
    split at hy'
    · cases hy'
      rfl
    · exact hL.input_undef hy' hi'
  · rw [hvn] at hy'
    split at hy'
    · cases hy'
      have h := hL.constant hy
      exact h
    · exact hL.constant hy'
  · rw [hop] at hx'
    split at hx'
    · cases hx'
      have h := hL.fresh hx
      exact h
    · exact hL.fresh hx'

theorem Sound.unsetOutput (hS : s.Sound) {o : Nat} {r : Option Nat} (h : s.unsetOutput o = .ok (r, t)) :
    t.Sound ∧ ∃ x, s.op? o = some x ∧ t.op? o = some { x with output := none } := by
  obtain ⟨x, hx⟩ : ∃ x, s.op? o = some x := by
    cases hx : s.op? o with
    | none => simp [Store.unsetOutput, op, hx, bind, Except.bind] at h
    | some x => exact ⟨x, rfl⟩
  cases hv : x.output with
  | none =>
    rw [unsetOutput_of_none hx hv] at h
    cases h
    refine ⟨hS, x, hx, ?_⟩
    rw [hx]
    cases x
    simp_all
  | some v =>
    rw [unsetOutput_of_some hx hv] at h
    cases h
    refine ⟨⟨hS.linked.unsetOutput hx hv, fun {w y} hy => ?_⟩, x, hx, ?_⟩
    · rw [vn?_modifyVn, vn?_modifyOp] at hy
      split at hy
      · obtain ⟨y₀, hy₀, rfl⟩ := Option.map_eq_some_iff.mp hy
        have h := hS.createIndex hy₀
        exact h
      · exact hS.createIndex hy
    · rw [op?_modifyVn, op?_modifyOp, if_pos rfl, hx]
      rfl

/-- Binding a varnode with no definition, no input mark and no constant mark as the output of an
operation that has none. -/
theorem Sound.bindOutput (hS : s.Sound) {o v : Nat} {x : Op} {y : Varnode} (hx : s.op? o = some x)
    (hxo : x.output = none) (hy : s.vn? v = some y) (hd : y.defOp = none)
    (hi : y.flags.input = false) (hc : y.flags.constant = false) (h : s.setOutput o v = .ok t) :
    t.Sound := by
  obtain ⟨t', h', hL, -, hnode, -⟩ := setOutput_spec hS.linked hx hxo hy hd hi hc
  rw [h] at h'
  cases h'
  refine ⟨hL, createIndex_transfer (fun w => ?_) hS.createIndex⟩
  rw [← map_createIndex_node, hnode w, ← map_createIndex_node]
  split
  · subst_vars
    simp [node, hy]
  · rfl

/-- What a successful binding found: a varnode free to bind and an operation. -/
theorem setOutput_ok {o v : Nat} (h : s.setOutput o v = .ok t) :
    ∃ y, s.vn? v = some y ∧ y.defOp = none ∧ y.flags.input = false ∧ y.flags.constant = false ∧
      ∃ x, s.op? o = some x := by
  obtain ⟨y, hy⟩ : ∃ y, s.vn? v = some y := by
    cases hy : s.vn? v with
    | none => simp [Store.setOutput, vn, hy, bind, Except.bind] at h
    | some y => exact ⟨y, rfl⟩
  have hg : (y.defOp.isSome || y.flags.input || y.flags.constant) = false := by
    cases hb : (y.defOp.isSome || y.flags.input || y.flags.constant)
    · rfl
    · simp [Store.setOutput, vn_eq_ok hy, hb, bind, Except.bind, throw, throwThe,
        MonadExceptOf.throw] at h
  simp only [Bool.or_eq_false_iff, Option.isSome_eq_false_iff, Option.isNone_iff_eq_none] at hg
  obtain ⟨x, hx⟩ : ∃ x, s.op? o = some x := by
    cases hx : s.op? o with
    | none => simp [Store.setOutput, vn_eq_ok hy, hg, unsetOutput, op, hx, bind, Except.bind] at h
    | some x => exact ⟨x, rfl⟩
  exact ⟨y, hy, hg.1.1, hg.1.2, hg.2, x, hx⟩

/-- Binding an output keeps the store sound, also when the operation had an output: that one is
freed first. -/
theorem Sound.setOutput (hS : s.Sound) {o v : Nat} (h : s.setOutput o v = .ok t) : t.Sound := by
  obtain ⟨y, hy, hd, hi, hc, x, hx⟩ := setOutput_ok h
  cases hxo : x.output with
  | none => exact hS.bindOutput hx hxo hy hd hi hc h
  | some v₀ =>
    -- the old output is defined by `o`, so it is not `v`
    have hne : v₀ ≠ v := by
      rintro rfl
      obtain ⟨y₀, hy₀, hd₀⟩ := hS.linked.output_def hx hxo
      rw [hy] at hy₀
      cases hy₀
      rw [hd] at hd₀
      cases hd₀
    obtain ⟨hS₁, x', hx', hx₁⟩ := hS.unsetOutput (unsetOutput_of_some hx hxo)
    rw [hx, Option.some.injEq] at hx'
    subst hx'
    have hy₁ : ((s.modifyOp o fun x => { x with output := none }).modifyVn v₀
        fun y => { y with defOp := none, flags := { y.flags with written := false } }).vn? v = some y := by
      rw [vn?_modifyVn, if_neg hne, vn?_modifyOp, hy]
    refine hS₁.bindOutput hx₁ rfl hy₁ hd hi hc ?_
    rw [← h]
    simp [Store.setOutput, vn_eq_ok hy, vn_eq_ok hy₁, hd, hi, hc, unsetOutput_of_some hx hxo,
      unsetOutput_of_none hx₁ rfl, bind, Except.bind]

theorem Sound.createOutput (hS : s.Sound) {o : Nat} {loc : Location} {v : Nat}
    (h : s.createOutput o loc = .ok (v, t)) : t.Sound := by
  simp only [Store.createOutput, fst_newVarnode, bind, Except.bind, pure, Except.pure] at h
  cases h' : (s.newVarnode loc.size loc.addr).2.setOutput o s.varnodes.size with
  | error e => simp [h'] at h
  | ok t' =>
    simp only [h', Except.ok.injEq, Prod.mk.injEq] at h
    rw [← h.2]
    exact (hS.newVarnode loc.size loc.addr).setOutput h'

/-! ## Inputs of operations -/

/-- What a successful placement found: the operation, a slot at most one past the end, and the
varnode. -/
theorem setInput_ok (hL : s.Linked) {o v slot : Nat} (h : s.setInput o v slot = .ok t) :
    ∃ x, s.op? o = some x ∧ slot ≤ x.inputs.size ∧ (s.vn? v).isSome := by
  obtain ⟨x, hx⟩ : ∃ x, s.op? o = some x := by
    cases hx : s.op? o with
    | none => simp [Store.setInput, op, hx, bind, Except.bind] at h
    | some x => exact ⟨x, rfl⟩
  have hslot : slot ≤ x.inputs.size := by
    by_contra hlt
    simp [Store.setInput, op_eq_ok hx, bind, Except.bind, Nat.lt_of_not_le hlt, throw,
      throwThe, MonadExceptOf.throw] at h
  refine ⟨x, hx, hslot, ?_⟩
  cases hv : s.vn? v with
  | some _ => rfl
  | none =>
    -- the last step, adding `o` to the readers of `v`, fails
    rcases Nat.lt_or_ge slot x.inputs.size with hlt | hge
    · have hold := hL.input_exists hx (Array.getElem_mem hlt)
      simp only [Store.setInput, op_eq_ok hx, bind, Except.bind, Nat.not_lt.mpr hslot, if_false,
        dif_pos hlt] at h
      rw [removeUse_eq (by rw [vn?_modifyOp]; exact hold)] at h
      simp [addUse, vn, vn?_modifyVn, hv] at h
    · simp [Store.setInput, op_eq_ok hx, bind, Except.bind, Nat.not_lt.mpr hslot,
        Nat.not_lt.mpr hge, addUse, vn, vn?_modifyOp, hv, pure, Except.pure] at h

theorem Sound.setInput (hS : s.Sound) {o v slot : Nat} (h : s.setInput o v slot = .ok t) :
    t.Sound := by
  obtain ⟨x, hx, hslot, hv⟩ := setInput_ok hS.linked h
  rcases Nat.lt_or_ge slot x.inputs.size with hlt | hge
  · obtain ⟨t', h', hL, -, hnode, -⟩ := setInput_spec hS.linked hx hlt hv
    rw [h] at h'
    cases h'
    exact hS.of_node hL hnode
  · obtain rfl : slot = x.inputs.size := Nat.le_antisymm hslot hge
    obtain ⟨t', h', hL, -, hnode, -⟩ := setInput_push_spec hS.linked hx hv
    rw [h] at h'
    cases h'
    exact hS.of_node hL hnode

theorem Sound.insertInput (hS : s.Sound) {o v slot : Nat} (h : s.insertInput o v slot = .ok t) :
    t.Sound := by
  refine hS.of_node (hS.linked.insertInput h) ?_
  obtain ⟨x, -, -, -, rfl⟩ := insertInput_ok h
  rw [node_modifyVn, node_modifyOp]
  exact fun _ => rfl

theorem Sound.removeInput (hS : s.Sound) {o slot w : Nat} (h : s.removeInput o slot = .ok (w, t)) :
    t.Sound := by
  refine hS.of_node (hS.linked.removeInput h) ?_
  obtain ⟨x, -, -, -, -, rfl⟩ := removeInput_ok h
  rw [node_modifyVn, node_modifyOp]
  exact fun _ => rfl

/-! ## Varnodes of the function -/

theorem Sound.setVarnodeInput (hS : s.Sound) {v : Nat} (h : s.setVarnodeInput v = .ok t) :
    t.Sound := by
  obtain ⟨y, hy⟩ : ∃ y, s.vn? v = some y := by
    cases hy : s.vn? v with
    | none => simp [Store.setVarnodeInput, vn, hy, bind, Except.bind] at h
    | some y => exact ⟨y, rfl⟩
  have hfree : y.isFree = true := by
    cases hb : y.isFree
    · simp [Store.setVarnodeInput, vn_eq_ok hy, hb, bind, Except.bind, throw, throwThe,
        MonadExceptOf.throw] at h
    · rfl
  obtain ⟨t', h', hL, -, hvn, -⟩ := setVarnodeInput_spec hS.linked hy hfree
  rw [h] at h'
  cases h'
  refine ⟨hL, createIndex_transfer (fun w => ?_) hS.createIndex⟩
  rw [hvn w]
  split
  · subst_vars
    rw [hy]
    rfl
  · rfl

/-- What a successful deletion found: a varnode nothing reads or writes. -/
theorem deleteVarnode_ok {v : Nat} (h : s.deleteVarnode v = .ok t) :
    ∃ y, s.vn? v = some y ∧ y.uses.size = 0 ∧ y.defOp = none := by
  unfold deleteVarnode at h
  split at h
  · cases h
  · rename_i y hy
    split at h
    · cases h
    · split at h
      · cases h
      · exact ⟨y, hy, by omega, by simpa using ‹¬y.defOp.isSome = true›⟩

theorem Sound.deleteVarnode (hS : s.Sound) {v : Nat} (h : s.deleteVarnode v = .ok t) : t.Sound := by
  obtain ⟨y, hy, hu, hd⟩ := deleteVarnode_ok h
  obtain ⟨t', h', hL, -, hvn, -⟩ := deleteVarnode_spec hS.linked hy hu hd
  rw [h] at h'
  cases h'
  refine ⟨hL, fun {w y'} hy' => ?_⟩
  rw [hvn] at hy'
  split at hy'
  · cases hy'
  · exact hS.createIndex hy'

/-! ## Operations -/

theorem Sound.setUniqueOffset (hS : s.Sound) (u : UInt64) : ({ s with uniqueOffset := u } : Store).Sound :=
  ⟨⟨hS.linked.input_exists, hS.linked.uses_count, hS.linked.output_def, hS.linked.def_output,
    hS.linked.written, hS.linked.input_undef, hS.linked.constant, hS.linked.fresh⟩, hS.createIndex⟩

theorem Sound.newUnique (hS : s.Sound) {size k : Nat} (h : s.newUnique size = .ok (k, t)) :
    t.Sound := by
  unfold Store.newUnique at h
  split at h
  · cases h
  · cases h
    exact ((hS.setUniqueOffset _).newVarnode _ _).modifyVn _ (fun _ => ⟨rfl, rfl, rfl, rfl, rfl, rfl⟩)
      (fun _ => rfl)

theorem Sound.newOp_newSeq (hS : s.Sound) (addr : Address) (opc : Opcode) :
    ({ s with uniq := s.uniq + 1, ops := s.ops.push (some
        { opcode := opc, seq := ⟨addr, s.uniq⟩, flags := { OpFlags.ofOpcode opc with dead := true } }) } :
      Store).Sound :=
  ⟨hS.linked.newOp_newSeq addr opc, hS.createIndex⟩

/-- The links of a store after operation `o`, which reads and writes nothing, is destroyed. -/
theorem Linked.eraseOp (hL : s.Linked) {o : Nat} {x : Op} (hx : s.op? o = some x)
    (hin : x.inputs.size = 0) (hout : x.output = none) (d : Array (SeqNum × Opcode)) :
    ({ s with ops := s.ops.set! o none, destroyed := d } : Store).Linked := by
  have hop : ∀ o', ({ s with ops := s.ops.set! o none, destroyed := d } : Store).op? o' =
      if o' = o then none else s.op? o' := by
    intro o'
    simp only [op?, Array.set!_eq_setIfInBounds, Array.getElem?_setIfInBounds]
    split
    · subst_vars
      split <;> simp_all
    · simp_all [eq_comm]
  have hreads : ∀ o' w, ({ s with ops := s.ops.set! o none, destroyed := d } : Store).readsOf o' w =
      s.readsOf o' w := by
    intro o' w
    simp only [readsOf, hop]
    split
    · subst_vars
      simp [hx, Array.size_eq_zero_iff.mp hin]
    · rfl
  refine ⟨fun hx' hm => ?_, fun hy o' => ?_, fun hx' hv => ?_, fun hy hd => ?_, hL.written,
    hL.input_undef, hL.constant, fun hx' => ?_⟩
  · rw [hop] at hx'
    split at hx'
    · cases hx'
    · exact hL.input_exists hx' hm
  · rw [hreads]
    exact hL.uses_count hy o'
  · rw [hop] at hx'
    split at hx'
    · cases hx'
    · exact hL.output_def hx' hv
  · -- the destroyed operation wrote nothing, so no varnode names it
    rename_i v y o'
    obtain ⟨x', hx', hv⟩ := hL.def_output hy hd
    refine ⟨x', ?_, hv⟩
    rw [hop, if_neg]
    · exact hx'
    · rintro rfl
      rw [hx] at hx'
      cases hx'
      rw [hout] at hv
      cases hv
  · rw [hop] at hx'
    split at hx'
    · cases hx'
    · exact hL.fresh hx'

/-- Releasing the inputs of an operation from the last to the first, with fuel for all of them,
keeps the store sound and leaves the operation with no inputs. -/
theorem Sound.clearInputs {o : Nat} :
    ∀ (fuel : Nat) {s t : Store} {x : Op}, s.Sound → s.op? o = some x → x.inputs.size ≤ fuel →
      s.clearInputs o fuel = .ok t → t.Sound ∧ ∃ x', t.op? o = some x' ∧ x'.inputs.size = 0
  | 0, s, t, x, hS, hx, hf, h => by
    cases h
    exact ⟨hS, x, hx, Nat.le_zero.mp hf⟩
  | fuel + 1, s, t, x, hS, hx, hf, h => by
    simp only [Store.clearInputs, op_eq_ok hx, bind, Except.bind] at h
    split at h
    · cases h
      exact ⟨hS, x, hx, ‹_›⟩
    · split at h
      · cases h
      · rename_i hne _ p hp
        obtain ⟨w, s₁⟩ := p
        obtain ⟨x₁, hx₁, hslot, -, -, rfl⟩ := removeInput_ok hp
        rw [hx] at hx₁
        cases hx₁
        -- the operation has one input fewer, and the fuel one step less
        refine @Sound.clearInputs o fuel _ _ { x with inputs := x.inputs.eraseIdxIfInBounds (x.inputs.size - 1) }
          (hS.removeInput hp) ?_ ?_ h
        · rw [op?_modifyVn, op?_modifyOp, if_pos rfl, hx]
          rfl
        · simp only [Array.eraseIdxIfInBounds, dif_pos hslot, Array.size_eraseIdx]
          omega

theorem Sound.destroyOp (hS : s.Sound) {o : Nat} (h : s.destroyOp o = .ok t) : t.Sound := by
  unfold Store.destroyOp at h
  obtain ⟨x, hx, h⟩ := Except.bind_eq_ok h
  have hx : s.op? o = some x := by
    cases h' : s.op? o with
    | none => simp [op, h'] at hx
    | some x' => simp [op, h'] at hx; rw [hx]
  simp only at h
  split at h
  · simp [throw, throwThe, MonadExceptOf.throw, bind, Except.bind] at h
  · obtain ⟨s₁, h₁, h⟩ := Except.bind_eq_ok h
    obtain ⟨hS₁, x₁, hx₁, hin₁⟩ := Sound.clearInputs _ hS hx (Nat.le_refl _) h₁
    obtain ⟨⟨out, s₂⟩, h₂, h⟩ := Except.bind_eq_ok h
    obtain ⟨hS₂, x₂, hx₂, hx₂'⟩ := hS₁.unsetOutput h₂
    rw [hx₁, Option.some.injEq] at hx₂
    subst hx₂
    -- deleting the freed output, if nothing reads it, keeps the operations
    have h₃ : ∀ s₃ : Store, s₃.Sound → s₃.op? o = s₂.op? o →
        pure { s₃ with ops := s₃.ops.set! o none, destroyed := s₃.destroyed.push (x.seq, x.opcode) } =
          (Except.ok t : Except Fault Store) → t.Sound := by
      intro s₃ hS₃ hop₃ h
      cases h
      rw [hx₂'] at hop₃
      exact ⟨hS₃.linked.eraseOp hop₃ hin₁ rfl _, hS₃.createIndex⟩
    simp only at h
    split at h
    · split at h
      · rename_i hd
        obtain ⟨y, hy, hu, hdo⟩ := deleteVarnode_ok hd
        obtain ⟨t', h', -, hop, -⟩ := deleteVarnode_spec hS₂.linked hy hu hdo
        rw [hd] at h'
        cases h'
        exact h₃ _ (hS₂.deleteVarnode hd) (hop o) h
      · exact h₃ _ hS₂ rfl h
    · exact h₃ _ hS₂ rfl h

/-! ## Requests -/

theorem bind_pure_eq_ok {α : Type} {x : Except Fault α} {f : α → Reply} {g : α → Store} {r : Reply}
    (h : (x >>= fun a => pure (f a, g a)) = .ok (r, t)) : ∃ a, x = .ok a ∧ t = g a := by
  obtain ⟨a, ha, h⟩ := Except.bind_eq_ok h
  cases h
  exact ⟨a, ha, rfl⟩

/-- An edit that checks the operation exists and then changes it. -/
theorem checked_eq {α : Type} {c : Except Fault α} {u : Store} (h : (c >>= fun _ => pure u) = .ok t) :
    t = u := by
  obtain ⟨_, -, h⟩ := Except.bind_eq_ok h
  cases h
  rfl

/-- Every request that a store serves without a fault keeps it sound. -/
theorem Sound.apply (hS : s.Sound) {st : Step} {r : Reply} (h : st.apply s = .ok (r, t)) :
    t.Sound := by
  cases st with
  | newVarnode sp off size =>
    cases h
    exact hS.newVarnode _ _
  | newConstant size value =>
    cases h
    exact hS.newVarnode _ _
  | newUnique size =>
    obtain ⟨⟨k, t'⟩, h', rfl⟩ := bind_pure_eq_ok h
    exact hS.newUnique h'
  | newOp opc sp off =>
    obtain ⟨⟨k, t'⟩, h', rfl⟩ := bind_pure_eq_ok h
    cases h'.symm.trans (Store.newOp_newSeq hS.linked ⟨sp, off⟩ opc)
    exact hS.newOp_newSeq _ _
  | setOpcode o opc =>
    obtain ⟨t', h', rfl⟩ := bind_pure_eq_ok h
    rw [checked_eq h']
    exact hS.modifyOp o fun _ => ⟨rfl, rfl, rfl⟩
  | setInput o v slot =>
    obtain ⟨t', h', rfl⟩ := bind_pure_eq_ok h
    exact hS.setInput h'
  | insertInput o v slot =>
    obtain ⟨t', h', rfl⟩ := bind_pure_eq_ok h
    exact hS.insertInput h'
  | removeInput o slot =>
    obtain ⟨⟨w, t'⟩, h', rfl⟩ := bind_pure_eq_ok h
    exact hS.removeInput h'
  | setOutput o v =>
    obtain ⟨t', h', rfl⟩ := bind_pure_eq_ok h
    exact hS.setOutput h'
  | createOutput o sp off size =>
    obtain ⟨⟨v, t'⟩, h', rfl⟩ := bind_pure_eq_ok h
    exact hS.createOutput h'
  | unsetOutput o =>
    obtain ⟨⟨v, t'⟩, h', rfl⟩ := bind_pure_eq_ok h
    exact (hS.unsetOutput h').1
  | setVarnodeInput v =>
    obtain ⟨t', h', rfl⟩ := bind_pure_eq_ok h
    exact hS.setVarnodeInput h'
  | deleteVarnode v =>
    simp only [Step.apply] at h
    split at h
    · cases h
      exact hS.deleteVarnode ‹_›
    · cases h
      exact hS
  | markDead o =>
    obtain ⟨t', h', rfl⟩ := bind_pure_eq_ok h
    rw [checked_eq h']
    exact hS.modifyOp o fun _ => ⟨rfl, rfl, rfl⟩
  | markAlive o =>
    obtain ⟨t', h', rfl⟩ := bind_pure_eq_ok h
    rw [checked_eq h']
    exact hS.modifyOp o fun _ => ⟨rfl, rfl, rfl⟩
  | destroyOp o =>
    obtain ⟨t', h', rfl⟩ := bind_pure_eq_ok h
    exact hS.destroyOp h'
  | firstOpAt sp off =>
    cases h
    exact hS
  | nextAlive o =>
    obtain ⟨-, -, rfl⟩ := bind_pure_eq_ok h
    exact hS
  | prevAlive o =>
    obtain ⟨-, -, rfl⟩ := bind_pure_eq_ok h
    exact hS
  | varnodesAt sp off size =>
    cases h
    exact hS
  | varnodesInRange sp lo hi =>
    obtain ⟨-, -, rfl⟩ := bind_pure_eq_ok h
    exact hS

/-! ## Reachable stores -/

/-- The stores that requests served without a fault reach from an empty store, with blocks set
for operations and, for varnodes, values and the marks that neither links nor orders read
(annotation, implied) changed on the way. -/
inductive Reachable : Store → Prop where
  | init (constSpace : Nat) (uniqueSpace : Option Nat) : Reachable (Store.empty constSpace uniqueSpace)
  | apply {s t : Store} {r : Reply} (st : Step) : Reachable s → st.apply s = .ok (r, t) → Reachable t
  | setParent {s : Store} (o : Nat) (b : Option Nat) : Reachable s → Reachable (s.setParent o b)
  | touch {s : Store} (v : Nat) (value : Value) (annot implied : Bool) : Reachable s →
      Reachable (s.modifyVn v fun y =>
        { y with value := value, flags := { y.flags with annotation := annot, implied := implied } })

theorem sound_empty (constSpace : Nat) (uniqueSpace : Option Nat) :
    (Store.empty constSpace uniqueSpace).Sound := by
  have hv : ∀ v, (Store.empty constSpace uniqueSpace).vn? v = none := fun _ => rfl
  have ho : ∀ o, (Store.empty constSpace uniqueSpace).op? o = none := fun _ => rfl
  exact ⟨⟨fun hx => by simp [ho] at hx, fun hy => by simp [hv] at hy, fun hx => by simp [ho] at hx,
    fun hy => by simp [hv] at hy, fun hy => by simp [hv] at hy, fun hy => by simp [hv] at hy,
    fun hy => by simp [hv] at hy, fun hx => by simp [ho] at hx⟩, fun hy => by simp [hv] at hy⟩

/-- Every reachable store is sound. -/
theorem Reachable.sound (h : s.Reachable) : s.Sound := by
  induction h with
  | init cs us => exact sound_empty cs us
  | apply st _ hst ih => exact ih.apply hst
  | setParent o b _ ih => exact ih.modifyOp o fun _ => ⟨rfl, rfl, rfl⟩
  | touch v value a i _ ih =>
    exact ih.modifyVn v (fun _ => ⟨rfl, rfl, rfl, rfl, rfl, rfl⟩) fun _ => rfl

/-- The store a script ends with, when no request broke a contract, is reachable. -/
theorem Reachable.runSteps {steps : List (Except String Step)} {ds : List Doc} :
    s.Reachable → Store.runSteps s steps = .ok (ds, some t) → t.Reachable := by
  induction steps generalizing s ds with
  | nil =>
    intro hs h
    cases h
    exact hs
  | cons step rest ih =>
    intro hs h
    cases step with
    | error why => cases h
    | ok st =>
      simp only [Store.runSteps] at h
      split at h
      · cases h
      · split at h
        · cases h
        · rename_i r s' hst
          obtain ⟨⟨ds', fin⟩, h', h⟩ := Except.bind_eq_ok h
          cases h
          exact ih (hs.apply st hst) h'

/-- The store that requests served in turn build, when none breaks a contract, is reachable. -/
theorem Reachable.foldSteps {steps : List Step} (hs : s.Reachable)
    (h : steps.foldlM (fun s st => Prod.snd <$> st.apply s) s = .ok t) : t.Reachable := by
  induction steps generalizing s with
  | nil =>
    cases h
    exact hs
  | cons st rest ih =>
    rw [List.foldlM_cons] at h
    cases hst : st.apply s with
    | error e =>
      rw [hst] at h
      cases h
    | ok rs =>
      rw [hst] at h
      exact ih (hs.apply st hst) h

end Store

end MicroSsa
