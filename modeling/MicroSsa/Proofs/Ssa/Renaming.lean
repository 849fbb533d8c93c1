import MicroSsa.Proofs.Ssa.Variables
/-!
# Renaming keeps the operations and the blocks

Renaming walks the dominator tree and replaces each free read by the write of its variable
that reaches it, through stacks of writes. It rewrites input slots only: every operation keeps
its opcode, output, block and number of inputs, and the block graph is untouched. The stacks
only ever hold varnodes that exist and are written or inputs of the function, so no read that
renaming makes is of a varnode it deletes.

`Renamed f₁ f st` is that frame between the function `f₁` renaming starts from and the state
`f` with stacks `st`; `renameTree_spec` says that renaming the tree succeeds and keeps it.
-/

namespace MicroSsa

/-- A fold whose every step succeeds from a state with property `P` and keeps it succeeds. -/
theorem foldlM_exists_ok {ε α β : Type} {step : β → α → Except ε β} (P : β → Prop) :
    ∀ {l : List α}, (∀ a ∈ l, ∀ x, P x → ∃ y, step x a = .ok y ∧ P y) →
      ∀ b, P b → ∃ b', l.foldlM step b = .ok b' ∧ P b'
  | [], _, b, hb => ⟨b, rfl, hb⟩
  | a :: l, hstep, b, hb => by
    obtain ⟨c, hc, hPc⟩ := hstep a List.mem_cons_self b hb
    obtain ⟨b', hb', hPb'⟩ := foldlM_exists_ok P (fun a' ha' => hstep a' (List.mem_cons_of_mem _ ha')) c hPc
    exact ⟨b', by rw [List.foldlM_cons, hc]; exact hb', hPb'⟩

/-- A computation followed by another succeeds when each succeeds from what the one before
gives. -/
theorem Except.exists_ok_bind {ε α β : Type} {x : Except ε α} {g : α → Except ε β} {P : α → Prop}
    {Q : β → Prop} (hx : ∃ a, x = .ok a ∧ P a) (hg : ∀ a, P a → ∃ b, g a = .ok b ∧ Q b) :
    ∃ b, (x >>= g) = .ok b ∧ Q b := by
  obtain ⟨a, rfl, ha⟩ := hx
  exact hg a ha

/-- An operation with the varnodes it reads blanked, keeping how many slots it has. -/
def Op.skeleton (x : Op) : Op := { x with inputs := Array.replicate x.inputs.size 0 }

@[simp] theorem Op.skeleton_opcode (x : Op) : x.skeleton.opcode = x.opcode := rfl
@[simp] theorem Op.skeleton_output (x : Op) : x.skeleton.output = x.output := rfl
@[simp] theorem Op.skeleton_parent (x : Op) : x.skeleton.parent = x.parent := rfl
@[simp] theorem Op.skeleton_flags (x : Op) : x.skeleton.flags = x.flags := rfl
@[simp] theorem Op.skeleton_inputs_size (x : Op) : x.skeleton.inputs.size = x.inputs.size := by
  simp [Op.skeleton]

theorem Op.skeleton_set (x : Op) (slot v : Nat) :
    ({ x with inputs := x.inputs.set! slot v } : Op).skeleton = x.skeleton := by
  simp [Op.skeleton]

@[simp] theorem Varnode.unread_isFree (y : Varnode) : y.unread.isFree = y.isFree := rfl

namespace Store

variable {s t : Store}

/-- Every varnode on a stack exists and is not free. -/
def StacksHeld (s : Store) (st : Function.Stacks) : Prop :=
  ∀ e ∈ st, ∀ v ∈ e.2, ∃ y, s.vn? v = some y ∧ y.isFree = false

/-- A change that keeps the nodes keeps every varnode, with its marks. -/
theorem exists_vn?_of_node (hn : t.node = s.node) {v : Nat} {y : Varnode} (hy : s.vn? v = some y) :
    ∃ y', t.vn? v = some y' ∧ y'.isFree = y.isFree := by
  have hnv := congrFun hn v
  simp only [node, hy, Option.map_some] at hnv
  obtain ⟨y', hy', hu⟩ := Option.map_eq_some_iff.mp hnv
  exact ⟨y', hy', by rw [← Varnode.unread_isFree, hu, Varnode.unread_isFree]⟩

theorem StacksHeld.of_node {st : Function.Stacks} (h : s.StacksHeld st) (hn : t.node = s.node) :
    t.StacksHeld st := fun e he v hv => by
  obtain ⟨y, hy, hf⟩ := h e he v hv
  obtain ⟨y', hy', hu⟩ := exists_vn?_of_node hn hy
  exact ⟨y', hy', hu.trans hf⟩

/-- Stacks whose lists only lose entries, or gain existing varnodes that are not free, stay
held. -/
theorem StacksHeld.map {st : Function.Stacks} (h : s.StacksHeld st)
    (F : Location × List Nat → Location × List Nat)
    (hF : ∀ e ∈ st, ∀ v ∈ (F e).2, v ∈ e.2 ∨ ∃ y, s.vn? v = some y ∧ y.isFree = false) :
    s.StacksHeld (st.map F) := fun e' he' v hv => by
  obtain ⟨e, he, rfl⟩ := List.mem_map.mp he'
  rcases hF e he v hv with hv | hv
  · exact h e he v hv
  · exact hv

/-- The output of an operation exists and is written, so it is not free. -/
theorem output_not_free (hL : s.Linked) {o v : Nat} {x : Op} (hx : s.op? o = some x)
    (hv : x.output = some v) : ∃ y, s.vn? v = some y ∧ y.isFree = false := by
  obtain ⟨y, hy, hd⟩ := hL.output_def hx hv
  refine ⟨y, hy, ?_⟩
  have hw := hL.written hy
  rw [hd] at hw
  simp [Varnode.isFree, hw]

/-- Popping the writes of a block keeps the stacks held. -/
theorem StacksHeld.popDefs : ∀ {st : Function.Stacks} (defs : List Location), s.StacksHeld st →
    s.StacksHeld (Function.popDefs st defs)
  | _, [], h => h
  | _, _ :: defs, h => StacksHeld.popDefs defs (h.map _ fun _ _ w hw => .inl (by
      split at hw
      split at hw
      · exact List.mem_of_mem_drop hw
      · exact hw))

theorem StacksHeld.deleteVarnode {st : Function.Stacks} (h : s.StacksHeld st) (hL : s.Linked)
    {p : Nat} {yp : Varnode} (hp : s.vn? p = some yp) (hpf : yp.isFree = true)
    (hd : s.deleteVarnode p = .ok t) : t.StacksHeld st := fun e he v hv => by
  obtain ⟨y, hy, hu, hdo⟩ := deleteVarnode_ok hd
  obtain ⟨t', h', -, -, hvn, -⟩ := deleteVarnode_spec hL hy hu hdo
  rw [hd] at h'
  cases h'
  obtain ⟨y', hy', hf⟩ := h e he v hv
  -- a varnode on a stack is not free, so it is not the one deleted
  have hne : v ≠ p := by
    rintro rfl
    rw [hp] at hy'
    cases hy'
    rw [hpf] at hf
    cases hf
  exact ⟨y', by rw [hvn, if_neg hne, hy'], hf⟩

end Store

namespace Function

variable {f₁ f : Function} {st : Stacks}

/-- The frame of renaming: `f` is `f₁` with input slots rewritten, and the stacks `st` hold
existing varnodes that are not free. -/
structure Renamed (f₁ f : Function) (st : Stacks) : Prop where
  sound : f.store.Sound
  graph : f.graph = f₁.graph
  ops : ∀ o, (f.store.op? o).map Op.skeleton = (f₁.store.op? o).map Op.skeleton
  held : f.store.StacksHeld st

/-- The last step of renaming a read: the placeholder, free, is deleted if nothing reads it any
more, and kept otherwise. -/
theorem Renamed.of_delete {g : Function} (hgraph : g.graph = f₁.graph) {t : Store} (hS : t.Sound)
    (hops : ∀ o, (t.op? o).map Op.skeleton = (f₁.store.op? o).map Op.skeleton)
    (hheld : t.StacksHeld st) {p : Nat} {yp : Varnode} (hp : t.vn? p = some yp)
    (hpf : yp.isFree = true) {t' : Store} (ht' : t' = t ∨ t.deleteVarnode p = .ok t') :
    Renamed f₁ { g with store := t' } st := by
  rcases ht' with rfl | hd
  · exact ⟨hS, hgraph, hops, hheld⟩
  · obtain ⟨y, hy, hu, hdo⟩ := Store.deleteVarnode_ok hd
    obtain ⟨t'', h', -, hop, -⟩ := Store.deleteVarnode_spec hS.linked hy hu hdo
    rw [hd] at h'
    cases h'
    exact ⟨hS.deleteVarnode hd, hgraph, fun o => by rw [← hops o, hop o],
      hheld.deleteVarnode hS.linked hp hpf hd⟩

/-- Two states of one renaming agree on which operations exist and on their slot counts. -/
theorem Renamed.op_some {g g' : Function} {st' : Stacks} (h : Renamed f₁ g st)
    (h' : Renamed f₁ g' st') {o : Nat} {x : Op} (hx : g.store.op? o = some x) :
    ∃ x', g'.store.op? o = some x' ∧ x'.inputs.size = x.inputs.size := by
  have hs := (h'.ops o).trans (h.ops o).symm
  rw [hx, Option.map_some] at hs
  obtain ⟨x', hx', hsk⟩ := Option.map_eq_some_iff.mp hs
  exact ⟨x', hx', by rw [← Op.skeleton_inputs_size, hsk, Op.skeleton_inputs_size]⟩

theorem renameRead_spec (h : Renamed f₁ f st) {o slot placeholder : Nat} {x : Op}
    (hx : f.store.op? o = some x) (hslot : slot < x.inputs.size) {y : Varnode}
    (hy : f.store.vn? placeholder = some y) (hfree : y.isFree = true) :
    ∃ f' st', f.renameRead st o slot placeholder = .ok (f', st') ∧ Renamed f₁ f' st' := by
  unfold renameRead
  simp only [hy]
  cases hk : variableOf y with
  | none => exact ⟨f, st, rfl, h⟩
  | some key =>
    simp only
    cases hfind : st.find? (·.1 == key) with
    | none => exact ⟨f, st, rfl, h⟩
    | some e =>
      obtain ⟨k', stack⟩ := e
      have hmem : (k', stack) ∈ st := List.mem_of_find?_eq_some hfind
      -- rewriting slot `slot` keeps the operation's skeleton
      have hskel : ∀ (t : Store) (v : Nat), (∀ o', t.op? o' = if o' = o then
          some { x with inputs := x.inputs.set! slot v } else f.store.op? o') →
          ∀ o', (t.op? o').map Op.skeleton = (f₁.store.op? o').map Op.skeleton := by
        intro t v ht o'
        rw [ht, ← h.ops o']
        split
        · subst_vars
          rw [hx, Option.map_some, Option.map_some, Op.skeleton_set]
        · rfl
      cases stack with
      | cons top rest =>
        obtain ⟨yc, hyc, -⟩ := h.held _ hmem top List.mem_cons_self
        obtain ⟨t, hrun, hL, hop, hnode, -⟩ :=
          Store.setInput_spec h.sound.linked hx hslot (v := top) (by rw [hyc]; rfl)
        simp only [bind, Except.bind, pure, Except.pure, hrun]
        obtain ⟨yp, hyp, hpf⟩ := Store.exists_vn?_of_node hnode hy
        refine ⟨_, _, rfl, Renamed.of_delete h.graph (h.sound.of_node hL hnode) (hskel t top hop)
          (h.held.of_node hnode) hyp (hpf.trans hfree) ?_⟩
        split
        · exact .inr ‹_›
        · exact .inl rfl
      | nil =>
        -- no write reaches: a new input of the variable is made, outside the constant space
        have hsp : (key.addr.space == f.store.constSpace) = false := by
          obtain ⟨hc, -, rfl⟩ := variableOf_eq_some.mp hk
          rw [← h.sound.linked.constant hy, hc]
        have hy₀ := Store.vn?_newVarnode f.store key.size key.addr f.store.varnodes.size
        rw [if_pos rfl] at hy₀
        obtain ⟨t₀, hrun₀, hL₀, hop₀, hvn₀, -⟩ :=
          Store.setVarnodeInput_spec (h.sound.linked.newVarnode key.size key.addr) hy₀
            (by simp [Varnode.isFree, hsp])
        have hS₀ : t₀.Sound := (h.sound.newVarnode key.size key.addr).setVarnodeInput hrun₀
        -- the varnodes of `f` are as they were
        have hold : ∀ {w yw}, f.store.vn? w = some yw → t₀.vn? w = some yw := by
          intro w yw hw
          have hne : w ≠ f.store.varnodes.size := Nat.ne_of_lt (Store.lt_of_isSome_vn? (by rw [hw]; rfl))
          rw [hvn₀, if_neg hne, Store.vn?_newVarnode, if_neg hne, hw]
        have hx₀ : t₀.op? o = some x := by rw [hop₀, Store.op?_newVarnode, hx]
        obtain ⟨t, hrun, hL, hop, hnode, -⟩ :=
          Store.setInput_spec hL₀ hx₀ hslot (v := f.store.varnodes.size) (by rw [hvn₀, if_pos rfl]; rfl)
        simp only [bind, Except.bind, pure, Except.pure, Store.fst_newVarnode, hrun₀, hrun]
        have hheld : t₀.StacksHeld (st.map fun e =>
            if (e.1 == key) = true then (e.1, [f.store.varnodes.size]) else (e.1, e.2)) := by
          intro e' he' w hw
          obtain ⟨e, he, rfl⟩ := List.mem_map.mp he'
          split at hw
          · rw [List.mem_singleton.mp hw, hvn₀, if_pos rfl]
            exact ⟨_, rfl, by simp [Varnode.isFree]⟩
          · obtain ⟨yw, hyw, hf⟩ := h.held e he w hw
            exact ⟨yw, hold hyw, hf⟩
        obtain ⟨yp, hyp, hpf⟩ := Store.exists_vn?_of_node hnode (hold hy)
        refine ⟨_, _, rfl, Renamed.of_delete h.graph (hS₀.of_node hL hnode)
          (hskel t _ fun o' => by rw [hop o', hop₀, Store.op?_newVarnode]) (hheld.of_node hnode) hyp
          (hpf.trans hfree) ?_⟩
        split
        · exact .inr ‹_›
        · exact .inl rfl

/-- Renaming one read in slot `slot` of `o`, when the varnode there is free, succeeds and keeps
the frame. -/
theorem Renamed.renameRead_of_free {g : Function} {st₁ : Stacks} (h : Renamed f₁ g st₁)
    {o slot v : Nat} {x : Op} (hx : g.store.op? o = some x) (hslot : slot < x.inputs.size)
    (hfree : Option.any (fun y => y.isFree) (g.store.vn? v) = true) :
    ∃ r, g.renameRead st₁ o slot v = .ok r ∧ Renamed f₁ r.1 r.2 := by
  obtain ⟨y, hy, hf⟩ := (Option.any_eq_true _ _).mp hfree
  obtain ⟨g', st', hrun, hR⟩ := renameRead_spec h hx hslot hy hf
  exact ⟨(g', st'), hrun, hR⟩

/-- Renaming one block succeeds and keeps the frame. -/
theorem renameBlock_spec (h : Renamed f₁ f st) (b : Nat) :
    ∃ r, f.renameBlock st b = .ok r ∧ Renamed f₁ r.1 r.2.1 := by
  unfold renameBlock
  refine Except.exists_ok_bind (P := fun acc : Function × Stacks × List Location => Renamed f₁ acc.1 acc.2.1)
    (foldlM_exists_ok _ (fun o _ acc hacc => ?_) _ h) fun acc hacc => ?_
  · -- one operation: its reads unless it is a merge, then its write onto the stacks
    obtain ⟨g, st₁, defs⟩ := acc
    simp only
    split
    all_goals apply Except.exists_ok_bind (P := fun acc : Function × Stacks => Renamed f₁ acc.1 acc.2)
    pick_goal 3
    · refine foldlM_exists_ok _ (fun vs hvs acc' hR' => ?_) _ hacc
      split
      · -- the slot is one of the operation's, which renaming does not add or remove
        cases hgo : g.store.op? o with
        | none => simp [hgo] at hvs
        | some xo =>
          rw [hgo, Option.map_some, Option.getD_some] at hvs
          obtain ⟨-, hslot, -⟩ := List.mem_zipIdx hvs
          obtain ⟨x', hx', hsz⟩ := hacc.op_some hR' hgo
          exact hR'.renameRead_of_free hx' (by rw [hsz]; simpa using hslot) ‹_›
      · exact ⟨acc', rfl, hR'⟩
    · exact ⟨_, rfl, hacc⟩
    all_goals
      intro acc hR
      split
      · rename_i x v _ hv
        obtain ⟨xo, hxo, hout⟩ := Option.bind_eq_some_iff.mp hv
        split
        · split
          · refine ⟨_, rfl, hR.sound, hR.graph, hR.ops, hR.held.map _ fun e _ w hw => ?_⟩
            split at hw
            · rcases List.mem_cons.mp hw with rfl | hw
              · exact .inr (Store.output_not_free hR.sound.linked hxo hout)
              · exact .inl hw
            · exact .inl hw
          · exact ⟨_, rfl, hR⟩
        · exact ⟨_, rfl, hR⟩
      · exact ⟨_, rfl, hR⟩
  · -- the merges of the successors, at the slot of each out-edge
    obtain ⟨g, st₁, defs⟩ := acc
    simp only
    refine Except.exists_ok_bind (P := fun acc : Function × Stacks => Renamed f₁ acc.1 acc.2)
      (foldlM_exists_ok _ (fun e _ acc' hR' => ?_) _ hacc) fun acc hR => ⟨_, rfl, hR⟩
    refine foldlM_exists_ok _ (fun m _ acc'' hR'' => ?_) _ hR'
    split
    · rename_i v hv
      obtain ⟨xm, hxm, hin⟩ := Option.bind_eq_some_iff.mp hv
      split
      · exact hR''.renameRead_of_free hxm (Array.getElem?_eq_some_iff.mp hin).1 ‹_›
      · exact ⟨_, rfl, hR''⟩
    · exact ⟨_, rfl, hR''⟩

/-- Renaming a dominator subtree succeeds and keeps the frame, whatever the fuel. -/
theorem renameTree_spec (f₁ : Function) :
    ∀ fuel f st b, Renamed f₁ f st → ∃ r, renameTree fuel f st b = .ok r ∧ Renamed f₁ r.1 r.2
  | 0, f, st, _, h => ⟨(f, st), rfl, h⟩
  | fuel + 1, f, st, b, h => by
    unfold renameTree
    apply Except.exists_ok_bind
      (P := fun acc : Function × Stacks × List Location => Renamed f₁ acc.1 acc.2.1) (renameBlock_spec h b)
    intro acc hacc
    obtain ⟨g, st₁, defs⟩ := acc
    simp only
    -- each child is renamed from the state its elder siblings left
    apply Except.exists_ok_bind (P := fun acc : Function × Stacks => Renamed f₁ acc.1 acc.2)
      (foldlM_exists_ok _ (fun c _ acc hR => renameTree_spec f₁ fuel acc.1 acc.2 c hR) _ hacc)
    intro acc hR
    exact ⟨_, rfl, hR.sound, hR.graph, hR.ops, hR.held.popDefs defs⟩

/-! ## What renaming keeps -/

theorem Renamed.op_of_start (h : Renamed f₁ f st) {o : Nat} {x₁ : Op} (hx₁ : f₁.store.op? o = some x₁) :
    ∃ x, f.store.op? o = some x ∧ x.skeleton = x₁.skeleton := by
  have hs := h.ops o
  rw [hx₁, Option.map_some] at hs
  exact Option.map_eq_some_iff.mp hs

theorem Renamed.op_to_start (h : Renamed f₁ f st) {o : Nat} {x : Op} (hx : f.store.op? o = some x) :
    ∃ x₁, f₁.store.op? o = some x₁ ∧ x.skeleton = x₁.skeleton := by
  have hs := (h.ops o).symm
  rw [hx, Option.map_some] at hs
  obtain ⟨x₁, hx₁, hsk⟩ := Option.map_eq_some_iff.mp hs
  exact ⟨x₁, hx₁, hsk.symm⟩

/-- Renaming keeps the blocks' lists of operations holding. -/
theorem Renamed.blocksHold (h : Renamed f₁ f st) (hB : f₁.BlocksHold) : f.BlocksHold where
  member {b o} ho := by
    rw [h.graph] at ho
    obtain ⟨x₁, hx₁, hp, hd⟩ := hB.member ho
    obtain ⟨x, hx, hsk⟩ := h.op_of_start hx₁
    refine ⟨x, hx, ?_, ?_⟩
    · rw [← Op.skeleton_parent, hsk, Op.skeleton_parent, hp]
    · rw [← Op.skeleton_flags, hsk, Op.skeleton_flags, hd]
  listed {o x b} hx hp := by
    obtain ⟨x₁, hx₁, hsk⟩ := h.op_to_start hx
    rw [h.graph]
    exact hB.listed hx₁ (by rw [← Op.skeleton_parent, ← hsk, Op.skeleton_parent, hp])
  nodup b := by
    rw [h.graph]
    exact hB.nodup b

end Function

end MicroSsa
