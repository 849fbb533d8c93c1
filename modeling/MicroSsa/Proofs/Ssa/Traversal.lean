import MicroSsa.Proofs.Ssa.Stacks
/-!
# Renaming along the dominator tree

Renaming visits the dominator tree from the entry: a block, then the subtrees of its children,
then it pops the writes the block pushed. `Function.Progress` is the state of that walk: the
operations visited so far have each read renamed to the write of its variable that reaches it
along the dominator chain of its block (`Function.SlotsOk`), the others are untouched, and the
merges at the ends of the out-edges of the blocks visited so far have the slots of those edges
settled, on an input of the function or the output of an operation.

One lemma per level: `renameReads_spec` for the reads of one operation, `Progress.renameBlock`
for a block (its operations, then the merges of its successors), `Progress.renameTree` for a
subtree, by induction on the fuel; the stacks after a subtree are the stacks before it.
`renameAll_progress` puts it together: renaming from the entry visits every reached block.
-/

namespace MicroSsa

/-- A fold whose steps each succeed from a state that the steps so far leave in `P` succeeds,
and leaves the whole list in `P`. -/
theorem foldlM_exists_ok_after {ε α β : Type} {step : β → α → Except ε β}
    (P : List α → β → Prop) :
    ∀ (l pre : List α) (b : β), P pre b →
      (∀ l₁ a l₂, l = l₁ ++ a :: l₂ → ∀ x, P (pre ++ l₁) x →
        ∃ y, step x a = .ok y ∧ P (pre ++ l₁ ++ [a]) y) →
      ∃ b', l.foldlM step b = .ok b' ∧ P (pre ++ l) b'
  | [], pre, b, hb, _ => ⟨b, rfl, by simpa using hb⟩
  | a :: l, pre, b, hb, hstep => by
    obtain ⟨c, hc, hPc⟩ := hstep [] a l rfl b (by simpa using hb)
    obtain ⟨b', hb', hPb'⟩ := foldlM_exists_ok_after P l (pre ++ [a]) c (by simpa using hPc)
      (fun l₁ a' l₂ hl x hx => by
        obtain ⟨y, hy, hPy⟩ := hstep (a :: l₁) a' l₂ (by rw [hl]; rfl) x (by simpa using hx)
        exact ⟨y, hy, by simpa using hPy⟩)
    exact ⟨b', by rw [List.foldlM_cons, hc]; exact hb', by simpa using hPb'⟩

/-- The same, from the start of the list. -/
theorem foldlM_exists_ok_of_steps {ε α β : Type} {step : β → α → Except ε β}
    (P : List α → β → Prop) (l : List α) (b : β) (hb : P [] b)
    (hstep : ∀ l₁ a l₂, l = l₁ ++ a :: l₂ → ∀ x, P l₁ x → ∃ y, step x a = .ok y ∧ P (l₁ ++ [a]) y) :
    ∃ b', l.foldlM step b = .ok b' ∧ P l b' := by
  simpa using foldlM_exists_ok_after P l [] b hb (fun l₁ a l₂ hl x hx => by
    simpa using hstep l₁ a l₂ hl x (by simpa using hx))

/-- The element of an indexed list after `l₁` carries the index `l₁.length`. -/
theorem zipIdx_eq_append {l : List Nat} {l₁ l₂ : List (Nat × Nat)} {a : Nat × Nat}
    (h : l.zipIdx = l₁ ++ a :: l₂) : a.2 = l₁.length ∧ l[l₁.length]? = some a.1 := by
  have hget := congrArg (·[l₁.length]?) h
  simp only [List.getElem?_zipIdx, List.getElem?_append_right (le_refl _), Nat.sub_self,
    List.getElem?_cons_zero, Nat.zero_add] at hget
  obtain ⟨v, hv, rfl⟩ := Option.map_eq_some_iff.mp hget
  exact ⟨rfl, hv⟩

namespace Function

variable (f₁ : Function) (e : Nat) (K : List Location)

/-- The read of varnode `v` in `f₁` is one that renaming rewrites, as a read of variable `k`:
`v` is free and at `k`, and `k` has a stack. -/
def RenamesTo (v : Nat) (k : Location) : Prop :=
  ∃ y, f₁.store.vn? v = some y ∧ y.isFree = true ∧ variableOf y = some k ∧ k ∈ K

/-- Slot content `w` in place of the read `v₁` of `f₁`, once the operations `L` have run: the
write of its variable that reaches it, or `v₁` itself when renaming leaves it. -/
def SlotOk (s : Store) (L : List Nat) (v₁ w : Nat) : Prop :=
  (∀ k, f₁.RenamesTo K v₁ k → f₁.ReadsAfter s L k w) ∧ ((∀ k, ¬f₁.RenamesTo K v₁ k) → w = v₁)

/-- Every slot of `ins` is right in place of the same slot of `ins₁`. -/
def SlotsOk (s : Store) (L : List Nat) (ins₁ ins : Array Nat) : Prop :=
  ins.size = ins₁.size ∧ ∀ (i v₁ : Nat), ins₁[i]? = some v₁ → ∃ w, ins[i]? = some w ∧ f₁.SlotOk K s L v₁ w

/-- Varnode `w` is an input of the function or the output of an operation of `f₁`. -/
def Settled (s : Store) (w : Nat) : Prop :=
  (∃ k, s.IsInputOf w k) ∨ ∃ d, f₁.outOf d = some w

/-- The operations that run before `o` along the dominator chain `q` of its block `c`: those of
the blocks above `c`, then those of `c` in front of `o`. -/
def runBefore (q : List Nat) (c o : Nat) : List Nat :=
  f₁.graph.runOps q.tail ++ (f₁.graph.get c).ops.toList.takeWhile (· != o)

/-- The state of renaming, started from `f₁` with the variables `K`, at `g` with stacks `st`:
each operation of `Done` that is not a merge has its reads renamed to the writes that reach them
along the dominator chain; the other operations that are not merges are untouched; a merge slot
holds its placeholder or is settled; and the merges at the ends of the out-edges of the blocks
`Edged` have the slots of those edges settled. -/
structure Progress (g : Function) (st : Stacks) (Done Edged : Nat → Prop) : Prop where
  renamed : Renamed f₁ g st
  keeps : f₁.store.Keeps g.store
  keys : st.map Prod.fst = K
  done : ∀ o, Done o → f₁.isMerge o = false → ∀ c q, f₁.graph.DomChain e c q →
    o ∈ (f₁.graph.get c).ops → ∀ x₁ x, f₁.store.op? o = some x₁ → g.store.op? o = some x →
      f₁.SlotsOk K g.store (f₁.runBefore q c o) x₁.inputs x.inputs
  todo : ∀ o, ¬Done o → f₁.isMerge o = false →
    (g.store.op? o).map (·.inputs) = (f₁.store.op? o).map (·.inputs)
  merges : ∀ m x₁ x, f₁.isMerge m = true → f₁.store.op? m = some x₁ → g.store.op? m = some x →
    ∀ (i w : Nat), x.inputs[i]? = some w → x₁.inputs[i]? = some w ∨ f₁.Settled g.store w
  edges : ∀ P, Edged P → ∀ oe ∈ (f₁.graph.get P).outs,
    ∀ m ∈ (f₁.graph.get oe.target).ops.toList.takeWhile f₁.isMerge,
      ∀ x w, g.store.op? m = some x → x.inputs[oe.inSlot]? = some w → f₁.Settled g.store w

variable {f₁ e K} {s t : Store}

theorem SlotOk.keeps {L : List Nat} {v₁ w : Nat} (h : f₁.SlotOk K s L v₁ w) (hk : s.Keeps t) :
    f₁.SlotOk K t L v₁ w :=
  ⟨fun k hr => (h.1 k hr).keeps hk, h.2⟩

theorem SlotsOk.keeps {L : List Nat} {ins₁ ins : Array Nat} (h : f₁.SlotsOk K s L ins₁ ins)
    (hk : s.Keeps t) : f₁.SlotsOk K t L ins₁ ins :=
  ⟨h.1, fun i v₁ hv => (h.2 i v₁ hv).imp fun _ hw => ⟨hw.1, hw.2.keeps hk⟩⟩

theorem Settled.keeps {w : Nat} (h : f₁.Settled s w) (hk : s.Keeps t) : f₁.Settled t w :=
  h.imp_left fun ⟨k, hin⟩ => ⟨k, hin.keeps hk⟩

/-- A settled varnode is not free: an input, or written by the operation whose output it is. -/
theorem Settled.not_free {g : Function} {st : Stacks} (hR : Renamed f₁ g st) {w : Nat}
    (h : f₁.Settled g.store w) {y : Varnode} (hy : g.store.vn? w = some y) : y.isFree = false := by
  rcases h with ⟨k, y', hy', hin, -⟩ | ⟨d, hd⟩
  · rw [hy] at hy'
    cases hy'
    simp [Varnode.isFree, hin]
  · obtain ⟨x₁, hx₁, hout⟩ := Option.bind_eq_some_iff.mp hd
    obtain ⟨x, hx, hsk⟩ := hR.op_of_start hx₁
    have hout' : x.output = some w := by rw [← Op.skeleton_output, hsk, Op.skeleton_output, hout]
    obtain ⟨y', hy', hdef⟩ := hR.sound.linked.output_def hx hout'
    rw [hy] at hy'
    cases hy'
    have hw := hR.sound.linked.written hy
    rw [hdef] at hw
    simp [Varnode.isFree, hw]

theorem Progress.congr {g : Function} {st : Stacks} {Done Done' Edged Edged' : Nat → Prop}
    (h : f₁.Progress e K g st Done Edged) (hD : ∀ o, Done' o ↔ Done o) (hE : ∀ P, Edged' P ↔ Edged P) :
    f₁.Progress e K g st Done' Edged' where
  renamed := h.renamed
  keeps := h.keeps
  keys := h.keys
  done o ho := h.done o ((hD o).mp ho)
  todo o ho := h.todo o (fun h' => ho ((hD o).mpr h'))
  merges := h.merges
  edges P hP := h.edges P ((hE P).mp hP)


/-! ## Stacks by variable -/

theorem find?_of_mem_keys {st : Stacks} (hkeys : st.map Prod.fst = K) {k : Location} (hk : k ∈ K) :
    ∃ a, st.find? (·.1 == k) = some a ∧ a ∈ st ∧ a.1 = k := by
  rw [← hkeys] at hk
  obtain ⟨b, hb, hbk⟩ := List.mem_map.mp hk
  obtain ⟨a, ha⟩ := Option.isSome_iff_exists.mp
    ((List.find?_isSome (p := fun a : Location × List Nat => a.1 == k)).mpr ⟨b, hb, by simp [hbk]⟩)
  have hak := List.find?_some ha
  exact ⟨a, ha, List.mem_of_find?_eq_some ha, beq_iff_eq.mp hak⟩

theorem find?_of_not_mem_keys {st : Stacks} (hkeys : st.map Prod.fst = K) {k : Location}
    (hk : k ∉ K) : st.find? (·.1 == k) = none := by
  refine List.find?_eq_none.mpr fun a ha hak => hk ?_
  rw [← hkeys, show k = a.1 by simpa using (beq_iff_eq.mp hak).symm]
  exact List.mem_map_of_mem ha

/-- A stack emptied of writes takes a new input of its variable; with one stack per variable,
no other stack changes. -/
theorem StacksAfter.rebase {st : Stacks} {L : List Nat} (h : f₁.StacksAfter s st L)
    (hnd : (st.map Prod.fst).Nodup) {a : Location × List Nat} (ha : a ∈ st) {k : Location}
    (hak : a.1 = k) (hnil : a.2 = []) {w : Nat} (hw : s.IsInputOf w k) :
    f₁.StacksAfter s (st.map fun b => if b.1 == k then (b.1, [w]) else b) L := by
  intro b' hb'
  obtain ⟨b, hb, rfl⟩ := List.mem_map.mp hb'
  by_cases hbk : b.1 = k
  · obtain rfl : b = a := List.inj_on_of_nodup_map hnd hb ha (hbk.trans hak.symm)
    simp only [hbk, beq_self_eq_true, if_true]
    have hst := h b hb
    rw [hbk, hnil] at hst
    exact hst.input hw
  · simpa [hbk] using h b hb

theorem keys_map_rebase (st : Stacks) (k : Location) (w : Nat) :
    (st.map fun b => if b.1 == k then (b.1, [w]) else b).map Prod.fst = st.map Prod.fst := by
  rw [List.map_map]
  exact List.map_congr_left fun b _ => by
    show (if b.1 == k then (b.1, [w]) else b).1 = b.1
    split <;> rfl

/-! ## The reads of one operation -/

/-- One slot of the reads of `o`, holding the read `v` of `f₁`: the slot is renamed to the write
of its variable after the operations `L`, or left as it is; no other slot and no other operation
changes, and the stacks stay those after `L`. -/
theorem renameSlot_step (hS₁ : f₁.store.Sound) (hK : K.Nodup) {acc : Function × Stacks}
    (hR : Renamed f₁ acc.1 acc.2) (hk₁ : f₁.store.Keeps acc.1.store) (hkeys : acc.2.map Prod.fst = K)
    {L : List Nat} (hst : f₁.StacksAfter acc.1.store acc.2 L) {o i v : Nat} {x₁ x : Op}
    (hx₁ : f₁.store.op? o = some x₁) (hv₁ : x₁.inputs[i]? = some v)
    (hx : acc.1.store.op? o = some x) (hxi : x.inputs[i]? = some v) :
    ∃ r, (if (acc.1.store.vn? v).any (·.isFree) then renameRead acc.1 acc.2 o i v
        else pure acc) = .ok r ∧
      Renamed f₁ r.1 r.2 ∧ acc.1.store.Keeps r.1.store ∧ r.2.map Prod.fst = K ∧
      f₁.StacksAfter r.1.store r.2 L ∧ (∀ o', o' ≠ o → r.1.store.op? o' = acc.1.store.op? o') ∧
      ∃ x', r.1.store.op? o = some x' ∧ x'.inputs.size = x.inputs.size ∧
        (∀ j, j ≠ i → x'.inputs[j]? = x.inputs[j]?) ∧
        ∃ w, x'.inputs[i]? = some w ∧ f₁.SlotOk K r.1.store L v w := by
  have hslot : i < x.inputs.size := (Array.getElem?_eq_some_iff.mp hxi).1
  -- the read is, in `acc`, the varnode it is in `f₁`
  obtain ⟨y₁, hy₁⟩ := Option.isSome_iff_exists.mp
    (hS₁.linked.input_exists hx₁ (Array.mem_of_getElem? hv₁))
  have hnow := hR.sound.linked.input_exists hx (Array.mem_of_getElem? hxi)
  obtain ⟨y, hy, hyy⟩ := Store.vn?_of_node_eq (hk₁.node_eq hy₁ (.inl hnow)) hy₁
  have hfree_eq : y.isFree = y₁.isFree := by rw [← Varnode.unread_isFree, hyy, Varnode.unread_isFree]
  have hvar_eq : variableOf y = variableOf y₁ := by
    have h := congrArg variableOf hyy
    exact h
  -- when the slot is left, it holds the read, and the read is not renamed
  have hleave : (∀ k, ¬f₁.RenamesTo K v k) →
      ∃ r, pure acc = (Except.ok r : Except Fault (Function × Stacks)) ∧
        Renamed f₁ r.1 r.2 ∧ acc.1.store.Keeps r.1.store ∧ r.2.map Prod.fst = K ∧
        f₁.StacksAfter r.1.store r.2 L ∧ (∀ o', o' ≠ o → r.1.store.op? o' = acc.1.store.op? o') ∧
        ∃ x', r.1.store.op? o = some x' ∧ x'.inputs.size = x.inputs.size ∧
          (∀ j, j ≠ i → x'.inputs[j]? = x.inputs[j]?) ∧
          ∃ w, x'.inputs[i]? = some w ∧ f₁.SlotOk K r.1.store L v w :=
    fun hnot => ⟨acc, rfl, hR, Store.Keeps.refl _, hkeys, hst, fun _ _ => rfl,
      x, hx, rfl, fun _ _ => rfl, v, hxi, fun k hk => absurd hk (hnot k), fun _ => rfl⟩
  by_cases hfree : y.isFree = true
  · rw [if_pos (by rw [hy]; simp [hfree])]
    cases hk : variableOf y with
    | none =>
      rw [renameRead_of_none fun y' hy' k hk' => by rw [hy] at hy'; cases hy'; rw [hk] at hk'; cases hk']
      refine hleave fun k hren => ?_
      obtain ⟨y', hy', -, hk', -⟩ := hren
      rw [hy₁] at hy'
      cases hy'
      rw [← hvar_eq, hk] at hk'
      cases hk'
    | some k =>
      by_cases hkK : k ∈ K
      · obtain ⟨a, hfind, ha, hak⟩ := find?_of_mem_keys hkeys hkK
        obtain ⟨w, r, hrun, -, hkeep, hop, hother, hcase⟩ :=
          renameRead_found hR.sound hR.held hx hslot hy hfree hk hfind
        obtain ⟨r', hrun', hR'⟩ := hR.renameRead_of_free (v := v) hx hslot (by rw [hy]; simp [hfree])
        rw [hrun] at hrun'
        cases hrun'
        have hstk := hst a ha
        rw [hak] at hstk
        -- the variable of the read is `k`, a variable with a stack
        have hren : f₁.RenamesTo K v k := ⟨y₁, hy₁, hfree_eq ▸ hfree, hvar_eq ▸ hk, hkK⟩
        have hreads : f₁.ReadsAfter r.1.store L k w := by
          rcases hcase with ⟨htop, -⟩ | ⟨hnil, hin, -⟩
          · exact (hstk.readsAfter htop).keeps hkeep
          · rw [hnil] at hstk
            exact ⟨fun d hd => (by rw [hstk.lastWhere_eq_none] at hd; cases hd), fun _ => hin⟩
        refine ⟨r, hrun, hR', hkeep, ?_, ?_, hother, _, hop, by simp, fun j hj => ?_, w, ?_, ?_⟩
        · rcases hcase with ⟨-, h2⟩ | ⟨-, -, h2⟩ <;> rw [h2]
          · exact hkeys
          · rw [keys_map_rebase, hkeys]
        · rcases hcase with ⟨-, h2⟩ | ⟨hnil, hin, h2⟩ <;> rw [h2]
          · exact fun b hb => (hst b hb).keeps hkeep
          · exact StacksAfter.rebase (fun b hb => (hst b hb).keeps hkeep) (hkeys ▸ hK) ha hak hnil hin
        · simp [Ne.symm hj]
        · simp [hslot]
        · refine ⟨fun k' hk' => ?_, fun hnot => absurd hren (hnot k)⟩
          obtain ⟨y', hy', -, hk'', -⟩ := hk'
          rw [hy₁] at hy'
          cases hy'
          rw [← hvar_eq, hk] at hk''
          cases hk''
          exact hreads
      · rw [renameRead_of_none fun y' hy' k' hk' => by
          rw [hy] at hy'; cases hy'; rw [hk] at hk'; cases hk'; exact find?_of_not_mem_keys hkeys hkK]
        refine hleave fun k' hren => ?_
        obtain ⟨y', hy', -, hk', hk'K⟩ := hren
        rw [hy₁] at hy'
        cases hy'
        rw [← hvar_eq, hk] at hk'
        cases hk'
        exact hkK hk'K
  · rw [if_neg (by simp [hy, hfree])]
    refine hleave fun k hren => ?_
    obtain ⟨y', hy', hf', -⟩ := hren
    rw [hy₁] at hy'
    cases hy'
    exact hfree (hfree_eq ▸ hf')

/-- **The reads of one operation.** Renaming the slots of `o` in turn, from stacks that are those
after the operations `L`, leaves every slot right after `L` (`SlotsOk`), changes no other
operation, and keeps the stacks those after `L`. -/
theorem renameReads_spec (hS₁ : f₁.store.Sound) (hK : K.Nodup) {g : Function} {st : Stacks}
    (hR : Renamed f₁ g st) (hk₁ : f₁.store.Keeps g.store) (hkeys : st.map Prod.fst = K)
    {L : List Nat} (hst : f₁.StacksAfter g.store st L) {o : Nat} {x₁ x : Op}
    (hx₁ : f₁.store.op? o = some x₁) (hx : g.store.op? o = some x) (hin : x.inputs = x₁.inputs) :
    ∃ r, x.inputs.toList.zipIdx.foldlM (fun (a : Function × Stacks) p =>
        if (a.1.store.vn? p.1).any (·.isFree) then renameRead a.1 a.2 o p.2 p.1 else pure a) (g, st) =
          .ok r ∧
      Renamed f₁ r.1 r.2 ∧ g.store.Keeps r.1.store ∧ r.2.map Prod.fst = K ∧
      f₁.StacksAfter r.1.store r.2 L ∧ (∀ o', o' ≠ o → r.1.store.op? o' = g.store.op? o') ∧
      ∃ x', r.1.store.op? o = some x' ∧ f₁.SlotsOk K r.1.store L x₁.inputs x'.inputs := by
  -- after `n` slots: those before `n` are right, the others hold what they held in `f₁`
  let Q : Nat → Function × Stacks → Prop := fun n r =>
    Renamed f₁ r.1 r.2 ∧ g.store.Keeps r.1.store ∧ r.2.map Prod.fst = K ∧
      f₁.StacksAfter r.1.store r.2 L ∧ (∀ o', o' ≠ o → r.1.store.op? o' = g.store.op? o') ∧
      ∃ x', r.1.store.op? o = some x' ∧ x'.inputs.size = x₁.inputs.size ∧
        (∀ i, n ≤ i → x'.inputs[i]? = x₁.inputs[i]?) ∧
        ∀ i v₁, i < n → x₁.inputs[i]? = some v₁ →
          ∃ w, x'.inputs[i]? = some w ∧ f₁.SlotOk K r.1.store L v₁ w
  have h0 : Q 0 (g, st) := ⟨hR, Store.Keeps.refl _, hkeys, hst, fun _ _ => rfl, x, hx, by rw [hin],
    fun i _ => by rw [hin], fun i _ hi => absurd hi (Nat.not_lt_zero i)⟩
  -- one slot: the one at position `l₁.length`, holding the read it held in `f₁`
  have hstep : ∀ (l₁ : List (Nat × Nat)) (a : Nat × Nat) (l₂ : List (Nat × Nat)),
      x.inputs.toList.zipIdx = l₁ ++ a :: l₂ → ∀ y, Q l₁.length y →
        ∃ r, (if (y.1.store.vn? a.1).any (·.isFree) then renameRead y.1 y.2 o a.2 a.1 else pure y) =
          .ok r ∧ Q (l₁.length + 1) r := by
    intro l₁ a l₂ hl y hy
    obtain ⟨hia, hget⟩ := zipIdx_eq_append hl
    obtain ⟨hRy, hky, hkeysy, hsty, hothery, xy, hxy, hsizey, hrest, hdone⟩ := hy
    have hv₁ : x₁.inputs[l₁.length]? = some a.1 := by
      rw [← hin]
      simpa using hget
    have hcur : xy.inputs[l₁.length]? = some a.1 := by rw [hrest _ (le_refl _), hv₁]
    obtain ⟨r, hr, hR', hk', hkeys', hst', hother', x', hx', hsize', hsame, w, hw, hok⟩ :=
      renameSlot_step hS₁ hK hRy (hk₁.trans hky) hkeysy hsty hx₁ hv₁ hxy hcur
    refine ⟨r, by rw [hia]; exact hr, hR', hky.trans hk', hkeys', hst',
      fun o' ho' => by rw [hother' o' ho', hothery o' ho'], x', hx', by rw [hsize', hsizey],
      fun i hi => ?_, fun i v₁ hi hv => ?_⟩
    · rw [hsame i (by omega)]
      exact hrest i (by omega)
    · by_cases hil : i = l₁.length
      · subst hil
        rw [hv₁] at hv
        cases hv
        exact ⟨w, hw, hok⟩
      · obtain ⟨w', hw', hok'⟩ := hdone i v₁ (by omega) hv
        exact ⟨w', by rw [hsame i hil]; exact hw', hok'.keeps hk'⟩
  obtain ⟨r, hrun, hQ⟩ := @foldlM_exists_ok_after Fault (Nat × Nat) (Function × Stacks)
    (fun a p => if (a.1.store.vn? p.1).any (·.isFree) then renameRead a.1 a.2 o p.2 p.1 else pure a)
    (fun pre r => Q pre.length r) x.inputs.toList.zipIdx [] (g, st) h0
    (fun l₁ a l₂ hl y hy => by simpa using hstep l₁ a l₂ hl y (by simpa using hy))
  obtain ⟨hR', hk', hkeys', hst', hother, x', hx', hsize, -, hdone⟩ := hQ
  refine ⟨r, hrun, hR', hk', hkeys', hst', hother, x', hx', hsize, fun i v₁ hv₁ => hdone i v₁ ?_ hv₁⟩
  have hi := (Array.getElem?_eq_some_iff.mp hv₁).1
  simpa [hin] using hi

/-! ## The writes of one operation -/

/-- A block lists only the operations whose parent it is, so an operation is listed by one block
at most. -/
theorem BlocksHold.eq_of_mem {g : Function} (hB : g.BlocksHold) {b c o : Nat}
    (hb : o ∈ (g.graph.get b).ops) (hc : o ∈ (g.graph.get c).ops) : b = c := by
  obtain ⟨x, hx, hp, -⟩ := hB.member hb
  obtain ⟨x', hx', hp', -⟩ := hB.member hc
  rw [hx] at hx'
  cases hx'
  exact Option.some.inj (hp.symm.trans hp')

/-- The operations of a block in front of one of them, when the block lists each once. -/
theorem takeWhile_ne_of_eq_append {pre rest : List Nat} {o : Nat} (hnd : (pre ++ o :: rest).Nodup) :
    (pre ++ o :: rest).takeWhile (· != o) = pre := by
  have hnot : o ∉ pre := fun h => (List.nodup_append.mp hnd).2.2 o h o List.mem_cons_self rfl
  rw [List.takeWhile_append_of_pos fun a ha => bne_iff_ne.mpr fun h => hnot (by rw [← h]; exact ha),
    List.takeWhile_cons_of_neg (by simp), List.append_nil]

variable {g : Function} {st : Stacks}

/-- Renaming keeps which variable an operation writes: the output is kept, and is not free. -/
theorem Renamed.writesKey_eq (hR : Renamed f₁ g st) (hS₁ : f₁.store.Sound)
    (hk : f₁.store.Keeps g.store) (k : Location) (o : Nat) : g.writesKey k o = f₁.writesKey k o := by
  unfold writesKey outOf
  cases hx₁ : f₁.store.op? o with
  | none =>
    have hs := hR.ops o
    rw [hx₁, Option.map_none, Option.map_eq_none_iff] at hs
    rw [hs]
    rfl
  | some x₁ =>
    obtain ⟨x, hx, hsk⟩ := hR.op_of_start hx₁
    have hout : x.output = x₁.output := by rw [← Op.skeleton_output, hsk, Op.skeleton_output]
    rw [hx, Option.bind_some, Option.bind_some, hout]
    cases hv : x₁.output with
    | none => rfl
    | some v =>
      obtain ⟨y₁, hy₁, hdef⟩ := hS₁.linked.output_def hx₁ hv
      have hnf : y₁.isFree = false := by
        have hw := hS₁.linked.written hy₁
        rw [hdef] at hw
        simp [Varnode.isFree, hw]
      obtain ⟨y, hy, hyy⟩ := Store.vn?_of_node_eq (hk.node_eq hy₁ (.inr hnf)) hy₁
      have hvar : variableOf y = variableOf y₁ := by
        have h := congrArg variableOf hyy
        exact h
      simp only [Option.bind_some, hy, hy₁, Option.any_some, hvar]

/-- Pushing the output `v` of `o`, which writes the variable `key` only, on the stack of `key`. -/
theorem StacksAfter.push_write {s : Store} {L : List Nat} (hst : f₁.StacksAfter s st L) {o v : Nat}
    {key : Location} (hv : f₁.outOf o = some v) (hw : ∀ k, f₁.writesKey k o = (k == key)) :
    f₁.StacksAfter s (st.map fun a => if a.1 == key then (a.1, v :: a.2) else (a.1, a.2))
      (L ++ [o]) := by
  intro a' ha'
  obtain ⟨a, ha, rfl⟩ := List.mem_map.mp ha'
  by_cases hk : a.1 = key
  · simp only [hk, beq_self_eq_true, if_true]
    exact hk ▸ (hst a ha).push (by rw [hw, hk, beq_self_eq_true]) hv
  · simp only [beq_iff_eq, hk, if_false]
    exact (hst a ha).skip (by rw [hw]; simpa using hk)

/-- An operation that writes no variable with a stack leaves every stack. -/
theorem StacksAfter.skip_write {s : Store} {L : List Nat} (hst : f₁.StacksAfter s st L) {o : Nat}
    (hw : ∀ a ∈ st, f₁.writesKey a.1 o = false) : f₁.StacksAfter s st (L ++ [o]) :=
  fun a ha => (hst a ha).skip (hw a ha)

theorem keys_map_push (st : Stacks) (key : Location) (v : Nat) :
    (st.map fun a => if a.1 == key then (a.1, v :: a.2) else (a.1, a.2)).map Prod.fst =
      st.map Prod.fst := by
  rw [List.map_map]
  exact List.map_congr_left fun a _ => by
    show (if a.1 == key then (a.1, v :: a.2) else (a.1, a.2)).1 = a.1
    split <;> rfl

/-- Pushing the output of an operation keeps the frame: an output is not free. -/
theorem Renamed.push (hR : Renamed f₁ g st) {o v : Nat} {x : Op} (hx : g.store.op? o = some x)
    (hv : x.output = some v) (key : Location) :
    Renamed f₁ g (st.map fun a => if a.1 == key then (a.1, v :: a.2) else (a.1, a.2)) :=
  ⟨hR.sound, hR.graph, hR.ops, hR.held.map _ fun a _ w hw => by
    split at hw
    · rcases List.mem_cons.mp hw with rfl | hw
      · exact .inr (Store.output_not_free hR.sound.linked hx hv)
      · exact .inl hw
    · exact .inl hw⟩

/-- The stacks are not part of the state of the walk beyond the frame and their variables. -/
theorem Progress.restack {Done Edged : Nat → Prop} (hP : f₁.Progress e K g st Done Edged)
    {st' : Stacks} (hR : Renamed f₁ g st') (hkeys : st'.map Prod.fst = K) :
    f₁.Progress e K g st' Done Edged :=
  ⟨hR, hP.keeps, hkeys, hP.done, hP.todo, hP.merges, hP.edges⟩

/-- A merge counts as visited at no cost: the walk renames no read of a merge at its block. -/
theorem Progress.addMerge {Done Edged : Nat → Prop} (hP : f₁.Progress e K g st Done Edged) {o : Nat}
    (hm : f₁.isMerge o = true) : f₁.Progress e K g st (fun o' => Done o' ∨ o' = o) Edged where
  renamed := hP.renamed
  keeps := hP.keeps
  keys := hP.keys
  done o' ho' hm' := by
    rcases ho' with ho' | rfl
    · exact hP.done o' ho' hm'
    · rw [hm] at hm'
      cases hm'
  todo o' ho' := hP.todo o' fun h => ho' (.inl h)
  merges := hP.merges
  edges := hP.edges

/-- **The reads of one operation of a block.** An operation of block `b` not visited yet, with the
stacks those after the operations in front of it along the dominator chain: a merge is passed
over, and any other operation has its reads renamed to the writes that reach them there. -/
theorem Progress.renameOp {Done Edged : Nat → Prop} (hP : f₁.Progress e K g st Done Edged)
    (hS₁ : f₁.store.Sound) (hB₁ : f₁.BlocksHold) (hA : f₁.graph.Analyzed e) (hK : K.Nodup)
    {b : Nat} {q : List Nat} (hq : f₁.graph.DomChain e b q) {pre rest : List Nat} {o : Nat}
    (hops : (f₁.graph.get b).ops.toList = pre ++ o :: rest) (hfresh : ¬Done o)
    (hst : f₁.StacksAfter g.store st (f₁.graph.runOps q.tail ++ pre)) :
    ∃ r, (if g.isMerge o then pure (g, st) else
        (((g.store.op? o).map (·.inputs.toList)).getD []).zipIdx.foldlM
          (fun (a : Function × Stacks) p =>
            if (a.1.store.vn? p.1).any (·.isFree) then renameRead a.1 a.2 o p.2 p.1 else pure a)
          (g, st)) = .ok r ∧
      f₁.Progress e K r.1 r.2 (fun o' => Done o' ∨ o' = o) Edged ∧
      f₁.StacksAfter r.1.store r.2 (f₁.graph.runOps q.tail ++ pre) := by
  have hmem : o ∈ (f₁.graph.get b).ops := Array.mem_toList_iff.mp (by rw [hops]; simp)
  obtain ⟨x₁, hx₁, -⟩ := hB₁.member hmem
  cases hm : f₁.isMerge o with
  | true =>
    rw [if_pos (by rw [hP.renamed.isMerge_eq, hm])]
    exact ⟨(g, st), rfl, hP.addMerge hm, hst⟩
  | false =>
    rw [if_neg (by rw [hP.renamed.isMerge_eq, hm]; simp)]
    obtain ⟨x, hx, -⟩ := hP.renamed.op_of_start hx₁
    have hin : x.inputs = x₁.inputs := by
      have h := hP.todo o hfresh hm
      rw [hx, hx₁] at h
      exact Option.some.inj h
    rw [hx, Option.map_some, Option.getD_some]
    obtain ⟨r, hrun, hR', hk', hkeys', hst', hother, x', hx', hok⟩ :=
      renameReads_spec hS₁ hK hP.renamed hP.keeps hP.keys hst hx₁ hx hin
    -- the stacks were those after the operations in front of `o` on its dominator chain
    have hbefore : f₁.runBefore q b o = f₁.graph.runOps q.tail ++ pre := by
      have hnd := hB₁.nodup b
      rw [hops] at hnd
      rw [runBefore, hops, takeWhile_ne_of_eq_append hnd]
    refine ⟨r, hrun, ⟨hR', hP.keeps.trans hk', hkeys', fun o' ho' hm' c q' hq' hc x₁' x'' h₁ h₂ => ?_,
      fun o' ho' hm' => ?_, fun m x₁' x'' hm' h₁ h₂ i w hw => ?_,
      fun P hPE oe hoe m hmt x'' w h₂ hw => ?_⟩, hst'⟩
    · rcases ho' with ho' | rfl
      · -- an operation visited before keeps its inputs
        have hne : o' ≠ o := fun h => hfresh (h ▸ ho')
        rw [hother o' hne] at h₂
        exact (hP.done o' ho' hm' c q' hq' hc x₁' x'' h₁ h₂).keeps hk'
      · obtain rfl : c = b := hB₁.eq_of_mem hc hmem
        obtain rfl : q' = q := hq'.unique hA hq
        rw [hx₁] at h₁
        cases h₁
        rw [hx'] at h₂
        cases h₂
        rw [hbefore]
        exact hok
    · have hne : o' ≠ o := fun h => ho' (.inr h)
      rw [hother o' hne]
      exact hP.todo o' (fun h => ho' (.inl h)) hm'
    · have hne : m ≠ o := by
        rintro rfl
        rw [hm] at hm'
        cases hm'
      rw [hother m hne] at h₂
      exact (hP.merges m x₁' x'' hm' h₁ h₂ i w hw).imp_right fun h => h.keeps hk'
    · have hne : m ≠ o := by
        rintro rfl
        rw [(List.mem_takeWhile_imp hmt : f₁.isMerge m = true)] at hm
        cases hm
      rw [hother m hne] at h₂
      exact (hP.edges P hPE oe hoe m hmt x'' w h₂ hw).keeps hk'

/-! ## The merges at the ends of the out-edges -/

/-- The inputs of the merges of `f₁` are reads that renaming rewrites: free, of a variable with a
stack. -/
def MergeReadsRenamed (f₁ : Function) (K : List Location) : Prop :=
  ∀ m x₁, f₁.isMerge m = true → f₁.store.op? m = some x₁ → ∀ v ∈ x₁.inputs, ∃ k, f₁.RenamesTo K v k

/-- Slot `i` of operation `m`, if it has one, holds a settled varnode. -/
def SlotSettled (f₁ g : Function) (m i : Nat) : Prop :=
  ∀ x w, g.store.op? m = some x → x.inputs[i]? = some w → f₁.Settled g.store w

/-- What a read takes is settled: the output of a writer, or an input. -/
theorem ReadsAfter.settled {s : Store} {L : List Nat} {k : Location} {w : Nat}
    (h : f₁.ReadsAfter s L k w) : f₁.Settled s w := by
  cases hl : lastWhere (f₁.writesKey k) L with
  | some d => exact .inr ⟨d, h.1 d hl⟩
  | none => exact .inl ⟨k, h.2 hl⟩

/-- A step that changes operation `m` at slot `i` only, to a settled varnode, keeps every slot
that was settled settled. -/
theorem SlotSettled.of_step {r : Function} (hk : g.store.Keeps r.store) {m i : Nat}
    (hother : ∀ o', o' ≠ m → r.store.op? o' = g.store.op? o') {x x' : Op}
    (hx : g.store.op? m = some x) (hx' : r.store.op? m = some x')
    (hsame : ∀ j, j ≠ i → x'.inputs[j]? = x.inputs[j]?) (hnew : f₁.SlotSettled r m i) {m' j : Nat}
    (hold : f₁.SlotSettled g m' j) : f₁.SlotSettled r m' j := by
  intro y w hy hw
  by_cases hm : m' = m
  · subst hm
    rw [hx'] at hy
    cases hy
    by_cases hj : j = i
    · subst hj
      exact hnew x' w hx' hw
    · rw [hsame j hj] at hw
      exact (hold x w hx hw).keeps hk
  · rw [hother m' hm] at hy
    exact (hold y w hy hw).keeps hk

/-- **One merge slot.** Renaming slot `i` of a merge `m`, from stacks that are those after the
operations `L`, settles the slot and keeps every settled slot settled. -/
theorem Progress.renameMergeSlot {Done Edged : Nat → Prop} (hP : f₁.Progress e K g st Done Edged)
    (hS₁ : f₁.store.Sound) (hK : K.Nodup) (hMR : f₁.MergeReadsRenamed K) {L : List Nat}
    (hst : f₁.StacksAfter g.store st L) {m i v : Nat} {x : Op} (hm : f₁.isMerge m = true)
    (hx : g.store.op? m = some x) (hxi : x.inputs[i]? = some v) :
    ∃ r, (if (g.store.vn? v).any (·.isFree) then renameRead g st m i v else pure (g, st)) = .ok r ∧
      f₁.Progress e K r.1 r.2 Done Edged ∧ f₁.StacksAfter r.1.store r.2 L ∧
      g.store.Keeps r.1.store ∧ (∀ m' j, f₁.SlotSettled g m' j → f₁.SlotSettled r.1 m' j) ∧
      f₁.SlotSettled r.1 m i := by
  obtain ⟨x₁, hx₁, -⟩ := hP.renamed.op_to_start hx
  obtain ⟨y, hy⟩ := Option.isSome_iff_exists.mp
    (hP.renamed.sound.linked.input_exists hx (Array.mem_of_getElem? hxi))
  have hkeep : ∀ m' j, f₁.SlotSettled g m' j → f₁.SlotSettled g m' j := fun _ _ h => h
  rcases hP.merges m x₁ x hm hx₁ hx i v hxi with hv₁ | hset
  · -- the slot still holds its placeholder, a read of the merge's variable
    obtain ⟨k, hren⟩ := hMR m x₁ hm hx₁ v (Array.mem_of_getElem? hv₁)
    obtain ⟨r, hr, hR', hk', hkeys', hst', hother, x', hx', -, hsame, w, hw, hok⟩ :=
      @renameSlot_step f₁ K hS₁ hK (g, st) hP.renamed hP.keeps hP.keys L hst m i v x₁ x hx₁ hv₁ hx hxi
    have hnew : f₁.SlotSettled r.1 m i := fun y' w' hy' hw' => by
      rw [hx'] at hy'
      cases hy'
      rw [hw] at hw'
      cases hw'
      exact (hok.1 k hren).settled
    have hpres : ∀ m' j, f₁.SlotSettled g m' j → f₁.SlotSettled r.1 m' j :=
      fun m' j h => SlotSettled.of_step hk' hother hx hx' hsame hnew h
    refine ⟨r, hr, ⟨hR', hP.keeps.trans hk', hkeys', fun o ho hmo c q hq hc x₁' x'' h₁ h₂ => ?_,
      fun o ho hmo => ?_, fun m' x₁' x'' hm' h₁ h₂ j w' hw' => ?_,
      fun P hPE oe hoe m' hmt => hpres m' oe.inSlot (hP.edges P hPE oe hoe m' hmt)⟩,
      hst', hk', hpres, hnew⟩
    · have hne : o ≠ m := by
        rintro rfl
        rw [hm] at hmo
        cases hmo
      rw [hother o hne] at h₂
      exact (hP.done o ho hmo c q hq hc x₁' x'' h₁ h₂).keeps hk'
    · have hne : o ≠ m := by
        rintro rfl
        rw [hm] at hmo
        cases hmo
      rw [hother o hne]
      exact hP.todo o ho hmo
    · by_cases hmm : m' = m ∧ j = i
      · obtain ⟨rfl, rfl⟩ := hmm
        exact .inr (hnew x'' w' h₂ hw')
      · -- any other slot holds what it held
        have hold : (g.store.op? m').bind (·.inputs[j]?) = some w' := by
          by_cases hme : m' = m
          · subst hme
            have hji : j ≠ i := fun h => hmm ⟨rfl, h⟩
            rw [hx'] at h₂
            cases h₂
            rw [hsame j hji] at hw'
            simp [hx, hw']
          · rw [hother m' hme] at h₂
            simp [h₂, hw']
        obtain ⟨x₀, hx₀, hw₀⟩ := Option.bind_eq_some_iff.mp hold
        exact (hP.merges m' x₁' x₀ hm' h₁ hx₀ j w' hw₀).imp_right fun h => h.keeps hk'
  · -- a settled varnode is not free: the slot is left
    have hnf := hset.not_free hP.renamed hy
    rw [if_neg (by simp [hy, hnf])]
    exact ⟨(g, st), rfl, hP, hst, Store.Keeps.refl _, hkeep, fun y' w' hy' hw' => by
      rw [hx] at hy'
      cases hy'
      rw [hxi] at hw'
      cases hw'
      exact hset⟩

/-- **The merges at the end of one out-edge.** Renaming slot `i` of the merges `M` in turn settles
that slot of each, and keeps every settled slot settled. -/
theorem Progress.renameMerges {Done Edged : Nat → Prop} (hS₁ : f₁.store.Sound) (hK : K.Nodup)
    (hMR : f₁.MergeReadsRenamed K) {L : List Nat} {i : Nat}
    {step : Function × Stacks → Nat → Except Fault (Function × Stacks)}
    (hsome : ∀ acc m v, (acc.1.store.op? m).bind (·.inputs[i]?) = some v →
      step acc m = if (acc.1.store.vn? v).any (·.isFree) then renameRead acc.1 acc.2 m i v
        else pure acc)
    (hnone : ∀ acc m, (acc.1.store.op? m).bind (·.inputs[i]?) = none → step acc m = pure acc) :
    ∀ (M : List Nat), (∀ m ∈ M, f₁.isMerge m = true) → ∀ g st,
      f₁.Progress e K g st Done Edged → f₁.StacksAfter g.store st L →
      ∃ r, M.foldlM step (g, st) = .ok r ∧ f₁.Progress e K r.1 r.2 Done Edged ∧
        f₁.StacksAfter r.1.store r.2 L ∧
        (∀ m' j, f₁.SlotSettled g m' j → f₁.SlotSettled r.1 m' j) ∧ ∀ m ∈ M, f₁.SlotSettled r.1 m i
  | [], _, g, st, hP, hst =>
    ⟨(g, st), rfl, hP, hst, fun _ _ h => h, fun _ hm => absurd hm List.not_mem_nil⟩
  | m :: M, hM, g, st, hP, hst => by
    -- the first merge, then the others from where it left the state
    have hfirst : ∃ r, step (g, st) m = .ok r ∧ f₁.Progress e K r.1 r.2 Done Edged ∧
        f₁.StacksAfter r.1.store r.2 L ∧
        (∀ m' j, f₁.SlotSettled g m' j → f₁.SlotSettled r.1 m' j) ∧ f₁.SlotSettled r.1 m i := by
      cases hv : (g.store.op? m).bind (·.inputs[i]?) with
      | none =>
        refine ⟨(g, st), by rw [hnone (g, st) m hv]; rfl, hP, hst, fun _ _ h => h,
          fun x w hx hw => ?_⟩
        simp [hx, hw] at hv
      | some v =>
        obtain ⟨x, hx, hxi⟩ := Option.bind_eq_some_iff.mp hv
        obtain ⟨r, hr, hP', hst', -, hpres, hnew⟩ :=
          hP.renameMergeSlot hS₁ hK hMR hst (hM m List.mem_cons_self) hx hxi
        exact ⟨r, by rw [hsome (g, st) m v hv]; exact hr, hP', hst', hpres, hnew⟩
    obtain ⟨r, hr, hP', hst', hpres, hnew⟩ := hfirst
    obtain ⟨r', hr', hP'', hst'', hpres', hall⟩ := Progress.renameMerges hS₁ hK hMR hsome hnone M
      (fun m' hm' => hM m' (List.mem_cons_of_mem _ hm')) r.1 r.2 hP' hst'
    refine ⟨r', by rw [List.foldlM_cons, hr]; exact hr', hP'', hst'',
      fun m' j h => hpres' m' j (hpres m' j h), fun m' hm' => ?_⟩
    rcases List.mem_cons.mp hm' with rfl | hm'
    · exact hpres' _ _ hnew
    · exact hall m' hm'

/-- A block whose out-edges have the slots of their merges settled counts as edged. -/
theorem Progress.addEdged {Done Edged : Nat → Prop} (hP : f₁.Progress e K g st Done Edged) {b : Nat}
    (hset : ∀ oe ∈ (f₁.graph.get b).outs.toList,
      ∀ m ∈ (f₁.graph.get oe.target).ops.toList.takeWhile f₁.isMerge, f₁.SlotSettled g m oe.inSlot) :
    f₁.Progress e K g st Done (fun P => Edged P ∨ P = b) :=
  ⟨hP.renamed, hP.keeps, hP.keys, hP.done, hP.todo, hP.merges, fun P hP' oe hoe => by
    rcases hP' with hP' | rfl
    · exact hP.edges P hP' oe hoe
    · exact hset oe (Array.mem_toList_iff.mpr hoe)⟩

/-! ## One block -/

/-- **One block.** Visiting block `b`, with the stacks those after the operations of the blocks
above it on its dominator chain: its operations get their reads renamed and their writes pushed,
and the merges at the ends of its out-edges get the slots of those edges settled. The stacks are
then those after the whole chain, and the block answers, for each variable with a stack, as many
writes as it pushed. -/
theorem Progress.renameBlock {Done Edged : Nat → Prop} (hP : f₁.Progress e K g st Done Edged)
    (hS₁ : f₁.store.Sound) (hB₁ : f₁.BlocksHold) (hA : f₁.graph.Analyzed e) (hK : K.Nodup)
    (hMR : f₁.MergeReadsRenamed K) {b : Nat} {q : List Nat} (hq : f₁.graph.DomChain e b q)
    (hst : f₁.StacksAfter g.store st (f₁.graph.runOps q.tail))
    (hfresh : ∀ o ∈ (f₁.graph.get b).ops, ¬Done o) :
    ∃ r, g.renameBlock st b = .ok r ∧
      f₁.Progress e K r.1 r.2.1 (fun o => Done o ∨ o ∈ (f₁.graph.get b).ops)
        (fun P => Edged P ∨ P = b) ∧
      f₁.StacksAfter r.1.store r.2.1 (f₁.graph.runOps q) ∧
      ∀ k ∈ K, r.2.2.count k = (f₁.graph.get b).ops.toList.countP (f₁.writesKey k) := by
  unfold Function.renameBlock
  rw [hP.renamed.graph]
  have hnd := hB₁.nodup b
  -- the operations in turn: those visited so far are done, and the stacks are those after them
  refine Except.exists_ok_bind (P := fun (acc : Function × Stacks × List Location) =>
      f₁.Progress e K acc.1 acc.2.1
      (fun o => Done o ∨ o ∈ (f₁.graph.get b).ops.toList) Edged ∧
      f₁.StacksAfter acc.1.store acc.2.1 (f₁.graph.runOps q.tail ++ (f₁.graph.get b).ops.toList) ∧
      ∀ k ∈ K, acc.2.2.count k = (f₁.graph.get b).ops.toList.countP (f₁.writesKey k))
    (foldlM_exists_ok_of_steps (fun (pre : List Nat) (acc : Function × Stacks × List Location) =>
      f₁.Progress e K acc.1 acc.2.1
      (fun o => Done o ∨ o ∈ pre) Edged ∧
      f₁.StacksAfter acc.1.store acc.2.1 (f₁.graph.runOps q.tail ++ pre) ∧
      ∀ k ∈ K, acc.2.2.count k = pre.countP (f₁.writesKey k)) _ _
      ⟨hP.congr (fun o => by simp) (fun _ => Iff.rfl), by simpa using hst, fun k _ => by simp⟩
      ?_) ?_
  · intro pre o rest hsplit acc hacc
    obtain ⟨g', st', defs⟩ := acc
    obtain ⟨hP', hst', hcount⟩ := hacc
    simp only
    have hfo : ¬(Done o ∨ o ∈ pre) := by
      rintro (h | h)
      · exact hfresh o (Array.mem_toList_iff.mp (by rw [hsplit]; simp)) h
      · rw [hsplit] at hnd
        exact (List.nodup_append.mp hnd).2.2 o h o List.mem_cons_self rfl
    obtain ⟨r, hr, hPr, hstr⟩ := hP'.renameOp hS₁ hB₁ hA hK hq hsplit hfo hst'
    -- merge or not, the write is pushed from where the reads left the state
    cases hm : g'.isMerge o <;> simp only [hm, Bool.false_eq_true, if_true, if_false] at hr ⊢ <;>
    refine Except.exists_ok_bind (P := fun (r : Function × Stacks) => f₁.Progress e K r.1 r.2
        (fun o' => (Done o' ∨ o' ∈ pre) ∨ o' = o) Edged ∧
        f₁.StacksAfter r.1.store r.2 (f₁.graph.runOps q.tail ++ pre)) ⟨r, hr, hPr, hstr⟩ ?_
    all_goals
      rintro ⟨g'', st''⟩ ⟨hP'', hst''⟩
      simp only
      have hwk : ∀ k, f₁.writesKey k o = g''.writesKey k o := fun k =>
        (hP''.renamed.writesKey_eq hS₁ hP''.keeps k o).symm
      have hdone : ∀ o', ((Done o' ∨ o' ∈ pre) ∨ o' = o) ↔ (Done o' ∨ o' ∈ pre ++ [o]) := fun o' => by
        simp [or_assoc]
      have hL : f₁.graph.runOps q.tail ++ (pre ++ [o]) = f₁.graph.runOps q.tail ++ pre ++ [o] := by
        rw [List.append_assoc]
      split
      · rename_i x v hxv hv
        have hwx : ∀ k, f₁.writesKey k o = (variableOf x == some k) := fun k => by
          rw [hwk k]
          unfold writesKey outOf
          rw [hxv]
          rfl
        obtain ⟨xo, hxo, hout⟩ := Option.bind_eq_some_iff.mp hv
        split
        · rename_i key hkey
          have hw : ∀ k, f₁.writesKey k o = (k == key) := fun k => by
            rw [hwx k, hkey]
            simp [eq_comm]
          have hout₁ : f₁.outOf o = some v := by
            obtain ⟨x₁, hx₁, hsk⟩ := hP''.renamed.op_to_start hxo
            simp only [outOf, hx₁, Option.bind_some]
            rw [← Op.skeleton_output, ← hsk, Op.skeleton_output, hout]
          split
          · -- the variable has a stack: the output goes on top
            rename_i hany
            refine ⟨_, rfl, (hP''.restack (hP''.renamed.push hxo hout key)
                (by rw [keys_map_push, hP''.keys])).congr (fun o' => (hdone o').symm) (fun _ => Iff.rfl),
              by rw [hL]; exact hst''.push_write hout₁ hw, fun k hk => ?_⟩
            rw [List.count_cons, hcount k hk, List.countP_append, List.countP_singleton, hw k]
            by_cases hkk : k = key
            · simp [hkk]
            · simp [hkk, Ne.symm hkk]
          · -- no stack for the variable: nothing moves
            rename_i hany
            refine ⟨_, rfl, hP''.congr (fun o' => (hdone o').symm) (fun _ => Iff.rfl), ?_,
              fun k hk => ?_⟩
            · rw [hL]
              refine hst''.skip_write fun a ha => ?_
              rw [hw]
              simpa using fun h => hany (List.any_eq_true.mpr ⟨a, ha, by simp [h]⟩)
            · rw [hcount k hk, List.countP_append, List.countP_singleton, hw k]
              have hne : k ≠ key := by
                rintro rfl
                rw [← hP''.keys] at hk
                obtain ⟨a, ha, rfl⟩ := List.mem_map.mp hk
                exact hany (List.any_eq_true.mpr ⟨a, ha, by simp⟩)
              simp [hne]
        · -- the output names no variable
          rename_i hkey
          have hw : ∀ k, f₁.writesKey k o = false := fun k => by rw [hwx k, hkey]; rfl
          refine ⟨_, rfl, hP''.congr (fun o' => (hdone o').symm) (fun _ => Iff.rfl),
            by rw [hL]; exact hst''.skip_write fun a _ => hw a.1, fun k hk => ?_⟩
          rw [hcount k hk, List.countP_append, List.countP_singleton, hw k]
          simp
      · -- no output, or none in the store: `o` writes nothing
        rename_i hno
        have hw : ∀ k, f₁.writesKey k o = false := fun k => by
          rw [hwk k]
          unfold writesKey outOf
          cases hv : (g''.store.op? o).bind (·.output) with
          | none => rfl
          | some v =>
            cases hy : g''.store.vn? v with
            | none => simp [hy]
            | some y => exact absurd hy (fun h => hno y v (by simp [hv, h]) hv)
        refine ⟨_, rfl, hP''.congr (fun o' => (hdone o').symm) (fun _ => Iff.rfl),
          by rw [hL]; exact hst''.skip_write fun a _ => hw a.1, fun k hk => ?_⟩
        rw [hcount k hk, List.countP_append, List.countP_singleton, hw k]
        simp
  · -- the out-edges in turn: the merges at the end of each get the slot of the edge settled
    rintro ⟨g', st', defs⟩ ⟨hP', hst', hcount⟩
    simp only
    rw [hP'.renamed.graph]
    have hP₀ : f₁.Progress e K g' st' (fun o => Done o ∨ o ∈ (f₁.graph.get b).ops) Edged :=
      hP'.congr (fun o => by simp) (fun _ => Iff.rfl)
    have hst₀ : f₁.StacksAfter g'.store st' (f₁.graph.runOps q) := by
      rw [hq.eq_cons, BlockGraph.runOps_cons]
      exact hst'
    refine Except.exists_ok_bind (P := fun (r : Function × Stacks) =>
        f₁.Progress e K r.1 r.2 (fun o => Done o ∨ o ∈ (f₁.graph.get b).ops) Edged ∧
        f₁.StacksAfter r.1.store r.2 (f₁.graph.runOps q) ∧
        ∀ oe ∈ (f₁.graph.get b).outs.toList,
          ∀ m ∈ (f₁.graph.get oe.target).ops.toList.takeWhile f₁.isMerge, f₁.SlotSettled r.1 m oe.inSlot)
      (foldlM_exists_ok_of_steps (fun (pre : List OutEdge) (r : Function × Stacks) =>
        f₁.Progress e K r.1 r.2 (fun o => Done o ∨ o ∈ (f₁.graph.get b).ops) Edged ∧
        f₁.StacksAfter r.1.store r.2 (f₁.graph.runOps q) ∧
        ∀ oe ∈ pre, ∀ m ∈ (f₁.graph.get oe.target).ops.toList.takeWhile f₁.isMerge,
          f₁.SlotSettled r.1 m oe.inSlot) _ _
        ⟨hP₀, hst₀, fun _ h => absurd h List.not_mem_nil⟩ ?_) ?_
    · intro pre oe rest _ acc hacc
      obtain ⟨g₂, st₂⟩ := acc
      obtain ⟨hP₂, hst₂, hset⟩ := hacc
      simp only
      rw [hP₂.renamed.graph, show g₂.isMerge = f₁.isMerge from funext hP₂.renamed.isMerge_eq]
      refine (Progress.renameMerges (i := oe.inSlot) hS₁ hK hMR (fun acc m v h => by simp only [h])
        (fun acc m h => by simp only [h]) _ (fun m hm => List.mem_takeWhile_imp hm) g₂ st₂ hP₂
        hst₂).imp fun r hr => ⟨hr.1, hr.2.1, hr.2.2.1, fun oe' hoe' m hm => ?_⟩
      rcases List.mem_append.mp hoe' with hoe' | hoe'
      · exact hr.2.2.2.1 m oe'.inSlot (hset oe' hoe' m hm)
      · rw [List.mem_singleton.mp hoe'] at hm ⊢
        exact hr.2.2.2.2 m hm
    · rintro ⟨g₃, st₃⟩ ⟨hP₃, hst₃, hset₃⟩
      exact ⟨(g₃, st₃, defs), rfl, hP₃.addEdged hset₃, hst₃, hcount⟩

/-! ## Subtrees of the dominator tree -/

/-- Operation `o` is listed by a block of the dominator subtree of `b`. -/
def InSubtree (f₁ : Function) (e b o : Nat) : Prop :=
  ∃ c, f₁.graph.Below e b c ∧ o ∈ (f₁.graph.get c).ops

/-- The operations of a subtree: those of its root and those of the subtrees of its children. -/
theorem inSubtree_iff (hA : f₁.graph.Analyzed e) {b o : Nat} (hb : f₁.graph.Reaches e b) :
    f₁.InSubtree e b o ↔
      o ∈ (f₁.graph.get b).ops ∨ ∃ d ∈ (f₁.graph.get b).children.toList, f₁.InSubtree e d o := by
  constructor
  · rintro ⟨c, hc, ho⟩
    rcases (BlockGraph.below_iff hA hb).mp hc with rfl | ⟨d, hd, hdc⟩
    · exact .inl ho
    · exact .inr ⟨d, Array.mem_toList_iff.mpr hd, c, hdc, ho⟩
  · rintro (ho | ⟨d, hd, c, hdc, ho⟩)
    · obtain ⟨q, hq⟩ := hA.exists_domChain hb
      exact ⟨b, hq.below_self, ho⟩
    · exact ⟨c, hdc.of_child hA (Array.mem_toList_iff.mp hd), ho⟩

/-- One more sibling visited. -/
theorem or_exists_mem_concat {A : Prop} {p : Nat → Prop} {pre : List Nat} {d : Nat} :
    (A ∨ ∃ d' ∈ pre ++ [d], p d') ↔ (A ∨ ∃ d' ∈ pre, p d') ∨ p d := by
  simp only [List.mem_append, List.mem_singleton]
  constructor
  · rintro (h | ⟨d', hd' | rfl, h⟩)
    · exact .inl (.inl h)
    · exact .inl (.inr ⟨d', hd', h⟩)
    · exact .inr h
  · rintro ((h | ⟨d', hd', h⟩) | h)
    · exact .inl h
    · exact .inr ⟨d', .inl hd', h⟩
    · exact .inr ⟨d, .inr rfl, h⟩

theorem keys_popDefs (st : Stacks) (defs : List Location) :
    (popDefs st defs).map Prod.fst = st.map Prod.fst := by
  rw [popDefs_eq, List.map_map]
  rfl

/-- **A subtree.** Renaming the dominator subtree of `b` with enough fuel, from stacks that are
those after the blocks strictly above `b`, visits every operation of the subtree and settles the
out-edges of each of its blocks. The stacks come back to those after the blocks above `b`: what
the subtree pushed is popped, and only inputs made for reads that no write reached stay. -/
theorem Progress.renameTree (hS₁ : f₁.store.Sound) (hB₁ : f₁.BlocksHold)
    (hA : f₁.graph.Analyzed e) (hK : K.Nodup) (hMR : f₁.MergeReadsRenamed K) :
    ∀ (fuel : Nat) (g : Function) (st : Stacks) (Done Edged : Nat → Prop) (b : Nat) (q : List Nat),
      f₁.graph.DomChain e b q → f₁.graph.size + 2 ≤ fuel + q.length →
      f₁.Progress e K g st Done Edged → f₁.StacksAfter g.store st (f₁.graph.runOps q.tail) →
      (∀ o, f₁.InSubtree e b o → ¬Done o) →
      ∃ r, Function.renameTree fuel g st b = .ok r ∧
        f₁.Progress e K r.1 r.2 (fun o => Done o ∨ f₁.InSubtree e b o)
          (fun P => Edged P ∨ f₁.graph.Below e b P) ∧
        f₁.StacksAfter r.1.store r.2 (f₁.graph.runOps q.tail)
  | 0, _, _, _, _, _, q, hq, hfuel, _, _, _ => absurd (hq.length_le hA) (by omega)
  | fuel + 1, g, st, Done, Edged, b, q, hq, hfuel, hP, hst, hfresh => by
    unfold Function.renameTree
    have hb := hq.reaches hA
    obtain ⟨⟨g₁, st₁, defs⟩, hblk, hP₁, hst₁, hcount⟩ :=
      hP.renameBlock hS₁ hB₁ hA hK hMR hq hst fun o ho => hfresh o ⟨b, hq.below_self, ho⟩
    refine Except.exists_ok_bind (P := fun r => r = (g₁, st₁, defs)) ⟨_, hblk, rfl⟩ ?_
    rintro _ rfl
    simp only
    rw [hP₁.renamed.graph]
    have hnd := hA.children_nodup b
    -- the children in turn, each subtree from where the elder siblings left the state
    refine Except.exists_ok_bind (P := fun (r : Function × Stacks) =>
        f₁.Progress e K r.1 r.2 (fun o => (Done o ∨ o ∈ (f₁.graph.get b).ops) ∨
          ∃ d ∈ (f₁.graph.get b).children.toList, f₁.InSubtree e d o)
          (fun P => (Edged P ∨ P = b) ∨ ∃ d ∈ (f₁.graph.get b).children.toList, f₁.graph.Below e d P) ∧
        f₁.StacksAfter r.1.store r.2 (f₁.graph.runOps q))
      (foldlM_exists_ok_of_steps (fun (pre : List Nat) (r : Function × Stacks) =>
        f₁.Progress e K r.1 r.2 (fun o => (Done o ∨ o ∈ (f₁.graph.get b).ops) ∨
          ∃ d ∈ pre, f₁.InSubtree e d o)
          (fun P => (Edged P ∨ P = b) ∨ ∃ d ∈ pre, f₁.graph.Below e d P) ∧
        f₁.StacksAfter r.1.store r.2 (f₁.graph.runOps q)) _ _
        ⟨hP₁.congr (fun o => by simp) (fun P => by simp), hst₁⟩ ?_) ?_
    · intro pre d rest hsplit acc hacc
      obtain ⟨hPa, hsta⟩ := hacc
      have hd : d ∈ (f₁.graph.get b).children := Array.mem_toList_iff.mp (by rw [hsplit]; simp)
      have hqd : f₁.graph.DomChain e d (d :: q) := .up ((hA.mem_children_iff).mp hd) hq
      have hdpre : d ∉ pre := by
        rw [hsplit] at hnd
        exact fun h => (List.nodup_append.mp hnd).2.2 d h d List.mem_cons_self rfl
      -- nothing of the child's subtree was visited: not before, not in `b`, not in a sibling's
      have hfresh' : ∀ o, f₁.InSubtree e d o → ¬((Done o ∨ o ∈ (f₁.graph.get b).ops) ∨
          ∃ d' ∈ pre, f₁.InSubtree e d' o) := by
        rintro o ⟨c, hc, ho⟩ ((hD | hob) | ⟨d', hd', c', hc', ho'⟩)
        · exact hfresh o ⟨c, hc.of_child hA hd, ho⟩ hD
        · obtain rfl := hB₁.eq_of_mem ho hob
          exact BlockGraph.Below.not_parent hA hd hc
        · obtain rfl := hB₁.eq_of_mem ho ho'
          have hd'c : d' ∈ (f₁.graph.get b).children :=
            Array.mem_toList_iff.mp (by rw [hsplit]; exact List.mem_append_left _ hd')
          exact BlockGraph.Below.disjoint hA hd hd'c (fun h => hdpre (h ▸ hd')) hc hc'
      obtain ⟨r, hr, hPr, hstr⟩ := Progress.renameTree hS₁ hB₁ hA hK hMR fuel acc.1 acc.2 _ _ d
        (d :: q) hqd (by simp only [List.length_cons]; omega) hPa (by simpa using hsta) hfresh'
      exact ⟨r, hr, hPr.congr (fun _ => or_exists_mem_concat) (fun _ => or_exists_mem_concat),
        by simpa using hstr⟩
    · -- the block's writes are popped: the stacks are those after the blocks above `b`
      rintro ⟨g₂, st₂⟩ ⟨hP₂, hst₂⟩
      have hR₂ : Renamed f₁ g₂ (popDefs st₂ defs) :=
        ⟨hP₂.renamed.sound, hP₂.renamed.graph, hP₂.renamed.ops, hP₂.renamed.held.popDefs defs⟩
      refine ⟨(g₂, popDefs st₂ defs), rfl,
        (hP₂.restack hR₂ (by rw [keys_popDefs, hP₂.keys])).congr (fun o => ?_) (fun P => ?_), ?_⟩
      · rw [inSubtree_iff hA hb]
        simp only [or_assoc]
      · rw [BlockGraph.below_iff hA hb]
        simp only [or_assoc, Array.mem_toList_iff]
      · rw [popDefs_eq]
        intro a' ha'
        obtain ⟨a, ha, rfl⟩ := List.mem_map.mp ha'
        have hk : a.1 ∈ K := hP₂.keys ▸ List.mem_map_of_mem ha
        have hsa := hst₂ a ha
        rw [hq.eq_cons, BlockGraph.runOps_cons] at hsa
        rw [hcount a.1 hk]
        exact hsa.drop

/-! ## The whole walk -/

/-- Renaming starts with nothing visited, from empty stacks of the variables `K`. -/
theorem Progress.start (hS₁ : f₁.store.Sound) (vars : List (Location × List Nat))
    (hvars : vars.map Prod.fst = K) :
    f₁.Progress e K f₁ (vars.map fun p => (p.1, [])) (fun _ => False) (fun _ => False) where
  renamed := Renamed.start hS₁ vars
  keeps := Store.Keeps.refl _
  keys := by rw [List.map_map, ← hvars]; rfl
  done _ h := h.elim
  todo _ _ _ := rfl
  merges m x₁ x _ h₁ h i w hw := by
    rw [h₁] at h
    cases h
    exact .inl hw
  edges _ h := h.elim

/-- **Renaming from the entry.** With the merges placed and their inputs read as variables of
`K`, renaming the dominator tree from the entry succeeds, visits every operation of every
reached block, and settles the merge slots of the out-edges of every reached block. -/
theorem renameAll_progress (hS₁ : f₁.store.Sound) (hB₁ : f₁.BlocksHold)
    (hA : f₁.graph.Analyzed e) (hK : K.Nodup) (hMR : f₁.MergeReadsRenamed K)
    (vars : List (Location × List Nat)) (hvars : vars.map Prod.fst = K) :
    ∃ r, f₁.renameAll vars e = .ok r ∧
      f₁.Progress e K r.1 r.2 (f₁.InSubtree e e) (f₁.graph.Below e e) := by
  have hst : f₁.StacksAfter f₁.store (vars.map fun p => (p.1, [])) (f₁.graph.runOps [e].tail) := by
    intro a ha
    obtain ⟨p, -, rfl⟩ := List.mem_map.mp ha
    exact stackAfter_nil _ _
  obtain ⟨r, hr, hP, -⟩ := Progress.renameTree hS₁ hB₁ hA hK hMR (f₁.graph.size + 1) f₁ _ _ _ e
    [e] .entry (by simp) (Progress.start hS₁ vars hvars) hst fun _ _ h => h
  exact ⟨r, hr, hP.congr (fun o => ⟨.inr, fun h => h.resolve_left id⟩)
    (fun P => ⟨.inr, fun h => h.resolve_left id⟩)⟩

end Function

end MicroSsa
