import MicroSsa.Proofs.Ssa.Heritage
import MicroSsa.Proofs.Graph.Chains
/-!
# The stacks of renaming

Renaming keeps, for each variable, a stack of the varnodes that the writes of the variable on the
dominator chain so far produced, the last on top, above at most one input of the function made
for a read that no write reached. This module says so exactly (`Function.StackAfter`) and proves
that one read of renaming takes what that stack holds on top: the output of the last writer of
the variable among the operations run so far, or an input of the variable when there is none
(`Function.ReadsAfter`).

The frame of renaming on the varnodes is `Store.Keeps`: no number is reused, and every varnode
stays with its location and marks, unless it was free and is deleted. `renameRead_found` and
`renameRead_of_none` say everything one read of renaming does.
-/

namespace MicroSsa

/-! ## Keeping the varnodes -/

namespace Store

variable {s t u : Store}

/-- `t` keeps the varnodes of `s`: no number is reused, and each varnode of `s` is in `t` with
its location and marks (its readers may differ), or deleted if it was free. -/
structure Keeps (s t : Store) : Prop where
  size_le : s.varnodes.size ≤ t.varnodes.size
  gone : ∀ v, v < s.varnodes.size → s.vn? v = none → t.vn? v = none
  kept : ∀ v y, s.vn? v = some y → (t.vn? v = none ∧ y.isFree = true) ∨ t.node v = s.node v

/-- A varnode's node fixes everything but its readers. -/
theorem vn?_of_node_eq {v : Nat} (hn : t.node v = s.node v) {y : Varnode} (hy : s.vn? v = some y) :
    ∃ y', t.vn? v = some y' ∧ y'.unread = y.unread := by
  simp only [node, hy, Option.map_some] at hn
  obtain ⟨y', hy', hu⟩ := Option.map_eq_some_iff.mp hn
  exact ⟨y', hy', hu⟩

theorem Keeps.refl (s : Store) : s.Keeps s :=
  ⟨le_refl _, fun _ _ h => h, fun _ _ _ => .inr rfl⟩

theorem Keeps.trans (h₁ : s.Keeps t) (h₂ : t.Keeps u) : s.Keeps u where
  size_le := h₁.size_le.trans h₂.size_le
  gone v hv hs := h₂.gone v (lt_of_lt_of_le hv h₁.size_le) (h₁.gone v hv hs)
  kept v y hy := by
    have hv : v < t.varnodes.size :=
      lt_of_lt_of_le (lt_of_isSome_vn? (by rw [hy]; rfl)) h₁.size_le
    rcases h₁.kept v y hy with ⟨ht, hf⟩ | hn
    · exact .inl ⟨h₂.gone v hv ht, hf⟩
    · obtain ⟨y', hy', hu⟩ := vn?_of_node_eq hn hy
      rcases h₂.kept v y' hy' with ⟨hu', hf'⟩ | hn'
      · refine .inl ⟨hu', ?_⟩
        rw [← Varnode.unread_isFree, ← hu, Varnode.unread_isFree, hf']
      · exact .inr (hn'.trans hn)

/-- A varnode that is kept, or that is not free, has its node. -/
theorem Keeps.node_eq (h : s.Keeps t) {v : Nat} {y : Varnode} (hy : s.vn? v = some y)
    (hv : (t.vn? v).isSome ∨ y.isFree = false) : t.node v = s.node v := by
  rcases h.kept v y hy with ⟨ht, hf⟩ | hn
  · rcases hv with hv | hv
    · rw [ht] at hv
      cases hv
    · rw [hf] at hv
      cases hv
  · exact hn

/-- Edits that keep every node keep the varnodes. -/
theorem keeps_of_node (hn : t.node = s.node) (hsize : t.varnodes.size = s.varnodes.size) :
    s.Keeps t where
  size_le := hsize.ge
  gone v _ hv := by
    have := congrFun hn v
    simp only [node, hv, Option.map_none, Option.map_eq_none_iff] at this
    exact this
  kept _ _ _ := .inr (congrFun hn _)

/-- Deleting a free varnode keeps the others. -/
theorem keeps_deleteVarnode (hL : s.Linked) {p : Nat} {y : Varnode} (hp : s.vn? p = some y)
    (hfree : y.isFree = true) (hd : s.deleteVarnode p = .ok t) : s.Keeps t ∧ ∀ o, t.op? o = s.op? o := by
  obtain ⟨y', hy', hu, hdo⟩ := deleteVarnode_ok hd
  obtain ⟨t', h', -, hop, hvn, hsize, -⟩ := deleteVarnode_spec hL hy' hu hdo
  rw [hd] at h'
  cases h'
  refine ⟨⟨hsize.ge, fun v _ hv => by rw [hvn]; split <;> simp [hv], fun v y hy => ?_⟩, hop⟩
  by_cases hvp : v = p
  · subst hvp
    rw [hp] at hy
    cases hy
    exact .inl ⟨by rw [hvn, if_pos rfl], hfree⟩
  · exact .inr (by simp only [node, hvn, if_neg hvp])

/-- Trying to delete a free varnode keeps the varnodes and the operations, whether it goes or
stays. -/
theorem keeps_deleteTry (hL : s.Linked) {p : Nat} {y : Varnode} (hp : s.vn? p = some y)
    (hfree : y.isFree = true) {t : Store} (ht : t = s ∨ s.deleteVarnode p = .ok t) :
    s.Keeps t ∧ ∀ o, t.op? o = s.op? o := by
  rcases ht with rfl | hd
  · exact ⟨Keeps.refl _, fun _ => rfl⟩
  · exact keeps_deleteVarnode hL hp hfree hd

/-- Varnode `w` is an input of the function at variable `k`. -/
def IsInputOf (s : Store) (w : Nat) (k : Location) : Prop :=
  ∃ y, s.vn? w = some y ∧ y.flags.input = true ∧ Function.variableOf y = some k

/-- An input is never free, so it is kept. -/
theorem IsInputOf.keeps {w : Nat} {k : Location} (h : s.IsInputOf w k) (hk : s.Keeps t) :
    t.IsInputOf w k := by
  obtain ⟨y, hy, hin, hvar⟩ := h
  obtain ⟨y', hy', hu⟩ := vn?_of_node_eq (hk.node_eq hy (.inr (by simp [Varnode.isFree, hin]))) hy
  have hfl : y'.flags = y.flags := by
    have h := congrArg Varnode.flags hu
    exact h
  have hloc : y'.loc = y.loc := by
    have h := congrArg Varnode.loc hu
    exact h
  refine ⟨y', hy', by rw [hfl, hin], ?_⟩
  unfold Function.variableOf at hvar ⊢
  rw [hfl, hloc]
  exact hvar

end Store

namespace Function

variable {f : Function} {st : Stacks}

/-! ## One read -/

/-- A read of a varnode that is missing, names no variable or a variable without a stack is left
as it is. -/
theorem renameRead_of_none {o slot p : Nat}
    (h : ∀ y, f.store.vn? p = some y → ∀ k, variableOf y = some k → st.find? (·.1 == k) = none) :
    f.renameRead st o slot p = .ok (f, st) := by
  unfold renameRead
  cases hp : f.store.vn? p with
  | none => rfl
  | some y =>
    cases hk : variableOf y with
    | none => simp [hk]; rfl
    | some k => simp [hk, h y hp k hk]; rfl

/-- **One read.** Renaming the free read `p` in slot `slot` of `o`, when its variable `k` has a
stack, puts into the slot the top of that stack, or, when the stack is empty, a new input of the
function at `k` that becomes the stack; it changes no other operation, keeps the varnodes (the
placeholder may go), and keeps the graph. -/
theorem renameRead_found (hS : f.store.Sound) (hheld : f.store.StacksHeld st) {o slot p : Nat}
    {x : Op} (hx : f.store.op? o = some x) (hslot : slot < x.inputs.size) {y : Varnode}
    (hp : f.store.vn? p = some y) (hfree : y.isFree = true) {k : Location}
    (hk : variableOf y = some k) {a : Location × List Nat} (hfind : st.find? (·.1 == k) = some a) :
    ∃ w r, f.renameRead st o slot p = .ok r ∧ r.1.graph = f.graph ∧ f.store.Keeps r.1.store ∧
      r.1.store.op? o = some { x with inputs := x.inputs.set! slot w } ∧
      (∀ o', o' ≠ o → r.1.store.op? o' = f.store.op? o') ∧
      ((a.2.head? = some w ∧ r.2 = st) ∨
        (a.2 = [] ∧ r.1.store.IsInputOf w k ∧ r.2 = st.map fun b => if b.1 == k then (b.1, [w]) else b)) := by
  unfold renameRead
  simp only [hp, hk, hfind]
  obtain ⟨k', stack⟩ := a
  cases stack with
  | cons top rest =>
    obtain ⟨yc, hyc, -⟩ := hheld _ (List.mem_of_find?_eq_some hfind) top List.mem_cons_self
    obtain ⟨t, hrun, hL, hop, hnode, hsize, -⟩ :=
      Store.setInput_spec hS.linked hx hslot (v := top) (by rw [hyc]; rfl)
    simp only [bind, Except.bind, pure, Except.pure, hrun]
    obtain ⟨yp, hyp, hpu⟩ := Store.vn?_of_node_eq (congrFun hnode p) hp
    have hpf : yp.isFree = true := by rw [← Varnode.unread_isFree, hpu, Varnode.unread_isFree, hfree]
    have hkeep : f.store.Keeps t := Store.keeps_of_node hnode hsize
    refine ⟨top, _, rfl, rfl, ?_⟩
    split
    all_goals
      obtain ⟨hk', hop'⟩ := Store.keeps_deleteTry hL hyp hpf (by first | exact .inr ‹_› | exact .inl rfl)
      refine ⟨hkeep.trans hk', by rw [hop', hop, if_pos rfl], fun o' ho' => by rw [hop', hop, if_neg ho'],
        .inl ⟨rfl, rfl⟩⟩
  | nil =>
    -- no write reaches: a new input of the variable, outside the constant space
    have hsp : (k.addr.space == f.store.constSpace) = false := by
      obtain ⟨hc, -, rfl⟩ := variableOf_eq_some.mp hk
      rw [← hS.linked.constant hp, hc]
    have hy₀ := Store.vn?_newVarnode f.store k.size k.addr f.store.varnodes.size
    rw [if_pos rfl] at hy₀
    obtain ⟨t₀, hrun₀, hL₀, hop₀, hvn₀, hsize₀, -⟩ :=
      Store.setVarnodeInput_spec (hS.linked.newVarnode k.size k.addr) hy₀
        (by simp [Varnode.isFree, hsp])
    have hx₀ : t₀.op? o = some x := by rw [hop₀, Store.op?_newVarnode, hx]
    obtain ⟨t, hrun, hL, hop, hnode, hsize, -⟩ :=
      Store.setInput_spec hL₀ hx₀ hslot (v := f.store.varnodes.size) (by rw [hvn₀, if_pos rfl]; rfl)
    simp only [bind, Except.bind, pure, Except.pure, Store.fst_newVarnode, hrun₀, hrun]
    -- the varnodes of `f` are as they were, and the new one is an input of `k`
    have hk₀ : f.store.Keeps t₀ := by
      refine ⟨by simp [hsize₀], fun v hv hn => ?_, fun v y' hy' => .inr ?_⟩
      · rw [hvn₀, if_neg (Nat.ne_of_lt hv), Store.vn?_newVarnode, if_neg (Nat.ne_of_lt hv), hn]
      · have hne : v ≠ f.store.varnodes.size :=
          Nat.ne_of_lt (Store.lt_of_isSome_vn? (by rw [hy']; rfl))
        simp only [Store.node, hvn₀, if_neg hne, Store.vn?_newVarnode]
    have hin₀ : t₀.IsInputOf f.store.varnodes.size k := by
      refine ⟨_, by rw [hvn₀, if_pos rfl], rfl, ?_⟩
      simp [variableOf, hsp]
    have hne : p ≠ f.store.varnodes.size := Nat.ne_of_lt (Store.lt_of_isSome_vn? (by rw [hp]; rfl))
    have hp₀ : t₀.vn? p = some y := by rw [hvn₀, if_neg hne, Store.vn?_newVarnode, if_neg hne, hp]
    obtain ⟨yp, hyp, hpu⟩ := Store.vn?_of_node_eq (congrFun hnode p) hp₀
    have hpf : yp.isFree = true := by rw [← Varnode.unread_isFree, hpu, Varnode.unread_isFree, hfree]
    have hkeep : f.store.Keeps t := hk₀.trans (Store.keeps_of_node hnode hsize)
    have hin : t.IsInputOf f.store.varnodes.size k := hin₀.keeps (Store.keeps_of_node hnode hsize)
    refine ⟨f.store.varnodes.size, _, rfl, rfl, ?_⟩
    split
    all_goals
      obtain ⟨hk', hop'⟩ := Store.keeps_deleteTry hL hyp hpf (by first | exact .inr ‹_› | exact .inl rfl)
      refine ⟨hkeep.trans hk', by rw [hop', hop, if_pos rfl],
        fun o' ho' => by rw [hop', hop, if_neg ho', hop₀, Store.op?_newVarnode], .inr ⟨by simp, hin.keeps hk', rfl⟩⟩


/-! ## The stack of a variable -/

/-- The varnode operation `o` writes. -/
def outOf (f : Function) (o : Nat) : Option Nat := (f.store.op? o).bind (·.output)

/-- Operation `o` writes a varnode of variable `k`. -/
def writesKey (f : Function) (k : Location) (o : Nat) : Bool :=
  ((f.outOf o).bind f.store.vn?).any fun y => variableOf y == some k

theorem writesKey_iff {k : Location} {o : Nat} : f.writesKey k o = true ↔
    ∃ v y, f.outOf o = some v ∧ f.store.vn? v = some y ∧ variableOf y = some k := by
  unfold writesKey
  cases h : f.outOf o with
  | none => simp
  | some v => cases hv : f.store.vn? v <;> simp [hv]

theorem outOf_of_writesKey {k : Location} {o : Nat} (h : f.writesKey k o = true) :
    ∃ v, f.outOf o = some v := by
  obtain ⟨v, -, hv, -⟩ := writesKey_iff.mp h
  exact ⟨v, hv⟩

/-- A list whose every element `g` maps to a value keeps its length under `filterMap g`. -/
theorem length_filterMap_of_isSome {α β : Type} {g : α → Option β} :
    ∀ {l : List α}, (∀ a ∈ l, (g a).isSome) → (l.filterMap g).length = l.length
  | [], _ => rfl
  | a :: l, h => by
    obtain ⟨b, hb⟩ := Option.isSome_iff_exists.mp (h a List.mem_cons_self)
    rw [List.filterMap_cons, hb, List.length_cons, List.length_cons,
      length_filterMap_of_isSome fun a' ha' => h a' (List.mem_cons_of_mem _ ha')]

variable (f₁ : Function)

/-- The stack renaming keeps for variable `k` once the operations `L` of `f₁` have run: the
varnodes the writers of `k` among them write, the last writer's on top, above at most one input
of the function at `k`. -/
def StackAfter (s : Store) (L : List Nat) (k : Location) (ws : List Nat) : Prop :=
  ∃ base, ws = (L.filter (f₁.writesKey k)).reverse.filterMap f₁.outOf ++ base ∧
    (base = [] ∨ ∃ w, base = [w] ∧ s.IsInputOf w k)

/-- Every stack is the stack of its variable after `L`. -/
def StacksAfter (s : Store) (st : Stacks) (L : List Nat) : Prop :=
  ∀ a ∈ st, f₁.StackAfter s L a.1 a.2

/-- Varnode `w` is what a read of variable `k` takes once the operations `L` of `f₁` have run:
the output of the last writer of `k` among them, or an input of `k` when none writes it. -/
def ReadsAfter (s : Store) (L : List Nat) (k : Location) (w : Nat) : Prop :=
  (∀ d, lastWhere (f₁.writesKey k) L = some d → f₁.outOf d = some w) ∧
    (lastWhere (f₁.writesKey k) L = none → s.IsInputOf w k)

variable {f₁} {s t : Store} {L : List Nat} {k : Location} {ws : List Nat}

theorem StackAfter.keeps (h : f₁.StackAfter s L k ws) (hk : s.Keeps t) : f₁.StackAfter t L k ws := by
  obtain ⟨base, rfl, hb⟩ := h
  refine ⟨base, rfl, hb.imp_right fun ⟨w, hw, hin⟩ => ⟨w, hw, hin.keeps hk⟩⟩

theorem ReadsAfter.keeps {w : Nat} (h : f₁.ReadsAfter s L k w) (hk : s.Keeps t) :
    f₁.ReadsAfter t L k w :=
  ⟨h.1, fun hn => (h.2 hn).keeps hk⟩

theorem stackAfter_nil (s : Store) (k : Location) : f₁.StackAfter s [] k [] :=
  ⟨[], rfl, .inl rfl⟩

/-- A writer of `k` pushes its output. -/
theorem StackAfter.push (h : f₁.StackAfter s L k ws) {o v : Nat} (ho : f₁.writesKey k o = true)
    (hv : f₁.outOf o = some v) : f₁.StackAfter s (L ++ [o]) k (v :: ws) := by
  obtain ⟨base, rfl, hb⟩ := h
  exact ⟨base, by simp [List.filter_append, ho, hv], hb⟩

/-- An operation that does not write `k` leaves its stack. -/
theorem StackAfter.skip (h : f₁.StackAfter s L k ws) {o : Nat} (ho : f₁.writesKey k o = false) :
    f₁.StackAfter s (L ++ [o]) k ws := by
  obtain ⟨base, rfl, hb⟩ := h
  exact ⟨base, by simp [List.filter_append, ho], hb⟩

/-- What the top of a stack holds is what a read takes. -/
theorem StackAfter.readsAfter (h : f₁.StackAfter s L k ws) {w : Nat} (hw : ws.head? = some w) :
    f₁.ReadsAfter s L k w := by
  obtain ⟨base, rfl, hb⟩ := h
  unfold ReadsAfter lastWhere
  rcases List.eq_nil_or_concat (L.filter (f₁.writesKey k)) with hnil | ⟨M, d, hMd⟩
  · rw [hnil] at hw ⊢
    refine ⟨fun d hd => by simp at hd, fun _ => ?_⟩
    rcases hb with rfl | ⟨w', rfl, hin⟩
    · simp at hw
    · simp only [List.reverse_nil, List.filterMap_nil, List.nil_append, List.head?_cons,
        Option.some.injEq] at hw
      exact hw ▸ hin
  · -- the last writer is on top
    rw [List.concat_eq_append] at hMd
    have hd : f₁.writesKey k d = true := by
      have : d ∈ L.filter (f₁.writesKey k) := by rw [hMd]; simp
      exact (List.mem_filter.mp this).2
    obtain ⟨v, hv⟩ := outOf_of_writesKey hd
    rw [hMd] at hw ⊢
    rw [show ((M ++ [d]).reverse.filterMap f₁.outOf ++ base).head? = some v by simp [hv]] at hw
    cases hw
    refine ⟨fun d' hd' => ?_, fun hn => by simp at hn⟩
    rw [List.getLast?_concat, Option.some.injEq] at hd'
    exact hd' ▸ hv

/-- An empty stack: no operation of `L` writes `k`. -/
theorem StackAfter.lastWhere_eq_none (h : f₁.StackAfter s L k []) :
    lastWhere (f₁.writesKey k) L = none := by
  obtain ⟨base, hws, -⟩ := h
  refine lastWhere_eq_none_iff.mpr fun o ho => ?_
  by_contra hwo
  have hwo' : f₁.writesKey k o = true := by simpa using hwo
  obtain ⟨v, hv⟩ := outOf_of_writesKey hwo'
  have hmem : v ∈ (L.filter (f₁.writesKey k)).reverse.filterMap f₁.outOf :=
    List.mem_filterMap.mpr ⟨o, List.mem_reverse.mpr (List.mem_filter.mpr ⟨ho, hwo'⟩), hv⟩
  rw [List.nil_eq, List.append_eq_nil_iff] at hws
  rw [hws.1] at hmem
  cases hmem

/-- An empty stack may take an input of its variable. -/
theorem StackAfter.input (h : f₁.StackAfter s L k []) {w : Nat} (hw : s.IsInputOf w k) :
    f₁.StackAfter s L k [w] := by
  obtain ⟨base, hws, -⟩ := h
  rw [List.nil_eq, List.append_eq_nil_iff] at hws
  exact ⟨[w], by rw [hws.1]; rfl, .inr ⟨w, rfl, hw⟩⟩

/-- Dropping what the operations `B` pushed gives back the stack before them. -/
theorem StackAfter.drop {B : List Nat} (h : f₁.StackAfter s (L ++ B) k ws) :
    f₁.StackAfter s L k (ws.drop (B.countP (f₁.writesKey k))) := by
  obtain ⟨base, rfl, hb⟩ := h
  refine ⟨base, ?_, hb⟩
  have hlen : ((B.filter (f₁.writesKey k)).reverse.filterMap f₁.outOf).length =
      B.countP (f₁.writesKey k) := by
    rw [length_filterMap_of_isSome, List.length_reverse, List.countP_eq_length_filter]
    intro o ho
    obtain ⟨v, hv⟩ := outOf_of_writesKey (List.mem_filter.mp (List.mem_reverse.mp ho)).2
    simp [hv]
  rw [List.filter_append, List.reverse_append, List.filterMap_append, List.append_assoc, ← hlen,
    List.drop_left]

/-- Popping the writes of a block drops, from each stack, one entry per write of its variable. -/
theorem popDefs_eq : ∀ (defs : List Location) (st : Stacks),
    popDefs st defs = st.map fun a => (a.1, a.2.drop (defs.count a.1))
  | [], st => by simp [popDefs]
  | d :: ds, st => by
    show popDefs (st.map _) ds = _
    rw [popDefs_eq ds, List.map_map]
    refine List.map_congr_left fun a _ => ?_
    obtain ⟨k, ws⟩ := a
    by_cases hk : k = d
    · subst hk
      simp
    · simp [hk, Ne.symm hk]

end Function

end MicroSsa
