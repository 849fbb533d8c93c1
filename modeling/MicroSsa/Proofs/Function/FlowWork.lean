import Mathlib.Algebra.Order.BigOperators.Group.List
import MicroSsa.Proofs.Function.KeptOps
import MicroSsa.Proofs.Function.Instructions
import MicroSsa.Proofs.Session.CallTargets
/-!
# Flow following ends before its fuel does

Flow following runs on fuel, and a loop that runs out of fuel answers what it has so far, so
the fuel the model gives must never run out. It does not:

* decoding along fallthrough (`processFrom`) decodes, at each step that goes on, an instruction
  of the listing at an address not decoded before, so it stops within as many steps as there
  are listed instructions not yet decoded (`processFrom_fuel`);
* following the pending addresses (`followLoop`) takes one address off the list at each step,
  and the instructions decoded from it queue at most one address per listed operation; a
  listed instruction without operations becomes a `NOP`, which queues nothing. So the pending
  addresses plus the listed operations not yet decoded bound its steps (`followLoop_fuel`).

Both rest on one lemma about loops on fuel (`fuel_stable`): a loop whose every step either stops
or goes on from a state of smaller measure gives the same answer with any fuel above the
measure. The accounting of one decoded instruction is `Examined` (the flow effects of its
operations) and `FlowFollowed` (what flow following changes and keeps, used again for
jump-table recovery).
-/

namespace MicroSsa

/-- **Fuel never runs out.** A loop on fuel whose step, run with two fuels, agrees whenever the
continuations agree on the states of smaller measure, gives the same answer with any fuel
above the measure. -/
theorem fuel_stable {σ α : Type} (loop : Nat → σ → α) (μ : σ → Nat) (Inv : σ → Prop)
    (hstep : ∀ s, Inv s → ∀ n m, (∀ s', Inv s' → μ s' < μ s → loop n s' = loop m s') →
      loop (n + 1) s = loop (m + 1) s) :
    ∀ n s, Inv s → μ s < n → ∀ k, loop (n + k) s = loop n s := by
  intro n
  induction n with
  | zero => exact fun s _ h => absurd h (Nat.not_lt_zero _)
  | succ m ih =>
    intro s hs hlt k
    rw [Nat.add_right_comm]
    -- the continuation runs on fuel `m + k` and `m` from states the induction covers
    exact hstep s hs (m + k) m fun s' hs' hlt' => ih s' hs' (by omega) k

namespace Function

variable {ctx : Context} {f g h : Function}

/-! ## The flow effects of decoded operations -/

/-- `g` is `f` after the flow effects of some operations, which could push `k` pending addresses
and indirect branches between them: the decoded instructions, tables and failures stay, every
operation keeps its head, the pending addresses and indirect branches only grow, and a new
indirect branch is an operation of the store. -/
structure Examined (f g : Function) (k : Nat) : Prop where
  visited : g.visited = f.visited
  unresolved : g.unresolved = f.unresolved
  jumpTables : g.jumpTables = f.jumpTables
  size : g.store.ops.size = f.store.ops.size
  heads : ∀ o, (g.store.op? o).map Op.head = (f.store.op? o).map Op.head
  pending : f.pending.length ≤ g.pending.length
  indirects : f.indirects.toList <+: g.indirects.toList
  inStore : ∀ o ∈ g.indirects.toList, o ∈ f.indirects.toList ∨ (f.store.op? o).isSome
  work : g.pending.length + g.indirects.size ≤ f.pending.length + f.indirects.size + k

namespace Examined

/-- A change of neither the decoded instructions, the tables, the heads, the pending addresses
nor the indirect branches. -/
theorem of_eq (k : Nat) (hv : g.visited = f.visited) (hu : g.unresolved = f.unresolved)
    (hj : g.jumpTables = f.jumpTables) (hs : g.store.ops.size = f.store.ops.size)
    (hh : ∀ o, (g.store.op? o).map Op.head = (f.store.op? o).map Op.head)
    (hp : g.pending = f.pending) (hi : g.indirects = f.indirects) : Examined f g k where
  visited := hv
  unresolved := hu
  jumpTables := hj
  size := hs
  heads := hh
  pending := by rw [hp]
  indirects := by rw [hi]
  inStore o ho := .inl (by rwa [hi] at ho)
  work := by rw [hp, hi]; omega

theorem refl (f : Function) (k : Nat) : Examined f f k :=
  of_eq k rfl rfl rfl rfl (fun _ => rfl) rfl rfl

theorem trans {k l : Nat} (h₁ : Examined f g k) (h₂ : Examined g h l) : Examined f h (k + l) where
  visited := h₂.visited.trans h₁.visited
  unresolved := h₂.unresolved.trans h₁.unresolved
  jumpTables := h₂.jumpTables.trans h₁.jumpTables
  size := h₂.size.trans h₁.size
  heads o := (h₂.heads o).trans (h₁.heads o)
  pending := Nat.le_trans h₁.pending h₂.pending
  indirects := h₁.indirects.trans h₂.indirects
  inStore o ho := by
    rcases h₂.inStore o ho with ho | ho
    · exact h₁.inStore o ho
    · refine .inr ?_
      have hh := h₁.heads o
      rw [← Option.isSome_map (f := Op.head), ← hh, Option.isSome_map]
      exact ho
  work := by have := h₁.work; have := h₂.work; omega

theorem mono {k l : Nat} (h : Examined f g k) (hkl : k ≤ l) : Examined f g l :=
  { h with work := Nat.le_trans h.work (by omega) }

end Examined

/-- Whether operation `o` is a branch: only those queue an address or an indirect branch. -/
theorem any_isBranch_congr (hh : ∀ o, (g.store.op? o).map Op.head = (f.store.op? o).map Op.head)
    (o : Nat) : (g.store.op? o).any (·.opcode.isBranch) = (f.store.op? o).any (·.opcode.isBranch) := by
  have h := congrArg (Option.map Prod.fst) (hh o)
  simp only [Option.map_map] at h
  have hany : ∀ u : Store, (u.op? o).any (·.opcode.isBranch) =
      ((u.op? o).map (Prod.fst ∘ Op.head)).any Opcode.isBranch := by
    intro u
    cases u.op? o <;> rfl
  rw [hany, hany, h]

theorem examined_setStartBlock (f : Function) (t : Nat) (v : Bool) (k : Nat) :
    Examined f (f.setStartBlock t v) k := by
  refine Examined.of_eq k rfl rfl rfl (Array.size_modify ..) (fun o => ?_) rfl rfl
  rw [op?_setStartBlock]
  split
  · rw [Option.map_map]
    rfl
  · rfl

theorem examined_queueTarget (f : Function) (a : Address) :
    Examined f (f.queueTarget a) 1 where
  visited := rfl
  unresolved := rfl
  jumpTables := rfl
  size := rfl
  heads _ := rfl
  pending := Nat.le_succ _
  indirects := List.prefix_refl _
  inStore _ ho := .inl ho
  work := by simp [queueTarget]; omega

/-- **One operation's flow effects**: only a branch queues an address or an indirect
branch, and then one. -/
theorem examined_examineOp (f : Function) (addr : Address) (size : Nat) (ops : List Nat) (i o : Nat) :
    Examined f (f.examineOp addr size ops i o)
      (if (f.store.op? o).any (·.opcode.isBranch) then 1 else 0) := by
  unfold examineOp
  split
  · exact Examined.refl f _
  · rename_i x hx
    have hbranch : x.opcode.isBranch = true →
        (if (f.store.op? o).any (·.opcode.isBranch) then 1 else 0) = 1 := by
      intro hb
      simp [hx, hb]
    split
    case h_1 | h_2 =>
      rename_i hop
      rw [hbranch (by rw [hop]; rfl)]
      -- a direct branch marks its target, queues it, or marks bad data
      split
      · exact Examined.refl f 1
      · split
        · dsimp only
          split
          · split
            · exact examined_setStartBlock f _ true 1
            · exact Examined.refl f 1
          · split
            · exact examined_queueTarget f _
            · exact Examined.of_eq 1 rfl rfl rfl rfl (fun _ => rfl) rfl rfl
        · exact examined_queueTarget f _
    case h_3 =>
      rename_i hop
      rw [hbranch (by rw [hop]; rfl)]
      refine ⟨rfl, rfl, rfl, rfl, fun _ => rfl, Nat.le_refl _, ?_, fun o' ho' => ?_, ?_⟩
      · simp
      · simp only [Array.toList_push, List.mem_append, List.mem_singleton] at ho'
        rcases ho' with ho' | rfl
        · exact .inl ho'
        · exact .inr (by rw [hx]; rfl)
      · simp only [Array.size_push]
        omega
    all_goals exact Examined.of_eq _ rfl rfl rfl rfl (fun _ => rfl) rfl rfl

theorem examined_foldl_examineOp (addr : Address) (size : Nat) (ops : List Nat) :
    ∀ (l : List (Nat × Nat)) (f : Function),
      Examined f (l.foldl (fun f p => f.examineOp addr size ops p.2 p.1) f)
        (l.countP fun p => (f.store.op? p.1).any (·.opcode.isBranch))
  | [], f => Examined.refl f 0
  | p :: l, f => by
    have h₁ := examined_examineOp f addr size ops p.2 p.1
    have h₂ := examined_foldl_examineOp addr size ops l (f.examineOp addr size ops p.2 p.1)
    -- the later operations keep their heads, so whether they are branches
    rw [List.countP_congr fun q _ => by rw [any_isBranch_congr h₁.heads q.1]] at h₂
    rw [List.foldl_cons, List.countP_cons, Nat.add_comm]
    exact h₁.trans h₂

/-- **One instruction's flow effects**: its branches queue at most one address or indirect
branch each. -/
theorem examined_examineFlow (f : Function) (addr : Address) (size : Nat) (ops : List Nat) :
    Examined f (f.examineFlow addr size ops).1
      (ops.countP fun o => (f.store.op? o).any (·.opcode.isBranch)) := by
  have h := examined_foldl_examineOp addr size ops ops.zipIdx f
  have hcount : (ops.countP fun o => (f.store.op? o).any (·.opcode.isBranch)) =
      ops.zipIdx.countP fun p => (f.store.op? p.1).any (·.opcode.isBranch) := by
    rw [← List.zipIdx_map_fst 0 ops, List.countP_map, List.zipIdx_map_fst]
    rfl
  rw [hcount]
  exact h

/-! ## Decoding an instruction -/

/-- A fold that creates one operation per listed operation, with its opcode, numbers the
operations it answers in the order of the list. -/
theorem foldlM_newOps {step : Store × List Nat → ListedOp → Except Fault (Store × List Nat)}
    (hstep : ∀ acc e acc', step acc e = .ok acc' → acc.1.Extends acc'.1 ∧
      ∃ o, acc'.2 = acc.2 ++ [o] ∧ (acc'.1.op? o).map Op.opcode = some e.opcode) :
    ∀ (L : List ListedOp) (acc acc' : Store × List Nat), L.foldlM step acc = .ok acc' →
      acc.1.Extends acc'.1 ∧ acc'.2.map (fun o => (acc'.1.op? o).map Op.opcode) =
        acc.2.map (fun o => (acc'.1.op? o).map Op.opcode) ++ L.map fun e => some e.opcode
  | [], acc, acc', h => by
    cases h
    exact ⟨Store.Extends.refl _, by simp⟩
  | e :: L, acc, acc', h => by
    rw [List.foldlM_cons] at h
    obtain ⟨acc₁, h₁, h⟩ := Except.bind_eq_ok h
    obtain ⟨hE₁, o, hos, ho⟩ := hstep acc e acc₁ h₁
    obtain ⟨hE, hmap⟩ := foldlM_newOps hstep L acc₁ acc' h
    -- the new operation keeps its opcode through the later steps
    have ho' : (acc'.1.op? o).map Op.opcode = some e.opcode := by
      rw [hE.opcode (Store.lt_of_isSome_op? (Option.isSome_map.symm.trans (by rw [ho]; rfl))), ho]
    refine ⟨hE₁.trans hE, ?_⟩
    rw [hmap, hos, List.map_append, List.map_cons, List.map_nil, ho', List.map_cons,
      List.append_assoc]
    rfl

/-- **Decoding an instruction** changes only the store, keeps every operation, and creates one
operation per listed operation, with its opcode; an instruction listed without operations
becomes one `NOP`. -/
theorem instantiate_eq_ok {addr : Address} {listed : List ListedOp} {ops : List Nat}
    (hi : f.instantiate ctx addr listed = .ok (g, ops)) :
    g = { f with store := g.store } ∧ f.store.Extends g.store ∧
      ops.map (fun o => (g.store.op? o).map Op.opcode) =
        (if listed.isEmpty then [⟨.nop, none, []⟩] else listed).map fun e => some e.opcode := by
  unfold instantiate at hi
  dsimp only at hi
  obtain ⟨⟨store, ops'⟩, hfold, hi⟩ := Except.bind_eq_ok hi
  cases hi
  obtain ⟨hE, hmap⟩ := foldlM_newOps (fun ⟨s, os⟩ e y hstep => by
    dsimp only at hstep
    obtain ⟨⟨o, s₁⟩, h₁, hstep⟩ := Except.bind_eq_ok hstep
    obtain ⟨s₂, h₂, hstep⟩ := Except.bind_eq_ok hstep
    obtain ⟨s₃, h₃, hstep⟩ := Except.bind_eq_ok hstep
    obtain ⟨-, hE₁, ho⟩ := Store.newOp_eq_ok h₁
    -- the inputs, then the output, leave every operation in place
    have hE₃ : s₁.Extends s₃ := by
      refine foldlM_ok_invariant (fun s' => s₁.Extends s') h₃ (Store.extends_markAlive h₂) ?_
      rintro ⟨vd, slot⟩ - x z hx hz
      dsimp only at hz
      refine hx.trans ((Store.extends_of_ops ?_).trans (Store.extends_setInput hz))
      split <;> rfl
    have hE₄ : ∀ s₄, s₃.Extends s₄ → (s₄, os ++ [o]) = y → s.Extends y.1 ∧
        ∃ o', y.2 = os ++ [o'] ∧ (y.1.op? o').map Op.opcode = some e.opcode := by
      intro s₄ h₄ hy
      subst hy
      have hE' := hE₃.trans h₄
      refine ⟨((Store.extends_of_ops (by exact rfl)).trans hE₁).trans hE', o, rfl, ?_⟩
      have hlt : o < s₁.ops.size := Store.lt_of_isSome_op? (Option.isSome_map.symm.trans (by rw [ho]; rfl))
      rw [hE'.opcode hlt]
      have hc := congrArg (Option.map Prod.fst) ho
      simp only [Option.map_map] at hc
      exact hc
    split at hstep
    · obtain ⟨⟨v, s₄⟩, h₄, hstep⟩ := Except.bind_eq_ok hstep
      exact hE₄ s₄ (Store.extends_createOutput h₄) (Except.ok.inj hstep)
    · exact hE₄ s₃ (Store.Extends.refl _) (Except.ok.inj hstep)) _ _ _ hfold
  simp only [List.map_nil, List.nil_append] at hmap
  -- the first operation takes the start mark, which keeps every head
  split
  · rename_i first _
    have hm : store.Extends (store.modifyOp first fun x => { x with flags := { x.flags with startMark := true } }) :=
      Store.extends_modifyOp _ _ fun _ => rfl
    refine ⟨rfl, hE.trans hm, ?_⟩
    rw [← hmap]
    refine List.map_congr_left fun o ho => hm.opcode (Store.lt_of_isSome_op? ?_)
    have hmem : (store.op? o).map Op.opcode ∈ ops'.map fun o => (store.op? o).map Op.opcode :=
      List.mem_map_of_mem ho
    rw [hmap] at hmem
    obtain ⟨e, -, he⟩ := List.mem_map.mp hmem
    have hs := congrArg Option.isSome he
    simp only [Option.isSome_some, Option.isSome_map] at hs
    exact hs.symm
  · exact ⟨rfl, hE, hmap⟩

/-! ## The listed instructions not decoded yet -/

/-- The listed instructions at addresses flow following has not decoded yet. -/
def undecoded (d : Decoder) (f : Function) : List (Address × Instruction) :=
  d.entries.filter fun e => (f.visitAt? e.1).isNone

/-- The listed operations of the instructions not decoded yet: decoding them is all the work
flow following can still find. -/
def undecodedOps (d : Decoder) (f : Function) : Nat :=
  ((undecoded d f).map fun e => e.2.ops.length).sum

variable {d : Decoder}

theorem isSome_visitAt?_iff (f : Function) (a : Address) :
    (f.visitAt? a).isSome ↔ a ∈ f.visited.map Prod.fst := by
  simp [visitAt?, List.find?_isSome]

theorem undecoded_congr (hv : g.visited = f.visited) : undecoded d g = undecoded d f := by
  simp only [undecoded, visitAt?, hv]

/-- Recording an instruction at `a` takes the listed instructions at `a` off the list. -/
theorem undecoded_addVisit (f : Function) (a : Address) (v : VisitStat) :
    undecoded d (f.addVisit a v) = (undecoded d f).filter fun e => e.1 != a := by
  unfold undecoded
  rw [List.filter_filter]
  refine List.filter_congr fun e _ => ?_
  have h : ((f.addVisit a v).visitAt? e.1).isSome ↔ (f.visitAt? e.1).isSome ∨ e.1 = a := by
    rw [isSome_visitAt?_iff, isSome_visitAt?_iff]
    refine ⟨fun hm => ?_, fst_mem_addVisit⟩
    obtain ⟨x, hx, hxe⟩ := List.mem_map.mp hm
    rcases mem_addVisit hx with hx | rfl
    · exact .inl (hxe ▸ List.mem_map_of_mem hx)
    · exact .inr hxe.symm
  rw [← Option.not_isSome, ← Option.not_isSome]
  by_cases hea : e.1 = a
  · have hs := h.mpr (.inr hea)
    rw [hea] at hs ⊢
    simp [hs]
  · cases hs : (f.visitAt? e.1).isSome
    · simp [hea, show ¬ ((f.addVisit a v).visitAt? e.1).isSome = true by simp [h, hs, hea]]
    · simp [h.mpr (.inl hs)]

/-- An instruction decoded at `a` is listed at `a`. -/
theorem Decoder.exists_entry_of_decode {a : Address} {len : Nat} {listed : List ListedOp}
    (h : d.decode a = .instruction len listed) : ∃ i, (a, i) ∈ d.entries ∧ i.ops = listed := by
  unfold Decoder.decode at h
  cases hf : d.entries.find? (·.1 == a) with
  | none => simp [hf] at h
  | some p =>
    obtain ⟨a', i⟩ := p
    have ha : a' = a := by simpa using List.find?_some hf
    subst ha
    refine ⟨i, List.mem_of_find?_eq_some hf, ?_⟩
    simp only [hf] at h
    split at h
    · cases h
    · cases h
      rfl

/-- **Decoding an instruction takes it off the list**: recording the instruction listed at an
address not decoded before removes at least it, with its listed operations. -/
theorem undecoded_decode {a : Address} {len : Nat} {listed : List ListedOp}
    (hv : (f.visitAt? a).isSome = false) (h : d.decode a = .instruction len listed) (v : VisitStat) :
    (undecoded d (f.addVisit a v)).length < (undecoded d f).length ∧
      undecodedOps d (f.addVisit a v) + listed.length ≤ undecodedOps d f := by
  obtain ⟨i, hi, rfl⟩ := Decoder.exists_entry_of_decode h
  have hmem : (a, i) ∈ undecoded d f := List.mem_filter.mpr ⟨hi, by simp [← Option.not_isSome, hv]⟩
  rw [undecodedOps, undecodedOps, undecoded_addVisit]
  refine ⟨List.length_filter_lt_length_iff_exists.mpr ⟨(a, i), hmem, by simp⟩, ?_⟩
  -- the entries kept and the entries at `a` split the list
  have hperm := ((List.filter_append_perm (fun e => e.1 != a) (undecoded d f)).map
    fun e => e.2.ops.length).sum_nat
  rw [List.map_append, List.sum_append_nat] at hperm
  have hle : i.ops.length ≤ (((undecoded d f).filter fun e => !(e.1 != a)).map
      fun e => e.2.ops.length).sum :=
    List.le_sum_of_mem (List.mem_map_of_mem (List.mem_filter.mpr ⟨hmem, by simp⟩))
  omega

/-! ## What flow following changes -/

/-- `g` is `f` after flow following: the indirect branches only grow, and a new one is an
operation of the store; every operation stays with its head; the tables and failures stay;
and the indirect branches grow by no more than the listed operations decoded. -/
structure FlowFollowed (d : Decoder) (f g : Function) : Prop where
  indirects : f.indirects.toList <+: g.indirects.toList
  inStore : ∀ o ∈ g.indirects.toList, o ∈ f.indirects.toList ∨ o < g.store.ops.size
  store : f.store.Extends g.store
  unresolved : g.unresolved = f.unresolved
  jumpTables : g.jumpTables = f.jumpTables
  work : g.indirects.size + undecodedOps d g ≤ f.indirects.size + undecodedOps d f

/-- `g` is `f` after decoding along fallthrough, which only pushes pending addresses, and no
more of them and of indirect branches together than the listed operations it decodes. -/
structure FlowDecoded (d : Decoder) (f g : Function) : Prop extends FlowFollowed d f g where
  pending : f.pending.length ≤ g.pending.length
  queued : g.pending.length + g.indirects.size + undecodedOps d g ≤
    f.pending.length + f.indirects.size + undecodedOps d f

theorem FlowFollowed.trans (h₁ : FlowFollowed d f g) (h₂ : FlowFollowed d g h) : FlowFollowed d f h where
  indirects := h₁.indirects.trans h₂.indirects
  inStore o ho := by
    rcases h₂.inStore o ho with ho | ho
    · rcases h₁.inStore o ho with ho | ho
      · exact .inl ho
      · exact .inr (Nat.lt_of_lt_of_le ho h₂.store.size_le)
    · exact .inr ho
  store := h₁.store.trans h₂.store
  unresolved := h₂.unresolved.trans h₁.unresolved
  jumpTables := h₂.jumpTables.trans h₁.jumpTables
  work := Nat.le_trans h₂.work h₁.work

theorem FlowDecoded.trans (h₁ : FlowDecoded d f g) (h₂ : FlowDecoded d g h) : FlowDecoded d f h :=
  { h₁.toFlowFollowed.trans h₂.toFlowFollowed with
    pending := Nat.le_trans h₁.pending h₂.pending
    queued := Nat.le_trans h₂.queued h₁.queued }

/-- A step that changes none of the indirect branches, the store, the tables and the decoded
instructions. -/
theorem FlowFollowed.of_eq (hi : g.indirects = f.indirects) (hs : g.store = f.store)
    (hu : g.unresolved = f.unresolved) (hj : g.jumpTables = f.jumpTables)
    (hv : g.visited = f.visited) : FlowFollowed d f g where
  indirects := by rw [hi]
  inStore o ho := .inl (by rwa [hi] at ho)
  store := by rw [hs]; exact Store.Extends.refl _
  unresolved := hu
  jumpTables := hj
  work := by rw [hi, undecodedOps, undecodedOps, undecoded_congr hv]

/-- A step that changes none of the pending addresses, the indirect branches, the store, the
tables and the decoded instructions. -/
theorem FlowDecoded.of_eq (hp : g.pending = f.pending) (hi : g.indirects = f.indirects)
    (hs : g.store = f.store) (hu : g.unresolved = f.unresolved) (hj : g.jumpTables = f.jumpTables)
    (hv : g.visited = f.visited) : FlowDecoded d f g :=
  { FlowFollowed.of_eq hi hs hu hj hv with
  pending := by rw [hp]
  queued := by rw [hp, hi, undecodedOps, undecodedOps, undecoded_congr hv] }

theorem FlowDecoded.refl (d : Decoder) (f : Function) : FlowDecoded d f f :=
  of_eq rfl rfl rfl rfl rfl rfl

/-- The branches among the operations decoded from an instruction are no more than its listed
operations: a `NOP` standing for an instruction without operations is no branch. -/
theorem countP_isBranch_instantiate {addr : Address} {listed : List ListedOp} {ops : List Nat}
    (hi : f.instantiate ctx addr listed = .ok (g, ops)) :
    (ops.countP fun o => (g.store.op? o).any (·.opcode.isBranch)) ≤ listed.length := by
  have hmap := congrArg (List.countP fun c : Option Opcode => c.any Opcode.isBranch)
    (instantiate_eq_ok hi).2.2
  have hany : ∀ o, (g.store.op? o).any (·.opcode.isBranch) =
      ((g.store.op? o).map Op.opcode).any Opcode.isBranch := by
    intro o
    cases g.store.op? o <;> rfl
  simp only [List.countP_map] at hmap
  rw [List.countP_congr fun o _ => by rw [hany o]]
  refine hmap.symm ▸ ?_
  split
  · rename_i hempty
    simp [List.isEmpty_iff.mp hempty, Opcode.isBranch]
  · exact Nat.le_trans (List.countP_le_length) (by simp)

/-- **One decoded instruction**: recording an instruction at an address not decoded before,
with the flow effects of its operations, is a step of `FlowDecoded` that takes the instruction
off the list of those not decoded. -/
theorem flowDecoded_decode {cur : Address} {len : Nat} {listed : List ListedOp} {f₁ : Function}
    {ops : List Nat} (hv : (f.visitAt? cur).isSome = false)
    (hdec : ctx.decoder.decode cur = .instruction len listed)
    (hi : instantiate ctx { f with instCount := f.instCount + 1 } cur listed = .ok (f₁, ops))
    (v : VisitStat) (addr : Address) (size : Nat) :
    FlowDecoded ctx.decoder f ((f₁.addVisit cur v).examineFlow addr size ops).1 ∧
      (undecoded ctx.decoder ((f₁.addVisit cur v).examineFlow addr size ops).1).length <
        (undecoded ctx.decoder f).length := by
  obtain ⟨hf₁, hE, -⟩ := instantiate_eq_ok hi
  have hex := examined_examineFlow (f₁.addVisit cur v) addr size ops
  have hk : (ops.countP fun o => ((f₁.addVisit cur v).store.op? o).any (·.opcode.isBranch)) ≤
      listed.length := by
    have hk := countP_isBranch_instantiate hi
    exact hk
  -- the instruction's operations, then its record, then its flow effects
  have hva : (f₁.addVisit cur v).visited = (f.addVisit cur v).visited := by
    rw [hf₁]
    rfl
  have hund : undecoded ctx.decoder ((f₁.addVisit cur v).examineFlow addr size ops).1 =
      undecoded ctx.decoder (f.addVisit cur v) := by
    rw [undecoded_congr hex.visited, undecoded_congr hva]
  obtain ⟨hlen, hops⟩ := undecoded_decode hv hdec v
  have hU : undecodedOps ctx.decoder ((f₁.addVisit cur v).examineFlow addr size ops).1 =
      undecodedOps ctx.decoder (f.addVisit cur v) := by
    rw [undecodedOps, undecodedOps, hund]
  have hp : (f₁.addVisit cur v).pending = f.pending := by rw [hf₁]; rfl
  have hind : (f₁.addVisit cur v).indirects = f.indirects := by rw [hf₁]; rfl
  have hu : (f₁.addVisit cur v).unresolved = f.unresolved := by rw [hf₁]; rfl
  have hj : (f₁.addVisit cur v).jumpTables = f.jumpTables := by rw [hf₁]; rfl
  have hwork := hex.work
  have hpend := hex.pending
  rw [hp, hind] at hwork
  rw [hp] at hpend
  have hstore : f.store.Extends ((f₁.addVisit cur v).examineFlow addr size ops).1.store :=
    hE.trans ⟨Nat.le_of_eq hex.size.symm, fun o _ => hex.heads o⟩
  refine ⟨⟨⟨?_, fun o ho => ?_, hstore, ?_, ?_, by omega⟩, ?_, by omega⟩, by rw [hund]; exact hlen⟩
  · exact hind ▸ hex.indirects
  · rcases hex.inStore o ho with ho | ho
    · exact .inl (hind ▸ ho)
    · refine .inr (Store.lt_of_isSome_op? ?_)
      rw [← Option.isSome_map (f := Op.head), hex.heads o, Option.isSome_map]
      exact ho
  · rw [hex.unresolved, hu]
  · rw [hex.jumpTables, hj]
  · exact hpend

/-! ## Decoding along fallthrough -/

/-- **One step of decoding along fallthrough**: it stops, or it goes on from a function with
fewer listed instructions not decoded. -/
theorem processFrom_succ_congr {n m : Nat} (f : Function) (cur : Address)
    (hrec : ∀ g a, (undecoded ctx.decoder g).length < (undecoded ctx.decoder f).length →
      processFrom ctx n g a = processFrom ctx m g a) :
    processFrom ctx (n + 1) f cur = processFrom ctx (m + 1) f cur := by
  rw [processFrom, processFrom]
  split
  · rfl
  rename_i hv
  split
  · rfl
  split
  · rfl
  split
  · rfl
  split
  · rfl
  · rfl
  rename_i len listed hdec
  dsimp only
  split
  · rfl
  cases hi : instantiate ctx { f with instCount := f.instCount + 1 } cur listed with
  | error e => rfl
  | ok p =>
    obtain ⟨f₁, ops⟩ := p
    dsimp only [bind, Except.bind]
    split
    · exact hrec _ _ (flowDecoded_decode (Bool.eq_false_iff.mpr hv) hdec hi _ _ _).2
    · rfl

/-- **Decoding along fallthrough is a step of `FlowDecoded`.** -/
theorem flowDecoded_processFrom :
    ∀ (fuel : Nat) {f g : Function} {cur : Address} {ok : Bool},
      processFrom ctx fuel f cur = .ok (g, ok) → FlowDecoded ctx.decoder f g
  | 0, f, g, cur, ok, h => by
    cases h
    exact FlowDecoded.refl _ f
  | fuel + 1, f, g, cur, ok, h => by
    rcases processFrom_succ_cases h with hs | ⟨len, listed, f₁, ops, seq, F, hD, hi, -, rfl, hnext⟩
    · exact FlowDecoded.of_eq hs.pending hs.indirects hs.store hs.unresolved hs.jumpTables hs.visited
    have hdec := (flowDecoded_decode hD.fresh hD.decode hi ⟨seq, max len 1⟩ cur (max len 1)).1
    rcases hnext with ⟨-, hnext⟩ | ⟨-, rfl, -⟩
    · exact hdec.trans (flowDecoded_processFrom fuel hnext)
    · exact hdec

/-- **Decoding along fallthrough ends before its fuel does**: with one step more than there are
listed instructions, more fuel changes nothing. -/
theorem processFrom_fuel (ctx : Context) (f : Function) (cur : Address) (k : Nat) :
    processFrom ctx (ctx.decoder.entries.length + 1 + k) f cur =
      processFrom ctx (ctx.decoder.entries.length + 1) f cur :=
  fuel_stable (fun n (p : Function × Address) => processFrom ctx n p.1 p.2)
    (fun p => (undecoded ctx.decoder p.1).length) (fun _ => True)
    (fun p _ _ _ hrec => processFrom_succ_congr p.1 p.2 fun g a hlt => hrec (g, a) trivial hlt)
    _ (f, cur) trivial (Nat.lt_succ_of_le (List.length_filter_le _ _)) k

/-! ## Following the pending addresses -/

/-- No more listed operations are left to decode than the listing has. -/
theorem undecodedOps_le (d : Decoder) (f : Function) : undecodedOps d f ≤ d.opCount := by
  rw [Decoder.opCount_eq_sum]
  exact ((List.filter_sublist).map _).sum_le_sum fun _ _ => Nat.zero_le _

/-- **One step of following the pending addresses**: it stops, or it goes on from a function
with fewer pending addresses and listed operations not decoded, together. -/
theorem followLoop_succ_congr {n m : Nat} (f : Function)
    (hrec : ∀ g, g.pending.length + undecodedOps ctx.decoder g <
      f.pending.length + undecodedOps ctx.decoder f → followLoop ctx n g = followLoop ctx m g) :
    followLoop ctx (n + 1) f = followLoop ctx (m + 1) f := by
  rw [followLoop, followLoop]
  split
  · rfl
  rename_i a rest hpend
  cases hp : processFrom ctx (ctx.decoder.entries.length + 1) { f with pending := rest } a with
  | error e => rfl
  | ok p =>
    obtain ⟨g, ok⟩ := p
    dsimp only [bind, Except.bind]
    split
    · refine hrec g ?_
      -- the address taken off pays for the addresses its instructions queue
      have hD := flowDecoded_processFrom _ hp
      have hind := hD.indirects.length_le
      have hU : undecodedOps ctx.decoder { f with pending := rest } = undecodedOps ctx.decoder f := rfl
      have hq := hD.queued
      simp only [hpend, List.length_cons, Array.length_toList] at hq hind ⊢
      omega
    · rfl

/-- **Following the pending addresses ends before its fuel does**: with one step more than the
pending addresses and the listed operations, more fuel changes nothing. -/
theorem followLoop_fuel (ctx : Context) (f : Function) (k : Nat) :
    followLoop ctx (f.pending.length + ctx.decoder.opCount + 1 + k) f =
      followLoop ctx (f.pending.length + ctx.decoder.opCount + 1) f :=
  fuel_stable (followLoop ctx) (fun g => g.pending.length + undecodedOps ctx.decoder g)
    (fun _ => True) (fun g _ _ _ hrec => followLoop_succ_congr g fun g' hlt => hrec g' trivial hlt)
    _ f trivial (by have := undecodedOps_le ctx.decoder f; omega) k

/-- **Following the pending addresses is a step of `FlowFollowed`.** -/
theorem flowFollowed_followLoop :
    ∀ (fuel : Nat) {f g : Function}, followLoop ctx fuel f = .ok g → FlowFollowed ctx.decoder f g
  | 0, f, g, h => by
    cases h
    exact FlowFollowed.of_eq rfl rfl rfl rfl rfl
  | fuel + 1, f, g, h => by
    rcases followLoop_succ_cases h with ⟨-, rfl⟩ | ⟨a, rest, f₁, ok, -, h₁, hnext⟩
    · exact FlowFollowed.of_eq rfl rfl rfl rfl rfl
    have hf₁ := (FlowFollowed.of_eq (d := ctx.decoder) (f := f) (g := { f with pending := rest })
      rfl rfl rfl rfl rfl).trans (flowDecoded_processFrom _ h₁).toFlowFollowed
    rcases hnext with ⟨-, hnext⟩ | ⟨-, rfl⟩
    · exact hf₁.trans (flowFollowed_followLoop fuel hnext)
    · exact hf₁.trans (FlowFollowed.of_eq rfl rfl rfl rfl rfl)

theorem flowFollowed_followFlow (h : f.followFlow ctx = .ok g) : FlowFollowed ctx.decoder f g := by
  obtain ⟨f₁, h₁, hs⟩ := followFlow_ok h
  exact (flowFollowed_followLoop _ h₁).trans
    (FlowFollowed.of_eq hs.indirects hs.store hs.unresolved hs.jumpTables hs.visited)

end Function

end MicroSsa
