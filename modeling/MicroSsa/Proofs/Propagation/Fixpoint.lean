import MicroSsa.Proofs.Propagation.Worklist
import MicroSsa.Proofs.Store.Orders
/-!
# Constant propagation reaches the greatest fixed point

Propagation starts every varnode at its own starting value (`startValues_eq`): an output that is
no constant starts at `top`, so no evaluation lies above it. From there the loop of
`MicroSsa.Proofs.Propagation.Worklist` runs to an empty list within its fuel.

`propagateConstants_correct` gathers what follows for a linked store in which no operation writes
a constant (`PropagationCorrect`): the loop ends; values only fall, one at a time and strictly;
every operation of a live block with an output, stores apart, holds at its output its evaluation
from the final values; and the final values lie above every post-fixpoint below the start, so
they are the greatest solution of the equations they satisfy.

A store with an output is the exception: a change of an input of a store queues the loads and
not the store, so its output keeps its first evaluation (`slotCopy_store_output_stale`).
-/

namespace MicroSsa

namespace Function

/-! ## Starting values -/

/-- Changing the entries at the positions of a list by an idempotent map changes each listed
entry once. -/
theorem getElem?_foldl_modify {α : Type} (h : α → α) (hh : ∀ a, h (h a) = h a) (l : List Nat)
    (xs : Array α) (w : Nat) :
    (l.foldl (fun xs v => xs.modify v h) xs)[w]? = if w ∈ l then xs[w]?.map h else xs[w]? := by
  induction l generalizing xs with
  | nil => simp
  | cons v l ih =>
    rw [List.foldl_cons, ih, Array.getElem?_modify]
    by_cases hv : v = w
    · subst hv
      cases xs[v]? <;> simp [hh]
    · by_cases hl : w ∈ l <;> simp [hv, Ne.symm hv, hl]

theorem foldl_modifyVn (g : Varnode → Varnode) (l : List Nat) (s : Store) :
    l.foldl (fun s v => s.modifyVn v g) s =
      { s with varnodes := l.foldl (fun xs v => xs.modify v (Option.map g)) s.varnodes } := by
  induction l generalizing s with
  | nil => rfl
  | cons v l ih => exact ih (s.modifyVn v g)

/-- Propagation starts from every varnode's own starting value. -/
theorem startValues_eq (ctx : Context) (f : Function) :
    startValues ctx f = f.withValues fun v => ((f.store.vn? v).map (initialValue ctx)).getD .bottom := by
  simp only [startValues, withValues, foldl_modifyVn, Function.mk.injEq, Store.mk.injEq, and_true,
    true_and]
  refine Array.ext_getElem? fun v => ?_
  rw [getElem?_foldl_modify _ (fun y => by cases y <;> rfl), Array.getElem?_mapIdx]
  cases hv : f.store.varnodes[v]? with
  | none => simp
  | some y =>
    cases y with
    | none => simp
    | some y =>
      -- every varnode is in location order, once
      have hy : f.store.vn? v = some y := by simp [Store.vn?, hv]
      have hmem : v ∈ f.store.locOrder := Store.mem_locOrder.mpr (by simp [hy])
      simp [hmem, hy]

theorem liveOpsWith_startValues (ctx : Context) (f : Function) (q : Op → Bool) :
    (startValues ctx f).liveOpsWith q = f.liveOpsWith q := by
  rw [startValues_eq]
  rfl

theorem exists_of_mem_liveOpsWith {f : Function} {q : Op → Bool} {o : Nat} (h : o ∈ f.liveOpsWith q) :
    ∃ x, f.store.op? o = some x ∧ q x = true := by
  obtain ⟨-, h⟩ := List.mem_filter.mp h
  cases hx : f.store.op? o with
  | none => simp [hx] at h
  | some x => exact ⟨x, rfl, by simpa [hx] using h⟩

theorem mem_liveOpsWith_of {f : Function} {q q' : Op → Bool} {o : Nat} {x : Op}
    (h : o ∈ f.liveOpsWith q) (hx : f.store.op? o = some x) (hq : q' x = true) :
    o ∈ f.liveOpsWith q' := by
  obtain ⟨hb, -⟩ := List.mem_filter.mp h
  exact List.mem_filter.mpr ⟨hb, by simp [hx, hq]⟩

variable {ctx : Context} {f : Function} {loads stores seeds : List Nat}

/-- An output that no operation writes into the constant space starts at `top`. -/
theorem valueOf_startValues_output (hL : f.store.Linked)
    (hconst : ∀ {o x w y}, f.store.op? o = some x → x.output = some w → f.store.vn? w = some y →
      y.flags.constant = false)
    {o w : Nat} {x : Op} (hx : f.store.op? o = some x) (hw : x.output = some w) :
    (startValues ctx f).valueOf w = .top := by
  obtain ⟨y, hy, hd⟩ := hL.output_def hx hw
  -- a written varnode is no input
  have hin : y.flags.input = false := by
    cases h : y.flags.input with
    | false => rfl
    | true => simp [hL.input_undef hy h] at hd
  rw [startValues_eq, valueOf_withValues]
  simp [hy, initialValue, hconst hx hw hy, hin]

/-- The loop starts with the invariant, every operation to settle waiting. -/
theorem Settling.start (hL : f.store.Linked)
    (hconst : ∀ {o x w y}, f.store.op? o = some x → x.output = some w → f.store.vn? w = some y →
      y.flags.constant = false)
    (hseeds : ∀ o ∈ seeds, (f.store.op? o).isSome) :
    Settling ctx f loads stores seeds (startValues ctx f).valueOf
      (seeds.foldl Propagation.enqueue { func := startValues ctx f, queue := [], stackUnsafe := false }) := by
  have hfunc := Propagation.func_foldl_enqueue seeds
    { func := startValues ctx f, queue := [], stackUnsafe := false }
  refine ⟨?_, ?_, fun {o x w} hx hw => ?_, fun {o x w} hseed _ _ _ => ?_, fun σ hσ _ => ?_,
    Propagation.nodup_foldl_enqueue seeds List.nodup_nil, fun o ho => ?_⟩
  · rw [hfunc, startValues_eq, withValues_valueOf_withValues]
  · rw [hfunc]
  · rw [hfunc, valueOf_startValues_output hL hconst hx hw]
    exact Value.le_top _
  · exact Or.inl ((Propagation.mem_foldl_enqueue seeds _).mpr (Or.inl hseed))
  · rw [hfunc]
    exact hσ
  · rcases (Propagation.mem_foldl_enqueue seeds _).mp ho with h | h
    · exact hseeds o h
    · cases h

/-- The fuel of the loop exceeds the work it starts with. -/
theorem Settling.workLeft_lt_fuel {p : Propagation} {start : Nat → Value}
    (hS : Settling ctx f loads stores seeds start p) :
    workLeft f p < (f.store.ops.size + 1) * (3 * f.store.varnodes.size + 1) + 1 := by
  have hq := hS.length_queue_le
  have hroom : fallRoom f p.func.valueOf ≤ f.store.varnodes.size * 2 := by
    unfold fallRoom
    simpa using Finset.sum_le_card_nsmul (Finset.range f.store.varnodes.size)
      (fun v => 2 - (p.func.valueOf v).height) 2 fun _ _ => Nat.sub_le _ _
  -- the fuel is one more than the queue bound plus three moves' room per varnode
  have hmul := Nat.mul_le_mul_left (f.store.ops.size + 1) hroom
  have hfuel : (f.store.ops.size + 1) * (3 * f.store.varnodes.size + 1) =
      (f.store.ops.size + 1) * (f.store.varnodes.size * 2) +
        (f.store.ops.size + 1) * f.store.varnodes.size + (f.store.ops.size + 1) := by
    rw [show 3 * f.store.varnodes.size + 1 = f.store.varnodes.size * 2 + f.store.varnodes.size + 1 by
      omega, Nat.mul_add, Nat.mul_add, Nat.mul_one]
  unfold workLeft
  omega

/-! ## The end of propagation -/

/-- Recording the stack depth and the stack flag changes no value. -/
theorem valueOf_propagateConstants (ctx : Context) (f : Function) :
    (propagateConstants ctx f).valueOf = (propagateValues ctx f).func.valueOf := by
  unfold propagateConstants
  dsimp only
  split <;> rfl

/-- Evaluation reads the store and the blocks, which the end of propagation leaves as they are. -/
theorem evalOp_propagateConstants (ctx : Context) (f : Function) (stores : List Nat) (o : Nat) :
    evalOp ctx (propagateConstants ctx f) stores o = evalOp ctx (propagateValues ctx f).func stores o := by
  refine evalOp_eq_of_store_graph ?_ ?_ stores o
  all_goals
    unfold propagateConstants
    dsimp only
    split <;> rfl

/-- Propagation runs its loop over the live operations of `f`, from the starting values. -/
theorem propagateValues_eq (ctx : Context) (f : Function) :
    propagateValues ctx f =
      propagateLoop ctx (f.liveOpsWith (·.opcode == .load)) (f.liveOpsWith (·.opcode == .store))
        ((f.store.ops.size + 1) * (3 * f.store.varnodes.size + 1) + 1)
        ((f.liveOpsWith (·.output.isSome)).foldl Propagation.enqueue
          { func := startValues ctx f, queue := [], stackUnsafe := false }) := by
  have hsize : (startValues ctx f).store.varnodes.size = f.store.varnodes.size := by
    rw [startValues_eq]
    simp [withValues]
  have hops : (startValues ctx f).store.ops = f.store.ops := by
    rw [startValues_eq]
    rfl
  unfold propagateValues
  simp only [liveOpsWith_startValues, hsize, hops]

/-- What constant propagation over `f` achieves. -/
structure PropagationCorrect (ctx : Context) (f : Function) : Prop where
  /-- The loop ends with an empty work list, before its fuel runs out. -/
  ends : (propagateValues ctx f).queue = []
  /-- A visit lowers at most one value, strictly: down the lattice and further from `top`, so a
  value changes at most twice. -/
  visit_lowers : ∀ loads stores p o,
    (Propagation.visit ctx loads stores p o).func.valueOf = p.func.valueOf ∨
      ∃ w a, a < p.func.valueOf w ∧ (p.func.valueOf w).height < a.height ∧
        (Propagation.visit ctx loads stores p o).func.valueOf = Function.update p.func.valueOf w a
  /-- Every value lies at or below where it started. -/
  below_start : (propagateConstants ctx f).valueOf ≤ (startValues ctx f).valueOf
  /-- Every operation of a live block with an output, other than a store, holds its evaluation
  from the final values at its output. -/
  settled : ∀ o ∈ f.liveOpsWith (·.output.isSome), ∀ x w, f.store.op? o = some x →
    x.output = some w → x.opcode ≠ .store → (propagateConstants ctx f).valueOf w =
      (evalOp ctx (propagateConstants ctx f) (f.liveOpsWith (·.opcode == .store)) o).value
  /-- The values lie above every post-fixpoint below the start. -/
  greatest : ∀ σ, σ ≤ (startValues ctx f).valueOf →
    PostFixpoint ctx f (f.liveOpsWith (·.opcode == .store)) σ → σ ≤ (propagateConstants ctx f).valueOf

/-- Constant propagation over a linked store in which no operation writes a constant is correct
in the sense of `PropagationCorrect`. -/
theorem propagateConstants_correct (ctx : Context) (f : Function) (hL : f.store.Linked)
    (hconst : ∀ {o x w y}, f.store.op? o = some x → x.output = some w → f.store.vn? w = some y →
      y.flags.constant = false) :
    PropagationCorrect ctx f := by
  have hseeds : ∀ o ∈ f.liveOpsWith (·.output.isSome), (f.store.op? o).isSome := fun o ho => by
    obtain ⟨x, hx, -⟩ := exists_of_mem_liveOpsWith ho
    simp [hx]
  have hloads : ∀ {o x}, o ∈ f.liveOpsWith (·.output.isSome) → f.store.op? o = some x →
      x.opcode = .load → o ∈ f.liveOpsWith (·.opcode == .load) := fun ho hx hl =>
    mem_liveOpsWith_of ho hx (by simp [hl])
  have hloads_ops : ∀ o ∈ f.liveOpsWith (·.opcode == .load), (f.store.op? o).isSome := fun o ho => by
    obtain ⟨x, hx, -⟩ := exists_of_mem_liveOpsWith ho
    simp [hx]
  have hstores : ∀ {st y}, st ∈ f.liveOpsWith (·.opcode == .store) → f.store.op? st = some y →
      y.opcode = .store := fun hst hy => by
    obtain ⟨x, hx, hs⟩ := exists_of_mem_liveOpsWith hst
    rw [hy] at hx
    cases hx
    simpa using hs
  have hS : Settling ctx f (f.liveOpsWith (·.opcode == .load)) (f.liveOpsWith (·.opcode == .store))
      (f.liveOpsWith (·.output.isSome)) (startValues ctx f).valueOf _ := Settling.start hL hconst hseeds
  obtain ⟨hend, hnil⟩ := hS.propagateLoop hL hloads hloads_ops hstores _ hS.workLeft_lt_fuel
  rw [← propagateValues_eq] at hend hnil
  refine ⟨hnil, fun loads stores p o => Propagation.visit_valueOf loads p o, ?_,
    fun o ho x w hx hw hst => ?_, fun σ hσ hpost => ?_⟩
  · rw [valueOf_propagateConstants]
    exact hend.below
  · rw [valueOf_propagateConstants, evalOp_propagateConstants]
    rcases hend.settled ho hx hw hst with hin | heq
    · rw [hnil] at hin
      cases hin
    · exact heq
  · rw [valueOf_propagateConstants]
    exact hend.above σ hσ hpost

/-! ## A function with a stack slot copied to another

The stack pointer is an input; the function reads the slot eight bytes below it and stores what
it read into the slot sixteen bytes below, the store carrying an output of its own. -/

/-- A target with memory, registers, temporaries and constants, its stack pointer at register
`0x34`. -/
def toyContext : Context :=
  { arch :=
      { spaces :=
          { spaces := #[⟨"ram", .processor, .little, 4⟩, ⟨"register", .register, .little, 4⟩,
              ⟨"unique", .unique, .little, 4⟩, ⟨"const", .constant, .little, 8⟩],
            constant := 3 },
        codeSpace := 0, sp := ⟨⟨1, 0x34⟩, 4⟩, lr := some ⟨⟨1, 0x38⟩, 4⟩ },
    image := { space := 0 }, decoder := {}, limits := {}, config := {} }

/-- The requests that build the store of the function. -/
def slotCopySteps : List Store.Step :=
  [.newVarnode 1 0x34 4, .setVarnodeInput 0,
   .newConstant 4 0xfffffff8,
   .newOp .intAdd 0 0x1000, .setInput 0 0 0, .setInput 0 1 1, .createOutput 0 2 0x0 4,
   .newConstant 4 0,
   .newOp .load 0 0x1000, .setInput 1 3 0, .setInput 1 2 1, .createOutput 1 2 0x4 4,
   .newConstant 4 0xfffffff0,
   .newOp .intAdd 0 0x1000, .setInput 2 0 0, .setInput 2 5 1, .createOutput 2 2 0x8 4,
   .newConstant 4 0,
   .newOp .store 0 0x1000, .setInput 3 7 0, .setInput 3 6 1, .setInput 3 4 2, .createOutput 3 2 0xc 4,
   .markAlive 0, .markAlive 1, .markAlive 2, .markAlive 3]

/-- The store the requests build. -/
def slotCopyBase : Store :=
  ((slotCopySteps.foldlM (fun (s : Store) (st : Store.Step) => Prod.snd <$> st.apply s)
    (Store.empty 3 (some 2))).toOption).getD
    (Store.empty 3 (some 2))

/-- The function: its four operations in one block. -/
def slotCopy : Function :=
  { name := "main", addr := ⟨0, 0x1000⟩, instMax := 0,
    store := (((slotCopyBase.setParent 0 (some 0)).setParent 1 (some 0)).setParent 2 (some 0)).setParent 3
      (some 0),
    graph := { blocks := #[{ flags := { entryPoint := true }, ops := #[0, 1, 2, 3] }], entry := some 0 } }

theorem slotCopy_linked : slotCopy.store.Linked := by
  have h : slotCopySteps.foldlM (fun s st => Prod.snd <$> st.apply s) (Store.empty 3 (some 2)) =
      .ok slotCopyBase := rfl
  have hr := (Store.Reachable.init 3 (some 2)).foldSteps h
  exact (((hr.setParent 0 (some 0)).setParent 1 (some 0)).setParent 2 (some 0) |>.setParent 3
    (some 0)).sound.linked

/-- No output of the store lies in the constant space, by a check over its operations. -/
theorem Store.output_not_constant {s : Store}
    (h : s.liveOps.all (fun ox => (ox.2.output.bind s.vn?).all fun y => !y.flags.constant) = true)
    {o w : Nat} {x : Op} {y : Varnode} (hx : s.op? o = some x) (hw : x.output = some w)
    (hy : s.vn? w = some y) : y.flags.constant = false := by
  have h := List.all_eq_true.mp h (o, x) (Store.mem_liveOps.mpr hx)
  simpa [hw, hy] using h

theorem propagateConstants_correct_slotCopy :
    slotCopy.store.Linked ∧
    (∀ {o x w y}, slotCopy.store.op? o = some x → x.output = some w → slotCopy.store.vn? w = some y →
      y.flags.constant = false) ∧
    PropagationCorrect toyContext slotCopy :=
  have hc : ∀ {o x w y}, slotCopy.store.op? o = some x → x.output = some w →
      slotCopy.store.vn? w = some y → y.flags.constant = false :=
    Store.output_not_constant (by decide)
  ⟨slotCopy_linked, hc, propagateConstants_correct toyContext slotCopy slotCopy_linked hc⟩

/-- A store with an output keeps the value of its first evaluation: here the load it stores falls
to `bottom` after the store was evaluated, and the store is not evaluated again. -/
theorem slotCopy_store_output_stale :
    3 ∈ slotCopy.liveOpsWith (·.output.isSome) ∧
    (slotCopy.store.op? 3).map (fun x => (x.opcode, x.output)) = some (.store, some 8) ∧
    (propagateConstants toyContext slotCopy).valueOf 8 = .top ∧
    (evalOp toyContext (propagateConstants toyContext slotCopy)
      (slotCopy.liveOpsWith (·.opcode == .store)) 3).value = .bottom := by
  refine ⟨by decide, by decide, ?_, ?_⟩
  · rw [valueOf_propagateConstants, propagateValues_eq, startValues_eq]
    decide
  · rw [evalOp_propagateConstants, propagateValues_eq, startValues_eq]
    decide

end Function

end MicroSsa
