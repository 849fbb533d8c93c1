import MicroSsa.Proofs.Propagation.Fixpoint
/-!
# Where `top` survives propagation

Propagation starts every output at `top`, "not known yet". Evaluating an operation gives `top`
only when something it reads is `top` (`Function.evalOp_eq_top`): a merge meets its inputs from
`top`, an operation over the lattice is `top` only with a `top` input, and a load is `top` only
when its pointer is, or when it reads a stack slot while a store of its space has a `top`
pointer (the store is not placed yet) or stores a `top` value. At the end every live operation
but a store holds its evaluation, so a `top` left at a live output is inherited from what the
operation reads (`propagateConstants_top_inherited`).

A `top` can be inherited along a cycle, and then it stays. A load from the stack whose result is
the pointer of a later store waits for that pointer, which is the load's own result: the load's
output ends at `top` although the load runs on every path (`pointerLoad_output_top`).
-/

namespace MicroSsa

namespace Value

@[simp] theorem meet_eq_top_iff (a b : Value) : a.meet b = .top ↔ a = .top ∧ b = .top := by
  cases a <;> cases b <;> simp only [meet, reduceCtorEq, and_self, and_false, false_and,
    iff_false] <;> split <;> simp

/-- A fold of meets is `top` only if it starts at `top` and meets nothing but `top`. -/
theorem foldl_meet_eq_top {α : Type} (val : α → Value) :
    ∀ (l : List α) (a : Value), l.foldl (fun acc v => acc.meet (val v)) a = .top →
      a = .top ∧ ∀ v ∈ l, val v = .top
  | [], _, h => ⟨h, by simp⟩
  | v :: l, a, h => by
    obtain ⟨h₁, h₂⟩ := foldl_meet_eq_top val l (a.meet (val v)) h
    obtain ⟨ha, hv⟩ := (meet_eq_top_iff _ _).mp h₁
    exact ⟨ha, fun w hw => (List.mem_cons.mp hw).elim (fun e => e ▸ hv) (h₂ w)⟩

end Value

namespace Opcode

theorem evaluateRel_ne_top (o : Opcode) (ins : List (Value × Nat)) (outSize : Nat) (risk : Bool) :
    (o.evaluateRel ins outSize risk).value ≠ .top := by
  unfold evaluateRel shiftRel
  split <;> (try split) <;> (try split) <;> simp

/-- Evaluation over the lattice gives `top` only with a `top` input. -/
theorem evaluate_eq_top {o : Opcode} {ins : List (Value × Nat)} {outSize : Nat} {risk : Bool}
    (h : (o.evaluate ins outSize risk).value = .top) : ∃ p ∈ ins, p.1 = .top := by
  unfold evaluate at h
  split at h
  · cases h
  · split at h
    · rename_i hany
      simpa using hany
    · split at h
      · rename_i cs _
        cases hf : o.fold cs outSize <;> simp [hf] at h
      · exact absurd h (evaluateRel_ne_top o ins outSize risk)

end Opcode

namespace Function

variable {ctx : Context} {f : Function} {stores : List Nat}

theorem eq_top_of_slotAccess_pending {ptr : Value} {sp : Address} {offset : Int64}
    {size storedSize : Nat} (h : slotAccess ptr sp offset size storedSize = .pending) :
    ptr = .top := by
  cases ptr with
  | top => rfl
  | rel base o =>
    simp only [slotAccess] at h
    split_ifs at h
  | _ => simp [slotAccess] at h

/-- A walk over the stores gives `top` only after a `top` meet so far, or at a store of the
load's space with a `top` pointer or a `top` stored value. -/
theorem stackLoad_go_eq_top {load : Nat} {offset : Int64} {size space : Nat} :
    ∀ (sts : List Nat) (acc : Option Value),
      stackLoad.go ctx f load offset size space sts acc = .top →
      acc = some .top ∨ ∃ st ∈ sts, f.inputValue st 1 = .top ∨ f.inputValue st 2 = .top
  | [], acc, h => by
    cases acc with
    | none => cases h
    | some v => exact Or.inl (by simpa [stackLoad.go] using h)
  | st :: rest, acc, h => by
    have ih : ∀ acc, stackLoad.go ctx f load offset size space rest acc = .top →
        acc = some .top ∨ ∃ st' ∈ st :: rest, f.inputValue st' 1 = .top ∨ f.inputValue st' 2 = .top :=
      fun acc h => (stackLoad_go_eq_top rest acc h).imp_right
        (Exists.imp fun _ hst => ⟨List.mem_cons_of_mem st hst.1, hst.2⟩)
    simp only [stackLoad.go] at h
    split at h
    · exact ih acc h
    · split at h
      · -- the walk stops at a store whose pointer is not known yet
        exact Or.inr ⟨st, List.mem_cons_self, Or.inl (eq_top_of_slotAccess_pending ‹_›)⟩
      · exact ih acc h
      · cases h
      · split at h
        · cases h
        · rcases ih _ h with hmeet | hst
          · -- the meet carried on is `top`, so the value this store writes is
            refine Or.inr ⟨st, List.mem_cons_self, Or.inr ?_⟩
            cases acc with
            | none => simpa using hmeet
            | some r => exact ((Value.meet_eq_top_iff _ _).mp (by simpa using hmeet)).2
          · exact Or.inr hst

/-- An input value is `top` only at a `top` input. -/
theorem exists_input_of_inputValue_eq_top {o slot : Nat} (h : f.inputValue o slot = .top) :
    ∃ x v, f.store.op? o = some x ∧ v ∈ x.inputs ∧ f.valueOf v = .top := by
  unfold inputValue at h
  split at h
  · rename_i v hv
    obtain ⟨x, hx, hs⟩ := Option.bind_eq_some_iff.mp hv
    exact ⟨x, v, hx, Array.mem_of_getElem? hs, h⟩
  · cases h

/-- A load gives `top` only when its pointer is `top` or a store has a `top` input. -/
theorem loadValue_eq_top {o size : Nat} (h : loadValue ctx f stores o size = .top) :
    f.inputValue o 1 = .top ∨ ∃ st ∈ stores, f.inputValue st 1 = .top ∨ f.inputValue st 2 = .top := by
  unfold loadValue at h
  split at h
  · exact Or.inl ‹_›
  · split at h
    · cases h
    · dsimp only at h
      split at h
      · cases h
      · split at h <;> cases h
  · split at h
    · simp only [stackLoad] at h
      exact Or.inr ((stackLoad_go_eq_top stores none h).resolve_left (by simp))
    · cases h
  · cases h

/-- **An evaluation is `top` only through a `top` it reads:** a merge all of whose inputs are
`top` (none at all included), or any operation reading a `top`. -/
theorem evalOp_eq_top {o : Nat} (h : (evalOp ctx f stores o).value = .top) :
    (∃ x, f.store.op? o = some x ∧ x.opcode = .multiEqual ∧ ∀ v ∈ x.inputs, f.valueOf v = .top) ∨
      ∃ v, f.Reads stores o v ∧ f.valueOf v = .top := by
  unfold evalOp at h
  cases hx : f.store.op? o with
  | none => simp [hx] at h
  | some x =>
    simp only [hx] at h
    split at h
    · split at h
      · cases h
      · split at h
        case h_1 hmerge =>
          -- a merge meets its inputs from `top`
          rw [← Array.foldl_toList] at h
          obtain ⟨-, hall⟩ := Value.foldl_meet_eq_top f.valueOf _ _ h
          exact Or.inl ⟨x, rfl, hmerge, fun v hv => hall v (Array.mem_toList_iff.mpr hv)⟩
        case h_2 hload =>
          refine Or.inr ?_
          rcases loadValue_eq_top h with hptr | ⟨st, hst, hv | hv⟩
          · obtain ⟨x', v, hx', hv, htop⟩ := exists_input_of_inputValue_eq_top hptr
            rw [hx] at hx'
            cases hx'
            exact ⟨v, ⟨x, hx, Or.inl hv⟩, htop⟩
          all_goals
            obtain ⟨y, v, hy, hv, htop⟩ := exists_input_of_inputValue_eq_top hv
            exact ⟨v, ⟨x, hx, Or.inr ⟨hload, st, hst, y, hy, hv⟩⟩, htop⟩
        case h_3 | h_4 | h_5 => cases h
        case h_6 =>
          obtain ⟨p, hp, htop⟩ := Opcode.evaluate_eq_top h
          obtain ⟨v, hv, rfl⟩ := List.mem_map.mp hp
          exact Or.inr ⟨v, ⟨x, hx, Or.inl (Array.mem_toList_iff.mp hv)⟩, htop⟩
    · cases h

/-! ## At the end of propagation -/

section End

variable (hL : f.store.Linked)
  (hconst : ∀ {o x w y}, f.store.op? o = some x → x.output = some w → f.store.vn? w = some y →
    y.flags.constant = false)

include hL hconst in
/-- Propagation over a linked store in which no operation writes a constant ends with its
invariant and an empty work list. -/
theorem propagateValues_settling :
    Settling ctx f (f.liveOpsWith (·.opcode == .load)) (f.liveOpsWith (·.opcode == .store))
      (f.liveOpsWith (·.output.isSome)) (startValues ctx f).valueOf (propagateValues ctx f) ∧
    (propagateValues ctx f).queue = [] := by
  have hseeds : ∀ o ∈ f.liveOpsWith (·.output.isSome), (f.store.op? o).isSome := fun o ho => by
    obtain ⟨x, hx, -⟩ := exists_of_mem_liveOpsWith ho
    simp [hx]
  have hloads : ∀ {o x}, o ∈ f.liveOpsWith (·.output.isSome) → f.store.op? o = some x →
      x.opcode = .load → o ∈ f.liveOpsWith (·.opcode == .load) := fun ho hx hl =>
    mem_liveOpsWith_of ho hx (by simp [hl])
  have hloads_ops : ∀ o ∈ f.liveOpsWith (·.opcode == .load), (f.store.op? o).isSome := fun o ho => by
    obtain ⟨x, hx, -⟩ := exists_of_mem_liveOpsWith ho
    simp [hx]
  have hstores : ∀ {st y}, st ∈ f.liveOpsWith (·.opcode == .store) → f.store.op? st = some y →
      y.opcode = .store := fun hst hy => by
    obtain ⟨x, hx, hs⟩ := exists_of_mem_liveOpsWith hst
    rw [hy] at hx
    cases hx
    simpa using hs
  have hS : Settling ctx f (f.liveOpsWith (·.opcode == .load)) (f.liveOpsWith (·.opcode == .store))
      (f.liveOpsWith (·.output.isSome)) (startValues ctx f).valueOf _ := Settling.start hL hconst hseeds
  rw [propagateValues_eq]
  exact hS.propagateLoop hL hloads hloads_ops hstores _ hS.workLeft_lt_fuel

/-- **A `top` left at a live output is inherited.** After propagation over a linked store in
which no operation writes a constant, an operation of a live block with an output, other than a
store, ends with `top` there only if it is a merge all of whose inputs end at `top`, or it reads
a varnode that ends at `top`: one of its inputs, or for a load an input of a store. -/
theorem propagateConstants_top_inherited (ctx : Context) (f : Function) (hL : f.store.Linked)
    (hconst : ∀ {o x w y}, f.store.op? o = some x → x.output = some w → f.store.vn? w = some y →
      y.flags.constant = false)
    {o : Nat} {x : Op} {w : Nat} (ho : o ∈ f.liveOpsWith (·.output.isSome))
    (hx : f.store.op? o = some x) (hw : x.output = some w) (hst : x.opcode ≠ .store)
    (htop : (propagateConstants ctx f).valueOf w = .top) :
    (x.opcode = .multiEqual ∧ ∀ v ∈ x.inputs, (propagateConstants ctx f).valueOf v = .top) ∨
      ∃ v, f.Reads (f.liveOpsWith (·.opcode == .store)) o v ∧
        (propagateConstants ctx f).valueOf v = .top := by
  obtain ⟨hend, hnil⟩ := propagateValues_settling hL hconst
  -- at the end the output holds its evaluation, which reads the final values
  have hsettled : (propagateValues ctx f).func.valueOf w =
      (evalOp ctx (propagateValues ctx f).func (f.liveOpsWith (·.opcode == .store)) o).value := by
    rcases hend.settled ho hx hw hst with hin | heq
    · rw [hnil] at hin
      cases hin
    · exact heq
  rw [valueOf_propagateConstants, hsettled] at htop
  have hreads : ∀ v, (propagateValues ctx f).func.Reads (f.liveOpsWith (·.opcode == .store)) o v ↔
      f.Reads (f.liveOpsWith (·.opcode == .store)) o v := fun v => by
    simp only [Reads, hend.op?_eq]
  rw [valueOf_propagateConstants]
  rcases evalOp_eq_top htop with ⟨x', hx', hmerge, hall⟩ | ⟨v, hv, htop⟩
  · rw [hend.op?_eq, hx] at hx'
    cases hx'
    exact Or.inl ⟨hmerge, hall⟩
  · exact Or.inr ⟨v, (hreads v).mp hv, htop⟩

end End

/-! ## A load through a pointer it reads itself

The stack pointer is an input; the function loads the word at the stack pointer, stores `5`
through the loaded word, and returns: the operations of
`r0 = LOAD [sp]; STORE [r0], 5; RETURN lr` in one block, in SSA form. The load is `top` while the
store's pointer is, and the store's pointer is the load. -/

/-- The requests that build the store of the function. -/
def pointerLoadSteps : List Store.Step :=
  [.newVarnode 1 0x34 4, .setVarnodeInput 0,
   .newConstant 4 0,
   .newOp .load 0 0x1000, .setInput 0 1 0, .setInput 0 0 1, .createOutput 0 1 0x0 4,
   .newConstant 4 0, .newConstant 4 5,
   .newOp .store 0 0x1000, .setInput 1 3 0, .setInput 1 2 1, .setInput 1 4 2,
   .newVarnode 1 0x38 4, .setVarnodeInput 5,
   .newOp .ret 0 0x1000, .setInput 2 5 0,
   .markAlive 0, .markAlive 1, .markAlive 2]

/-- The store the requests build. -/
def pointerLoadBase : Store :=
  ((pointerLoadSteps.foldlM (fun (s : Store) (st : Store.Step) => Prod.snd <$> st.apply s)
    (Store.empty 3 (some 2))).toOption).getD
    (Store.empty 3 (some 2))

/-- The function: its three operations in one block. -/
def pointerLoad : Function :=
  { name := "main", addr := ⟨0, 0x1000⟩, instMax := 0,
    store := ((pointerLoadBase.setParent 0 (some 0)).setParent 1 (some 0)).setParent 2 (some 0),
    graph := { blocks := #[{ flags := { entryPoint := true }, ops := #[0, 1, 2] }], entry := some 0 } }

theorem pointerLoad_linked : pointerLoad.store.Linked := by
  have h : pointerLoadSteps.foldlM (fun s st => Prod.snd <$> st.apply s) (Store.empty 3 (some 2)) =
      .ok pointerLoadBase := rfl
  have hr := (Store.Reachable.init 3 (some 2)).foldSteps h
  exact ((hr.setParent 0 (some 0)).setParent 1 (some 0) |>.setParent 2 (some 0)).sound.linked

theorem propagateConstants_top_inherited_pointerLoad :
    pointerLoad.store.Linked ∧ 0 ∈ pointerLoad.liveOpsWith (·.output.isSome) ∧
    (pointerLoad.store.op? 0).map (fun x => (x.opcode, x.output)) = some (.load, some 2) ∧
    (propagateConstants toyContext pointerLoad).valueOf 2 = .top ∧
    ∃ v, pointerLoad.Reads (pointerLoad.liveOpsWith (·.opcode == .store)) 0 v ∧
      (propagateConstants toyContext pointerLoad).valueOf v = .top := by
  have hc : ∀ {o x w y}, pointerLoad.store.op? o = some x → x.output = some w →
      pointerLoad.store.vn? w = some y → y.flags.constant = false :=
    Store.output_not_constant (by decide)
  have ho : 0 ∈ pointerLoad.liveOpsWith (·.output.isSome) := by decide
  have hop : (pointerLoad.store.op? 0).map (fun x => (x.opcode, x.output)) = some (.load, some 2) := by
    decide
  have htop : (propagateConstants toyContext pointerLoad).valueOf 2 = .top := by
    rw [valueOf_propagateConstants, propagateValues_eq, startValues_eq]
    decide
  obtain ⟨x, hx, hxo⟩ := Option.map_eq_some_iff.mp hop
  simp only [Prod.mk.injEq] at hxo
  refine ⟨pointerLoad_linked, ho, hop, htop, ?_⟩
  rcases propagateConstants_top_inherited toyContext pointerLoad pointerLoad_linked hc ho hx hxo.2
      (by rw [hxo.1]; decide) htop with ⟨hmerge, -⟩ | hread
  · rw [hxo.1] at hmerge
    cases hmerge
  · exact hread

/-- The load runs in the one live block, and its output ends at `top`: the store it waits for
has the load's own output as its pointer. -/
theorem pointerLoad_output_top :
    0 ∈ pointerLoad.liveOpsWith (·.output.isSome) ∧
    (pointerLoad.store.op? 0).map (fun x => (x.opcode, x.output)) = some (.load, some 2) ∧
    (propagateConstants toyContext pointerLoad).valueOf 2 = .top := by
  refine ⟨by decide, by decide, ?_⟩
  rw [valueOf_propagateConstants, propagateValues_eq, startValues_eq]
  decide

end Function

end MicroSsa
