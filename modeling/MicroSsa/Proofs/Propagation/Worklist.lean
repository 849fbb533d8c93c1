import MicroSsa.Proofs.Propagation.Monotone
import MicroSsa.Proofs.Store.Links
import Mathlib.Data.List.Perm.Subperm
import Mathlib.Algebra.Order.BigOperators.Group.Finset
/-!
# The propagation loop

`Function.propagateLoop` takes operations off a first-in first-out work list and visits each
(`Propagation.visit`): the operation is evaluated and, when its output falls, the output takes
the lower value and every user of the output is queued again, or every load when the user is a
store.

`Settling` is what every state of the loop keeps, for a linked store: only values change, and
only downwards; no evaluation lies above the output it writes, so a fall stores the evaluation
itself; an operation to settle is waiting or holds its evaluation, stores apart, since a change
of an input of a store queues the loads and never the store; and every post-fixpoint below the
start stays below. One visit keeps it (`Settling.visit`) and lowers `workLeft`, the waiting
operations plus room for a full list for every step a value can still fall
(`Settling.workLeft_visit`); so with more fuel than work the loop ends with an empty list
(`Settling.propagateLoop`).
-/

namespace MicroSsa

namespace Function

namespace Propagation

variable {p : Propagation} {loads : List Nat} {func : Function}

/-! ## The work list -/

@[simp] theorem func_enqueue (p : Propagation) (o : Nat) : (p.enqueue o).func = p.func := by
  unfold enqueue
  split <;> rfl

theorem mem_enqueue {o a : Nat} : a ∈ (p.enqueue o).queue ↔ a = o ∨ a ∈ p.queue := by
  unfold enqueue
  split
  · rename_i h
    rw [List.contains_iff_mem] at h
    constructor
    · exact Or.inr
    · rintro (rfl | ha)
      · exact h
      · exact ha
  · simp [or_comm]

theorem nodup_enqueue (h : p.queue.Nodup) (o : Nat) : (p.enqueue o).queue.Nodup := by
  unfold enqueue
  split
  · exact h
  · rename_i hc
    rw [List.contains_iff_mem] at hc
    simpa [List.nodup_append, h] using fun a ha => (ne_of_mem_of_not_mem ha hc)

@[simp] theorem func_foldl_enqueue (l : List Nat) (p : Propagation) :
    (l.foldl enqueue p).func = p.func := by
  induction l generalizing p with
  | nil => rfl
  | cons o l ih => rw [List.foldl_cons, ih, func_enqueue]

theorem mem_foldl_enqueue (l : List Nat) (p : Propagation) {a : Nat} :
    a ∈ (l.foldl enqueue p).queue ↔ a ∈ l ∨ a ∈ p.queue := by
  induction l generalizing p with
  | nil => simp
  | cons o l ih =>
    rw [List.foldl_cons, ih, mem_enqueue, List.mem_cons]
    tauto

theorem nodup_foldl_enqueue (l : List Nat) (h : p.queue.Nodup) : (l.foldl enqueue p).queue.Nodup := by
  induction l generalizing p with
  | nil => exact h
  | cons o l ih => exact ih (nodup_enqueue h o)

/-- Queueing the users of a changed varnode queues `a` for the user `u`: `a` is a load and `u` a
store, or `a` is `u` itself, neither a store and with an output. -/
def Requeues (loads : List Nat) (func : Function) (u a : Nat) : Prop :=
  ∃ y, func.store.op? u = some y ∧
    (y.opcode = .store ∧ a ∈ loads ∨ y.opcode ≠ .store ∧ y.output.isSome ∧ a = u)

@[simp] theorem func_queueUser (p : Propagation) (u : Nat) :
    (queueUser loads func p u).func = p.func := by
  unfold queueUser
  split
  · split
    · exact func_foldl_enqueue _ _
    · split
      · exact func_enqueue _ _
      · rfl
  · rfl

theorem mem_queueUser {u a : Nat} :
    a ∈ (queueUser loads func p u).queue ↔ a ∈ p.queue ∨ Requeues loads func u a := by
  unfold queueUser Requeues
  cases hy : func.store.op? u with
  | none => simp
  | some y =>
    simp only [Option.some.injEq, exists_eq_left']
    by_cases hs : y.opcode = .store
    · simp only [hs, BEq.rfl, if_true, mem_foldl_enqueue]
      simp [or_comm]
    · have hs' : (y.opcode == .store) = false := by simpa using hs
      simp only [hs', Bool.false_eq_true, if_false, hs, false_and, false_or]
      by_cases ho : y.output.isSome
      · simp [ho, hs, mem_enqueue, or_comm]
      · simp [ho]

theorem nodup_queueUser (h : p.queue.Nodup) (u : Nat) : (queueUser loads func p u).queue.Nodup := by
  unfold queueUser
  split
  · split
    · exact nodup_foldl_enqueue _ h
    · split
      · exact nodup_enqueue h u
      · exact h
  · exact h

@[simp] theorem func_foldl_queueUser (users : List Nat) (p : Propagation) :
    (users.foldl (queueUser loads func) p).func = p.func := by
  induction users generalizing p with
  | nil => rfl
  | cons u users ih => rw [List.foldl_cons, ih, func_queueUser]

theorem mem_foldl_queueUser (users : List Nat) (p : Propagation) {a : Nat} :
    a ∈ (users.foldl (queueUser loads func) p).queue ↔
      a ∈ p.queue ∨ ∃ u ∈ users, Requeues loads func u a := by
  induction users generalizing p with
  | nil => simp
  | cons u users ih =>
    rw [List.foldl_cons, ih, mem_queueUser]
    simp only [List.mem_cons, exists_eq_or_imp]
    tauto

theorem nodup_foldl_queueUser (users : List Nat) (h : p.queue.Nodup) :
    (users.foldl (queueUser loads func) p).queue.Nodup := by
  induction users generalizing p with
  | nil => exact h
  | cons u users ih => exact ih (nodup_queueUser h u)

/-! ## One visit -/

variable {ctx : Context} {stores : List Nat} {o w v : Nat}

/-- A visit that lowers no value leaves the function and the work list as they were. -/
theorem visit_of_not_lowered (loads : List Nat)
    (h : ∀ w, (p.func.store.op? o).bind (·.output) = some w →
      (p.func.valueOf w).loweredBy (evalOp ctx p.func stores o).value = none) :
    (visit ctx loads stores p o).func = p.func ∧ (visit ctx loads stores p o).queue = p.queue := by
  unfold visit
  cases hw : (p.func.store.op? o).bind (·.output) with
  | none =>
    by_cases hs : (evalOp ctx p.func stores o).stackUnsafe <;> simp [hs, hw]
  | some w =>
    by_cases hs : (evalOp ctx p.func stores o).stackUnsafe <;> simp [hs, hw, h w hw]

/-- A visit that lowers the output `w` of `o` to `a` stores `a` and queues what the users of `w`
ask for. -/
theorem visit_of_lowered (loads : List Nat) {a : Value} (hw : (p.func.store.op? o).bind (·.output) = some w)
    (ha : (p.func.valueOf w).loweredBy (evalOp ctx p.func stores o).value = some a) :
    (visit ctx loads stores p o).func = p.func.setValue w a ∧
      (∀ b, b ∈ (visit ctx loads stores p o).queue ↔ b ∈ p.queue ∨
        ∃ u ∈ ((p.func.store.vn? w).map (·.uses.toList)).getD [],
          Requeues loads (p.func.setValue w a) u b) ∧
      (p.queue.Nodup → (visit ctx loads stores p o).queue.Nodup) := by
  have husers : (((p.func.store.modifyVn w fun y => { y with value := a }).vn? w).map
      (·.uses.toList)).getD [] = ((p.func.store.vn? w).map (·.uses.toList)).getD [] := by
    simp only [Store.vn?_modifyVn, if_true, Option.map_map]
    rfl
  unfold visit
  by_cases hs : (evalOp ctx p.func stores o).stackUnsafe <;>
    simp only [hs, hw, ha, if_true, if_false, Bool.false_eq_true] <;> rw [← setValue, husers] <;>
    exact ⟨func_foldl_queueUser _ _, fun b => mem_foldl_queueUser _ _, fun h => nodup_foldl_queueUser _ h⟩

/-- A visit lowers at most one value, strictly: down the lattice and further from `top`. -/
theorem visit_valueOf (loads : List Nat) (p : Propagation) (o : Nat) :
    (visit ctx loads stores p o).func.valueOf = p.func.valueOf ∨
      ∃ w a, a < p.func.valueOf w ∧ (p.func.valueOf w).height < a.height ∧
        (visit ctx loads stores p o).func.valueOf = Function.update p.func.valueOf w a := by
  cases hw : (p.func.store.op? o).bind (·.output) with
  | none =>
    exact Or.inl (congrArg valueOf (visit_of_not_lowered loads fun w h => by simp [hw] at h).1)
  | some w =>
    cases ha : (p.func.valueOf w).loweredBy (evalOp ctx p.func stores o).value with
    | none =>
      refine Or.inl (congrArg valueOf (visit_of_not_lowered loads fun w' h => ?_).1)
      rw [hw] at h
      cases h
      exact ha
    | some a =>
      obtain ⟨hle, hne, hlt⟩ := Value.lt_of_loweredBy ha
      -- a missing varnode reads `bottom`, which nothing lowers
      have hex : (p.func.store.vn? w).isSome := by
        cases hv : p.func.store.vn? w with
        | some _ => rfl
        | none =>
          have hb : p.func.valueOf w = .bottom := by simp [valueOf, hv]
          have := Value.height_le_two a
          rw [hb] at hlt
          exact absurd hlt (Nat.not_lt.mpr this)
      refine Or.inr ⟨w, a, lt_of_le_of_ne hle hne, hlt, ?_⟩
      rw [(visit_of_lowered loads hw ha).1]
      exact valueOf_setValue hex a

end Propagation

open Propagation

/-! ## What the loop keeps -/

/-- Every value of `σ` lies at or below the evaluation, from `σ` itself, of the operation that
writes it. -/
def PostFixpoint (ctx : Context) (f : Function) (stores : List Nat) (σ : Nat → Value) : Prop :=
  ∀ {o x w}, f.store.op? o = some x → x.output = some w →
    σ w ≤ (evalOp ctx (f.withValues σ) stores o).value

/-- What holds of every state of the loop over `f`, started from the values `start`, that must
settle the operations `seeds`. -/
structure Settling (ctx : Context) (f : Function) (loads stores seeds : List Nat)
    (start : Nat → Value) (p : Propagation) : Prop where
  /-- Only values change. -/
  values : f.withValues p.func.valueOf = p.func
  /-- Values only go down. -/
  below : p.func.valueOf ≤ start
  /-- No evaluation lies above the output it writes. -/
  eval_le : ∀ {o x w}, f.store.op? o = some x → x.output = some w →
    (evalOp ctx p.func stores o).value ≤ p.func.valueOf w
  /-- An operation to settle is waiting, or its output holds its evaluation. -/
  settled : ∀ {o x w}, o ∈ seeds → f.store.op? o = some x → x.output = some w →
    x.opcode ≠ .store → o ∈ p.queue ∨ p.func.valueOf w = (evalOp ctx p.func stores o).value
  /-- Every post-fixpoint below the start stays below. -/
  above : ∀ σ, σ ≤ start → PostFixpoint ctx f stores σ → σ ≤ p.func.valueOf
  nodup : p.queue.Nodup
  queued : ∀ o ∈ p.queue, (f.store.op? o).isSome

variable {ctx : Context} {f : Function} {loads stores seeds : List Nat} {start : Nat → Value}
  {p : Propagation}

namespace Settling

theorem op?_eq (hS : Settling ctx f loads stores seeds start p) (o : Nat) :
    p.func.store.op? o = f.store.op? o := by
  rw [← hS.values]
  rfl

theorem evalOp_eq (hS : Settling ctx f loads stores seeds start p) (o : Nat) :
    evalOp ctx p.func stores o = evalOp ctx (f.withValues p.func.valueOf) stores o := by
  rw [hS.values]

theorem users_eq (hS : Settling ctx f loads stores seeds start p) (w : Nat) :
    ((p.func.store.vn? w).map (·.uses.toList)).getD [] =
      ((f.store.vn? w).map (·.uses.toList)).getD [] := by
  rw [← hS.values, map_vn?_withValues _ _ _ fun _ _ => rfl]

end Settling

/-- A change of `w` queues every operation to settle that reads `w`: one that reads it as an
input directly, and a load through the stores that read it. -/
theorem requeues_of_reads (hL : f.store.Linked)
    (hloads : ∀ {o x}, o ∈ seeds → f.store.op? o = some x → x.opcode = .load → o ∈ loads)
    (hstores : ∀ {st y}, st ∈ stores → f.store.op? st = some y → y.opcode = .store)
    {g : Function} (hg : ∀ o, g.store.op? o = f.store.op? o)
    {o w w' : Nat} {x : Op} (hseed : o ∈ seeds) (hx : f.store.op? o = some x)
    (hw' : x.output = some w') (hst : x.opcode ≠ .store) (hr : f.Reads stores o w) :
    ∃ u ∈ ((f.store.vn? w).map (·.uses.toList)).getD [], Requeues loads g u o := by
  -- a reader of `w` is among its users, by the links of the store
  have huser : ∀ {u y}, f.store.op? u = some y → w ∈ y.inputs →
      u ∈ ((f.store.vn? w).map (·.uses.toList)).getD [] := by
    intro u y hy hw
    obtain ⟨z, hz⟩ := Option.isSome_iff_exists.mp (hL.input_exists hy hw)
    have hc := hL.uses_count hz u
    simp only [Store.readsOf, hy, Option.map_some, Option.getD_some] at hc
    have hpos : 0 < z.uses.count u := hc ▸ Array.count_pos_iff.mpr hw
    simpa [hz] using Array.count_pos_iff.mp hpos
  obtain ⟨x', hx', hr⟩ := hr
  rw [hx] at hx'
  cases hx'
  rcases hr with hin | ⟨hload, st, hst', y, hy, hin⟩
  · exact ⟨o, huser hx hin, x, by rw [hg, hx], Or.inr ⟨hst, by simp [hw'], rfl⟩⟩
  · exact ⟨st, huser hy hin, y, by rw [hg, hy], Or.inl ⟨hstores hst' hy, hloads hseed hx hload⟩⟩

section Step

variable (hL : f.store.Linked)
  (hloads : ∀ {o x}, o ∈ seeds → f.store.op? o = some x → x.opcode = .load → o ∈ loads)
  (hloads_ops : ∀ o ∈ loads, (f.store.op? o).isSome)
  (hstores : ∀ {st y}, st ∈ stores → f.store.op? st = some y → y.opcode = .store)

include hL in
/-- A visit that lowers the output `w` of `o` stores there the evaluation of `o`, which differs
from the old value, and changes nothing else. -/
theorem Settling.lowered (hS : Settling ctx f loads stores seeds start p) {o w : Nat} {a : Value}
    (rest : List Nat) (hw : (f.store.op? o).bind (·.output) = some w)
    (ha : (p.func.valueOf w).loweredBy (evalOp ctx p.func stores o).value = some a) :
    a = (evalOp ctx p.func stores o).value ∧ a ≠ p.func.valueOf w ∧ (f.store.vn? w).isSome ∧
      (Propagation.visit ctx loads stores { p with queue := rest } o).func.valueOf =
        Function.update p.func.valueOf w a ∧
      (Propagation.visit ctx loads stores { p with queue := rest } o).func =
        f.withValues (Function.update p.func.valueOf w a) := by
  obtain ⟨x, hx, hout⟩ := Option.bind_eq_some_iff.mp hw
  have hwex : (f.store.vn? w).isSome := by
    obtain ⟨y, hy, -⟩ := hL.output_def hx hout
    simp [hy]
  have hwex' : (p.func.store.vn? w).isSome := by
    rw [← hS.values, vn?_withValues]
    simpa using hwex
  -- the evaluation lies below the output, so lowering stores the evaluation itself
  have hae : a = (evalOp ctx p.func stores o).value := by
    rw [Value.loweredBy_of_le (hS.eval_le hx hout)] at ha
    split at ha
    · cases ha
    · exact (Option.some.inj ha).symm
  obtain ⟨hf, -, -⟩ := visit_of_lowered (p := { p with queue := rest }) loads
    (by rw [hS.op?_eq]; exact hw) ha
  refine ⟨hae, (Value.lt_of_loweredBy ha).2.1, hwex, ?_, ?_⟩
  · rw [hf]
    exact valueOf_setValue hwex' a
  · rw [hf]
    conv_lhs => rw [← hS.values]
    exact setValue_withValues f _ w a

/-- A visit that lowers nothing leaves the function as it was and takes `o` off the list; the
output of `o` then holds its evaluation. -/
theorem Settling.unchanged (hS : Settling ctx f loads stores seeds start p) {o : Nat}
    (rest : List Nat) (hlow : ¬∃ w a, (f.store.op? o).bind (·.output) = some w ∧
      (p.func.valueOf w).loweredBy (evalOp ctx p.func stores o).value = some a) :
    (∀ w, (f.store.op? o).bind (·.output) = some w →
      p.func.valueOf w = (evalOp ctx p.func stores o).value) ∧
    (Propagation.visit ctx loads stores { p with queue := rest } o).func = p.func ∧
    (Propagation.visit ctx loads stores { p with queue := rest } o).queue = rest := by
  have hnone : ∀ w, (f.store.op? o).bind (·.output) = some w →
      (p.func.valueOf w).loweredBy (evalOp ctx p.func stores o).value = none := by
    intro w hw
    cases ha : (p.func.valueOf w).loweredBy (evalOp ctx p.func stores o).value with
    | none => rfl
    | some a => exact absurd ⟨w, a, hw, ha⟩ hlow
  refine ⟨fun w hw => ?_, visit_of_not_lowered (p := { p with queue := rest }) loads
    fun w hw => hnone w (by rw [← hS.op?_eq]; exact hw)⟩
  -- not lowered by an evaluation below it: the two are equal
  obtain ⟨x, hx, hout⟩ := Option.bind_eq_some_iff.mp hw
  have h := hnone w hw
  rw [Value.loweredBy_of_le (hS.eval_le hx hout)] at h
  split at h
  · exact (‹_› : _ = _).symm
  · cases h

include hL hloads hloads_ops hstores in
/-- One visit keeps the invariant. -/
theorem Settling.visit (hS : Settling ctx f loads stores seeds start p) {o : Nat} {rest : List Nat}
    (hq : p.queue = o :: rest) :
    Settling ctx f loads stores seeds start (Propagation.visit ctx loads stores { p with queue := rest } o) := by
  have hnd : rest.Nodup := by
    have h := hS.nodup
    rw [hq] at h
    exact h.of_cons
  have hrest : ∀ b ∈ rest, b ∈ p.queue := fun b hb => hq ▸ List.mem_cons_of_mem o hb
  by_cases hlow : ∃ w a, (f.store.op? o).bind (·.output) = some w ∧
      (p.func.valueOf w).loweredBy (evalOp ctx p.func stores o).value = some a
  · obtain ⟨w, a, hw, ha⟩ := hlow
    obtain ⟨x, hx, hout⟩ := Option.bind_eq_some_iff.mp hw
    obtain ⟨hae, -, -, hval, hfun⟩ := hS.lowered hL rest hw ha
    subst hae
    obtain ⟨-, hmem, hnd'⟩ := visit_of_lowered (p := { p with queue := rest }) loads
      (by rw [hS.op?_eq]; exact hw) ha
    have hle := hS.eval_le hx hout
    generalize hev : (evalOp ctx p.func stores o).value = ev at hval hfun hmem hle
    -- the new values lie below the old ones, so every evaluation falls or stays
    have hupd : Function.update p.func.valueOf w ev ≤ p.func.valueOf := by
      intro v
      by_cases hv : v = w
      · subst hv
        rw [Function.update_self]
        exact hle
      · rw [Function.update_of_ne hv]
    have hdown : ∀ o', (evalOp ctx (Propagation.visit ctx loads stores { p with queue := rest } o).func
        stores o').value ≤ (evalOp ctx p.func stores o').value := by
      intro o'
      rw [hfun, hS.evalOp_eq]
      exact evalOp_mono fun v _ => hupd v
    refine ⟨?_, ?_, fun {o' x' w'} hx' hw' => ?_, fun {o' x' w'} hseed hx' hw' hst => ?_,
      fun σ hσ hpost => ?_, hnd' hnd, fun b hb => ?_⟩
    · rw [hfun, withValues_valueOf_withValues]
    · rw [hval]
      exact fun v => le_trans (hupd v) (hS.below v)
    · -- an output other than `w` keeps its value; `w` holds the evaluation of `o`, its writer
      rw [hval]
      by_cases hww : w' = w
      · subst hww
        obtain rfl := hL.output_inj hx hx' hout hw'
        rw [Function.update_self, ← hev]
        exact hdown o
      · rw [Function.update_of_ne hww]
        exact le_trans (hdown o') (hS.eval_le hx' hw')
    · rw [hmem]
      by_cases hrd : f.Reads stores o' w
      · -- a reader of `w` is queued again
        rw [hS.users_eq]
        exact Or.inl (Or.inr (requeues_of_reads hL hloads hstores (fun _ => hS.op?_eq _) hseed hx'
          hw' hst hrd))
      · have hsame : (evalOp ctx (Propagation.visit ctx loads stores { p with queue := rest } o).func
            stores o').value = (evalOp ctx p.func stores o').value := by
          rw [hfun, hS.evalOp_eq]
          refine evalOp_congr fun v hv => Function.update_of_ne ?_ _ _
          rintro rfl
          exact hrd hv
        by_cases hoo : o' = o
        · subst hoo
          rw [hx] at hx'
          cases hx'
          rw [hw'] at hout
          cases hout
          exact Or.inr (by rw [hval, hsame, Function.update_self, hev])
        · rcases hS.settled hseed hx' hw' hst with hin | heq
          · rw [hq] at hin
            exact Or.inl (Or.inl ((List.mem_cons.mp hin).resolve_left hoo))
          · have hww : w' ≠ w := fun h => hoo (hL.output_inj hx' hx (h ▸ hw') hout)
            exact Or.inr (by rw [hval, Function.update_of_ne hww, hsame, heq])
    · -- a post-fixpoint below the old values lies below the evaluation of `o`
      have habove := hS.above σ hσ hpost
      rw [hval]
      intro v
      by_cases hv : v = w
      · subst hv
        rw [Function.update_self, ← hev, hS.evalOp_eq]
        exact le_trans (hpost hx hout) (evalOp_mono fun u _ => habove u)
      · rw [Function.update_of_ne hv]
        exact habove v
    · rcases (hmem b).mp hb with hb | ⟨u, -, y, hy, h⟩
      · exact hS.queued b (hrest b hb)
      · rcases h with ⟨-, hbl⟩ | ⟨-, -, rfl⟩
        · exact hloads_ops b hbl
        · have hy' : f.store.op? b = some y := by
            rw [← hS.op?_eq]
            exact hy
          simp [hy']
  · -- nothing falls: the function stays, `o` leaves the list
    obtain ⟨heq, hf, hqueue⟩ := hS.unchanged rest hlow
    refine ⟨?_, ?_, ?_, fun {o' x' w'} hseed hx' hw' hst => ?_, ?_, ?_, ?_⟩
    · rw [hf]
      exact hS.values
    · rw [hf]
      exact hS.below
    · rw [hf]
      exact hS.eval_le
    · rw [hf, hqueue]
      rcases hS.settled hseed hx' hw' hst with hin | heq
      · rw [hq] at hin
        rcases List.mem_cons.mp hin with rfl | hin
        · -- `o` itself: its evaluation equals its output, since it did not lower it
          exact Or.inr (heq w' (by simp [hx', hw']))
        · exact Or.inl hin
      · exact Or.inr heq
    · rw [hf]
      exact hS.above
    · rw [hqueue]
      exact hnd
    · rw [hqueue]
      exact fun b hb => hS.queued b (hrest b hb)

/-! ## The loop ends -/

/-- How far the values `σ` can still fall, summed over the varnodes of `f`. -/
def fallRoom (f : Function) (σ : Nat → Value) : Nat :=
  ∑ v ∈ Finset.range f.store.varnodes.size, (2 - (σ v).height)

/-- The work still ahead of the loop: the waiting operations, and room for a full work list for
every step a value can still fall. -/
def workLeft (f : Function) (p : Propagation) : Nat :=
  p.queue.length + (f.store.ops.size + 1) * fallRoom f p.func.valueOf

theorem fallRoom_lt {τ' τ : Nat → Value} {w : Nat} (hw : w < f.store.varnodes.size) (hle : τ' ≤ τ)
    (hlt : (τ w).height < (τ' w).height) : fallRoom f τ' < fallRoom f τ := by
  refine Finset.sum_lt_sum (fun v _ => ?_) ⟨w, Finset.mem_range.mpr hw, ?_⟩
  · have := Value.height_le_of_le (hle v)
    omega
  · have := Value.height_le_two (τ' w)
    omega

/-- The waiting operations are distinct operations of the store, so there are no more of them
than operations. -/
theorem Settling.length_queue_le (hS : Settling ctx f loads stores seeds start p) :
    p.queue.length ≤ f.store.ops.size := by
  have hsub : p.queue ⊆ List.range f.store.ops.size := fun o ho =>
    List.mem_range.mpr (Store.lt_of_isSome_op? (hS.queued o ho))
  simpa using (hS.nodup.subperm hsub).length_le

include hL hloads hloads_ops hstores in
/-- Every visit lowers the work left. -/
theorem Settling.workLeft_visit (hS : Settling ctx f loads stores seeds start p) {o : Nat}
    {rest : List Nat} (hq : p.queue = o :: rest) :
    workLeft f (Propagation.visit ctx loads stores { p with queue := rest } o) < workLeft f p := by
  by_cases hlow : ∃ w a, (f.store.op? o).bind (·.output) = some w ∧
      (p.func.valueOf w).loweredBy (evalOp ctx p.func stores o).value = some a
  · -- a value fell: the room shrinks by at least one, and the list holds at most every operation
    obtain ⟨w, a, hw, ha⟩ := hlow
    obtain ⟨-, -, hwex, hval, -⟩ := hS.lowered hL rest hw ha
    obtain ⟨hale, -, hlt⟩ := Value.lt_of_loweredBy ha
    have hroom : fallRoom f (Propagation.visit ctx loads stores { p with queue := rest } o).func.valueOf <
        fallRoom f p.func.valueOf := by
      rw [hval]
      refine fallRoom_lt (Store.lt_of_isSome_vn? hwex) (fun v => ?_) (by rw [Function.update_self]; exact hlt)
      by_cases hv : v = w
      · subst hv
        rw [Function.update_self]
        exact hale
      · rw [Function.update_of_ne hv]
    have hlen := (hS.visit hL hloads hloads_ops hstores hq).length_queue_le
    have hmul := Nat.mul_le_mul_left (f.store.ops.size + 1) hroom
    unfold workLeft
    rw [Nat.mul_succ] at hmul
    omega
  · obtain ⟨-, hf, hqueue⟩ := hS.unchanged rest hlow
    unfold workLeft
    rw [hf, hqueue, hq, List.length_cons]
    omega

include hL hloads hloads_ops hstores in
/-- With more fuel than work left, the loop keeps the invariant and ends with an empty list. -/
theorem Settling.propagateLoop (hS : Settling ctx f loads stores seeds start p) (fuel : Nat)
    (hfuel : workLeft f p < fuel) :
    Settling ctx f loads stores seeds start (propagateLoop ctx loads stores fuel p) ∧
      (propagateLoop ctx loads stores fuel p).queue = [] := by
  induction fuel generalizing p with
  | zero => omega
  | succ fuel ih =>
    rw [Function.propagateLoop]
    cases hq : p.queue with
    | nil => exact ⟨hS, hq⟩
    | cons o rest =>
      have hlt := hS.workLeft_visit hL hloads hloads_ops hstores hq
      exact ih (hS.visit hL hloads hloads_ops hstores hq) (by omega)

end Step

end Function

end MicroSsa
