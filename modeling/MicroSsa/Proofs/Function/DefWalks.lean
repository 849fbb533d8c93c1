import MicroSsa.Proofs.Ssa.Form
import MicroSsa.Proofs.Propagation.Fixpoint
import MicroSsa.Proofs.Function.Execution
import MicroSsa.Proofs.Function.WalkSteps
/-!
# The definition walks of jump-table recovery end

Jump-table recovery walks up the definitions of a varnode (`Function.DefWalk`) across copies and
extensions or across boolean negations, keeping no record of what it met; each walk is given the
number of operations plus one as fuel. A walk that crosses no merge stops at a varnode that nothing
writes (an input of the function or a free varnode) and at the output of a merge.

On the result of SSA construction from a function whose reads are not linked yet, every varnode
that an operation other than a merge reads is written, if at all, by an operation that runs before
the reader in dominance and block order (`Function.RunsBefore`): in a block that strictly dominates
the reader's, or earlier in the reader's own block (`Built.writersBefore`). That order is strict,
so the writers met along a walk that crosses no merge are all different: the walk repeats no
varnode and takes no more steps than there are operations (`DefPath.length_le`). Constant
propagation changes values only, so the same holds of the copy that recovery analyses
(`buildSsa_defWalksEnd`).
-/

namespace MicroSsa

namespace BlockGraph

variable {g : BlockGraph} {e : Nat}

/-- Strict dominance of a reached block is transitive. -/
theorem StrictlyDominates.trans {a b c : Nat} (hab : g.StrictlyDominates e a b)
    (hbc : g.StrictlyDominates e b c) (hc : g.Reaches e c) : g.StrictlyDominates e a c := by
  refine ⟨?_, hab.2.trans hbc.2⟩
  rintro rfl
  -- `a` and `b` would dominate each other
  exact hab.1 (hab.2.antisymm hbc.2 (hbc.2.reaches hc))

end BlockGraph

/-- What stands in front of the first `b` stands in front of the first `c` when `b` does. -/
theorem mem_takeWhile_ne_trans {a b c : Nat} :
    ∀ {L : List Nat}, a ∈ L.takeWhile (· != b) → b ∈ L.takeWhile (· != c) →
      a ∈ L.takeWhile (· != c)
  | [], ha, _ => ha
  | x :: L, ha, hb => by
    by_cases hxb : x = b
    · subst hxb
      simp at ha
    by_cases hxc : x = c
    · subst hxc
      simp at hb
    rw [List.takeWhile_cons_of_pos (by simpa using hxb)] at ha
    rw [List.takeWhile_cons_of_pos (by simpa using hxc)] at hb ⊢
    rcases List.mem_cons.mp ha with rfl | ha
    · exact List.mem_cons_self
    rcases List.mem_cons.mp hb with rfl | hb
    · exact absurd rfl hxb
    exact List.mem_cons_of_mem _ (mem_takeWhile_ne_trans ha hb)

namespace Function

/-- No read of the function is linked to a write yet: nothing writes a varnode that an operation
reads. Flow following reads every input into a varnode of its own. -/
def ReadsUnlinked (f : Function) : Prop :=
  ∀ o x v, f.store.op? o = some x → v ∈ x.inputs → f.writerOf v = none

theorem readsUnlinked_of_check {f : Function}
    (h : ∀ o < f.store.ops.size, ((f.store.op? o).all fun x =>
      x.inputs.all fun v => (f.writerOf v).isNone) = true) :
    f.ReadsUnlinked := by
  intro o x v hx hv
  have h' := h o (Store.lt_of_isSome_op? (by simp [hx]))
  rw [hx, Option.all_some, Array.all_eq_true'] at h'
  simpa using h' v hv

/-! ## Dominance and block order -/

/-- Operation `d` runs before operation `o` in dominance and block order: `o` is listed by a
block `b` reached from the entry `e`, and `d` by a block that strictly dominates `b`, or by `b`
itself in front of `o`. -/
def RunsBefore (f : Function) (e d o : Nat) : Prop :=
  ∃ b, f.graph.Reaches e b ∧ o ∈ (f.graph.get b).ops ∧
    ((∃ c, f.graph.StrictlyDominates e c b ∧ d ∈ (f.graph.get c).ops) ∨
      d ∈ (f.graph.get b).ops.toList.takeWhile (· != o))

/-- Every varnode an operation other than a merge reads is written, if at all, by an operation
that runs before the reader. -/
def WritersBefore (f : Function) (e : Nat) : Prop :=
  ∀ o x w d, f.store.op? o = some x → x.opcode ≠ .multiEqual → w ∈ x.inputs →
    f.writerOf w = some d → f.RunsBefore e d o

/-- Varnode `u` is written by an operation that runs after the writer of `w`, if `w` has one. -/
def WrittenAfter (f : Function) (e u w : Nat) : Prop :=
  ∃ d, f.writerOf u = some d ∧ d < f.store.ops.size ∧
    ∀ d', f.writerOf w = some d' → f.RunsBefore e d' d

section Order

variable {f : Function} {e : Nat}

/-- Running before is a strict order on the operations of a function whose blocks hold: an
operation is in one block only. -/
theorem RunsBefore.irrefl (hB : f.BlocksHold) (o : Nat) : ¬f.RunsBefore e o o := by
  rintro ⟨b, -, hob, ⟨c, hcb, hoc⟩ | hin⟩
  · exact hcb.1 (hB.eq_of_mem hoc hob)
  · simpa using List.mem_takeWhile_imp hin

theorem RunsBefore.trans (hB : f.BlocksHold) {a b c : Nat} (hab : f.RunsBefore e a b)
    (hbc : f.RunsBefore e b c) : f.RunsBefore e a c := by
  obtain ⟨x, -, hbx, hax⟩ := hab
  obtain ⟨y, hy, hcy, ⟨z, hzy, hbz⟩ | hby⟩ := hbc
  · -- `b` lies in a strict dominator of the block of `c`, and so does `a`
    obtain rfl := hB.eq_of_mem hbx hbz
    refine ⟨y, hy, hcy, .inl ?_⟩
    rcases hax with ⟨w, hwx, haw⟩ | hax
    · exact ⟨w, hwx.trans hzy hy, haw⟩
    · exact ⟨x, hzy, Array.mem_toList_iff.mp (List.takeWhile_subset _ hax)⟩
  · -- `b` lies in front of `c` in its block
    obtain rfl := hB.eq_of_mem hbx (Array.mem_toList_iff.mp (List.takeWhile_subset _ hby))
    refine ⟨x, hy, hcy, hax.imp id fun hax => mem_takeWhile_ne_trans hax hby⟩

theorem runsBefore_congr {f' : Function} (hg : f'.graph = f.graph) {d o : Nat} :
    f'.RunsBefore e d o ↔ f.RunsBefore e d o := by
  simp only [RunsBefore, hg]

theorem WrittenAfter.irrefl (hB : f.BlocksHold) (u : Nat) : ¬f.WrittenAfter e u u := by
  rintro ⟨d, hd, -, hbefore⟩
  exact RunsBefore.irrefl hB d (hbefore d hd)

theorem WrittenAfter.trans (hB : f.BlocksHold) {u v w : Nat} (huv : f.WrittenAfter e u v)
    (hvw : f.WrittenAfter e v w) : f.WrittenAfter e u w := by
  obtain ⟨d, hd, hlt, hbefore⟩ := huv
  obtain ⟨d', hd', -, hbefore'⟩ := hvw
  exact ⟨d, hd, hlt, fun d'' hd'' => (hbefore' d'' hd'').trans hB (hbefore d' hd')⟩

end Order

/-! ## Walks in a function whose writers run before their readers -/

section Ordered

variable {f : Function} {e : Nat} {p : Opcode → Bool} {v : Nat} {L : List Nat}

/-- A step of a walk that crosses no merge goes to a varnode written earlier, or not at all. -/
theorem WritersBefore.writtenAfter (hW : f.WritersBefore e) (hp : p .multiEqual = false) {u w : Nat}
    (hs : f.defStep p u = some w) : f.WrittenAfter e u w := by
  obtain ⟨x, hx, hpx, hw⟩ := defStep_eq_some_iff.mp hs
  obtain ⟨d, hd, hdx⟩ := defOf_eq_some_iff.mp hx
  have hop : x.opcode ≠ .multiEqual := fun h => by
    rw [h, hp] at hpx
    cases hpx
  exact ⟨d, hd, Store.lt_of_isSome_op? (by simp [hdx]),
    fun d' hd' => hW d x w d' hdx hop (Array.mem_of_getElem? hw) hd'⟩

variable (hB : f.BlocksHold) (hW : f.WritersBefore e) (hp : p .multiEqual = false)
include hB hW hp

/-- Along a walk that crosses no merge, each varnode is written after every one that follows. -/
theorem DefPath.pairwise (h : f.DefPath p v L) : L.Pairwise (f.WrittenAfter e) := by
  induction h with
  | start v => exact List.pairwise_singleton _ v
  | @step v w L hs hL ih =>
    have hvw := hW.writtenAfter hp hs
    rw [hL.eq_cons] at ih ⊢
    refine List.pairwise_cons.mpr ⟨fun z hz => ?_, ih⟩
    rcases List.mem_cons.mp hz with rfl | hz
    · exact hvw
    · exact hvw.trans hB (List.rel_of_pairwise_cons ih hz)

theorem DefPath.nodup (h : f.DefPath p v L) : L.Nodup := by
  unfold List.Nodup
  refine (h.pairwise hB hW hp).imp fun {u w} huw heq => ?_
  subst heq
  exact WrittenAfter.irrefl hB u huw

/-- A walk that crosses no merge takes no more steps than there are operations: the varnodes in
front of its last one have distinct writers. -/
theorem DefPath.length_le (h : f.DefPath p v L) : L.length ≤ f.store.ops.size + 1 := by
  have hpw := h.pairwise hB hW hp
  obtain ⟨L', z, rfl⟩ : ∃ L' z, L = L' ++ [z] := by
    rcases List.eq_nil_or_concat L with hnil | ⟨L', z, hL⟩
    · rw [h.eq_cons] at hnil
      cases hnil
    · exact ⟨L', z, by rw [hL, List.concat_eq_append]⟩
  obtain ⟨hL', -, hz⟩ := List.pairwise_append.mp hpw
  have hD : (L'.map fun u => (f.writerOf u).getD 0).Nodup := by
    refine List.pairwise_map.mpr (hL'.imp_of_mem fun {u u'} _ hu' huu' heq => ?_)
    obtain ⟨d, hd, -, hbefore⟩ := huu'
    obtain ⟨d', hd', -⟩ := hz u' hu' z List.mem_cons_self
    simp only [hd, hd', Option.getD_some] at heq
    subst heq
    exact RunsBefore.irrefl hB d (hbefore d hd')
  have hsub : (L'.map fun u => (f.writerOf u).getD 0) ⊆ List.range f.store.ops.size := by
    intro d hd
    obtain ⟨u, hu, rfl⟩ := List.mem_map.mp hd
    obtain ⟨d, hd, hlt, -⟩ := hz u hu z List.mem_cons_self
    simpa [hd] using hlt
  have hlen := (hD.subperm hsub).length_le
  simp only [List.length_map, List.length_range] at hlen
  simp only [List.length_append, List.length_singleton]
  omega

/-- **The walk ends.** From every varnode, a walk that crosses no merge ends, without a repeat,
within as many steps as there are operations. -/
theorem exists_defWalk (v : Nat) :
    ∃ L, f.DefWalk p v L ∧ L.Nodup ∧ L.length ≤ f.store.ops.size + 1 := by
  obtain ⟨L, hL, hend⟩ := exists_defPath f p (f.store.ops.size + 1) v
  have hlen := hL.length_le hB hW hp
  exact ⟨L, hend.resolve_right (by omega), hL.nodup hB hW hp, hlen⟩

end Ordered

/-! ## What SSA form gives the walks -/

/-- What the definition walks of jump-table recovery find in `h`, with entry `e`: every read of
an operation other than a merge is written, if at all, by an operation that runs before the
reader; the walks stop at the inputs of the function, at free varnodes and at the outputs of
merges; the alias chain is the whole walk along copies and extensions, which repeats no varnode,
and it and the stripped extensions are what every fuel covering that walk gives, the fuel of
recovery among them; stripping negations ends where the walk along negations ends. -/
structure DefWalksEnd (h : Function) (e : Nat) : Prop where
  writers_before : h.WritersBefore e
  stops : ∀ v y, h.store.vn? v = some y →
    (y.flags.input = true ∨ y.isFree = true ∨ ∃ x, h.defOf v = some x ∧ x.opcode = .multiEqual) →
      h.defStep isExtension v = none ∧ h.defStep isNegation v = none
  alias_walk : ∀ v, ∃ L z, h.DefWalk isExtension v L ∧ L.getLast? = some z ∧ L.Nodup ∧
    L.length ≤ h.store.ops.size + 1 ∧
      ∀ n, L.length ≤ n + 1 → h.aliasChain n v = L ∧ h.stripExtensions n v = z
  negation_walk : ∀ v, ∃ L z, h.DefWalk isNegation v L ∧ L.getLast? = some z ∧
    L.length ≤ h.store.ops.size + 1 ∧
      ∀ n neg, L.length ≤ n + 1 → h.stripNegations n v neg = (z, neg ^^ ((L.length - 1) % 2 == 1))

/-- The walks end in a function whose blocks hold, whose store is linked, and whose writers run
before their readers. -/
theorem DefWalksEnd.of_writersBefore {h : Function} {e : Nat} (hB : h.BlocksHold)
    (hL : h.store.Linked) (hW : h.WritersBefore e) : h.DefWalksEnd e where
  writers_before := hW
  stops v y hy hstop := by
    -- an input or a free varnode has no writer
    have hcase : h.writerOf v = none ∨ ∃ x, h.defOf v = some x ∧ x.opcode = .multiEqual := by
      rcases hstop with hin | hfree | hm
      · exact .inl (by simp [writerOf, hy, hL.input_undef hy hin])
      · have hw := hL.written hy
        have hnw : y.flags.written = false := by
          simp only [Varnode.isFree, Bool.and_eq_true, Bool.not_eq_true'] at hfree
          exact hfree.1.2
        rw [hnw] at hw
        exact .inl (by simpa [writerOf, hy, Option.isNone_iff_eq_none] using hw.symm)
      · exact .inr hm
    exact ⟨defStep_eq_none_of_stop rfl hcase, defStep_eq_none_of_stop rfl hcase⟩
  alias_walk v := by
    have hp : isExtension .multiEqual = false := rfl
    obtain ⟨L, hwalk, hnodup, hlen⟩ := exists_defWalk hB hW hp v
    obtain ⟨z, hz, -⟩ := hwalk.exists_last
    refine ⟨L, z, hwalk, hz, hnodup, hlen, fun n hn => ⟨hwalk.aliasChain_eq n hn, ?_⟩⟩
    simp [stripExtensions, hwalk.aliasChain_eq n hn, hz]
  negation_walk v := by
    have hp : isNegation .multiEqual = false := rfl
    obtain ⟨L, hwalk, -, hlen⟩ := exists_defWalk hB hW hp v
    obtain ⟨z, hz, -⟩ := hwalk.exists_last
    exact ⟨L, z, hwalk, hz, hlen, fun n neg hn => hwalk.stripNegations_eq hz n neg hn⟩

/-! ## Writers run before their readers after SSA construction -/

section Built

variable {f f₁ f₂ g : Function} {st : Stacks} {e : Nat} {D : List Nat}

/-- A read that an operation other than a merge has in placement's function, and still has in the
result, has no writer there: `f` links no read, placement adds merges only, and the varnode stays
as it was. -/
theorem Built.writerOf_eq_none_of_read₁ (hb : Built f f₁ f₂ g st e D) (hU : f.ReadsUnlinked)
    {o u w : Nat} {x₁ y : Op} (hx₁ : f₁.store.op? o = some x₁) (hm₁ : f₁.isMerge o = false)
    (hw₁ : w ∈ x₁.inputs) (hy : g.store.op? u = some y) (hw : w ∈ y.inputs) :
    g.writerOf w = none := by
  obtain ⟨x₀, hx₀, hins⟩ := hb.placed.op_of_not_merge hb.ready.noMerges hx₁ hm₁
  have hw₀ : w ∈ x₀.inputs := hins ▸ hw₁
  obtain ⟨y₀, hy₀⟩ := Option.isSome_iff_exists.mp (hb.ready.sound.linked.input_exists hx₀ hw₀)
  have hnone : y₀.defOp = none := by simpa [writerOf, hy₀] using hU o x₀ w hx₀ hw₀
  -- the varnode is the same in `f`, in placement's function and in the result
  obtain ⟨y₁, hy₁, hu₁⟩ :=
    Store.vn?_of_node_eq (hb.placed.ext.nodes w (Store.lt_of_isSome_vn? (by simp [hy₀]))) hy₀
  obtain ⟨yg, hyg, hug⟩ := Store.vn?_of_node_eq (hb.input_node₁ hy hw hy₁) hy₁
  have hdef : yg.defOp = y₀.defOp := by
    rw [← Varnode.unread_defOp, hug, Varnode.unread_defOp, ← Varnode.unread_defOp, hu₁,
      Varnode.unread_defOp]
  simp [writerOf, hyg, hdef, hnone]

/-- An operation that runs before `o` along the dominator chain of its reached block, and that
pruning keeps, runs before `o` in the result. -/
theorem Built.runsBefore_of_runBefore (hb : Built f f₁ f₂ g st e D) {b o d : Nat} {q : List Nat}
    (hr : f₁.graph.Reaches e b) (hq : f₁.graph.DomChain e b q) (ho : o ∈ (g.graph.get b).ops)
    (hdD : d ∉ D) (hd : d ∈ f₁.runBefore q b o) : g.RunsBefore e d o := by
  have hs := hb.thinned.succs
  refine ⟨b, (BlockGraph.reaches_congr hs).mpr hr, ho, ?_⟩
  rcases List.mem_append.mp hd with hd | hd
  · -- `d` is in a block above `b` on its chain, a strict dominator of `b`
    obtain ⟨c, hc, hdc⟩ := BlockGraph.mem_runOps.mp hd
    have hnodup := hq.nodup hb.analyzed
    rw [hq.eq_cons] at hnodup
    have hcb : c ≠ b := fun hcb => (List.nodup_cons.mp hnodup).1 (hcb ▸ hc)
    have hdom := (hq.mem_iff hb.analyzed).mp (List.mem_of_mem_tail hc)
    exact .inl ⟨c, (BlockGraph.strictlyDominates_congr hs).mpr ⟨hcb, hdom⟩,
      hb.mem_ops.mpr ⟨Array.mem_toList_iff.mp hdc, hdD⟩⟩
  · -- `d` is in front of `o` in `b`, where it stays once the destroyed merges are gone
    have hoD : o ∉ D := (hb.mem_ops.mp ho).2
    refine .inr ?_
    rw [hb.thinned.ops, takeWhile_filter_ne (by simpa using hoD)]
    exact List.mem_filter.mpr ⟨hd, by simpa using hdD⟩

/-- **Writers run before their readers.** In the result of SSA construction from a function whose
reads are not linked yet, a varnode an operation other than a merge reads is written, if at all,
by an operation that runs before the reader: renaming links a read of a reached block to the last
write of its variable along the dominator chain of the block, and leaves every other read
unwritten. -/
theorem Built.writersBefore (hb : Built f f₁ f₂ g st e D) (hU : f.ReadsUnlinked) :
    g.WritersBefore e := by
  intro o x w d hx hop hw hd
  have hm : g.isMerge o = false := by simp [isMerge, hx, hop]
  obtain ⟨hoD, x₂, hx₂, hxu⟩ := hb.op_kept hx
  have hm₁ : f₁.isMerge o = false := by rw [← hb.isMerge_eq hoD]; exact hm
  by_cases hsub : f₁.InSubtree e e o
  · -- `o` is in a reached block: its read is the one renaming put there
    obtain ⟨b, hbelow, hob⟩ := hsub
    have hr : f₁.graph.Reaches e b := (BlockGraph.below_entry_iff hb.analyzed).mp hbelow
    have hog : o ∈ (g.graph.get b).ops := hb.mem_ops.mpr ⟨hob, hoD⟩
    obtain ⟨q, x₁, v₁, hq, hx₁, hv₁, hslot⟩ := hb.slotOk ((hb.live_iff b).mpr hr) hog hm hx hw
    by_cases hk : ∃ k, f₁.RenamesTo (f.collectVariables.map Prod.fst) v₁ k
    · -- a renamed read takes the output of the last writer along the chain
      obtain ⟨k, hk⟩ := hk
      have hread := hslot.1 k hk
      obtain ⟨y, hy, hyd⟩ : ∃ y, g.store.vn? w = some y ∧ y.defOp = some d := by
        simpa [writerOf, Option.bind_eq_some_iff] using hd
      have hlast := hb.readsAfter_defOp hx hw hread hy
      rw [hyd] at hlast
      exact hb.runsBefore_of_runBefore hr hq hog (hb.not_mem_of_outOf hx hw (hread.1 d hlast))
        (lastWhere_mark hlast).1
    · -- a read renaming leaves stays unwritten
      obtain rfl : w = v₁ := hslot.2 fun k hk' => hk ⟨k, hk'⟩
      rw [hb.writerOf_eq_none_of_read₁ hU hx₁ hm₁ hv₁ hx hw] at hd
      cases hd
  · -- `o` is in no reached block: renaming left its reads alone
    have hkeep := hb.progress.todo o hsub hm₁
    rw [hx₂, Option.map_some] at hkeep
    obtain ⟨x₁, hx₁, hins⟩ := Option.map_eq_some_iff.mp hkeep.symm
    have hw₁ : w ∈ x₁.inputs := by
      rw [hins, ← Op.unstarted_inputs x₂, hxu, Op.unstarted_inputs]
      exact hw
    rw [hb.writerOf_eq_none_of_read₁ hU hx₁ hm₁ hw₁ hx hw] at hd
    cases hd

end Built

/-! ## Constant propagation changes values only -/

/-- A visit of constant propagation stores at most one value. -/
theorem Propagation.visit_func (ctx : Context) (loads stores : List Nat) (p : Propagation) (o : Nat) :
    (Propagation.visit ctx loads stores p o).func = p.func ∨
      ∃ w a, (Propagation.visit ctx loads stores p o).func = p.func.setValue w a := by
  cases hw : (p.func.store.op? o).bind (·.output) with
  | none => exact .inl (Propagation.visit_of_not_lowered loads fun w h => by simp [hw] at h).1
  | some w =>
    cases ha : (p.func.valueOf w).loweredBy (evalOp ctx p.func stores o).value with
    | none =>
      refine .inl (Propagation.visit_of_not_lowered loads fun w' h => ?_).1
      rw [hw] at h
      cases h
      exact ha
    | some a => exact .inr ⟨w, a, (Propagation.visit_of_lowered loads hw ha).1⟩

/-- The propagation loop over `f` keeps it `f` with other values. -/
theorem propagateLoop_withValues (ctx : Context) (loads stores : List Nat) (f : Function) :
    ∀ fuel p, (∃ σ, p.func = f.withValues σ) →
      ∃ σ, (propagateLoop ctx loads stores fuel p).func = f.withValues σ
  | 0, _, h => h
  | fuel + 1, p, ⟨σ, hσ⟩ => by
    unfold propagateLoop
    cases p.queue with
    | nil => exact ⟨σ, hσ⟩
    | cons o rest =>
      refine propagateLoop_withValues ctx loads stores f fuel _ ?_
      rcases Propagation.visit_func ctx loads stores { p with queue := rest } o with h | ⟨w, a, h⟩
      · exact ⟨σ, h.trans hσ⟩
      · refine ⟨Function.update σ w a, ?_⟩
        rw [h]
        exact (congrArg (·.setValue w a) hσ).trans (setValue_withValues f σ w a)

/-- Constant propagation changes the values of the varnodes and nothing else of the store and the
blocks. -/
theorem propagateConstants_withValues (ctx : Context) (f : Function) :
    ∃ σ, (propagateConstants ctx f).store = (f.withValues σ).store ∧
      (propagateConstants ctx f).graph = f.graph := by
  have hend : (propagateConstants ctx f).store = (propagateValues ctx f).func.store ∧
      (propagateConstants ctx f).graph = (propagateValues ctx f).func.graph := by
    unfold propagateConstants
    dsimp only
    split <;> exact ⟨rfl, rfl⟩
  obtain ⟨σ, hσ⟩ : ∃ σ, (propagateValues ctx f).func = f.withValues σ := by
    rw [propagateValues_eq]
    refine propagateLoop_withValues ctx _ _ f _ _ ?_
    exact ⟨_, (Propagation.func_foldl_enqueue _ _).trans (startValues_eq ctx f)⟩
  exact ⟨σ, by rw [hend.1, hσ], by rw [hend.2, hσ]; rfl⟩

/-- The walks end in a function with the operations, writers and blocks of one where they end,
and its varnodes at other values. -/
theorem DefWalksEnd.of_values {g h : Function} {e : Nat} {σ : Nat → Value} (hB : g.BlocksHold)
    (hL : g.store.Linked) (hW : g.WritersBefore e) (hstore : h.store = (g.withValues σ).store)
    (hgraph : h.graph = g.graph) : h.DefWalksEnd e := by
  have hop : ∀ o, h.store.op? o = g.store.op? o := fun o => by rw [hstore]; rfl
  have hwr : ∀ v, h.writerOf v = g.writerOf v := fun v => by
    simp only [writerOf, hstore, vn?_withValues]
    cases g.store.vn? v <;> rfl
  refine DefWalksEnd.of_writersBefore ⟨fun ho => ?_, fun hx hp => ?_, fun b => ?_⟩
    (hstore ▸ hL.withValues σ) fun o x w d hx hmerge hw hd => ?_
  · rw [hgraph] at ho
    rw [hop]
    exact hB.member ho
  · rw [hgraph]
    exact hB.listed (by rwa [hop] at hx) hp
  · rw [hgraph]
    exact hB.nodup b
  · rw [runsBefore_congr hgraph]
    exact hW o x w d (by rwa [hop] at hx) hmerge hw (by rwa [hwr] at hd)

/-- **The definition walks of jump-table recovery end.** On a function ready for SSA construction
whose reads are not linked yet, as flow following leaves them, and whose graph the dominator
analysis has run on from the entry `e`, SSA construction succeeds; in its result, and in every
copy of it with constants propagated, every read of an operation other than a merge is written, if
at all, by an operation that runs before the reader in dominance and block order, and the walks of
recovery end within their fuel: the alias chain repeats no varnode, and each walk stops at an input,
a free varnode, a merge, or an operation it does not cross. -/
theorem buildSsa_defWalksEnd {f : Function} {e : Nat} (hR : f.SsaReady) (hU : f.ReadsUnlinked)
    (hA : f.graph.Analyzed e) (he : f.graph.entry = some e) :
    ∃ g, f.buildSsa = .ok g ∧ g.DefWalksEnd e ∧ ∀ ctx, (propagateConstants ctx g).DefWalksEnd e := by
  obtain ⟨f₁, f₂, g, st, D, hg, hb⟩ := buildSsa_built hR hA he
  have hW := hb.writersBefore hU
  refine ⟨g, hg, DefWalksEnd.of_writersBefore hb.pruned.blocks hb.sound.linked hW, fun ctx => ?_⟩
  obtain ⟨σ, hstore, hgraph⟩ := propagateConstants_withValues ctx g
  exact DefWalksEnd.of_values hb.pruned.blocks hb.sound.linked hW hstore hgraph

/-- On the loop `selfLoop`, analysed, the walks of recovery end after SSA construction and after
constant propagation. -/
theorem buildSsa_defWalksEnd_selfLoop :
    selfLoopAnalyzed.SsaReady ∧ selfLoopAnalyzed.ReadsUnlinked ∧
      selfLoopAnalyzed.graph.Analyzed 0 ∧ selfLoopAnalyzed.graph.entry = some 0 ∧
      ∃ g, selfLoopAnalyzed.buildSsa = .ok g ∧ g.DefWalksEnd 0 ∧
        ∀ ctx, (propagateConstants ctx g).DefWalksEnd 0 := by
  have he : selfLoopAnalyzed.graph.entry = some 0 :=
    (BlockGraph.sameShape_analyzeDominators selfLoop.graph).entry
  have hU : selfLoopAnalyzed.ReadsUnlinked := readsUnlinked_of_check (by decide +kernel)
  exact ⟨selfLoopAnalyzed_ready, hU, selfLoopAnalyzed_analyzed, he,
    buildSsa_defWalksEnd selfLoopAnalyzed_ready hU selfLoopAnalyzed_analyzed he⟩

end Function

end MicroSsa
