import MicroSsa.Store.Edit
import Mathlib.Data.List.Perm.Basic
/-!
# The links of the operation store

An operation names the varnodes it reads and the one it writes; a varnode names the operation
that writes it and holds one entry for each input slot that reads it. A store is **linked**
(`Store.Linked`) when these names agree:

* every varnode an operation reads exists, and lists each operation as often as that operation
  reads it;
* an operation's output and the output's defining operation name each other;
* the written mark says whether there is a defining operation, and an input of the function has
  none;
* the constant mark says whether the varnode lies in the constant space;
* every operation's sequence number is older than the store's counter.

Each edit of the store keeps it linked when the edit's contract holds, and then succeeds; the
lemmas below say so edit by edit, each with the frame of the edit beside it (what it leaves
alone). A varnode's list of readers is the one part of it that reads change, so frames speak of
`Store.node`, the varnodes without their readers.

The last section inserts and removes input slots. Both go through `Linked.reread`: a change of
one operation's inputs keeps the links when every varnode's readers move by as many entries of
that operation as the varnode gained or lost slots.
-/

namespace MicroSsa

namespace Varnode

/-- A varnode without its list of readers. -/
def unread (y : Varnode) : Varnode := { y with uses := #[] }

@[simp] theorem unread_loc (y : Varnode) : y.unread.loc = y.loc := rfl
@[simp] theorem unread_flags (y : Varnode) : y.unread.flags = y.flags := rfl
@[simp] theorem unread_defOp (y : Varnode) : y.unread.defOp = y.defOp := rfl
@[simp] theorem unread_createIndex (y : Varnode) : y.unread.createIndex = y.createIndex := rfl

end Varnode

namespace Store

/-- How many input slots of operation `o` read varnode `v`. -/
def readsOf (s : Store) (o v : Nat) : Nat := ((s.op? o).map fun x => x.inputs.count v).getD 0

/-- The varnodes of a store without their readers. -/
def node (s : Store) (v : Nat) : Option Varnode := (s.vn? v).map Varnode.unread

/-- The def-use links of a store agree. -/
structure Linked (s : Store) : Prop where
  input_exists : ∀ {o x v}, s.op? o = some x → v ∈ x.inputs → (s.vn? v).isSome
  uses_count : ∀ {v y}, s.vn? v = some y → ∀ o, y.uses.count o = s.readsOf o v
  output_def : ∀ {o x v}, s.op? o = some x → x.output = some v →
    ∃ y, s.vn? v = some y ∧ y.defOp = some o
  def_output : ∀ {v y o}, s.vn? v = some y → y.defOp = some o →
    ∃ x, s.op? o = some x ∧ x.output = some v
  written : ∀ {v y}, s.vn? v = some y → y.flags.written = y.defOp.isSome
  input_undef : ∀ {v y}, s.vn? v = some y → y.flags.input = true → y.defOp = none
  constant : ∀ {v y}, s.vn? v = some y → y.flags.constant = (y.loc.addr.space == s.constSpace)
  fresh : ∀ {o x}, s.op? o = some x → x.seq.uniq < s.uniq

variable {s t : Store}

/-! ## Reading entries -/

theorem op?_modifyOp (s : Store) (o : Nat) (g : Op → Op) (x : Nat) :
    (s.modifyOp o g).op? x = if o = x then (s.op? x).map g else s.op? x := by
  unfold op? modifyOp
  rw [Array.getElem?_modify]
  split
  · cases s.ops[x]? with
    | none => rfl
    | some y => cases y <;> rfl
  · rfl

theorem vn?_modifyVn (s : Store) (v : Nat) (g : Varnode → Varnode) (w : Nat) :
    (s.modifyVn v g).vn? w = if v = w then (s.vn? w).map g else s.vn? w := by
  unfold vn? modifyVn
  rw [Array.getElem?_modify]
  split
  · cases s.varnodes[w]? with
    | none => rfl
    | some y => cases y <;> rfl
  · rfl

@[simp] theorem vn?_modifyOp (s : Store) (o : Nat) (g : Op → Op) (w : Nat) :
    (s.modifyOp o g).vn? w = s.vn? w := rfl

@[simp] theorem op?_modifyVn (s : Store) (v : Nat) (g : Varnode → Varnode) (o : Nat) :
    (s.modifyVn v g).op? o = s.op? o := rfl

@[simp] theorem constSpace_modifyOp (s : Store) (o : Nat) (g : Op → Op) :
    (s.modifyOp o g).constSpace = s.constSpace := rfl

@[simp] theorem constSpace_modifyVn (s : Store) (v : Nat) (g : Varnode → Varnode) :
    (s.modifyVn v g).constSpace = s.constSpace := rfl

@[simp] theorem uniq_modifyOp (s : Store) (o : Nat) (g : Op → Op) :
    (s.modifyOp o g).uniq = s.uniq := rfl

@[simp] theorem uniq_modifyVn (s : Store) (v : Nat) (g : Varnode → Varnode) :
    (s.modifyVn v g).uniq = s.uniq := rfl

theorem op_eq_ok {o : Nat} {x : Op} (h : s.op? o = some x) : s.op o = .ok x := by
  simp [op, h]

theorem vn_eq_ok {v : Nat} {y : Varnode} (h : s.vn? v = some y) : s.vn v = .ok y := by
  simp [vn, h]

/-- A change of a varnode's readers alone keeps its node. -/
theorem node_modifyVn {v : Nat} {g : Varnode → Varnode} (hg : ∀ y, (g y).unread = y.unread) :
    (s.modifyVn v g).node = s.node := by
  funext w
  simp only [node, vn?_modifyVn]
  split
  · cases s.vn? w <;> simp [hg]
  · rfl

@[simp] theorem node_modifyOp (s : Store) (o : Nat) (g : Op → Op) : (s.modifyOp o g).node = s.node :=
  rfl

theorem isSome_vn?_modifyVn (s : Store) (v : Nat) (g : Varnode → Varnode) (w : Nat) :
    ((s.modifyVn v g).vn? w).isSome = (s.vn? w).isSome := by
  rw [vn?_modifyVn]
  split <;> simp

theorem readsOf_modifyOp (s : Store) (o : Nat) (g : Op → Op) (o' v : Nat) :
    (s.modifyOp o g).readsOf o' v =
      if o = o' then ((s.op? o').map fun x => (g x).inputs.count v).getD 0 else s.readsOf o' v := by
  simp only [readsOf, op?_modifyOp]
  split <;> simp [Option.map_map, Function.comp_def]

@[simp] theorem readsOf_modifyVn (s : Store) (v : Nat) (g : Varnode → Varnode) (o w : Nat) :
    (s.modifyVn v g).readsOf o w = s.readsOf o w := rfl

namespace Linked

/-- An operation reads only varnodes that exist. -/
theorem readsOf_eq_zero (hL : s.Linked) {v : Nat} (hv : s.vn? v = none) (o : Nat) :
    s.readsOf o v = 0 := by
  unfold readsOf
  cases hx : s.op? o with
  | none => rfl
  | some x =>
    refine Array.count_eq_zero.mpr fun hm => ?_
    simpa [hv] using hL.input_exists hx hm

/-- Two operations with one output are one operation. -/
theorem output_inj (hL : s.Linked) {o o' v : Nat} {x x' : Op} (hx : s.op? o = some x)
    (hx' : s.op? o' = some x') (hv : x.output = some v) (hv' : x'.output = some v) : o = o' := by
  obtain ⟨y, hy, hd⟩ := hL.output_def hx hv
  obtain ⟨y', hy', hd'⟩ := hL.output_def hx' hv'
  rw [hy] at hy'
  cases hy'
  exact Option.some.inj (hd.symm.trans hd')

/-- A varnode without a defining operation is nobody's output. -/
theorem output_ne (hL : s.Linked) {o v : Nat} {x : Op} {y : Varnode} (hx : s.op? o = some x)
    (hy : s.vn? v = some y) (hd : y.defOp = none) : x.output ≠ some v := by
  intro hv
  obtain ⟨y', hy', hd'⟩ := hL.output_def hx hv
  rw [hy] at hy'
  cases hy'
  rw [hd] at hd'
  cases hd'

/-- Changing an operation in a way that keeps its inputs, output and sequence number keeps the
links. -/
theorem modifyOp (hL : s.Linked) (o : Nat) {g : Op → Op}
    (hg : ∀ x, (g x).inputs = x.inputs ∧ (g x).output = x.output ∧ (g x).seq = x.seq) :
    (s.modifyOp o g).Linked := by
  have hop : ∀ o' x', (s.modifyOp o g).op? o' = some x' →
      ∃ x, s.op? o' = some x ∧ x'.inputs = x.inputs ∧ x'.output = x.output ∧ x'.seq = x.seq := by
    intro o' x' h
    rw [op?_modifyOp] at h
    split at h
    · obtain ⟨x, hx, rfl⟩ := Option.map_eq_some_iff.mp h
      exact ⟨x, hx, hg x⟩
    · exact ⟨x', h, rfl, rfl, rfl⟩
  have hreads : ∀ o' v, (s.modifyOp o g).readsOf o' v = s.readsOf o' v := by
    intro o' v
    rw [readsOf_modifyOp]
    split
    · simp only [readsOf, (hg _).1]
    · rfl
  refine ⟨fun hx hm => ?_, fun hy o' => ?_, fun hx hv => ?_, fun hy hd => ?_, hL.written,
    hL.input_undef, hL.constant, fun hx => ?_⟩
  · obtain ⟨x, hx, hin, -⟩ := hop _ _ hx
    exact hL.input_exists hx (hin ▸ hm)
  · rw [hreads]
    exact hL.uses_count hy o'
  · obtain ⟨x, hx, -, hout, -⟩ := hop _ _ hx
    exact hL.output_def hx (hout ▸ hv)
  · obtain ⟨x, hx, hv⟩ := hL.def_output hy hd
    rw [op?_modifyOp]
    split
    · exact ⟨g x, by rw [hx]; rfl, (hg x).2.1.trans hv⟩
    · exact ⟨x, hx, hv⟩
  · obtain ⟨x, hx, -, -, hseq⟩ := hop _ _ hx
    exact hseq ▸ hL.fresh hx

/-- The links of a store whose operations keep their outputs and sequence numbers and whose
varnodes keep their nodes, once its reads are known to be linked. -/
theorem of_reads (hL : s.Linked)
    (hop : ∀ o, (t.op? o).map (fun x => (x.output, x.seq)) = (s.op? o).map (fun x => (x.output, x.seq)))
    (hnode : t.node = s.node) (hc : t.constSpace = s.constSpace) (hu : t.uniq = s.uniq)
    (hin : ∀ {o x v}, t.op? o = some x → v ∈ x.inputs → (t.vn? v).isSome)
    (huses : ∀ {v y}, t.vn? v = some y → ∀ o, y.uses.count o = t.readsOf o v) : t.Linked := by
  -- a varnode of `t` is one of `s` up to its readers, and an operation one of `s` up to its reads
  have hvn : ∀ {v y}, t.vn? v = some y → ∃ y', s.vn? v = some y' ∧ y'.unread = y.unread := by
    intro v y hy
    have h := congrFun hnode v
    simp only [node, hy, Option.map_some] at h
    obtain ⟨y', hy', he⟩ := Option.map_eq_some_iff.mp h.symm
    exact ⟨y', hy', he⟩
  have hvn' : ∀ {v y'}, s.vn? v = some y' → ∃ y, t.vn? v = some y ∧ y'.unread = y.unread := by
    intro v y' hy'
    have h := congrFun hnode v
    simp only [node, hy', Option.map_some] at h
    obtain ⟨y, hy, he⟩ := Option.map_eq_some_iff.mp h
    exact ⟨y, hy, he.symm⟩
  have hopt : ∀ {o x}, t.op? o = some x → ∃ x', s.op? o = some x' ∧ x.output = x'.output ∧ x.seq = x'.seq := by
    intro o x hx
    have h := hop o
    rw [hx, Option.map_some] at h
    obtain ⟨x', hx', he⟩ := Option.map_eq_some_iff.mp h.symm
    exact ⟨x', hx', (Prod.mk.inj he).1.symm, (Prod.mk.inj he).2.symm⟩
  have hops : ∀ {o x'}, s.op? o = some x' → ∃ x, t.op? o = some x ∧ x.output = x'.output := by
    intro o x' hx'
    have h := hop o
    rw [hx', Option.map_some] at h
    obtain ⟨x, hx, he⟩ := Option.map_eq_some_iff.mp h
    exact ⟨x, hx, (Prod.mk.inj he).1⟩
  refine ⟨hin, huses, fun hx hv => ?_, fun hy hd => ?_, fun hy => ?_, fun hy hi => ?_,
    fun hy => ?_, fun hx => ?_⟩
  · obtain ⟨x', hx', hout, -⟩ := hopt hx
    obtain ⟨y', hy', hd⟩ := hL.output_def hx' (hout ▸ hv)
    obtain ⟨y, hy, he⟩ := hvn' hy'
    exact ⟨y, hy, by rw [← Varnode.unread_defOp, ← he, Varnode.unread_defOp, hd]⟩
  · rename_i o
    obtain ⟨y', hy', he⟩ := hvn hy
    have hd' : y'.defOp = some o := by rw [← Varnode.unread_defOp, he, Varnode.unread_defOp, hd]
    obtain ⟨x', hx', hv⟩ := hL.def_output hy' hd'
    obtain ⟨x, hx, hout⟩ := hops hx'
    exact ⟨x, hx, hout.trans hv⟩
  · obtain ⟨y', hy', he⟩ := hvn hy
    rw [← Varnode.unread_flags, ← Varnode.unread_defOp, ← he, Varnode.unread_flags,
      Varnode.unread_defOp]
    exact hL.written hy'
  · obtain ⟨y', hy', he⟩ := hvn hy
    rw [← Varnode.unread_defOp, ← he, Varnode.unread_defOp]
    exact hL.input_undef hy' (by rw [← Varnode.unread_flags, he, Varnode.unread_flags]; exact hi)
  · obtain ⟨y', hy', he⟩ := hvn hy
    rw [← Varnode.unread_flags, ← Varnode.unread_loc, ← he, Varnode.unread_flags,
      Varnode.unread_loc, hc]
    exact hL.constant hy'
  · obtain ⟨x', hx', -, hseq⟩ := hopt hx
    rw [hseq, hu]
    exact hL.fresh hx'

end Linked

/-! ## Creating varnodes and operations -/

theorem vn?_size (s : Store) : s.vn? s.varnodes.size = none := by
  simp [vn?]

/-- A varnode that exists has a slot in the array. -/
theorem lt_of_isSome_vn? {v : Nat} (h : (s.vn? v).isSome) : v < s.varnodes.size := by
  by_contra hv
  simp [vn?, Array.getElem?_eq_none (Nat.le_of_not_lt hv)] at h

theorem mem_liveOps {o : Nat} {x : Op} : (o, x) ∈ s.liveOps ↔ s.op? o = some x := by
  unfold liveOps op?
  rw [List.mem_filterMap]
  constructor
  · rintro ⟨⟨v, i⟩, hp, hv⟩
    rw [List.mem_zipIdx_iff_getElem?, Array.getElem?_toList] at hp
    cases v with
    | none => cases hv
    | some w =>
      simp only [Option.map_some, Option.some.injEq, Prod.mk.injEq] at hv
      obtain ⟨rfl, rfl⟩ := hv
      simp [hp]
  · intro h
    refine ⟨(some x, o), ?_, rfl⟩
    rw [List.mem_zipIdx_iff_getElem?, Array.getElem?_toList]
    cases hs : s.ops[o]? with
    | none => simp [hs] at h
    | some w => simp_all

/-- The varnode `newVarnode` creates. -/
theorem vn?_newVarnode (s : Store) (size : Nat) (addr : Address) (w : Nat) :
    (s.newVarnode size addr).2.vn? w =
      if w = s.varnodes.size then
        some { loc := ⟨addr, size⟩, flags := { constant := addr.space == s.constSpace },
               createIndex := s.varnodes.size }
      else s.vn? w := by
  simp only [newVarnode, vn?, Array.getElem?_push]
  split <;> rfl

@[simp] theorem fst_newVarnode (s : Store) (size : Nat) (addr : Address) :
    (s.newVarnode size addr).1 = s.varnodes.size := rfl

@[simp] theorem op?_newVarnode (s : Store) (size : Nat) (addr : Address) (o : Nat) :
    (s.newVarnode size addr).2.op? o = s.op? o := rfl

@[simp] theorem constSpace_newVarnode (s : Store) (size : Nat) (addr : Address) :
    (s.newVarnode size addr).2.constSpace = s.constSpace := rfl

@[simp] theorem uniq_newVarnode (s : Store) (size : Nat) (addr : Address) :
    (s.newVarnode size addr).2.uniq = s.uniq := rfl

@[simp] theorem size_newVarnode (s : Store) (size : Nat) (addr : Address) :
    (s.newVarnode size addr).2.varnodes.size = s.varnodes.size + 1 := by
  simp [newVarnode]

@[simp] theorem ops_newVarnode (s : Store) (size : Nat) (addr : Address) :
    (s.newVarnode size addr).2.ops = s.ops := rfl

theorem Linked.newVarnode (hL : s.Linked) (size : Nat) (addr : Address) :
    (s.newVarnode size addr).2.Linked := by
  have hne : ∀ {v y}, s.vn? v = some y → v ≠ s.varnodes.size := by
    intro v y hy hv
    rw [hv, vn?_size] at hy
    cases hy
  refine ⟨fun hx hm => ?_, fun hy o => ?_, fun hx hv => ?_, fun hy hd => ?_, fun hy => ?_,
    fun hy hi => ?_, fun hy => ?_, fun hx => hL.fresh hx⟩
  · rw [vn?_newVarnode]
    split
    · rfl
    · exact hL.input_exists hx hm
  · rw [vn?_newVarnode] at hy
    split at hy
    · cases hy
      rename_i h
      subst h
      exact (hL.readsOf_eq_zero (vn?_size s) o).symm
    · exact hL.uses_count hy o
  · obtain ⟨y, hy, hd⟩ := hL.output_def hx hv
    exact ⟨y, by rw [vn?_newVarnode, if_neg (hne hy), hy], hd⟩
  · rw [vn?_newVarnode] at hy
    split at hy
    · cases hy
      cases hd
    · exact hL.def_output hy hd
  · rw [vn?_newVarnode] at hy
    split at hy
    · cases hy
      rfl
    · exact hL.written hy
  · rw [vn?_newVarnode] at hy
    split at hy
    · cases hy
      cases hi
    · exact hL.input_undef hy hi
  · rw [vn?_newVarnode] at hy
    split at hy
    · cases hy
      rfl
    · exact hL.constant hy

@[simp] theorem newSeq_fst (s : Store) (addr : Address) : (s.newSeq addr).1 = ⟨addr, s.uniq⟩ := rfl

theorem newSeq_snd (s : Store) (addr : Address) : (s.newSeq addr).2 = { s with uniq := s.uniq + 1 } :=
  rfl

/-- The operation a fresh sequence number is given to: it is created dead, with no inputs or
output. -/
theorem newOp_newSeq (hL : s.Linked) (addr : Address) (opc : Opcode) :
    (s.newSeq addr).2.newOp opc (s.newSeq addr).1 =
      .ok (s.ops.size, { s with uniq := s.uniq + 1, ops := s.ops.push (some
        { opcode := opc, seq := ⟨addr, s.uniq⟩, flags := { OpFlags.ofOpcode opc with dead := true } }) }) := by
  -- no operation has the new number, dead or not
  have hnone : (s.newSeq addr).2.liveOps.any (fun p => p.2.flags.dead && p.2.seq == ⟨addr, s.uniq⟩) = false := by
    refine List.any_eq_false.mpr fun p hp h => ?_
    have hx : s.op? p.1 = some p.2 := mem_liveOps.mp hp
    have hlt := hL.fresh hx
    simp only [Bool.and_eq_true, beq_iff_eq] at h
    rw [h.2] at hlt
    exact Nat.lt_irrefl _ hlt
  simp only [newOp, newSeq_fst, hnone]
  rfl

theorem op?_push {x : Op} (h : t.ops = s.ops.push (some x)) (o : Nat) :
    t.op? o = if o = s.ops.size then some x else s.op? o := by
  simp only [op?, h, Array.getElem?_push]
  split <;> rfl

theorem op?_size (s : Store) : s.op? s.ops.size = none := by
  simp [op?]

/-- An operation that exists has a slot in the array. -/
theorem lt_of_isSome_op? {o : Nat} (h : (s.op? o).isSome) : o < s.ops.size := by
  by_contra ho
  simp [op?, Array.getElem?_eq_none (Nat.le_of_not_lt ho)] at h

theorem Linked.newOp_newSeq (hL : s.Linked) (addr : Address) (opc : Opcode) :
    ({ s with uniq := s.uniq + 1, ops := s.ops.push (some
        { opcode := opc, seq := ⟨addr, s.uniq⟩, flags := { OpFlags.ofOpcode opc with dead := true } }) } :
      Store).Linked := by
  -- the new operation reads and writes nothing, so every varnode keeps its readers
  have hreads : ∀ o v, ({ s with uniq := s.uniq + 1, ops := s.ops.push (some
      { opcode := opc, seq := ⟨addr, s.uniq⟩, flags := { OpFlags.ofOpcode opc with dead := true } }) } :
      Store).readsOf o v = s.readsOf o v := by
    intro o v
    simp only [readsOf]
    rw [op?_push rfl]
    split
    · subst_vars
      rw [op?_size]
      rfl
    · rfl
  refine ⟨fun hx hm => ?_, fun hy o => ?_, fun hx hv => ?_, fun hy hd => ?_, hL.written,
    hL.input_undef, hL.constant, fun hx => ?_⟩
  · rw [op?_push rfl] at hx
    split at hx
    · cases hx
      simp at hm
    · exact hL.input_exists hx hm
  · rw [hreads]
    exact hL.uses_count hy o
  · rw [op?_push rfl] at hx
    split at hx
    · cases hx
      cases hv
    · exact hL.output_def hx hv
  · obtain ⟨x, hx, hv⟩ := hL.def_output hy hd
    refine ⟨x, ?_, hv⟩
    rw [op?_push rfl, if_neg]
    · exact hx
    · intro h
      rw [h, op?_size] at hx
      cases hx
  · rw [op?_push rfl] at hx
    split at hx
    · cases hx
      exact Nat.lt_succ_self _
    · exact Nat.lt_succ_of_lt (hL.fresh hx)

theorem Linked.newSeq (hL : s.Linked) (addr : Address) : (s.newSeq addr).2.Linked :=
  ⟨hL.input_exists, hL.uses_count, hL.output_def, hL.def_output, hL.written, hL.input_undef,
    hL.constant, fun hx => Nat.lt_succ_of_lt (hL.fresh hx)⟩

/-! ## Reads -/

theorem addUse_eq {v : Nat} (h : (s.vn? v).isSome) (o : Nat) :
    s.addUse v o = .ok (s.modifyVn v fun y => { y with uses := y.uses.push o }) := by
  obtain ⟨y, hy⟩ := Option.isSome_iff_exists.mp h
  simp [addUse, vn_eq_ok hy, bind, Except.bind, pure, Except.pure]

theorem removeUse_eq {v : Nat} (h : (s.vn? v).isSome) (o : Nat) :
    s.removeUse v o = .ok (s.modifyVn v fun y => { y with uses := y.uses.erase o }) := by
  obtain ⟨y, hy⟩ := Option.isSome_iff_exists.mp h
  simp [removeUse, vn_eq_ok hy, bind, Except.bind, pure, Except.pure]

theorem isSome_vn?_iff (h : t.node = s.node) (v : Nat) : (t.vn? v).isSome = (s.vn? v).isSome := by
  have := congrFun h v
  simp only [node] at this
  cases ht : t.vn? v <;> cases hs : s.vn? v <;> simp_all

/-- The readers a varnode lists after one reader is taken off and one put on. -/
theorem count_uses_update (y : Varnode) (ta pu : Bool) (o o' : Nat) :
    (if pu then (if ta then { y with uses := y.uses.erase o } else y).uses.push o
      else (if ta then { y with uses := y.uses.erase o } else y).uses).count o' =
      y.uses.count o' - (if ta ∧ o = o' then 1 else 0) + (if pu ∧ o = o' then 1 else 0) := by
  cases ta <;> cases pu <;> simp [Array.count_push, Array.count_erase]

/-- Setting an input slot that exists to a varnode that exists: the operation reads the new
varnode there, and nothing else changes but readers. -/
theorem setInput_spec (hL : s.Linked) {o v slot : Nat} {x : Op} (hx : s.op? o = some x)
    (hslot : slot < x.inputs.size) (hv : (s.vn? v).isSome) :
    ∃ t, s.setInput o v slot = .ok t ∧ t.Linked ∧
      (∀ o', t.op? o' = if o' = o then some { x with inputs := x.inputs.set! slot v } else s.op? o') ∧
      t.node = s.node ∧ t.varnodes.size = s.varnodes.size ∧ t.ops.size = s.ops.size ∧
      t.constSpace = s.constSpace ∧ t.uniq = s.uniq := by
  have hold : (s.vn? x.inputs[slot]).isSome := hL.input_exists hx (Array.getElem_mem hslot)
  let g : Op → Op := fun x => { x with inputs := x.inputs.set! slot v }
  have hrun : s.setInput o v slot = .ok (((s.modifyOp o g).modifyVn x.inputs[slot]
      fun y => { y with uses := y.uses.erase o }).modifyVn v fun y => { y with uses := y.uses.push o }) := by
    simp only [setInput, op_eq_ok hx, bind, Except.bind, if_neg (Nat.not_lt.mpr (Nat.le_of_lt hslot)),
      dif_pos hslot]
    rw [removeUse_eq (by simpa using hold)]
    dsimp only
    rw [addUse_eq (by rw [isSome_vn?_modifyVn]; exact hv)]
  refine ⟨_, hrun, ?_, fun o' => ?_, ?_, by simp [modifyVn, modifyOp],
    by simp [modifyVn, modifyOp], rfl, rfl⟩
  · have hop' : ∀ o', (((s.modifyOp o g).modifyVn x.inputs[slot]
        fun y => { y with uses := y.uses.erase o }).modifyVn v fun y => { y with uses := y.uses.push o }).op? o' =
        if o = o' then (s.op? o').map g else s.op? o' := fun o' => by
      rw [op?_modifyVn, op?_modifyVn, op?_modifyOp]
    have hnode : (((s.modifyOp o g).modifyVn x.inputs[slot]
        fun y => { y with uses := y.uses.erase o }).modifyVn v fun y => { y with uses := y.uses.push o }).node =
        s.node := by
      rw [node_modifyVn, node_modifyVn]
      · rfl
      · exact fun _ => rfl
      · exact fun _ => rfl
    refine hL.of_reads (fun o' => ?_) hnode rfl rfl (fun {o' x' w} hx' hm => ?_) (fun {w y} hy o' => ?_)
    · rw [hop']
      split
      · subst_vars
        rw [hx]
        rfl
      · rfl
    · rw [isSome_vn?_iff hnode]
      rw [hop'] at hx'
      split at hx'
      · subst_vars
        rw [hx] at hx'
        cases hx'
        rcases Array.mem_or_eq_of_mem_setIfInBounds hm with hm | rfl
        · exact hL.input_exists hx hm
        · exact hv
      · exact hL.input_exists hx' hm
    · -- one slot of `o` stops reading the old varnode and starts reading `v`
      rw [vn?_modifyVn, vn?_modifyVn, vn?_modifyOp] at hy
      cases hs : s.vn? w with
      | none => simp [hs] at hy
      | some y₀ =>
        have hc := hL.uses_count hs o'
        have hy' : y = (if v = w then (if x.inputs[slot] = w then
            { y₀ with uses := y₀.uses.erase o } else y₀).uses.push o |> fun u => { y₀ with uses := u }
            else if x.inputs[slot] = w then { y₀ with uses := y₀.uses.erase o } else y₀) := by
          rw [hs] at hy
          by_cases h₁ : x.inputs[slot] = w <;> by_cases h₂ : v = w <;> simp_all
        subst hy'
        have hcu := count_uses_update y₀ (decide (x.inputs[slot] = w)) (decide (v = w)) o o'
        simp only [decide_eq_true_eq] at hcu
        simp only [readsOf, hop']
        by_cases ho : o = o'
        · subst ho
          simp only [readsOf, hx, Option.map_some, Option.getD_some] at hc
          simp only [hx, Option.map_some, Option.getD_some, g, Array.set!_eq_setIfInBounds,
            Array.setIfInBounds_def, dif_pos hslot, ite_true]
          rw [Array.count_set hslot]
          have hle : (if x.inputs[slot] == w then 1 else 0) ≤ x.inputs.count w :=
            Array.boole_getElem_le_count hslot
          by_cases h₁ : x.inputs[slot] = w <;> by_cases h₂ : v = w <;> simp_all
        · rw [if_neg ho]
          simp only [readsOf] at hc
          by_cases h₁ : x.inputs[slot] = w <;> by_cases h₂ : v = w <;> simp_all
  · rw [op?_modifyVn, op?_modifyVn, op?_modifyOp]
    split
    · subst_vars
      rw [if_pos rfl, hx]
      rfl
    · rw [if_neg (Ne.symm ‹_›)]
  · rw [node_modifyVn, node_modifyVn]
    · rfl
    · exact fun _ => rfl
    · exact fun _ => rfl

/-- Setting the input slot one past the end: the operation reads `v` in a new last slot. -/
theorem setInput_push_spec (hL : s.Linked) {o v : Nat} {x : Op} (hx : s.op? o = some x)
    (hv : (s.vn? v).isSome) :
    ∃ t, s.setInput o v x.inputs.size = .ok t ∧ t.Linked ∧
      (∀ o', t.op? o' = if o' = o then some { x with inputs := x.inputs.push v } else s.op? o') ∧
      t.node = s.node ∧ t.varnodes.size = s.varnodes.size ∧ t.ops.size = s.ops.size ∧
      t.constSpace = s.constSpace ∧ t.uniq = s.uniq := by
  let g : Op → Op := fun x => { x with inputs := x.inputs.push v }
  have hrun : s.setInput o v x.inputs.size = .ok ((s.modifyOp o g).modifyVn v
      fun y => { y with uses := y.uses.push o }) := by
    simp only [setInput, op_eq_ok hx, bind, Except.bind, Nat.lt_irrefl, if_false, dif_neg (Nat.lt_irrefl _)]
    exact addUse_eq (by simpa using hv) o
  have hop' : ∀ o', ((s.modifyOp o g).modifyVn v fun y => { y with uses := y.uses.push o }).op? o' =
      if o = o' then (s.op? o').map g else s.op? o' := fun o' => by
    rw [op?_modifyVn, op?_modifyOp]
  have hnode : ((s.modifyOp o g).modifyVn v fun y => { y with uses := y.uses.push o }).node = s.node := by
    rw [node_modifyVn]
    · rfl
    · exact fun _ => rfl
  refine ⟨_, hrun, ?_, fun o' => ?_, hnode, by simp [modifyVn, modifyOp], by simp [modifyVn, modifyOp],
    rfl, rfl⟩
  · refine hL.of_reads (fun o' => ?_) hnode rfl rfl (fun {o' x' w} hx' hm => ?_) (fun {w y} hy o' => ?_)
    · rw [hop']
      split
      · subst_vars
        rw [hx]
        rfl
      · rfl
    · rw [isSome_vn?_iff hnode]
      rw [hop'] at hx'
      split at hx'
      · subst_vars
        rw [hx] at hx'
        cases hx'
        rcases Array.mem_push.mp hm with hm | rfl
        · exact hL.input_exists hx hm
        · exact hv
      · exact hL.input_exists hx' hm
    · -- one more slot of `o` reads `v`
      rw [vn?_modifyVn, vn?_modifyOp] at hy
      cases hs : s.vn? w with
      | none => simp [hs] at hy
      | some y₀ =>
        have hc := hL.uses_count hs o'
        have hy' : y = if v = w then { y₀ with uses := y₀.uses.push o } else y₀ := by
          rw [hs] at hy
          by_cases h₂ : v = w <;> simp_all
        subst hy'
        simp only [readsOf, hop']
        by_cases ho : o = o'
        · subst ho
          simp only [readsOf, hx, Option.map_some, Option.getD_some] at hc
          simp only [hx, Option.map_some, Option.getD_some, g, ite_true, Array.count_push]
          by_cases h₂ : v = w <;> simp_all
        · rw [if_neg ho]
          simp only [readsOf] at hc
          by_cases h₂ : v = w <;> simp_all
  · rw [op?_modifyVn, op?_modifyOp]
    split
    · subst_vars
      rw [if_pos rfl, hx]
      rfl
    · rw [if_neg (Ne.symm ‹_›)]

/-! ## Outputs and inputs of the function -/

/-- Binding a varnode that has no definition, is no input and no constant as the output of an
operation that has none. -/
theorem setOutput_spec (hL : s.Linked) {o v : Nat} {x : Op} {y : Varnode} (hx : s.op? o = some x)
    (hxo : x.output = none) (hy : s.vn? v = some y) (hd : y.defOp = none)
    (hi : y.flags.input = false) (hc : y.flags.constant = false) :
    ∃ t, s.setOutput o v = .ok t ∧ t.Linked ∧
      (∀ o', t.op? o' = if o' = o then some { x with output := some v } else s.op? o') ∧
      (∀ w, t.node w = if w = v then
        some { y.unread with defOp := some o, flags := { y.flags with written := true } }
        else s.node w) ∧
      t.varnodes.size = s.varnodes.size ∧ t.ops.size = s.ops.size ∧
      t.constSpace = s.constSpace ∧ t.uniq = s.uniq := by
  let t := (s.modifyVn v fun y => { y with defOp := some o, flags := { y.flags with written := true } }).modifyOp o
    fun x => { x with output := some v }
  have hrun : s.setOutput o v = .ok t := by
    simp [setOutput, vn_eq_ok hy, hd, hi, hc, unsetOutput, op_eq_ok hx, hxo, bind, Except.bind, pure,
      Except.pure, t]
  have hop : ∀ o', t.op? o' = if o' = o then some { x with output := some v } else s.op? o' := by
    intro o'
    simp only [t, op?_modifyOp, op?_modifyVn]
    split
    · subst_vars
      rw [if_pos rfl, hx]
      rfl
    · rw [if_neg (Ne.symm ‹_›)]
  have hvn : ∀ w, t.vn? w = if v = w then
      some { y with defOp := some o, flags := { y.flags with written := true } } else s.vn? w := by
    intro w
    simp only [t, vn?_modifyOp, vn?_modifyVn]
    split
    · subst_vars
      rw [hy]
      rfl
    · rfl
  have hreads : ∀ o' w, t.readsOf o' w = s.readsOf o' w := by
    intro o' w
    simp only [readsOf, hop]
    split
    · subst_vars
      rw [hx]
      rfl
    · rfl
  refine ⟨t, hrun, ⟨fun hx' hm => ?_, fun hy' o' => ?_, fun hx' hv' => ?_, fun hy' hd' => ?_,
    fun hy' => ?_, fun hy' hi' => ?_, fun hy' => ?_, fun hx' => ?_⟩, hop, fun w => ?_,
    by simp [t, modifyVn, modifyOp], by simp [t, modifyVn, modifyOp], rfl, rfl⟩
  · rw [hop] at hx'
    rw [hvn]
    split at hx'
    · subst_vars
      cases hx'
      split
      · rfl
      · exact hL.input_exists hx hm
    · split
      · rfl
      · exact hL.input_exists hx' hm
  · rw [hvn] at hy'
    rw [hreads]
    split at hy'
    · subst_vars
      cases hy'
      exact hL.uses_count hy o'
    · exact hL.uses_count hy' o'
  · rw [hop] at hx'
    split at hx'
    · subst_vars
      cases hx'
      cases hv'
      exact ⟨_, by rw [hvn, if_pos rfl], rfl⟩
    · obtain ⟨y', hy', hd'⟩ := hL.output_def hx' hv'
      refine ⟨y', ?_, hd'⟩
      rw [hvn, if_neg]
      · exact hy'
      · rintro rfl
        rw [hy] at hy'
        cases hy'
        rw [hd] at hd'
        cases hd'
  · rename_i w y' o'
    rw [hvn] at hy'
    split at hy'
    · subst_vars
      cases hy'
      cases hd'
      exact ⟨_, by rw [hop, if_pos rfl], rfl⟩
    · obtain ⟨x', hx', hv'⟩ := hL.def_output hy' hd'
      refine ⟨x', ?_, hv'⟩
      rw [hop, if_neg]
      · exact hx'
      · rintro rfl
        rw [hx] at hx'
        cases hx'
        rw [hxo] at hv'
        cases hv'
  · rw [hvn] at hy'
    split at hy'
    · cases hy'
      rfl
    · exact hL.written hy'
  · rw [hvn] at hy'
    split at hy'
    · cases hy'
      simp [hi] at hi'
    · exact hL.input_undef hy' hi'
  · rw [hvn] at hy'
    split at hy'
    · subst_vars
      cases hy'
      have h := hL.constant hy
      exact h
    · exact hL.constant hy'
  · rw [hop] at hx'
    split at hx'
    · subst_vars
      cases hx'
      have h := hL.fresh hx
      exact h
    · exact hL.fresh hx'
  · simp only [node, hvn]
    split
    · subst_vars
      rw [if_pos rfl]
      rfl
    · rw [if_neg (Ne.symm ‹_›)]

/-- Making a free varnode an input of the function. -/
theorem setVarnodeInput_spec (hL : s.Linked) {v : Nat} {y : Varnode} (hy : s.vn? v = some y)
    (hfree : y.isFree = true) :
    ∃ t, s.setVarnodeInput v = .ok t ∧ t.Linked ∧ (∀ o, t.op? o = s.op? o) ∧
      (∀ w, t.vn? w = if w = v then some { y with flags := { y.flags with input := true } }
        else s.vn? w) ∧
      t.varnodes.size = s.varnodes.size ∧ t.ops.size = s.ops.size ∧
      t.constSpace = s.constSpace ∧ t.uniq = s.uniq := by
  let t := s.modifyVn v fun y => { y with flags := { y.flags with input := true } }
  have hrun : s.setVarnodeInput v = .ok t := by
    simp [setVarnodeInput, vn_eq_ok hy, hfree, bind, Except.bind, pure, Except.pure, t]
  have hvn : ∀ w, t.vn? w = if w = v then some { y with flags := { y.flags with input := true } }
      else s.vn? w := by
    intro w
    simp only [t, vn?_modifyVn]
    split
    · subst_vars
      rw [if_pos rfl, hy]
      rfl
    · rw [if_neg (Ne.symm ‹_›)]
  have hw : y.flags.written = false := by
    simp only [Varnode.isFree, Bool.and_eq_true, Bool.not_eq_true'] at hfree
    exact hfree.1.2
  refine ⟨t, hrun, ⟨fun hx hm => ?_, fun hy' o => ?_, fun hx hv => ?_, fun hy' hd => ?_,
    fun hy' => ?_, fun hy' hi => ?_, fun hy' => ?_, fun hx => hL.fresh hx⟩, fun _ => rfl, hvn,
    by simp [t, modifyVn], rfl, rfl, rfl⟩
  · rw [hvn]
    split
    · rfl
    · exact hL.input_exists hx hm
  · rw [hvn] at hy'
    split at hy'
    · subst_vars
      cases hy'
      have h := hL.uses_count hy o
      exact h
    · exact hL.uses_count hy' o
  · obtain ⟨y', hy', hd⟩ := hL.output_def hx hv
    rw [hvn]
    split
    · subst_vars
      rw [hy] at hy'
      cases hy'
      exact ⟨_, rfl, hd⟩
    · exact ⟨y', hy', hd⟩
  · rw [hvn] at hy'
    split at hy'
    · subst_vars
      cases hy'
      have h := hL.def_output hy hd
      exact h
    · exact hL.def_output hy' hd
  · rw [hvn] at hy'
    split at hy'
    · cases hy'
      have h := hL.written hy
      exact h
    · exact hL.written hy'
  · rw [hvn] at hy'
    split at hy'
    · cases hy'
      have := hL.written hy
      rw [hw] at this
      simpa using this.symm
    · exact hL.input_undef hy' hi
  · rw [hvn] at hy'
    split at hy'
    · cases hy'
      have h := hL.constant hy
      exact h
    · exact hL.constant hy'

/-- Deleting a varnode that nothing reads or writes. -/
theorem deleteVarnode_spec (hL : s.Linked) {v : Nat} {y : Varnode} (hy : s.vn? v = some y)
    (hu : y.uses.size = 0) (hd : y.defOp = none) :
    ∃ t, s.deleteVarnode v = .ok t ∧ t.Linked ∧ (∀ o, t.op? o = s.op? o) ∧
      (∀ w, t.vn? w = if w = v then none else s.vn? w) ∧
      t.varnodes.size = s.varnodes.size ∧ t.ops.size = s.ops.size ∧
      t.constSpace = s.constSpace ∧ t.uniq = s.uniq := by
  let t : Store := { s with varnodes := s.varnodes.set! v none }
  have hrun : s.deleteVarnode v = .ok t := by
    simp [deleteVarnode, hy, hu, hd, t]
  have hvn : ∀ w, t.vn? w = if w = v then none else s.vn? w := by
    intro w
    simp only [t, vn?, Array.set!_eq_setIfInBounds, Array.getElem?_setIfInBounds]
    split
    · subst_vars
      split <;> simp_all
    · simp_all [eq_comm]
  -- nothing reads `v`
  have hnoread : ∀ o, s.readsOf o v = 0 := by
    intro o
    rw [← hL.uses_count hy o]
    exact Array.count_eq_zero.mpr fun hm => by
      rw [Array.size_eq_zero_iff] at hu
      simp [hu] at hm
  refine ⟨t, hrun, ⟨fun hx hm => ?_, fun hy' o => ?_, fun hx hv => ?_, fun hy' hd' => ?_,
    fun hy' => ?_, fun hy' hi => ?_, fun hy' => ?_, fun hx => hL.fresh hx⟩, fun _ => rfl, hvn,
    by simp [t], rfl, rfl, rfl⟩
  · rw [hvn]
    split
    · subst_vars
      rename_i o _ _
      have h0 := hnoread o
      have hx' : s.op? o = some _ := hx
      simp only [readsOf, hx', Option.map_some, Option.getD_some] at h0
      exact absurd hm (Array.count_eq_zero.mp h0)
    · exact hL.input_exists hx hm
  · rw [hvn] at hy'
    split at hy'
    · cases hy'
    · exact hL.uses_count hy' o
  · obtain ⟨y', hy', hd'⟩ := hL.output_def hx hv
    rw [hvn]
    split
    · subst_vars
      rw [hy] at hy'
      cases hy'
      rw [hd] at hd'
      cases hd'
    · exact ⟨y', hy', hd'⟩
  · rw [hvn] at hy'
    split at hy'
    · cases hy'
    · exact hL.def_output hy' hd'
  · rw [hvn] at hy'
    split at hy'
    · cases hy'
    · exact hL.written hy'
  · rw [hvn] at hy'
    split at hy'
    · cases hy'
    · exact hL.input_undef hy' hi
  · rw [hvn] at hy'
    split at hy'
    · cases hy'
    · exact hL.constant hy'

/-! ## Changing the inputs of one operation -/

/-- The count of a value among an array's entries after one is inserted. -/
theorem count_insertIdxIfInBounds (xs : Array Nat) {i : Nat} (hi : i ≤ xs.size) (a w : Nat) :
    (xs.insertIdxIfInBounds i a).count w = xs.count w + if a = w then 1 else 0 := by
  obtain ⟨l⟩ := xs
  rw [List.insertIdxIfInBounds_toArray, List.count_toArray, List.count_toArray,
    ((List.perm_insertIdx a l (by simpa using hi)).count_eq w), List.count_cons]
  simp [beq_iff_eq]

/-- The count of a value among an array's entries after the one at `i` is erased. -/
theorem count_eraseIdxIfInBounds (xs : Array Nat) {i : Nat} (hi : i < xs.size) (w : Nat) :
    (xs.eraseIdxIfInBounds i).count w + (if xs[i] = w then 1 else 0) = xs.count w := by
  rw [← Array.count_toList, ← Array.count_toList, Array.toList_eraseIdxIfInBounds]
  have hp : List.Perm (xs.toList[i] :: xs.toList.eraseIdx i) xs.toList :=
    List.getElem_cons_eraseIdx_perm (by simpa using hi)
  rw [← hp.count_eq w, List.count_cons]
  simp [beq_iff_eq]

theorem mem_insertIdxIfInBounds {xs : Array Nat} {i : Nat} (hi : i ≤ xs.size) {a w : Nat} :
    w ∈ xs.insertIdxIfInBounds i a ↔ w = a ∨ w ∈ xs := by
  obtain ⟨l⟩ := xs
  rw [List.insertIdxIfInBounds_toArray, List.mem_toArray, List.mem_toArray,
    List.mem_insertIdx (by simpa using hi)]

theorem mem_of_mem_eraseIdxIfInBounds {xs : Array Nat} {i w : Nat}
    (h : w ∈ xs.eraseIdxIfInBounds i) : w ∈ xs := by
  rw [← Array.mem_toList_iff, Array.toList_eraseIdxIfInBounds] at h
  exact Array.mem_toList_iff.mp (List.mem_of_mem_eraseIdx h)

/-- Changing the inputs of one operation from its old ones to `ys`, with each varnode's readers
changed by as many entries of that operation as the varnode gained or lost, keeps the links. -/
theorem Linked.reread (hL : s.Linked) {o : Nat} {x : Op} (hx : s.op? o = some x) (ys : Array Nat)
    (hop : ∀ o', t.op? o' = if o' = o then some { x with inputs := ys } else s.op? o')
    (hnode : t.node = s.node) (hc : t.constSpace = s.constSpace) (hu : t.uniq = s.uniq)
    (hys : ∀ w ∈ ys, (s.vn? w).isSome)
    (huses : ∀ {w y y'}, s.vn? w = some y → t.vn? w = some y' → ∀ o',
      y'.uses.count o' + (if o' = o then x.inputs.count w else 0) =
        y.uses.count o' + (if o' = o then ys.count w else 0)) :
    t.Linked := by
  have hreads : ∀ o' w, t.readsOf o' w = if o' = o then ys.count w else s.readsOf o' w := by
    intro o' w
    simp only [readsOf, hop]
    split <;> simp
  refine hL.of_reads (fun o' => ?_) hnode hc hu (fun {o' x' w} hx' hm => ?_) (fun {w y'} hy' o' => ?_)
  · rw [hop]
    split
    · subst_vars
      rw [hx]
      rfl
    · rfl
  · rw [isSome_vn?_iff hnode]
    rw [hop] at hx'
    split at hx'
    · cases hx'
      exact hys w hm
    · exact hL.input_exists hx' hm
  · -- the varnode was there before, with the readers the old inputs gave it
    obtain ⟨y, hy⟩ : ∃ y, s.vn? w = some y := by
      have := isSome_vn?_iff hnode w
      rw [hy'] at this
      exact Option.isSome_iff_exists.mp this.symm
    have h := huses hy hy' o'
    have hc' := hL.uses_count hy o'
    rw [hreads]
    by_cases ho : o' = o
    · subst ho
      simp only [readsOf, hx, Option.map_some, Option.getD_some, if_true] at h hc' ⊢
      omega
    · simp only [ho, if_false, Nat.add_zero] at h ⊢
      rw [h, hc']

/-- A successful insertion: the operation and the varnode exist, the slot is at most one past
the end, and the store is the one with the slot inserted and one more reader of `v`. -/
theorem insertInput_ok {o v slot : Nat} (h : s.insertInput o v slot = .ok t) :
    ∃ x, s.op? o = some x ∧ slot ≤ x.inputs.size ∧ (s.vn? v).isSome ∧
      t = (s.modifyOp o fun x => { x with inputs := x.inputs.insertIdxIfInBounds slot v }).modifyVn v
        fun y => { y with uses := y.uses.push o } := by
  obtain ⟨x, hx⟩ : ∃ x, s.op? o = some x := by
    cases hx : s.op? o with
    | none => simp [Store.insertInput, op, hx, bind, Except.bind] at h
    | some x => exact ⟨x, rfl⟩
  have hslot : slot ≤ x.inputs.size := by
    by_contra hlt
    simp [Store.insertInput, op_eq_ok hx, bind, Except.bind, Nat.lt_of_not_le hlt, throw,
      throwThe, MonadExceptOf.throw] at h
  have hv : (s.vn? v).isSome := by
    cases hv : s.vn? v with
    | none =>
      simp [Store.insertInput, op_eq_ok hx, bind, Except.bind, Nat.not_lt.mpr hslot, addUse, vn,
        hv] at h
    | some _ => rfl
  refine ⟨x, hx, hslot, hv, ?_⟩
  simp only [Store.insertInput, op_eq_ok hx, bind, Except.bind, Nat.not_lt.mpr hslot, if_false] at h
  rw [addUse_eq (by rw [vn?_modifyOp]; exact hv)] at h
  exact (Except.ok.inj h).symm

theorem Linked.insertInput (hL : s.Linked) {o v slot : Nat} (h : s.insertInput o v slot = .ok t) :
    t.Linked := by
  obtain ⟨x, hx, hslot, hv, rfl⟩ := insertInput_ok h
  refine hL.reread hx (x.inputs.insertIdxIfInBounds slot v) (fun o' => ?_)
    (by rw [node_modifyVn, node_modifyOp]; exact fun _ => rfl) rfl rfl (fun w hw => ?_)
    (fun {w y y'} hy hy' o' => ?_)
  · rw [op?_modifyVn, op?_modifyOp]
    split
    · subst_vars
      rw [if_pos rfl, hx]
      rfl
    · rw [if_neg (Ne.symm ‹_›)]
  · rcases (mem_insertIdxIfInBounds hslot).mp hw with rfl | hw
    · exact hv
    · exact hL.input_exists hx hw
  · -- `v` gains one reader `o`, every other varnode keeps its readers
    rw [vn?_modifyVn, vn?_modifyOp, hy] at hy'
    rw [count_insertIdxIfInBounds _ hslot]
    by_cases hvw : v = w
    · subst hvw
      simp only [if_true, Option.map_some, Option.some.injEq] at hy'
      subst hy'
      by_cases ho : o' = o
      · subst ho
        simp
        omega
      · simp [ho, Ne.symm ho]
    · simp only [hvw, if_false, Option.some.injEq] at hy'
      subst hy'
      split <;> simp

/-- A successful removal: the slot exists, its varnode is answered, and the store is the one
with the slot erased and one reader `o` fewer for that varnode. -/
theorem removeInput_ok {o slot w : Nat} (h : s.removeInput o slot = .ok (w, t)) :
    ∃ x, s.op? o = some x ∧ ∃ hslot : slot < x.inputs.size, w = x.inputs[slot] ∧
      (s.vn? x.inputs[slot]).isSome ∧
      t = (s.modifyOp o fun x => { x with inputs := x.inputs.eraseIdxIfInBounds slot }).modifyVn
        x.inputs[slot] fun y => { y with uses := y.uses.erase o } := by
  obtain ⟨x, hx⟩ : ∃ x, s.op? o = some x := by
    cases hx : s.op? o with
    | none => simp [Store.removeInput, op, hx, bind, Except.bind] at h
    | some x => exact ⟨x, rfl⟩
  have hslot : slot < x.inputs.size := by
    by_contra hge
    simp [Store.removeInput, op_eq_ok hx, bind, Except.bind, Array.getElem?_eq_none (Nat.le_of_not_lt hge),
      throw, throwThe, MonadExceptOf.throw] at h
  simp only [Store.removeInput, op_eq_ok hx, bind, Except.bind, Array.getElem?_eq_getElem hslot, pure,
    Except.pure] at h
  have hold : (s.vn? x.inputs[slot]).isSome := by
    cases hw : s.vn? x.inputs[slot] with
    | none => simp [removeUse, vn, hw] at h
    | some _ => rfl
  rw [removeUse_eq (by rw [vn?_modifyOp]; exact hold)] at h
  simp only [Except.ok.injEq, Prod.mk.injEq] at h
  exact ⟨x, hx, hslot, h.1.symm, hold, h.2.symm⟩

theorem Linked.removeInput (hL : s.Linked) {o slot w : Nat} (h : s.removeInput o slot = .ok (w, t)) :
    t.Linked := by
  obtain ⟨x, hx, hslot, -, -, rfl⟩ := removeInput_ok h
  refine hL.reread hx (x.inputs.eraseIdxIfInBounds slot) (fun o' => ?_)
    (by rw [node_modifyVn, node_modifyOp]; exact fun _ => rfl) rfl rfl
    (fun w hw => hL.input_exists hx (mem_of_mem_eraseIdxIfInBounds hw))
    (fun {w y y'} hy hy' o' => ?_)
  · rw [op?_modifyVn, op?_modifyOp]
    split
    · subst_vars
      rw [if_pos rfl, hx]
      rfl
    · rw [if_neg (Ne.symm ‹_›)]
  · -- the released varnode loses one reader `o`, which it had
    rw [vn?_modifyVn, vn?_modifyOp, hy] at hy'
    have hcount := count_eraseIdxIfInBounds x.inputs hslot w
    by_cases hvw : x.inputs[slot] = w
    · subst hvw
      simp only [if_true, Option.map_some, Option.some.injEq] at hy' hcount
      subst hy'
      have hpos : 0 < y.uses.count o := by
        rw [hL.uses_count hy o]
        simp only [readsOf, hx, Option.map_some, Option.getD_some]
        omega
      by_cases ho : o' = o
      · subst ho
        simp only [Array.count_erase, beq_self_eq_true, if_true]
        omega
      · simp [ho]
    · simp only [hvw, if_false, Option.some.injEq, Nat.add_zero] at hy' hcount
      subst hy'
      split <;> simp [hcount]

end Store

end MicroSsa
